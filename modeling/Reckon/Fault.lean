/-
  Faults: the ways in which a computation on values, a call or a use of this library can fail
  without an expression being at fault. Each cause is a constructor. `Fault.kind` sorts the
  causes and `Fault.message` words them; nothing else in the library depends on the words.
-/
namespace Reckon

/-- The sorts of faults. -/
inductive Fault.Kind where
  | wrongType
  | wrongValue
  | arithmetic
  | zeroDivision
  | overflow
  | missingKey
  | missingAttribute
  | outOfRange
  | outOfMemory
  | runtime
  deriving DecidableEq, Repr

/-- The sorts that an evaluation reports as errors of the expression: a wrong type or value, and
the three sorts of arithmetic failure. -/
def Fault.Kind.isContained : Fault.Kind → Bool
  | .wrongType | .wrongValue | .arithmetic | .zeroDivision | .overflow => true
  | .missingKey | .missingAttribute | .outOfRange | .outOfMemory | .runtime => false

/-- The parameters of a function with a fixed list of them, the last `optional` of which may be
left out. -/
structure Signature where
  name : String
  parameters : List String
  optional : Nat
  deriving DecidableEq, Repr

/-- Why something failed. Types are named by their words (`int`, `str`, …) and texts are given
as messages show them, in quotes. -/
inductive Fault where
  -- arithmetic
  | divisionByZero
  | floatDivisionByZero
  | moduloByZero
  | floatModuloByZero
  | zeroToNegativePower
  | powerOverflow
  | complexPowerOverflow
  | intTooLarge
  | quotientTooLarge
  | complexPower (base exponent : String)
  | outsideDomain
  | resultTooLarge
  | infinityToInt
  | nanToInt
  -- operands
  | unsupportedOperands (operator left right : String)
  | cannotConcatenate (other : String)
  | cannotRepeat (other : String)
  | countTooLarge
  | textTooLong
  | outOfMemory
  | unsupportedOperand (operator operand : String)
  | notReal (type : String)
  | unordered (relation left right : String)
  -- text templates
  | templateIncomplete
  | templateNeedsMapping
  | templateValueMissing
  | templateValueUnused
  | widthTooBig
  | precisionTooBig
  | precisionTooLarge
  | starNotInt
  | starTooLarge (type : String)
  | unknownConversion (conversion : Char) (index : Nat)
  | conversionNotReal (conversion : Char) (type : String)
  | conversionNotInt (conversion : Char) (type : String)
  | notCharacter
  | characterOutOfRange
  | intTextTooLong (limit : Nat)
  -- calls
  | tooManyArguments (signature : Signature) (given : Nat)
  | missingArguments (signature : Signature) (given : Nat)
  | exactArguments (name : String) (expected given : Nat)
  | oneArgument (name : String) (given : Nat)
  | notCallable (type : String)
  | nestedTooDeep
  | raised (kind : Fault.Kind) (text : String)
  -- number texts
  | invalidInt (base : Nat) (text : String)
  | invalidFloat (text : String)
  | tooManyDigits (limit count : Nat)
  -- use of the stages
  | expressionNotText (type : String)
  | noExpressionLoaded
  | noTokensLoaded
  | noTokensGiven
  | noExpressionToEvaluate
  | notAnExpression (text : String)
  | cacheSize (size : String)
  -- settings
  | invalidOperator (text : String)
  | levelsNotMapping (type : String)
  | levelNotInt (arity operator level : String)
  | operatorFunctionsNotMapping (type : String)
  | operatorNotCallable (arity operator type : String)
  | functionNotCallable (name type : String)
  | binaryFormIncomplete
  | unaryFormIncomplete
  | noForm (operator : String)
  -- plain data
  | missing (key : String)
  | notIterable (type : String)
  | notKey (type : String)
  | noEntries (type : String)
  | notPair (index : Nat)
  | pairLength (index length : Nat)
  | listIndex
  | textIndex
  deriving DecidableEq, Repr

namespace Fault

/-- The sort of each fault. -/
def kind : Fault → Kind
  | divisionByZero | floatDivisionByZero | moduloByZero | floatModuloByZero
  | zeroToNegativePower => .zeroDivision
  | powerOverflow | complexPowerOverflow | intTooLarge | quotientTooLarge | resultTooLarge
  | infinityToInt | countTooLarge | textTooLong => .overflow
  | outOfMemory => .outOfMemory
  | complexPower .. | outsideDomain | nanToInt => .wrongValue
  | unsupportedOperands .. | cannotConcatenate _ | cannotRepeat _ | unsupportedOperand ..
  | notReal _ | unordered .. => .wrongType
  | templateIncomplete | widthTooBig | precisionTooBig | unknownConversion ..
  | intTextTooLong _ => .wrongValue
  | templateNeedsMapping | templateValueMissing | templateValueUnused | starNotInt
  | conversionNotReal .. | conversionNotInt .. | notCharacter => .wrongType
  | precisionTooLarge | starTooLarge _ | characterOutOfRange => .overflow
  | tooManyArguments .. | missingArguments .. | exactArguments .. | oneArgument ..
  | notCallable _ => .wrongType
  | nestedTooDeep => .runtime
  | raised k _ => k
  | invalidInt .. | invalidFloat _ | tooManyDigits .. => .wrongValue
  | expressionNotText _ | notAnExpression _ => .wrongType
  | noExpressionLoaded | noTokensLoaded | noTokensGiven | noExpressionToEvaluate
  | cacheSize _ => .wrongValue
  | invalidOperator _ | binaryFormIncomplete | unaryFormIncomplete | noForm _ => .wrongValue
  | levelsNotMapping _ | levelNotInt .. | operatorFunctionsNotMapping _ | operatorNotCallable ..
  | functionNotCallable .. => .wrongType
  | missing _ => .missingKey
  | notIterable _ | notKey _ | notPair _ => .wrongType
  | pairLength .. => .wrongValue
  | noEntries _ => .missingAttribute
  | listIndex | textIndex => .outOfRange

/-- `1 argument`, `2 arguments`. -/
def counted (n : Nat) (noun : String) : String :=
  toString n ++ " " ++ noun ++ (if n = 1 then "" else "s")

/-- Names in quotes, the last after `and`. -/
def listed : List String → String
  | [] => ""
  | [a] => quoted a
  | [a, b] => quoted a ++ " and " ++ quoted b
  | [a, b, c] => quoted a ++ ", " ++ quoted b ++ ", and " ++ quoted c
  | a :: as => quoted a ++ ", " ++ listed as
where
  quoted (s : String) : String := "'" ++ s ++ "'"

/-- How many arguments a signature takes. -/
def takes (s : Signature) : String :=
  let most := s.parameters.length
  if s.optional = 0 then counted most "positional argument"
  else "from " ++ toString (most - s.optional) ++ " to " ++ toString most
    ++ " positional arguments"

/-- The parameters that `given` arguments leave without a value. -/
def unfilled (s : Signature) (given : Nat) : List String :=
  (s.parameters.take (s.parameters.length - s.optional)).drop given

/-- A character as a message shows it, with a question mark for one that is no printable ASCII. -/
def shownChar (c : Char) : String :=
  String.ofList [if 31 ≤ c.toNat && c.toNat < 127 then c else '?']

/-- The words for a fault. -/
def message : Fault → String
  | divisionByZero => "division by zero"
  | floatDivisionByZero => "float division by zero"
  | moduloByZero => "integer modulo by zero"
  | floatModuloByZero => "float modulo"
  | zeroToNegativePower => "0.0 cannot be raised to a negative power"
  | powerOverflow => "(34, 'Numerical result out of range')"
  | complexPowerOverflow => "complex exponentiation"
  | intTooLarge => "int too large to convert to float"
  | quotientTooLarge => "integer division result too large for a float"
  | complexPower l r => "math domain error: " ++ l ++ " ^ " ++ r
  | outsideDomain => "math domain error"
  | resultTooLarge => "math range error"
  | infinityToInt => "cannot convert float infinity to integer"
  | nanToInt => "cannot convert float NaN to integer"
  | unsupportedOperands op l r =>
    "unsupported operand type(s) for " ++ op ++ ": '" ++ l ++ "' and '" ++ r ++ "'"
  | cannotConcatenate t => "can only concatenate str (not \"" ++ t ++ "\") to str"
  | cannotRepeat t => "can't multiply sequence by non-int of type '" ++ t ++ "'"
  | countTooLarge => "cannot fit 'int' into an index-sized integer"
  | textTooLong => "repeated string is too long"
  | outOfMemory => ""
  | unsupportedOperand op t => "bad operand type for " ++ op ++ ": '" ++ t ++ "'"
  | notReal t => "must be real number, not " ++ t
  | unordered relation l r =>
    "'" ++ relation ++ "' not supported between instances of '" ++ l ++ "' and '" ++ r ++ "'"
  | templateIncomplete => "incomplete format"
  | templateNeedsMapping => "format requires a mapping"
  | templateValueMissing => "not enough arguments for format string"
  | templateValueUnused => "not all arguments converted during string formatting"
  | widthTooBig => "width too big"
  | precisionTooBig => "precision too big"
  | precisionTooLarge => "precision too large"
  | starNotInt => "* wants int"
  | starTooLarge t => "Python int too large to convert to C " ++ t
  | unknownConversion c index =>
    "unsupported format character '" ++ shownChar c ++ "' (0x"
      ++ String.ofList (Nat.toDigits 16 c.toNat) ++ ") at index " ++ toString index
  | conversionNotReal c t =>
    "%" ++ shownChar c ++ " format: a real number is required, not " ++ t
  | conversionNotInt c t => "%" ++ shownChar c ++ " format: an integer is required, not " ++ t
  | notCharacter => "%c requires int or char"
  | characterOutOfRange => "%c arg not in range(0x110000)"
  | intTextTooLong limit =>
    "Exceeds the limit (" ++ toString limit ++ " digits) for integer string conversion; "
      ++ "use sys.set_int_max_str_digits() to increase the limit"
  | tooManyArguments s n =>
    s.name ++ "() takes " ++ takes s ++ " but " ++ toString n
      ++ (if n = 1 then " was given" else " were given")
  | missingArguments s n =>
    let names := unfilled s n
    s.name ++ "() missing " ++ counted names.length "required positional argument" ++ ": "
      ++ listed names
  | exactArguments name k n =>
    name ++ " expected " ++ counted k "argument" ++ ", got " ++ toString n
  | oneArgument name n =>
    name ++ "() takes exactly one argument (" ++ toString n ++ " given)"
  | notCallable t => "'" ++ t ++ "' object is not callable"
  | nestedTooDeep => "maximum recursion depth exceeded"
  | raised _ text => text
  | invalidInt base s =>
    "invalid literal for int() with base " ++ toString base ++ ": " ++ s
  | invalidFloat s => "could not convert string to float: " ++ s
  | tooManyDigits limit n =>
    "Exceeds the limit (" ++ toString limit ++ " digits) for integer string conversion: value has "
      ++ toString n ++ " digits; use sys.set_int_max_str_digits() to increase the limit"
  | expressionNotText t => "Expression must be a string, got " ++ t
  | noExpressionLoaded => "No expression loaded; call reset() first"
  | noTokensLoaded => "No tokens to parse; call reset() first"
  | noTokensGiven => "No tokens given"
  | noExpressionToEvaluate => "No expression to evaluate; call reset() first"
  | notAnExpression s => "Not an AST node: " ++ s
  | cacheSize size => "Cache size must be at least 1, got " ++ size
  | invalidOperator s => "Operators must be non-empty strings, got " ++ s
  | levelsNotMapping t => "Precedence levels must be a mapping, got " ++ t
  | levelNotInt arity op level =>
    "Precedence of " ++ arity ++ " operator " ++ op ++ " must be an integer, got " ++ level
  | operatorFunctionsNotMapping t => "Operator functions must be a mapping, got " ++ t
  | operatorNotCallable arity op t =>
    arity ++ " operator " ++ op ++ " must map to a callable, got " ++ t
  | functionNotCallable name t => "Function " ++ name ++ " must be callable, got " ++ t
  | binaryFormIncomplete => "binary and binary_precedence must be given together"
  | unaryFormIncomplete => "unary and unary_precedence must be given together"
  | noForm op => "Operator " ++ op ++ " needs a unary or binary form"
  | missing key => key
  | notIterable t => "'" ++ t ++ "' object is not iterable"
  | notKey t => "unhashable type: '" ++ t ++ "'"
  | noEntries t => "'" ++ t ++ "' object has no attribute 'items'"
  | notPair n =>
    "cannot convert dictionary update sequence element #" ++ toString n ++ " to a sequence"
  | pairLength n length =>
    "dictionary update sequence element #" ++ toString n ++ " has length " ++ toString length
      ++ "; 2 is required"
  | listIndex => "list index out of range"
  | textIndex => "string index out of range"

end Fault

end Reckon
