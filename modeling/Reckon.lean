import Reckon.Cache
import Reckon.Datum
import Reckon.Datum.Collection
import Reckon.Engine
import Reckon.Engine.Configuration
import Reckon.Engine.Event
import Reckon.Engine.Session
import Reckon.Error
import Reckon.Expr
import Reckon.Expr.Calculator
import Reckon.Expr.Evaluation
import Reckon.Expr.Parser
import Reckon.Expr.Printer
import Reckon.Expr.Reader
import Reckon.Fault
import Reckon.Function
import Reckon.Function.Builtin
import Reckon.Function.Operators
import Reckon.Function.Stock
import Reckon.Limits
import Reckon.Number.Binary64
import Reckon.Number.Layout
import Reckon.Number.Numeral
import Reckon.Number.Places
import Reckon.Number.Reading
import Reckon.Number.Shortest
import Reckon.Precedence
import Reckon.Table
import Reckon.Text.CharClass
import Reckon.Text.Pointer
import Reckon.Text.Quoted
import Reckon.Text.Unicode
import Reckon.Token
import Reckon.Token.Lexeme
import Reckon.Token.Scanner
import Reckon.Trie
import Reckon.Value
import Reckon.Value.Arithmetic
import Reckon.Value.Literal
import Reckon.Value.Power
import Reckon.Value.Template
import Reckon.Proofs.Expr.Phrase
import Reckon.Proofs.Expr.Reading
import Reckon.Proofs.Expr.Acceptance
import Reckon.Proofs.Expr.Limits
import Reckon.Proofs.Expr.Parsing
import Reckon.Proofs.Expr.Charges
import Reckon.Proofs.Expr.Admission
import Reckon.Proofs.Expr.Ordered
import Reckon.Proofs.Expr.Conventional
import Reckon.Proofs.Expr.Complaints
import Reckon.Proofs.Expr.Flat
import Reckon.Proofs.Expr.Viable
import Reckon.Proofs.Token.Boundary
import Reckon.Proofs.Token.Pieces
import Reckon.Proofs.Token.Scanning
import Reckon.Proofs.Token.Literals
import Reckon.Proofs.Token.Longest
import Reckon.Proofs.Token.Matching
import Reckon.Proofs.Token.Blanks
import Reckon.Proofs.Expr.Refusals
import Reckon.Proofs.Expr.RoundTrip
import Reckon.Proofs.Expr.Reprinting
import Reckon.Proofs.Expr.Agreement
import Reckon.Proofs.Expr.Failing
import Reckon.Proofs.Expr.Locating
import Reckon.Proofs.Engine.Atomicity
import Reckon.Proofs.Engine.Functions
import Reckon.Proofs.Engine.Quiet
import Reckon.Proofs.Engine.Remembering
import Reckon.Proofs.Engine.Transparency
import Reckon.Proofs.Engine.Moves
import Reckon.Proofs.Engine.Settings
import Reckon.Proofs.Engine.Nested
import Reckon.Proofs.Engine.Steady
import Reckon.Proofs.Engine.Blame
import Reckon.Proofs.Engine.Containment
import Reckon.Proofs.Engine.Levels
import Reckon.Proofs.Engine.Registering
import Reckon.Proofs.Engine.Reentry
import Reckon.Proofs.Engine.Freshness
import Reckon.Proofs.Engine.Located
import Reckon.Proofs.Engine.Bench
import Reckon.Proofs.Engine.Tracking
import Reckon.Proofs.Engine.Locality
import Reckon.Proofs.Engine.Restart
import Reckon.Proofs.Recency
import Reckon.Proofs.Reuse
import Reckon.Proofs.Token.Constants
import Reckon.Proofs.Value.Literals
import Reckon.Proofs.Engine.Origin
import Reckon.Proofs.Engine.Legible
import Reckon.Proofs.Expr.Unplaced
import Reckon.Proofs.Expr.Walking
import Reckon.Proofs.Engine.Layout
import Reckon.Proofs.Expr.Rejections
import Reckon.Proofs.Number.Rounding
import Reckon.Proofs.Value.Power
import Reckon.Proofs.Value.Overflow
import Reckon.Proofs.Value.Templates
import Reckon.Proofs.Engine.Operation
import Reckon.Proofs.Expr.Cutting
import Reckon.Proofs.Text.Caret
import Reckon.Proofs.Remnants
import Reckon.Proofs.Expr.Nesting
