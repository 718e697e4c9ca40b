import Reckon.Cache
/-
  What a store of bounded size remembers. Beside the store stands a ledger that forgets nothing: the
  keys in the order in which they were used since all was last forgotten, and the values as they
  were assigned (`Cache.Ledger`). A store with room for `n` entries holds the `n` keys of the ledger
  that were used most recently, in the order of their last use and each with the value that was
  assigned to it last, and whatever it is asked it replies what the ledger replies
  (`Cache.serve_recent`).

  The invariant is `Cache.Keeps`. A use puts its key in front of the ledger, where it is the most
  recent one, and all that can happen to the others is that the last of them gives way
  (`Cache.take_cons_filter`).
-/
namespace Reckon.Cache

variable {κ ν : Type} [DecidableEq κ]

/-! ## Requests -/

/-- What a store can be asked. -/
inductive Request (κ ν : Type) where
  /-- The value of a key, or another one where there is none. -/
  | get (key : κ) (default : ν)
  /-- The value of a key that has to be there. -/
  | item (key : κ)
  | assign (key : κ) (value : ν)
  | has (key : κ)
  | count
  | clear

/-- What it replies. -/
inductive Reply (κ ν : Type) where
  | value (v : ν)
  /-- A key that has to be there is not. -/
  | missing (key : κ)
  | truth (b : Bool)
  | number (n : Nat)
  | done
  deriving DecidableEq

/-- The reply to a request, and the store after it. -/
def request (c : Cache κ ν) : Request κ ν → Reply κ ν × Cache κ ν
  | .get key default => (.value ((c.get? key).1.getD default), (c.get? key).2)
  | .item key => ((c.get? key).1.elim (.missing key) .value, (c.get? key).2)
  | .assign key value => (.done, c.set key value)
  | .has key => (.truth (c.contains key), c)
  | .count => (.number c.size, c)
  | .clear => (.done, c.clear)

/-- The replies to requests one after the other, and the store after them. -/
def serve (c : Cache κ ν) : List (Request κ ν) → List (Reply κ ν) × Cache κ ν
  | [] => ([], c)
  | r :: rs =>
    let (reply, c) := c.request r
    let (replies, c) := c.serve rs
    (reply :: replies, c)

/-! ## The ledger -/

/-- All uses of keys since everything was last forgotten, and all assignments, the last one first in
both. -/
structure Ledger (κ ν : Type) where
  used : List κ := []
  assigned : List (κ × ν) := []

namespace Ledger

/-- The `n` keys that were used most recently, the last one first. -/
def recent (l : Ledger κ ν) (n : Nat) : List κ := l.used.eraseDups.take n

/-- The value that was assigned to a key last. -/
def value? (l : Ledger κ ν) (key : κ) : Option ν :=
  (l.assigned.find? fun e => e.1 = key).map (·.2)

/-- The value of a key among the `n` that were used most recently. -/
def find? (l : Ledger κ ν) (n : Nat) (key : κ) : Option ν :=
  if key ∈ l.recent n then l.value? key else none

/-- A use of a key. -/
def use (l : Ledger κ ν) (key : κ) : Ledger κ ν := { l with used := key :: l.used }

/-- Looking for a key is a use of it where it is found. -/
def look (l : Ledger κ ν) (n : Nat) (key : κ) : Ledger κ ν :=
  if key ∈ l.recent n then l.use key else l

/-- The reply to a request when there is room for `n` keys, and the ledger after it. -/
def request (n : Nat) (l : Ledger κ ν) : Request κ ν → Reply κ ν × Ledger κ ν
  | .get key default => (.value ((l.find? n key).getD default), l.look n key)
  | .item key => ((l.find? n key).elim (.missing key) .value, l.look n key)
  | .assign key value => (.done, { l.use key with assigned := (key, value) :: l.assigned })
  | .has key => (.truth (decide (key ∈ l.recent n)), l)
  | .count => (.number (l.recent n).length, l)
  | .clear => (.done, { l with used := [] })

def serve (n : Nat) (l : Ledger κ ν) : List (Request κ ν) → List (Reply κ ν) × Ledger κ ν
  | [] => ([], l)
  | r :: rs =>
    let (reply, l) := l.request n r
    let (replies, l) := l.serve n rs
    (reply :: replies, l)

end Ledger

/-! ## Distinct keys -/

/-- Choosing keys and leaving out repetitions can be done in any order. By recursion on the length,
as the first key is taken out of all others. -/
theorem filter_eraseDups (p : κ → Bool) (keys : List κ) :
    (keys.filter p).eraseDups = keys.eraseDups.filter p := by
  cases keys with
  | nil => rfl
  | cons k keys =>
    have hrest := filter_eraseDups p (keys.filter fun b => !b == k)
    rw [List.filter_filter] at hrest
    rw [List.eraseDups_cons]
    by_cases hk : p k = true
    · rw [List.filter_cons_of_pos hk, List.filter_cons_of_pos hk, List.eraseDups_cons,
        List.filter_filter, ← hrest]
      simp only [Bool.and_comm]
    · rw [List.filter_cons_of_neg hk, List.filter_cons_of_neg hk, ← hrest]
      congr 1
      refine List.filter_congr fun x _ => ?_
      by_cases hx : x = k
      · rw [hx, Bool.eq_false_iff.2 hk, Bool.false_and]
      · simp [hx]
termination_by keys.length
decreasing_by exact Nat.lt_succ_of_le (List.length_filter_le _ _)

theorem nodup_eraseDups (keys : List κ) : keys.eraseDups.Nodup := by
  cases keys with
  | nil => exact List.nodup_nil
  | cons k keys =>
    rw [List.eraseDups_cons]
    refine List.nodup_cons.2 ⟨?_, nodup_eraseDups _⟩
    rw [List.mem_eraseDups, List.mem_filter]
    simp
termination_by keys.length
decreasing_by exact Nat.lt_succ_of_le (List.length_filter_le _ _)

/-- Of distinct keys, a new first one leaves those in front that it leaves of the first `n`. -/
theorem take_cons_filter {keys : List κ} (h : keys.Nodup) (key : κ) (n : Nat) :
    (key :: (keys.take n).filter (· ≠ key)).take n = (key :: keys.filter (· ≠ key)).take n := by
  cases n with
  | zero => rfl
  | succ n =>
    rw [List.take_succ_cons, List.take_succ_cons]
    congr 1
    induction keys generalizing n with
    | nil => rfl
    | cons k keys ih =>
      obtain ⟨hk, hkeys⟩ := List.nodup_cons.1 h
      rw [List.take_succ_cons]
      by_cases heq : k = key
      · -- the key itself gives way, and no other one is equal to it
        have hall : keys.filter (· ≠ key) = keys :=
          List.filter_eq_self.2 fun x hx => decide_eq_true fun hxk => hk (heq ▸ hxk ▸ hx)
        have htake : (keys.take n).filter (· ≠ key) = keys.take n :=
          List.filter_eq_self.2 fun x hx =>
            decide_eq_true fun hxk => hk (heq ▸ hxk ▸ List.mem_of_mem_take hx)
        rw [List.filter_cons_of_neg (by simp [heq]), List.filter_cons_of_neg (by simp [heq]), hall,
          htake, List.take_take, Nat.min_self]
      · rw [List.filter_cons_of_pos (by simp [heq]), List.filter_cons_of_pos (by simp [heq])]
        cases n with
        | zero => rfl
        | succ n => rw [List.take_succ_cons, List.take_succ_cons, ih hkeys n]

/-- After a use, its key is the most recent one. -/
theorem Ledger.recent_use (l : Ledger κ ν) (key : κ) (n : Nat) :
    (l.use key).recent n = (key :: (l.recent n).filter (· ≠ key)).take n := by
  have hothers : (l.used.filter fun b => !b == key).eraseDups
      = l.used.eraseDups.filter (· ≠ key) := by
    rw [filter_eraseDups]
    refine List.filter_congr fun x _ => ?_
    by_cases hx : x = key
    · simp [hx]
    · simp [hx]
  show (key :: l.used).eraseDups.take n = _
  rw [List.eraseDups_cons, hothers]
  exact (take_cons_filter (nodup_eraseDups l.used) key n).symm

/-! ## The store and its ledger -/

/-- A store holds the `n` most recent keys of a ledger, the last one last, with their values. -/
structure Keeps (n : Nat) (l : Ledger κ ν) (c : Cache κ ν) : Prop where
  capacity : c.capacity = n
  keys : c.keys = (l.recent n).reverse
  values : ∀ e ∈ c.entries, l.value? e.1 = some e.2

variable {n : Nat} {l : Ledger κ ν} {c : Cache κ ν}

theorem isSome_find?_iff (c : Cache κ ν) (key : κ) :
    (c.find? key).isSome = true ↔ key ∈ c.keys := by
  rw [find?, Option.isSome_map, List.find?_isSome, keys, List.mem_map]
  simp only [decide_eq_true_eq]

theorem exists_of_find? {key : κ} {v : ν} (h : c.find? key = some v) : (key, v) ∈ c.entries := by
  obtain ⟨e, he, rfl⟩ := Option.map_eq_some_iff.1 h
  obtain rfl : e.1 = key := by simpa using List.find?_some he
  exact List.mem_of_find?_eq_some he

theorem keys_others (c : Cache κ ν) (key : κ) :
    (c.others key).map (·.1) = c.keys.filter (· ≠ key) := by
  rw [others, keys, List.filter_map]
  rfl

namespace Keeps

theorem mem_keys (h : Keeps n l c) {key : κ} : key ∈ c.keys ↔ key ∈ l.recent n := by
  rw [h.keys, List.mem_reverse]

theorem size_eq (h : Keeps n l c) : c.size = (l.recent n).length := by
  have hlength := congrArg List.length h.keys
  rwa [Cache.keys, List.length_map, List.length_reverse] at hlength

/-- What is found in the store is what the ledger says. -/
theorem find?_eq (h : Keeps n l c) (key : κ) : c.find? key = l.find? n key := by
  unfold Ledger.find?
  cases hfind : c.find? key with
  | none =>
    have hkey : key ∉ l.recent n := by
      rw [← h.mem_keys, ← c.isSome_find?_iff, hfind]
      exact Bool.false_ne_true
    rw [if_neg hkey]
  | some v =>
    have he := exists_of_find? hfind
    rw [if_pos (h.mem_keys.1 (List.mem_map_of_mem he)), h.values _ he]

/-- With one more entry for a key, it is the most recent one. -/
theorem reverse_keys (h : Keeps n l c) (key : κ) (value : ν) :
    ((c.others key ++ [(key, value)]).map (·.1)).reverse
      = key :: (l.recent n).filter (· ≠ key) := by
  rw [List.map_append, keys_others, h.keys, List.filter_reverse, List.reverse_append,
    List.reverse_reverse]
  rfl

/-- A key that is found is used. -/
theorem get? (h : Keeps n l c) (key : κ) : Keeps n (l.look n key) (c.get? key).2 := by
  unfold Cache.get? Ledger.look
  cases hfind : c.find? key with
  | none =>
    have hkey : key ∉ l.recent n := by
      rw [← h.mem_keys, ← c.isSome_find?_iff, hfind]
      exact Bool.false_ne_true
    rw [if_neg hkey]
    exact h
  | some v =>
    have hentry := exists_of_find? hfind
    have hkey : key ∈ l.recent n := h.mem_keys.1 (List.mem_map_of_mem hentry)
    rw [if_pos hkey]
    refine ⟨h.capacity, ?_, fun e he => ?_⟩
    · -- the key leaves its old place, so there is room for all
      have hless : ((l.recent n).filter (· ≠ key)).length < (l.recent n).length :=
        List.length_filter_lt_length_iff_exists.2 ⟨key, hkey, by simp⟩
      have hroom : (l.recent n).length ≤ n := List.length_take_le ..
      rw [Ledger.recent_use, List.take_of_length_le (by rw [List.length_cons]; omega),
        ← h.reverse_keys key v, List.reverse_reverse]
      rfl
    · rcases List.mem_append.1 he with he | he
      · exact h.values e (List.mem_filter.1 he).1
      · rw [List.mem_singleton.1 he]
        exact h.values _ hentry

/-- An assignment is a use, and what there is no room for is what was used least recently. -/
theorem set (h : Keeps n l c) (key : κ) (value : ν) :
    Keeps n { l.use key with assigned := (key, value) :: l.assigned } (c.set key value) where
  capacity := h.capacity
  keys := by
    have hall := h.reverse_keys key value
    have hrecent : (c.set key value).keys.reverse = (l.use key).recent n := by
      show (((c.others key ++ [(key, value)]).drop
        ((c.others key ++ [(key, value)]).length - c.capacity)).map (·.1)).reverse = _
      rw [List.map_drop, List.reverse_drop, hall, List.length_map, h.capacity, Ledger.recent_use,
        ← hall, List.take_eq_take_iff, List.length_reverse, List.length_map]
      omega
    rw [← List.reverse_reverse (c.set key value).keys, hrecent]
    rfl
  values := by
    intro e he
    unfold Ledger.value?
    rw [List.find?_cons]
    rcases List.mem_append.1 (List.mem_of_mem_drop he) with he | he
    · obtain ⟨he, hne⟩ := List.mem_filter.1 he
      have hother : key ≠ e.1 := fun heq => by simp [heq] at hne
      rw [decide_eq_false hother]
      exact h.values e he
    · rw [List.mem_singleton.1 he, decide_eq_true rfl]
      rfl

theorem clear (h : Keeps n l c) : Keeps n { l with used := [] } c.clear where
  capacity := h.capacity
  keys := by
    rw [Ledger.recent, List.eraseDups_nil, List.take_nil]
    rfl
  values := List.forall_mem_nil _

/-- One request: the store and its ledger reply the same. -/
theorem request (h : Keeps n l c) (r : Request κ ν) :
    (c.request r).1 = (l.request n r).1 ∧ Keeps n (l.request n r).2 (c.request r).2 := by
  have hget : ∀ key, (c.get? key).1 = l.find? n key := by
    intro key
    rw [← h.find?_eq, Cache.get?]
    cases c.find? key with
    | none => rfl
    | some v => rfl
  cases r with
  | get key default =>
    refine ⟨?_, h.get? key⟩
    rw [Cache.request, Ledger.request, hget]
  | item key =>
    refine ⟨?_, h.get? key⟩
    rw [Cache.request, Ledger.request, hget]
  | assign key value => exact ⟨rfl, h.set key value⟩
  | has key =>
    refine ⟨?_, h⟩
    have hkey : c.contains key = decide (key ∈ l.recent n) := by
      rw [Bool.eq_iff_iff, decide_eq_true_iff, ← h.mem_keys]
      exact c.isSome_find?_iff key
    rw [Cache.request, Ledger.request, hkey]
  | count =>
    refine ⟨?_, h⟩
    rw [Cache.request, Ledger.request, h.size_eq]
  | clear => exact ⟨rfl, h.clear⟩

/-- Requests one after the other. -/
theorem serve (h : Keeps n l c) (rs : List (Request κ ν)) :
    (c.serve rs).1 = (l.serve n rs).1 ∧ Keeps n (l.serve n rs).2 (c.serve rs).2 := by
  induction rs generalizing c l with
  | nil => exact ⟨rfl, h⟩
  | cons r rs ih =>
    obtain ⟨hreply, hnext⟩ := h.request r
    obtain ⟨hreplies, hlast⟩ := ih hnext
    refine ⟨?_, hlast⟩
    show (c.request r).1 :: ((c.request r).2.serve rs).1
      = (l.request n r).1 :: ((l.request n r).2.serve n rs).1
    rw [hreply, hreplies]

end Keeps

theorem keeps_empty (n : Nat) : Keeps n {} (empty n : Cache κ ν) where
  capacity := rfl
  keys := by
    rw [Ledger.recent, List.eraseDups_nil, List.take_nil]
    rfl
  values := List.forall_mem_nil _

/-! ## Recency -/

omit [DecidableEq κ] in
/-- A store is made with room for any positive number of entries. -/
theorem create?_int {n : Int} (hn : 1 ≤ n) :
    (create? (.int n) : Except Fault (Cache κ ν)) = .ok (empty n.toNat) := by
  have hcompare : compare n 1 ≠ .lt := by
    rw [Ne, Int.compare_eq_lt]
    omega
  have hcapacity : capacity? (.int n) = .ok n.toNat := by
    show (if (some (compare n 1) == some .lt) = true then _ else _) = _
    rw [if_neg (by simpa using hcompare)]
    rfl
  rw [create?, hcapacity]
  rfl

/-- A key that has to be there is missing exactly if the store does not hold it. -/
theorem request_item_eq_missing_iff (c : Cache κ ν) (key : κ) :
    (c.request (.item key)).1 = .missing key ↔ key ∉ c.keys := by
  rw [← c.isSome_find?_iff, request, get?]
  cases c.find? key with
  | none => simp
  | some v => simp

/-- A store with room for `n` entries replies to any requests what its ledger replies, for which
there is no bound. It holds the keys that were used most recently since all was last forgotten, in
the order of their last use, `n` of them or all if they are fewer, each with the value assigned to
it last. A use is an assignment, or looking for a key that is found. And a key that has to be there
is missing exactly if it is not among them. -/
theorem serve_recent {n : Int} (hn : 1 ≤ n) :
    ∃ c : Cache κ ν, create? (.int n) = .ok c ∧ ∀ requests : List (Request κ ν),
      ∃ replies after ledger, c.serve requests = (replies, after)
        ∧ Ledger.serve n.toNat {} requests = (replies, ledger)
        ∧ after.keys = (ledger.recent n.toNat).reverse
        ∧ (∀ e ∈ after.entries, ledger.value? e.1 = some e.2)
        ∧ (after.size : Int) ≤ n
        ∧ ∀ key, (after.request (.item key)).1 = .missing key ↔ key ∉ after.keys := by
  refine ⟨_, create?_int hn, fun requests => ?_⟩
  obtain ⟨hreplies, hkeeps⟩ := (keeps_empty n.toNat).serve requests
  refine ⟨_, _, _, rfl, Prod.ext hreplies.symm rfl, hkeeps.keys, hkeeps.values, ?_,
    request_item_eq_missing_iff _⟩
  have hroom : (((Ledger.serve n.toNat {} requests).2 : Ledger κ ν).recent n.toNat).length
      ≤ n.toNat := List.length_take_le ..
  rw [hkeeps.size_eq]
  omega

/-- Two places and three keys, one of them without a value: finding `a` keeps it, asking whether `b`
is there does not, and then `b` gives way. -/
theorem serve_recent_refreshed :
    (1 : Int) ≤ 2 ∧ ∃ c after : Cache String (Option Nat), create? (.int 2) = .ok c
      ∧ c.serve [.assign "a" none, .assign "b" (some 1), .get "a" (some 9), .has "b",
          .assign "c" (some 2), .item "b", .item "a", .count]
        = ([.done, .done, .value none, .truth true, .done, .missing "b", .value none, .number 2],
          after)
      ∧ after.keys = ["c", "a"] ∧ (after.size : Int) ≤ 2
      ∧ ∀ key, (after.request (.item key)).1 = .missing key ↔ key ∉ after.keys := by
  have hn : (1 : Int) ≤ 2 := by decide
  obtain ⟨c, hc, hserve⟩ := serve_recent (κ := String) (ν := Option Nat) hn
  obtain ⟨replies, after, ledger, hrun, hledger, hkeys, -, hsize, hmissing⟩ :=
    hserve [.assign "a" none, .assign "b" (some 1), .get "a" (some 9), .has "b",
      .assign "c" (some 2), .item "b", .item "a", .count]
  have hreplies : replies = [.done, .done, .value none, .truth true, .done, .missing "b",
      .value none, .number 2] := (congrArg Prod.fst hledger).symm
  have hrecent : (ledger.recent 2).reverse = ["c", "a"] :=
    (congrArg (fun x => (x.2.recent 2).reverse) hledger).symm
  exact ⟨hn, c, after, hc, hreplies ▸ hrun, hkeys.trans hrecent, hsize, hmissing⟩

end Reckon.Cache
