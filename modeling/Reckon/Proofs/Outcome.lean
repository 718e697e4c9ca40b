import Reckon.Fault
/-
  Outcomes of computations that can fail. A computation in parts succeeds when its parts do
  (`exists_of_bind_eq_ok`). Two computations on states agree when they give the same answer, or fail
  alike, and leave related states (`Agree`); so do computations in parts that agree.
-/
namespace Reckon

variable {α β : Type}

theorem exists_of_bind_eq_ok {ε : Type} {x : Except ε α} {f : α → Except ε β} {b : β}
    (h : (x >>= f) = .ok b) : ∃ a, x = .ok a ∧ f a = .ok b := by
  cases x with
  | ok a => exact ⟨a, rfl, h⟩
  | error e => exact absurd h (by simp [bind, Except.bind])

theorem exists_of_map_eq_ok {ε : Type} {x : Except ε α} {f : α → β} {b : β}
    (h : x.map f = .ok b) : ∃ a, x = .ok a ∧ f a = b := by
  cases x with
  | ok a => exact ⟨a, rfl, Except.ok.inj h⟩
  | error e => exact absurd h (by simp [Except.map])

theorem eq_ok_of_toOption {ε : Type} {x : Except ε α} {a : α} (h : x.toOption = some a) :
    x = .ok a := by
  cases x with
  | error e => exact absurd h (by simp [Except.toOption])
  | ok b => rw [Option.some.inj h]

/-- Results that are the same but for what `g` forgets of failures. -/
theorem cases_of_mapError_eq {ε ε' : Type} {g : ε → ε'} {r r' : Except ε α}
    (h : r.mapError g = r'.mapError g) :
    (∃ a, r = .ok a ∧ r' = .ok a) ∨ ∃ e f, r = .error e ∧ r' = .error f ∧ g e = g f := by
  have hne : ∀ (a : α) (e : ε'), (Except.ok a : Except ε' α) ≠ .error e := by simp
  cases r with
  | ok a =>
    cases r' with
    | ok b =>
      have heq : a = b := Except.ok.inj h
      exact Or.inl ⟨a, rfl, by rw [heq]⟩
    | error f => exact absurd h (hne a (g f))
  | error e =>
    cases r' with
    | ok b => exact absurd h.symm (hne b (g e))
    | error f => exact Or.inr ⟨e, f, rfl, rfl, Except.error.inj h⟩

/-! ## Agreement -/

variable {ε σ τ : Type}

/-- The outcome of a computation that comes to a result and leaves a state. -/
def outcome (r : Except ε α) (s : σ) : EStateM.Result ε σ α :=
  match r with
  | .ok a => .ok a s
  | .error e => .error e s

theorem bind_of_eq_ok {m : EStateM ε σ α} {k : α → EStateM ε σ β} {s s' : σ} {a : α}
    (h : m s = .ok a s') : (m >>= k) s = k a s' := by
  show EStateM.bind m k s = k a s'
  unfold EStateM.bind
  rw [h]

theorem bind_of_eq_error {m : EStateM ε σ α} {k : α → EStateM ε σ β} {s s' : σ} {e : ε}
    (h : m s = .error e s') : (m >>= k) s = .error e s' := by
  show EStateM.bind m k s = .error e s'
  unfold EStateM.bind
  rw [h]

/-- A computation in parts that answers has parts that answer. -/
theorem exists_of_run_eq_ok {m : EStateM ε σ α} {k : α → EStateM ε σ β} {s s'' : σ} {b : β}
    (h : (m >>= k) s = .ok b s'') : ∃ a s', m s = .ok a s' ∧ k a s' = .ok b s'' := by
  cases hm : m s with
  | ok a s' =>
    rw [bind_of_eq_ok hm] at h
    exact ⟨a, s', rfl, h⟩
  | error e s' =>
    rw [bind_of_eq_error hm] at h
    exact absurd h (by simp)

/-- A computation in parts fails in its first part or in the rest. -/
theorem exists_of_run_eq_error {m : EStateM ε σ α} {k : α → EStateM ε σ β} {s s'' : σ} {e : ε}
    (h : (m >>= k) s = .error e s'') :
    m s = .error e s'' ∨ ∃ a s', m s = .ok a s' ∧ k a s' = .error e s'' := by
  cases hm : m s with
  | ok a s' =>
    rw [bind_of_eq_ok hm] at h
    exact Or.inr ⟨a, s', rfl, h⟩
  | error e' s' =>
    rw [bind_of_eq_error hm] at h
    obtain ⟨rfl, rfl⟩ := EStateM.Result.error.inj h
    exact Or.inl rfl

theorem eq_of_outcome_eq_ok {r : Except ε α} {s s' : σ} {a : α} (h : outcome r s = .ok a s') :
    r = .ok a := by
  cases r with
  | ok b => rw [(EStateM.Result.ok.inj h).1]
  | error e => exact absurd h (by simp [outcome])

theorem eq_of_outcome_eq_error {r : Except ε α} {s s' : σ} {e : ε}
    (h : outcome r s = .error e s') : r = .error e := by
  cases r with
  | ok b => exact absurd h (by simp [outcome])
  | error e' => rw [(EStateM.Result.error.inj h).1]

/-- The answer of an outcome, with the state that it leaves. -/
def answer? : EStateM.Result ε σ α → Option (α × σ)
  | .ok a s => some (a, s)
  | .error _ _ => none

/-- What can be seen of an answer is seen of one. -/
theorem exists_of_answer? {r : EStateM.Result ε σ α} {f : α × σ → β} {b : β}
    (h : (answer? r).map f = some b) : ∃ a s, r = .ok a s ∧ f (a, s) = b := by
  cases r with
  | ok a s => exact ⟨a, s, rfl, Option.some.inj h⟩
  | error e s => exact absurd h (by simp [answer?])

/-- The state that an outcome leaves. -/
def left : EStateM.Result ε σ α → σ
  | .ok _ s => s
  | .error _ s => s

theorem of_eq_ok {P : σ → Prop} {r : EStateM.Result ε σ α} (h : P (left r)) {a : α} {s : σ}
    (hr : r = .ok a s) : P s := by
  rw [hr] at h
  exact h

theorem of_eq_error {P : σ → Prop} {r : EStateM.Result ε σ α} (h : P (left r)) {e : ε} {s : σ}
    (hr : r = .error e s) : P s := by
  rw [hr] at h
  exact h

theorem left_outcome (r : Except ε α) (s : σ) : left (outcome r s) = s := by
  cases r with
  | ok a => rfl
  | error e => rfl

/-- Two outcomes agree: the same answer, or failures that are alike, and they leave related
states. -/
def Agree (Q : σ → τ → Prop) (F : ε → ε → Prop) :
    EStateM.Result ε σ α → EStateM.Result ε τ α → Prop
  | .ok a s, .ok b t => a = b ∧ Q s t
  | .error e s, .error f t => F e f ∧ Q s t
  | _, _ => False

variable {Q : σ → τ → Prop} {F : ε → ε → Prop} {s : σ} {t : τ}

/-- Outcomes that agree are both answers or both failures. -/
theorem Agree.cases {r : EStateM.Result ε σ α} {r' : EStateM.Result ε τ α} (h : Agree Q F r r') :
    (∃ a s t, r = .ok a s ∧ r' = .ok a t ∧ Q s t)
      ∨ ∃ e f s t, r = .error e s ∧ r' = .error f t ∧ F e f ∧ Q s t := by
  cases r with
  | ok a s =>
    cases r' with
    | ok b t =>
      obtain ⟨rfl, hQ⟩ := h
      exact Or.inl ⟨a, s, t, rfl, rfl, hQ⟩
    | error f t => exact h.elim
  | error e s =>
    cases r' with
    | ok b t => exact h.elim
    | error f t => exact Or.inr ⟨e, f, s, t, rfl, rfl, h.1, h.2⟩

theorem Agree.mono {Q' : σ → τ → Prop} {r : EStateM.Result ε σ α} {r' : EStateM.Result ε τ α}
    (h : Agree Q F r r') (hQ : ∀ s t, Q s t → Q' s t) : Agree Q' F r r' := by
  obtain ⟨a, s, t, rfl, rfl, hs⟩ | ⟨e, f, s, t, rfl, rfl, hF, hs⟩ := h.cases
  · exact ⟨rfl, hQ s t hs⟩
  · exact ⟨hF, hQ s t hs⟩

theorem Agree.of_eq {r r' : EStateM.Result ε σ α} (h : r = r') :
    Agree Eq (fun _ _ => True) r r' := by
  rw [h]
  cases r' with
  | ok a s => exact ⟨rfl, rfl⟩
  | error e s => exact ⟨trivial, rfl⟩

theorem Agree.left {r : EStateM.Result ε σ α} {r' : EStateM.Result ε τ α} (h : Agree Q F r r') :
    Q (left r) (left r') := by
  obtain ⟨a, s, t, rfl, rfl, hQ⟩ | ⟨e, f, s, t, rfl, rfl, -, hQ⟩ := h.cases
  · exact hQ
  · exact hQ

theorem Agree.bind {m : EStateM ε σ α} {m' : EStateM ε τ α} {k : α → EStateM ε σ β}
    {k' : α → EStateM ε τ β} (h : Agree Q F (m s) (m' t))
    (hk : ∀ a s t, Q s t → Agree Q F (k a s) (k' a t)) :
    Agree Q F ((m >>= k) s) ((m' >>= k') t) := by
  show Agree Q F (EStateM.bind m k s) (EStateM.bind m' k' t)
  unfold EStateM.bind
  obtain ⟨a, s₁, t₁, hs, ht, hQ⟩ | ⟨e, f, s₁, t₁, hs, ht, hF, hQ⟩ := h.cases
  · rw [hs, ht]
    exact hk a s₁ t₁ hQ
  · rw [hs, ht]
    exact ⟨hF, hQ⟩

theorem Agree.pure {a : α} (h : Q s t) :
    Agree Q F ((Pure.pure a : EStateM ε σ α) s) ((Pure.pure a : EStateM ε τ α) t) :=
  ⟨rfl, h⟩

end Reckon
