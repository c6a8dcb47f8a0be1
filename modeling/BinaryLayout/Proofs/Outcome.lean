import Mathlib.Data.List.Basic

/-!
# Outcomes of computations that may fail

A computation in steps succeeds exactly when each of its steps does. Proofs take such computations
apart with `bind_eq_ok_iff` and do not unfold them.

Two computations **agree** up to a relation when both fail for one cause, or both succeed with
related results. Computations that agree with a third one are compared through it (`Agree.join`).
-/

namespace BinaryLayout.Outcome

variable {ε δ α β : Type}

/-- Steps succeed exactly when the first does, and the second with the result of the first. -/
theorem bind_eq_ok_iff {x : Except ε α} {f : α → Except ε β} {b : β} :
    (x >>= f) = .ok b ↔ ∃ a, x = .ok a ∧ f a = .ok b := by
  cases x with
  | error e => simp [bind, Except.bind]
  | ok a => simp [bind, Except.bind]

/-- Steps fail in the first or, after that has succeeded, in the second. -/
theorem bind_eq_error_iff {x : Except ε α} {f : α → Except ε β} {e : ε} :
    (x >>= f) = .error e ↔ x = .error e ∨ ∃ a, x = .ok a ∧ f a = .error e := by
  cases x with
  | error e => simp [bind, Except.bind]
  | ok a => simp [bind, Except.bind]

/-- Steps with a result have a first step with a result. -/
theorem exists_ok_of_bind {x : Except ε α} {f : α → Except ε β}
    (h : ∃ result, (x >>= f) = .ok result) : ∃ result, x = .ok result := by
  obtain ⟨_, h⟩ := h
  obtain ⟨result, hresult, -⟩ := bind_eq_ok_iff.mp h
  exact ⟨result, hresult⟩

/-- Steps have no result if the first one fails. -/
theorem not_exists_ok_of_error {x : Except ε α} {f : α → Except ε β} {e : ε} (hx : x = .error e) :
    ¬ ∃ result, (x >>= f) = .ok result := by
  intro h
  obtain ⟨result, hresult⟩ := exists_ok_of_bind h
  rw [hx] at hresult
  cases hresult

/-- A check, and what is done after it. -/
theorem check_eq_ok_iff {x : Except ε Unit} {f : Unit → Except ε β} {b : β} :
    (x >>= f) = .ok b ↔ x = .ok () ∧ f () = .ok b := by
  rw [bind_eq_ok_iff]
  constructor
  · rintro ⟨_, h⟩
    exact h
  · intro h
    exact ⟨(), h⟩

/-- A changed outcome is a result exactly if the outcome was one. -/
theorem map_eq_ok_iff {x : Except ε α} {f : α → β} {b : β} :
    x.map f = .ok b ↔ ∃ a, x = .ok a ∧ f a = b := by
  cases x <;> simp [Except.map]

/-- Making something of a result is a step that does not fail. -/
theorem map_eq_bind (x : Except ε α) (f : α → β) : x.map f = x >>= fun a => .ok (f a) := by
  cases x <;> rfl

/-- What is made of the result of a second step is made in that step. -/
theorem map_bind {γ : Type} {x : Except ε α} {f : α → Except ε β} {g : β → γ} :
    (x >>= f).map g = x >>= fun a => (f a).map g := by
  cases x <;> rfl

/-- What is made of a failure is made in the step that fails. -/
theorem mapError_bind {x : Except ε α} {f : α → Except ε β} {g : ε → δ} :
    (x >>= f).mapError g = x.mapError g >>= fun a => (f a).mapError g := by
  cases x <;> rfl

theorem mapError_map {x : Except ε α} {f : α → β} {g : ε → δ} :
    (x.map f).mapError g = (x.mapError g).map f := by
  cases x <;> rfl

/-- Changing the failures leaves the results as they are. -/
theorem mapError_eq_ok_iff {x : Except ε α} {f : ε → δ} {a : α} :
    x.mapError f = .ok a ↔ x = .ok a := by
  cases x <;> simp [Except.mapError]

/-- What a result leads to; nothing, if there is none. -/
def onOk (x : Except ε α) (f : α → List β) : List β :=
  match x with
  | .ok a => f a
  | .error _ => []

theorem map_onOk {γ : Type} (x : Except ε α) (f : α → List β) (g : β → γ) :
    (onOk x f).map g = onOk x fun result => (f result).map g := by
  cases x <;> rfl

/-- Both fail for one cause, or both succeed with related results. -/
inductive Agree (related : α → β → Prop) : Except ε α → Except ε β → Prop
  | ok {a : α} {b : β} (h : related a b) : Agree related (.ok a) (.ok b)
  | error {e : ε} : Agree related (.error e) (.error e)

variable {related : α → β → Prop} {x : Except ε α} {y : Except ε β}

theorem Agree.refl (x : Except ε α) : Agree (· = ·) x x := by
  cases x with
  | error e => exact .error
  | ok a => exact .ok rfl

/-- A result of the first is related to one of the second. -/
theorem Agree.exists_ok (h : Agree related x y) {a : α} (hx : x = .ok a) :
    ∃ b, y = .ok b ∧ related a b := by
  cases h with
  | ok h =>
    obtain rfl := Except.ok.inj hx
    exact ⟨_, rfl, h⟩
  | error => cases hx

theorem Agree.exists_ok' (h : Agree related x y) {b : β} (hy : y = .ok b) :
    ∃ a, x = .ok a ∧ related a b := by
  cases h with
  | ok h =>
    obtain rfl := Except.ok.inj hy
    exact ⟨_, rfl, h⟩
  | error => cases hy

/-- Computations that agree with the same one agree with each other. -/
theorem Agree.join {γ : Type} {related' : γ → β → Prop} {both : α → γ → Prop} {z : Except ε γ}
    (h : Agree related x y) (h' : Agree related' z y)
    (hb : ∀ a c b, related a b → related' c b → both a c) : Agree both x z := by
  cases h with
  | ok h => cases h' with
    | ok h' => exact .ok (hb _ _ _ h h')
  | error => cases h' with
    | error => exact .error

end BinaryLayout.Outcome
