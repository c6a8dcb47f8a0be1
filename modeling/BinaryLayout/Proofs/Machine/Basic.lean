import BinaryLayout.Machine.Basic
import Mathlib.Control.Monad.Basic
import Mathlib.Data.List.Basic

/-!
# Computations that do not trap

A computation of a machine **yields** an outcome if it does not trap and has that outcome. `Yields`
goes through a computation step by step, next to the steps that have the outcome without a machine:
a step that yields a result leads on to the steps after it, and a step that yields a failure ends
both (`Yields.bind`). An operation yields its result within its range (`yields_within`), so that
what is left of a proof are the bounds that keep the operations in range.
-/

namespace BinaryLayout.Machine

variable {ε α β : Type} {action : Machine ε α} {outcome : Except ε α} {a : α}

/-- The computation does not trap, and has the outcome. -/
def Yields (action : Machine ε α) (outcome : Except ε α) : Prop := action.run = some outcome

/-! ### Steps -/

theorem yields_pure (a : α) : Yields (pure a : Machine ε α) (.ok a) := rfl

theorem yields_throw (cause : ε) : Yields (throw cause : Machine ε α) (.error cause) := rfl

theorem yields_ofExcept (outcome : Except ε α) : Yields (ofExcept outcome) outcome := rfl

/-- An operation within its range has its result. -/
theorem yields_within {range : Prop} [Decidable range] (h : range) :
    Yields (within range a : Machine ε α) (.ok a) := by
  rw [within, if_pos h]
  rfl

/-- An operation outside its range has no outcome. -/
theorem within_traps {range : Prop} [Decidable range] (h : ¬ range) :
    (within range a : Machine ε α).run = none := by
  rw [within, if_neg h]
  rfl

/-- A step that may fail, and what is done with its result. -/
theorem Yields.bind {next : α → Machine ε β} {result : α → Except ε β}
    (h : action.Yields outcome) (hn : ∀ a, outcome = .ok a → (next a).Yields (result a)) :
    Yields (action >>= next) (outcome >>= result) := by
  rw [Yields, ExceptT.run_bind, h]
  cases outcome with
  | error cause => rfl
  | ok a => exact hn a rfl

/-- A step with a result, and what is done with it. -/
theorem Yields.then {next : α → Machine ε β} {result : Except ε β} (h : action.Yields (.ok a))
    (hn : (next a).Yields result) : Yields (action >>= next) result := by
  rw [Yields, ExceptT.run_bind, h]
  exact hn

/-- What is done with a result traps if the step after it does. -/
theorem Yields.then_trap {next : α → Machine ε β} (h : action.Yields (.ok a))
    (hn : (next a).run = none) : (action >>= next).run = none := by
  rw [ExceptT.run_bind, h]
  exact hn

/-- A step that traps leaves nothing to be done. -/
theorem bind_traps {next : α → Machine ε β} (h : action.run = none) :
    (action >>= next).run = none := by
  rw [ExceptT.run_bind, h]
  rfl

/-- A step that gives something else in place of a result, and what is done with that. -/
theorem Yields.bind_map {γ : Type} {outcome : Except ε β} {f : β → α} {next : α → Machine ε γ}
    {result : β → Except ε γ} (h : action.Yields (outcome.map f))
    (hn : ∀ b, outcome = .ok b → (next (f b)).Yields (result b)) :
    Yields (action >>= next) (outcome >>= result) := by
  rw [Yields, ExceptT.run_bind, h]
  cases outcome with
  | error cause => rfl
  | ok b => exact hn b rfl

/-- The failures of a step turned into those of a store. -/
theorem Yields.toStore {action : Machine AccessError α} {outcome : Except AccessError α}
    (h : action.Yields outcome) :
    action.toStore.Yields (outcome.mapError AccessError.toStoreError) := by
  change action.run.map _ = _
  rw [h]
  rfl

/-- The same step for one entry of a list after the other. -/
theorem yields_mapM {f : β → Machine ε α} {g : β → Except ε α} {list : List β}
    (h : ∀ b ∈ list, (f b).Yields (g b)) : Yields (list.mapM f) (list.mapM g) := by
  induction list with
  | nil => exact yields_pure []
  | cons b list ih =>
    obtain ⟨hb, hlist⟩ := List.forall_mem_cons.mp h
    rw [List.mapM_cons, List.mapM_cons]
    exact hb.bind fun a _ => (ih hlist).bind fun as _ => yields_pure (a :: as)

/-! ### Operations -/

/-- The quotient by eight is not so large that rounding it up could lead beyond the limit. -/
theorem yields_divCeil_eight {n : Nat} (hn : n ≤ Extent.limit) :
    Yields (divCeil n 8 : Machine ε Nat) (.ok (Extent.bytesFor n)) := by
  refine (yields_within (by decide)).then ?_
  rw [Extent.bytesFor]
  rw [Extent.limit] at hn
  split
  · have hup : n / 8 + 1 = (n + 7) / 8 := by omega
    rw [← hup]
    exact yields_within (by rw [Extent.limit]; omega)
  · have hexact : n / 8 = (n + 7) / 8 := by omega
    rw [hexact]
    exact yields_pure _

/-- Few bytes have few bits. -/
theorem yields_mul_eight {n : Nat} (hn : n ≤ 9) :
    Yields (mul n 8 : Machine ε Nat) (.ok (8 * n)) := by
  rw [Nat.mul_comm 8]
  refine yields_within ?_
  rw [Extent.limit]
  omega

/-- The offset of an entry is not beyond the end of entries of one size. -/
theorem yields_mul_of_lt {i count size : Nat} (hi : i < count) (h : count * size ≤ Extent.limit) :
    Yields (mul i size : Machine ε Nat) (.ok (i * size)) :=
  yields_within (Nat.le_trans (Nat.mul_le_mul_right size (Nat.le_of_lt hi)) h)

theorem yields_entry {list : List α} {position : Nat} (h : list[position]? = some a) :
    Yields (entry list position : Machine ε α) (.ok a) := by
  rw [entry, h]
  rfl

end BinaryLayout.Machine
