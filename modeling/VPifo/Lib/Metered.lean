import Mathlib.Algebra.BigOperators.Group.List.Basic
import Mathlib.Algebra.Order.BigOperators.Group.List
import Mathlib.Tactic.Abel

/-!
# A level that is paid from

A store has a level that never passes `cap`.  In every step something accrues and something is
taken, and what is taken is paid for from the level and from what accrues; what does not fit is
lost.  `Metered` is a run of such steps, with its steps as pairs of what accrues and what is
taken.  Whatever stretch of the run is looked at, what is taken in it is at most the level at its
beginning and what accrues in it (`Metered.taken_le`).
-/

namespace VPifo

variable {M : Type} [AddCommMonoid M] [PartialOrder M] {cap b b' b'' : M}
  {steps steps' : List (M × M)}

/-- A run from level `b` to another. -/
inductive Metered (cap : M) : M → List (M × M) → M → Prop where
  | nil {b : M} (h : b ≤ cap) : Metered cap b [] b
  | cons {b b' b'' accrued taken : M} {steps : List (M × M)} (h : b ≤ cap)
      (hpaid : b' + taken ≤ b + accrued) (hrest : Metered cap b' steps b'') :
      Metered cap b ((accrued, taken) :: steps) b''

namespace Metered

theorem le_cap (h : Metered cap b steps b') : b ≤ cap := by
  cases h with
  | nil h => exact h
  | cons h => exact h

theorem le_cap' (h : Metered cap b steps b') : b' ≤ cap := by
  induction h with
  | nil h => exact h
  | cons _ _ _ ih => exact ih

/-- A run can be cut anywhere. -/
theorem of_append : ∀ {b : M}, Metered cap b (steps ++ steps') b'' →
    ∃ b', Metered cap b steps b' ∧ Metered cap b' steps' b'' := by
  induction steps with
  | nil => exact fun h => ⟨_, .nil h.le_cap, h⟩
  | cons s steps ih =>
    intro b h
    cases h with
    | cons h hpaid hrest =>
      obtain ⟨b', hfirst, hsecond⟩ := ih hrest
      exact ⟨b', .cons h hpaid hfirst, hsecond⟩

section Sum

variable [IsOrderedAddMonoid M]

/-- **What is taken is paid for.** -/
theorem taken_le (h : Metered cap b steps b') :
    b' + (steps.map Prod.snd).sum ≤ b + (steps.map Prod.fst).sum := by
  induction h with
  | nil => exact le_rfl
  | @cons b b' b'' accrued taken steps _ hpaid _ ih =>
    simp only [List.map_cons, List.sum_cons]
    calc b'' + (taken + (steps.map Prod.snd).sum)
        = (b'' + (steps.map Prod.snd).sum) + taken := by abel
      _ ≤ (b' + (steps.map Prod.fst).sum) + taken := by gcongr
      _ = (b' + taken) + (steps.map Prod.fst).sum := by abel
      _ ≤ (b + accrued) + (steps.map Prod.fst).sum := by gcongr
      _ = b + (accrued + (steps.map Prod.fst).sum) := add_assoc _ _ _

end Sum

end Metered

end VPifo
