import Mathlib.Algebra.BigOperators.Group.List.Basic
import Mathlib.Algebra.GroupWithZero.Nat
import Mathlib.Algebra.Order.BigOperators.Group.List
import Mathlib.Data.List.Basic

/-!
# Things packed one after the other

A list of things with sizes is packed without gaps: each begins where those before it end, at the
sum of their sizes.  Every address below the end belongs to one thing (`exists_mem_of_lt`), and
the regions of two things do not overlap (`regions_disjoint`).  Which thing comes first is a
matter of their places in the list, so a thing is given with what stands before and after it.
-/

namespace VPifo.Packing

variable {α : Type} (size : α → ℕ)

/-- **Every address below the end is inside a thing.** -/
theorem exists_mem_of_lt : ∀ (l : List α) {x : ℕ}, x < (l.map size).sum →
    ∃ pre a post, l = pre ++ a :: post ∧ (pre.map size).sum ≤ x ∧
      x < (pre.map size).sum + size a := by
  intro l
  induction l with
  | nil => exact fun h => absurd h (Nat.not_lt_zero _)
  | cons b l ih =>
    intro x hx
    rw [List.map_cons, List.sum_cons] at hx
    by_cases hb : x < size b
    · exact ⟨[], b, l, rfl, Nat.zero_le x, by simpa using hb⟩
    · obtain ⟨pre, a, post, rfl, hle, hlt⟩ := ih (x := x - size b) (by omega)
      refine ⟨b :: pre, a, post, rfl, ?_, ?_⟩
      · rw [List.map_cons, List.sum_cons]
        omega
      · rw [List.map_cons, List.sum_cons]
        omega

/-- A thing ends before the end. -/
theorem end_le_sum (pre post : List α) (a : α) :
    (pre.map size).sum + size a ≤ ((pre ++ a :: post).map size).sum := by
  rw [List.map_append, List.sum_append, List.map_cons, List.sum_cons]
  omega

/-- **Two things do not overlap**, unless they are one. -/
theorem regions_disjoint {pre pre' post post' : List α} {a b : α}
    (h : pre ++ a :: post = pre' ++ b :: post') : (pre = pre' ∧ a = b) ∨
      (pre.map size).sum + size a ≤ (pre'.map size).sum ∨
      (pre'.map size).sum + size b ≤ (pre.map size).sum := by
  rcases List.append_eq_append_iff.mp h with ⟨mid, hpre', hmid⟩ | ⟨mid, hpre, hmid⟩
  · cases mid with
    | nil =>
      rw [List.nil_append] at hmid
      exact Or.inl ⟨by rw [hpre', List.append_nil], (List.cons.inj hmid).1⟩
    | cons x mid =>
      obtain ⟨rfl, -⟩ := List.cons.inj hmid
      refine Or.inr (Or.inl ?_)
      rw [hpre']
      exact end_le_sum size pre mid a
  · cases mid with
    | nil =>
      rw [List.nil_append] at hmid
      exact Or.inl ⟨by rw [hpre, List.append_nil], (List.cons.inj hmid).1.symm⟩
    | cons x mid =>
      obtain ⟨rfl, -⟩ := List.cons.inj hmid
      refine Or.inr (Or.inr ?_)
      rw [hpre]
      exact end_le_sum size pre' mid b

end VPifo.Packing
