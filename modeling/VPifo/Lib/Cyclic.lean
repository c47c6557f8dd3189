import Mathlib.Algebra.BigOperators.Group.Finset.Basic
import Mathlib.Algebra.Order.BigOperators.Group.Finset
import Mathlib.Data.Nat.ModEq
import Mathlib.Tactic.Ring

/-!
# Positions on a ring of `L` places

A ring of `L` units passes work from unit `i` to unit `i + 1`, cyclically.  The
place before `i` is `prev L i`, and a job that is `l` places into its journey at
unit `i` started at `origin L i l`.  `omega` does not reason about remainders by a
variable, so the handful of facts the rest of the development needs are stated
here once.

The second half is the counting side: `l ↦ origin L s l` runs through all places
as `l` does, so a sum over the levels found at one place is a sum over all levels.
-/

namespace VPifo.Cyclic

variable {L : ℕ}

/-- The place before `i`. -/
def prev (L i : ℕ) : ℕ := if i = 0 then L - 1 else i - 1

/-- The place from which a job that has moved `l` times arrives at `i`. -/
def origin (L i l : ℕ) : ℕ := (i + (L - l)) % L

theorem prev_lt {i : ℕ} (hi : i < L) : prev L i < L := by
  unfold prev
  split <;> omega

@[simp] theorem prev_zero : prev L 0 = L - 1 := rfl

@[simp] theorem prev_succ (i : ℕ) : prev L (i + 1) = i := by
  simp [prev]

theorem prev_add_one_mod {i : ℕ} (hi : i < L) : (prev L i + 1) % L = i := by
  unfold prev
  split
  case isTrue h => rw [h, Nat.sub_add_cancel (by omega), Nat.mod_self]
  case isFalse h => rw [Nat.sub_add_cancel (by omega), Nat.mod_eq_of_lt hi]

theorem prev_mod_add_one (hL : 0 < L) (i : ℕ) : prev L ((i + 1) % L) = i % L := by
  have hm := Nat.mod_lt i hL
  rw [← Nat.mod_add_mod]
  rcases Nat.lt_or_ge (i % L + 1) L with h | h
  · rw [Nat.mod_eq_of_lt h, prev_succ]
  · have he : i % L + 1 = L := by omega
    rw [he, Nat.mod_self, prev_zero]
    omega

theorem origin_lt (hL : 0 < L) (i l : ℕ) : origin L i l < L := Nat.mod_lt _ hL

@[simp] theorem origin_zero {i : ℕ} (hi : i < L) : origin L i 0 = i := by
  simp [origin, Nat.mod_eq_of_lt hi]

theorem origin_add {i l : ℕ} (hi : i < L) (hl : l ≤ L) : (origin L i l + l) % L = i := by
  unfold origin
  rw [Nat.mod_add_mod, Nat.add_assoc, Nat.sub_add_cancel hl, Nat.add_mod_right,
    Nat.mod_eq_of_lt hi]

theorem origin_add_mod {p l : ℕ} (hp : p < L) (hl : l ≤ L) : origin L ((p + l) % L) l = p := by
  unfold origin
  rw [Nat.mod_add_mod, Nat.add_assoc, Nat.add_sub_cancel' hl, Nat.add_mod_right,
    Nat.mod_eq_of_lt hp]

/-- Two jobs at one place that are equally far into their journeys have the same
origin, and conversely. -/
theorem add_mod_right_cancel {p q l : ℕ} (hp : p < L) (hq : q < L) (hl : l ≤ L)
    (h : (p + l) % L = (q + l) % L) : p = q := by
  rw [← origin_add_mod hp hl, h, origin_add_mod hq hl]

theorem add_mod_left_cancel {p l l' : ℕ} (hl : l < L) (hl' : l' < L)
    (h : (p + l) % L = (p + l') % L) : l = l' := by
  have hmod : l ≡ l' [MOD L] := Nat.ModEq.add_left_cancel' p h
  exact hmod.eq_of_lt_of_lt hl hl'

/-- Going back and forth: the distance from `origin L s j` to `s` is `j`. -/
theorem origin_origin {s l : ℕ} (hs : s < L) (hl : l < L) :
    origin L s (origin L s l) = l := by
  have hL : 0 < L := by omega
  have h := origin_add hs (origin_lt hL s l).le
  have h' := origin_add hs hl.le
  rw [Nat.add_comm] at h'
  exact add_mod_right_cancel (origin_lt hL _ _) hl (origin_lt hL s l).le (h.trans h'.symm)

/-- **Every place sees every level once.** -/
theorem sum_origin {M : Type} [AddCommMonoid M] {s : ℕ} (hs : s < L) (f : ℕ → M) :
    ∑ j ∈ Finset.range L, f (origin L s j) = ∑ l ∈ Finset.range L, f l := by
  have hL : 0 < L := by omega
  refine Finset.sum_nbij' (origin L s) (origin L s) ?_ ?_ ?_ ?_ ?_
  · intro j _
    exact Finset.mem_range.mpr (origin_lt hL s j)
  · intro l _
    exact Finset.mem_range.mpr (origin_lt hL s l)
  · intro j hj
    exact origin_origin hs (Finset.mem_range.mp hj)
  · intro l hl
    exact origin_origin hs (Finset.mem_range.mp hl)
  · intro j _
    rfl

/-- Every place has one before it. -/
theorem sum_prev {M : Type} [AddCommMonoid M] (f : ℕ → M) :
    ∑ i ∈ Finset.range L, f (prev L i) = ∑ i ∈ Finset.range L, f i := by
  cases L with
  | zero => rfl
  | succ m =>
    rw [Finset.sum_range_succ', Finset.sum_range_succ]
    simp only [prev_succ, prev_zero, Nat.add_sub_cancel]

end VPifo.Cyclic
