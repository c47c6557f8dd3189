import Mathlib.Algebra.BigOperators.Group.List.Basic
import Mathlib.Algebra.Order.BigOperators.Group.List
import Mathlib.Algebra.Order.Field.Rat
import Mathlib.Data.List.Forall2
import Mathlib.Tactic.Linarith
import Mathlib.Tactic.Ring

/-!
# Running sums

A counter that is read after every addition shows the running sums of what is added
(`runningSums`).  Adding the readings up counts the first numbers more often than the last
one, and `dot_runningSums` says how often: a reading that is counted `c` times passes its
count on to itself and everything before it, which is `suffixSums` on the list of counts.

For numbers that are not negative the readings add up to the same as the numbers only if all
numbers but the last are zero (`eq_zero_of_sum_runningSums`).
-/

namespace VPifo

/-- The readings of a counter that starts at `a`. -/
def runningSums (a : ℚ) : List ℚ → List ℚ
  | [] => []
  | x :: xs => (a + x) :: runningSums (a + x) xs

/-- Every entry with everything behind it. -/
def suffixSums : List ℕ → List ℕ
  | [] => []
  | c :: cs => (c + cs.sum) :: suffixSums cs

/-- The sum of the numbers, each counted so many times. -/
def dot : List ℕ → List ℚ → ℚ
  | c :: cs, x :: xs => c * x + dot cs xs
  | _, _ => 0

@[simp] theorem length_runningSums (a : ℚ) (xs : List ℚ) :
    (runningSums a xs).length = xs.length := by
  induction xs generalizing a with
  | nil => rfl
  | cons x xs ih => simp [runningSums, ih]

@[simp] theorem length_suffixSums (cs : List ℕ) : (suffixSums cs).length = cs.length := by
  induction cs with
  | nil => rfl
  | cons c cs ih => simp [suffixSums, ih]

theorem dot_append {cs ds : List ℕ} {xs ys : List ℚ} (h : cs.length = xs.length) :
    dot (cs ++ ds) (xs ++ ys) = dot cs xs + dot ds ys := by
  induction cs generalizing xs with
  | nil =>
    obtain rfl : xs = [] := List.length_eq_zero_iff.mp h.symm
    simp [dot]
  | cons c cs ih =>
    obtain ⟨x, xs, rfl⟩ : ∃ x xs', xs = x :: xs' := List.exists_cons_of_length_eq_add_one h.symm
    simp only [List.cons_append, dot, ih (by simpa using h), add_assoc]

theorem dot_replicate_one (xs : List ℚ) : dot (List.replicate xs.length 1) xs = xs.sum := by
  induction xs with
  | nil => rfl
  | cons x xs ih => simp [List.replicate_succ, dot, ih]

/-- **What counts on the readings become counts on the numbers.** -/
theorem dot_runningSums {cs : List ℕ} {xs : List ℚ} (a : ℚ) (h : cs.length = xs.length) :
    dot cs (runningSums a xs) = cs.sum * a + dot (suffixSums cs) xs := by
  induction cs generalizing xs a with
  | nil =>
    obtain rfl : xs = [] := List.length_eq_zero_iff.mp h.symm
    simp [dot, suffixSums]
  | cons c cs ih =>
    obtain ⟨x, xs, rfl⟩ : ∃ x xs', xs = x :: xs' := List.exists_cons_of_length_eq_add_one h.symm
    simp only [runningSums, suffixSums, dot, ih _ (by simpa using h : cs.length = xs.length),
      List.sum_cons]
    push_cast
    ring

theorem suffixSums_last (m : ℕ) :
    suffixSums (List.replicate m 0 ++ [1]) = List.replicate (m + 1) 1 := by
  induction m with
  | zero => rfl
  | succ m ih =>
    rw [List.replicate_succ, List.cons_append, suffixSums, ih, List.replicate_succ (n := m + 1)]
    simp

/-- The last reading is the sum. -/
theorem dot_last_runningSums {xs : List ℚ} (h : xs ≠ []) :
    dot (List.replicate (xs.length - 1) 0 ++ [1]) (runningSums 0 xs) = xs.sum := by
  have hlen : xs.length - 1 + 1 = xs.length := Nat.sub_add_cancel (List.length_pos_iff.mpr h)
  rw [dot_runningSums 0 (by simp [hlen]), mul_zero, zero_add, suffixSums_last, hlen,
    dot_replicate_one]

theorem sum_flatMap {α : Type*} (f : α → List ℚ) (ns : List α) :
    (ns.flatMap f).sum = (ns.map fun n => (f n).sum).sum := by
  induction ns with
  | nil => rfl
  | cons n ns ih => rw [List.flatMap_cons, List.sum_append, ih, List.map_cons, List.sum_cons]

/-! ## Numbers that are not negative -/

theorem sum_runningSums (a : ℚ) (xs : List ℚ) :
    (runningSums a xs).sum = xs.length * a + (runningSums 0 xs).sum := by
  have hone := dot_replicate_one (runningSums a xs)
  have hzero := dot_replicate_one (runningSums 0 xs)
  have hcount : (List.replicate xs.length 1).sum = xs.length := by simp
  rw [length_runningSums, dot_runningSums _ (by simp), hcount] at hone hzero
  rw [← hone, ← hzero, mul_zero, zero_add]

section Le

variable {ds xs : List ℚ} (hle : List.Forall₂ (· ≤ ·) ds xs) (hpos : ∀ d ∈ ds, 0 ≤ d)

include hle hpos

theorem nonneg_of_le : ∀ x ∈ xs, 0 ≤ x := by
  induction hle with
  | nil => simp
  | cons hdx _ ih =>
    intro y hy
    rcases List.mem_cons.mp hy with rfl | hy
    · exact (hpos _ List.mem_cons_self).trans hdx
    · exact ih (fun e he => hpos e (List.mem_cons_of_mem _ he)) y hy

/-- No reading is below the number just added. -/
theorem le_runningSums {a : ℚ} (ha : 0 ≤ a) : List.Forall₂ (· ≤ ·) ds (runningSums a xs) := by
  induction hle generalizing a with
  | nil => exact .nil
  | cons hdx _ ih =>
    have hd := hpos _ List.mem_cons_self
    exact .cons (by linarith)
      (ih (fun e he => hpos e (List.mem_cons_of_mem _ he)) (by linarith))

theorem dropLast_eq_zero_of_le (hzero : ∀ x ∈ xs.dropLast, x = 0) : ∀ d ∈ ds.dropLast, d = 0 := by
  induction hle with
  | nil => simp
  | @cons d x ds xs hdx htail ih =>
    have hd := hpos d List.mem_cons_self
    cases htail with
    | nil => simp
    | @cons d' x' ds xs hdx' htail =>
      have hx : x = 0 := hzero x (by simp)
      intro e he
      rcases List.mem_cons.mp (by simpa using he : e ∈ d :: (d' :: ds).dropLast) with rfl | he
      · exact le_antisymm (hx ▸ hdx) hd
      · exact ih (fun f hf => hpos f (List.mem_cons_of_mem d hf))
          (fun y hy => hzero y (by simp [hy])) e he

end Le

theorem forall₂_flatMap {α β : Type*} {R : β → β → Prop} {f g : α → List β} {ns : List α}
    (h : ∀ s ∈ ns, List.Forall₂ R (f s) (g s)) :
    List.Forall₂ R (ns.flatMap f) (ns.flatMap g) := by
  induction ns with
  | nil => exact .nil
  | cons s ns ih =>
    exact List.rel_append (h s List.mem_cons_self)
      (ih fun s' hs' => h s' (List.mem_cons_of_mem s hs'))

theorem runningSums_eq_self {xs : List ℚ} (h : ∀ x ∈ xs.dropLast, x = 0) :
    runningSums 0 xs = xs := by
  induction xs with
  | nil => rfl
  | cons x xs ih =>
    cases xs with
    | nil => simp [runningSums]
    | cons y ys =>
      have hx : x = 0 := h x (by simp)
      rw [runningSums, zero_add, hx, ih fun z hz => h z (by simp [hz])]

theorem sum_le_sum_runningSums {xs : List ℚ} (h : ∀ x ∈ xs, 0 ≤ x) :
    xs.sum ≤ (runningSums 0 xs).sum :=
  (le_runningSums (List.forall₂_refl xs) h le_rfl).sum_le_sum

theorem eq_zero_of_sum_runningSums {xs : List ℚ} (h : ∀ x ∈ xs, 0 ≤ x)
    (hsum : (runningSums 0 xs).sum = xs.sum) : ∀ x ∈ xs.dropLast, x = 0 := by
  induction xs with
  | nil => simp
  | cons x xs ih =>
    have hx := h x List.mem_cons_self
    have hxs : ∀ y ∈ xs, 0 ≤ y := fun y hy => h y (List.mem_cons_of_mem x hy)
    have hle := sum_le_sum_runningSums hxs
    rw [runningSums, List.sum_cons, zero_add, sum_runningSums, List.sum_cons] at hsum
    have hmul : 0 ≤ (xs.length : ℚ) * x := by positivity
    cases xs with
    | nil => simp
    | cons y ys =>
      have hlen : (0 : ℚ) < ((y :: ys).length : ℚ) := by simp only [List.length_cons]; positivity
      have hzero : x = 0 := by
        by_contra hne
        have hpos := mul_pos hlen (lt_of_le_of_ne hx (Ne.symm hne))
        linarith
      have hrest := ih hxs (by linarith)
      intro z hz
      rcases List.mem_cons.mp (by simpa using hz : z ∈ x :: (y :: ys).dropLast) with rfl | hz
      · exact hzero
      · exact hrest z hz

end VPifo
