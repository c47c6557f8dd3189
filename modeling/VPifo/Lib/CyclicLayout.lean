import VPifo.Lib.Cyclic
import Mathlib.Algebra.BigOperators.Intervals
import Mathlib.Algebra.Order.BigOperators.Ring.Finset
import Mathlib.Data.Nat.Bitwise

/-!
# Rotating layered objects over a ring of banks

Objects `0, 1, 2, …` each have `L` layers, layer `l` of size `size l`, and layer
`l` of object `t` goes to bank `(t + l) % L`.  Every bank then holds exactly one
layer of every object, namely layer `origin L s (t % L)` of object `t` in bank
`s`.  Packing a bank in the order of the objects puts object `t` at `start L size
s t`, the total size of the layers before it.

* `start_lt_of_lt`: the regions of two objects in one bank do not overlap.
* `start_period`: whole groups of `L` objects fill every bank equally, so the
  start is a multiple of the size of one object plus a part inside the group.
* `rotatedBits_eq_sum`: when the sizes are powers of two, the part inside the
  group is an OR of distinct bits, and equal to their sum.
-/

namespace VPifo.Cyclic

variable {L : ℕ}

/-- Where bank `s` has room for object `t`, when it was packed in order. -/
def start (L : ℕ) (size : ℕ → ℕ) (s t : ℕ) : ℕ :=
  ∑ j ∈ Finset.range t, size (origin L s (j % L))

@[simp] theorem start_zero (size : ℕ → ℕ) (s : ℕ) : start L size s 0 = 0 := rfl

theorem start_succ (size : ℕ → ℕ) (s t : ℕ) :
    start L size s (t + 1) = start L size s t + size (origin L s (t % L)) :=
  Finset.sum_range_succ _ t

theorem start_mono (size : ℕ → ℕ) (s : ℕ) {t t' : ℕ} (h : t ≤ t') :
    start L size s t ≤ start L size s t' :=
  Finset.sum_le_sum_of_subset (Finset.range_mono h)

/-- Layer `l` of object `t` is what bank `(t + l) % L` holds of object `t`. -/
theorem origin_bank {t l : ℕ} (hl : l < L) : origin L ((t + l) % L) (t % L) = l := by
  have hL : 0 < L := by omega
  have h := origin_add_mod (p := l) (l := t % L) hl (Nat.mod_lt t hL).le
  rwa [Nat.add_mod_mod, Nat.add_comm] at h

/-- **Regions of one bank do not overlap.**  The layer of an earlier object ends
before the layer of a later one starts. -/
theorem start_lt_of_lt (size : ℕ → ℕ) {t t' l : ℕ} (hl : l < L) (h : t < t') :
    start L size ((t + l) % L) t + size l ≤ start L size ((t + l) % L) t' := by
  have hnext := start_succ (L := L) size ((t + l) % L) t
  rw [origin_bank hl] at hnext
  rw [← hnext]
  exact start_mono size _ h

/-- One group of `L` objects takes the size of one object in every bank. -/
theorem start_group (size : ℕ → ℕ) {s : ℕ} (hs : s < L) :
    start L size s L = ∑ l ∈ Finset.range L, size l := by
  unfold start
  rw [← sum_origin hs size]
  refine Finset.sum_congr rfl fun j hj => ?_
  rw [Nat.mod_eq_of_lt (Finset.mem_range.mp hj)]

/-- **The start is periodic** in the number of the object. -/
theorem start_period (size : ℕ → ℕ) {s : ℕ} (hs : s < L) (t : ℕ) :
    start L size s t =
      t / L * (∑ l ∈ Finset.range L, size l) + start L size s (t % L) := by
  have hL : 0 < L := by omega
  have hgroup : ∀ q r, start L size s (q * L + r) =
      q * (∑ l ∈ Finset.range L, size l) + start L size s r := by
    intro q
    induction q with
    | zero => simp
    | succ q ih =>
      intro r
      induction r with
      | zero =>
        rw [Nat.add_zero, Nat.succ_mul, ih L, start_group size hs, start_zero]
        ring
      | succ r ihr =>
        rw [← Nat.add_assoc, start_succ, ihr, start_succ, Nat.mul_add_mod']
        ring
  conv_lhs => rw [← Nat.div_add_mod' t L]
  exact hgroup (t / L) (t % L)

/-! ## Sizes that are powers of two -/

/-- Setting a bit that is clear adds its weight. -/
theorem two_pow_or_eq_add {x p : ℕ} (h : x.testBit p = false) : 2 ^ p ||| x = 2 ^ p + x := by
  have hlow : x % 2 ^ (p + 1) < 2 ^ p := by
    refine Nat.lt_pow_two_of_testBit _ fun i hi => ?_
    rw [Nat.testBit_mod_two_pow]
    rcases Nat.lt_or_ge i (p + 1) with hlt | hge
    · have hip : i = p := by omega
      rw [hip, h, Bool.and_false]
    · rw [decide_eq_false (by omega), Bool.false_and]
  have hhigh : ∀ r, r < 2 ^ (p + 1) →
      2 ^ (p + 1) * (x / 2 ^ (p + 1)) + r = 2 ^ (p + 1) * (x / 2 ^ (p + 1)) ||| r :=
    fun r hr => Nat.two_pow_add_eq_or_of_lt hr _
  have hpow : 2 ^ (p + 1) = 2 ^ p + 2 ^ p := by rw [Nat.pow_succ]; omega
  have hr : 2 ^ p ||| x % 2 ^ (p + 1) = 2 ^ p + x % 2 ^ (p + 1) := by
    rw [Nat.or_comm, Nat.or_two_pow_eq_add_of_lt hlow, Nat.add_comm]
  calc 2 ^ p ||| x
      = 2 ^ p ||| (2 ^ (p + 1) * (x / 2 ^ (p + 1)) ||| x % 2 ^ (p + 1)) := by
        rw [← hhigh _ (Nat.mod_lt _ (Nat.two_pow_pos _)), Nat.div_add_mod]
    _ = 2 ^ (p + 1) * (x / 2 ^ (p + 1)) ||| (2 ^ p ||| x % 2 ^ (p + 1)) := by
        rw [← Nat.or_assoc, Nat.or_comm (2 ^ p), Nat.or_assoc]
    _ = 2 ^ (p + 1) * (x / 2 ^ (p + 1)) + (2 ^ p + x % 2 ^ (p + 1)) := by
        rw [hr, hhigh _ (by omega)]
    _ = 2 ^ p + x := by
        rw [Nat.add_left_comm, Nat.div_add_mod]

/-- The loop `for i < n: if i < r then x = (1 << b*((i+l+1) % L)) | x`. -/
def rotatedBits (L b r l : ℕ) : ℕ → ℕ
  | 0 => 0
  | n + 1 =>
    if n < r then (1 <<< (b * ((n + l + 1) % L))) ||| rotatedBits L b r l n
    else rotatedBits L b r l n

/-- After `n` rounds the bits that are set are those of the rounds. -/
theorem testBit_rotatedBits {b r l : ℕ} (n p : ℕ) :
    (rotatedBits L b r l n).testBit p = true ↔
      ∃ i, i < n ∧ i < r ∧ p = b * ((i + l + 1) % L) := by
  induction n with
  | zero => simp [rotatedBits]
  | succ n ih =>
    unfold rotatedBits
    by_cases hn : n < r
    · rw [if_pos hn, Nat.testBit_or, Bool.or_eq_true, ih, Nat.shiftLeft_eq, Nat.one_mul,
        Nat.testBit_two_pow, decide_eq_true_iff]
      constructor
      · rintro (h | ⟨i, hi, hir, hp⟩)
        · exact ⟨n, Nat.lt_succ_self n, hn, h.symm⟩
        · exact ⟨i, by omega, hir, hp⟩
      · rintro ⟨i, hi, hir, hp⟩
        rcases Nat.lt_or_ge i n with hlt | hge
        · exact Or.inr ⟨i, hlt, hir, hp⟩
        · have hin : i = n := by omega
          exact Or.inl (by rw [hp, hin])
    · rw [if_neg hn, ih]
      constructor
      · rintro ⟨i, hi, hir, hp⟩
        exact ⟨i, by omega, hir, hp⟩
      · rintro ⟨i, hi, hir, hp⟩
        exact ⟨i, by omega, hir, hp⟩

/-- **An OR of rotated one-hot bits is their sum**, because fewer than `L`
consecutive rotations never meet. -/
theorem rotatedBits_eq_sum {b r l : ℕ} (hb : 0 < b) (hr : r ≤ L) (n : ℕ) :
    rotatedBits L b r l n =
      ∑ i ∈ Finset.range (min n r), 2 ^ (b * ((i + l + 1) % L)) := by
  induction n with
  | zero => simp [rotatedBits]
  | succ n ih =>
    unfold rotatedBits
    by_cases hn : n < r
    · have hclear : (rotatedBits L b r l n).testBit (b * ((n + l + 1) % L)) = false := by
        rw [← Bool.not_eq_true, testBit_rotatedBits]
        rintro ⟨i, hi, -, hp⟩
        have hmod := Nat.eq_of_mul_eq_mul_left hb hp
        have hrot : (l + 1 + n) % L = (l + 1 + i) % L := by
          rw [show l + 1 + n = n + l + 1 by omega, show l + 1 + i = i + l + 1 by omega, hmod]
        have hin := add_mod_left_cancel (L := L) (by omega) (by omega) hrot
        omega
      rw [if_pos hn, Nat.shiftLeft_eq, Nat.one_mul, two_pow_or_eq_add hclear, ih,
        show min (n + 1) r = n + 1 by omega, show min n r = n by omega,
        Finset.sum_range_succ, Nat.add_comm]
    · rw [if_neg hn, ih, show min (n + 1) r = min n r by omega]

/-- The rotated bits of an object are its start inside the group. -/
theorem rotatedBits_eq_start {b t l : ℕ} (hb : 0 < b) (hL : 0 < L) :
    rotatedBits L b (t % L) l (L - 1) =
      start L (fun l => 2 ^ (b * l)) ((t + l) % L) (t % L) := by
  have ht := Nat.mod_lt t hL
  rw [rotatedBits_eq_sum hb ht.le, show min (L - 1) (t % L) = t % L by omega]
  unfold start
  rw [← Finset.sum_range_reflect]
  refine Finset.sum_congr rfl fun j hj => ?_
  have hj := Finset.mem_range.mp hj
  rw [Nat.mod_eq_of_lt (show j < L by omega)]
  unfold origin
  rw [Nat.mod_add_mod, ← Nat.mod_add_mod (m := t + l), ← Nat.mod_add_mod (m := t)]
  rw [Nat.mod_add_mod, show t % L - 1 - j + l + 1 = t % L + l - j by omega,
    show t % L + l + (L - j) = t % L + l - j + L by omega, Nat.add_mod_right]

end VPifo.Cyclic
