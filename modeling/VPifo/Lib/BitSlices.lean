import Mathlib.Tactic.Common
import Mathlib.Data.Nat.Basic

/-!
# Bit vectors that carry their width

In a hardware description the width of an expression is computed from the bounds that are
written in it, and a part-select with a wrong bound is a legal expression of another width.
`Bits` is a bit vector together with its width, so that such expressions can be written down
as they are: part-selects `x[hi:lo]` (`sel`), concatenations `{a, b, c}` (`cat`), sums and
differences in the wider of the two widths, and assignments, which cut or pad to the width of
the target (`assign`).

Two of them are equal if they have the same width and the same bits (`ext_bit`).  `put x lo v`
writes `v` into `x` at `lo`; the lemmas `cat_eq_put` say which concatenations do that, and
`field_put_inside` and `field_put_outside` what is read back from it.
-/

namespace VPifo.BitSlices

/-- A bit vector and its width. -/
structure Bits where
  width : ℕ
  bits : BitVec width

namespace Bits

/-- Bit `i`, with 0 above the width. -/
def bit (x : Bits) (i : ℕ) : Bool := x.bits.getLsbD i

/-- The number a bit vector stands for. -/
def toNat (x : Bits) : ℕ := x.bits.toNat

/-- `len` bits from `lo` on. -/
def field (x : Bits) (lo len : ℕ) : Bits := ⟨len, x.bits.extractLsb' lo len⟩

/-- `x[hi:lo]`. -/
def sel (x : Bits) (hi lo : ℕ) : Bits := x.field lo (hi + 1 - lo)

/-- No bits. -/
def nil : Bits := ⟨0, 0#0⟩

/-- `{a, b}`. -/
def append (a b : Bits) : Bits := ⟨a.width + b.width, a.bits ++ b.bits⟩

/-- `{a, b, …}`. -/
def cat : List Bits → Bits
  | [] => nil
  | a :: as => a.append (cat as)

/-- `{{(n-1){1'b0}}, 1'b1}`. -/
def one (n : ℕ) : Bits := ⟨n - 1 + 1, 1#(n - 1 + 1)⟩

/-- `a + b`. -/
def add (a b : Bits) : Bits :=
  ⟨max a.width b.width, a.bits.setWidth _ + b.bits.setWidth _⟩

/-- `a - b`. -/
def sub (a b : Bits) : Bits :=
  ⟨max a.width b.width, a.bits.setWidth _ - b.bits.setWidth _⟩

instance : Add Bits := ⟨add⟩

instance : Sub Bits := ⟨sub⟩

/-- The value of a target of `n` bits after an assignment. -/
def assign (n : ℕ) (x : Bits) : BitVec n := x.bits.setWidth n

/-! ## Bit by bit -/

variable {x y a b c v m : Bits} {lo len hi n i : ℕ}

theorem bit_of_le (h : x.width ≤ i) : x.bit i = false := BitVec.getLsbD_of_ge _ _ h

theorem ext_bit (hw : x.width = y.width) (h : ∀ i, x.bit i = y.bit i) : x = y := by
  obtain ⟨w, bx⟩ := x
  obtain ⟨w', bits⟩ := y
  obtain rfl : w = w' := hw
  exact congrArg (Bits.mk w) (BitVec.eq_of_getLsbD_eq fun i _ => h i)

@[simp] theorem width_field : (x.field lo len).width = len := rfl

@[simp] theorem width_append : (a.append b).width = a.width + b.width := rfl

@[simp] theorem width_nil : nil.width = 0 := rfl

@[simp] theorem bit_field : (x.field lo len).bit i = (decide (i < len) && x.bit (lo + i)) :=
  BitVec.getLsbD_extractLsb' _ _ _ _

theorem bit_append : (a.append b).bit i = if i < b.width then b.bit i else a.bit (i - b.width) :=
  BitVec.getLsbD_append

theorem sel_eq_field (hlo : lo = n) (hlen : hi + 1 - lo = len) : x.sel hi lo = x.field n len := by
  rw [sel, hlo, ← hlen, hlo]

theorem eq_nil_of_width (h : a.width = 0) : a = nil :=
  ext_bit h fun i => by rw [bit_of_le (by omega), bit_of_le (Nat.zero_le i)]

@[simp] theorem nil_append : nil.append a = a :=
  ext_bit (Nat.zero_add _) fun i => by
    rw [bit_append]
    split
    · rfl
    · rw [bit_of_le (Nat.zero_le _), bit_of_le (by omega)]

@[simp] theorem append_nil : a.append nil = a :=
  ext_bit rfl fun i => by simp [bit_append]

theorem append_assoc : (a.append b).append c = a.append (b.append c) := by
  refine ext_bit (Nat.add_assoc _ _ _) fun i => ?_
  simp only [bit_append, width_append]
  split_ifs <;> first | rfl | omega | (congr 1; omega)

/-- The upper part of a concatenation. -/
theorem field_append_high (hb : b.width = n) (ha : a.width = len) :
    (a.append b).field n len = a := by
  subst hb ha
  refine ext_bit rfl fun i => ?_
  rw [bit_field, bit_append, if_neg (by omega), Nat.add_sub_cancel_left]
  by_cases hi : i < a.width
  · simp [hi]
  · simp [hi, bit_of_le (show a.width ≤ i by omega)]

/-- The lower part of a concatenation. -/
theorem field_append_low (hb : b.width = len) : (a.append b).field 0 len = b := by
  subst hb
  refine ext_bit rfl fun i => ?_
  rw [bit_field, bit_append, Nat.zero_add]
  by_cases hi : i < b.width
  · simp [hi]
  · simp [hi, bit_of_le (show b.width ≤ i by omega)]

@[simp] theorem field_self : x.field 0 x.width = x := by
  refine ext_bit rfl fun i => ?_
  rw [bit_field, Nat.zero_add]
  by_cases hi : i < x.width
  · simp [hi]
  · simp [hi, bit_of_le (show x.width ≤ i by omega)]

/-- All of it. -/
theorem sel_eq_self (h : hi + 1 = x.width) : x.sel hi 0 = x := by
  rw [sel, h, Nat.sub_zero, field_self]

/-! ## Writing into a bit vector -/

/-- `x` with `v` from `lo` on. -/
def put (x : Bits) (lo : ℕ) (v : Bits) : Bits :=
  (x.field (lo + v.width) (x.width - (lo + v.width))).append (v.append (x.field 0 lo))

theorem width_put (h : lo + v.width ≤ x.width) : (x.put lo v).width = x.width := by
  simp only [put, width_append, width_field]
  omega

theorem bit_put (h : lo + v.width ≤ x.width) :
    (x.put lo v).bit i = if lo ≤ i ∧ i < lo + v.width then v.bit (i - lo) else x.bit i := by
  simp only [put, bit_append, bit_field, width_append, width_field, Nat.zero_add]
  split_ifs with h₁ h₂ h₃ h₄ h₅ <;> try omega
  · simp [h₂]
  · rfl
  · by_cases hi : i < x.width
    · simp [show i - (v.width + lo) < x.width - (lo + v.width) by omega,
        show lo + v.width + (i - (v.width + lo)) = i by omega]
    · simp [bit_of_le (show x.width ≤ i by omega),
        show ¬i - (v.width + lo) < x.width - (lo + v.width) by omega]

/-- What is written is read back. -/
theorem field_put_inside (h : lo + v.width ≤ x.width) (hp : n + len ≤ v.width) :
    (x.put lo v).field (lo + n) len = v.field n len := by
  refine ext_bit rfl fun i => ?_
  simp only [bit_field, bit_put h]
  by_cases hi : i < len
  · rw [if_pos (by omega), show lo + n + i - lo = n + i by omega]
  · simp [hi]

theorem field_put_start (h : lo + v.width ≤ x.width) (hp : len ≤ v.width) :
    (x.put lo v).field lo len = v.field 0 len :=
  field_put_inside (n := 0) h (by rwa [Nat.zero_add])

/-- Below and above it nothing changes. -/
theorem field_put_outside (h : lo + v.width ≤ x.width) (hp : n + len ≤ lo ∨ lo + v.width ≤ n) :
    (x.put lo v).field n len = x.field n len := by
  refine ext_bit rfl fun i => ?_
  simp only [bit_field, bit_put h]
  by_cases hi : i < len
  · rw [if_neg (by omega)]
  · simp [hi]

/-- Writing back what is there changes nothing, so a part of what is written may stay. -/
theorem put_append_field (h : lo + n + c.width ≤ x.width) :
    x.put (lo + n) c = x.put lo (c.append (x.field lo n)) := by
  have hle : lo + (c.append (x.field lo n)).width ≤ x.width := by simp; omega
  refine ext_bit ((width_put h).trans (width_put hle).symm) fun i => ?_
  rw [bit_put h, bit_put hle]
  simp only [width_append, width_field, bit_append, bit_field]
  split_ifs with h₁ h₂ h₃ h₄ h₅ <;> try omega
  · congr 1
    omega
  · simp [show i - lo < n by omega, show lo + (i - lo) = i by omega]
  · rfl

/-- A concatenation whose two middle parts take the place of `n` bits from `p` on; the first
of them is computed by `f` from the `q`-th bits. -/
theorem cat_eq_put {f : Bits → Bits} {h l s t u p q : ℕ}
    (hw : (f (x.field q n)).width + v.width = len)
    (hb : h + 1 = x.width ∧ l = p + len ∧ t = q ∧ s + 1 - t = n ∧ u + 1 = p) :
    cat [x.sel h l, f (x.sel s t), v, x.sel u 0] = x.put p ((f (x.field q n)).append v) := by
  obtain ⟨hh, hl, ht, hs, hu⟩ := hb
  rw [sel_eq_field (x := x) ht hs, put, width_append, hw]
  simp only [cat, append_nil, append_assoc, sel, hl, ← hh, Nat.sub_zero, hu]

/-- The same at the bottom. -/
theorem cat_eq_put_zero {f : Bits → Bits} {h l s t q : ℕ}
    (hw : (f (x.field q n)).width + v.width = len)
    (hb : h + 1 = x.width ∧ l = len ∧ t = q ∧ s + 1 - t = n) :
    cat [x.sel h l, f (x.sel s t), v] = x.put 0 ((f (x.field q n)).append v) := by
  obtain ⟨hh, hl, ht, hs⟩ := hb
  have hnil : x.field 0 0 = nil := eq_nil_of_width rfl
  rw [sel_eq_field (x := x) ht hs, put, width_append, hw, hnil]
  simp only [cat, append_nil, sel, hl, ← hh, Nat.zero_add]

/-- The same at the top. -/
theorem cat_eq_put_top {f : Bits → Bits} {s t u p q : ℕ}
    (hw : (f (x.field q n)).width + v.width = len)
    (hb : p + len = x.width ∧ t = q ∧ s + 1 - t = n ∧ u + 1 = p) :
    cat [f (x.sel s t), v, x.sel u 0] = x.put p ((f (x.field q n)).append v) := by
  obtain ⟨htop, ht, hs, hu⟩ := hb
  have hnil : x.field x.width 0 = nil := eq_nil_of_width rfl
  rw [sel_eq_field (x := x) ht hs, put, width_append, hw, htop, Nat.sub_self, hnil, nil_append]
  simp only [cat, append_nil, append_assoc, sel, Nat.sub_zero, hu]

/-- A concatenation that keeps the `m` bits below its middle part writes them back. -/
theorem cat_eq_put_keep {f : Bits → Bits} {h l s t u p q m : ℕ}
    (hw : (f (x.field q n)).width = n)
    (hb : h + 1 = x.width ∧ l = q + n ∧ t = q ∧ s + 1 - t = n ∧ u + 1 = q ∧ q = p + m ∧
      q + n ≤ x.width) :
    cat [x.sel h l, f (x.sel s t), x.sel u 0] =
      x.put p ((f (x.field q n)).append (x.field p m)) := by
  obtain ⟨hh, hl, ht, hs, hu, rfl, hle⟩ := hb
  rw [← put_append_field (by rw [hw]; exact hle), sel_eq_field (x := x) ht hs, put, hw]
  simp only [cat, append_nil, sel, hl, ← hh, Nat.sub_zero, hu]

/-- The same at the top. -/
theorem cat_eq_put_keep_top {f : Bits → Bits} {s t u p q m : ℕ}
    (hw : (f (x.field q n)).width = n)
    (hb : q + n = x.width ∧ t = q ∧ s + 1 - t = n ∧ u + 1 = q ∧ q = p + m) :
    cat [f (x.sel s t), x.sel u 0] = x.put p ((f (x.field q n)).append (x.field p m)) := by
  obtain ⟨htop, ht, hs, hu, rfl⟩ := hb
  have hnil : x.field x.width 0 = nil := eq_nil_of_width rfl
  rw [← put_append_field (by rw [hw]; exact Nat.le_of_eq htop), sel_eq_field (x := x) ht hs, put, hw, htop,
    Nat.sub_self, hnil, nil_append]
  simp only [cat, append_nil, sel, Nat.sub_zero, hu]

/-! ## Numbers -/

theorem width_one (hn : 1 ≤ n) : (one n).width = n := Nat.sub_add_cancel hn

theorem width_add_one (hx : x.width = n) (hn : 1 ≤ n) : (x + one n).width = n := by
  show max x.width (one n).width = n
  rw [hx, width_one hn, max_self]

theorem width_sub_one (hx : x.width = n) (hn : 1 ≤ n) : (x - one n).width = n := by
  show max x.width (one n).width = n
  rw [hx, width_one hn, max_self]

theorem assign_one (hn : 1 ≤ n) : (one n).assign n = 1#n := by
  apply BitVec.eq_of_toNat_eq
  simp [one, assign, Nat.sub_add_cancel hn]

theorem setWidth_sub {w i : ℕ} (x y : BitVec w) (h : i ≤ w) :
    (x - y).setWidth i = x.setWidth i - y.setWidth i := by
  rw [BitVec.eq_sub_iff_add_eq, ← BitVec.setWidth_add _ _ h, BitVec.sub_add_cancel]

theorem assign_add (h : n ≤ max a.width b.width) : (a + b).assign n = a.assign n + b.assign n := by
  show (a.bits.setWidth (max a.width b.width) + b.bits.setWidth _).setWidth n = _
  rw [BitVec.setWidth_add _ _ h, BitVec.setWidth_setWidth_of_le _ h,
    BitVec.setWidth_setWidth_of_le _ h]
  rfl

theorem assign_sub (h : n ≤ max a.width b.width) : (a - b).assign n = a.assign n - b.assign n := by
  show (a.bits.setWidth (max a.width b.width) - b.bits.setWidth _).setWidth n = _
  rw [setWidth_sub _ _ h, BitVec.setWidth_setWidth_of_le _ h,
    BitVec.setWidth_setWidth_of_le _ h]
  rfl

@[simp] theorem assign_mk (v : BitVec n) : assign n ⟨n, v⟩ = v := BitVec.setWidth_eq v

theorem assign_field : (x.field lo len).assign len = x.bits.extractLsb' lo len :=
  BitVec.setWidth_eq _

/-- An assignment to a target of the right width changes nothing. -/
theorem eq_mk_assign (hx : x.width = n) : x = ⟨n, x.assign n⟩ := by
  subst hx
  rw [assign, BitVec.setWidth_eq]

theorem mk_add_one (v : BitVec n) (hn : 1 ≤ n) : mk n v + one n = ⟨n, v + 1#n⟩ := by
  rw [eq_mk_assign (x := mk n v + one n) (width_add_one rfl hn), assign_add (a := mk n v) (le_max_left _ _),
    assign_mk, assign_one hn]

theorem mk_sub_one (v : BitVec n) (hn : 1 ≤ n) : mk n v - one n = ⟨n, v - 1#n⟩ := by
  rw [eq_mk_assign (x := mk n v - one n) (width_sub_one rfl hn), assign_sub (a := mk n v) (le_max_left _ _),
    assign_mk, assign_one hn]

/-- What is read from a target of the right width is read from what was assigned to it. -/
theorem extractLsb'_assign (hx : x.width = n) :
    (x.assign n).extractLsb' lo len = (x.field lo len).assign len := by
  subst hx
  rw [assign_field, assign, BitVec.setWidth_eq]

/-- A field of a field. -/
theorem extractLsb'_extractLsb' {w p q : ℕ} (v : BitVec w) (h : p + q ≤ len) :
    (v.extractLsb' lo len).extractLsb' p q = v.extractLsb' (lo + p) q := by
  refine BitVec.eq_of_getLsbD_eq fun i hi => ?_
  simp [hi, show p + i < len by omega, Nat.add_assoc]

end Bits

end VPifo.BitSlices
