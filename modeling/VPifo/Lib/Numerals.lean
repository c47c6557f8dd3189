import Mathlib.Data.Int.Order.Basic
import Mathlib.Data.List.Basic
import Mathlib.Tactic.IntervalCases
import Mathlib.Tactic.Linarith
import Mathlib.Tactic.Ring

/-!
# Numerals as text

Two programs that exchange numbers through a file agree on a way of writing them.
Three ways are treated here, all on lists of characters.

* *Padded binary numerals* (`formatBin`): the binary digits of a number, filled up with
  zeros on the left to a width.  The width only pads: a number that does not fit is
  written with all its digits, and the numeral of a negative number starts with its
  sign.  `isBits_formatBin_iff` and `length_formatBin_iff` say when neither happens.
* *Words* (`bitsValue`, `slice`): a string of binary digits read as a number, most
  significant digit first, and a field of that number cut out by its bit positions.
  `slice_bitsValue` is the rule everything is read with: the field of a concatenation
  that starts where the digits after it end is the middle part of the concatenation.
* *Decimal numerals* (`decimal`, `pyInt`): printing an integer, and reading it back the
  way a scripting language does, after `strip` has taken the blanks off.
-/

namespace VPifo.Numerals

/-! ## Strings of binary digits -/

/-- Every character is a binary digit. -/
def IsBits (s : List Char) : Prop := ∀ c ∈ s, c = '0' ∨ c = '1'

instance (s : List Char) : Decidable (IsBits s) :=
  List.decidableBAll (fun c => c = '0' ∨ c = '1') s

@[simp] theorem isBits_append {s t : List Char} :
    IsBits (s ++ t) ↔ IsBits s ∧ IsBits t := by
  simp only [IsBits, List.mem_append]
  constructor
  · intro h
    exact ⟨fun c hc => h c (.inl hc), fun c hc => h c (.inr hc)⟩
  · rintro ⟨hs, ht⟩ c (hc | hc)
    · exact hs c hc
    · exact ht c hc

/-- The number a string of binary digits writes, most significant digit first. -/
def bitsValue (s : List Char) : ℕ := Nat.ofDigitChars 2 s 0

theorem ofDigitChars_two_acc (s : List Char) (n : ℕ) :
    Nat.ofDigitChars 2 s n = n * 2 ^ s.length + Nat.ofDigitChars 2 s 0 := by
  induction s generalizing n with
  | nil => simp
  | cons c s ih =>
    rw [Nat.ofDigitChars_cons, Nat.ofDigitChars_cons, ih, ih (2 * 0 + _), List.length_cons,
      pow_succ]
    ring

/-- A concatenation is worth its first part, moved up by the length of the second, plus
the second. -/
theorem bitsValue_append (s t : List Char) :
    bitsValue (s ++ t) = bitsValue s * 2 ^ t.length + bitsValue t := by
  unfold bitsValue
  rw [Nat.ofDigitChars_append, ofDigitChars_two_acc]

theorem bitsValue_lt {s : List Char} (h : IsBits s) : bitsValue s < 2 ^ s.length := by
  induction s with
  | nil => simp [bitsValue]
  | cons c s ih =>
    have hs : bitsValue s < 2 ^ s.length := ih fun d hd => h d (List.mem_cons_of_mem c hd)
    have hc : bitsValue [c] ≤ 1 := by
      rcases h c List.mem_cons_self with rfl | rfl <;> decide
    have happ : bitsValue (c :: s) = bitsValue [c] * 2 ^ s.length + bitsValue s :=
      bitsValue_append [c] s
    rw [happ, List.length_cons, pow_succ]
    nlinarith

/-- Words of one length are determined by what they are worth. -/
theorem eq_of_bitsValue : ∀ {s t : List Char}, IsBits s → IsBits t → s.length = t.length →
    bitsValue s = bitsValue t → s = t := by
  intro s
  induction s with
  | nil => exact fun _ _ hlen _ => (List.length_eq_zero_iff.mp hlen.symm).symm
  | cons c s ih =>
    intro t hs ht hlen hvalue
    obtain ⟨d, t, rfl⟩ := List.exists_cons_of_length_eq_add_one hlen.symm
    have hs' : IsBits s := fun x hx => hs x (List.mem_cons_of_mem c hx)
    have ht' : IsBits t := fun x hx => ht x (List.mem_cons_of_mem d hx)
    have hlen' : s.length = t.length := Nat.succ.inj hlen
    have hc : bitsValue (c :: s) = bitsValue [c] * 2 ^ t.length + bitsValue s := by
      rw [← hlen']
      exact bitsValue_append [c] s
    have hd : bitsValue (d :: t) = bitsValue [d] * 2 ^ t.length + bitsValue t :=
      bitsValue_append [d] t
    have hslt := bitsValue_lt hs'
    have htlt := bitsValue_lt ht'
    rw [hlen'] at hslt
    rw [hc, hd] at hvalue
    have hzero : bitsValue ['0'] = 0 := rfl
    have hone : bitsValue ['1'] = 1 := rfl
    have hcd : c = d := by
      rcases hs c List.mem_cons_self with rfl | rfl <;>
        rcases ht d List.mem_cons_self with rfl | rfl
      · rfl
      · rw [hzero, hone] at hvalue
        omega
      · rw [hzero, hone] at hvalue
        omega
      · rfl
    subst hcd
    rw [ih hs' ht' hlen' (by omega)]

/-- Ones only. -/
theorem bitsValue_replicate_one (w : ℕ) : bitsValue (List.replicate w '1') = 2 ^ w - 1 := by
  induction w with
  | zero => rfl
  | succ w ih =>
    have hone : bitsValue ['1'] = 1 := rfl
    have hpos := Nat.two_pow_pos w
    rw [List.replicate_succ', bitsValue_append, ih, hone, List.length_singleton, pow_succ]
    omega

/-- `x[hi:lo]`: the bits of a word from position `lo` up to position `hi`. -/
def slice (hi lo x : ℕ) : ℕ := x / 2 ^ lo % 2 ^ (hi + 1 - lo)

/-- **A slice of a concatenation is the part that stands there.**  If `t` is followed by
`lo` digits and `t` with what follows it is `hi + 1` digits long, then `[hi:lo]` reads
`t`. -/
theorem slice_bitsValue (s : List Char) {t u : List Char} (ht : IsBits t) (hu : IsBits u)
    {hi lo : ℕ} (hlo : lo = u.length) (hhi : hi + 1 = t.length + u.length) :
    slice hi lo (bitsValue (s ++ (t ++ u))) = bitsValue t := by
  subst hlo
  have hlen : hi + 1 - u.length = t.length := by omega
  have hdiv : bitsValue (s ++ (t ++ u)) / 2 ^ u.length = bitsValue (s ++ t) := by
    rw [← List.append_assoc, bitsValue_append (s ++ t) u, Nat.add_comm,
      Nat.add_mul_div_right _ _ (Nat.two_pow_pos _), Nat.div_eq_of_lt (bitsValue_lt hu),
      Nat.zero_add]
  rw [slice, hlen, hdiv, bitsValue_append, Nat.add_comm, Nat.add_mul_mod_self_right,
    Nat.mod_eq_of_lt (bitsValue_lt ht)]

/-! ## Padded binary numerals -/

/-- The binary numeral of an integer with zeros on the left up to `width` characters:
`format(value, '0{width}b')`.  Zero is written with one digit, a negative number starts
with its sign, and the zeros stand after it. -/
def formatBin (width : ℕ) : ℤ → List Char
  | .ofNat n => (Nat.toDigits 2 n).leftpad width '0'
  | .negSucc n => '-' :: (Nat.toDigits 2 (n + 1)).leftpad (width - 1) '0'

theorem isBits_replicate_zero (k : ℕ) : IsBits (List.replicate k '0') := by
  intro c hc
  exact .inl (List.eq_of_mem_replicate hc)

theorem isBits_toDigits (n : ℕ) : IsBits (Nat.toDigits 2 n) := by
  induction n using Nat.strongRecOn with
  | ind n ih =>
    rw [Nat.toDigits_eq_if (by decide)]
    split_ifs with h
    · interval_cases n <;> decide
    · rw [isBits_append]
      refine ⟨ih (n / 2) (by omega), ?_⟩
      have hmod : n % 2 = 0 ∨ n % 2 = 1 := by omega
      rcases hmod with hm | hm <;> rw [hm] <;> decide

@[simp] theorem length_leftpad_max (width : ℕ) (s : List Char) :
    (s.leftpad width '0').length = max width s.length := by
  rw [List.leftpad, List.length_append, List.length_replicate]
  omega

theorem isBits_formatBin_natCast (width n : ℕ) : IsBits (formatBin width (n : ℤ)) := by
  change IsBits (List.replicate _ '0' ++ Nat.toDigits 2 n)
  exact isBits_append.2 ⟨isBits_replicate_zero _, isBits_toDigits n⟩

/-- The numeral is made of digits exactly when there is no sign to write. -/
theorem isBits_formatBin_iff (width : ℕ) (v : ℤ) : IsBits (formatBin width v) ↔ 0 ≤ v := by
  cases v with
  | ofNat n => exact ⟨fun _ => Int.natCast_nonneg n, fun _ => isBits_formatBin_natCast width n⟩
  | negSucc n =>
    constructor
    · intro h
      rcases h '-' List.mem_cons_self with h | h <;> exact absurd h (by decide)
    · intro h
      exact absurd h (by omega)

/-- The width only pads, so it is a lower bound. -/
theorem le_length_formatBin (width : ℕ) (v : ℤ) : width ≤ (formatBin width v).length := by
  cases v with
  | ofNat n =>
    change width ≤ ((Nat.toDigits 2 n).leftpad width '0').length
    rw [length_leftpad_max]
    exact le_max_left ..
  | negSucc n =>
    change width ≤ ((Nat.toDigits 2 (n + 1)).leftpad (width - 1) '0').length + 1
    rw [length_leftpad_max]
    omega

/-- The numeral of a number is as long as the width exactly when the number fits it. -/
theorem length_formatBin_iff {width : ℕ} (hw : 1 ≤ width) {v : ℤ} (hv : 0 ≤ v) :
    (formatBin width v).length = width ↔ v < 2 ^ width := by
  obtain ⟨n, rfl⟩ := Int.eq_ofNat_of_zero_le hv
  change ((Nat.toDigits 2 n).leftpad width '0').length = width ↔ _
  rw [length_leftpad_max, max_eq_left_iff, Nat.length_toDigits_le_iff (by decide) hw]
  exact_mod_cast Iff.rfl

/-- A numeral has a digit, even if the width is zero. -/
theorem one_le_length_formatBin (width n : ℕ) : 1 ≤ (formatBin width (n : ℤ)).length := by
  change 1 ≤ ((Nat.toDigits 2 n).leftpad width '0').length
  have hne : (Nat.toDigits 2 n).length ≠ 0 := fun h =>
    Nat.toDigits_ne_nil (List.length_eq_zero_iff.mp h)
  rw [length_leftpad_max]
  omega

theorem bitsValue_formatBin (width : ℕ) {v : ℤ} (hv : 0 ≤ v) :
    (bitsValue (formatBin width v) : ℤ) = v := by
  obtain ⟨n, rfl⟩ := Int.eq_ofNat_of_zero_le hv
  change ((bitsValue (List.replicate _ '0' ++ Nat.toDigits 2 n) : ℕ) : ℤ) = n
  have hzero : bitsValue (List.replicate (width - (Nat.toDigits 2 n).length) '0') = 0 := by
    rw [bitsValue, Nat.ofDigitChars_replicate_zero, Nat.mul_zero]
  rw [bitsValue_append, hzero, Nat.zero_mul, Nat.zero_add, bitsValue,
    Nat.ofDigitChars_toDigits (by decide) (by decide)]

/-! ## Decimal numerals -/

/-- An integer as `operator<<` writes it. -/
def decimal : ℤ → List Char
  | .ofNat n => Nat.toDigits 10 n
  | .negSucc n => '-' :: Nat.toDigits 10 (n + 1)

/-- The blanks that `strip` removes. -/
def isSpace (c : Char) : Bool :=
  c == ' ' || c == '\t' || c == '\n' || c == '\r' || c == '\x0b' || c == '\x0c'

/-- `str.strip()`. -/
def strip (s : List Char) : List Char :=
  ((s.dropWhile isSpace).reverse.dropWhile isSpace).reverse

/-- The digits of a non-negative integer literal: at least one, with single underscores
allowed between two of them. -/
def readDigits (s : List Char) : Option ℕ :=
  if (s.splitOn '_').all fun part => !part.isEmpty && part.all Char.isDigit then
    some (Nat.ofDigitChars 10 (s.filter (· != '_')) 0)
  else none

/-- `int(str)`, after the blanks are gone; `none` where it raises. -/
def pyInt : List Char → Option ℤ
  | '-' :: s => (readDigits s).map fun n => -(n : ℤ)
  | '+' :: s => (readDigits s).map fun n => (n : ℤ)
  | s => (readDigits s).map fun n => (n : ℤ)

theorem isDigit_of_mem_toDigits_ten {n : ℕ} {c : Char} (h : c ∈ Nat.toDigits 10 n) :
    c.isDigit = true := Nat.isDigit_of_mem_toDigits (by decide) (by decide) h

theorem readDigits_toDigits (n : ℕ) : readDigits (Nat.toDigits 10 n) = some n := by
  have hunder : '_' ∉ Nat.toDigits 10 n := Nat.underscore_not_in_toDigits
  have hsplit : (Nat.toDigits 10 n).splitOn '_' = [Nat.toDigits 10 n] := by
    have h := @List.splitOn_intercalate Char [Nat.toDigits 10 n] _ _ '_' (by simp [hunder])
      (by simp)
    simpa [List.intercalate] using h
  have hall : (Nat.toDigits 10 n).all Char.isDigit = true :=
    List.all_eq_true.2 fun c hc => isDigit_of_mem_toDigits_ten hc
  have hne : (Nat.toDigits 10 n).isEmpty = false :=
    List.isEmpty_eq_false_iff.2 Nat.toDigits_ne_nil
  have hfilter : (Nat.toDigits 10 n).filter (· != '_') = Nat.toDigits 10 n := by
    rw [List.filter_eq_self]
    intro c hc
    simp only [bne_iff_ne, ne_eq]
    rintro rfl
    exact hunder hc
  simp [readDigits, hsplit, hall, hne, hfilter]

theorem not_isSpace_of_isDigit {c : Char} (h : c.isDigit = true) : isSpace c = false := by
  by_contra hc
  simp only [isSpace, Bool.not_eq_false, Bool.or_eq_true, beq_iff_eq] at hc
  rcases hc with ((((rfl | rfl) | rfl) | rfl) | rfl) | rfl <;> exact absurd h (by decide)

/-- The characters of a decimal numeral. -/
theorem mem_decimal {v : ℤ} {c : Char} (h : c ∈ decimal v) : c = '-' ∨ c.isDigit = true := by
  cases v with
  | ofNat n => exact .inr (isDigit_of_mem_toDigits_ten h)
  | negSucc n =>
    rcases List.mem_cons.1 h with h | h
    · exact .inl h
    · exact .inr (isDigit_of_mem_toDigits_ten h)

theorem not_isSpace_of_mem_decimal {v : ℤ} {c : Char} (h : c ∈ decimal v) :
    isSpace c = false := by
  rcases mem_decimal h with rfl | h
  · rfl
  · exact not_isSpace_of_isDigit h

/-- What is printed is read back. -/
theorem pyInt_decimal (v : ℤ) : pyInt (decimal v) = some v := by
  cases v with
  | negSucc n =>
    change pyInt ('-' :: Nat.toDigits 10 (n + 1)) = some (Int.negSucc n)
    rw [pyInt, readDigits_toDigits]
    rfl
  | ofNat n =>
    have hread := readDigits_toDigits n
    change pyInt (Nat.toDigits 10 n) = some (n : ℤ)
    -- the numeral has no sign, so the last clause of `pyInt` is the one that applies
    match hd : Nat.toDigits 10 n with
    | [] => exact absurd hd Nat.toDigits_ne_nil
    | c :: s =>
      have hc : c.isDigit = true := isDigit_of_mem_toDigits_ten (n := n) (by simp [hd])
      have hminus : c ≠ '-' := by rintro rfl; exact absurd hc (by decide)
      have hplus : c ≠ '+' := by rintro rfl; exact absurd hc (by decide)
      rw [hd] at hread
      rw [pyInt.eq_3 _ (by rintro s' ⟨⟩; exact hminus rfl) (by rintro s' ⟨⟩; exact hplus rfl),
        hread]
      rfl

theorem decimal_ne_nil (v : ℤ) : decimal v ≠ [] := by
  cases v with
  | ofNat n => exact Nat.toDigits_ne_nil
  | negSucc n => exact List.cons_ne_nil _ _

theorem not_mem_decimal {v : ℤ} {c : Char} (hminus : c ≠ '-') (hdigit : c.isDigit = false) :
    c ∉ decimal v := by
  intro h
  rcases mem_decimal h with rfl | h
  · exact hminus rfl
  · rw [hdigit] at h
    exact absurd h Bool.false_ne_true

/-- Two texts with a separator between them are split there. -/
theorem splitOn_append_cons {sep : Char} {s t : List Char} (hs : sep ∉ s) (ht : sep ∉ t) :
    (s ++ sep :: t).splitOn sep = [s, t] := by
  have h := @List.splitOn_intercalate Char [s, t] _ _ sep (by simp [hs, ht]) (by simp)
  simpa [List.intercalate] using h

/-- Blanks before and after a text without blanks are what `strip` takes off. -/
theorem strip_append {l s r : List Char} (hl : ∀ c ∈ l, isSpace c = true)
    (hs : ∀ c ∈ s, isSpace c = false) (hr : ∀ c ∈ r, isSpace c = true) (hne : s ≠ []) :
    strip (l ++ (s ++ r)) = s := by
  have hstop : ∀ (t : List Char), (∀ c ∈ t, isSpace c = false) → t ≠ [] → ∀ u,
      (t ++ u).dropWhile isSpace = t ++ u := by
    intro t ht htne u
    obtain ⟨c, t', rfl⟩ := List.exists_cons_of_ne_nil htne
    exact List.dropWhile_cons_of_neg (by simp [ht c List.mem_cons_self])
  unfold strip
  rw [List.dropWhile_append_of_pos hl, hstop s hs hne r, List.reverse_append,
    List.dropWhile_append_of_pos (by simpa using hr)]
  have hrev := hstop s.reverse (by simpa using hs) (by simpa using hne) []
  rw [List.append_nil] at hrev
  rw [hrev, List.reverse_reverse]

end VPifo.Numerals
