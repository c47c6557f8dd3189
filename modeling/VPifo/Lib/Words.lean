import Mathlib.Data.List.TakeWhile
import Mathlib.Data.List.DropRight
import Mathlib.Tactic.Common

/-!
# Texts read word by word

An input stream that is read into a string skips the blanks in front and takes the
characters up to the next blank (`extract`).  What such a reader gets out of a text, call
after call, are the words of the text (`words`), whatever the lines are that the writer had
in mind.

`extract_append` is the call on a text that starts with a word, `words_line` the words of a
line that was written with one blank between two of them.  A writer and a reader that
disagree on the number of words in a line are told apart by counting: every call takes one
word away (`words_next`), and a call on a text without words takes none.
-/

namespace VPifo.Words

variable {α : Type*} (blank : α → Bool)

/-- The text without the blanks in front. -/
def skip (s : List α) : List α := s.dropWhile blank

/-- `in >> w`: the word that is read and what is left; `none` at the end of the text. -/
def extract (s : List α) : Option (List α × List α) :=
  match skip blank s with
  | [] => none
  | c :: t => some (c :: t.takeWhile fun d => !blank d, t.dropWhile fun d => !blank d)

/-- `in >> w` as an assignment: at the end of the text the old value stays, and nothing of
the text is left. -/
def next (old s : List α) : List α × List α := (extract blank s).getD (old, [])

/-- Not empty and without blanks. -/
structure IsWord (w : List α) : Prop where
  ne_nil : w ≠ []
  not_blank : ∀ c ∈ w, blank c = false

variable {blank}

theorem length_skip_le (s : List α) : (skip blank s).length ≤ s.length :=
  List.length_dropWhile_le _ s

theorem extract_of_skip {s t : List α} {c : α} (h : skip blank s = c :: t) :
    extract blank s =
      some (c :: t.takeWhile fun d => !blank d, t.dropWhile fun d => !blank d) := by
  rw [extract, h]

theorem length_lt_of_extract {s w t : List α} (h : extract blank s = some (w, t)) :
    t.length < s.length := by
  have hle : (skip blank s).length ≤ s.length := length_skip_le s
  unfold extract at h
  split at h
  · exact absurd h (by simp)
  · rename_i c u hu
    obtain ⟨-, rfl⟩ := Prod.mk.inj (Option.some.inj h)
    have hdrop := List.length_dropWhile_le (fun d => !blank d) u
    rw [hu, List.length_cons] at hle
    omega

variable (blank) in
/-- All words of a text. -/
def words (s : List α) : List (List α) :=
  match _h : extract blank s with
  | none => []
  | some (w, t) => w :: words t
termination_by s.length
decreasing_by exact length_lt_of_extract ‹_›

/-! ## One call -/

theorem words_of_extract {s w t : List α} (h : extract blank s = some (w, t)) :
    words blank s = w :: words blank t := by
  rw [words]
  split
  · rename_i hnone
    exact absurd (h.symm.trans hnone) (by simp)
  · rename_i w' t' hsome
    obtain ⟨rfl, rfl⟩ := Prod.mk.inj (Option.some.inj (h.symm.trans hsome))
    rfl

theorem words_of_extract_eq_none {s : List α} (h : extract blank s = none) :
    words blank s = [] := by
  rw [words]
  split
  · rfl
  · rename_i hsome
    exact absurd (h.symm.trans hsome) (by simp)

@[simp] theorem words_nil : words blank ([] : List α) = [] := words_of_extract_eq_none rfl

@[simp] theorem skip_skip (s : List α) : skip blank (skip blank s) = skip blank s :=
  List.dropWhile_idempotent _ s

@[simp] theorem extract_skip (s : List α) : extract blank (skip blank s) = extract blank s := by
  rw [extract, skip_skip, extract]

/-- The words do not depend on the blanks in front. -/
@[simp] theorem words_skip (s : List α) : words blank (skip blank s) = words blank s := by
  cases h : extract blank s with
  | none => rw [words_of_extract_eq_none h, words_of_extract_eq_none ((extract_skip s).trans h)]
  | some r => rw [words_of_extract h, words_of_extract ((extract_skip s).trans h)]

theorem extract_cons_blank {b : α} (hb : blank b = true) (s : List α) :
    extract blank (b :: s) = extract blank s := by
  rw [← extract_skip (b :: s), skip, List.dropWhile_cons_of_pos hb, ← skip, extract_skip]

theorem words_cons_blank {b : α} (hb : blank b = true) (s : List α) :
    words blank (b :: s) = words blank s := by
  rw [← words_skip (b :: s), skip, List.dropWhile_cons_of_pos hb, ← skip, words_skip]

/-- A call takes a word away, if there is one. -/
theorem words_next (old s : List α) :
    words blank (next blank old s).2 = (words blank s).tail := by
  unfold next
  cases h : extract blank s with
  | none => simp [words_of_extract_eq_none h]
  | some r => rw [words_of_extract h, Option.getD_some, List.tail_cons]

/-! ## A text that starts with a word -/

theorem IsWord.skip_append {w : List α} (hw : IsWord blank w) (t : List α) :
    skip blank (w ++ t) = w ++ t := by
  obtain ⟨c, u, rfl⟩ := List.exists_cons_of_ne_nil hw.ne_nil
  exact List.dropWhile_cons_of_neg (by simp [hw.not_blank c List.mem_cons_self])

/-- **A call on a text that starts with a word.**  If a blank or nothing comes after the
word, the call reads the word. -/
theorem extract_append {w t : List α} (hw : IsWord blank w)
    (ht : ∀ c ∈ t.head?, blank c = true) : extract blank (w ++ t) = some (w, t) := by
  have hskip := hw.skip_append t
  obtain ⟨c, u, rfl⟩ := List.exists_cons_of_ne_nil hw.ne_nil
  have hu : ∀ d ∈ u, (!blank d) = true := by
    intro d hd
    simp [hw.not_blank d (List.mem_cons_of_mem c hd)]
  have hstop : t.takeWhile (fun d => !blank d) = [] ∧ t.dropWhile (fun d => !blank d) = t := by
    cases t with
    | nil => exact ⟨rfl, rfl⟩
    | cons b t =>
      have hb : blank b = true := ht b rfl
      simp [hb]
  rw [List.cons_append] at hskip ⊢
  rw [extract_of_skip hskip, List.takeWhile_append_of_pos hu, List.dropWhile_append_of_pos hu,
    hstop.1, hstop.2, List.append_nil]

/-- The same with a blank in front of the word and a blank after it. -/
theorem extract_blank_word {w : List α} {b b' : α} (hw : IsWord blank w) (hb : blank b = true)
    (hb' : blank b' = true) (t : List α) :
    extract blank (b :: (w ++ b' :: t)) = some (w, b' :: t) := by
  rw [extract_cons_blank hb]
  exact extract_append hw (by simpa using hb')

/-! ## Lines -/

/-- The words of a line with a blank between two of them, and the end of the line. -/
def line (b e : α) : List (List α) → List α
  | [] => [e]
  | [w] => w ++ [e]
  | w :: w' :: ws => w ++ b :: line b e (w' :: ws)

/-- **The words of a line** are those it was written with, and those of the text after it
follow. -/
theorem words_line {b e : α} (hb : blank b = true) (he : blank e = true) {ws : List (List α)}
    (hws : ∀ w ∈ ws, IsWord blank w) (t : List α) :
    words blank (line b e ws ++ t) = ws ++ words blank t := by
  induction ws with
  | nil => exact words_cons_blank he t
  | cons w ws ih =>
    have hw := hws w List.mem_cons_self
    cases ws with
    | nil =>
      have hcall := extract_append (t := e :: t) hw (by simpa using he)
      rw [line, List.append_assoc, List.singleton_append, words_of_extract hcall,
        words_cons_blank he]
      rfl
    | cons w' ws =>
      have hcall := extract_append (t := b :: (line b e (w' :: ws) ++ t)) hw (by simpa using hb)
      rw [line, List.append_assoc, List.cons_append, words_of_extract hcall,
        words_cons_blank hb, ih fun u hu => hws u (List.mem_cons_of_mem w hu)]
      rfl

end VPifo.Words
