import Mathlib.Data.List.Basic
import Mathlib.Tactic.Common

/-!
# A bounded queue under a clock

A queue of at most `cap` words is asked once per cycle to give its first word, to take a new
one, or both.  It takes the word unless it is full and gives none in the same cycle
(`accepts`).

`queue` is the queue from cycle to cycle, `accepted` what it has taken and `given` what it has
given.  If it is never read empty, then the words given are the first of the words taken and
the queue is the rest (`given_append_queue`), and it never holds more than `cap` of them
(`length_queue_le`).
-/

namespace VPifo.BoundedQueue

variable {α : Type*}

/-- What is asked of the queue in one cycle. -/
structure Request (α : Type*) where
  write : Bool
  read : Bool
  word : α

variable (cap : ℕ)

/-- The queue takes the word: it is not full, or it gives one. -/
def accepts (q : List α) (x : Request α) : Bool := x.write && (x.read || decide (q.length < cap))

/-- The queue after one cycle. -/
def next (q : List α) (x : Request α) : List α :=
  (if x.read then q.tail else q) ++ if accepts cap q x then [x.word] else []

variable (xs : ℕ → Request α)

/-- The queue at the beginning of cycle `c`. -/
def queue : ℕ → List α
  | 0 => []
  | c + 1 => next cap (queue c) (xs c)

/-- The words taken before cycle `c`. -/
def accepted : ℕ → List α
  | 0 => []
  | c + 1 => accepted c ++ if accepts cap (queue cap xs c) (xs c) then [(xs c).word] else []

/-- The number of reads before cycle `c`. -/
def reads : ℕ → ℕ
  | 0 => 0
  | c + 1 => reads c + if (xs c).read then 1 else 0

/-- The words given before cycle `c`. -/
def given : ℕ → List α
  | 0 => []
  | c + 1 => given c ++ if (xs c).read then (queue cap xs c).head?.toList else []

/-- The queue is never read empty. -/
def NeverReadEmpty : Prop := ∀ c, (xs c).read = true → queue cap xs c ≠ []

variable {cap xs}

theorem accepts_eq_false_iff {q : List α} {x : Request α} (hw : x.write = true)
    (hq : q.length ≤ cap) : accepts cap q x = false ↔ q.length = cap ∧ x.read = false := by
  rw [accepts, hw, Bool.true_and, Bool.or_eq_false_iff, decide_eq_false_iff_not]
  constructor
  · rintro ⟨hr, hlt⟩
    exact ⟨by omega, hr⟩
  · rintro ⟨hlen, hr⟩
    exact ⟨hr, by omega⟩

section Run

variable (h : NeverReadEmpty cap xs) (c : ℕ)

include h

theorem length_queue_le : (queue cap xs c).length ≤ cap := by
  induction c with
  | zero => exact Nat.zero_le _
  | succ c ih =>
    have hne := h c
    rw [queue, next, List.length_append, accepts]
    cases hr : (xs c).read with
    | true =>
      have hpos := List.length_pos_iff.mpr (hne hr)
      rw [if_pos rfl, List.length_tail]
      split
      · simp only [List.length_singleton]; omega
      · simp only [List.length_nil]; omega
    | false =>
      simp only [Bool.false_eq_true, if_false, Bool.false_or, Bool.and_eq_true, decide_eq_true_eq]
      split
      · next hacc => simp only [List.length_singleton]; omega
      · simp only [List.length_nil]; omega

theorem length_given : (given cap xs c).length = reads xs c := by
  induction c with
  | zero => rfl
  | succ c ih =>
    rw [given, reads, List.length_append, ih]
    cases hr : (xs c).read with
    | true =>
      obtain ⟨w, q, hq⟩ := List.exists_cons_of_ne_nil (h c hr)
      rw [hq]
      rfl
    | false => rfl

/-- **First in, first out.**  What has been given and then what is left is what has been
taken. -/
theorem given_append_queue : given cap xs c ++ queue cap xs c = accepted cap xs c := by
  induction c with
  | zero => rfl
  | succ c ih =>
    rw [given, queue, next, accepted, ← ih, ← List.append_assoc]
    congr 1
    cases hr : (xs c).read with
    | true =>
      obtain ⟨w, q, hq⟩ := List.exists_cons_of_ne_nil (h c hr)
      simp [hq]
    | false => simp

theorem given_eq_take : given cap xs c = (accepted cap xs c).take (reads xs c) := by
  rw [← given_append_queue h, ← length_given h, List.take_left]

theorem length_accepted :
    (accepted cap xs c).length = reads xs c + (queue cap xs c).length := by
  rw [← given_append_queue h, List.length_append, length_given h]

end Run

end VPifo.BoundedQueue
