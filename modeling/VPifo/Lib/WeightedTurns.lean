import Mathlib.Algebra.BigOperators.Fin
import Mathlib.Algebra.Order.BigOperators.Group.Finset
import Mathlib.Tactic.LinearCombination
import Mathlib.Tactic.Linarith
import Mathlib.Tactic.Ring

/-!
# Queues that are served in weighted turns

A server goes round some queues and serves of each at most as many items as its weight, and fewer
when the queue runs empty.  Where it is in its round says how much of each queue the round has
served (`inRound`).

Over any stretch of its work, which may begin and end in the middle of a round, two queues that
never run empty are served in the proportion of their weights, up to one round (`Path.balanced`).
The bound does not depend on the other queues, nor on the length of the stretch.
-/

namespace VPifo.WeightedTurns

variable {n : ℕ}

/-- Between two rounds, or at the turn of a queue of which some items have been served. -/
abbrev Position (n : ℕ) := Option (Fin n × ℕ)

/-- Where the server is after the turn of queue `i`. -/
def next (i : Fin n) : Position n := if h : (i : ℕ) + 1 < n then some (⟨i + 1, h⟩, 0) else none

section Code

variable (w : Fin n → ℕ)

/-- No more has been served than the weight allows. -/
def Fits : Position n → Prop
  | none => True
  | some (i, j) => j ≤ w i

/-- What the round has served of queue `k`, or given up. -/
def inRound : Position n → Fin n → ℕ
  | none, _ => 0
  | some (i, j), k => if k < i then w k else if k = i then j else 0

/-- What the round has served of all queues, or given up. -/
def total (p : Position n) : ℕ := ∑ k, inRound w p k

/-- A move of the server, and of which queue it serves an item.  The queues that are `busy` never
run empty, so that their turns are not cut short. -/
inductive Move (busy : Fin n → Prop) : Position n → Option (Fin n) → Position n → Prop where
  | rest (p : Position n) : Move busy p none p
  | start (i : Fin n) (h : (i : ℕ) = 0) : Move busy none none (some (i, 0))
  | serve (i : Fin n) (j : ℕ) (h : j < w i) : Move busy (some (i, j)) (some i) (some (i, j + 1))
  | pass (i : Fin n) (j : ℕ) (h : busy i → w i ≤ j) : Move busy (some (i, j)) none (next i)

/-- Some moves, one after the other. -/
inductive Path (busy : Fin n → Prop) : Position n → List (Option (Fin n)) → Position n → Prop where
  | nil (p : Position n) : Path busy p [] p
  | cons {p q r : Position n} {l : Option (Fin n)} {ls : List (Option (Fin n))}
      (h : Move w busy p l q) (hs : Path busy q ls r) : Path busy p (l :: ls) r

end Code

/-! ## Within a round -/

section Round

variable {w : Fin n → ℕ} {busy : Fin n → Prop} {p q : Position n} {l : Option (Fin n)}
  {i k f g : Fin n} {j : ℕ}

@[simp] theorem inRound_none (k : Fin n) : inRound w none k = 0 := rfl

theorem inRound_of_lt (h : k < i) : inRound w (some (i, j)) k = w k := if_pos h

@[simp] theorem inRound_self : inRound w (some (i, j)) i = j := by
  rw [inRound, if_neg (lt_irrefl i), if_pos rfl]

theorem inRound_of_gt (h : i < k) : inRound w (some (i, j)) k = 0 := by
  rw [inRound, if_neg (lt_asymm h), if_neg (ne_of_gt h)]

theorem inRound_le (h : Fits w p) (k : Fin n) : inRound w p k ≤ w k := by
  match p with
  | none => exact Nat.zero_le _
  | some (i, j) =>
    rcases lt_trichotomy k i with hk | rfl | hk
    · exact (inRound_of_lt hk).le
    · rw [inRound_self]
      exact h
    · rw [inRound_of_gt hk]
      exact Nat.zero_le _

theorem inRound_serve (k : Fin n) :
    inRound w (some (i, j + 1)) k = inRound w (some (i, j)) k + if i = k then 1 else 0 := by
  rcases lt_trichotomy k i with hk | rfl | hk
  · rw [inRound_of_lt hk, inRound_of_lt hk, if_neg (ne_of_gt hk)]
    rfl
  · rw [inRound_self, inRound_self, if_pos rfl]
  · rw [inRound_of_gt hk, inRound_of_gt hk, if_neg (ne_of_lt hk)]

/-- After its turn a queue has had its weight. -/
theorem inRound_next (h : (i : ℕ) + 1 < n) (k : Fin n) :
    inRound w (next i) k = if k ≤ i then w k else 0 := by
  rw [next, dif_pos h]
  by_cases hk : k ≤ i
  · rw [if_pos hk, inRound_of_lt (Fin.lt_def.mpr (Nat.lt_succ_of_le (Fin.le_def.mp hk)))]
  · rw [if_neg hk]
    have hk' : (i : ℕ) + 1 ≤ k := Fin.lt_def.mp (not_le.mp hk)
    rcases eq_or_lt_of_le hk' with heq | hlt
    · have : k = ⟨i + 1, h⟩ := Fin.ext heq.symm
      rw [this, inRound_self]
    · exact inRound_of_gt (Fin.lt_def.mpr hlt)

theorem next_last (h : ¬(i : ℕ) + 1 < n) : (next i : Position n) = none := dif_neg h

theorem Move.fits (h : Move w busy p l q) (hp : Fits w p) : Fits w q := by
  cases h with
  | rest => exact hp
  | start i => exact Nat.zero_le _
  | serve i j hj => exact hj
  | pass i j =>
    by_cases hi : (i : ℕ) + 1 < n
    · rw [next, dif_pos hi]
      exact Nat.zero_le _
    · rw [next_last hi]
      trivial

/-! ### How much a round serves -/

theorem total_le (h : Fits w p) : total w p ≤ ∑ k, w k :=
  Finset.sum_le_sum fun k _ => inRound_le h k

@[simp] theorem total_start (h : (i : ℕ) = 0) : total w (some (i, 0)) = 0 :=
  Finset.sum_eq_zero fun k _ => by
    rcases lt_trichotomy k i with hk | rfl | hk
    · exact absurd (Fin.lt_def.mp hk) (by omega)
    · exact inRound_self
    · exact inRound_of_gt hk

theorem total_serve : total w (some (i, j + 1)) = total w (some (i, j)) + 1 := by
  rw [total, total, Finset.sum_congr rfl fun k _ => inRound_serve k, Finset.sum_add_distrib,
    Finset.sum_ite_eq Finset.univ i, if_pos (Finset.mem_univ i)]

theorem total_le_next (h : (i : ℕ) + 1 < n) (hj : j ≤ w i) :
    total w (some (i, j)) ≤ total w (next i) := by
  refine Finset.sum_le_sum fun k _ => ?_
  rw [inRound_next h]
  rcases lt_trichotomy k i with hk | rfl | hk
  · rw [inRound_of_lt hk, if_pos hk.le]
  · rw [inRound_self, if_pos le_rfl]
    exact hj
  · rw [inRound_of_gt hk]
    exact Nat.zero_le _

/-! ### Two queues -/

/-- By how much the round has favoured queue `f` over queue `g`. -/
def lead (w : Fin n → ℕ) (f g : Fin n) (p : Position n) : ℤ :=
  inRound w p f * w g - inRound w p g * w f

theorem lead_swap (w : Fin n → ℕ) (f g : Fin n) (p : Position n) :
    lead w f g p = -lead w g f p := by
  rw [lead, lead]
  ring

/-- The queue that comes first leads, by no more than a round. -/
theorem lead_mem (hp : Fits w p) (hfg : f ≤ g) : 0 ≤ lead w f g p ∧ lead w f g p ≤ w f * w g := by
  have hf : (inRound w p f : ℤ) ≤ w f := Int.ofNat_le.mpr (inRound_le hp f)
  have hg : (inRound w p g : ℤ) ≤ w g := Int.ofNat_le.mpr (inRound_le hp g)
  have hwf : (0 : ℤ) ≤ w f := Int.natCast_nonneg _
  have hwg : (0 : ℤ) ≤ w g := Int.natCast_nonneg _
  have hlate : (0 : ℤ) ≤ inRound w p g * w f := by positivity
  refine ⟨?_, by rw [lead]; nlinarith⟩
  rw [lead]
  rcases eq_or_lt_of_le hfg with rfl | hlt
  · exact (sub_self _).ge
  · match p with
    | none => simp
    | some (i, j) =>
      -- queue `g` has had something only if queue `f` has had everything
      rcases lt_or_ge i g with hig | hgi
      · rw [inRound_of_gt hig]
        simp only [Nat.cast_zero, zero_mul, sub_zero]
        positivity
      · rw [inRound_of_lt (lt_of_lt_of_le hlt hgi)]
        nlinarith

/-- What a move does to the queues that are busy: it serves what it says, and ends `r` rounds. -/
theorem Move.inRound_eq (h : Move w busy p l q) (hp : Fits w p) : ∃ r : ℕ, ∀ k, busy k →
    inRound w q k + r * w k = inRound w p k + if l = some k then 1 else 0 := by
  cases h with
  | rest => exact ⟨0, fun k _ => by simp⟩
  | start i hi =>
    refine ⟨0, fun k _ => ?_⟩
    rcases lt_trichotomy k i with hki | rfl | hki
    · exact absurd (Fin.lt_def.mp hki) (by omega)
    · simp
    · rw [inRound_of_gt hki]
      simp
  | serve i j hj =>
    refine ⟨0, fun k _ => ?_⟩
    rw [inRound_serve]
    simp
  | pass i j hi =>
    have hj : j ≤ w i := hp
    by_cases hlast : (i : ℕ) + 1 < n
    · refine ⟨0, fun k hk => ?_⟩
      rw [inRound_next hlast]
      rcases lt_trichotomy k i with hki | rfl | hki
      · rw [inRound_of_lt hki, if_pos hki.le]
        simp
      · rw [inRound_self, if_pos le_rfl, le_antisymm hj (hi hk)]
        simp
      · rw [inRound_of_gt hki, if_neg (not_le.mpr hki)]
        simp
    · -- the round is over, and the queues that are busy have had their weight
      refine ⟨1, fun k hk => ?_⟩
      rw [next_last hlast]
      have hki : k ≤ i := Fin.le_def.mpr (by omega)
      rcases eq_or_lt_of_le hki with rfl | hlt
      · rw [inRound_self, le_antisymm hj (hi hk)]
        simp
      · rw [inRound_of_lt hlt]
        simp

/-- What is served changes the lead. -/
theorem Move.lead_eq (h : Move w busy p l q) (hp : Fits w p) (hf : busy f) (hg : busy g) :
    lead w f g q = lead w f g p +
      (((if l = some f then 1 else 0 : ℕ) : ℤ) * w g -
        ((if l = some g then 1 else 0 : ℕ) : ℤ) * w f) := by
  obtain ⟨r, hr⟩ := h.inRound_eq hp
  have hfr : (inRound w q f : ℤ) + r * w f = inRound w p f + (if l = some f then 1 else 0 : ℕ) := by
    exact_mod_cast hr f hf
  have hgr : (inRound w q g : ℤ) + r * w g = inRound w p g + (if l = some g then 1 else 0 : ℕ) := by
    exact_mod_cast hr g hg
  rw [lead, lead]
  linear_combination (w g : ℤ) * hfr - (w f : ℤ) * hgr

end Round

/-! ## Over a stretch -/

section Stretch

variable {w : Fin n → ℕ} {busy : Fin n → Prop} {p q : Position n} {l : Option (Fin n)}
  {ls : List (Option (Fin n))} {f g : Fin n}

/-- How often a queue is served. -/
def served (ls : List (Option (Fin n))) (k : Fin n) : ℕ := ls.count (some k)

theorem served_cons (l : Option (Fin n)) (ls : List (Option (Fin n))) (k : Fin n) :
    served (l :: ls) k = served ls k + if l = some k then 1 else 0 := by
  rw [served, List.count_cons, served]
  simp

theorem Path.fits (h : Path w busy p ls q) (hp : Fits w p) : Fits w q := by
  induction h with
  | nil => exact hp
  | cons h _ ih => exact ih (h.fits hp)

theorem Path.lead_eq (h : Path w busy p ls q) (hp : Fits w p) (hf : busy f) (hg : busy g) :
    lead w f g q = lead w f g p + (served ls f * w g - served ls g * w f) := by
  induction h with
  | nil => simp [served]
  | cons h _ ih =>
    rw [ih (h.fits hp), h.lead_eq hp hf hg, served_cons, served_cons]
    push_cast
    ring

/-- **Two queues that are busy are served in the proportion of their weights**, up to one round. -/
theorem Path.balanced (h : Path w busy p ls q) (hp : Fits w p) (hf : busy f) (hg : busy g) :
    |(served ls f * w g - served ls g * w f : ℤ)| ≤ w f * w g := by
  have heq := h.lead_eq hp hf hg
  have hq := h.fits hp
  rcases le_total f g with hfg | hgf
  · obtain ⟨hp₀, hp₁⟩ := lead_mem hp hfg
    obtain ⟨hq₀, hq₁⟩ := lead_mem hq hfg
    rw [abs_le]
    constructor <;> linarith
  · obtain ⟨hp₀, hp₁⟩ := lead_mem hp hgf
    obtain ⟨hq₀, hq₁⟩ := lead_mem hq hgf
    rw [lead_swap w f g p, lead_swap w f g q] at heq
    rw [abs_le]
    constructor <;> linarith

end Stretch

end VPifo.WeightedTurns
