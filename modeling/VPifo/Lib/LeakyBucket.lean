import Mathlib.Algebra.BigOperators.Intervals
import Mathlib.Algebra.Order.BigOperators.Group.Finset
import Mathlib.Algebra.Order.Ring.Nat

/-!
# A backlog that is served at a rate

Work arrives in every cycle, and as long as there is any, some of it is done within every `T`
cycles.  How much can be left is then a matter of the arrivals alone.  They are poured into a
bucket, `T` units for each piece of work, and the bucket leaks one unit in a cycle; what is left
is at most what the bucket holds (`Served.le_bound`).  The bucket holds no more than `T * N` if
and only if no stretch of cycles brings more than `N` pieces and one for every `T` cycles of its
length (`bound_le_iff`).

Part of the work may be counted apart, such as what is meant for one place.  It is bounded by the
arrivals of that part and by the bucket, whichever is less, in every cycle (`Served.le_share`).
-/

namespace VPifo.LeakyBucket

variable {T : ℕ} {f a s : ℕ → ℕ} {c : ℕ}

/-- The backlog `f`, with arrivals `a` and `s` pieces done in each cycle, is served within every
`T` cycles. -/
structure Served (T : ℕ) (f a s : ℕ → ℕ) : Prop where
  start : f 0 = 0
  step : ∀ c, f (c + 1) + s (c + 1) ≤ f c + a c
  served : ∀ c, 0 < f c → ∃ j < T, 0 < s (c + 1 + j) ∨ f (c + 1 + j) = 0

/-- What the bucket holds at the beginning of a cycle. -/
def level (T : ℕ) (a : ℕ → ℕ) : ℕ → ℕ
  | 0 => 0
  | c + 1 => (level T a c - 1) + T * a c

/-- The most there can be left, judged by the arrivals. -/
def bound (T : ℕ) (a : ℕ → ℕ) (c : ℕ) : ℕ := (level T a c + (T - 1)) / T

/-- The bucket is `g` units behind the backlog at most, and something is done before it is `T`
units behind. -/
structure Behind (T : ℕ) (f a s : ℕ → ℕ) (c g : ℕ) : Prop where
  lt : g < T
  le : T * f c ≤ level T a c + g
  due : 0 < f c → ∃ j, g + j < T ∧ (0 < s (c + 1 + j) ∨ f (c + 1 + j) = 0)

/-- **One cycle.**  The bucket falls behind by one unit unless something is done. -/
theorem Behind.next (hs : Served T f a s) {g : ℕ} (h : Behind T f a s c g) :
    ∃ g', Behind T f a s (c + 1) g' := by
  have hT : 0 < T := Nat.zero_lt_of_lt h.lt
  have hdue : 0 < f (c + 1) → ∃ j, 0 + j < T ∧
      (0 < s (c + 1 + 1 + j) ∨ f (c + 1 + 1 + j) = 0) := fun hpos => by
    obtain ⟨j, hj, hdone⟩ := hs.served (c + 1) hpos
    exact ⟨j, by omega, hdone⟩
  have hstep := Nat.mul_le_mul_left T (hs.step c)
  rw [Nat.mul_add, Nat.mul_add] at hstep
  have hlevel : level T a (c + 1) = (level T a c - 1) + T * a c := rfl
  have hle := h.le
  rcases Nat.eq_zero_or_pos (f c) with hzero | hpos
  · -- a backlog that has just begun
    rw [hzero, Nat.mul_zero] at hstep
    exact ⟨0, hT, by omega, hdue⟩
  · have hbucket : 0 < level T a c := by
      have := Nat.le_mul_of_pos_right T hpos
      have := h.lt
      omega
    obtain ⟨j, hj, hdone⟩ := h.due hpos
    cases j with
    | zero =>
      refine ⟨0, hT, ?_, hdue⟩
      rcases hdone with hdone | hdone
      · have := Nat.le_mul_of_pos_right T hdone
        rw [Nat.add_zero] at this
        have := h.lt
        omega
      · rw [Nat.add_zero] at hdone
        rw [hdone]
        omega
    | succ j =>
      refine ⟨g + 1, by omega, by omega, fun _ => ⟨j, by omega, ?_⟩⟩
      rw [show c + 1 + 1 + j = c + 1 + (j + 1) by omega]
      exact hdone

theorem Served.behind (hs : Served T f a s) (hT : 0 < T) (c : ℕ) : ∃ g, Behind T f a s c g := by
  induction c with
  | zero => exact ⟨0, hT, by rw [hs.start]; exact Nat.zero_le _, fun h => absurd hs.start h.ne'⟩
  | succ c ih =>
    obtain ⟨g, hg⟩ := ih
    exact hg.next hs

/-- **What is left is at most what the bucket holds.** -/
theorem Served.le_bound (hs : Served T f a s) (hT : 0 < T) (c : ℕ) : f c ≤ bound T a c := by
  obtain ⟨g, hg⟩ := hs.behind hT c
  rw [bound, Nat.le_div_iff_mul_le hT, Nat.mul_comm]
  have := hg.le
  have := hg.lt
  omega

/-! ## Stretches of cycles -/

/-- The arrivals from cycle `b` on, before cycle `c`. -/
def arrived (a : ℕ → ℕ) (b c : ℕ) : ℕ := ∑ k ∈ Finset.Ico b c, a k

theorem arrived_succ {b : ℕ} (h : b ≤ c) : arrived a b (c + 1) = arrived a b c + a c :=
  Finset.sum_Ico_succ_top h a

/-- The bucket holds what the worst stretch has brought. -/
theorem level_le_iff (T : ℕ) (a : ℕ → ℕ) (c m : ℕ) :
    level T a c ≤ m ↔ ∀ b < c, T * arrived a b c ≤ m + (c - 1 - b) := by
  induction c generalizing m with
  | zero => exact ⟨fun _ b hb => absurd hb (Nat.not_lt_zero b), fun _ => Nat.zero_le m⟩
  | succ c ih =>
    rw [level]
    constructor
    · intro h b hb
      rw [arrived_succ (Nat.le_of_lt_succ hb), Nat.mul_add]
      rcases Nat.lt_succ_iff_lt_or_eq.mp hb with hlt | rfl
      · have := (ih (level T a c)).mp le_rfl b hlt
        omega
      · rw [arrived, Finset.Ico_self, Finset.sum_empty]
        omega
    · intro h
      have hlast := h c (Nat.lt_succ_self c)
      rw [arrived_succ le_rfl, arrived, Finset.Ico_self, Finset.sum_empty, Nat.zero_add] at hlast
      rcases Nat.eq_zero_or_pos (level T a c) with hzero | hpos
      · rw [hzero]
        omega
      · have hc : level T a c ≤ m + 1 - T * a c := by
          refine (ih _).mpr fun b hb => ?_
          have := h b (Nat.lt_succ_of_lt hb)
          rw [arrived_succ hb.le, Nat.mul_add] at this
          omega
        omega

/-- **The bound, stretch by stretch.** -/
theorem bound_le_iff (hT : 0 < T) (a : ℕ → ℕ) (c N : ℕ) :
    bound T a c ≤ N ↔ ∀ b < c, T * arrived a b c ≤ T * N + (c - 1 - b) := by
  rw [bound, ← Nat.lt_succ_iff, Nat.div_lt_iff_lt_mul hT, ← level_le_iff, Nat.succ_mul,
    Nat.mul_comm N T]
  omega

/-! ## A part of the work -/

/-- The most there can be left of a part whose arrivals are `d`. -/
def share (T : ℕ) (a d : ℕ → ℕ) : ℕ → ℕ
  | 0 => 0
  | c + 1 => min (share T a d c + d c) (bound T a (c + 1))

variable {b d : ℕ → ℕ}

/-- **A part of the work** is at most its share. -/
theorem Served.le_share (hs : Served T f a s) (hT : 0 < T) (hpart : ∀ c, b c ≤ f c)
    (hstep : ∀ c, b (c + 1) ≤ b c + d c) (c : ℕ) : b c ≤ share T a d c := by
  induction c with
  | zero => exact (hpart 0).trans hs.start.le
  | succ c ih =>
    refine le_min ?_ ((hpart (c + 1)).trans (hs.le_bound hT (c + 1)))
    exact (hstep c).trans (Nat.add_le_add_right ih (d c))

/-- A share is at most what has arrived. -/
theorem share_le_arrived (T : ℕ) (a d : ℕ → ℕ) (c : ℕ) : share T a d c ≤ arrived d 0 c := by
  induction c with
  | zero => exact Nat.zero_le _
  | succ c ih =>
    rw [arrived_succ (Nat.zero_le c)]
    exact (min_le_left _ _).trans (Nat.add_le_add_right ih (d c))

/-- A share is at most the bound for all the work. -/
theorem share_le_bound (T : ℕ) (a d : ℕ → ℕ) (c : ℕ) : share T a d c ≤ bound T a c := by
  cases c with
  | zero => exact Nat.zero_le _
  | succ c => exact min_le_right _ _

end VPifo.LeakyBucket
