import VPifo.Compiler.WFQAccount
import Mathlib.Data.Rat.Floor

/-!
# `WFQ.cpp`: the real clock

A round of the loop of `updateVirTimeTo` sets `realTime` to the time of a departure, and it
computes this time back from the virtual clock.  All virtual times are `double`, but the
parameter `nextVirTime` of `getNextRealTime` is a `long long`: the departure is cut to an
integer before the present virtual time is subtracted from it, and what comes out is cut
once more when it is stored.

The second cut is harmless: a time that is cut is still not after the time the loop runs to
(`Round.le_nextRealTime`).  The first one is not.  Once the virtual clock stands between two
integers and the next departure lies before the second of them, the difference is negative,
and the real clock runs backward, by up to the sum of the weights
(`Round.realTime_le_iff`).
-/

namespace VPifo.Sdl

/-! ## Cutting toward zero -/

theorem toLongLong_of_nonneg {x : ℚ} (hx : 0 ≤ x) : Doubles.rat.toLongLong x = ⌊x⌋ := by
  rw [Rat.floor_def']
  exact Int.tdiv_eq_ediv_of_nonneg (Rat.num_nonneg.mpr hx)

theorem toLongLong_of_nonpos {x : ℚ} (hx : x ≤ 0) : Doubles.rat.toLongLong x = ⌈x⌉ := by
  have hneg : Doubles.rat.toLongLong (-x) = -Doubles.rat.toLongLong x := by
    simp [Doubles.rat, Int.neg_tdiv]
  rw [← neg_neg x, Int.ceil_neg, ← toLongLong_of_nonneg (neg_nonneg.mpr hx), hneg, neg_neg,
    neg_neg]

/-- A number that is not above an integer is not above it after the cut. -/
theorem toLongLong_le {x : ℚ} {n : ℤ} (h : x ≤ n) : Doubles.rat.toLongLong x ≤ n := by
  rcases le_total 0 x with hx | hx
  · rw [toLongLong_of_nonneg hx]
    exact_mod_cast (Int.floor_le x).trans h
  · rw [toLongLong_of_nonpos hx]
    exact Int.ceil_le.mpr h

/-- An integer clock that is moved by `y` and cut has not fallen exactly if `y` is not
negative, or the clock is not positive and `y` is above -1. -/
theorem le_toLongLong_add_iff (n : ℤ) (y : ℚ) :
    n ≤ Doubles.rat.toLongLong (n + y) ↔ 0 ≤ y ∨ (n ≤ 0 ∧ -1 < y) := by
  rcases le_total 0 (n + y) with hx | hx
  · rw [toLongLong_of_nonneg hx, Int.le_floor, le_add_iff_nonneg_right]
    refine ⟨.inl, fun h => h.elim id fun ⟨hn, _⟩ => ?_⟩
    have hn' : (n : ℚ) ≤ 0 := by exact_mod_cast hn
    linarith
  · rw [toLongLong_of_nonpos hx, ← Int.sub_one_lt_iff, Int.lt_ceil]
    push_cast
    constructor
    · intro h
      rcases le_or_gt 0 y with hy | hy
      · exact .inl hy
      · refine .inr ⟨?_, by linarith⟩
        have hn : (n : ℚ) < 1 := by linarith
        exact Int.lt_add_one_iff.mp (by exact_mod_cast hn)
    · rintro (hy | ⟨-, hy⟩) <;> linarith

/-! ## The rounds of the loop -/

/-- One round of the loop of `updateVirTimeTo`. -/
structure Round (F : Type) where
  before : StrategyWFQ F
  out : PacketOut F
  after : StrategyWFQ F

section Rounds

variable {F : Type} (D : Doubles F)

/-- All rounds of the loop of `updateVirTimeTo`. -/
def rounds (nextRealTime : ℤ) : ℕ → StrategyWFQ F → List (Round F)
  | 0, _ => []
  | n + 1, s =>
    match topPop D s.outQueue with
    | none => []
    | some (out, rest) =>
      if D.le out.virDepartTime
          (getNextVirTime D s.realTime s.virTime nextRealTime s.curWeightSum) then
        ⟨s, out, s.depart D out rest⟩ :: rounds nextRealTime n (s.depart D out rest)
      else []

/-- The loop ends where its last round ends. -/
theorem departLoop_eq_rounds (nextRealTime : ℤ) (n : ℕ) (s : StrategyWFQ F) :
    departLoop D nextRealTime n s =
      ((rounds D nextRealTime n s).map Round.after).getLast?.getD s := by
  induction n generalizing s with
  | zero => rfl
  | succ n ih =>
    rw [departLoop, rounds]
    cases topPop D s.outQueue with
    | none => rfl
    | some r =>
      obtain ⟨out, rest⟩ := r
      dsimp only
      split_ifs
      · rw [List.map_cons, List.getLast?_cons, Option.getD_some]
        exact ih (s.depart D out rest)
      · rfl

end Rounds

/-- What a round starts from and what it does. -/
structure Round.Takes (nextRealTime : ℤ) (r : Round ℚ) : Prop where
  account : Account r.before
  virTime_nonneg : 0 ≤ r.before.virTime
  weightSum_pos : 0 < r.before.curWeightSum
  virTime_le : r.before.virTime ≤ r.out.virDepartTime
  guard : r.out.virDepartTime ≤ getNextVirTime Doubles.rat r.before.realTime r.before.virTime
    nextRealTime r.before.curWeightSum
  realTime_eq : r.after.realTime = Doubles.rat.toLongLong (r.before.realTime +
    (Doubles.rat.toLongLong r.out.virDepartTime - r.before.virTime) * r.before.curWeightSum)

/-- **Every round** starts from an account with a virtual clock that is not negative. -/
theorem rounds_take (nextRealTime : ℤ) (n : ℕ) {s : StrategyWFQ ℚ} (hs : Account s)
    (hvir : 0 ≤ s.virTime) :
    ∀ r ∈ rounds Doubles.rat nextRealTime n s, r.Takes nextRealTime := by
  induction n generalizing s with
  | zero => exact fun r hr => absurd hr List.not_mem_nil
  | succ n ih =>
    rw [rounds]
    cases htop : topPop Doubles.rat s.outQueue with
    | none => exact fun r hr => absurd hr List.not_mem_nil
    | some p =>
      obtain ⟨out, rest⟩ := p
      obtain ⟨hdepart, hle⟩ := hs.depart htop
      have hne : s.outQueue ≠ [] := by
        intro hempty
        simp [hempty, topPop] at htop
      dsimp only
      split_ifs with hguard
      · refine List.forall_mem_cons.2 ⟨?_, ih hdepart (hvir.trans hle)⟩
        exact ⟨hs, hvir, hs.pos hne, hle, (Doubles.rat_le _ _).1 hguard, rfl⟩
      · exact fun r hr => absurd hr List.not_mem_nil

/-! ## One round -/

namespace Round

/-- The round does not cut the departure below the virtual clock; or the real clock has not
left zero and is moved by less than one. -/
def Whole (r : Round ℚ) : Prop :=
  r.before.virTime ≤ Doubles.rat.toLongLong r.out.virDepartTime ∨
    (r.before.realTime ≤ 0 ∧
      (r.before.virTime - Doubles.rat.toLongLong r.out.virDepartTime) *
        r.before.curWeightSum < 1)

instance (r : Round ℚ) : Decidable r.Whole := inferInstanceAs (Decidable (_ ∨ _))

variable {nextRealTime : ℤ} {r : Round ℚ}

/-- The real clock stays before the time the loop runs to. -/
theorem Takes.le_nextRealTime (h : r.Takes nextRealTime) : r.after.realTime ≤ nextRealTime := by
  rw [h.realTime_eq]
  refine toLongLong_le ?_
  have hW := h.weightSum_pos
  have hcut : ((Doubles.rat.toLongLong r.out.virDepartTime : ℤ) : ℚ) ≤ r.out.virDepartTime := by
    rw [toLongLong_of_nonneg (h.virTime_nonneg.trans h.virTime_le)]
    exact Int.floor_le _
  have hguard : r.out.virDepartTime - r.before.virTime ≤
      (nextRealTime - r.before.realTime) / r.before.curWeightSum := by
    have hg := h.guard
    simp only [getNextVirTime, Doubles.rat] at hg
    push_cast at hg
    linarith
  rw [le_div_iff₀ hW] at hguard
  have hmove : (Doubles.rat.toLongLong r.out.virDepartTime - r.before.virTime) *
      r.before.curWeightSum ≤
      (r.out.virDepartTime - r.before.virTime) * r.before.curWeightSum :=
    mul_le_mul_of_nonneg_right (by linarith) hW.le
  linarith

/-- **When the real clock does not fall.** -/
theorem Takes.realTime_le_iff (h : r.Takes nextRealTime) :
    r.before.realTime ≤ r.after.realTime ↔ r.Whole := by
  have hW := h.weightSum_pos
  rw [h.realTime_eq, le_toLongLong_add_iff, Whole]
  refine or_congr ?_ (and_congr_right fun _ => ?_)
  · rw [mul_nonneg_iff_of_pos_right hW, sub_nonneg]
  · rw [neg_lt, ← neg_mul, neg_sub]

end Round

/-! ## Whole runs -/

/-- The virtual clock of an object never goes back. -/
theorem serve_virTime_le {calls : List WFQCall} {s s' : StrategyWFQ ℚ} {tags : List ℤ}
    (hpos : PositiveWeights s.weightTable) (hs : Account s)
    (hserve : serve Doubles.rat s calls = some (tags, s')) : s.virTime ≤ s'.virTime := by
  induction calls generalizing s tags with
  | nil =>
    obtain ⟨-, rfl⟩ := Prod.mk.inj (Option.some.inj hserve)
    exact le_rfl
  | cons call calls ih =>
    obtain ⟨tag, s₁, tags₁, hcall, hcalls⟩ := exists_of_serve_cons hserve
    obtain ⟨weight, hweight, -⟩ := calWFQPriority_eq_some hcall
    obtain ⟨hs₁, -, hmono, htable, -, -⟩ :=
      calWFQPriority_account hs (hpos call.key weight hweight) hweight hcall
    exact hmono.trans (ih (by rwa [htable]) hs₁ hcalls)

/-- **When the real clock of a fair queue is monotone.**  With rationals for the doubles, for
all positive weights, every sequence of calls on a new object and every call after it: the
rounds of `updateVirTimeTo` leave `realTime` at least where it was and not after the new real
time exactly if none of them cuts the departure below the virtual clock, or moves a real
clock that has not left zero by one or more. -/
theorem real_clock_monotone_iff (weightTable : String → Option ℚ)
    (hpos : PositiveWeights weightTable) (calls : List WFQCall) (tags : List ℤ)
    (s : StrategyWFQ ℚ) (hserve : serve Doubles.rat (newWFQ weightTable) calls = some (tags, s))
    (nextRealTime : ℤ) :
    (∀ r ∈ rounds Doubles.rat nextRealTime s.outQueue.length s,
      r.before.realTime ≤ r.after.realTime ∧ r.after.realTime ≤ nextRealTime) ↔
    ∀ r ∈ rounds Doubles.rat nextRealTime s.outQueue.length s, r.Whole := by
  have hnew := account_newWFQ weightTable
  have hs := (serve_account (s := newWFQ weightTable) hpos hnew hserve).1
  have hvir : 0 ≤ s.virTime := serve_virTime_le (s := newWFQ weightTable) hpos hnew hserve
  have htakes := rounds_take nextRealTime s.outQueue.length hs hvir
  refine forall₂_congr fun r hr => ?_
  rw [(htakes r hr).realTime_le_iff]
  exact and_iff_left (htakes r hr).le_nextRealTime

/-- A flow with weight 3 and one with weight 7. -/
def twoFlows (key : String) : Option ℚ :=
  if key = "f" then some 3 else if key = "g" then some 7 else none

theorem positive_twoFlows : PositiveWeights twoFlows := by
  intro key weight hweight
  rw [twoFlows] at hweight
  split_ifs at hweight
  · obtain rfl := Option.some.inj hweight
    norm_num
  · obtain rfl := Option.some.inj hweight
    norm_num

/-- A packet of each flow in cycle 0, the first of 100 bytes. -/
def twoArrivals (len : ℕ) : List WFQCall := [⟨"f", 0, 100⟩, ⟨"g", 0, len⟩]

/-- The packets depart at 100/3 and 236/7, and the real clock goes to 330 and back to 327. -/
theorem clock_twoArrivals :
    ((serve Doubles.rat (newWFQ twoFlows) (twoArrivals 236)).map fun p =>
      (rounds Doubles.rat 1000 p.2.outQueue.length p.2).map fun r =>
        (r.before.realTime, r.after.realTime)) = some [(0, 330), (330, 327)] := by
  decide +kernel

/-- With a second packet of 236 bytes the real clock falls. -/
theorem real_clock_monotone_fails :
    PositiveWeights twoFlows ∧
      ¬∀ tags s, serve Doubles.rat (newWFQ twoFlows) (twoArrivals 236) = some (tags, s) →
        ∀ r ∈ rounds Doubles.rat 1000 s.outQueue.length s,
          r.before.realTime ≤ r.after.realTime ∧ r.after.realTime ≤ 1000 := by
  refine ⟨positive_twoFlows, fun h => ?_⟩
  obtain ⟨⟨tags, s⟩, hserve, hclock⟩ := Option.map_eq_some_iff.1 clock_twoArrivals
  have hmem : ((330, 327) : ℤ × ℤ) ∈ (rounds Doubles.rat 1000 s.outQueue.length s).map fun r =>
      (r.before.realTime, r.after.realTime) := by
    rw [hclock]
    exact List.mem_cons_of_mem _ List.mem_cons_self
  obtain ⟨r, hr, heq⟩ := List.mem_map.1 hmem
  obtain ⟨hbefore, hafter⟩ := Prod.mk.inj heq
  have hle := (h tags s hserve r hr).1
  rw [hbefore, hafter] at hle
  exact absurd hle (by decide)

/-- With a second packet of 280 bytes, which departs at 40, the real clock does not fall. -/
theorem real_clock_monotone_iff_whole :
    ∃ tags s, serve Doubles.rat (newWFQ twoFlows) (twoArrivals 280) = some (tags, s) ∧
      ∀ r ∈ rounds Doubles.rat 1000 s.outQueue.length s,
        r.before.realTime ≤ r.after.realTime ∧ r.after.realTime ≤ 1000 := by
  have hwhole : ((serve Doubles.rat (newWFQ twoFlows) (twoArrivals 280)).map
      fun p : List ℤ × StrategyWFQ ℚ =>
        decide (∀ r ∈ rounds Doubles.rat 1000 p.2.outQueue.length p.2, r.Whole)) = some true := by
    decide +kernel
  obtain ⟨⟨tags, s⟩, hserve, hall⟩ := Option.map_eq_some_iff.1 hwhole
  exact ⟨tags, s, hserve, (real_clock_monotone_iff twoFlows positive_twoFlows _ tags s hserve
    1000).2 (of_decide_eq_true hall)⟩

end VPifo.Sdl
