import VPifo.Compiler.WFQAccount
import VPifo.Lib.Runs

/-!
# `WFQ.cpp`: the virtual clock against the real one

Here the real clock of a `StrategyWFQ` object is a rational too, so that nothing is cut
when the loop of `updateVirTimeTo` sets it to the time of a departure.  The definitions are
those of `Compiler.WFQ` with this one difference (`ExactWFQ`).

`realTimeAt s v` is the real time at which the virtual clock of `s` reaches `v` when no
packet comes.  The loop takes the packets out whose departure is reached by the new real
time, and stands at the last of these departures (`departLoop_realTime_iff`).  From there
the virtual time should run on to the new real time.  The source sets `realTime` before it
calls `getNextVirTime`, so the clock stays where the loop has left it, and the result is
right only when the new real time is itself a departure or no time has passed
(`virtual_clock_advances_iff`).
-/

namespace VPifo.Sdl

open FluidClock

/-- `StrategyWFQ_` with a rational real clock. -/
structure ExactWFQ where
  weightTable : String → Option ℚ
  curWeightSum : ℚ
  virTime : ℚ
  realTime : ℚ
  lastVirFinishTime : String → Option ℚ
  outQueue : List (PacketOut ℚ)

namespace ExactWFQ

/-- `SchedStrategyWFQ()`, with the weights of a program. -/
def new (weightTable : String → Option ℚ) : ExactWFQ where
  weightTable := weightTable
  curWeightSum := 0
  virTime := 0
  realTime := 0
  lastVirFinishTime _ := none
  outQueue := []

/-- `getNextVirTime`. -/
def getNextVirTime (curRealTime curVirTime nextRealTime curWeightSum : ℚ) : ℚ :=
  curVirTime + (nextRealTime - curRealTime) / curWeightSum

/-- `getNextRealTime`. -/
def getNextRealTime (curRealTime curVirTime nextVirTime curWeightSum : ℚ) : ℚ :=
  curRealTime + (nextVirTime - curVirTime) * curWeightSum

/-- A round of the loop of `updateVirTimeTo`. -/
def depart (out : PacketOut ℚ) (rest : List (PacketOut ℚ)) (s : ExactWFQ) : ExactWFQ :=
  { s with
    outQueue := rest
    realTime := getNextRealTime s.realTime s.virTime out.virDepartTime s.curWeightSum
    curWeightSum := s.curWeightSum - out.flowWeight
    virTime := out.virDepartTime }

/-- The loop of `updateVirTimeTo`. -/
def departLoop (nextRealTime : ℚ) : ℕ → ExactWFQ → ExactWFQ
  | 0, s => s
  | n + 1, s =>
    match topPop Doubles.rat s.outQueue with
    | none => s
    | some (out, rest) =>
      if out.virDepartTime ≤
          getNextVirTime s.realTime s.virTime nextRealTime s.curWeightSum then
        departLoop nextRealTime n (s.depart out rest)
      else s

/-- `updateVirTimeTo`. -/
def updateVirTimeTo (nextRealTime newFlowWeight : ℚ) (s : ExactWFQ) : ExactWFQ :=
  let s := departLoop nextRealTime s.outQueue.length s
  let curWeightSum := s.curWeightSum + newFlowWeight
  { s with
    realTime := nextRealTime
    curWeightSum := curWeightSum
    virTime := getNextVirTime nextRealTime s.virTime nextRealTime curWeightSum }

/-- `virStartTime`, in the state that `updateVirTimeTo` leaves. -/
def virStartTime (key : String) (s : ExactWFQ) : ℚ :=
  match s.lastVirFinishTime key with
  | none => s.virTime
  | some finish => max s.virTime finish

/-- The body of `calWFQLeafPriority` and `calWFQNonLeafPriority`, with the start tag before
it is cut. -/
def calWFQPriority (key : String) (cycle : ℚ) (len : ℕ) (s : ExactWFQ) : Option (ℚ × ExactWFQ) :=
  match s.weightTable key with
  | none => none
  | some weight =>
    let s := updateVirTimeTo cycle weight s
    let virFinishTime := s.virStartTime key + len / weight
    some (s.virStartTime key,
      { s with
        lastVirFinishTime := Function.update s.lastVirFinishTime key (some virFinishTime)
        outQueue := s.outQueue ++ [⟨virFinishTime, weight⟩] })

/-- The states that priority computations lead to from a new object. -/
inductive Reached (weightTable : String → Option ℚ) : ExactWFQ → Prop
  | new : Reached weightTable (new weightTable)
  | call {s s' : ExactWFQ} {key : String} {cycle : ℚ} {len : ℕ} {tag : ℚ}
      (before : Reached weightTable s) (step : calWFQPriority key cycle len s = some (tag, s')) :
      Reached weightTable s'

/-- The real time at which the virtual clock reaches `v` if no packet comes. -/
def realTimeAt (s : ExactWFQ) (v : ℚ) : ℚ :=
  s.realTime + work PacketOut.virDepartTime PacketOut.flowWeight s.outQueue s.virTime v

/-- The state is the account of a fluid server. -/
def Account (s : ExactWFQ) : Prop :=
  Steady PacketOut.virDepartTime PacketOut.flowWeight s.curWeightSum s.virTime s.outQueue

section Clock

variable {s : ExactWFQ} {top : PacketOut ℚ} {rest : List (PacketOut ℚ)}

theorem outQueue_ne_nil (htop : topPop Doubles.rat s.outQueue = some (top, rest)) :
    s.outQueue ≠ [] := by
  intro hempty
  simp [hempty, topPop] at htop

theorem Account.depart (hs : s.Account) (htop : topPop Doubles.rat s.outQueue = some (top, rest)) :
    (s.depart top rest).Account :=
  hs.first (topPop_perm htop) (topPop_first htop)

/-- The first departure is reached at the time the loop computes for it. -/
theorem realTimeAt_top (hs : s.Account) (htop : topPop Doubles.rat s.outQueue = some (top, rest)) :
    s.realTimeAt top.virDepartTime = (s.depart top rest).realTime := by
  rw [realTimeAt, hs.work_of_le (topPop_first htop)]
  rfl

/-- A departure in the queue does not change when a later virtual time is reached. -/
theorem realTimeAt_depart (hs : s.Account)
    (htop : topPop Doubles.rat s.outQueue = some (top, rest)) {v : ℚ} (hv : top.virDepartTime ≤ v) :
    (s.depart top rest).realTimeAt v = s.realTimeAt v := by
  have htime := realTimeAt_top hs htop
  rw [realTimeAt] at htime
  rw [realTimeAt, realTimeAt, ← htime, work_depart (topPop_perm htop) (topPop_first htop) hv,
    add_assoc]
  rfl

theorem realTimeAt_mono (hs : s.Account) {v v' : ℚ} (hv : v ≤ v') :
    s.realTimeAt v ≤ s.realTimeAt v' :=
  add_le_add_right (work_mono hs.weight_pos hv) s.realTime

theorem realTime_le_realTimeAt (hs : s.Account) {v : ℚ} (hv : s.virTime ≤ v) :
    s.realTime ≤ s.realTimeAt v := le_add_of_nonneg_right (hs.work_nonneg hv)

/-- The loop goes on exactly if the first departure is reached by the new real time. -/
theorem guard_iff (hs : s.Account) (htop : topPop Doubles.rat s.outQueue = some (top, rest))
    (nextRealTime : ℚ) :
    top.virDepartTime ≤ getNextVirTime s.realTime s.virTime nextRealTime s.curWeightSum ↔
      s.realTimeAt top.virDepartTime ≤ nextRealTime := by
  rw [realTimeAt_top hs htop]
  exact reached_iff (hs.pos (outQueue_ne_nil htop))

theorem departLoop_account (hs : s.Account) (nextRealTime : ℚ) (n : ℕ) :
    (departLoop nextRealTime n s).Account ∧
      (departLoop nextRealTime n s).weightTable = s.weightTable := by
  induction n generalizing s with
  | zero => exact ⟨hs, rfl⟩
  | succ n ih =>
    rw [departLoop]
    cases htop : topPop Doubles.rat s.outQueue with
    | none => exact ⟨hs, rfl⟩
    | some r =>
      dsimp only
      split_ifs
      · exact ih (hs.depart htop)
      · exact ⟨hs, rfl⟩

/-- **Where the loop stops.**  If packets are left, the real clock stands at the new real
time already exactly when no time has passed or one of the packets departs at it. -/
theorem departLoop_realTime_iff (hs : s.Account) {nextRealTime : ℚ}
    (hnext : s.realTime ≤ nextRealTime) {n : ℕ} (hn : s.outQueue.length ≤ n)
    (hqueue : (departLoop nextRealTime n s).outQueue ≠ []) :
    (departLoop nextRealTime n s).realTime = nextRealTime ↔
      nextRealTime = s.realTime ∨
        ∃ out ∈ s.outQueue, s.realTimeAt out.virDepartTime = nextRealTime := by
  induction n generalizing s with
  | zero => exact absurd (List.length_eq_zero_iff.1 (Nat.le_zero.1 hn)) hqueue
  | succ n ih =>
    rw [departLoop] at hqueue ⊢
    cases htop : topPop Doubles.rat s.outQueue with
    | none =>
      rw [htop] at hqueue
      exact absurd (topPop_eq_none htop) hqueue
    | some r =>
      obtain ⟨top, rest⟩ := r
      rw [htop] at hqueue
      dsimp only at hqueue ⊢
      have hperm := topPop_perm htop
      have hfirst := topPop_first htop
      have htopMem : top ∈ s.outQueue := hperm.mem_iff.2 List.mem_cons_self
      have htopLe := realTime_le_realTimeAt hs (hs.le_depart top htopMem)
      split_ifs at hqueue ⊢ with hguard
      · -- the packet departs, and the times of the departures after it stay
        rw [guard_iff hs htop] at hguard
        have hlength : rest.length ≤ n := by
          have heq := hperm.length_eq
          rw [List.length_cons] at heq
          omega
        have hrest : ∀ out ∈ rest, (s.depart top rest).realTimeAt out.virDepartTime =
            s.realTimeAt out.virDepartTime :=
          fun out hout => realTimeAt_depart hs htop
            (hfirst out (hperm.mem_iff.2 (List.mem_cons_of_mem top hout)))
        have htime := realTimeAt_top hs htop
        have hloop := ih (hs.depart htop) (by rwa [← htime]) hlength hqueue
        rw [hloop, ← htime]
        constructor
        · rintro (heq | ⟨out, hout, heq⟩)
          · exact .inr ⟨top, htopMem, heq.symm⟩
          · exact .inr ⟨out, hperm.mem_iff.2 (List.mem_cons_of_mem top hout),
              (hrest out hout).symm.trans heq⟩
        · rintro (heq | ⟨out, hout, heq⟩)
          · exact .inl (le_antisymm (heq.le.trans htopLe) hguard)
          · rcases List.mem_cons.1 (hperm.mem_iff.1 hout) with rfl | hout
            · exact .inl heq.symm
            · exact .inr ⟨out, hout, (hrest out hout).trans heq⟩
      · -- no packet departs by then
        rw [guard_iff hs htop, not_le] at hguard
        constructor
        · exact fun heq => .inl heq.symm
        · rintro (heq | ⟨out, hout, heq⟩)
          · exact heq.symm
          · have hmono := realTimeAt_mono hs (hfirst out hout)
            exact absurd (hmono.trans heq.le) (not_le.2 hguard)

theorem le_virStartTime (key : String) (s : ExactWFQ) : s.virTime ≤ s.virStartTime key := by
  rw [virStartTime]
  split
  · exact le_rfl
  · exact le_max_left _ _

/-- The last line of `updateVirTimeTo` adds nothing to the virtual time that the loop
leaves: it asks for the time from the new real time to itself. -/
theorem updateVirTimeTo_virTime (nextRealTime newFlowWeight : ℚ) (s : ExactWFQ) :
    (updateVirTimeTo nextRealTime newFlowWeight s).virTime =
      (departLoop nextRealTime s.outQueue.length s).virTime := by
  simp [updateVirTimeTo, getNextVirTime]

/-- Every state that is reached is an account, with the weights it began with. -/
theorem Reached.account {weightTable : String → Option ℚ} (hpos : PositiveWeights weightTable)
    (hs : Reached weightTable s) : s.Account ∧ s.weightTable = weightTable := by
  induction hs with
  | new => exact ⟨⟨rfl, List.forall_mem_nil _, List.forall_mem_nil _⟩, rfl⟩
  | @call s s' key cycle len tag before step ih =>
    obtain ⟨hs, htable⟩ := ih
    rw [calWFQPriority] at step
    split at step
    · simp at step
    rename_i weight hweight
    have hweightPos := hpos key weight (by rw [← htable, hweight])
    obtain ⟨hloop, hframe⟩ := departLoop_account hs cycle s.outQueue.length
    have hvir := updateVirTimeTo_virTime cycle weight s
    obtain ⟨-, rfl⟩ := Prod.mk.inj (Option.some.inj step)
    refine ⟨?_, hframe.trans htable⟩
    have hfinish : (updateVirTimeTo cycle weight s).virTime ≤
        (updateVirTimeTo cycle weight s).virStartTime key + len / weight :=
      (le_virStartTime key _).trans (le_add_of_nonneg_right (by positivity))
    have harrive := hloop.arrive (i := ⟨_, weight⟩) hweightPos (hvir.ge.trans hfinish)
    rw [← hvir] at harrive
    exact harrive

/-- **When the virtual clock keeps up.**  For all positive weights, every state reached by
priority computations and every new real time that is not before the one it has: if the loop
leaves packets in the queue, `updateVirTimeTo` ends with the virtual time that the clock of
the loop has at the new real time exactly when no time has passed, or the new real time is
that of a departure. -/
theorem virtual_clock_advances_iff (weightTable : String → Option ℚ)
    (hpos : PositiveWeights weightTable) (s : ExactWFQ) (hs : Reached weightTable s)
    (nextRealTime newFlowWeight : ℚ) (hnext : s.realTime ≤ nextRealTime)
    (hqueue : (departLoop nextRealTime s.outQueue.length s).outQueue ≠ []) :
    (updateVirTimeTo nextRealTime newFlowWeight s).virTime =
        getNextVirTime (departLoop nextRealTime s.outQueue.length s).realTime
          (departLoop nextRealTime s.outQueue.length s).virTime nextRealTime
          (departLoop nextRealTime s.outQueue.length s).curWeightSum ↔
      nextRealTime = s.realTime ∨
        ∃ out ∈ s.outQueue, s.realTimeAt out.virDepartTime = nextRealTime := by
  have haccount := (hs.account hpos).1
  rw [← departLoop_realTime_iff haccount hnext le_rfl hqueue, updateVirTimeTo_virTime]
  have hW := (departLoop_account haccount nextRealTime s.outQueue.length).1.pos hqueue
  rw [getNextVirTime, left_eq_add, div_eq_zero_iff, sub_eq_zero]
  constructor
  · rintro (heq | hzero)
    · exact heq.symm
    · exact absurd hzero hW.ne'
  · exact fun heq => .inl heq.symm

/-! ## Where nothing is cut -/

/-- The state of the object, with its real clock as a rational. -/
def ofStrategy (s : StrategyWFQ ℚ) : ExactWFQ where
  weightTable := s.weightTable
  curWeightSum := s.curWeightSum
  virTime := s.virTime
  realTime := s.realTime
  lastVirFinishTime := s.lastVirFinishTime
  outQueue := s.outQueue

/-- The departure of the packet on top and the real time of it are whole numbers. -/
def WholeTop (s : StrategyWFQ ℚ) : Prop :=
  ∀ top rest, topPop Doubles.rat s.outQueue = some (top, rest) →
    ((s.depart Doubles.rat top rest).realTime : ℚ) = ((ofStrategy s).depart top rest).realTime

/-- The loop over the machine's real clock is the loop here as long as the clock is never
cut. -/
theorem ofStrategy_departLoop (nextRealTime : ℤ) (n : ℕ) {s : StrategyWFQ ℚ}
    (hwhole : ∀ t ∈ guardStates Doubles.rat nextRealTime n s, WholeTop t) :
    ofStrategy (Sdl.departLoop Doubles.rat nextRealTime n s) =
      departLoop nextRealTime n (ofStrategy s) := by
  induction n generalizing s with
  | zero => rfl
  | succ n ih =>
    rw [guardStates] at hwhole
    rw [Sdl.departLoop, departLoop]
    cases htop : topPop Doubles.rat s.outQueue with
    | none => simp [ofStrategy, htop]
    | some r =>
      obtain ⟨top, rest⟩ := r
      rw [htop] at hwhole
      obtain ⟨hhere, hlater⟩ := List.forall_mem_cons.1 hwhole
      have hdepart : ofStrategy (s.depart Doubles.rat top rest) =
          (ofStrategy s).depart top rest := by
        rw [ofStrategy, hhere top rest htop]
        rfl
      have hguard : Doubles.rat.le top.virDepartTime (Sdl.getNextVirTime Doubles.rat s.realTime
          s.virTime nextRealTime s.curWeightSum) = true ↔
            top.virDepartTime ≤ getNextVirTime (ofStrategy s).realTime (ofStrategy s).virTime
              nextRealTime (ofStrategy s).curWeightSum := by
        rw [Doubles.rat_le]
        simp [Sdl.getNextVirTime, getNextVirTime, ofStrategy, Doubles.rat]
      have htop' : topPop Doubles.rat (ofStrategy s).outQueue = some (top, rest) := htop
      rw [htop']
      dsimp only at hlater ⊢
      by_cases hpass : top.virDepartTime ≤ getNextVirTime (ofStrategy s).realTime
          (ofStrategy s).virTime nextRealTime (ofStrategy s).curWeightSum
      · rw [if_pos (hguard.2 hpass)] at hlater ⊢
        rw [if_pos hpass, ← hdepart]
        exact ih hlater
      · rw [if_neg (mt hguard.1 hpass), if_neg hpass]

/-- And then so is `updateVirTimeTo`. -/
theorem ofStrategy_updateVirTimeTo (nextRealTime : ℤ) (newFlowWeight : ℚ) {s : StrategyWFQ ℚ}
    (hwhole : ∀ t ∈ guardStates Doubles.rat nextRealTime s.outQueue.length s, WholeTop t) :
    ofStrategy (Sdl.updateVirTimeTo Doubles.rat nextRealTime newFlowWeight s) =
      (ofStrategy s).updateVirTimeTo nextRealTime newFlowWeight := by
  have hloop := ofStrategy_departLoop nextRealTime s.outQueue.length hwhole
  have hlength : (ofStrategy s).outQueue.length = s.outQueue.length := rfl
  rw [updateVirTimeTo, hlength, ← hloop]
  simp [Sdl.updateVirTimeTo, ofStrategy, getNextVirTime, Sdl.getNextVirTime, Doubles.rat]

end Clock

/-! ## Two arrivals with no departure in between -/

/-- One flow of weight one, and a packet of 100 bytes at time zero. -/
def onePacket : ExactWFQ :=
  { new fun _ => some 1 with
    curWeightSum := 1
    lastVirFinishTime := Function.update (fun _ => none) "f" (some 100)
    outQueue := [⟨100, 1⟩] }

theorem reached_onePacket : Reached (fun _ => some 1) onePacket := by
  have hcall : calWFQPriority "f" 0 100 (new fun _ => some 1) = some (0, onePacket) := by
    simp [calWFQPriority, virStartTime, updateVirTimeTo, departLoop, getNextVirTime, new,
      onePacket]
  exact .call .new hcall

theorem departLoop_onePacket : departLoop 10 onePacket.outQueue.length onePacket = onePacket := by
  have hguard : ¬(100 : ℚ) ≤ getNextVirTime 0 0 10 1 := by norm_num [getNextVirTime]
  simp only [onePacket, new, List.length_singleton, departLoop, topPop]
  rw [if_neg hguard]

/-- **The virtual clock stands still.**  Ten cycles after the packet it is still in the
queue, alone and with weight one, and a second packet finds the virtual time at 0 and not
at 10. -/
theorem virtual_clock_stands_still :
    PositiveWeights (fun _ => some 1) ∧ Reached (fun _ => some 1) onePacket ∧
      onePacket.realTime ≤ 10 ∧
      (departLoop 10 onePacket.outQueue.length onePacket).outQueue ≠ [] ∧
      getNextVirTime (departLoop 10 onePacket.outQueue.length onePacket).realTime
        (departLoop 10 onePacket.outQueue.length onePacket).virTime 10
        (departLoop 10 onePacket.outQueue.length onePacket).curWeightSum = 10 ∧
      (updateVirTimeTo 10 1 onePacket).virTime = 0 := by
  rw [updateVirTimeTo_virTime, departLoop_onePacket]
  refine ⟨?_, reached_onePacket, ?_, ?_, ?_, rfl⟩
  · intro key weight hweight
    obtain rfl := Option.some.inj hweight
    exact one_pos
  · norm_num [onePacket, new]
  · simp [onePacket]
  · norm_num [getNextVirTime, onePacket, new]

/-! ## Three arrivals and a departure -/

/-- A priority computation for a key, a cycle and a length. -/
def arrive (s : ExactWFQ) (a : String × ℚ × ℕ) : Option ExactWFQ :=
  (calWFQPriority a.1 a.2.1 a.2.2 s).map Prod.snd

theorem reached_arrivals {weightTable : String → Option ℚ} {arrivals : List (String × ℚ × ℕ)}
    {s : ExactWFQ} (h : arrivals.foldlM arrive (ExactWFQ.new weightTable) = some s) :
    Reached weightTable s := by
  refine Runs.foldlM_keeps (fun a _ s s' hs hstep => ?_) Reached.new h
  obtain ⟨⟨tag, s₁⟩, hcall, rfl⟩ := Option.map_eq_some_iff.1 hstep
  exact .call hs hcall

/-- Flow "g" weighs two, every other flow one. -/
def twoWeights (key : String) : Option ℚ := if key = "g" then some 2 else some 1

/-- Two packets at time zero, and a third one when the first has departed. -/
def threeArrivals : List (String × ℚ × ℕ) := [("f", 0, 100), ("g", 0, 400), ("f", 300, 50)]

/-- The third packet departs at time 450, with virtual time 150, and the second is still there. -/
theorem virtual_clock_advances_iff_threeArrivals : ∃ s,
    threeArrivals.foldlM arrive (ExactWFQ.new twoWeights) = some s ∧
      (updateVirTimeTo 450 1 s).virTime = 150 ∧
      (updateVirTimeTo 450 1 s).virTime =
        getNextVirTime (departLoop 450 s.outQueue.length s).realTime
          (departLoop 450 s.outQueue.length s).virTime 450
          (departLoop 450 s.outQueue.length s).curWeightSum := by
  have hrun : (threeArrivals.foldlM arrive (ExactWFQ.new twoWeights)).any (fun s =>
      decide ((updateVirTimeTo 450 1 s).virTime = 150 ∧ s.realTime ≤ 450 ∧
        (departLoop 450 s.outQueue.length s).outQueue.isEmpty = false ∧
        ∃ out ∈ s.outQueue, s.realTimeAt out.virDepartTime = 450)) = true := by
    decide +kernel
  obtain ⟨s, hs, h⟩ := (Option.any_eq_true _ _).1 hrun
  obtain ⟨htime, hnext, hqueue, hdepart⟩ := of_decide_eq_true h
  have hpos : PositiveWeights twoWeights := by
    intro key weight hweight
    rw [twoWeights] at hweight
    split at hweight <;> obtain rfl := Option.some.inj hweight <;> norm_num
  exact ⟨s, hs, htime, (virtual_clock_advances_iff twoWeights hpos s (reached_arrivals hs) 450 1
    hnext (List.isEmpty_eq_false_iff.1 hqueue)).2 (.inr hdepart)⟩

end ExactWFQ

end VPifo.Sdl
