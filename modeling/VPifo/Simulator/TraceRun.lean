import Mathlib.Algebra.BigOperators.Intervals
import VPifo.Simulator.TraceInv

/-!
# No packet is lost or returned twice

`readAll_spec` says what the queues hold when the whole trace has been read, and `LoopInv`
what holds before every iteration: the state is one of `Core`, the packets in the queues and
the packets printed as pushed are those of the trace, and the pops that are left are as many
as the queues and the root tree can serve (`Mid`).  That a pop finds a packet is then a matter
of counting cycles: in every cycle a packet enters as long as there is one, and at most one
pop is charged.

`LoopInv.iterate` is the step and `simulate_inv` the run.  `packets_conserved` reads off what
the invariant says about the output.
-/

namespace VPifo

namespace Simulator

open Reference TokenNet

/-! ## The traces of the compiler -/

/-- Every push is followed at once by its pop, as `tagPriorityHandler` prints them.  Idle records
may stand between the pairs. -/
inductive Paired : List Record → Prop where
  | nil : Paired []
  | idle {trace : List Record} (idleCycle : ℕ) (h : Paired trace) :
      Paired (.idle idleCycle :: trace)
  | pair {trace : List Record} (treeid : ℕ) (pktMeta p0 p1 : ℤ) (h : Paired trace) :
      Paired (.push treeid pktMeta p0 p1 :: .pop :: trace)

/-- The packet of a record. -/
def Record.packet : Record → Option APush
  | .push treeid pktMeta p0 p1 => some ⟨treeid, pktMeta, p0, p1⟩
  | .pop => none
  | .idle _ => none

/-- The packets of a trace. -/
def arrivals (trace : List Record) : List APush := trace.filterMap Record.packet

/-- The packets of flow `f`. -/
def ofFlow (pfMap : PFMap) (f : ℕ) (l : List APush) : List APush :=
  l.filter fun a => decide (pfMap a.pktMeta = some f)

/-- The traces that the simulator is made for. -/
structure TraceOk (c : Config) (pfMap : PFMap) (trace : List Record) : Prop where
  paired : Paired trace
  distinct : ((arrivals trace).map APush.pktMeta).Nodup
  flow : ∀ a ∈ arrivals trace, ∃ f < c.FLOW_NUM, pfMap a.pktMeta = some f
  fits : ∀ a ∈ arrivals trace, a.Ok c

/-- Reading sorts the packets into the queues of their flows, and counts a pop for each. -/
theorem readAll_spec {pfMap : PFMap} {trace : List Record} (h : Paired trace) :
    ∀ s : Input, (∀ a ∈ arrivals trace, ∃ f, pfMap a.pktMeta = some f) →
    ∃ i, trace.foldlM (readLine pfMap) s = some i ∧ ∀ f,
      i.perFlowPushQueue f = s.perFlowPushQueue f ++ ofFlow pfMap f (arrivals trace) ∧
      i.perFlowPopQueue f = s.perFlowPopQueue f + (ofFlow pfMap f (arrivals trace)).length := by
  induction h with
  | nil =>
    intro s _
    exact ⟨s, rfl, fun f => ⟨(List.append_nil _).symm, rfl⟩⟩
  | idle n h ih => exact fun s hflow => ih s hflow
  | @pair trace treeid m p0 p1 h ih =>
    intro s hflow
    obtain ⟨g, hg⟩ := hflow ⟨treeid, m, p0, p1⟩ List.mem_cons_self
    have harrivals : arrivals (.push treeid m p0 p1 :: .pop :: trace) =
        ⟨treeid, m, p0, p1⟩ :: arrivals trace := rfl
    have hrest : ∀ a ∈ arrivals trace, ∃ f, pfMap a.pktMeta = some f :=
      fun a ha => hflow a (List.mem_cons_of_mem _ ha)
    obtain ⟨i, hi, hspec⟩ := ih ⟨fun k => if k = g then
      s.perFlowPushQueue k ++ [⟨treeid, m, p0, p1⟩] else s.perFlowPushQueue k,
      fun k => if k = g then s.perFlowPopQueue k + 1 else s.perFlowPopQueue k, m⟩ hrest
    refine ⟨i, ?_, fun f => ?_⟩
    · rw [List.foldlM_cons, readLine, show pfMap m = some g from hg, Option.map_some]
      rw [Option.bind_eq_bind, Option.bind_some, List.foldlM_cons, readLine,
        show pfMap m = some g from hg, Option.map_some]
      exact hi
    · obtain ⟨hpush, hpop⟩ := hspec f
      rw [harrivals, hpush, hpop, ofFlow, ofFlow, List.filter_cons]
      dsimp only at hg ⊢
      by_cases hf : f = g
      · rw [if_pos hf, if_pos hf, if_pos (by simp [hg, hf]), List.append_assoc, List.length_cons]
        exact ⟨rfl, by omega⟩
      · rw [if_neg hf, if_neg hf, if_neg (by simpa [hg] using fun h => hf h.symm)]
        exact ⟨rfl, rfl⟩

/-! ## The queues of the flows -/

/-- The packets that have not entered the task lists. -/
def queued (c : Config) (s : State) : Multiset APush :=
  ∑ f ∈ Finset.range c.FLOW_NUM, (s.perFlowPushQueue f : Multiset APush)

/-- The pops that have not been charged. -/
def popsLeft (c : Config) (s : State) : ℕ := ∑ f ∈ Finset.range c.FLOW_NUM, s.perFlowPopQueue f

section Queues

variable {c : Config} {pfMap : PFMap} {s : State}

theorem queued_congr {s' : State} (h : s'.perFlowPushQueue = s.perFlowPushQueue) :
    queued c s' = queued c s := by rw [queued, h, queued]

theorem popsLeft_congr {s' : State} (h : s'.perFlowPopQueue = s.perFlowPopQueue) :
    popsLeft c s' = popsLeft c s := by rw [popsLeft, h, popsLeft]

theorem card_queued : (queued c s).card =
    ∑ f ∈ Finset.range c.FLOW_NUM, (s.perFlowPushQueue f).length := by
  rw [queued, Multiset.card_sum]
  rfl

theorem queued_pushFlow {f : ℕ} (hf : f < c.FLOW_NUM) {a : APush} {rest : List APush}
    (hq : s.perFlowPushQueue f = a :: rest) :
    queued c s = a ::ₘ queued c (s.pushFlow c f) := by
  have hmem := Finset.mem_range.mpr hf
  have hqueue : (s.pushFlow c f).perFlowPushQueue =
      fun k => if k = f then rest else s.perFlowPushQueue k := by
    rw [State.pushFlow, hq]
    rfl
  have hrest : ∑ k ∈ (Finset.range c.FLOW_NUM).erase f,
      (((s.pushFlow c f).perFlowPushQueue k : List APush) : Multiset APush) =
      ∑ k ∈ (Finset.range c.FLOW_NUM).erase f, (s.perFlowPushQueue k : Multiset APush) := by
    refine Finset.sum_congr rfl fun k hk => ?_
    rw [hqueue]
    simp only [if_neg (Finset.ne_of_mem_erase hk)]
  rw [queued, queued, ← Finset.add_sum_erase _ _ hmem, ← Finset.add_sum_erase _ _ hmem, hrest,
    hqueue, hq]
  simp only [if_true]
  rw [← Multiset.cons_coe, Multiset.cons_add]

theorem chargedFlow_pos {f : ℕ} (h : s.chargedFlow pfMap = some f) : 0 < s.perFlowPopQueue f := by
  rw [State.chargedFlow] at h
  dsimp only at h
  split at h
  · split at h
    · next hpos =>
      rw [← Option.some.inj h]
      exact hpos
    · exact absurd h (by simp)
  · exact absurd h (by simp)

/-- What `try_push_pop_task` leaves alone, and the flow it charges. -/
theorem tryPushPopTask_queues {f : ℕ} (h : s.chargedFlow pfMap = some f) :
    (s.tryPushPopTask c pfMap).perFlowPushQueue = s.perFlowPushQueue ∧
    (s.tryPushPopTask c pfMap).out = s.out ∧ (s.tryPushPopTask c pfMap).cycle = s.cycle ∧
    (s.tryPushPopTask c pfMap).perFlowPopQueue =
      fun k => if k = f then s.perFlowPopQueue k - 1 else s.perFlowPopQueue k := by
  rw [State.tryPushPopTask, h]
  exact ⟨rfl, rfl, rfl, rfl⟩

/-- A pop is charged to its flow. -/
theorem popsLeft_charge {f : ℕ} (h : s.chargedFlow pfMap = some f) (hf : f < c.FLOW_NUM) :
    popsLeft c s = popsLeft c (s.tryPushPopTask c pfMap) + 1 := by
  obtain ⟨-, -, -, hqueue⟩ := tryPushPopTask_queues (c := c) h
  have hpos := chargedFlow_pos h
  have hmem := Finset.mem_range.mpr hf
  have hrest : ∑ k ∈ (Finset.range c.FLOW_NUM).erase f,
      (s.tryPushPopTask c pfMap).perFlowPopQueue k =
      ∑ k ∈ (Finset.range c.FLOW_NUM).erase f, s.perFlowPopQueue k := by
    refine Finset.sum_congr rfl fun k hk => ?_
    rw [hqueue]
    simp only [if_neg (Finset.ne_of_mem_erase hk)]
  rw [popsLeft, popsLeft, ← Finset.add_sum_erase _ _ hmem, ← Finset.add_sum_erase _ _ hmem, hrest,
    hqueue]
  simp only [if_true]
  omega

end Queues

/-! ## One iteration -/

/-- What holds during an iteration, when the root tree can take `b` more pops. -/
structure Mid (c : Config) (trace : List Record) (b : ℕ) (s : State) : Prop where
  core : Core c 0 b s
  fits : ∀ a ∈ queued c s, a.Ok c
  noFlow : ∀ f, c.FLOW_NUM ≤ f → s.perFlowPopQueue f = 0
  balance : (queued c s).card + b = popsLeft c s
  metas : (pushMetas s.out : Multiset ℤ) + (queued c s).map APush.pktMeta =
    ((arrivals trace).map APush.pktMeta : List ℤ)

/-- What holds between two iterations.  In every cycle a packet enters as long as there is one,
and at most one pop is charged. -/
structure LoopInv (c : Config) (trace : List Record) (s : State) : Prop where
  mid : ∃ b, Mid c trace b s
  entered : (queued c s).card = 0 ∨ (queued c s).card + s.cycle ≤ (arrivals trace).length + 1
  charged : (arrivals trace).length + 1 ≤ popsLeft c s + s.cycle

section Iteration

variable {c : Config} {pfMap : PFMap} {trace : List Record} {b : ℕ} {s : State}

theorem Mid.pushFlow (h : Mid c trace b s) {f : ℕ} (hf : f < c.FLOW_NUM) :
    ∃ b', Mid c trace b' (s.pushFlow c f) := by
  cases hq : s.perFlowPushQueue f with
  | nil =>
    rw [State.pushFlow, hq]
    exact ⟨b, h⟩
  | cons a rest =>
    have hqueued := queued_pushFlow hf hq
    have ha : a ∈ queued c s := by
      rw [hqueued]
      exact Multiset.mem_cons_self _ _
    have hfields : (s.pushFlow c f).perFlowPopQueue = s.perFlowPopQueue ∧
        (s.pushFlow c f).out = s.out ++ [.push a.pktMeta s.pushCnt] := by
      rw [State.pushFlow, hq]
      exact ⟨rfl, rfl⟩
    obtain ⟨hpop, hout⟩ := hfields
    refine ⟨b + 1, (h.core.pushFlow hq (h.fits a ha)).1, fun x hx => h.fits x ?_, ?_, ?_, ?_⟩
    · rw [hqueued]
      exact Multiset.mem_cons_of_mem hx
    · rw [hpop]
      exact h.noFlow
    · have hbal := h.balance
      rw [hqueued, Multiset.card_cons] at hbal
      rw [popsLeft_congr hpop]
      omega
    · rw [← h.metas, hqueued, hout, pushMetas_append_push, Multiset.map_cons, ← Multiset.coe_add,
        Multiset.coe_singleton, ← Multiset.singleton_add]
      abel

/-- `try_push_push_task` takes one packet of every flow that has one. -/
theorem tryPushPushTask_spec (h : Mid c trace b s) : ∀ n ≤ c.FLOW_NUM,
    (∃ b', Mid c trace b' ((List.range n).foldl (State.pushFlow c) s)) ∧
    ((List.range n).foldl (State.pushFlow c) s).perFlowPushQueue =
      (fun f => if f < n then (s.perFlowPushQueue f).tail else s.perFlowPushQueue f) ∧
    ((List.range n).foldl (State.pushFlow c) s).perFlowPopQueue = s.perFlowPopQueue ∧
    ((List.range n).foldl (State.pushFlow c) s).cycle = s.cycle := by
  intro n
  induction n with
  | zero => exact fun _ => ⟨⟨b, h⟩, rfl, rfl, rfl⟩
  | succ n ih =>
    intro hn
    obtain ⟨⟨b₁, hmid⟩, hpush, hpop, hcycle⟩ := ih (by omega)
    rw [List.range_succ, List.foldl_append, List.foldl_cons, List.foldl_nil]
    generalize (List.range n).foldl (State.pushFlow c) s = s₁ at hmid hpush hpop hcycle
    refine ⟨hmid.pushFlow hn, ?_, ?_, ?_⟩
    · have hcur : s₁.perFlowPushQueue n = s.perFlowPushQueue n := by
        rw [hpush]
        exact if_neg (lt_irrefl n)
      have hstep : (s₁.pushFlow c n).perFlowPushQueue =
          fun f => if f = n then (s₁.perFlowPushQueue n).tail else s₁.perFlowPushQueue f := by
        rw [State.pushFlow]
        split
        · next hq =>
          funext f
          by_cases hf : f = n
          · rw [if_pos hf, hf, hq, List.tail_nil]
          · rw [if_neg hf]
        · next hq => rw [hq]; rfl
      rw [hstep, hcur]
      funext f
      by_cases hf : f = n
      · rw [if_pos hf, if_pos (by omega), hf]
      · rw [if_neg hf, hpush]
        refine if_congr ?_ rfl rfl
        omega
    · rw [← hpop, State.pushFlow]
      split <;> rfl
    · rw [← hcycle, State.pushFlow]
      split <;> rfl

theorem sum_tail_lt (q : ℕ → List APush) (n : ℕ) :
    ∑ f ∈ Finset.range n, (q f).tail.length = 0 ∨
      ∑ f ∈ Finset.range n, (q f).tail.length + 1 ≤ ∑ f ∈ Finset.range n, (q f).length := by
  by_cases hall : ∀ f ∈ Finset.range n, q f = []
  · left
    refine Finset.sum_eq_zero fun f hf => ?_
    rw [hall f hf]
    rfl
  · right
    push Not at hall
    obtain ⟨f, hf, hne⟩ := hall
    refine Nat.succ_le_of_lt (Finset.sum_lt_sum (fun g _ => ?_) ⟨f, hf, ?_⟩)
    · rw [List.length_tail]
      omega
    · have := List.length_pos_iff.mpr hne
      rw [List.length_tail]
      omega

theorem Mid.flow_lt (h : Mid c trace b s) {f : ℕ} (hcharge : s.chargedFlow pfMap = some f) :
    f < c.FLOW_NUM := by
  by_contra hf
  have hpos := chargedFlow_pos hcharge
  rw [h.noFlow f (by omega)] at hpos
  exact lt_irrefl 0 hpos

/-- A pop is charged while the root tree can take one. -/
theorem Mid.charge (h : Mid c trace (b + 1) s) {f : ℕ} (hcharge : s.chargedFlow pfMap = some f) :
    Mid c trace b (s.tryPushPopTask c pfMap) ∧
      popsLeft c s = popsLeft c (s.tryPushPopTask c pfMap) + 1 := by
  have hleft := popsLeft_charge hcharge (h.flow_lt hcharge)
  obtain ⟨hpush, hout, -, hpop⟩ := tryPushPopTask_queues (c := c) hcharge
  have hqueued : queued c (s.tryPushPopTask c pfMap) = queued c s := queued_congr hpush
  refine ⟨⟨h.core.charge hcharge, ?_, fun g hg => ?_, ?_, ?_⟩, hleft⟩
  · rw [hqueued]
    exact h.fits
  · rw [hpop]
    dsimp only
    rw [h.noFlow g hg]
    split <;> rfl
  · have hbal := h.balance
    rw [hqueued]
    omega
  · rw [hqueued, hout]
    exact h.metas

/-- The cycle counter, and the other counters, do not matter. -/
theorem Mid.congr (h : Mid c trace b s) {s' : State} (hpool : s'.pool = s.pool)
    (hlists : s'.lists = s.lists) (hrpu : s'.rpu = s.rpu) (hout : s'.out = s.out)
    (hpush : s'.perFlowPushQueue = s.perFlowPushQueue)
    (hpop : s'.perFlowPopQueue = s.perFlowPopQueue) : Mid c trace b s' := by
  have hqueued : queued c s' = queued c s := queued_congr hpush
  exact ⟨h.core.congr hpool hlists hrpu hout, by rw [hqueued]; exact h.fits,
    by rw [hpop]; exact h.noFlow, by rw [hqueued, popsLeft_congr hpop]; exact h.balance,
    by rw [hqueued, hout]; exact h.metas⟩

/-- `check_task_list_empty` and `try_push_push_task`. -/
theorem LoopInv.push (h : LoopInv c trace s) {s₁ : State}
    (hs₁ : s₁ = (s.checkTaskListEmpty c).tryPushPushTask c) :
    (∃ b, Mid c trace b s₁) ∧
      ((queued c s₁).card = 0 ∨ (queued c s₁).card + s₁.cycle ≤ (arrivals trace).length) ∧
      popsLeft c s₁ = popsLeft c s ∧ s₁.cycle = s.cycle := by
  obtain ⟨b, hmid⟩ := h.mid
  have hcheck : Mid c trace b (s.checkTaskListEmpty c) ∧
      (s.checkTaskListEmpty c).perFlowPushQueue = s.perFlowPushQueue ∧
      (s.checkTaskListEmpty c).perFlowPopQueue = s.perFlowPopQueue ∧
      (s.checkTaskListEmpty c).cycle = s.cycle := by
    rw [State.checkTaskListEmpty]
    split
    · exact ⟨hmid.congr rfl rfl rfl rfl rfl rfl, rfl, rfl, rfl⟩
    · exact ⟨hmid, rfl, rfl, rfl⟩
  obtain ⟨hmid₀, hpush₀, hpop₀, hcycle₀⟩ := hcheck
  obtain ⟨hmid₁, hpush₁, hpop₁, hcycle₁⟩ := tryPushPushTask_spec hmid₀ c.FLOW_NUM le_rfl
  rw [State.tryPushPushTask] at hs₁
  rw [← hs₁] at hmid₁ hpush₁ hpop₁ hcycle₁
  have htail : (queued c s₁).card =
      ∑ f ∈ Finset.range c.FLOW_NUM, (s.perFlowPushQueue f).tail.length := by
    rw [card_queued, hpush₁, hpush₀]
    refine Finset.sum_congr rfl fun f hf => ?_
    simp only [if_pos (Finset.mem_range.mp hf)]
  have hless := sum_tail_lt s.perFlowPushQueue c.FLOW_NUM
  rw [← htail, ← card_queued] at hless
  refine ⟨hmid₁, ?_, popsLeft_congr (hpop₁.trans hpop₀), hcycle₁.trans hcycle₀⟩
  have hentered := h.entered
  rw [hcycle₁, hcycle₀]
  omega

/-- The two counts of `LoopInv` after one more cycle. -/
structure Ticked (c : Config) (trace : List Record) (s : State) : Prop where
  mid : ∃ b, Mid c trace b s
  entered : (queued c s).card = 0 ∨ (queued c s).card + s.cycle ≤ (arrivals trace).length
  charged : (arrivals trace).length ≤ popsLeft c s + s.cycle

theorem Ticked.tick (h : Ticked c trace s) : LoopInv c trace { s with cycle := s.cycle + 1 } := by
  obtain ⟨b, hmid⟩ := h.mid
  have hentered := h.entered
  have hcharged := h.charged
  refine ⟨⟨b, hmid.congr rfl rfl rfl rfl rfl rfl⟩, ?_, ?_⟩
  · show (queued c s).card = 0 ∨ (queued c s).card + (s.cycle + 1) ≤ (arrivals trace).length + 1
    omega
  · show (arrivals trace).length + 1 ≤ popsLeft c s + (s.cycle + 1)
    omega

variable (pfMap) in
/-- **What comes before the statistics.** -/
theorem LoopInv.enqueue (h : LoopInv c trace s) : LoopInv c trace (s.enqueue c pfMap) := by
  obtain ⟨⟨b, hmid⟩, hentered, hpops, hcycle⟩ := h.push rfl
  have hcharged := h.charged
  rw [State.enqueue]
  generalize (s.checkTaskListEmpty c).tryPushPushTask c = s₁ at *
  have hsame : Ticked c trace s₁ := ⟨⟨b, hmid⟩, hentered, by omega⟩
  split
  · cases hcharge : s₁.chargedFlow pfMap with
    | none =>
      have hstep : s₁.tryPushPopTask c pfMap = s₁ := by rw [State.tryPushPopTask, hcharge]
      rw [hstep]
      exact hsame.tick
    | some f =>
      have hbal := hmid.balance
      have hpos : 0 < popsLeft c s₁ := (chargedFlow_pos hcharge).trans_le
        (Finset.single_le_sum (f := s₁.perFlowPopQueue) (fun _ _ => Nat.zero_le _)
          (Finset.mem_range.mpr (hmid.flow_lt hcharge)))
      -- fewer pops have been charged than packets have entered
      obtain ⟨b', rfl⟩ : ∃ b', b = b' + 1 := ⟨b - 1, by omega⟩
      obtain ⟨hmid', hleft⟩ := hmid.charge hcharge
      obtain ⟨hpush, -, hcyc, -⟩ := tryPushPopTask_queues (c := c) hcharge
      refine Ticked.tick ⟨⟨b', hmid'⟩, ?_, ?_⟩
      · rw [queued_congr hpush, hcyc]
        exact hentered
      · rw [hcyc]
        omega
  · exact hsame.tick

/-- The statistics and the ring change nothing that `LoopInv` counts. -/
theorem LoopInv.of_same (h : LoopInv c trace s) {s' : State} (hsame : SameQueues s s')
    (hcore : ∀ b, Core c 0 b s → Core c 0 b s') : LoopInv c trace s' := by
  obtain ⟨b, hmid⟩ := h.mid
  have hqueued : queued c s' = queued c s := queued_congr hsame.pushQueue
  have hpops : popsLeft c s' = popsLeft c s := popsLeft_congr hsame.popQueue
  refine ⟨⟨b, hcore b hmid.core, ?_, ?_, ?_, ?_⟩, ?_, ?_⟩
  · rw [hqueued]
    exact hmid.fits
  · rw [hsame.popQueue]
    exact hmid.noFlow
  · rw [hqueued, hpops]
    exact hmid.balance
  · rw [hqueued, hsame.pushed]
    exact hmid.metas
  · rw [hqueued, hsame.cycle]
    exact h.entered
  · rw [hpops, hsame.cycle]
    exact h.charged

variable (pfMap) in
/-- **One iteration.** -/
theorem LoopInv.iterate (h : LoopInv c trace s) (locked : ℕ → Bool) :
    ∃ s', s.iterate c pfMap locked = some s' ∧ LoopInv c trace s' := by
  rw [State.iterate]
  split
  · exact ⟨s, rfl, h⟩
  · have hloop := h.enqueue pfMap
    obtain ⟨b, hmid⟩ := hloop.mid
    obtain ⟨s₁, hrun, hsame, hcore⟩ := hmid.core.execUpTo le_rfl
    obtain ⟨s₂, hadvance, hsame', -, hcore'⟩ := hcore.advance locked
    refine ⟨s₂, by rw [hrun]; exact hadvance, hloop.of_same (hsame.trans hsame') fun b' hb' => ?_⟩
    -- the budget is a function of the state
    have hroot := hb'.net.root
    rw [hmid.core.net.root] at hroot
    obtain rfl : b' = b := by omega
    exact hcore'

end Iteration

/-! ## The start -/

section Start

variable {c : Config} {pfMap : PFMap} {trace : List Record}

/-- The queues of the flows hold all packets together. -/
theorem sum_ofFlow {n : ℕ} {l : List APush} (h : ∀ a ∈ l, ∃ f < n, pfMap a.pktMeta = some f) :
    ∑ f ∈ Finset.range n, (ofFlow pfMap f l : Multiset APush) = l := by
  induction l with
  | nil => exact Finset.sum_eq_zero fun f _ => rfl
  | cons a l ih =>
    obtain ⟨g, hg, hflow⟩ := h a List.mem_cons_self
    have hcons : ∀ f, (ofFlow pfMap f (a :: l) : Multiset APush) =
        (if f = g then {a} else 0) + (ofFlow pfMap f l : Multiset APush) := by
      intro f
      by_cases hf : f = g
      · rw [if_pos hf, ofFlow, List.filter_cons_of_pos (by simp [hflow, hf]), ofFlow,
          Multiset.singleton_add, Multiset.cons_coe]
      · rw [if_neg hf, ofFlow, List.filter_cons_of_neg (by simpa [hflow] using fun h => hf h.symm),
          ofFlow, zero_add]
    rw [Finset.sum_congr rfl fun f _ => hcons f, Finset.sum_add_distrib,
      ih fun x hx => h x (List.mem_cons_of_mem _ hx), Finset.sum_ite_eq',
      if_pos (Finset.mem_range.mpr hg), Multiset.singleton_add, Multiset.cons_coe]

theorem core_start (i : Input) : Core c 0 0 (State.start c i) := by
  have hblank : ∀ j, ¬((State.start c i).rpu j).Ready c.L :=
    fun j h => absurd h.2 (by simp [State.start, Task.blank])
  have hnet : netAt c 0 (State.start c i) = Net.empty := by
    have hs : storeOf c (State.start c i).pool = fun _ => 0 := by
      funext u
      rw [storeOf]
      split
      · next hu => exact stored_init hu
      · rfl
    have ho : opsOf c.home c.L pairOf (State.start c i).lists (State.start c i).rpu 0 =
        fun _ => [] := by
      funext u
      rw [opsOf, readyOps, if_neg fun h => hblank _ h.2.1]
      rfl
    rw [netAt, hs, ho]
    rfl
  refine ⟨⟨_, poolInv_init c.M⟩, ringInv_blank, ⟨fun _ _ h => absurd h (by simp [State.start]),
    fun _ _ h => absurd h (by simp [State.start])⟩, fun j _ h => absurd h (hblank j),
    fun _ _ h => absurd h (by simp [State.start]), fun j _ h => absurd h (hblank j), ?_, ?_, ?_⟩
  · rw [hnet]
    exact inv_empty
  · rw [packets, hnet, leaves_empty]
    rfl
  · intro pre m cyc hpre
    exact absurd (List.prefix_nil.mp hpre) (by simp)

theorem loopInv_start (h : TraceOk c pfMap trace) : ∃ i, readAll pfMap trace = some i ∧
    LoopInv c trace (State.start c i) ∧
    ∀ f, i.perFlowPopQueue f = (ofFlow pfMap f (arrivals trace)).length := by
  obtain ⟨i, hi, hspec⟩ := readAll_spec h.paired ⟨fun _ => [], fun _ => 0, 0⟩ fun a ha =>
    (h.flow a ha).imp fun f hf => hf.2
  have hpush : ∀ f, i.perFlowPushQueue f = ofFlow pfMap f (arrivals trace) := fun f => (hspec f).1
  have hpop : ∀ f, i.perFlowPopQueue f = (ofFlow pfMap f (arrivals trace)).length := fun f => by
    rw [(hspec f).2]
    exact Nat.zero_add _
  have hqueued : queued c (State.start c i) = arrivals trace := by
    rw [← sum_ofFlow h.flow, queued]
    exact Finset.sum_congr rfl fun f _ => by rw [← hpush]; rfl
  have hleft : popsLeft c (State.start c i) = (arrivals trace).length := by
    rw [← Multiset.coe_card, ← hqueued, card_queued, popsLeft]
    exact Finset.sum_congr rfl fun f _ => (hpop f).trans (by rw [← hpush]; rfl)
  refine ⟨i, hi, ⟨⟨0, core_start i, ?_, fun f hf => ?_, ?_, ?_⟩, Or.inr ?_, ?_⟩, hpop⟩
  · rw [hqueued]
    exact h.fits
  · refine (hpop f).trans (List.length_eq_zero_iff.mpr (List.filter_eq_nil_iff.mpr fun a ha => ?_))
    obtain ⟨g, hg, hflow⟩ := h.flow a ha
    rw [hflow]
    simp only [Option.some.injEq, decide_eq_true_eq]
    omega
  · rw [hqueued, hleft]
    rfl
  · rw [hqueued]
    exact zero_add _
  · rw [hqueued]
    exact le_rfl
  · rw [hleft]
    exact le_rfl

end Start

/-! ## Where the packets are -/

section Count

variable {c : Config} {k b : ℕ} {s : State}

/-- The packets in the simulator are in their own trees or on the way there. -/
theorem Core.card_packets (h : Core c k b s) : (packets c k s).card =
    ∑ t ∈ Finset.Ico 1 c.M, (Reference.stored s.pool t).card +
      ∑ i ∈ Finset.range c.N, (s.lists i).countP fun t => decide (t.type = .push ∧ t.root ≠ 0) := by
  have hroot : ((netAt c k s).held 0).filter (fun v => nextTree 0 v = none) = 0 :=
    Multiset.filter_eq_nil.mpr fun v _ => by simp [nextTree]
  have hheld : ∀ t ∈ Finset.Ico 1 c.M,
      (((netAt c k s).held t).filter fun v => nextTree t v = none).card =
        (Reference.stored s.pool t).card +
          (s.lists (c.home t)).countP fun x => decide (x.type = .push ∧ x.root = t) := by
    intro t ht
    rw [Finset.mem_Ico] at ht
    have hleaf : ∀ v ∈ (netAt c k s).held t, nextTree t v = none :=
      fun v _ => if_neg (by omega)
    have hstore : (netAt c k s).store t = Reference.stored s.pool t := storeOf_of_lt ht.2
    rw [Multiset.filter_eq_self.mpr hleaf, Net.held, Multiset.card_add, hstore]
    exact congrArg _ (card_pushed_ops c.home c.L pairOf s.lists s.rpu k t)
  have hlists : ∑ t ∈ Finset.Ico 1 c.M,
      (s.lists (c.home t)).countP (fun x => decide (x.type = .push ∧ x.root = t)) =
      ∑ i ∈ Finset.range c.N, (s.lists i).countP fun t => decide (t.type = .push ∧ t.root ≠ 0) := by
    rw [← Finset.sum_fiberwise_of_maps_to (s := Finset.Ico 1 c.M) (t := Finset.range c.N)
      (g := c.home) fun t _ => Finset.mem_range.mpr (c.home_lt t)]
    refine Finset.sum_congr rfl fun i _ => ?_
    have hmem : ∀ t ∈ s.lists i, t.type = .push ∧ t.root ≠ 0 →
        t.root ∈ (Finset.Ico 1 c.M).filter fun u => c.home u = i := by
      intro t ht hpush
      rw [Finset.mem_filter, Finset.mem_Ico]
      exact ⟨⟨Nat.one_le_iff_ne_zero.mpr hpush.2, (h.roots i t ht).1⟩, h.placed.home i t ht⟩
    rw [← sum_countP_root hmem]
    refine Finset.sum_congr rfl fun u hu => ?_
    obtain ⟨hu, hhome⟩ := Finset.mem_filter.mp hu
    rw [hhome]
    refine List.countP_congr fun t _ => ?_
    have hpos := (Finset.mem_Ico.mp hu).1
    simp only [decide_eq_true_eq]
    exact ⟨fun ht => ⟨⟨ht.1, by omega⟩, ht.2⟩, fun ht => ⟨ht.1.1, ht.2⟩⟩
  rw [packets, Multiset.card_map, leaves, gather, Multiset.card_sum, Config.trees,
    Finset.range_eq_Ico, Finset.sum_eq_sum_Ico_succ_bot c.M_pos, hroot, Multiset.card_zero,
    zero_add, Finset.sum_congr rfl hheld, Finset.sum_add_distrib, hlists]

end Count

/-! ## Conservation -/

/-- The state of a run satisfies the invariant. -/
theorem simulate_inv {c : Config} {pfMap : PFMap} {trace : List Record} {i : Input}
    (hstart : LoopInv c trace (State.start c i)) (locked : ℕ → ℕ → Bool) (n : ℕ) :
    ∃ s, simulate c pfMap locked i n = some s ∧ LoopInv c trace s := by
  induction n with
  | zero => exact ⟨_, rfl, hstart⟩
  | succ n ih =>
    obtain ⟨s, hs, hinv⟩ := ih
    obtain ⟨s', hs', hinv'⟩ := hinv.iterate pfMap (locked n)
    exact ⟨s', by rw [simulate, hs]; exact hs', hinv'⟩

/-- **Packet conservation.**  For every trace that the simulator is made for, whatever the
starvation logic locks: after any number of iterations every packet that was printed with
`pop_cyc` had been printed with `push_cyc`, and none was printed with `pop_cyc` twice; in the
next iteration no pop is executed on an empty tree; and the packets that were printed with
`push_cyc` only are in the trees other than the root tree, or their pushes into these trees
are in the task lists. -/
theorem packets_conserved (c : Config) (pfMap : PFMap) (trace : List Record)
    (h : TraceOk c pfMap trace) (locked : ℕ → ℕ → Bool) :
    ∃ i, readAll pfMap trace = some i ∧ ∀ n, ∃ s, simulate c pfMap locked i n = some s ∧
      Ordered s.out ∧ (popMetas s.out).Nodup ∧
      (∀ j < c.N, ∃ s', (s.enqueue c pfMap).execUpTo c j = some s' ∧
        (s'.popReady c j = true → Reference.stored s'.pool (s'.rpu j).root ≠ 0)) ∧
      (pushMetas s.out).length = (popMetas s.out).length +
        (∑ t ∈ Finset.Ico 1 c.M, (Reference.stored s.pool t).card +
          ∑ k ∈ Finset.range c.N,
            (s.lists k).countP fun t => decide (t.type = .push ∧ t.root ≠ 0)) := by
  obtain ⟨i, hi, hstart, -⟩ := loopInv_start h
  refine ⟨i, hi, fun n => ?_⟩
  obtain ⟨s, hs, hinv⟩ := simulate_inv hstart locked n
  obtain ⟨b, hmid⟩ := hinv.mid
  refine ⟨s, hs, hmid.core.ordered, ?_, fun j hj => ?_, ?_⟩
  · have hle : (popMetas s.out : Multiset ℤ) ≤ ((arrivals trace).map APush.pktMeta : List ℤ) := by
      rw [← hmid.metas, hmid.core.conserved]
      exact (Multiset.le_add_right _ _).trans (Multiset.le_add_right _ _)
    exact Multiset.coe_nodup.mp (Multiset.nodup_of_le hle (Multiset.coe_nodup.mpr h.distinct))
  · obtain ⟨b', hmid'⟩ := (hinv.enqueue pfMap).mid
    obtain ⟨s', hrun, -, hcore⟩ := hmid'.core.execUpTo hj.le
    exact ⟨s', hrun, fun hready => (hcore.exec hj (popReady_iff.mp hready)).1⟩
  · have hcons := congrArg Multiset.card hmid.core.conserved
    rw [Multiset.card_add, hmid.core.card_packets] at hcons
    exact hcons

/-- Packet 0 is for tree 1, the packets 1 and 2 are for tree 2, where they leave in the other
order. -/
def crossedTrace : List Record :=
  [.push 1 0 8 9, .pop, .push 2 1 9 7, .pop, .push 2 2 7 7, .pop]

/-- The packets 0 and 2 are of flow 1, packet 1 is of flow 0. -/
def crossedFlows : PFMap := fun m =>
  if m = 0 then some 1 else if m = 1 then some 0 else if m = 2 then some 1 else none

theorem crossedTrace_ok {pfMap : PFMap}
    (hflow : ∀ a ∈ arrivals crossedTrace, ∃ f < Config.source.FLOW_NUM, pfMap a.pktMeta = some f) :
    TraceOk Config.source pfMap crossedTrace := by
  refine ⟨.pair _ _ _ _ (.pair _ _ _ _ (.pair _ _ _ _ .nil)), by decide, hflow, fun a ha => ?_⟩
  have hmem : a ∈ [(⟨1, 0, 8, 9⟩ : APush), ⟨2, 1, 9, 7⟩, ⟨2, 2, 7, 7⟩] := ha
  simp only [List.mem_cons, List.not_mem_nil, or_false] at hmem
  rcases hmem with rfl | rfl | rfl <;> exact ⟨by decide, by decide, by decide, by decide⟩

/-- After 60 iterations two of the three packets have left. -/
theorem packets_conserved_crossed : ∃ i, readAll crossedFlows crossedTrace = some i ∧
    ∃ s, simulate Config.source crossedFlows (fun _ _ => false) i 60 = some s ∧
      pushMetas s.out = [1, 0, 2] ∧ popMetas s.out = [2, 1] ∧ Ordered s.out ∧
      (pushMetas s.out).length = (popMetas s.out).length +
        (∑ t ∈ Finset.Ico 1 Config.source.M, (Reference.stored s.pool t).card +
          ∑ k ∈ Finset.range Config.source.N,
            (s.lists k).countP fun t => decide (t.type = .push ∧ t.root ≠ 0)) := by
  have hrun : ((readAll crossedFlows crossedTrace).bind fun i =>
      simulate Config.source crossedFlows (fun _ _ => false) i 60).map
        (fun s => (pushMetas s.out, popMetas s.out)) = some ([1, 0, 2], [2, 1]) := by
    decide +kernel
  obtain ⟨s, hs, hmetas⟩ := Option.map_eq_some_iff.mp hrun
  obtain ⟨hpushed, hpopped⟩ := Prod.mk.inj hmetas
  obtain ⟨i, hi, hall⟩ := packets_conserved Config.source crossedFlows crossedTrace
    (crossedTrace_ok (by decide)) fun _ _ => false
  obtain ⟨s', hs', hord, -, -, hcount⟩ := hall 60
  rw [hi, Option.bind_some, hs'] at hs
  obtain rfl := Option.some.inj hs
  exact ⟨i, hi, s', hs', hpushed, hpopped, hord, hcount⟩

end Simulator

end VPifo
