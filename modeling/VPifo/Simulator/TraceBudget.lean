import VPifo.Simulator.TraceRun

/-!
# The budgets of the flows

`read_line` counts one pop for every packet, in the counter of the packet's flow.  A pop is
enqueued by `try_push_pop_task` when this counter is positive for the flow of the packet that
is on top *now*, and it is charged to this flow.  The packet that it takes is decided later:
the pops before it in the task list, and the pushes that are still under way, come first.  So
a pop may be charged to one flow and take a packet of another, and then the counters do not
agree with the packets any more.

If a flow has lost its last pop in this way while packets of it are still in the trees, and
one of these packets is on top, nothing is ever enqueued again: `try_push_pop_task` looks at
this packet in every cycle and finds its counter at 0.  The test at the head of the loop asks
for all counters to be 0, and never succeeds.  `simulator_deadlocks` is a trace of three
packets that leads there.

The counters are right as long as no packet is popped without a pop that was charged to its
flow (`Backed`), and then the simulator is never stuck (`no_deadlock`).
-/

namespace VPifo

namespace Simulator

open Reference TokenNet

/-! ## Being stuck -/

namespace State

variable (c : Config) (pfMap : PFMap) (s : State)

/-- Every RPU is empty. -/
def rpusEmpty : Bool := (List.range c.N).all fun i => decide ((s.rpu i).type = .empty)

/-- Nothing is under way, pops are left, and no pop is enqueued. -/
def dead : Bool :=
  decide (50 < s.cycle) && s.noPush c && s.listsEmpty c && s.rpusEmpty c && !s.noPop c &&
    (s.chargedFlow pfMap).isNone

end State

/-- The packets of flow `f` that have been popped. -/
def popped (pfMap : PFMap) (f : ℕ) (s : State) : ℕ :=
  (popMetas s.out).countP fun m => decide (pfMap m = some f)

/-- The pops that have been charged to flow `f`. -/
def charges (i : Input) (f : ℕ) (s : State) : ℕ := i.perFlowPopQueue f - s.perFlowPopQueue f

/-- A pop has been charged to the flow of packet `m` for which no packet of this flow has been
popped yet. -/
def Backed (pfMap : PFMap) (i : Input) (s : State) (m : ℤ) : Prop :=
  ∀ f, pfMap m = some f → popped pfMap f s < charges i f s

/-- Every packet that is popped in the iteration that starts in state `s` is backed at the
moment it is popped. -/
def BackedStep (c : Config) (pfMap : PFMap) (i : Input) (s : State) : Prop :=
  ∀ j < c.N, ∀ s', (s.enqueue c pfMap).execUpTo c j = some s' → s'.popReady c j = true →
    (s'.rpu j).root ≠ 0 → Backed pfMap i s' (s'.pool.top (treeRoot (s'.rpu j).root)).second

/-- No flow has had more packets popped than pops charged. -/
def Charged (pfMap : PFMap) (i : Input) (s : State) : Prop :=
  ∀ f, s.perFlowPopQueue f + popped pfMap f s ≤ i.perFlowPopQueue f

section Steps

variable {c : Config} {pfMap : PFMap} {trace : List Record} {i : Input} {b : ℕ} {s : State}

theorem Charged.congr (h : Charged pfMap i s) {s' : State}
    (hpop : ∀ f, s'.perFlowPopQueue f ≤ s.perFlowPopQueue f)
    (hout : popMetas s'.out = popMetas s.out) : Charged pfMap i s' := by
  intro f
  have := h f
  have := hpop f
  rw [popped, hout, ← popped]
  omega

variable (c pfMap) in
/-- No packet is popped before the statistics. -/
theorem enqueue_pops (s : State) :
    (∀ f, (s.enqueue c pfMap).perFlowPopQueue f ≤ s.perFlowPopQueue f) ∧
    popMetas (s.enqueue c pfMap).out = popMetas s.out := by
  have hflow : ∀ (l : List ℕ) (s : State),
      (l.foldl (State.pushFlow c) s).perFlowPopQueue = s.perFlowPopQueue ∧
      popMetas (l.foldl (State.pushFlow c) s).out = popMetas s.out := by
    intro l
    induction l with
    | nil => exact fun s => ⟨rfl, rfl⟩
    | cons f l ih =>
      intro s
      obtain ⟨hpop, hout⟩ := ih (s.pushFlow c f)
      rw [List.foldl_cons, hpop, hout, State.pushFlow]
      split
      · exact ⟨rfl, rfl⟩
      · exact ⟨rfl, popMetas_append_push _ _ _⟩
  have hcheck : (s.checkTaskListEmpty c).perFlowPopQueue = s.perFlowPopQueue ∧
      (s.checkTaskListEmpty c).out = s.out := by
    rw [State.checkTaskListEmpty]
    split <;> exact ⟨rfl, rfl⟩
  obtain ⟨hpop, hout⟩ := hflow (List.range c.FLOW_NUM) (s.checkTaskListEmpty c)
  rw [hcheck.1] at hpop
  rw [hcheck.2] at hout
  rw [State.enqueue, State.tryPushPushTask]
  generalize (List.range c.FLOW_NUM).foldl (State.pushFlow c) (s.checkTaskListEmpty c) = s₁ at *
  rw [← hpop, ← hout]
  split
  · cases hcharge : s₁.chargedFlow pfMap with
    | none =>
      rw [State.tryPushPopTask, hcharge]
      exact ⟨fun f => le_rfl, rfl⟩
    | some g =>
      obtain ⟨-, hout', -, hpop'⟩ := tryPushPopTask_queues (c := c) hcharge
      refine ⟨fun f => ?_, by rw [hout']⟩
      show (s₁.tryPushPopTask c pfMap).perFlowPopQueue f ≤ s₁.perFlowPopQueue f
      rw [hpop']
      dsimp only
      split
      · exact Nat.sub_le _ _
      · exact le_rfl
  · exact ⟨fun f => le_rfl, rfl⟩

/-- A packet that is backed is popped. -/
theorem Charged.exec {j : ℕ} (h : Charged pfMap i s) (hcore : Core c j b s) (hj : j < c.N)
    (hback : s.popReady c j = true → (s.rpu j).root ≠ 0 →
      Backed pfMap i s (s.pool.top (treeRoot (s.rpu j).root)).second)
    {s' : State} (hexec : s.execAt c j = some s') : Charged pfMap i s' := by
  by_cases hready : (s.rpu j).Ready c.L
  · obtain ⟨-, s₁, hexec₁, hsame, -, hout⟩ := hcore.exec hj hready
    obtain rfl : s₁ = s' := Option.some.inj (hexec₁.symm.trans hexec)
    by_cases h0 : (s.rpu j).root = 0
    · rw [if_pos h0, List.append_nil] at hout
      exact h.congr (fun f => by rw [hsame.popQueue]) hout
    · rw [if_neg h0] at hout
      have hback' := hback (popReady_iff.mpr hready) h0
      generalize (s.pool.top (treeRoot (s.rpu j).root)).second = m at hout hback'
      intro f
      have hf := h f
      rw [hsame.popQueue, popped, hout, List.countP_append, ← popped]
      by_cases hm : pfMap m = some f
      · have hlt := hback' f hm
        rw [charges] at hlt
        rw [List.countP_singleton, if_pos (by simpa using hm)]
        omega
      · rw [List.countP_singleton, if_neg (by simpa using hm)]
        exact hf
  · obtain ⟨hexec₁, -⟩ := hcore.skip hready
    obtain rfl : s = s' := Option.some.inj (hexec₁.symm.trans hexec)
    exact h

/-- **One iteration** in which every packet that is popped is backed. -/
theorem Charged.iterate (h : Charged pfMap i s) (hloop : LoopInv c trace s)
    (hback : BackedStep c pfMap i s) (locked : ℕ → Bool) {s' : State}
    (hs' : s.iterate c pfMap locked = some s') : Charged pfMap i s' := by
  rw [State.iterate] at hs'
  split at hs'
  · obtain rfl := Option.some.inj hs'
    exact h
  · obtain ⟨hpop, hout⟩ := enqueue_pops c pfMap s
    obtain ⟨b, hmid⟩ := (hloop.enqueue pfMap).mid
    have hrun : ∀ n ≤ c.N, ∀ s₁, (s.enqueue c pfMap).execUpTo c n = some s₁ →
        Charged pfMap i s₁ := by
      intro n
      induction n with
      | zero =>
        intro _ s₁ hs₁
        obtain rfl := Option.some.inj hs₁
        exact h.congr hpop hout
      | succ n ih =>
        intro hn s₂ hs₂
        obtain ⟨s₁, hs₁, -, hcore⟩ := hmid.core.execUpTo (n := n) (by omega)
        rw [execUpTo_succ hs₁] at hs₂
        exact (ih (by omega) s₁ hs₁).exec hcore hn (hback n hn s₁ hs₁) hs₂
    obtain ⟨s₁, hs₁, -, hcore⟩ := hmid.core.execUpTo le_rfl
    obtain ⟨s₂, hadvance, hsame, hout₂, -⟩ := hcore.advance locked
    rw [hs₁, Option.bind_some, hadvance] at hs'
    obtain rfl := Option.some.inj hs'
    exact (hrun c.N le_rfl s₁ hs₁).congr (fun f => by rw [hsame.popQueue]) (by rw [hout₂])

end Steps

/-! ## The counters add up -/

section Totals

variable {c : Config} {pfMap : PFMap} {trace : List Record} {i : Input} {k b : ℕ} {s : State}

/-- Every packet is counted in one flow. -/
theorem sum_countP_flow {n : ℕ} {m : Multiset ℤ} (h : ∀ x ∈ m, ∃ f < n, pfMap x = some f) :
    ∑ f ∈ Finset.range n, m.countP (fun x => pfMap x = some f) = m.card := by
  induction m using Multiset.induction_on with
  | empty => simp
  | cons x m ih =>
    obtain ⟨g, hg, hflow⟩ := h x (Multiset.mem_cons_self x m)
    have hcons : ∀ f, (x ::ₘ m).countP (fun x => pfMap x = some f) =
        m.countP (fun x => pfMap x = some f) + if f = g then 1 else 0 := by
      intro f
      rw [Multiset.countP_cons, hflow]
      simp only [Option.some.injEq, eq_comm]
    rw [Finset.sum_congr rfl fun f _ => hcons f, Finset.sum_add_distrib,
      ih fun y hy => h y (Multiset.mem_cons_of_mem hy), Finset.sum_ite_eq',
      if_pos (Finset.mem_range.mpr hg), Multiset.card_cons]

variable (trace) in
/-- The packets are in the queues of the flows, in the simulator, or popped. -/
theorem metas_split {queue : Multiset APush} (hcore : Core c k b s)
    (hmetas : (pushMetas s.out : Multiset ℤ) + queue.map APush.pktMeta =
      ((arrivals trace).map APush.pktMeta : List ℤ)) :
    (((arrivals trace).map APush.pktMeta : List ℤ) : Multiset ℤ) =
      popMetas s.out + packets c k s + queue.map APush.pktMeta := by
  rw [← hmetas, hcore.conserved]

/-- The pops of flow `f` that were read are its packets. -/
theorem length_ofFlow (f : ℕ) : (ofFlow pfMap f (arrivals trace)).length =
    (((arrivals trace).map APush.pktMeta : List ℤ) : Multiset ℤ).countP
      fun m => pfMap m = some f := by
  rw [Multiset.coe_countP, List.countP_map, ofFlow, ← List.countP_eq_length_filter]
  rfl

/-- **The totals.**  Every packet that was read has been popped, or a pop for it is under way,
or its pop has not been charged. -/
theorem card_arrivals (hmid : Mid c trace b s) {s' : State} (hcore : Core c k b s')
    (hsame : SameQueues s s') : (arrivals trace).length =
      (popMetas s'.out).length + underWay c.trees (netAt c k s') + popsLeft c s := by
  have hsplit := metas_split trace hcore (by rw [hsame.pushed]; exact hmid.metas)
  have hcard := congrArg Multiset.card hsplit
  have hleaves := hcore.net.card_leaves c.zero_mem
  have hbal := hmid.balance
  rw [Multiset.card_add, Multiset.card_add, packets, Multiset.card_map, Multiset.card_map, hleaves,
    Multiset.coe_card, Multiset.coe_card, List.length_map] at hcard
  omega

end Totals

section Stuck

variable {c : Config} {pfMap : PFMap} {trace : List Record} {i : Input} {s : State}

/-- Nothing waits for any tree. -/
theorem ops_of_empty {s : State} (hlists : s.listsEmpty c = true) (hrpus : s.rpusEmpty c = true)
    (u : ℕ) : (netAt c 0 s).ops u = [] := by
  have hhome := List.mem_range.mpr (c.home_lt u)
  have hlist := List.all_eq_true.mp hlists _ hhome
  have hrpu := List.all_eq_true.mp hrpus _ hhome
  rw [List.isEmpty_iff] at hlist
  rw [decide_eq_true_iff] at hrpu
  show opsOf c.home c.L pairOf s.lists s.rpu 0 u = []
  rw [opsOf, readyOps, listOps, hlist, if_neg fun h => absurd (hrpu.symm.trans h.2.1.2) (by simp)]
  rfl

/-- When nothing waits, what is on top of the root leads to a tree that holds something. -/
theorem Core.tops {b : ℕ} (h : Core c 0 (b + 1) s) (hops : ∀ u, (netAt c 0 s).ops u = []) :
    ∃ m ∈ packets c 0 s, (s.pool.top (treeRoot 0)).first ≠ inf ∧
      (s.pool.top (treeRoot (s.pool.top (treeRoot 0)).second.toNat)).first ≠ inf ∧
      (s.pool.top (treeRoot (s.pool.top (treeRoot 0)).second.toNat)).second = m := by
  obtain ⟨sh, hpool⟩ := h.pool
  have hheld : ∀ u < c.M, (netAt c 0 s).held u = Reference.stored s.pool u := by
    intro u hu
    rw [Net.held, hops, pushVals_nil, add_zero]
    exact storeOf_of_lt hu
  have hroot := h.net.root
  rw [hheld 0 c.M_pos, hops, popCount_nil] at hroot
  have hne : Reference.stored s.pool 0 ≠ 0 := by
    intro hzero
    rw [hzero, Multiset.card_zero] at hroot
    omega
  obtain ⟨_, -, -, -, -, hfull, -, -⟩ := hpool.pop c.M_pos
  obtain ⟨hmem, -, -⟩ := hfull hne
  have hfirst := hpool.top_first_ne c.M_pos hne
  generalize s.pool.top (treeRoot 0) = v at *
  have hmem' : v ∈ (netAt c 0 s).held 0 := by
    rw [hheld 0 c.M_pos]
    exact hmem
  have hnext : nextTree 0 v = some v.second.toNat := rfl
  obtain ⟨hu, hu0⟩ := h.net.closed 0 c.zero_mem v hmem' _ hnext
  generalize v.second.toNat = u at *
  have hlt := mem_trees.mp hu
  -- the tree that `v` names holds as many elements as there are tokens for it
  have hbal := h.net.balanced u hu hu0
  have htok : v ∈ tokens c.trees nextTree (netAt c 0 s) u := by
    rw [tokens, gather, Multiset.mem_sum]
    exact ⟨0, c.zero_mem, Multiset.mem_filter.mpr ⟨hmem', hnext⟩⟩
  have hne' : Reference.stored s.pool u ≠ 0 := by
    intro hzero
    rw [hheld u hlt, hops, hzero, popCount_nil, Multiset.card_zero, zero_add] at hbal
    rw [Multiset.card_eq_zero.mp hbal.symm] at htok
    exact Multiset.notMem_zero _ htok
  obtain ⟨_, -, -, -, -, hfull', -, -⟩ := hpool.pop hlt
  refine ⟨_, ?_, hfirst, hpool.top_first_ne hlt hne', rfl⟩
  refine Multiset.mem_map_of_mem _ ?_
  rw [leaves, gather, Multiset.mem_sum]
  refine ⟨u, hu, Multiset.mem_filter.mpr ⟨?_, if_neg hu0⟩⟩
  rw [hheld u hlt]
  exact (hfull' hne').1

/-- Every packet in the simulator belongs to a flow. -/
theorem flow_of_mem_packets {b : ℕ} (hmid : Mid c trace b s) (hok : TraceOk c pfMap trace) {m : ℤ}
    (hm : m ∈ packets c 0 s) : ∃ f < c.FLOW_NUM, pfMap m = some f := by
  have hmem : m ∈ (((arrivals trace).map APush.pktMeta : List ℤ) : Multiset ℤ) := by
    rw [metas_split trace hmid.core hmid.metas]
    exact Multiset.mem_add.mpr (Or.inl (Multiset.mem_add.mpr (Or.inr hm)))
  obtain ⟨a, ha, rfl⟩ := List.mem_map.mp (Multiset.mem_coe.mp hmem)
  exact hok.flow a ha

/-- When every packet has entered and no task is under way, **the pops that are left of a flow
are its packets in the simulator**: no flow has fewer packets than pops, and the totals agree. -/
theorem Charged.popQueue_eq {b : ℕ} (hcharged : Charged pfMap i s) (hmid : Mid c trace b s)
    (hok : TraceOk c pfMap trace)
    (hread : ∀ f, i.perFlowPopQueue f = (ofFlow pfMap f (arrivals trace)).length)
    (hqueued : queued c s = 0) (hops : ∀ u, (netAt c 0 s).ops u = []) {f : ℕ}
    (hf : f < c.FLOW_NUM) :
    s.perFlowPopQueue f = (packets c 0 s).countP fun m => pfMap m = some f := by
  have hsplit := metas_split trace hmid.core hmid.metas
  rw [hqueued, Multiset.map_zero, add_zero] at hsplit
  -- the packets of flow `f` that have not been popped
  have hrest : ∀ f, i.perFlowPopQueue f =
      popped pfMap f s + (packets c 0 s).countP fun m => pfMap m = some f := by
    intro f
    rw [hread, length_ofFlow, hsplit, Multiset.countP_add, Multiset.coe_countP]
    rfl
  have hle : ∀ f ∈ Finset.range c.FLOW_NUM,
      s.perFlowPopQueue f ≤ (packets c 0 s).countP fun m => pfMap m = some f := by
    intro f _
    have := hcharged f
    rw [hrest f] at this
    omega
  have htotal : ∑ f ∈ Finset.range c.FLOW_NUM, s.perFlowPopQueue f =
      ∑ f ∈ Finset.range c.FLOW_NUM, (packets c 0 s).countP fun m => pfMap m = some f := by
    have hway : underWay c.trees (netAt c 0 s) = 0 :=
      Finset.sum_eq_zero fun u _ => by rw [hops, popCount_nil]
    have hbal := hmid.balance
    rw [hqueued, Multiset.card_zero, zero_add] at hbal
    rw [sum_countP_flow fun m hm => flow_of_mem_packets hmid hok hm, packets, Multiset.card_map,
      hmid.core.net.card_leaves c.zero_mem, hway, zero_add, hbal, popsLeft]
  exact (Finset.sum_eq_sum_iff_of_le hle).mp htotal f (Finset.mem_range.mpr hf)

/-- A pop is left as long as some flow has one. -/
theorem popsLeft_pos (hpop : s.noPop c = false) : 0 < popsLeft c s := by
  by_contra hzero
  have hall := Finset.sum_eq_zero_iff.mp (Nat.le_zero.mp (not_lt.mp hzero))
  have : s.noPop c = true := List.all_eq_true.mpr fun f hf => by
    simpa using hall f (Finset.mem_range.mpr (List.mem_range.mp hf))
  rw [this] at hpop
  exact absurd hpop (by simp)

/-- A state in which the counters are right is not stuck. -/
theorem LoopInv.not_dead (h : LoopInv c trace s) (hok : TraceOk c pfMap trace)
    (hread : ∀ f, i.perFlowPopQueue f = (ofFlow pfMap f (arrivals trace)).length)
    (hcharged : Charged pfMap i s) : s.dead c pfMap = false := by
  by_contra hdead
  simp only [State.dead, Bool.not_eq_false, Bool.and_eq_true, decide_eq_true_eq, Bool.not_eq_true',
    Option.isNone_iff_eq_none] at hdead
  obtain ⟨⟨⟨⟨⟨-, hpush⟩, hlists⟩, hrpus⟩, hpop⟩, hnone⟩ := hdead
  obtain ⟨b, hmid⟩ := h.mid
  have hops := ops_of_empty hlists hrpus
  have hqueued : queued c s = 0 := by
    refine Finset.sum_eq_zero fun f hf => ?_
    have hempty := List.all_eq_true.mp hpush f (List.mem_range.mpr (Finset.mem_range.mp hf))
    rw [List.isEmpty_iff.mp hempty]
    rfl
  -- some pop is left, so the root holds something
  have hpos : 0 < b := by
    have hbal := hmid.balance
    rw [hqueued, Multiset.card_zero, zero_add] at hbal
    exact hbal ▸ popsLeft_pos hpop
  obtain ⟨b', rfl⟩ : ∃ b', b = b' + 1 := ⟨b - 1, by omega⟩
  obtain ⟨m, hm, hfirst, hsecond, htop⟩ := hmid.core.tops hops
  obtain ⟨f, hf, hmf⟩ := flow_of_mem_packets hmid hok hm
  -- and the flow of the packet on top has a pop for it
  have hpopf : 0 < s.perFlowPopQueue f := by
    rw [hcharged.popQueue_eq hmid hok hread hqueued hops hf]
    exact Multiset.countP_pos.mpr ⟨m, hm, hmf⟩
  rw [State.chargedFlow, if_pos ⟨hfirst, hsecond⟩, htop, hmf] at hnone
  dsimp only [Option.getD_some] at hnone
  rw [if_pos hpopf] at hnone
  exact absurd hnone (by simp)

end Stuck

/-! ## No deadlock -/

/-- **The simulator is not stuck** in a state that is reached by iterations in which every
packet that is popped belongs to a flow that a pop has been charged to. -/
theorem no_deadlock (c : Config) (pfMap : PFMap) (trace : List Record) (h : TraceOk c pfMap trace)
    (locked : ℕ → ℕ → Bool) : ∃ i, readAll pfMap trace = some i ∧ ∀ n,
      (∀ m < n, ∀ s, simulate c pfMap locked i m = some s → s.atEnd c = false →
        BackedStep c pfMap i s) →
      ∃ s, simulate c pfMap locked i n = some s ∧ s.dead c pfMap = false := by
  obtain ⟨i, hi, hstart, hread⟩ := loopInv_start h
  refine ⟨i, hi, fun n hback => ?_⟩
  have hrun : ∀ m ≤ n, ∃ s, simulate c pfMap locked i m = some s ∧ LoopInv c trace s ∧
      Charged pfMap i s := by
    intro m
    induction m with
    | zero => exact fun _ => ⟨_, rfl, hstart, fun f => le_rfl⟩
    | succ m ih =>
      intro hm
      obtain ⟨s, hs, hloop, hcharged⟩ := ih (by omega)
      obtain ⟨s', hs', hloop'⟩ := hloop.iterate pfMap (locked m)
      refine ⟨s', by rw [simulate, hs]; exact hs', hloop', ?_⟩
      cases hend : s.atEnd c with
      | true =>
        rw [State.iterate, if_pos hend] at hs'
        obtain rfl := Option.some.inj hs'
        exact hcharged
      | false => exact hcharged.iterate hloop (hback m hm s hs hend) (locked m) hs'
  obtain ⟨s, hs, hloop, hcharged⟩ := hrun n le_rfl
  exact ⟨s, hs, hloop.not_dead h hread hcharged⟩

/-- With a single flow every packet that is popped is backed: every pop that is under way has been
charged to this flow. -/
theorem backedStep_of_single {c : Config} {pfMap : PFMap} {trace : List Record} {i : Input} {f : ℕ}
    {s : State} (hf : f < c.FLOW_NUM) (hflow : ∀ a ∈ arrivals trace, pfMap a.pktMeta = some f)
    (hread : ∀ f, i.perFlowPopQueue f = (ofFlow pfMap f (arrivals trace)).length)
    (hloop : LoopInv c trace s) : BackedStep c pfMap i s := by
  intro j hj s' hs' hready _ g hg
  obtain ⟨b, hmid⟩ := (hloop.enqueue pfMap).mid
  obtain ⟨s₁, hs₁, hsame, hcore⟩ := hmid.core.execUpTo hj.le
  obtain rfl : s₁ = s' := Option.some.inj (hs₁.symm.trans hs')
  have hready' := popReady_iff.mp hready
  have hroot := hcore.readyRoots j hj hready'
  -- the pop that is about to be executed is under way
  have hway : 1 ≤ underWay c.trees (netAt c j s₁) := by
    have hpops : 1 ≤ popCount ((netAt c j s₁).ops (s₁.rpu j).root) := by
      show 1 ≤ popCount (opsOf c.home c.L pairOf s₁.lists s₁.rpu j (s₁.rpu j).root)
      rw [ops_ready hready' (hcore.ready j hj hready'), popCount_pop]
      omega
    exact hpops.trans (Finset.single_le_sum (f := fun t => popCount ((netAt c j s₁).ops t))
      (fun _ _ => Nat.zero_le _) (mem_trees.mpr hroot))
  -- and the packet that it takes is one of the trace
  obtain rfl : f = g := by
    have hmem : (s₁.pool.top (treeRoot (s₁.rpu j).root)).second ∈
        (((arrivals trace).map APush.pktMeta : List ℤ) : Multiset ℤ) := by
      obtain ⟨-, s₂, -, hsame₂, hcore₂, hout⟩ := hcore.exec hj hready'
      have hsplit := metas_split trace hcore₂
        (by rw [hsame₂.pushed, hsame.pushed]; exact hmid.metas)
      rw [hsplit, hout, if_neg ‹_›]
      simp
    obtain ⟨a, ha, hm⟩ := List.mem_map.mp (Multiset.mem_coe.mp hmem)
    rw [← hm, hflow a ha] at hg
    exact Option.some.inj hg
  have htotal := card_arrivals hmid hcore hsame
  have hleft : s₁.perFlowPopQueue f ≤ popsLeft c (s.enqueue c pfMap) := by
    rw [hsame.popQueue]
    exact Finset.single_le_sum (f := (s.enqueue c pfMap).perFlowPopQueue) (fun _ _ => Nat.zero_le _)
      (Finset.mem_range.mpr hf)
  have hall : (ofFlow pfMap f (arrivals trace)).length = (arrivals trace).length := by
    rw [ofFlow, List.filter_eq_self.mpr fun a ha => by simpa using hflow a ha]
  have hpopped : popped pfMap f s₁ ≤ (popMetas s₁.out).length := List.countP_le_length
  rw [charges, hread, hall]
  omega

/-- The packets of `crossedTrace`, in one flow.  They have all left after 80 iterations. -/
theorem no_deadlock_oneFlow : ∃ i, readAll (fun _ => some 0) crossedTrace = some i ∧
    (∃ s, simulate Config.source (fun _ => some 0) (fun _ _ => false) i 80 = some s ∧
      popMetas s.out = [0, 2, 1]) ∧
    ∀ n, ∃ s, simulate Config.source (fun _ => some 0) (fun _ _ => false) i n = some s ∧
      s.dead Config.source (fun _ => some 0) = false := by
  have hok : TraceOk Config.source (fun _ => some 0) crossedTrace :=
    crossedTrace_ok fun _ _ => ⟨0, by decide, rfl⟩
  have hrun : ((readAll (fun _ => some 0) crossedTrace).bind fun i =>
      simulate Config.source (fun _ => some 0) (fun _ _ => false) i 80).map
        (fun s => popMetas s.out) = some [0, 2, 1] := by
    decide +kernel
  obtain ⟨s, hs, hpopped⟩ := Option.map_eq_some_iff.mp hrun
  obtain ⟨i, hi, hall⟩ := no_deadlock Config.source _ crossedTrace hok fun _ _ => false
  rw [hi, Option.bind_some] at hs
  refine ⟨i, hi, ⟨s, hs, hpopped⟩, fun n => hall n fun m _ s hs _ => ?_⟩
  obtain ⟨i', hi', hstart, hread⟩ := loopInv_start hok
  obtain rfl : i = i' := Option.some.inj (hi.symm.trans hi')
  obtain ⟨s', hs', hloop⟩ := simulate_inv hstart (fun _ _ => false) m
  obtain rfl : s = s' := Option.some.inj (hs.symm.trans hs')
  exact backedStep_of_single (f := 0) (by decide) (fun a _ => rfl) hread hloop

/-- In two flows the packets end in a deadlock.  In two cycles one after the other packet 2 is
on top, so that two pops are charged to flow 1.  They take packets 2 and 1.  Then packet 0 is
on top, but the only pop left is one of flow 0. -/
theorem simulator_deadlocks : TraceOk Config.source crossedFlows crossedTrace ∧
    ∃ i, readAll crossedFlows crossedTrace = some i ∧ ∃ n s,
      simulate Config.source crossedFlows (fun _ _ => false) i n = some s ∧
      s.dead Config.source crossedFlows = true := by
  have hrun : ((readAll crossedFlows crossedTrace).bind fun i =>
      simulate Config.source crossedFlows (fun _ _ => false) i 68).any
        (fun s => s.dead Config.source crossedFlows) = true := by
    decide +kernel
  obtain ⟨s, hs, hdead⟩ := (Option.any_eq_true _ _).mp hrun
  obtain ⟨i, hi, hs⟩ := Option.bind_eq_some_iff.mp hs
  exact ⟨crossedTrace_ok (by decide), i, hi, 68, s, hs, hdead⟩

end Simulator

end VPifo
