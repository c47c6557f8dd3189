import VPifo.Dpdk.NodeCalls
import VPifo.Dpdk.SwitchOrder

/-!
# Fair shares in the software switch

`flows2nodes_WFQ` and `forward_WFQ` give every ring a turn, in which they move at most as many
packets as its weight.  Packets come in while a core is in the middle of its turns, the core is
held up between any two packets, and the stretch of time that one looks at begins and ends
anywhere.  Still, of two rings that are never empty each gets its share, up to one round
(`flows2nodes_WFQ_fair`, `forward_WFQ_fair`).
-/

namespace VPifo

namespace Dpdk

open WeightedTurns

section Code

variable (c : SwitchConfig) (hd : Headers) (ring : Buffer)

/-- How many packets are taken from a ring in some steps.  No step does both, take packets from a
ring and put packets into it. -/
def takenFrom : List Cores.Action → Cores → ℕ
  | [], _ => 0
  | a :: actions, s =>
    match Cores.step c hd s a with
    | none => 0
    | some s' => ((s.buffers ring).length - (s'.buffers ring).length) + takenFrom actions s'

/-- A ring that is never empty in the course of some steps. -/
def Backlogged : List Cores.Action → Cores → Prop
  | [], s => s.buffers ring ≠ []
  | a :: actions, s => s.buffers ring ≠ [] ∧
    match Cores.step c hd s a with
    | none => True
    | some s' => Backlogged actions s'

instance decidableBacklogged : ∀ actions s, Decidable (Backlogged c hd ring actions s)
  | [], s => inferInstanceAs (Decidable (s.buffers ring ≠ []))
  | a :: actions, s =>
    haveI : Decidable (match Cores.step c hd s a with
        | none => True
        | some s' => Backlogged c hd ring actions s') :=
      match Cores.step c hd s a with
      | none => inferInstanceAs (Decidable True)
      | some s' => decidableBacklogged actions s'
    inferInstanceAs (Decidable (_ ∧ _))

end Code

/-! ## Turns over a stretch -/

section Stretch

variable {c : SwitchConfig} {hd : Headers} {ring : Buffer} {a : Cores.Action}
  {actions : List Cores.Action} {s s' s₁ : Cores}

theorem Backlogged.now (h : Backlogged c hd ring actions s) : s.buffers ring ≠ [] := by
  cases actions with
  | nil => exact h
  | cons a actions => exact h.1

theorem Backlogged.tail (h : Backlogged c hd ring (a :: actions) s)
    (hstep : Cores.step c hd s a = some s₁) : Backlogged c hd ring actions s₁ := by
  have h := h.2
  rw [hstep] at h
  exact h

theorem takenFrom_cons (hstep : Cores.step c hd s a = some s₁) :
    takenFrom c hd ring (a :: actions) s =
      ((s.buffers ring).length - (s₁.buffers ring).length) + takenFrom c hd ring actions s₁ := by
  rw [takenFrom, hstep]

/-- What a core owes that serves some rings in turns: every step is a move of the server. -/
structure Turns {m : ℕ} (c : SwitchConfig) (hd : Headers) (w : Fin m → ℕ) (rings : Fin m → Buffer)
    (position : Cores → Position m) (inv : Cores → Prop) : Prop where
  step : ∀ {s s' : Cores} {a : Cores.Action} {busy : Fin m → Prop}, inv s →
    Cores.step c hd s a = some s' → (∀ k, busy k → s.buffers (rings k) ≠ []) →
    inv s' ∧ ∃ l, Move w busy (position s) l (position s') ∧
      ∀ k, (s.buffers (rings k)).length - (s'.buffers (rings k)).length =
        if l = some k then 1 else 0

variable {m : ℕ} {w : Fin m → ℕ} {rings : Fin m → Buffer} {position : Cores → Position m}
  {inv : Cores → Prop}

/-- A stretch is a path of the server. -/
theorem Turns.path (ht : Turns c hd w rings position inv) (busy : Fin m → Prop) :
    ∀ {actions : List Cores.Action} {s s' : Cores}, inv s →
      actions.foldlM (Cores.step c hd) s = some s' →
      (∀ k, busy k → Backlogged c hd (rings k) actions s) →
      ∃ ls, Path w busy (position s) ls (position s') ∧
        ∀ k, served ls k = takenFrom c hd (rings k) actions s := by
  intro actions
  induction actions with
  | nil =>
    intro s s' _ h _
    obtain rfl := Option.some.inj h
    exact ⟨[], .nil _, fun _ => rfl⟩
  | cons a actions ih =>
    intro s s' hs h hbusy
    obtain ⟨s₁, hstep, hrest⟩ := Runs.of_foldlM_cons h
    obtain ⟨hs₁, l, hmove, hlength⟩ := ht.step hs hstep fun k hk => (hbusy k hk).now
    obtain ⟨ls, hpath, hserved⟩ := ih hs₁ hrest fun k hk => (hbusy k hk).tail hstep
    refine ⟨l :: ls, .cons hmove hpath, fun k => ?_⟩
    rw [served_cons, hserved, takenFrom_cons hstep, hlength, add_comm]

/-- Two rings that are never empty get their shares. -/
theorem Turns.fair (ht : Turns c hd w rings position inv) (hs : inv s)
    (hfits : WeightedTurns.Fits w (position s)) (h : actions.foldlM (Cores.step c hd) s = some s')
    {i k : Fin m} (hi : Backlogged c hd (rings i) actions s)
    (hk : Backlogged c hd (rings k) actions s) :
    |(takenFrom c hd (rings i) actions s * w k - takenFrom c hd (rings k) actions s * w i : ℤ)| ≤
      w i * w k := by
  obtain ⟨ls, hpath, hserved⟩ := ht.path (fun j => j = i ∨ j = k) hs h fun j hj => by
    rcases hj with rfl | rfl
    · exact hi
    · exact hk
  rw [← hserved i, ← hserved k]
  exact hpath.balanced hfits (Or.inl rfl) (Or.inr rfl)

end Stretch

/-! ## The flows of a node -/

section Nodes

variable {c : SwitchConfig} {hd : Headers} {s s' : Cores} {n : Fin 2}

/-- A core that does not look at its flows takes nothing from them. -/
theorem length_sub_of_longer {xs ys : List Packet} (h : xs <+: ys) : xs.length - ys.length = 0 :=
  Nat.sub_eq_zero_of_le h.length_le

theorem Cores.Took.length_sub {α : Type} [DecidableEq α] {l : Option α} {rings : α → Buffer}
    {mbuf : Buffer} (h : s.Took (l.map rings) mbuf s') (hrings : Function.Injective rings)
    (hmbuf : ∀ k, rings k ≠ mbuf) (k : α) :
    (s.buffers (rings k)).length - (s'.buffers (rings k)).length = if l = some k then 1 else 0 := by
  by_cases hl : l = some k
  · subst hl
    obtain ⟨pkt, hpkt, -⟩ := h.taken (hmbuf k)
    rw [hpkt, List.length_cons, if_pos rfl]
    exact Nat.add_sub_cancel_left _ _
  · rw [if_neg hl, h.frame (hmbuf k) fun hk => hl ?_]
    · exact Nat.sub_self _
    · obtain ⟨j, rfl, hj⟩ := Option.map_eq_some_iff.mp hk
      rw [hrings hj]

/-- The core of a node with WFQ. -/
theorem node_turns (hintra : c.intraNode = .WFQ) (n : Fin 2) :
    Turns c hd (packetWeight c n) (fun i => .ringFlows (flowIndex n i))
      (fun s => (s.nodePc n).position) (InCall c n) where
  step := by
    intro s s' a busy hs hstep hbusy
    refine ⟨hs.step hstep, ?_⟩
    by_cases ha : a = .node n
    · subst ha
      rcases nodeStep_cases hstep with ⟨-, rfl⟩ | ⟨-, -, -, l, hmove, htook⟩
      · refine ⟨none, ?_, fun k => ?_⟩
        · rw [congrFun (give_pcs s _ _ _).1 n]
          exact .rest _
        · rw [give_frame (by simp) (by simp)]
          simp
      · refine ⟨l, ?_, htook.length_sub (fun i j h => flowIndex_injective n
          (Buffer.ringFlows.inj h)) fun _ => by simp⟩
        have hlegal := hs.legal
        generalize s.nodePc n = pc at hlegal hmove
        generalize s'.nodePc n = pc' at hmove
        cases hmove with
        | wait => exact .rest _
        | startSP h _ => exact absurd (hintra.symm.trans h) (by simp)
        | startWFQ _ _ => exact .start 0 rfl
        | startPFabric h _ => exact absurd (hintra.symm.trans h) (by simp)
        | spNext priority i _ _ => exact absurd (hintra.symm.trans hlegal.1) (by simp)
        | spTake priority i _ => exact absurd (hintra.symm.trans hlegal.1) (by simp)
        | wfqPass i j hpass =>
          rw [turnOf_position]
          refine .pass i _ fun hi => ?_
          -- the ring is not empty, so the turn is over
          have hj : ¬j < Cores.flowWeight c n i := fun hj => hbusy i hi (hpass hj)
          rw [packetWeight]
          omega
        | wfqTake i j hj =>
          obtain ⟨-, hpos, -⟩ := hlegal
          have hsucc : (j + 1).toNat = j.toNat + 1 := by omega
          rw [NodePc.position, NodePc.position, hsucc]
          refine .serve i _ ?_
          rw [packetWeight]
          omega
        | pFabricNext tries ring _ =>
          exact absurd (hintra.symm.trans (show c.intraNode = .pFabric from hlegal)) (by simp)
        | pFabricTake tries ring =>
          exact absurd (hintra.symm.trans (show c.intraNode = .pFabric from hlegal)) (by simp)
    · obtain ⟨hpc, -, -, hlonger⟩ := step_frame_node hstep ha
      refine ⟨none, ?_, fun k => ?_⟩
      · rw [hpc]
        exact .rest _
      · rw [length_sub_of_longer (hlonger k)]
        simp

/-- **`flows2nodes_WFQ` is fair**: over any stretch of any run, two flows of a node whose rings are
never empty get packets moved in the proportion of their weights, up to one round. -/
theorem flows2nodes_WFQ_fair (hintra : c.intraNode = .WFQ) {ports : Switch}
    {before actions : List Cores.Action} (hbefore : Cores.run c hd ports before = some s)
    (h : actions.foldlM (Cores.step c hd) s = some s') (n : Fin 2) {i k : Fin 3}
    (hi : Backlogged c hd (.ringFlows (flowIndex n i)) actions s)
    (hk : Backlogged c hd (.ringFlows (flowIndex n k)) actions s) :
    |(takenFrom c hd (.ringFlows (flowIndex n i)) actions s * packetWeight c n k -
      takenFrom c hd (.ringFlows (flowIndex n k)) actions s * packetWeight c n i : ℤ)| ≤
      packetWeight c n i * packetWeight c n k := by
  have hs : InCall c n s := run_inCall hbefore
  refine (node_turns hintra n).fair hs ?_ h hi hk
  have hlegal := hs.legal
  generalize s.nodePc n = pc at hlegal
  cases pc with
  | wfq i j => exact hlegal.2.2
  | _ => trivial

/-- Two flows of node 0, and with `8084` one flow of each node. -/
def twoFlows (port : UInt16) : Headers := ⟨fun _ => 0, fun id => if id = 1 then 8081 else port,
  fun _ => 80⟩

/-- WFQ everywhere, with weight 2. -/
def exampleWFQ : SwitchConfig :=
  { exampleSwitch with intraNode := .WFQ, interNode := .WFQ, wfqWeight := fun _ => 2 }

/-- Two packets of each of the flows come in and are sorted. -/
def twoFlowsActions : List Cores.Action :=
  [.arrive shortPacket, .arrive { shortPacket with id := 2 }, .arrive shortPacket,
    .arrive { shortPacket with id := 2 }, .rx 4, .rx 4] ++ List.replicate 11 .rx2flows

/-- The node begins a round and takes the first packet. -/
theorem flows2nodes_WFQ_fair_example : ∃ s s',
    Cores.run exampleWFQ (twoFlows 8082) freshSwitch twoFlowsActions = some s ∧
    [Cores.Action.node 0, .node 0].foldlM (Cores.step exampleWFQ (twoFlows 8082)) s = some s' ∧
    |(takenFrom exampleWFQ (twoFlows 8082) (.ringFlows (flowIndex 0 0)) [.node 0, .node 0] s *
        packetWeight exampleWFQ 0 1 -
      takenFrom exampleWFQ (twoFlows 8082) (.ringFlows (flowIndex 0 1)) [.node 0, .node 0] s *
        packetWeight exampleWFQ 0 0 : ℤ)| ≤
      packetWeight exampleWFQ 0 0 * packetWeight exampleWFQ 0 1 := by
  have hrun : ((Cores.run exampleWFQ (twoFlows 8082) freshSwitch twoFlowsActions).bind fun s =>
      ([Cores.Action.node 0, .node 0].foldlM (Cores.step exampleWFQ (twoFlows 8082)) s).map
        fun _ => decide
          (Backlogged exampleWFQ (twoFlows 8082) (.ringFlows (flowIndex 0 0)) [.node 0, .node 0] s ∧
          Backlogged exampleWFQ (twoFlows 8082) (.ringFlows (flowIndex 0 1)) [.node 0, .node 0] s))
      = some true := by
    decide +kernel
  obtain ⟨s, hs, hrest⟩ := Option.bind_eq_some_iff.mp hrun
  obtain ⟨s', hs', hbusy⟩ := Option.map_eq_some_iff.mp hrest
  obtain ⟨hi, hk⟩ := of_decide_eq_true hbusy
  exact ⟨s, s', hs, hs', flows2nodes_WFQ_fair rfl hs hs' 0 hi hk⟩

end Nodes

/-! ## The nodes -/

section Worker

variable {c : SwitchConfig} {hd : Headers} {s s' : Cores}

/-- How many packets of a node a call may move. -/
def nodePacketWeight (c : SwitchConfig) (n : Fin 2) : ℕ := (Cores.nodeWeight c n).toNat

/-- Where the forwarding core is in its turns. -/
def WorkerPc.position : WorkerPc → Position 2
  | .wfq n j => some (n, j.toNat)
  | _ => none

/-- What holds of the forwarding core between two steps. -/
structure WorkerInCall (c : SwitchConfig) (s : Cores) : Prop where
  legal : s.workerPc.Legal c
  fits : ∀ n j, s.workerPc = .wfq n j → 0 ≤ j ∧ j.toNat ≤ nodePacketWeight c n

theorem nodeTurn_position (n : Fin 2) : (Cores.nodeTurn (n + 1)).position = next n := by
  revert n
  decide

theorem WorkerMove.fits {pc pc' : WorkerPc} {l : Option (Fin 2)} (h : WorkerMove c s pc l pc')
    (hpc : ∀ n j, pc = .wfq n j → 0 ≤ j ∧ j.toNat ≤ nodePacketWeight c n) :
    ∀ n j, pc' = .wfq n j → 0 ≤ j ∧ j.toNat ≤ nodePacketWeight c n := by
  intro n j heq
  cases h with
  | startWFQ _ =>
    obtain ⟨rfl, rfl⟩ := WorkerPc.wfq.inj heq
    exact ⟨le_rfl, Nat.zero_le _⟩
  | spNext priority m _ _ => split at heq <;> cases heq
  | wfqPass m i _ =>
    rw [Cores.nodeTurn] at heq
    split at heq
    · obtain ⟨rfl, rfl⟩ := WorkerPc.wfq.inj heq
      exact ⟨le_rfl, Nat.zero_le _⟩
    · cases heq
  | wfqTake m i hi =>
    obtain ⟨rfl, rfl⟩ := WorkerPc.wfq.inj heq
    obtain ⟨hpos, -⟩ := hpc _ i rfl
    refine ⟨by omega, ?_⟩
    rw [nodePacketWeight]
    omega
  | wait => cases heq
  | startSP _ => cases heq
  | spTake priority m _ => cases heq

theorem WorkerInCall.step (hs : WorkerInCall c s) {a : Cores.Action}
    (h : Cores.step c hd s a = some s') : WorkerInCall c s' := by
  refine ⟨worker_legal_step hs.legal h, ?_⟩
  by_cases ha : a = .worker
  · subst ha
    rcases workerStep_cases h with ⟨-, rfl⟩ | ⟨-, -, l, hmove, -⟩
    · rw [(enqueueTx_pcs s _ _).2]
      exact hs.fits
    · exact hmove.fits hs.fits
  · rw [(step_frame_worker h ha).1]
    exact hs.fits

theorem run_workerInCall {ports : Switch} {actions : List Cores.Action}
    (h : Cores.run c hd ports actions = some s) : WorkerInCall c s :=
  Runs.foldlM_keeps (P := WorkerInCall c) (fun _ _ _ _ hs hstep => hs.step hstep)
    (show WorkerInCall c (Cores.start c ports) from ⟨trivial, fun _ _ h => by cases h⟩) h

/-- The forwarding core with WFQ. -/
theorem worker_turns (hinter : c.interNode = .WFQ) :
    Turns c hd (nodePacketWeight c) (fun n => .ringNodes n) (fun s => s.workerPc.position)
      (WorkerInCall c) where
  step := by
    intro s s' a busy hs hstep hbusy
    refine ⟨hs.step hstep, ?_⟩
    by_cases ha : a = .worker
    · subst ha
      rcases workerStep_cases hstep with ⟨-, rfl⟩ | ⟨-, -, l, hmove, htook⟩
      · refine ⟨none, ?_, fun k => ?_⟩
        · rw [(enqueueTx_pcs s _ _).2]
          exact .rest _
        · rw [enqueueTx_frame (by simp)]
          simp
      · refine ⟨l, ?_, htook.length_sub (fun _ _ => Buffer.ringNodes.inj) fun _ => by simp⟩
        obtain ⟨hlegal, hfits⟩ := hs
        generalize s.workerPc = pc at hlegal hfits hmove
        generalize s'.workerPc = pc' at hmove
        cases hmove with
        | wait => exact .rest _
        | startSP h => exact absurd (hinter.symm.trans h) (by simp)
        | startWFQ _ => exact .start 0 rfl
        | spNext priority n _ _ => exact absurd (hinter.symm.trans hlegal.1) (by simp)
        | spTake priority n _ => exact absurd (hinter.symm.trans hlegal.1) (by simp)
        | wfqPass n j hpass =>
          rw [nodeTurn_position]
          refine .pass n _ fun hn => ?_
          have hj : ¬j < Cores.nodeWeight c n := fun hj => hbusy n hn (hpass hj)
          rw [nodePacketWeight]
          omega
        | wfqTake n j hj =>
          obtain ⟨hpos, -⟩ := hfits n j rfl
          have hsucc : (j + 1).toNat = j.toNat + 1 := by omega
          rw [WorkerPc.position, WorkerPc.position, hsucc]
          refine .serve n _ ?_
          rw [nodePacketWeight]
          omega
    · obtain ⟨hpc, -, hlonger⟩ := step_frame_worker hstep ha
      refine ⟨none, ?_, fun k => ?_⟩
      · rw [hpc]
        exact .rest _
      · rw [length_sub_of_longer (hlonger k)]
        simp

/-- **`forward_WFQ` is fair** to the nodes in the same way. -/
theorem forward_WFQ_fair (hinter : c.interNode = .WFQ) {ports : Switch}
    {before actions : List Cores.Action} (hbefore : Cores.run c hd ports before = some s)
    (h : actions.foldlM (Cores.step c hd) s = some s') {i k : Fin 2}
    (hi : Backlogged c hd (.ringNodes i) actions s)
    (hk : Backlogged c hd (.ringNodes k) actions s) :
    |(takenFrom c hd (.ringNodes i) actions s * nodePacketWeight c k -
      takenFrom c hd (.ringNodes k) actions s * nodePacketWeight c i : ℤ)| ≤
      nodePacketWeight c i * nodePacketWeight c k := by
  have hs : WorkerInCall c s := run_workerInCall hbefore
  refine (worker_turns hinter).fair hs ?_ h hi hk
  have hfits := hs.fits
  generalize s.workerPc = pc at hfits
  cases pc with
  | wfq n j => exact (hfits n j rfl).2
  | _ => trivial

/-- Both nodes move two packets to their rings, and the forwarding core takes the first. -/
theorem forward_WFQ_fair_example : ∃ s s',
    Cores.run exampleWFQ (twoFlows 8084) freshSwitch (twoFlowsActions ++
      List.replicate 5 (.node 0) ++ List.replicate 5 (.node 1)) = some s ∧
    [Cores.Action.worker, .worker].foldlM (Cores.step exampleWFQ (twoFlows 8084)) s = some s' ∧
    |(takenFrom exampleWFQ (twoFlows 8084) (.ringNodes 0) [.worker, .worker] s *
        nodePacketWeight exampleWFQ 1 -
      takenFrom exampleWFQ (twoFlows 8084) (.ringNodes 1) [.worker, .worker] s *
        nodePacketWeight exampleWFQ 0 : ℤ)| ≤
      nodePacketWeight exampleWFQ 0 * nodePacketWeight exampleWFQ 1 := by
  have hrun : ((Cores.run exampleWFQ (twoFlows 8084) freshSwitch (twoFlowsActions ++
      List.replicate 5 (.node 0) ++ List.replicate 5 (.node 1))).bind fun s =>
      ([Cores.Action.worker, .worker].foldlM (Cores.step exampleWFQ (twoFlows 8084)) s).map
        fun _ => decide
          (Backlogged exampleWFQ (twoFlows 8084) (.ringNodes 0) [.worker, .worker] s ∧
          Backlogged exampleWFQ (twoFlows 8084) (.ringNodes 1) [.worker, .worker] s))
      = some true := by
    decide +kernel
  obtain ⟨s, hs, hrest⟩ := Option.bind_eq_some_iff.mp hrun
  obtain ⟨s', hs', hbusy⟩ := Option.map_eq_some_iff.mp hrest
  obtain ⟨hi, hk⟩ := of_decide_eq_true hbusy
  exact ⟨s, s', hs, hs', forward_WFQ_fair rfl hs hs' hi hk⟩

end Worker

end Dpdk

end VPifo
