import VPifo.Dpdk.Cores
import VPifo.Lib.Runs
import VPifo.Lib.WeightedTurns

/-!
# The calls of the schedulers on their cores

`app_main_loop_flows2nodes` calls its scheduler when the ring of the node has less than 20 packets,
and does not look at the answer of `rte_ring_sp_enqueue`: a packet that does not fit into the ring
is gone.  One call moves one packet, or with WFQ as many as the weights add up to, so that the
bound on the ring is 20 or 19 more than the sum of the weights (`capacity`); the forwarding core
can only make room.

The loops do not check their settings either.  With a priority that no flow or no node has, the
index of a search runs out of the array, and with a name that is not known a null pointer is
called.  `never_stuck_iff` says which settings are safe: those in which every priority is there.
-/

namespace VPifo

namespace Dpdk

open WeightedTurns

/-! ## What the other cores leave alone -/

section Frames

variable {c : SwitchConfig} {hd : Headers} {s s' : Cores} {n m : Fin 2} {ring : Option Buffer}
  {mbuf b : Buffer} {a : Cores.Action}

theorem Cores.Took.frame (h : s.Took ring mbuf s') (hmbuf : b ≠ mbuf) (hring : ring ≠ some b) :
    s'.buffers b = s.buffers b := by
  cases ring with
  | none => rw [Cores.Still.buffers h]
  | some r =>
    obtain ⟨pkt, s₁, htake, hstill⟩ := h
    rw [hstill.buffers]
    exact take_frame htake hmbuf fun hb => hring (congrArg some hb.symm)

theorem Cores.Took.taken {r : Buffer} (h : s.Took (some r) mbuf s') (hne : r ≠ mbuf) :
    ∃ pkt, s.buffers r = pkt :: s'.buffers r ∧ s'.buffers mbuf = [pkt] := by
  obtain ⟨pkt, s₁, htake, hstill⟩ := h
  obtain ⟨rest, hr, rfl⟩ := take_eq htake
  refine ⟨pkt, ?_, ?_⟩
  · rw [hstill.buffers, setBuffer_buffers_of_ne hne, setBuffer_buffers_self]
    exact hr
  · rw [hstill.buffers, setBuffer_buffers_self]

theorem give_pcs (s : Cores) (mbuf ring : Buffer) (size : ℕ) :
    (s.give mbuf ring size).nodePc = s.nodePc ∧
      (s.give mbuf ring size).workerPc = s.workerPc := by
  rw [Cores.give]
  split
  · exact ⟨rfl, rfl⟩
  · split <;> exact ⟨rfl, rfl⟩

theorem enqueueTx_pcs (s : Cores) (mbuf : Buffer) (dstPort : ℕ) :
    (s.enqueueTx c mbuf dstPort).nodePc = s.nodePc ∧
      (s.enqueueTx c mbuf dstPort).workerPc = s.workerPc := by
  rw [Cores.enqueueTx]
  split <;> exact ⟨rfl, rfl⟩

/-- A ring gets longer at its end. -/
theorem give_longer (hne : mbuf ≠ b) (s : Cores) (size : ℕ) :
    s.buffers b <+: (s.give mbuf b size).buffers b := by
  rw [Cores.give]
  split
  · exact List.prefix_rfl
  · split
    · rw [setBuffer_buffers_self]
      exact List.prefix_append _ _
    · show s.buffers b <+: (s.setBuffer mbuf _).buffers b
      rw [setBuffer_buffers_of_ne hne.symm]

/-- The receiver keeps to its own buffers. -/
theorem rxStep_frame (s : Cores) (k : ℕ) (b : Buffer) :
    (s.rxStep c k).nodePc = s.nodePc ∧ (s.rxStep c k).workerPc = s.workerPc ∧
    ((∀ i, b ≠ .nic i) → b ≠ .mbufRx → (∀ i, b ≠ .ringRx i) →
      (s.rxStep c k).buffers b = s.buffers b) := by
  rw [Cores.rxStep]
  split
  · dsimp only
    split
    · exact ⟨rfl, rfl, fun _ _ _ => rfl⟩
    · refine ⟨rfl, rfl, fun hnic hmbuf _ => ?_⟩
      rw [setBuffer_buffers_of_ne hmbuf, setBuffer_buffers_of_ne (hnic _)]
  · split
    · refine ⟨rfl, rfl, fun _ hmbuf hring => ?_⟩
      dsimp only
      rw [setBuffer_buffers_of_ne (hring _), setBuffer_buffers_of_ne hmbuf]
    · exact ⟨rfl, rfl, fun _ _ _ => rfl⟩

/-- `app_main_loop_rx2flows` only adds to the rings of the flows. -/
theorem rx2flowsStep_frame (hd : Headers) (s : Cores) (b : Buffer) :
    (s.rx2flowsStep c hd).nodePc = s.nodePc ∧ (s.rx2flowsStep c hd).workerPc = s.workerPc ∧
    ((∀ i, b ≠ .ringRx i) → b ≠ .rx2flowsMbuf →
      s.buffers b <+: (s.rx2flowsStep c hd).buffers b ∧
        ((∀ f, b ≠ .ringFlows f) → (s.rx2flowsStep c hd).buffers b = s.buffers b)) := by
  rw [Cores.rx2flowsStep]
  split
  · rw [Cores.sortPacket]
    split
    · refine ⟨(enqueueTx_pcs s _ _).1, (enqueueTx_pcs s _ _).2, fun _ hmbuf => ?_⟩
      dsimp only
      rw [enqueueTx_frame hmbuf]
      exact ⟨List.prefix_rfl, fun _ => rfl⟩
    · split
      · next f _ =>
        refine ⟨(give_pcs s _ _ _).1, (give_pcs s _ _ _).2, fun _ hmbuf => ⟨?_, fun hflow => ?_⟩⟩
        · by_cases hb : b = .ringFlows f
          · subst hb
            exact give_longer (by simp) s _
          · dsimp only
            rw [give_frame hmbuf hb]
        · exact give_frame hmbuf (hflow f) s _
      · refine ⟨(enqueueTx_pcs s _ _).1, (enqueueTx_pcs s _ _).2, fun _ hmbuf => ?_⟩
        dsimp only
        rw [enqueueTx_frame hmbuf]
        exact ⟨List.prefix_rfl, fun _ => rfl⟩
  · split
    · exact ⟨rfl, rfl, fun _ _ => ⟨List.prefix_rfl, fun _ => rfl⟩⟩
    · next pkt s₁ htake =>
      refine ⟨(take_nodePc htake).1, (take_nodePc htake).2, fun hring hmbuf => ?_⟩
      rw [take_frame htake hmbuf (hring _)]
      exact ⟨List.prefix_rfl, fun _ => rfl⟩

/-- **What only the core of a node changes**: where it is, its buffer, and what is taken from its
flows.  From its ring only the forwarding core takes. -/
theorem step_frame_node (h : Cores.step c hd s a = some s') (ha : a ≠ .node n) :
    s'.nodePc n = s.nodePc n ∧ s'.buffers (.nodeMbuf n) = s.buffers (.nodeMbuf n) ∧
    (s'.buffers (.ringNodes n) = s.buffers (.ringNodes n) ∨
      ∃ pkt, s.buffers (.ringNodes n) = pkt :: s'.buffers (.ringNodes n)) ∧
    ∀ i, s.buffers (.ringFlows (flowIndex n i)) <+: s'.buffers (.ringFlows (flowIndex n i)) := by
  cases a with
  | arrive pkt =>
    obtain rfl := Option.some.inj h
    have hframe : ∀ b, b ≠ .nic (hd.inPort pkt.id) → (s.arrive hd pkt).buffers b = s.buffers b :=
      fun b hb => setBuffer_buffers_of_ne hb s _
    refine ⟨rfl, hframe _ (by simp), Or.inl (hframe _ (by simp)), fun i => ?_⟩
    rw [hframe _ (by simp)]
  | rx k =>
    obtain rfl := Option.some.inj h
    have hframe := fun b => rxStep_frame (c := c) s k b
    refine ⟨congrFun (hframe .mbufRx).1 n, (hframe _).2.2 (by simp) (by simp) (by simp),
      Or.inl ((hframe _).2.2 (by simp) (by simp) (by simp)), fun i => ?_⟩
    rw [(hframe _).2.2 (by simp) (by simp) (by simp)]
  | rx2flows =>
    obtain rfl := Option.some.inj h
    have hframe := fun b => rx2flowsStep_frame (c := c) hd s b
    exact ⟨congrFun (hframe .mbufRx).1 n, ((hframe _).2.2 (by simp) (by simp)).2 (by simp),
      Or.inl (((hframe _).2.2 (by simp) (by simp)).2 (by simp)),
      fun i => ((hframe _).2.2 (by simp) (by simp)).1⟩
  | node m =>
    have hm : n ≠ m := fun hn => ha (congrArg _ hn.symm)
    rcases nodeStep_cases h with ⟨-, rfl⟩ | ⟨-, -, hpc, l, -, htook⟩
    · refine ⟨congrFun (give_pcs s _ _ _).1 n, give_frame (by simp [hm]) (by simp) s _,
        Or.inl (give_frame (by simp) (by simp [hm]) s _), fun i => ?_⟩
      rw [give_frame (by simp) (by simp)]
    · have hframe : ∀ b, b ≠ .nodeMbuf m → (∀ i, b ≠ .ringFlows (flowIndex m i)) →
          s'.buffers b = s.buffers b := by
        refine fun b hb hflow => htook.frame hb fun hl => ?_
        obtain ⟨i, -, hi⟩ := Option.map_eq_some_iff.mp hl
        exact hflow i hi.symm
      refine ⟨hpc n hm, hframe _ (by simp [hm]) (by simp), Or.inl (hframe _ (by simp) (by simp)),
        fun i => ?_⟩
      rw [hframe _ (by simp) fun j hj => hm ?_]
      have hindex := congrArg nodeOf (Buffer.ringFlows.inj hj)
      rwa [nodeOf_flowIndex, nodeOf_flowIndex] at hindex
  | worker =>
    rcases workerStep_cases h with ⟨-, rfl⟩ | ⟨-, hpc, l, -, htook⟩
    · refine ⟨congrFun (enqueueTx_pcs s _ _).1 n, enqueueTx_frame (by simp) s _,
        Or.inl (enqueueTx_frame (by simp) s _), fun i => ?_⟩
      rw [enqueueTx_frame (by simp)]
    · refine ⟨congrFun hpc n, htook.frame (by simp) (by cases l <;> simp), ?_, fun i => ?_⟩
      · by_cases hl : l = some n
        · subst hl
          obtain ⟨pkt, hpkt, -⟩ := htook.taken (by simp)
          exact Or.inr ⟨pkt, hpkt⟩
        · refine Or.inl (htook.frame (by simp) fun hl' => hl ?_)
          obtain ⟨m, rfl, hm⟩ := Option.map_eq_some_iff.mp hl'
          rw [Buffer.ringNodes.inj hm]
      · rw [htook.frame (by simp) (by cases l <;> simp)]
  | tx portId now answers =>
    obtain ⟨p, -, rfl⟩ := Option.map_eq_some_iff.mp h
    exact ⟨rfl, rfl, Or.inl rfl, fun _ => List.prefix_rfl⟩

/-- **What only the forwarding core changes**: where it is, its buffer, and what is taken from the
nodes. -/
theorem step_frame_worker (h : Cores.step c hd s a = some s') (ha : a ≠ .worker) :
    s'.workerPc = s.workerPc ∧ s'.buffers .workerMbuf = s.buffers .workerMbuf ∧
    ∀ n, s.buffers (.ringNodes n) <+: s'.buffers (.ringNodes n) := by
  cases a with
  | arrive pkt =>
    obtain rfl := Option.some.inj h
    have hframe : ∀ b, b ≠ .nic (hd.inPort pkt.id) → (s.arrive hd pkt).buffers b = s.buffers b :=
      fun b hb => setBuffer_buffers_of_ne hb s _
    refine ⟨rfl, hframe _ (by simp), fun n => ?_⟩
    rw [hframe _ (by simp)]
  | rx k =>
    obtain rfl := Option.some.inj h
    have hframe := fun b => rxStep_frame (c := c) s k b
    refine ⟨(hframe .mbufRx).2.1, (hframe _).2.2 (by simp) (by simp) (by simp), fun n => ?_⟩
    rw [(hframe _).2.2 (by simp) (by simp) (by simp)]
  | rx2flows =>
    obtain rfl := Option.some.inj h
    have hframe := fun b => rx2flowsStep_frame (c := c) hd s b
    exact ⟨(hframe .mbufRx).2.1, ((hframe _).2.2 (by simp) (by simp)).2 (by simp),
      fun n => ((hframe _).2.2 (by simp) (by simp)).1⟩
  | node m =>
    rcases nodeStep_cases h with ⟨-, rfl⟩ | ⟨-, hpc, -, l, -, htook⟩
    · refine ⟨(give_pcs s _ _ _).2, give_frame (by simp) (by simp) s _, fun n => ?_⟩
      by_cases hm : n = m
      · subst hm
        exact give_longer (by simp) s _
      · rw [give_frame (by simp) (by simp [hm])]
    · refine ⟨hpc, htook.frame (by simp) (by cases l <;> simp), fun n => ?_⟩
      rw [htook.frame (by simp) (by cases l <;> simp)]
  | worker => exact absurd rfl ha
  | tx portId now answers =>
    obtain ⟨p, -, rfl⟩ := Option.map_eq_some_iff.mp h
    exact ⟨rfl, rfl, fun _ => List.prefix_rfl⟩

end Frames

/-! ## The rings of the nodes -/

section Rooms

variable (c : SwitchConfig) (n : Fin 2)

/-- How many packets of a flow a call may move. -/
def packetWeight (i : Fin 3) : ℕ := (Cores.flowWeight c n i).toNat

/-- Where a core is in the turns of `flows2nodes_WFQ`. -/
def NodePc.position : NodePc → Position 3
  | .wfq i j => some (i, j.toNat)
  | _ => none

/-- How long the ring of a node can get. -/
def capacity : ℕ :=
  match c.intraNode with
  | .WFQ => 19 + ∑ i, packetWeight c n i
  | _ => 20

/-- A place in the loop that the core can come to. -/
def NodePc.Legal : NodePc → Prop
  | .check => True
  | .sp priority => c.intraNode = .SP ∧ 1 ≤ priority ∧ priority ≤ 3
  | .wfq i j => c.intraNode = .WFQ ∧ 0 ≤ j ∧ j.toNat ≤ packetWeight c n i
  | .pFabric _ _ => c.intraNode = .pFabric

/-- How long the ring can be when the core is there, with the packet in its buffer. -/
def NodePc.allowance : NodePc → ℕ
  | .check => capacity c n
  | .wfq i j => 19 + total (packetWeight c n) (some (i, j.toNat))
  | _ => 19

/-- What holds of a node between two steps. -/
structure InCall (s : Cores) : Prop where
  legal : (s.nodePc n).Legal c n
  room : (s.buffers (.ringNodes n)).length + (s.buffers (.nodeMbuf n)).length ≤
    (s.nodePc n).allowance c n

variable {c n} {hd : Headers} {s s' : Cores} {pc pc' : NodePc} {l : Option (Fin 3)}

theorem capacity_ge (c : SwitchConfig) (n : Fin 2) : 19 ≤ capacity c n := by
  rw [capacity]
  split <;> omega

theorem capacity_of_ne_WFQ (h : c.intraNode ≠ .WFQ) : capacity c n = 20 := by
  rw [capacity]
  split
  · exact absurd ‹_› h
  · rfl

theorem capacity_WFQ (h : c.intraNode = .WFQ) :
    capacity c n = 19 + ∑ i, packetWeight c n i := by
  rw [capacity, h]

/-- The turns follow each other as in the library. -/
theorem turnOf_position (i : Fin 3) : (Cores.turnOf (i + 1)).position = next i := by
  revert i
  decide

theorem turnOf_legal (h : c.intraNode = .WFQ) (i : ℕ) : (Cores.turnOf i).Legal c n := by
  rw [Cores.turnOf]
  split
  · exact ⟨h, le_rfl, Nat.zero_le _⟩
  · trivial

/-- A core that goes on gets where it can be. -/
theorem NodeMove.legal (h : NodeMove c s n pc l pc') (hpc : pc.Legal c n) : pc'.Legal c n := by
  cases h with
  | wait => trivial
  | startSP h _ => exact ⟨h, by decide, by decide⟩
  | startWFQ h _ => exact ⟨h, le_rfl, Nat.zero_le _⟩
  | startPFabric h _ => exact h
  | spNext priority i _ _ =>
    obtain ⟨hintra, hpos, hle⟩ := hpc
    split
    · exact ⟨hintra, by omega, by omega⟩
    · trivial
  | spTake priority i _ => trivial
  | wfqPass i j _ => exact turnOf_legal hpc.1 (i + 1)
  | wfqTake i j hj =>
    obtain ⟨hintra, hpos, -⟩ := hpc
    refine ⟨hintra, by omega, ?_⟩
    rw [packetWeight]
    omega
  | pFabricNext tries ring _ =>
    split
    · exact hpc
    · trivial
  | pFabricTake tries ring => trivial

/-- A packet that is taken has been allowed for. -/
theorem NodeMove.allowance_le (h : NodeMove c s n pc l pc') (hpc : pc.Legal c n)
    (hroom : (s.buffers (.ringNodes n)).length ≤ pc.allowance c n) :
    (s.buffers (.ringNodes n)).length + (if l = none then 0 else 1) ≤ pc'.allowance c n := by
  have hge := capacity_ge c n
  cases h with
  | wait => exact hroom
  | startSP _ hlt => exact Nat.le_of_lt_succ hlt
  | startWFQ _ hlt =>
    refine le_trans (Nat.le_of_lt_succ hlt) ?_
    exact Nat.le_add_right 19 _
  | startPFabric _ hlt => exact Nat.le_of_lt_succ hlt
  | spNext priority i _ _ =>
    refine le_trans hroom ?_
    split
    · exact le_rfl
    · exact hge
  | spTake priority i _ =>
    rw [NodePc.allowance, capacity_of_ne_WFQ (by rw [hpc.1]; simp)]
    exact Nat.succ_le_succ hroom
  | wfqPass i j _ =>
    refine le_trans hroom ?_
    have hfits : WeightedTurns.Fits (packetWeight c n) (some (i, j.toNat)) := hpc.2.2
    have hposition := turnOf_position i
    rw [Cores.turnOf] at hposition ⊢
    split
    · next hnext =>
      rw [dif_pos hnext] at hposition
      have hle : total (packetWeight c n) (some (i, j.toNat)) ≤
          total (packetWeight c n) (some (⟨i + 1, hnext⟩, (0 : ℤ).toNat)) := by
        rw [show (some (⟨i + 1, hnext⟩, (0 : ℤ).toNat) : Position 3) = next i from hposition]
        exact total_le_next (by omega) hpc.2.2
      exact Nat.add_le_add_left hle 19
    · -- the last turn
      rw [NodePc.allowance, NodePc.allowance, capacity_WFQ hpc.1]
      exact Nat.add_le_add_left (total_le hfits) 19
  | wfqTake i j hj =>
    obtain ⟨hintra, hpos, -⟩ := hpc
    have hsucc : (j + 1).toNat = j.toNat + 1 := by omega
    rw [NodePc.allowance, hsucc, total_serve, if_neg (by simp), ← add_assoc]
    exact Nat.succ_le_succ hroom
  | pFabricNext tries ring _ =>
    refine le_trans hroom ?_
    split
    · exact le_rfl
    · exact hge
  | pFabricTake tries ring =>
    have hintra : c.intraNode = .pFabric := hpc
    rw [NodePc.allowance, capacity_of_ne_WFQ (by rw [hintra]; simp)]
    exact Nat.succ_le_succ hroom

/-- A packet is in the buffer or in the ring, or it is refused. -/
theorem give_length {mbuf ring : Buffer} (hne : mbuf ≠ ring) (s : Cores) (size : ℕ) :
    ((s.give mbuf ring size).buffers ring).length + ((s.give mbuf ring size).buffers mbuf).length ≤
      (s.buffers ring).length + (s.buffers mbuf).length := by
  rw [give_mbuf hne, List.length_tail, Cores.give]
  split
  · omega
  · next hmbuf =>
    rw [hmbuf, List.length_cons]
    split
    · rw [setBuffer_buffers_self, List.length_append, List.length_singleton]
      omega
    · show ((s.setBuffer mbuf _).buffers ring).length + _ ≤ _
      rw [setBuffer_buffers_of_ne hne.symm]
      omega

/-- **Every step keeps the bound on the ring.** -/
theorem InCall.step (hs : InCall c n s) {a : Cores.Action} (h : Cores.step c hd s a = some s') :
    InCall c n s' := by
  by_cases ha : a = .node n
  · subst ha
    rcases nodeStep_cases h with ⟨-, rfl⟩ | ⟨hmbuf, -, -, l, hmove, htook⟩
    · have hpc := congrFun (give_pcs s (.nodeMbuf n) (.ringNodes n) c.ringNodesSize).1 n
      refine ⟨by rw [hpc]; exact hs.legal, ?_⟩
      rw [hpc]
      exact (give_length (by simp) s _).trans hs.room
    · have hroom := hs.room
      rw [hmbuf, List.length_nil, add_zero] at hroom
      refine ⟨hmove.legal hs.legal, ?_⟩
      have hle := hmove.allowance_le hs.legal hroom
      rw [htook.frame (by simp) (by cases l <;> simp)]
      cases l with
      | none =>
        rw [Cores.Still.buffers htook, hmbuf]
        exact hle
      | some i =>
        obtain ⟨pkt, -, hpkt⟩ := htook.taken (by simp)
        rw [hpkt]
        exact hle
  · obtain ⟨hpc, hmbuf, hring, -⟩ := step_frame_node h ha
    refine ⟨by rw [hpc]; exact hs.legal, ?_⟩
    rw [hpc, hmbuf]
    refine le_trans (Nat.add_le_add_right ?_ _) hs.room
    rcases hring with hring | ⟨pkt, hring⟩
    · rw [hring]
    · rw [hring, List.length_cons]
      exact Nat.le_succ _

theorem run_inCall {ports : Switch} {actions : List Cores.Action}
    (h : Cores.run c hd ports actions = some s) : InCall c n s := by
  refine Runs.foldlM_keeps (P := InCall c n) (fun a _ s s' hs hstep => hs.step hstep) ?_ h
  exact ⟨trivial, Nat.zero_le _⟩

/-- **The ring of a node stays short**, and if it holds `capacity` packets it never refuses one,
though the scheduler would not notice. -/
theorem ringNodes_room {ports : Switch} {actions : List Cores.Action}
    (h : Cores.run c hd ports actions = some s) (n : Fin 2) :
    (s.buffers (.ringNodes n)).length ≤ capacity c n ∧
    (capacity c n ≤ c.ringNodesSize → s.buffers (.nodeMbuf n) ≠ [] →
      (s.buffers (.ringNodes n)).length < c.ringNodesSize) := by
  obtain ⟨hlegal, hroom⟩ := run_inCall (n := n) h
  have hle : (s.nodePc n).allowance c n ≤ capacity c n := by
    have hge := capacity_ge c n
    generalize s.nodePc n = pc at hlegal
    cases pc with
    | check => exact le_rfl
    | sp priority => exact hge
    | wfq i j =>
      have hfits : WeightedTurns.Fits (packetWeight c n) (some (i, j.toNat)) := hlegal.2.2
      rw [capacity_WFQ hlegal.1]
      exact Nat.add_le_add_left (total_le hfits) 19
    | pFabric tries ring => exact hge
  refine ⟨by omega, fun hsize hmbuf => ?_⟩
  have hpos := List.length_pos_iff.mpr hmbuf
  omega

/-- Flow 3 has a packet, and the ring of its node has room for it. -/
theorem ringNodes_room_example : ∃ s, Cores.run exampleSwitch exampleHeaders freshSwitch
    (exampleActions.take 7) = some s ∧ s.buffers (.nodeMbuf 1) = [shortPacket] ∧
    (s.buffers (.ringNodes 1)).length < 1023 :=
  ⟨_, rfl, rfl, (ringNodes_room (show Cores.run exampleSwitch exampleHeaders freshSwitch
    (exampleActions.take 7) = _ from rfl) 1).2 (by decide) (List.cons_ne_nil shortPacket [])⟩

end Rooms

/-! ## Settings that are safe -/

section Safe

variable {c : SwitchConfig} {hd : Headers} {s s' : Cores} {n : Fin 2} {priority : ℤ}

/-- The schedulers are known, and whoever goes by strict priority finds every priority. -/
structure Sane (c : SwitchConfig) : Prop where
  intra : c.intraNode ≠ .other
  inter : c.interNode ≠ .other
  flows : c.intraNode = .SP → ∀ (n : Fin 2) (priority : ℤ), 1 ≤ priority → priority ≤ 3 →
    ∃ i : Fin 3, Cores.flowPriority c n i = priority
  nodes : c.interNode = .SP → ∀ priority : ℤ, 1 ≤ priority → priority ≤ 2 →
    ∃ n : Fin 2, Cores.nodePriority c n = priority

/-- A place in its loop that the forwarding core can come to. -/
def WorkerPc.Legal (c : SwitchConfig) : WorkerPc → Prop
  | .check => True
  | .sp priority => c.interNode = .SP ∧ 1 ≤ priority ∧ priority ≤ 2
  | .wfq _ _ => c.interNode = .WFQ

theorem WorkerMove.legal {pc pc' : WorkerPc} {l : Option (Fin 2)} (h : WorkerMove c s pc l pc')
    (hpc : pc.Legal c) : pc'.Legal c := by
  cases h with
  | wait => trivial
  | startSP h => exact ⟨h, by decide, by decide⟩
  | startWFQ h => exact h
  | spNext priority n _ _ =>
    obtain ⟨hinter, hpos, hle⟩ := hpc
    split
    · exact ⟨hinter, by omega, by omega⟩
    · trivial
  | spTake priority n _ => trivial
  | wfqPass n j _ =>
    rw [Cores.nodeTurn]
    split
    · exact hpc
    · trivial
  | wfqTake n j _ => exact hpc

theorem worker_legal_step (hs : s.workerPc.Legal c) {a : Cores.Action}
    (h : Cores.step c hd s a = some s') : s'.workerPc.Legal c := by
  by_cases ha : a = .worker
  · subst ha
    rcases workerStep_cases h with ⟨-, rfl⟩ | ⟨-, -, l, hmove, -⟩
    · rw [(enqueueTx_pcs s _ _).2]
      exact hs
    · exact hmove.legal hs
  · rw [(step_frame_worker h ha).1]
    exact hs

theorem run_worker_legal {ports : Switch} {actions : List Cores.Action}
    (h : Cores.run c hd ports actions = some s) : s.workerPc.Legal c :=
  Runs.foldlM_keeps (P := fun s => s.workerPc.Legal c)
    (fun _ _ _ _ hs hstep => worker_legal_step hs hstep) trivial h

theorem flowOf_ne_none_iff (s : Cores) (n : Fin 2) (priority : ℤ) :
    flowOf (s.context c n) priority ≠ none ↔
      ∃ i : Fin 3, Cores.flowPriority c n i = priority := by
  rw [flowOf, Ne, List.find?_eq_none]
  constructor
  · intro h
    by_contra hno
    exact h fun i _ hi => hno ⟨i, of_decide_eq_true hi⟩
  · rintro ⟨i, hi⟩ h
    exact h i (List.mem_finRange i) (decide_eq_true hi)

theorem nodeFor_ne_none_iff (c : SwitchConfig) (priority : ℤ) :
    Cores.nodeFor c priority ≠ none ↔ ∃ n : Fin 2, Cores.nodePriority c n = priority := by
  rw [Cores.nodeFor, Ne, List.find?_eq_none]
  constructor
  · intro h
    by_contra hno
    exact h fun n _ hn => hno ⟨n, of_decide_eq_true hn⟩
  · rintro ⟨n, hn⟩ h
    exact h n (List.mem_finRange n) (decide_eq_true hn)

/-- With safe settings there is a step. -/
theorem Sane.nodeStep_ne_none (hc : Sane c) (hs : (s.nodePc n).Legal c n) :
    s.nodeStep c n ≠ none := by
  rw [Cores.nodeStep]
  split
  · simp
  · generalize s.nodePc n = pc at hs
    cases pc with
    | check =>
      rw [Cores.callNode]
      split
      · rw [Cores.startNode]
        split
        · simp
        · simp
        · simp
        · exact absurd ‹_› hc.intra
      · simp
    | sp priority =>
      obtain ⟨hintra, hpos, hle⟩ := hs
      rw [Cores.callNode, Ne, Option.map_eq_none_iff]
      exact (flowOf_ne_none_iff s n priority).mpr (hc.flows hintra n priority hpos hle)
    | wfq i j => simp [Cores.callNode]
    | pFabric tries ring => simp [Cores.callNode]

theorem Sane.workerStep_ne_none (hc : Sane c) (hs : s.workerPc.Legal c) :
    s.workerStep c ≠ none := by
  rw [Cores.workerStep]
  split
  · simp
  · generalize s.workerPc = pc at hs
    cases pc with
    | check =>
      rw [Cores.callWorker]
      split
      · rw [Cores.startWorker]
        split
        · simp
        · simp
        · exact absurd ‹_› hc.inter
      · simp
    | sp priority =>
      obtain ⟨hinter, hpos, hle⟩ := hs
      rw [Cores.callWorker, Ne, Option.map_eq_none_iff]
      exact (nodeFor_ne_none_iff c priority).mpr (hc.nodes hinter priority hpos hle)
    | wfq n j => simp [Cores.callWorker]

/-! ### A search in empty rings -/

/-- No core ever gets stuck. -/
def NeverStuck (c : SwitchConfig) (hd : Headers) : Prop :=
  ∀ ports actions s, Cores.run c hd ports actions = some s →
    (∀ n, s.nodeStep c n ≠ none) ∧ s.workerStep c ≠ none

theorem start_wantsMore (c : SwitchConfig) : (Cores.start c freshSwitch).wantsMore c :=
  ⟨show 0 < 20 by decide, show (0 : UInt32) - 0 < 10000 by decide⟩

/-- The switch after some steps and one more. -/
theorem run_snoc {ports : Switch} {actions : List Cores.Action} {a : Cores.Action}
    (h : Cores.run c hd ports actions = some s) (hstep : Cores.step c hd s a = some s') :
    Cores.run c hd ports (actions ++ [a]) = some s' := by
  rw [Cores.run, List.foldlM_append]
  exact Option.bind_eq_some_iff.mpr ⟨s, h, by simpa using hstep⟩

/-- With nothing in the rings a node looks for every priority. -/
theorem NeverStuck.searches (h : NeverStuck c hd) (hintra : c.intraNode = .SP) (n : Fin 2) :
    ∀ k : ℕ, k < 3 → (∃ actions, Cores.run c hd freshSwitch actions =
      some ((Cores.start c freshSwitch).setNodePc n (.sp (k + 1)))) ∧
        ∃ i : Fin 3, Cores.flowPriority c n i = k + 1 := by
  -- a search that has been reached finds its flow
  have hfound : ∀ (k : ℕ) (actions : List Cores.Action), Cores.run c hd freshSwitch actions =
      some ((Cores.start c freshSwitch).setNodePc n (.sp (k + 1))) →
      flowOf (((Cores.start c freshSwitch).setNodePc n (.sp (k + 1))).context c n) (k + 1) ≠
        none := by
    intro k actions hrun hnone
    refine (h _ _ _ hrun).1 n ?_
    rw [Cores.nodeStep, if_neg (by simp [Cores.setNodePc, Cores.start]), setNodePc_nodePc_self,
      Cores.callNode, hnone]
    rfl
  intro k
  induction k with
  | zero =>
    intro _
    have hstart : Cores.run c hd freshSwitch [.node n] =
        some ((Cores.start c freshSwitch).setNodePc n (.sp ((0 : ℕ) + 1))) := by
      show ((Cores.start c freshSwitch).nodeStep c n).bind some = _
      rw [Cores.nodeStep, if_neg (by simp [Cores.start])]
      show ((Cores.start c freshSwitch).callNode c n .check).bind some = _
      rw [Cores.callNode, if_pos (by simp [Cores.start]), Cores.startNode, hintra]
      rfl
    exact ⟨⟨_, hstart⟩, (flowOf_ne_none_iff _ n _).mp (hfound 0 _ hstart)⟩
  | succ k ih =>
    intro hk
    obtain ⟨⟨actions, hrun⟩, -⟩ := ih (by omega)
    obtain ⟨i, hi⟩ := Option.ne_none_iff_exists'.mp (hfound k actions hrun)
    have hnext : Cores.run c hd freshSwitch (actions ++ [.node n]) =
        some ((Cores.start c freshSwitch).setNodePc n (.sp ((k + 1 : ℕ) + 1))) := by
      refine run_snoc hrun ?_
      show ((Cores.start c freshSwitch).setNodePc n (.sp (k + 1))).nodeStep c n = _
      rw [Cores.nodeStep, if_neg (by simp [Cores.setNodePc, Cores.start]), setNodePc_nodePc_self,
        Cores.callNode, hi]
      show some (((Cores.start c freshSwitch).setNodePc n (.sp (k + 1))).setNodePc n
        (if ((k : ℤ) + 1) < 3 then .sp (k + 1 + 1) else .check)) = _
      rw [if_pos (by omega), Cores.setNodePc, Cores.setNodePc]
      dsimp only
      rw [Function.update_idem]
      push_cast
      rfl
    exact ⟨⟨_, hnext⟩, (flowOf_ne_none_iff _ n _).mp (hfound (k + 1) _ hnext)⟩

/-- And so does the forwarding core. -/
theorem NeverStuck.searches_nodes (h : NeverStuck c hd) (hinter : c.interNode = .SP) :
    ∀ k : ℕ, k < 2 → (∃ actions, Cores.run c hd freshSwitch actions =
      some { Cores.start c freshSwitch with workerPc := .sp (k + 1) }) ∧
        ∃ n : Fin 2, Cores.nodePriority c n = k + 1 := by
  have hfound : ∀ (k : ℕ) (actions : List Cores.Action), Cores.run c hd freshSwitch actions =
      some { Cores.start c freshSwitch with workerPc := .sp (k + 1) } →
      Cores.nodeFor c (k + 1) ≠ none := by
    intro k actions hrun hnone
    refine (h _ _ _ hrun).2 ?_
    rw [Cores.workerStep, if_neg (by simp [Cores.start]), Cores.callWorker, hnone]
    rfl
  intro k
  induction k with
  | zero =>
    intro _
    have hstart : Cores.run c hd freshSwitch [.worker] =
        some { Cores.start c freshSwitch with workerPc := .sp ((0 : ℕ) + 1) } := by
      show ((Cores.start c freshSwitch).workerStep c).bind some = _
      rw [Cores.workerStep, if_neg (by simp [Cores.start])]
      show ((Cores.start c freshSwitch).callWorker c .check).bind some = _
      rw [Cores.callWorker, if_pos (start_wantsMore c), Cores.startWorker, hinter]
      rfl
    exact ⟨⟨_, hstart⟩, (nodeFor_ne_none_iff c _).mp (hfound 0 _ hstart)⟩
  | succ k ih =>
    intro hk
    obtain ⟨⟨actions, hrun⟩, -⟩ := ih (by omega)
    obtain ⟨n, hn⟩ := Option.ne_none_iff_exists'.mp (hfound k actions hrun)
    have hnext : Cores.run c hd freshSwitch (actions ++ [.worker]) =
        some { Cores.start c freshSwitch with workerPc := .sp ((k + 1 : ℕ) + 1) } := by
      refine run_snoc hrun ?_
      show Cores.workerStep c { Cores.start c freshSwitch with workerPc := .sp (k + 1) } = _
      rw [Cores.workerStep, if_neg (by simp [Cores.start]), Cores.callWorker, hn]
      show some { Cores.start c freshSwitch with
        workerPc := if ((k : ℤ) + 1) < 2 then .sp (k + 1 + 1) else .check } = _
      rw [if_pos (by omega)]
      push_cast
      rfl
    exact ⟨⟨_, hnext⟩, (nodeFor_ne_none_iff c _).mp (hfound (k + 1) _ hnext)⟩

/-- **When no core ever reads outside of an array or calls a null pointer**, whatever comes in and
however the steps of the cores are mixed. -/
theorem never_stuck_iff (c : SwitchConfig) (hd : Headers) : NeverStuck c hd ↔ Sane c := by
  constructor
  · intro h
    have hstart : Cores.run c hd freshSwitch [] = some (Cores.start c freshSwitch) := rfl
    obtain ⟨hnode, hworker⟩ := h _ _ _ hstart
    refine ⟨fun hintra => hnode 0 ?_, fun hinter => hworker ?_, fun hintra n priority hpos hle => ?_,
      fun hinter priority hpos hle => ?_⟩
    · rw [Cores.nodeStep, if_neg (by simp [Cores.start])]
      show (Cores.start c freshSwitch).callNode c 0 .check = none
      rw [Cores.callNode, if_pos (by simp [Cores.start]), Cores.startNode, hintra]
    · rw [Cores.workerStep, if_neg (by simp [Cores.start])]
      show (Cores.start c freshSwitch).callWorker c .check = none
      rw [Cores.callWorker, if_pos (start_wantsMore c), Cores.startWorker, hinter]
    · obtain ⟨-, i, hi⟩ := h.searches hintra n (priority - 1).toNat (by omega)
      exact ⟨i, by omega⟩
    · obtain ⟨-, n, hn⟩ := h.searches_nodes hinter (priority - 1).toNat (by omega)
      exact ⟨n, by omega⟩
  · intro hc ports actions s hrun
    exact ⟨fun n => hc.nodeStep_ne_none (run_inCall hrun).legal,
      hc.workerStep_ne_none (run_worker_legal hrun)⟩

end Safe

end Dpdk

end VPifo
