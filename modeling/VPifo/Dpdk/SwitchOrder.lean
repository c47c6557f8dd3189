import VPifo.Dpdk.Cores
import VPifo.Lib.Routes
import VPifo.Lib.Runs
import Mathlib.Data.List.FinRange

/-!
# The order of the packets in the software switch

A packet of a flow goes through ten queues on its way from one network card to another, and seven
cores move it on, none of which waits for the others.  Here the switch is seen as a net of places
with a fixed route for each class of packets: one class for each flow, one for the packets of the
host that belong to no flow, and one for each other port.  Whatever the order in which the cores
take their steps, the switch takes steps of that net (`step_run`), so that the general theorems
about such nets hold of it.

The classes share the buffers in which `app_main_loop_rx` and `app_main_loop_rx2flows` hold the
packets of one port after another.  That a packet there goes on to the ring of its own port is
because the index of the loop stays until the buffer is empty (`Tagged`).
-/

namespace VPifo

namespace Dpdk

open Routes

/-! ## Places, classes and routes -/

/-- Where a packet can be. -/
inductive Place where
  | buffer (b : Buffer)
  | ringTx (portId : ℕ)
  | mbufTx (portId : ℕ)
  | wire (portId : ℕ)
  deriving DecidableEq

/-- What decides about the way of a packet. -/
inductive PacketClass where
  | other (i : ℕ)
  | flow (f : Fin 6)
  | unmatched
  deriving DecidableEq

/-- From a network card to where the packets are sorted. -/
def inbound (i : ℕ) : List Place :=
  [.buffer .rx2flowsMbuf, .buffer (.ringRx i), .buffer .mbufRx, .buffer (.nic i)]

/-- From an output queue to the wire. -/
def outbound (portId : ℕ) : List Place := [.wire portId, .mbufTx portId, .ringTx portId]

section Routes

variable (c : SwitchConfig) (hd : Headers)

/-- The class of a packet. -/
def classOf (id : ℕ) : PacketClass :=
  if hd.inPort id ≠ c.port then .other (hd.inPort id)
  else match Cores.flowFor c hd id with
    | some f => .flow f
    | none => .unmatched

/-- The port at which a class comes in. -/
def PacketClass.inPort : PacketClass → ℕ
  | .other i => i
  | .flow _ => c.port
  | .unmatched => c.port

/-- The port at which a class goes out. -/
def PacketClass.outPort : PacketClass → ℕ
  | .other _ => c.port
  | .flow _ => c.defaultPort
  | .unmatched => c.defaultPort

/-- What is between, for the packets of a flow. -/
def PacketClass.scheduled : PacketClass → List Place
  | .flow f => [.buffer .workerMbuf, .buffer (.ringNodes (nodeOf f)),
      .buffer (.nodeMbuf (nodeOf f)), .buffer (.ringFlows f)]
  | _ => []

/-- The route of a class, from its end to its beginning. -/
def route (k : PacketClass) : List Place :=
  outbound (k.outPort c) ++ (k.scheduled ++ inbound (k.inPort c))

/-- The packets of the switch in the places of the net. -/
def Cores.held (s : Cores) : Place → List ℕ
  | .buffer b => (s.buffers b).map Packet.id
  | .ringTx portId => (s.ports portId).ring.map Packet.id
  | .mbufTx portId => (s.ports portId).mbufTx.map Packet.id
  | .wire portId => (s.ports portId).wire.map Packet.id

/-- The switch as a net. -/
def Cores.net (s : Cores) : Net Place ℕ :=
  ⟨s.held, s.received.map Packet.id, (s.refused.map Packet.id : List ℕ)⟩

/-- The packets in the buffers that are shared have come in at the port that is dealt with. -/
structure Tagged (s : Cores) : Prop where
  rx : ∀ pkt ∈ s.buffers .mbufRx, hd.inPort pkt.id = s.rxPort
  rx2flows : ∀ pkt ∈ s.buffers .rx2flowsMbuf, hd.inPort pkt.id = s.rx2flowsPort
  /-- There is one packet at a time. -/
  single : (s.buffers .rx2flowsMbuf).length ≤ 1

end Routes

section Classes

variable {c : SwitchConfig} {hd : Headers} {k : PacketClass} {id i : ℕ} {f : Fin 6} {n : Fin 2}

theorem route_nodup (c : SwitchConfig) (k : PacketClass) : (route c k).Nodup := by
  cases k <;> simp [route, outbound, inbound, PacketClass.scheduled]

@[simp] theorem classOf_inPort (id : ℕ) : (classOf c hd id).inPort c = hd.inPort id := by
  rw [classOf]
  split
  · rfl
  · next h =>
    rw [not_not] at h
    split <;> exact h.symm

theorem classOf_of_ne (h : hd.inPort id ≠ c.port) : classOf c hd id = .other (hd.inPort id) :=
  if_pos h

theorem classOf_of_flowFor (h : hd.inPort id = c.port) (hf : Cores.flowFor c hd id = some f) :
    classOf c hd id = .flow f := by
  rw [classOf, if_neg (not_not.mpr h), hf]

theorem classOf_unmatched (h : hd.inPort id = c.port) (hf : Cores.flowFor c hd id = none) :
    classOf c hd id = .unmatched := by
  rw [classOf, if_neg (not_not.mpr h), hf]

theorem mem_route_nic (h : .buffer (.nic i) ∈ route c k) : k.inPort c = i := by
  cases k <;> simpa [route, outbound, inbound, PacketClass.scheduled, eq_comm] using h

theorem mem_route_ringRx (h : .buffer (.ringRx i) ∈ route c k) : k.inPort c = i := by
  cases k <;> simpa [route, outbound, inbound, PacketClass.scheduled, eq_comm] using h

theorem mem_route_ringFlows (h : .buffer (.ringFlows f) ∈ route c k) : k = .flow f := by
  cases k <;> simp_all [route, outbound, inbound, PacketClass.scheduled]

theorem mem_route_nodeMbuf (h : .buffer (.nodeMbuf n) ∈ route c k) :
    ∃ f, k = .flow f ∧ nodeOf f = n := by
  cases k <;> simp_all [route, outbound, inbound, PacketClass.scheduled]

theorem mem_route_ringNodes (h : .buffer (.ringNodes n) ∈ route c k) :
    ∃ f, k = .flow f ∧ nodeOf f = n := by
  cases k <;> simp_all [route, outbound, inbound, PacketClass.scheduled]

theorem mem_route_workerMbuf (h : .buffer .workerMbuf ∈ route c k) : ∃ f, k = .flow f := by
  cases k <;> simp_all [route, outbound, inbound, PacketClass.scheduled]

theorem mem_route_outbound {portId : ℕ} {p : Place} (hp : p ∈ outbound portId)
    (h : p ∈ route c k) : k.outPort c = portId := by
  simp only [outbound, List.mem_cons, List.not_mem_nil, or_false] at hp
  obtain rfl | rfl | rfl := hp <;> cases k <;>
    simpa [route, outbound, inbound, PacketClass.scheduled, eq_comm] using h

/-! ### From place to place -/

theorem follows_nic (h : k.inPort c = i) :
    Follows (route c) k (.buffer (.nic i)) (.buffer .mbufRx) :=
  ⟨outbound (k.outPort c) ++ (k.scheduled ++ [.buffer .rx2flowsMbuf, .buffer (.ringRx i)]), [], by
    simp [route, inbound, h]⟩

theorem follows_mbufRx (h : k.inPort c = i) :
    Follows (route c) k (.buffer .mbufRx) (.buffer (.ringRx i)) :=
  ⟨outbound (k.outPort c) ++ (k.scheduled ++ [.buffer .rx2flowsMbuf]), [.buffer (.nic i)], by
    simp [route, inbound, h]⟩

theorem follows_ringRx (h : k.inPort c = i) :
    Follows (route c) k (.buffer (.ringRx i)) (.buffer .rx2flowsMbuf) :=
  ⟨outbound (k.outPort c) ++ k.scheduled, [.buffer .mbufRx, .buffer (.nic i)], by
    simp [route, inbound, h]⟩

theorem follows_rx2flowsMbuf (h : k.scheduled = []) :
    Follows (route c) k (.buffer .rx2flowsMbuf) (.ringTx (k.outPort c)) :=
  ⟨[.wire (k.outPort c), .mbufTx (k.outPort c)], (inbound (k.inPort c)).tail, by
    simp [route, outbound, inbound, h]⟩

theorem follows_rx2flowsMbuf_flow (f : Fin 6) :
    Follows (route c) (.flow f) (.buffer .rx2flowsMbuf) (.buffer (.ringFlows f)) :=
  ⟨outbound c.defaultPort ++ [.buffer .workerMbuf, .buffer (.ringNodes (nodeOf f)),
    .buffer (.nodeMbuf (nodeOf f))], (inbound c.port).tail, by
    simp [route, inbound, PacketClass.scheduled, PacketClass.inPort, PacketClass.outPort]⟩

theorem follows_ringFlows (h : nodeOf f = n) :
    Follows (route c) (.flow f) (.buffer (.ringFlows f)) (.buffer (.nodeMbuf n)) :=
  ⟨outbound c.defaultPort ++ [.buffer .workerMbuf, .buffer (.ringNodes n)], inbound c.port, by
    simp [route, PacketClass.scheduled, PacketClass.inPort, PacketClass.outPort, h]⟩

theorem follows_nodeMbuf (h : nodeOf f = n) :
    Follows (route c) (.flow f) (.buffer (.nodeMbuf n)) (.buffer (.ringNodes n)) :=
  ⟨outbound c.defaultPort ++ [.buffer .workerMbuf], .buffer (.ringFlows f) :: inbound c.port, by
    simp [route, PacketClass.scheduled, PacketClass.inPort, PacketClass.outPort, h]⟩

theorem follows_ringNodes (h : nodeOf f = n) :
    Follows (route c) (.flow f) (.buffer (.ringNodes n)) (.buffer .workerMbuf) :=
  ⟨outbound c.defaultPort, .buffer (.nodeMbuf n) :: .buffer (.ringFlows f) :: inbound c.port, by
    simp [route, PacketClass.scheduled, PacketClass.inPort, PacketClass.outPort, h]⟩

theorem follows_workerMbuf (f : Fin 6) :
    Follows (route c) (.flow f) (.buffer .workerMbuf) (.ringTx c.defaultPort) :=
  ⟨[.wire c.defaultPort, .mbufTx c.defaultPort], .buffer (.ringNodes (nodeOf f)) ::
    .buffer (.nodeMbuf (nodeOf f)) :: .buffer (.ringFlows f) :: inbound c.port, by
    simp [route, outbound, PacketClass.scheduled, PacketClass.inPort, PacketClass.outPort]⟩

theorem follows_ringTx {portId : ℕ} (h : k.outPort c = portId) :
    Follows (route c) k (.ringTx portId) (.mbufTx portId) :=
  ⟨[.wire portId], k.scheduled ++ inbound (k.inPort c), by simp [route, outbound, h]⟩

theorem follows_mbufTx {portId : ℕ} (h : k.outPort c = portId) :
    Follows (route c) k (.mbufTx portId) (.wire portId) :=
  ⟨[], .ringTx portId :: (k.scheduled ++ inbound (k.inPort c)), by simp [route, outbound, h]⟩

end Classes

/-! ## One operation -/

section Operations

variable {c : SwitchConfig} {hd : Headers} {s s' : Cores} {pkt : Packet} {ring mbuf b : Buffer}

theorem net_setBuffer (s : Cores) (b : Buffer) (pkts : List Packet) :
    (s.setBuffer b pkts).net = s.net.put (.buffer b) (pkts.map Packet.id) := by
  refine Net.ext (funext fun p => ?_) rfl rfl
  by_cases hp : p = .buffer b
  · subst hp
    rw [Net.put_held_self]
    exact congrArg (List.map Packet.id) (setBuffer_buffers_self s b pkts)
  · rw [Net.put_held_of_ne _ hp]
    cases p with
    | buffer b' =>
      exact congrArg (List.map Packet.id)
        (setBuffer_buffers_of_ne (fun h => hp (congrArg Place.buffer h)) s pkts)
    | ringTx portId => rfl
    | mbufTx portId => rfl
    | wire portId => rfl

/-- A packet that is in a buffer has the buffer on its route. -/
theorem mem_route (hs : Orderly (classOf c hd) (route c) s.net) (h : pkt ∈ s.buffers b) :
    .buffer b ∈ route c (classOf c hd pkt.id) :=
  hs.routed (.buffer b) pkt.id (List.mem_map_of_mem h)

theorem run_take (h : s.take ring mbuf = some (pkt, s')) (hempty : s.buffers mbuf = [])
    (hfollows : ∀ pkt ∈ s.buffers ring,
      Follows (route c) (classOf c hd pkt.id) (.buffer ring) (.buffer mbuf)) :
    Run (classOf c hd) (route c) s.net s'.net := by
  obtain ⟨rest, hring, rfl⟩ := take_eq h
  have hmove : Routes.Step (classOf c hd) (route c) s.net _ := .move pkt.id
    (rest.map Packet.id) (Place.buffer ring) (Place.buffer mbuf) (congrArg (List.map Packet.id) hring)
    (hfollows pkt (by rw [hring]; exact List.mem_cons_self))
  have hmbuf : s.net.held (.buffer mbuf) = [] := congrArg (List.map Packet.id) hempty
  rw [hmbuf] at hmove
  rw [net_setBuffer, net_setBuffer]
  exact .single hmove

/-- A packet that is refused is lost. -/
theorem net_refused {rest : List Packet} (hmbuf : s.buffers mbuf = pkt :: rest) :
    Routes.Step (classOf c hd) (route c) s.net
      { s.setBuffer mbuf rest with refused := s.refused ++ [pkt] : Cores }.net := by
  have hlose : Routes.Step (classOf c hd) (route c) s.net _ := .lose pkt.id
    (rest.map Packet.id) (Place.buffer mbuf) (congrArg (List.map Packet.id) hmbuf)
  have hnet : { s.setBuffer mbuf rest with refused := s.refused ++ [pkt] : Cores }.net =
      { s.net.put (.buffer mbuf) (rest.map Packet.id) with lost := pkt.id ::ₘ s.net.lost } := by
    have hheld := congrArg Net.held (net_setBuffer s mbuf rest)
    refine Net.ext hheld rfl ?_
    show (((s.refused ++ [pkt]).map Packet.id : List ℕ) : Multiset ℕ) =
      pkt.id ::ₘ (s.refused.map Packet.id : List ℕ)
    rw [List.map_append, ← Multiset.coe_add, add_comm]
    rfl
  rw [hnet]
  exact hlose

theorem run_give (size : ℕ) (hfollows : ∀ pkt ∈ s.buffers mbuf,
      Follows (route c) (classOf c hd pkt.id) (.buffer mbuf) (.buffer ring)) :
    Run (classOf c hd) (route c) s.net (s.give mbuf ring size).net := by
  rw [Cores.give]
  split
  · exact .refl
  · next pkt rest hmbuf =>
    split
    · have hmove : Routes.Step (classOf c hd) (route c) s.net _ := .move pkt.id
        (rest.map Packet.id) (Place.buffer mbuf) (Place.buffer ring) (congrArg (List.map Packet.id) hmbuf)
        (hfollows pkt (by rw [hmbuf]; exact List.mem_cons_self))
      have hheld : s.net.held (.buffer ring) ++ [pkt.id] =
          (s.buffers ring ++ [pkt]).map Packet.id := by
        rw [List.map_append]
        rfl
      rw [hheld] at hmove
      rw [net_setBuffer, net_setBuffer]
      exact .single hmove
    · exact .single (net_refused hmbuf)

theorem run_enqueueTx (dstPort : ℕ) (hfollows : ∀ pkt ∈ s.buffers mbuf,
      Follows (route c) (classOf c hd pkt.id) (.buffer mbuf) (.ringTx dstPort)) :
    Run (classOf c hd) (route c) s.net (s.enqueueTx c mbuf dstPort).net := by
  rw [Cores.enqueueTx]
  split
  · exact .refl
  · next pkt rest hmbuf =>
    obtain ⟨hring, -, -, -, hother⟩ := packetEnqueue_snd (c := c.toConfig) s.ports dstPort pkt
    have hrest : ∀ i, ((packetEnqueue c.toConfig s.ports dstPort pkt).2 i).mbufTx =
          (s.ports i).mbufTx ∧
        ((packetEnqueue c.toConfig s.ports dstPort pkt).2 i).wire = (s.ports i).wire := by
      intro i
      rw [packetEnqueue]
      by_cases hi : i = dstPort
      · subst hi
        simp
      · simp [Function.update_of_ne hi]
    by_cases hroom : (s.ports dstPort).ring.length < c.ringTxSize
    · have hmove : Routes.Step (classOf c hd) (route c) s.net _ := .move pkt.id
        (rest.map Packet.id) (Place.buffer mbuf) (Place.ringTx dstPort)
        (congrArg (List.map Packet.id) hmbuf)
        (hfollows pkt (by rw [hmbuf]; exact List.mem_cons_self))
      rw [if_pos hroom]
      refine .single (cast (congrArg _ ?_) hmove)
      rw [← net_setBuffer]
      refine Net.ext (funext fun p => ?_) rfl rfl
      by_cases hp : p = .ringTx dstPort
      · subst hp
        rw [Net.put_held_self]
        show _ = ((packetEnqueue c.toConfig s.ports dstPort pkt).2 dstPort).ring.map Packet.id
        rw [hring, spEnqueue, if_pos hroom, List.map_append]
        exact congrArg (fun id => _ ++ [id]) (checkPacket_snd s.ports dstPort pkt).1.symm
      · rw [Net.put_held_of_ne _ hp]
        cases p with
        | buffer b => rfl
        | ringTx i =>
          have hi : i ≠ dstPort := fun h => hp (congrArg Place.ringTx h)
          exact congrArg (fun port : Port => port.ring.map Packet.id) (hother i hi).symm
        | mbufTx i => exact congrArg (List.map Packet.id) (hrest i).1.symm
        | wire i => exact congrArg (List.map Packet.id) (hrest i).2.symm
    · rw [if_neg hroom]
      refine .single (cast (congrArg _ ?_) (net_refused hmbuf))
      refine Net.ext (funext fun p => ?_) rfl rfl
      cases p with
      | buffer b => rfl
      | ringTx i =>
        by_cases hi : i = dstPort
        · subst hi
          refine congrArg (List.map Packet.id) ?_
          rw [hring, spEnqueue, if_neg hroom]
          rfl
        · exact congrArg (fun port : Port => port.ring.map Packet.id) (hother i hi).symm
      | mbufTx i => exact congrArg (List.map Packet.id) (hrest i).1.symm
      | wire i => exact congrArg (List.map Packet.id) (hrest i).2.symm

theorem Tagged.of_same (h : Tagged hd s) (hrx : s'.buffers .mbufRx = s.buffers .mbufRx)
    (hsort : s'.buffers .rx2flowsMbuf = s.buffers .rx2flowsMbuf)
    (hports : s'.rxPort = s.rxPort ∧ s'.rx2flowsPort = s.rx2flowsPort) : Tagged hd s' := by
  refine ⟨?_, ?_, ?_⟩
  · rw [hrx, hports.1]
    exact h.rx
  · rw [hsort, hports.2]
    exact h.rx2flows
  · rw [hsort]
    exact h.single

end Operations

/-! ## The cores -/

section Steps

variable {c : SwitchConfig} {hd : Headers} {s s' : Cores} {n : Fin 2}

theorem Cores.Still.net (h : s.Still s') : s'.net = s.net :=
  Net.ext (funext fun p => by cases p <;> simp only [Cores.net, Cores.held, h.buffers, h.ports])
    (congrArg (List.map Packet.id) h.received)
    (congrArg (fun l : List Packet => ((l.map Packet.id : List ℕ) : Multiset ℕ)) h.refused)

theorem Tagged.still (ht : Tagged hd s) (h : s.Still s') : Tagged hd s' :=
  ht.of_same (by rw [h.buffers]) (by rw [h.buffers]) h.loops

/-- A packet that is taken along its route. -/
theorem took_run {ring : Option Buffer} {mbuf : Buffer} (h : s.Took ring mbuf s')
    (ht : Tagged hd s) (hempty : s.buffers mbuf = [])
    (hfollows : ∀ b, ring = some b → ∀ pkt ∈ s.buffers b,
      Follows (route c) (classOf c hd pkt.id) (.buffer b) (.buffer mbuf))
    (hmbuf : mbuf ≠ .mbufRx ∧ mbuf ≠ .rx2flowsMbuf)
    (hring : ring ≠ some .mbufRx ∧ ring ≠ some .rx2flowsMbuf) :
    Run (classOf c hd) (route c) s.net s'.net ∧ Tagged hd s' := by
  cases ring with
  | none => exact ⟨(congrArg (Run (classOf c hd) (route c) s.net) h.net).mpr .refl, ht.still h⟩
  | some b =>
    obtain ⟨pkt, s₁, htake, hstill⟩ := h
    rw [hstill.net]
    refine ⟨run_take htake hempty (hfollows b rfl), Tagged.still ?_ hstill⟩
    refine ht.of_same (take_frame htake hmbuf.1.symm ?_) (take_frame htake hmbuf.2.symm ?_)
      (take_ports htake)
    · exact fun hb => hring.1 (congrArg some hb.symm)
    · exact fun hb => hring.2 (congrArg some hb.symm)

/-- The cores of the nodes move packets along their routes. -/
theorem node_run (hs : Orderly (classOf c hd) (route c) s.net) (ht : Tagged hd s)
    (h : s.nodeStep c n = some s') :
    Run (classOf c hd) (route c) s.net s'.net ∧ Tagged hd s' := by
  rcases nodeStep_cases h with ⟨-, rfl⟩ | ⟨hmbuf, -, -, l, -, htook⟩
  · refine ⟨run_give _ fun pkt hpkt => ?_, ?_⟩
    · obtain ⟨f, hf, hn⟩ := mem_route_nodeMbuf (mem_route hs hpkt)
      rw [hf]
      exact follows_nodeMbuf hn
    · exact ht.of_same (give_frame (by simp) (by simp) s _) (give_frame (by simp) (by simp) s _)
        (give_ports s _ _ _)
  · refine took_run htook ht hmbuf (fun b hb pkt hpkt => ?_) (by simp) (by cases l <;> simp)
    obtain ⟨i, -, rfl⟩ := Option.map_eq_some_iff.mp hb
    rw [mem_route_ringFlows (mem_route hs hpkt)]
    exact follows_ringFlows (nodeOf_flowIndex n i)

/-- So does the forwarding core. -/
theorem worker_run (hs : Orderly (classOf c hd) (route c) s.net) (ht : Tagged hd s)
    (h : s.workerStep c = some s') :
    Run (classOf c hd) (route c) s.net s'.net ∧ Tagged hd s' := by
  rcases workerStep_cases h with ⟨-, rfl⟩ | ⟨hmbuf, -, l, -, htook⟩
  · refine ⟨run_enqueueTx _ fun pkt hpkt => ?_, ?_⟩
    · obtain ⟨f, hf⟩ := mem_route_workerMbuf (mem_route hs hpkt)
      rw [hf]
      exact follows_workerMbuf f
    · exact ht.of_same (enqueueTx_frame (by simp) s _) (enqueueTx_frame (by simp) s _)
        (enqueueTx_ports s _ _)
  · refine took_run htook ht hmbuf (fun b hb pkt hpkt => ?_) (by simp) (by cases l <;> simp)
    obtain ⟨n, -, rfl⟩ := Option.map_eq_some_iff.mp hb
    obtain ⟨f, hf, hn⟩ := mem_route_ringNodes (mem_route hs hpkt)
    rw [hf]
    exact follows_ringNodes hn

/-- A packet in a buffer of the receiver has come in at the port that is dealt with. -/
theorem rx_run (hs : Orderly (classOf c hd) (route c) s.net) (ht : Tagged hd s) (k : ℕ) :
    Run (classOf c hd) (route c) s.net (s.rxStep c k).net ∧ Tagged hd (s.rxStep c k) := by
  rw [Cores.rxStep]
  split
  · next hempty =>
    dsimp only
    split
    · -- only the port changes
      exact ⟨.refl, by rw [show (s.buffers .mbufRx) = [] from hempty]; simp, ht.rx2flows, ht.single⟩
    · set m := min k c.burstSizeRxRead
      have hnic : ∀ pkt ∈ s.buffers (.nic s.rxPort), hd.inPort pkt.id = s.rxPort := fun pkt hpkt =>
        (classOf_inPort (c := c) pkt.id).symm.trans (mem_route_nic (mem_route hs hpkt))
      have hmoves : Run (classOf c hd) (route c) _ _ := run_moves
        (p := .buffer (.nic s.rxPort)) (q := .buffer .mbufRx) (by simp)
        (((s.buffers (.nic s.rxPort)).take m).map Packet.id)
        (((s.buffers (.nic s.rxPort)).drop m).map Packet.id) s.net
        (by
          rw [← List.map_append, List.take_append_drop]
          rfl)
        (fun id hid => by
          obtain ⟨pkt, hpkt, rfl⟩ := List.mem_map.mp hid
          exact follows_nic ((classOf_inPort pkt.id).trans (hnic pkt (List.mem_of_mem_take hpkt))))
      have hmbuf : s.net.held (.buffer .mbufRx) = [] := congrArg (List.map Packet.id) hempty
      rw [hmbuf, List.nil_append, ← net_setBuffer, ← net_setBuffer] at hmoves
      refine ⟨hmoves, ?_, ?_, ?_⟩
      · rw [setBuffer_buffers_self]
        exact fun pkt hpkt => hnic pkt (List.mem_of_mem_take hpkt)
      · rw [setBuffer_buffers_of_ne (by simp), setBuffer_buffers_of_ne (by simp)]
        exact ht.rx2flows
      · rw [setBuffer_buffers_of_ne (by simp), setBuffer_buffers_of_ne (by simp)]
        exact ht.single
  · split
    · have hmoves : Run (classOf c hd) (route c) _ _ := run_moves
        (p := .buffer .mbufRx) (q := .buffer (.ringRx s.rxPort)) (by simp)
        ((s.buffers .mbufRx).map Packet.id) [] s.net (List.append_nil _).symm
        (fun id hid => by
          obtain ⟨pkt, hpkt, rfl⟩ := List.mem_map.mp hid
          exact follows_mbufRx ((classOf_inPort pkt.id).trans (ht.rx pkt hpkt)))
      have hring : s.net.held (.buffer (.ringRx s.rxPort)) ++ (s.buffers .mbufRx).map Packet.id =
          (s.buffers (.ringRx s.rxPort) ++ s.buffers .mbufRx).map Packet.id :=
        (List.map_append).symm
      rw [hring, show ([] : List ℕ) = ([] : List Packet).map Packet.id from rfl, ← net_setBuffer,
        ← net_setBuffer] at hmoves
      refine ⟨hmoves, ?_, ?_, ?_⟩
      · dsimp only
        rw [setBuffer_buffers_of_ne (by simp), setBuffer_buffers_self]
        simp
      · dsimp only
        rw [setBuffer_buffers_of_ne (by simp), setBuffer_buffers_of_ne (by simp)]
        exact ht.rx2flows
      · dsimp only
        rw [setBuffer_buffers_of_ne (by simp), setBuffer_buffers_of_ne (by simp)]
        exact ht.single
    · exact ⟨.refl, ht⟩

/-- A packet is sorted into a ring on its route. -/
theorem sort_run (ht : Tagged hd s) {pkt : Packet} {rest : List Packet}
    (hmbuf : s.buffers .rx2flowsMbuf = pkt :: rest) :
    Run (classOf c hd) (route c) s.net (Cores.sortPacket c hd s pkt).net ∧
      (Cores.sortPacket c hd s pkt).buffers .rx2flowsMbuf = [] ∧
      (Cores.sortPacket c hd s pkt).buffers .mbufRx = s.buffers .mbufRx ∧
      (Cores.sortPacket c hd s pkt).rxPort = s.rxPort := by
  have hsingle := ht.single
  obtain rfl : rest = [] := by
    rw [hmbuf, List.length_cons] at hsingle
    exact List.eq_nil_of_length_eq_zero (by omega)
  have hport : hd.inPort pkt.id = s.rx2flowsPort :=
    ht.rx2flows pkt (by rw [hmbuf]; exact List.mem_cons_self)
  have honly : ∀ q ∈ s.buffers .rx2flowsMbuf, q = pkt := by
    rw [hmbuf]
    exact fun q hq => List.mem_singleton.mp hq
  have htail : (s.buffers .rx2flowsMbuf).tail = [] := by
    rw [hmbuf]
    rfl
  rw [Cores.sortPacket]
  split
  · next hne =>
    refine ⟨run_enqueueTx _ fun q hq => ?_, (enqueueTx_mbuf s _).trans htail,
      enqueueTx_frame (by simp) s _, (enqueueTx_ports s _ _).1⟩
    rw [honly q hq, classOf_of_ne (by rw [hport]; exact hne)]
    exact follows_rx2flowsMbuf rfl
  · next heq =>
    rw [not_not] at heq
    split
    · next f hf =>
      refine ⟨run_give _ fun q hq => ?_, (give_mbuf (by simp) s _).trans htail,
        give_frame (by simp) (by simp) s _, (give_ports s _ _ _).1⟩
      rw [honly q hq, classOf_of_flowFor (hport.trans heq) hf]
      exact follows_rx2flowsMbuf_flow f
    · next hf =>
      refine ⟨run_enqueueTx _ fun q hq => ?_, (enqueueTx_mbuf s _).trans htail,
        enqueueTx_frame (by simp) s _, (enqueueTx_ports s _ _).1⟩
      rw [honly q hq, classOf_unmatched (hport.trans heq) hf]
      exact follows_rx2flowsMbuf rfl

theorem rx2flows_run (hs : Orderly (classOf c hd) (route c) s.net) (ht : Tagged hd s) :
    Run (classOf c hd) (route c) s.net (s.rx2flowsStep c hd).net ∧
      Tagged hd (s.rx2flowsStep c hd) := by
  rw [Cores.rx2flowsStep]
  split
  · next pkt rest hmbuf =>
    obtain ⟨hrun, hempty, hrx, hport⟩ := sort_run ht hmbuf
    refine ⟨hrun, ?_, ?_, ?_⟩
    · dsimp only
      rw [hrx, hport]
      exact ht.rx
    · dsimp only
      rw [hempty]
      simp
    · dsimp only
      rw [hempty]
      simp
  · next hempty =>
    split
    · refine ⟨.refl, ht.rx, ?_, ht.single⟩
      dsimp only
      rw [hempty]
      simp
    · next pkt s₁ htake =>
      have hring : ∀ pkt ∈ s.buffers (.ringRx s.rx2flowsPort),
          hd.inPort pkt.id = s.rx2flowsPort := fun pkt hpkt =>
        (classOf_inPort (c := c) pkt.id).symm.trans (mem_route_ringRx (mem_route hs hpkt))
      refine ⟨run_take htake hempty fun pkt hpkt =>
        follows_ringRx ((classOf_inPort pkt.id).trans (hring pkt hpkt)), ?_, ?_, ?_⟩
      · rw [take_frame htake (by simp) (by simp), (take_ports htake).1]
        exact ht.rx
      · obtain ⟨rest, hrest, rfl⟩ := take_eq htake
        rw [setBuffer_buffers_self]
        exact fun q hq => List.mem_singleton.mp hq ▸ hring pkt (by rw [hrest]; exact
          List.mem_cons_self)
      · obtain ⟨rest, hrest, rfl⟩ := take_eq htake
        rw [setBuffer_buffers_self]
        exact le_rfl

end Steps

/-! ## The transmitters -/

section Tx

variable {c : SwitchConfig} {hd : Headers} {s : Cores} {portId : ℕ} {p p' : Port}
  {now : UInt64} {answers : List ℕ}

/-- A transmitter does nothing to the packets, or takes one, which stays in its buffer or is handed
over with all that are there. -/
theorem appMainTxPort_places {c : Config} (h : appMainTxPort c p now answers = some p') :
    (p'.ring = p.ring ∧ p'.mbufTx = p.mbufTx ∧ p'.wire = p.wire) ∨
    ∃ pkt, p.ring = pkt :: p'.ring ∧
      ((p'.mbufTx = p.mbufTx ++ [pkt] ∧ p'.wire = p.wire) ∨
        (p'.mbufTx = [] ∧ p'.wire = p.wire ++ (p.mbufTx ++ [pkt]))) := by
  -- the time is of no account
  obtain ⟨q, hq, hqring, hqmbuf, hqwire⟩ : ∃ q : Port,
      (if 0 < c.txRateMbps then { p with prevTime := now } else p) = q ∧
        q.ring = p.ring ∧ q.mbufTx = p.mbufTx ∧ q.wire = p.wire :=
    ⟨_, rfl, by split <;> exact ⟨rfl, rfl, rfl⟩⟩
  rw [appMainTxPort, hq] at h
  dsimp only at h
  rw [← hqring, ← hqmbuf, ← hqwire]
  generalize (if 0 < c.txRateMbps then refill c p now else p.token) = token at h
  split at h
  · rw [← Option.some.inj h]
    exact Or.inl ⟨rfl, rfl, rfl⟩
  · split at h
    · rw [← Option.some.inj h]
      exact Or.inl ⟨rfl, rfl, rfl⟩
    · next pkt ring hring =>
      refine Or.inr ⟨pkt, ?_⟩
      split at h
      · rw [← Option.some.inj h]
        exact ⟨hring, Or.inl ⟨rfl, rfl⟩⟩
      · obtain ⟨sent, hsent, rfl⟩ := Option.map_eq_some_iff.mp h
        rw [txBurst_eq hsent]
        exact ⟨hring, Or.inr ⟨rfl, rfl⟩⟩

/-- The net after the ring, the buffer and the wire of a port have changed. -/
theorem net_update_port (s : Cores) (portId : ℕ) (p : Port) :
    { s with ports := Function.update s.ports portId p : Cores }.net =
      ((s.net.put (.ringTx portId) (p.ring.map Packet.id)).put (.mbufTx portId)
        (p.mbufTx.map Packet.id)).put (.wire portId) (p.wire.map Packet.id) := by
  refine Net.ext (funext fun q => ?_) rfl rfl
  have hport : ∀ i, i ≠ portId → Function.update s.ports portId p i = s.ports i :=
    fun i hi => Function.update_of_ne hi _ _
  have hself : Function.update s.ports portId p portId = p := Function.update_self _ _ _
  cases q with
  | buffer b =>
    rw [Net.put_held_of_ne _ (by simp), Net.put_held_of_ne _ (by simp),
      Net.put_held_of_ne _ (by simp)]
    rfl
  | ringTx i =>
    rw [Net.put_held_of_ne _ (by simp), Net.put_held_of_ne _ (by simp)]
    by_cases hi : i = portId
    · subst hi
      rw [Net.put_held_self]
      exact congrArg (fun port : Port => port.ring.map Packet.id) hself
    · rw [Net.put_held_of_ne _ (by simp [hi])]
      exact congrArg (fun port : Port => port.ring.map Packet.id) (hport i hi)
  | mbufTx i =>
    rw [Net.put_held_of_ne _ (by simp)]
    by_cases hi : i = portId
    · subst hi
      rw [Net.put_held_self]
      exact congrArg (fun port : Port => port.mbufTx.map Packet.id) hself
    · rw [Net.put_held_of_ne _ (by simp [hi]), Net.put_held_of_ne _ (by simp)]
      exact congrArg (fun port : Port => port.mbufTx.map Packet.id) (hport i hi)
  | wire i =>
    by_cases hi : i = portId
    · subst hi
      rw [Net.put_held_self]
      exact congrArg (fun port : Port => port.wire.map Packet.id) hself
    · rw [Net.put_held_of_ne _ (by simp [hi]), Net.put_held_of_ne _ (by simp),
        Net.put_held_of_ne _ (by simp)]
      exact congrArg (fun port : Port => port.wire.map Packet.id) (hport i hi)

theorem tx_run (hs : Orderly (classOf c hd) (route c) s.net)
    (h : appMainTxPort c.toConfig (s.ports portId) now answers = some p) :
    Run (classOf c hd) (route c) s.net
      { s with ports := Function.update s.ports portId p : Cores }.net := by
  have hout : ∀ q ∈ outbound portId, ∀ id ∈ s.net.held q,
      (classOf c hd id).outPort c = portId := fun q hq id hid =>
    mem_route_outbound hq (hs.routed q id hid)
  rw [net_update_port]
  rcases appMainTxPort_places h with ⟨hring, hmbuf, hwire⟩ | ⟨pkt, hring, hsent⟩
  · rw [hring, hmbuf, hwire]
    have hsame : ((s.net.put (.ringTx portId) (s.net.held (.ringTx portId))).put (.mbufTx portId)
        (s.net.held (.mbufTx portId))).put (.wire portId) (s.net.held (.wire portId)) = s.net := by
      simp only [Net.put, Function.update_eq_self]
    exact (congrArg (Run (classOf c hd) (route c) s.net) hsame).mpr .refl
  · have hheld : s.net.held (.ringTx portId) = pkt.id :: p.ring.map Packet.id :=
      congrArg (List.map Packet.id) hring
    have hpkt : (classOf c hd pkt.id).outPort c = portId :=
      hout (.ringTx portId) (by simp [outbound]) pkt.id (by rw [hheld]; exact List.mem_cons_self)
    have hmove : Routes.Step (classOf c hd) (route c) s.net _ := .move pkt.id _ _
      (.mbufTx portId) hheld (follows_ringTx hpkt)
    rcases hsent with ⟨hmbuf, hwire⟩ | ⟨hmbuf, hwire⟩
    · have hnet : (((s.net.put (.ringTx portId) (p.ring.map Packet.id)).put (.mbufTx portId)
          (p.mbufTx.map Packet.id)).put (.wire portId) (p.wire.map Packet.id)) =
            (s.net.put (.ringTx portId) (p.ring.map Packet.id)).put (.mbufTx portId)
              (s.net.held (.mbufTx portId) ++ [pkt.id]) := by
        rw [hmbuf, hwire, List.map_append]
        refine Net.ext ?_ rfl rfl
        refine Function.update_eq_self_iff.mpr ?_
        rw [Net.put_held_of_ne _ (by simp), Net.put_held_of_ne _ (by simp)]
        rfl
      rw [hnet]
      exact .single hmove
    · set n₁ := (s.net.put (.ringTx portId) (p.ring.map Packet.id)).put (.mbufTx portId)
        (s.net.held (.mbufTx portId) ++ [pkt.id])
      have hmbufs : n₁.held (.mbufTx portId) = s.net.held (.mbufTx portId) ++ [pkt.id] :=
        Net.put_held_self _ _ _
      have hmoves : Run (classOf c hd) (route c) _ _ := run_moves (p := .mbufTx portId)
        (q := .wire portId) (by simp) (s.net.held (.mbufTx portId) ++ [pkt.id]) [] n₁
        (by rw [List.append_nil, hmbufs])
        (fun id hid => follows_mbufTx (by
          rcases List.mem_append.mp hid with hid | hid
          · exact hout (.mbufTx portId) (by simp [outbound]) id hid
          · exact List.mem_singleton.mp hid ▸ hpkt))
      have hnet : (((s.net.put (.ringTx portId) (p.ring.map Packet.id)).put (.mbufTx portId)
          (p.mbufTx.map Packet.id)).put (.wire portId) (p.wire.map Packet.id)) =
            (n₁.put (.mbufTx portId) []).put (.wire portId)
              (n₁.held (.wire portId) ++ (s.net.held (.mbufTx portId) ++ [pkt.id])) := by
        have hwires : n₁.held (.wire portId) = (s.ports portId).wire.map Packet.id := by
          rw [Net.put_held_of_ne _ (by simp), Net.put_held_of_ne _ (by simp)]
          rfl
        rw [hmbuf, hwire, hwires, List.map_append, List.map_append]
        simp only [n₁, Net.put, Function.update_idem]
        rfl
      rw [hnet]
      exact .head hmove hmoves

end Tx

/-! ## The switch -/

section Switch

variable {c : SwitchConfig} {hd : Headers} {s s' : Cores} {ports : Switch} {actions : List Cores.Action}
  {pkt : Packet}

theorem arrive_run (hd : Headers) (s : Cores) (pkt : Packet) :
    Run (classOf c hd) (route c) s.net (s.arrive hd pkt).net := by
  have henter : Routes.Step (classOf c hd) (route c) s.net _ := .enter pkt.id
    (.buffer (.nic (hd.inPort pkt.id)))
    (outbound ((classOf c hd pkt.id).outPort c) ++ ((classOf c hd pkt.id).scheduled ++
      [.buffer .rx2flowsMbuf, .buffer (.ringRx (hd.inPort pkt.id)), .buffer .mbufRx]))
    (by simp [route, inbound])
  refine .single ((congrArg (Routes.Step (classOf c hd) (route c) s.net) ?_).mp henter)
  have hheld := congrArg Net.held (net_setBuffer s (.nic (hd.inPort pkt.id))
    (s.buffers (.nic (hd.inPort pkt.id)) ++ [pkt]))
  rw [List.map_append] at hheld
  refine Net.ext hheld.symm ?_ rfl
  show s.received.map Packet.id ++ [pkt.id] = (s.received ++ [pkt]).map Packet.id
  rw [List.map_append]
  rfl

/-- **Every step of a core** is some steps of the net. -/
theorem step_run (hs : Orderly (classOf c hd) (route c) s.net) (ht : Tagged hd s) {a : Cores.Action}
    (h : Cores.step c hd s a = some s') :
    Run (classOf c hd) (route c) s.net s'.net ∧ Tagged hd s' := by
  cases a with
  | arrive pkt =>
    obtain rfl := Option.some.inj h
    have hframe : ∀ b, b ≠ .nic (hd.inPort pkt.id) → (s.arrive hd pkt).buffers b = s.buffers b :=
      fun b hb => setBuffer_buffers_of_ne hb s _
    exact ⟨arrive_run hd s pkt,
      ht.of_same (hframe _ (by simp)) (hframe _ (by simp)) ⟨rfl, rfl⟩⟩
  | rx k =>
    obtain rfl := Option.some.inj h
    exact rx_run hs ht k
  | rx2flows =>
    obtain rfl := Option.some.inj h
    exact rx2flows_run hs ht
  | node n => exact node_run hs ht h
  | worker => exact worker_run hs ht h
  | tx portId now answers =>
    obtain ⟨p, hp, rfl⟩ := Option.map_eq_some_iff.mp h
    exact ⟨tx_run hs hp, ht.of_same rfl rfl ⟨rfl, rfl⟩⟩

/-- The output queues have never been used. -/
def Vacant (ports : Switch) : Prop :=
  ∀ i, (ports i).ring = [] ∧ (ports i).mbufTx = [] ∧ (ports i).wire = []

theorem start_net (hports : Vacant ports) : (Cores.start c ports).net = Net.init := by
  refine Net.ext (funext fun p => ?_) rfl rfl
  cases p with
  | buffer b => rfl
  | ringTx i => exact congrArg (List.map Packet.id) (hports i).1
  | mbufTx i => exact congrArg (List.map Packet.id) (hports i).2.1
  | wire i => exact congrArg (List.map Packet.id) (hports i).2.2

theorem start_tagged (hd : Headers) (ports : Switch) : Tagged hd (Cores.start c ports) :=
  ⟨fun _ h => absurd h List.not_mem_nil, fun _ h => absurd h List.not_mem_nil, Nat.zero_le 1⟩

/-- **The switch does what the net of its queues can do**, in whatever order its cores take their
steps. -/
theorem run_net (hports : Vacant ports) (h : Cores.run c hd ports actions = some s) :
    Run (classOf c hd) (route c) Net.init s.net ∧ Tagged hd s := by
  refine Runs.foldlM_keeps (P := fun s => Run (classOf c hd) (route c) Net.init s.net ∧ Tagged hd s)
    ?_ ⟨?_, start_tagged hd ports⟩ h
  · rintro a - s s' ⟨hrun, ht⟩ hstep
    obtain ⟨hnext, ht'⟩ := step_run (orderly_init.run (route_nodup c) hrun) ht hstep
    exact ⟨hrun.trans hnext, ht'⟩
  · rw [start_net hports]

/-- What the switch owes to the packets of a class. -/
structure Delivered (c : SwitchConfig) (hd : Headers) (s : Cores) (k : PacketClass) : Prop where
  /-- They leave by one port, -/
  only : ∀ portId, ∀ pkt ∈ (s.ports portId).wire, classOf c hd pkt.id = k → portId = k.outPort c
  /-- in the order in which they came, and none twice, -/
  order : (((s.ports (k.outPort c)).wire.map Packet.id).filter
    fun id => decide (classOf c hd id = k)).Sublist
      ((s.received.map Packet.id).filter fun id => decide (classOf c hd id = k))
  /-- without a gap unless a ring has refused one. -/
  complete : (∀ pkt ∈ s.refused, classOf c hd pkt.id ≠ k) →
    (((s.ports (k.outPort c)).wire.map Packet.id).filter
      fun id => decide (classOf c hd id = k)) <+:
        (s.received.map Packet.id).filter fun id => decide (classOf c hd id = k)

/-- **The packets of a flow are not reordered**, nor those of any other class, whatever the
schedulers of the nodes and of the switch are, and however the cores are held up. -/
theorem run_delivered (hports : Vacant ports) (h : Cores.run c hd ports actions = some s)
    (k : PacketClass) : Delivered c hd s k := by
  have hs : Orderly (classOf c hd) (route c) s.net :=
    orderly_init.run (route_nodup c) (run_net hports h).1
  have hend : route c k = .wire (k.outPort c) :: (.mbufTx (k.outPort c) :: .ringTx (k.outPort c) ::
      (k.scheduled ++ inbound (k.inPort c))) := rfl
  refine ⟨fun portId pkt hpkt hk => ?_, hs.arrived_sublist hend, fun hlost => ?_⟩
  · rw [← hk]
    exact (mem_route_outbound (by simp [outbound])
      (hs.routed (.wire portId) pkt.id (List.mem_map_of_mem hpkt))).symm
  · refine hs.arrived_isPrefix hend fun id hid => ?_
    obtain ⟨pkt, hpkt, rfl⟩ := List.mem_map.mp (Multiset.mem_coe.mp hid)
    exact hlost pkt hpkt

end Switch

theorem freshSwitch_vacant : Vacant freshSwitch := fun _ => ⟨rfl, rfl, rfl⟩

/-- The even packets belong to flow 0, the odd ones to flow 3. -/
def mixedHeaders : Headers :=
  ⟨fun _ => 0, fun id => if id % 2 = 0 then 8081 else 8084, fun _ => 80⟩

/-- Four packets are received and sorted, both nodes move theirs, all are forwarded, and three of
them are transmitted. -/
def mixedActions : List Cores.Action :=
  (List.range 4).map (fun i => .arrive ⟨i + 1, 200, true, 0⟩) ++ [.rx 4, .rx 4] ++
    List.replicate 11 .rx2flows ++
    (List.finRange 2).flatMap (fun n => List.replicate 12 (.node n)) ++
    List.replicate 20 .worker ++ List.replicate 3 (.tx 1 0 [1])

/-- Flow 0 has overtaken flow 3, and the packets of each flow are in order. -/
theorem run_mixedActions : ∃ s,
    Cores.run exampleSwitch mixedHeaders freshSwitch mixedActions = some s ∧
      s.received.map Packet.id = [1, 2, 3, 4] ∧ (s.ports 1).wire.map Packet.id = [2, 4, 1] := by
  have hrun : (Cores.run exampleSwitch mixedHeaders freshSwitch mixedActions).map
      (fun s => (s.received.map Packet.id, (s.ports 1).wire.map Packet.id)) =
        some ([1, 2, 3, 4], [2, 4, 1]) := by
    decide +kernel
  obtain ⟨s, hs, hids⟩ := Option.map_eq_some_iff.mp hrun
  obtain ⟨hreceived, hwire⟩ := Prod.mk.inj hids
  exact ⟨s, hs, hreceived, hwire⟩

theorem run_net_example : ∃ s,
    Cores.run exampleSwitch mixedHeaders freshSwitch mixedActions = some s ∧
      s.net.held (.wire 1) = [2, 4, 1] ∧
      Run (classOf exampleSwitch mixedHeaders) (route exampleSwitch) Net.init s.net ∧
      Tagged mixedHeaders s := by
  obtain ⟨s, hs, -, hwire⟩ := run_mixedActions
  exact ⟨s, hs, hwire, run_net freshSwitch_vacant hs⟩

theorem run_delivered_example : ∃ s,
    Cores.run exampleSwitch mixedHeaders freshSwitch mixedActions = some s ∧
      (s.ports 1).wire.map Packet.id = [2, 4, 1] ∧
      Delivered exampleSwitch mixedHeaders s (.flow 0) ∧
      Delivered exampleSwitch mixedHeaders s (.flow 3) := by
  obtain ⟨s, hs, -, hwire⟩ := run_mixedActions
  exact ⟨s, hs, hwire, run_delivered freshSwitch_vacant hs (.flow 0),
    run_delivered freshSwitch_vacant hs (.flow 3)⟩

end Dpdk

end VPifo
