import VPifo.Dpdk.Flows2Nodes
import VPifo.Dpdk.OutputQueue

/-!
# The cores of the software switch

The switch runs a loop on each of several cores.  `app_main_loop_rx` takes bursts from the network
cards, `app_main_loop_rx2flows` sorts the packets into the rings of six flows,
`app_main_loop_flows2nodes` moves them from the flows of a node to the ring of the node, one core
for each of two nodes, `app_main_loop_forwarding` moves them from the nodes to an output queue, and
the transmitters empty the output queues.

Between two operations on a ring a core can be held up for as long as anything, so a step is one
such operation: a packet is taken from a ring into the buffer of the core, or the packet in its
buffer is put into a ring, and `NodePc` and `WorkerPc` say where in its loop a core is.  The cores
take their steps in any order.  Every ring operation is taken as atomic.  The source does not make
sure of this on `rings_tx[default_port]`, to which two cores enqueue with `RING_F_SP_ENQ`.  There is
no result where the source reads outside of an array or calls a null pointer.

What the switch has received, and which packets a full ring has refused, is kept in the state for
the sake of the theorems.
-/

namespace VPifo

namespace Dpdk

/-! ## Configuration -/

/-- `intra_node`: how a node chooses between its flows. -/
inductive IntraNode where
  | SP
  | WFQ
  | pFabric
  | other

/-- `inter_node`: how the nodes are chosen between. -/
inductive InterNode where
  | SP
  | WFQ
  | other

/-- The settings that the loops go by.  The sizes are how many packets a ring holds. -/
structure SwitchConfig extends Config where
  port : ℕ
  defaultPort : ℕ
  intraNode : IntraNode
  interNode : InterNode
  flowSrcPorts : Fin 6 → ℤ
  spPriority : Fin 8 → ℤ
  wfqWeight : Fin 8 → ℤ
  pFabricSize : Fin 6 → Int32
  burstSizeRxRead : ℕ
  ringRxSize : ℕ
  ringFlowsSize : ℕ
  ringNodesSize : ℕ

/-- What is read of a packet: the port it came in on, and the ports of its TCP or UDP header. -/
structure Headers where
  inPort : ℕ → ℕ
  portSrc : ℕ → UInt16
  portDst : ℕ → UInt16

/-- Flow `i` of node `n`. -/
def flowIndex (n : Fin 2) (i : Fin 3) : Fin 6 := ⟨n * 3 + i, by omega⟩

/-- The node of a flow. -/
def nodeOf (f : Fin 6) : Fin 2 := ⟨f / 3, by omega⟩

@[simp] theorem nodeOf_flowIndex (n : Fin 2) (i : Fin 3) : nodeOf (flowIndex n i) = n := by
  apply Fin.ext
  show ((n : ℕ) * 3 + (i : ℕ)) / 3 = (n : ℕ)
  omega

theorem flowIndex_injective (n : Fin 2) : Function.Injective (flowIndex n) := fun i j h => by
  have hval : (n : ℕ) * 3 + i = n * 3 + j := congrArg Fin.val h
  exact Fin.ext (by omega)

/-! ## State -/

/-- The rings, the rx queues of the network cards, and the buffers of the cores. -/
inductive Buffer where
  | nic (i : ℕ)
  | mbufRx
  | ringRx (i : ℕ)
  | rx2flowsMbuf
  | ringFlows (f : Fin 6)
  | nodeMbuf (n : Fin 2)
  | ringNodes (n : Fin 2)
  | workerMbuf
  deriving DecidableEq

/-- Where the core of a node is: before the ring of the node is looked at, or in a call. -/
inductive NodePc where
  | check
  | sp (priority : ℤ)
  | wfq (i : Fin 3) (j : ℤ)
  | pFabric (tries : ℕ) (ring : Fin 3)
  deriving DecidableEq

/-- Where the forwarding core is. -/
inductive WorkerPc where
  | check
  | sp (priority : ℤ)
  | wfq (i : Fin 2) (j : ℤ)
  deriving DecidableEq

/-- The switch between two steps. -/
structure Cores where
  buffers : Buffer → List Packet
  /-- `i` of `app_main_loop_rx` and of `app_main_loop_rx2flows`. -/
  rxPort : ℕ
  rx2flowsPort : ℕ
  nodePc : Fin 2 → NodePc
  pFabricSize : Fin 2 → Fin 3 → Int32
  workerPc : WorkerPc
  ports : Switch
  received : List Packet
  refused : List Packet

namespace Cores

/-- The content of a buffer is replaced. -/
def setBuffer (s : Cores) (b : Buffer) (pkts : List Packet) : Cores :=
  { s with buffers := Function.update s.buffers b pkts }

/-- A packet is taken from a ring into the buffer of a core, unless the ring is empty. -/
def take (s : Cores) (ring mbuf : Buffer) : Option (Packet × Cores) :=
  match s.buffers ring with
  | [] => none
  | pkt :: rest => some (pkt, (s.setBuffer ring rest).setBuffer mbuf [pkt])

/-- The packet in the buffer of a core is put into a ring, which refuses it if it is full. -/
def give (s : Cores) (mbuf ring : Buffer) (size : ℕ) : Cores :=
  match s.buffers mbuf with
  | [] => s
  | pkt :: rest =>
    if (s.buffers ring).length < size then
      (s.setBuffer mbuf rest).setBuffer ring (s.buffers ring ++ [pkt])
    else { s.setBuffer mbuf rest with refused := s.refused ++ [pkt] }

variable (c : SwitchConfig)

/-- The packet in the buffer of a core is given to `packet_enqueue`. -/
def enqueueTx (s : Cores) (mbuf : Buffer) (dstPort : ℕ) : Cores :=
  match s.buffers mbuf with
  | [] => s
  | pkt :: rest =>
    { s.setBuffer mbuf rest with
      ports := (packetEnqueue c.toConfig s.ports dstPort pkt).2
      refused := if (s.ports dstPort).ring.length < c.ringTxSize then s.refused
        else s.refused ++ [pkt] }

/-! ## Steps -/

/-- The next port in turn. -/
def nextPort (i : ℕ) : ℕ := (i + 1) % c.nPorts.toNat

/-- A step of `app_main_loop_rx`: a burst is taken from the network card, of at most `k` packets
if it has no more at hand; or the burst is put into the rx ring, all of it or nothing. -/
def rxStep (s : Cores) (k : ℕ) : Cores :=
  if s.buffers .mbufRx = [] then
    let n := min k c.burstSizeRxRead
    if (s.buffers (.nic s.rxPort)).take n = [] then { s with rxPort := nextPort c s.rxPort }
    else (s.setBuffer (.nic s.rxPort) ((s.buffers (.nic s.rxPort)).drop n)).setBuffer .mbufRx
      ((s.buffers (.nic s.rxPort)).take n)
  else if (s.buffers (.ringRx s.rxPort)).length + (s.buffers .mbufRx).length ≤ c.ringRxSize then
    { (s.setBuffer .mbufRx []).setBuffer (.ringRx s.rxPort)
        (s.buffers (.ringRx s.rxPort) ++ s.buffers .mbufRx) with
      rxPort := nextPort c s.rxPort }
  -- it is tried again
  else s

/-- The first flow that has the source or the destination port of the packet. -/
def flowFor (hd : Headers) (id : ℕ) : Option (Fin 6) :=
  (List.finRange 6).find? fun f =>
    decide (((hd.portSrc id).toNat : ℤ) = c.flowSrcPorts f) ||
      decide (((hd.portDst id).toNat : ℤ) = c.flowSrcPorts f)

/-- The packet in the buffer of `app_main_loop_rx2flows` is put where it belongs. -/
def sortPacket (hd : Headers) (s : Cores) (pkt : Packet) : Cores :=
  if s.rx2flowsPort ≠ c.port then s.enqueueTx c .rx2flowsMbuf c.port
  else match flowFor c hd pkt.id with
    | some f => s.give .rx2flowsMbuf (.ringFlows f) c.ringFlowsSize
    | none => s.enqueueTx c .rx2flowsMbuf c.defaultPort

/-- A step of `app_main_loop_rx2flows`. -/
def rx2flowsStep (hd : Headers) (s : Cores) : Cores :=
  match s.buffers .rx2flowsMbuf with
  | pkt :: _ => { sortPacket c hd s pkt with rx2flowsPort := nextPort c s.rx2flowsPort }
  | [] =>
    match s.take (.ringRx s.rx2flowsPort) .rx2flowsMbuf with
    | none => { s with rx2flowsPort := nextPort c s.rx2flowsPort }
    | some (_, s') => s'

/-- The priority of flow `i` of node `n`. -/
def flowPriority (n : Fin 2) (i : Fin 3) : ℤ := c.spPriority ⟨2 + n * 3 + i, by omega⟩

/-- What the scheduler of node `n` works with. -/
def context (s : Cores) (n : Fin 2) : Context where
  inputRings i := s.buffers (.ringFlows (flowIndex n i))
  outputRing := s.buffers (.ringNodes n)
  outputSize := c.ringNodesSize
  spPriority i := flowPriority c n i
  pFabricSize := s.pFabricSize n

/-- The weight of flow `i` of node `n`. -/
def flowWeight (n : Fin 2) (i : Fin 3) : ℤ := c.wfqWeight ⟨i + 2 + n * 3, by omega⟩

/-- The core of node `n` goes on somewhere else. -/
def setNodePc (s : Cores) (n : Fin 2) (pc : NodePc) : Cores :=
  { s with nodePc := Function.update s.nodePc n pc }

/-- `pFabric_size[ring] -= pkt_len` for node `n`. -/
def chargeNode (s : Cores) (n : Fin 2) (ring : Fin 3) (pkt : Packet) : Cores :=
  { s with
    pFabricSize := Function.update s.pFabricSize n
      (Function.update (s.pFabricSize n) ring (s.pFabricSize n ring - pkt.pktLen.toInt32)) }

/-- `flows2nodes_WFQ` comes to ring `i`, or to the end of its loop. -/
def turnOf (i : ℕ) : NodePc := if h : i < 3 then .wfq ⟨i, h⟩ 0 else .check

/-- `ring = (ring + 1) % 3` -/
def nextRing (ring : Fin 3) : Fin 3 := ⟨(ring + 1) % 3, by omega⟩

/-- `context.flows2nodes` is called. -/
def startNode (s : Cores) (n : Fin 2) : Option Cores :=
  match c.intraNode with
  | .SP => some (s.setNodePc n (.sp 1))
  | .WFQ => some (s.setNodePc n (turnOf 0))
  | .pFabric => some (s.setNodePc n (.pFabric 2 (minRing (s.context c n)).1))
  -- a null pointer is called
  | .other => none

/-- A step of a node in a call, with nothing in its buffer. -/
def callNode (s : Cores) (n : Fin 2) : NodePc → Option Cores
  | .check =>
    if (s.buffers (.ringNodes n)).length < 20 then s.startNode c n else some s
  | .sp priority => (flowOf (s.context c n) priority).map fun i =>
    match s.take (.ringFlows (flowIndex n i)) (.nodeMbuf n) with
    | none => s.setNodePc n (if priority < 3 then .sp (priority + 1) else .check)
    | some (_, s') => s'.setNodePc n .check
  | .wfq i j => some <|
    if j < flowWeight c n i then
      match s.take (.ringFlows (flowIndex n i)) (.nodeMbuf n) with
      | none => s.setNodePc n (turnOf (i + 1))
      | some (_, s') => s'.setNodePc n (.wfq i (j + 1))
    else s.setNodePc n (turnOf (i + 1))
  | .pFabric tries ring => some <|
    match s.take (.ringFlows (flowIndex n ring)) (.nodeMbuf n) with
    | none => s.setNodePc n (if 1 < tries then .pFabric (tries - 1) (nextRing ring) else .check)
    | some (pkt, s') => (s'.chargeNode n ring pkt).setNodePc n .check

/-- A step of `app_main_loop_flows2nodes` of node `n`. -/
def nodeStep (s : Cores) (n : Fin 2) : Option Cores :=
  if s.buffers (.nodeMbuf n) ≠ [] then
    some (s.give (.nodeMbuf n) (.ringNodes n) c.ringNodesSize)
  else s.callNode c n (s.nodePc n)

/-- The priority of node `n`. -/
def nodePriority (n : Fin 2) : ℤ := c.spPriority ⟨n, by omega⟩

/-- The first node with this priority. -/
def nodeFor (priority : ℤ) : Option (Fin 2) :=
  (List.finRange 2).find? fun n => decide (nodePriority c n = priority)

/-- The weight of node `n`. -/
def nodeWeight (n : Fin 2) : ℤ := c.wfqWeight ⟨n, by omega⟩

/-- The output queue has room for more. -/
def wantsMore (s : Cores) : Prop :=
  (s.ports c.defaultPort).ring.length < 20 ∧ getQlenBytes s.ports c.defaultPort < 10000

instance (s : Cores) : Decidable (s.wantsMore c) := inferInstanceAs (Decidable (_ ∧ _))

/-- `forward_WFQ` comes to node `n`, or to the end of its loop. -/
def nodeTurn (n : ℕ) : WorkerPc := if h : n < 2 then .wfq ⟨n, h⟩ 0 else .check

/-- `forward` is called. -/
def startWorker (s : Cores) : Option Cores :=
  match c.interNode with
  | .SP => some { s with workerPc := .sp 1 }
  | .WFQ => some { s with workerPc := nodeTurn 0 }
  | .other => none

/-- A step of the forwarding core in a call, with nothing in its buffer. -/
def callWorker (s : Cores) : WorkerPc → Option Cores
  | .check => if s.wantsMore c then s.startWorker c else some s
  | .sp priority => (nodeFor c priority).map fun n =>
    match s.take (.ringNodes n) .workerMbuf with
    | none => { s with workerPc := if priority < 2 then .sp (priority + 1) else .check }
    | some (_, s') => { s' with workerPc := .check }
  | .wfq n j => some <|
    if j < nodeWeight c n then
      match s.take (.ringNodes n) .workerMbuf with
      | none => { s with workerPc := nodeTurn (n + 1) }
      | some (_, s') => { s' with workerPc := .wfq n (j + 1) }
    else { s with workerPc := nodeTurn (n + 1) }

/-- A step of `app_main_loop_forwarding`. -/
def workerStep (s : Cores) : Option Cores :=
  if s.buffers .workerMbuf ≠ [] then some (s.enqueueTx c .workerMbuf c.defaultPort)
  else s.callWorker c s.workerPc

/-- A packet comes in at the network card of its port. -/
def arrive (hd : Headers) (s : Cores) (pkt : Packet) : Cores :=
  { s.setBuffer (.nic (hd.inPort pkt.id)) (s.buffers (.nic (hd.inPort pkt.id)) ++ [pkt]) with
    received := s.received ++ [pkt] }

/-- Who takes a step. -/
inductive Action where
  | arrive (pkt : Packet)
  | rx (k : ℕ)
  | rx2flows
  | node (n : Fin 2)
  | worker
  | tx (portId : ℕ) (currentTime : UInt64) (answers : List ℕ)

/-- One step. -/
def step (hd : Headers) (s : Cores) : Action → Option Cores
  | .arrive pkt => some (s.arrive hd pkt)
  | .rx k => some (s.rxStep c k)
  | .rx2flows => some (s.rx2flowsStep c hd)
  | .node n => s.nodeStep c n
  | .worker => s.workerStep c
  | .tx portId currentTime answers =>
    (appMainTxPort c.toConfig (s.ports portId) currentTime answers).map fun p =>
      { s with ports := Function.update s.ports portId p }

/-- The switch when the loops begin, with nothing in the output queues. -/
def start (ports : Switch) : Cores where
  buffers _ := []
  rxPort := 0
  rx2flowsPort := 0
  nodePc _ := .check
  pFabricSize n i := c.pFabricSize (flowIndex n i)
  workerPc := .check
  ports := ports
  received := []
  refused := []

/-- The switch after some steps of the cores, in any order. -/
def run (hd : Headers) (ports : Switch) (actions : List Action) : Option Cores :=
  actions.foldlM (step c hd) (start c ports)

end Cores

/-! ## One operation -/

section Operations

variable {c : SwitchConfig} {s s' : Cores} {pkt : Packet} {ring mbuf b : Buffer}

@[simp] theorem setBuffer_buffers_self (s : Cores) (b : Buffer) (pkts : List Packet) :
    (s.setBuffer b pkts).buffers b = pkts := Function.update_self _ _ _

theorem setBuffer_buffers_of_ne {b b' : Buffer} (h : b' ≠ b) (s : Cores) (pkts : List Packet) :
    (s.setBuffer b pkts).buffers b' = s.buffers b' := Function.update_of_ne h _ _

theorem take_eq (h : s.take ring mbuf = some (pkt, s')) : ∃ rest, s.buffers ring = pkt :: rest ∧
    s' = (s.setBuffer ring rest).setBuffer mbuf [pkt] := by
  rw [Cores.take] at h
  split at h
  · cases h
  · next rest hring =>
    obtain ⟨rfl, rfl⟩ := Prod.mk.inj (Option.some.inj h)
    exact ⟨rest, hring, rfl⟩

/-! ### What is not touched -/

theorem give_frame (hmbuf : b ≠ mbuf) (hring : b ≠ ring) (s : Cores) (size : ℕ) :
    (s.give mbuf ring size).buffers b = s.buffers b := by
  rw [Cores.give]
  split
  · rfl
  · split
    · rw [setBuffer_buffers_of_ne hring, setBuffer_buffers_of_ne hmbuf]
    · exact setBuffer_buffers_of_ne hmbuf s _

theorem give_mbuf (hne : mbuf ≠ ring) (s : Cores) (size : ℕ) :
    (s.give mbuf ring size).buffers mbuf = (s.buffers mbuf).tail := by
  rw [Cores.give]
  split
  · next hmbuf => rw [hmbuf]; rfl
  · next hmbuf =>
    rw [hmbuf]
    split
    · rw [setBuffer_buffers_of_ne hne, setBuffer_buffers_self]
      rfl
    · exact setBuffer_buffers_self s mbuf _

theorem give_ports (s : Cores) (mbuf ring : Buffer) (size : ℕ) :
    (s.give mbuf ring size).rxPort = s.rxPort ∧
      (s.give mbuf ring size).rx2flowsPort = s.rx2flowsPort := by
  rw [Cores.give]
  split
  · exact ⟨rfl, rfl⟩
  · split <;> exact ⟨rfl, rfl⟩

theorem enqueueTx_frame (hmbuf : b ≠ mbuf) (s : Cores) (dstPort : ℕ) :
    (s.enqueueTx c mbuf dstPort).buffers b = s.buffers b := by
  rw [Cores.enqueueTx]
  split
  · rfl
  · exact setBuffer_buffers_of_ne hmbuf s _

theorem enqueueTx_mbuf (s : Cores) (dstPort : ℕ) :
    (s.enqueueTx c mbuf dstPort).buffers mbuf = (s.buffers mbuf).tail := by
  rw [Cores.enqueueTx]
  split
  · next hmbuf => rw [hmbuf]; rfl
  · next hmbuf =>
    rw [hmbuf]
    exact setBuffer_buffers_self s mbuf _

theorem enqueueTx_ports (s : Cores) (mbuf : Buffer) (dstPort : ℕ) :
    (s.enqueueTx c mbuf dstPort).rxPort = s.rxPort ∧
      (s.enqueueTx c mbuf dstPort).rx2flowsPort = s.rx2flowsPort := by
  rw [Cores.enqueueTx]
  split <;> exact ⟨rfl, rfl⟩

theorem take_frame (h : s.take ring mbuf = some (pkt, s')) (hmbuf : b ≠ mbuf) (hring : b ≠ ring) :
    s'.buffers b = s.buffers b := by
  obtain ⟨rest, -, rfl⟩ := take_eq h
  rw [setBuffer_buffers_of_ne hmbuf, setBuffer_buffers_of_ne hring]

theorem take_ports (h : s.take ring mbuf = some (pkt, s')) :
    s'.rxPort = s.rxPort ∧ s'.rx2flowsPort = s.rx2flowsPort := by
  obtain ⟨rest, -, rfl⟩ := take_eq h
  exact ⟨rfl, rfl⟩

end Operations

/-! ## One step -/

section Steps

variable (c : SwitchConfig) (s : Cores)

/-- No packet is moved. -/
structure Cores.Still (s s' : Cores) : Prop where
  buffers : s'.buffers = s.buffers
  ports : s'.ports = s.ports
  received : s'.received = s.received
  refused : s'.refused = s.refused
  loops : s'.rxPort = s.rxPort ∧ s'.rx2flowsPort = s.rx2flowsPort

/-- A packet is taken from a ring into a buffer, and nothing else is moved; or nothing is. -/
def Cores.Took (s : Cores) (ring : Option Buffer) (mbuf : Buffer) (s' : Cores) : Prop :=
  match ring with
  | none => s.Still s'
  | some ring => ∃ pkt s₁, s.take ring mbuf = some (pkt, s₁) ∧ s₁.Still s'

/-- How the core of node `n` goes on in its loop, and from which of its flows it takes a packet. -/
inductive NodeMove (n : Fin 2) : NodePc → Option (Fin 3) → NodePc → Prop where
  | wait : NodeMove n .check none .check
  | startSP (h : c.intraNode = .SP) (hroom : (s.buffers (.ringNodes n)).length < 20) :
      NodeMove n .check none (.sp 1)
  | startWFQ (h : c.intraNode = .WFQ) (hroom : (s.buffers (.ringNodes n)).length < 20) :
      NodeMove n .check none (.wfq 0 0)
  | startPFabric (h : c.intraNode = .pFabric) (hroom : (s.buffers (.ringNodes n)).length < 20) :
      NodeMove n .check none (.pFabric 2 (minRing (s.context c n)).1)
  | spNext (priority : ℤ) (i : Fin 3) (hi : flowOf (s.context c n) priority = some i)
      (hempty : s.buffers (.ringFlows (flowIndex n i)) = []) :
      NodeMove n (.sp priority) none (if priority < 3 then .sp (priority + 1) else .check)
  | spTake (priority : ℤ) (i : Fin 3) (hi : flowOf (s.context c n) priority = some i) :
      NodeMove n (.sp priority) (some i) .check
  | wfqPass (i : Fin 3) (j : ℤ)
      (h : j < Cores.flowWeight c n i → s.buffers (.ringFlows (flowIndex n i)) = []) :
      NodeMove n (.wfq i j) none (Cores.turnOf (i + 1))
  | wfqTake (i : Fin 3) (j : ℤ) (h : j < Cores.flowWeight c n i) :
      NodeMove n (.wfq i j) (some i) (.wfq i (j + 1))
  | pFabricNext (tries : ℕ) (ring : Fin 3)
      (hempty : s.buffers (.ringFlows (flowIndex n ring)) = []) :
      NodeMove n (.pFabric tries ring) none
        (if 1 < tries then .pFabric (tries - 1) (Cores.nextRing ring) else .check)
  | pFabricTake (tries : ℕ) (ring : Fin 3) : NodeMove n (.pFabric tries ring) (some ring) .check

/-- How the forwarding core goes on, and from which node it takes a packet. -/
inductive WorkerMove : WorkerPc → Option (Fin 2) → WorkerPc → Prop where
  | wait : WorkerMove .check none .check
  | startSP (h : c.interNode = .SP) : WorkerMove .check none (.sp 1)
  | startWFQ (h : c.interNode = .WFQ) : WorkerMove .check none (.wfq 0 0)
  | spNext (priority : ℤ) (n : Fin 2) (hn : Cores.nodeFor c priority = some n)
      (hempty : s.buffers (.ringNodes n) = []) :
      WorkerMove (.sp priority) none (if priority < 2 then .sp (priority + 1) else .check)
  | spTake (priority : ℤ) (n : Fin 2) (hn : Cores.nodeFor c priority = some n) :
      WorkerMove (.sp priority) (some n) .check
  | wfqPass (n : Fin 2) (j : ℤ) (h : j < Cores.nodeWeight c n → s.buffers (.ringNodes n) = []) :
      WorkerMove (.wfq n j) none (Cores.nodeTurn (n + 1))
  | wfqTake (n : Fin 2) (j : ℤ) (h : j < Cores.nodeWeight c n) :
      WorkerMove (.wfq n j) (some n) (.wfq n (j + 1))

variable {c s} {s' : Cores} {n : Fin 2}

theorem take_eq_none {ring mbuf : Buffer} (h : s.take ring mbuf = none) : s.buffers ring = [] := by
  rw [Cores.take] at h
  split at h
  · assumption
  · cases h

@[simp] theorem setNodePc_nodePc_self (s : Cores) (n : Fin 2) (pc : NodePc) :
    (s.setNodePc n pc).nodePc n = pc := Function.update_self _ _ _

theorem setNodePc_still (s : Cores) (n : Fin 2) (pc : NodePc) : s.Still (s.setNodePc n pc) :=
  ⟨rfl, rfl, rfl, rfl, rfl, rfl⟩

theorem setNodePc_frame (s : Cores) (pc : NodePc) {m : Fin 2} (h : m ≠ n) :
    (s.setNodePc n pc).nodePc m = s.nodePc m := Function.update_of_ne h _ _

theorem take_nodePc {ring mbuf : Buffer} {pkt : Packet} (h : s.take ring mbuf = some (pkt, s')) :
    s'.nodePc = s.nodePc ∧ s'.workerPc = s.workerPc := by
  obtain ⟨rest, -, rfl⟩ := take_eq h
  exact ⟨rfl, rfl⟩

/-- **What the core of a node can do**: it puts the packet in its buffer into the ring of the node,
or it goes on, and may take a packet from a flow. -/
theorem nodeStep_cases (h : s.nodeStep c n = some s') :
    (s.buffers (.nodeMbuf n) ≠ [] ∧
      s' = s.give (.nodeMbuf n) (.ringNodes n) c.ringNodesSize) ∨
    (s.buffers (.nodeMbuf n) = [] ∧ s'.workerPc = s.workerPc ∧
      (∀ m, m ≠ n → s'.nodePc m = s.nodePc m) ∧
      ∃ l, NodeMove c s n (s.nodePc n) l (s'.nodePc n) ∧
        s.Took (l.map fun i => .ringFlows (flowIndex n i)) (.nodeMbuf n) s') := by
  rw [Cores.nodeStep] at h
  split at h
  · next hmbuf => exact Or.inl ⟨hmbuf, (Option.some.inj h).symm⟩
  · next hmbuf =>
    refine Or.inr ⟨not_not.mp hmbuf, ?_⟩
    generalize hpc : s.nodePc n = pc at h ⊢
    have hgo : ∀ {s₁ : Cores} {pc' : NodePc} {l : Option (Fin 3)}, NodeMove c s n pc l pc' →
        s₁.workerPc = s.workerPc → s₁.nodePc = s.nodePc →
        s.Took (l.map fun i => .ringFlows (flowIndex n i)) (.nodeMbuf n) (s₁.setNodePc n pc') →
        (s₁.setNodePc n pc').workerPc = s.workerPc ∧
          (∀ m, m ≠ n → (s₁.setNodePc n pc').nodePc m = s.nodePc m) ∧
          ∃ l, NodeMove c s n pc l ((s₁.setNodePc n pc').nodePc n) ∧
            s.Took (l.map fun i => .ringFlows (flowIndex n i)) (.nodeMbuf n)
              (s₁.setNodePc n pc') := by
      intro s₁ pc' l hmove hworker hnode htook
      refine ⟨hworker, fun m hm => (setNodePc_frame s₁ pc' hm).trans (congrFun hnode m), l, ?_,
        htook⟩
      rw [setNodePc_nodePc_self]
      exact hmove
    cases pc with
    | check =>
      simp only [Cores.callNode] at h
      split at h
      · next hroom =>
        rw [Cores.startNode] at h
        split at h
        · next hintra =>
          obtain rfl := Option.some.inj h
          exact hgo (.startSP hintra hroom) rfl rfl (setNodePc_still s n _)
        · next hintra =>
          obtain rfl := Option.some.inj h
          exact hgo (.startWFQ hintra hroom) rfl rfl (setNodePc_still s n _)
        · next hintra =>
          obtain rfl := Option.some.inj h
          exact hgo (.startPFabric hintra hroom) rfl rfl (setNodePc_still s n _)
        · cases h
      · obtain rfl := Option.some.inj h
        exact ⟨rfl, fun _ _ => rfl, none, by rw [hpc]; exact .wait, rfl, rfl, rfl, rfl, rfl, rfl⟩
    | sp priority =>
      obtain ⟨i, hi, hs'⟩ := Option.map_eq_some_iff.mp h
      split at hs'
      · next hnone =>
        obtain rfl := hs'
        exact hgo (.spNext priority i hi (take_eq_none hnone)) rfl rfl (setNodePc_still s n _)
      · next pkt s₁ htake =>
        obtain rfl := hs'
        exact hgo (.spTake priority i hi) (take_nodePc htake).2 (take_nodePc htake).1
          ⟨pkt, s₁, htake, setNodePc_still s₁ n _⟩
    | wfq i j =>
      simp only [Cores.callNode, Option.some.injEq] at h
      split at h
      · next hj =>
        split at h
        · next hnone =>
          obtain rfl := h
          exact hgo (.wfqPass i j fun _ => take_eq_none hnone) rfl rfl (setNodePc_still s n _)
        · next pkt s₁ htake =>
          obtain rfl := h
          exact hgo (.wfqTake i j hj) (take_nodePc htake).2 (take_nodePc htake).1
            ⟨pkt, s₁, htake, setNodePc_still s₁ n _⟩
      · next hj =>
        obtain rfl := h
        exact hgo (.wfqPass i j fun h => absurd h hj) rfl rfl (setNodePc_still s n _)
    | pFabric tries ring =>
      simp only [Cores.callNode, Option.some.injEq] at h
      split at h
      · next hnone =>
        obtain rfl := h
        exact hgo (.pFabricNext tries ring (take_eq_none hnone)) rfl rfl (setNodePc_still s n _)
      · next pkt s₁ htake =>
        obtain rfl := h
        exact hgo (.pFabricTake tries ring) (take_nodePc htake).2 (take_nodePc htake).1
          ⟨pkt, s₁, htake, rfl, rfl, rfl, rfl, rfl, rfl⟩

/-- **What the forwarding core can do.** -/
theorem workerStep_cases (h : s.workerStep c = some s') :
    (s.buffers .workerMbuf ≠ [] ∧ s' = s.enqueueTx c .workerMbuf c.defaultPort) ∨
    (s.buffers .workerMbuf = [] ∧ s'.nodePc = s.nodePc ∧
      ∃ l, WorkerMove c s s.workerPc l s'.workerPc ∧
        s.Took (l.map fun n => .ringNodes n) .workerMbuf s') := by
  rw [Cores.workerStep] at h
  split at h
  · next hmbuf => exact Or.inl ⟨hmbuf, (Option.some.inj h).symm⟩
  · next hmbuf =>
    refine Or.inr ⟨not_not.mp hmbuf, ?_⟩
    generalize hpc : s.workerPc = pc at h ⊢
    cases pc with
    | check =>
      simp only [Cores.callWorker] at h
      split at h
      · rw [Cores.startWorker] at h
        split at h
        · next hinter =>
          obtain rfl := Option.some.inj h
          exact ⟨rfl, none, .startSP hinter, rfl, rfl, rfl, rfl, rfl, rfl⟩
        · next hinter =>
          obtain rfl := Option.some.inj h
          exact ⟨rfl, none, .startWFQ hinter, rfl, rfl, rfl, rfl, rfl, rfl⟩
        · cases h
      · obtain rfl := Option.some.inj h
        exact ⟨rfl, none, by rw [hpc]; exact .wait, rfl, rfl, rfl, rfl, rfl, rfl⟩
    | sp priority =>
      obtain ⟨n, hn, hs'⟩ := Option.map_eq_some_iff.mp h
      split at hs'
      · next hnone =>
        obtain rfl := hs'
        exact ⟨rfl, none, .spNext priority n hn (take_eq_none hnone), rfl, rfl, rfl, rfl, rfl, rfl⟩
      · next pkt s₁ htake =>
        obtain rfl := hs'
        exact ⟨(take_nodePc htake).1, some n, .spTake priority n hn, pkt, s₁, htake, rfl, rfl, rfl,
          rfl, rfl, rfl⟩
    | wfq n j =>
      simp only [Cores.callWorker, Option.some.injEq] at h
      split at h
      · next hj =>
        split at h
        · next hnone =>
          obtain rfl := h
          exact ⟨rfl, none, .wfqPass n j fun _ => take_eq_none hnone, rfl, rfl, rfl, rfl, rfl, rfl⟩
        · next pkt s₁ htake =>
          obtain rfl := h
          exact ⟨(take_nodePc htake).1, some n, .wfqTake n j hj, pkt, s₁, htake, rfl, rfl, rfl, rfl,
            rfl, rfl⟩
      · next hj =>
        obtain rfl := h
        exact ⟨rfl, none, .wfqPass n j fun h => absurd h hj, rfl, rfl, rfl, rfl, rfl, rfl⟩

end Steps

/-! ## An example -/

/-- The settings of `switch.conf.example`, with two ports and without a rate limit. -/
def exampleSwitch : SwitchConfig where
  toConfig := { smallBuffer with nPorts := 2 }
  port := 0
  defaultPort := 1
  intraNode := .SP
  interNode := .SP
  flowSrcPorts := ![8081, 8082, 8083, 8084, 8085, 8086]
  spPriority := ![1, 2, 1, 2, 3, 1, 2, 3]
  wfqWeight := ![1, 1, 1, 1, 2, 1, 1, 2]
  pFabricSize := fun _ => 15000
  burstSizeRxRead := 64
  ringRxSize := 1023
  ringFlowsSize := 1023
  ringNodesSize := 1023

/-- Every packet comes in at the host port and belongs to flow 3. -/
def exampleHeaders : Headers := ⟨fun _ => 0, fun _ => 8084, fun _ => 80⟩

/-- A packet is received, sorted, moved to the ring of its node, and forwarded. -/
def exampleActions : List Cores.Action :=
  [.arrive shortPacket, .rx 1, .rx 0, .rx2flows, .rx2flows] ++
    List.replicate 3 (.node (Fin.last 1)) ++ List.replicate 4 .worker ++ [.tx 1 0 [1]]

end Dpdk

end VPifo
