import VPifo.Compiler.TraceFormat
import VPifo.Compiler.TreeBuilder

/-!
# `SchedStrategy.cpp`: tagging the packets

`tagPriority` goes over the packets of a capture file.  A packet of a flow that was
attached to a node gets one rank for that node and one for every node above it, computed
by the strategy there (`tagPriorityTillRoot`), and is printed as a push followed by a pop;
when its time is more than a cycle after the packet before it, an idle record comes first,
and after five such gaps nothing more is printed.

Three things are separated here that the source does in one pass.  Which packets are
printed, and which of them after a gap, depends on the flows and the times only
(`taggedFrom`).  Where a rank comes from depends on the path to the root only (`path`): a
table, the total of a flow, or a fair queue.  And a fair queue sees its own calls in order
and nothing else (`callsOn`), so its ranks are the start tags of that sequence.
`RanksFrom.serve` and `printed_of_tagLoop` put the pass together from these.
-/

namespace VPifo.Sdl

open Numerals Trace

/-- A packet of the capture file: its flow, its time stamp and its length on the wire. -/
structure Packet where
  flowId : String
  tvSec : ℤ
  tvUsec : ℤ
  len : ℕ

section Tag

variable {F : Type} (D : Doubles F)

/-- `tsToCycle`, with `FREQUENCY` at `200e6`. -/
def tsToCycle (p : Packet) : ℤ :=
  D.toLongLong (D.add (D.mul (D.ofInt p.tvSec) (D.ofInt 200000000))
    (D.mul (D.ofInt p.tvUsec) (D.div (D.ofInt 200000000) (D.ofInt 1000000))))

/-! ## `PFabric.cpp` and `SP.cpp` -/

/-- The value an `int` holds after an assignment. -/
def toInt32 (x : ℤ) : ℤ := x.bmod (2 ^ 32)

/-- `initFlowRemainingSizeHandler`. -/
def initFlowRemainingSizeHandler (table : String → Option ℤ) (p : Packet) : String → Option ℤ :=
  Function.update table p.flowId
    (some (match table p.flowId with
      | none => toInt32 p.len
      | some size => toInt32 (size + p.len)))

/-- `pFabricInitFlowRemainingSize`: the table of totals it leaves. -/
def pFabricInitFlowRemainingSize (packets : List Packet) : String → Option ℤ :=
  packets.foldl initFlowRemainingSizeHandler fun _ => none

/-- `calPFabricPriority`. -/
def calPFabricPriority (flowRemainingSizeTable : String → Option ℤ) (flowId : String) :
    Option ℤ :=
  match flowRemainingSizeTable flowId with
  | none => none
  | some priority => if priority > 0 then some priority else none

/-- `calSPLeafPriority`. -/
def calSPLeafPriority (priorityTable : String → Option ℤ) (flowId : String) : Option ℤ :=
  priorityTable flowId

/-- `calSPNonLeafPriority`. -/
def calSPNonLeafPriority (priorityTable : String → Option ℤ) (childNodeId : ℤ) : Option ℤ :=
  priorityTable (toString childNodeId)

/-! ## `tagPriorityTillRoot` -/

variable (h : Heap F) (sizes : String → Option ℤ) (p : Packet)

/-- The objects of the fair queues, the one thing that ranking a packet changes. -/
abbrev Queues (F : Type) := ℕ → StrategyWFQ F

/-- The first `switch`: the rank at the node the flow is attached to. -/
def leafPriority (strategy : SchedStrategy) (q : Queues F) : Option (ℤ × Queues F) :=
  match strategy with
  | .unknown => none
  | .pFabric => (calPFabricPriority sizes p.flowId).map fun r => (r, q)
  | .sp table => (calSPLeafPriority (h.priorityTable table) p.flowId).map fun r => (r, q)
  | .wfq object =>
      (calWFQLeafPriority D p.flowId (tsToCycle D p) p.len (q object)).map fun r =>
        (r.1, Function.update q object r.2)

/-- The second `switch`: the rank that the strategy of a father gives to a child. -/
def nonLeafPriority (strategy : SchedStrategy) (childNodeId : ℤ) (q : Queues F) :
    Option (ℤ × Queues F) :=
  match strategy with
  | .unknown => none
  | .pFabric => none
  | .sp table => (calSPNonLeafPriority (h.priorityTable table) childNodeId).map fun r => (r, q)
  | .wfq object =>
      (calWFQNonLeafPriority D childNodeId (tsToCycle D p) p.len (q object)).map fun r =>
        (r.1, Function.update q object r.2)

/-- `while(node->father)`.  A way up that is longer than the number of nodes runs in a
circle, and the loop does not end. -/
def climb : ℕ → TreeNode → Queues F → Option (List ℤ × Queues F)
  | 0, node, q =>
    match node.father with
    | none => some ([], q)
    | some _ => none
  | fuel + 1, node, q =>
    match node.father with
    | none => some ([], q)
    | some f =>
      match h.nodes[f]? with
      | none => none
      | some fatherNode =>
        (nonLeafPriority D h p fatherNode.strategy node.nodeId q).bind fun r =>
          (climb fuel fatherNode r.2).map fun rest => (r.1 :: rest.1, rest.2)

/-- `tagPriorityTillRoot`: `priorityVec`, from the leaf up. -/
def tagPriorityTillRoot (leafNode : TreeNode) (q : Queues F) : Option (List ℤ × Queues F) :=
  (leafPriority D h sizes p leafNode.strategy q).bind fun r =>
    (climb D h p h.nodes.length leafNode r.2).map fun rest => (r.1 :: rest.1, rest.2)

/-! ## `tagPriorityHandler` and `tagPriority` -/

/-- `MAX_IDLECYCLE`. -/
def MAX_IDLECYCLE : ℤ := 2 ^ 8 - 1

/-- `MAX_INTERVAL_IDLECYCLE`. -/
def MAX_INTERVAL_IDLECYCLE : ℤ := 107

/-- The static variables of the pass, and the fair queues. -/
structure TagState (F : Type) where
  q : Queues F
  curCycle : ℤ
  pktId : ℤ
  idleCycleCnt : ℤ

/-- The idle record printed for the time since the packet before. -/
def gapRecord (curCycle thisPacketCycle : ℤ) : List Record :=
  if thisPacketCycle - curCycle > 1 then
    if curCycle ≠ 0 then
      [.idle (min (thisPacketCycle - curCycle - 1) MAX_INTERVAL_IDLECYCLE)]
    else [.idle 10]
  else []

/-- `idle_cycle_cnt` after that. -/
def nextIdleCycleCnt (curCycle thisPacketCycle idleCycleCnt : ℤ) : ℤ :=
  if thisPacketCycle - curCycle > 1 ∧ curCycle ≠ 0 then idleCycleCnt + 1 else idleCycleCnt

/-- `tagPriorityHandler`: what one packet does to the state, and what is printed. -/
def tagPriorityHandler (s : TagState F) : Option (TagState F × List Record) :=
  if s.idleCycleCnt > 4 then some (s, [])
  else
    match h.flowNodeMap p.flowId with
    | none => some (s, [])
    | some leaf =>
      match h.nodes[leaf]? with
      | none => none
      | some leafNode =>
        (tagPriorityTillRoot D h sizes p leafNode s.q).bind fun r =>
          let thisPacketCycle := tsToCycle D p
          if thisPacketCycle ≥ s.curCycle then
            some
              (⟨r.2, thisPacketCycle, s.pktId + 1,
                nextIdleCycleCnt s.curCycle thisPacketCycle s.idleCycleCnt⟩,
                gapRecord s.curCycle thisPacketCycle ++
                  [.push leafNode.nodeId s.pktId r.1, .pop])
          else none

/-- `pcap_loop` with the handler. -/
def tagLoop : List Packet → TagState F → Option (List Record)
  | [], _ => some []
  | p :: ps, s =>
    (tagPriorityHandler D h sizes p s).bind fun r =>
      (tagLoop ps r.1).map fun rest => r.2 ++ rest

/-- `FlowRemainingSizeTable` when the loop starts. -/
def flowRemainingSizeTable (packets : List Packet) (hasPFabric : Bool) : String → Option ℤ :=
  if hasPFabric then pFabricInitFlowRemainingSize packets else fun _ => none

/-- `tagPriority`: the records of the trace file. -/
def tagPriority (packets : List Packet) (hasPFabric : Bool) : Option (List Record) :=
  (tagLoop D h (flowRemainingSizeTable packets hasPFabric) packets ⟨h.wfq, 0, 0, 0⟩).map
    fun out => out ++ [.idle MAX_IDLECYCLE]

/-! ## Where the ranks come from -/

/-- The strategies that rank a packet above a node, each with the key it knows the child
by. -/
def pathAbove : ℕ → TreeNode → List (SchedStrategy × String)
  | 0, _ => []
  | fuel + 1, node =>
    match node.father with
    | none => []
    | some f =>
      match h.nodes[f]? with
      | none => []
      | some fatherNode =>
        (fatherNode.strategy, toString node.nodeId) :: pathAbove fuel fatherNode

/-- The strategies that rank a packet, from the leaf up; the leaf knows it by its flow. -/
def path (leafNode : TreeNode) : List (SchedStrategy × String) :=
  (leafNode.strategy, p.flowId) :: pathAbove h h.nodes.length leafNode

/-- The source of one rank: the total of a flow, an entry of a table, or the start tag of
a fair queue, which is the one thing that changes. -/
def RankFrom (entry : SchedStrategy × String) (q : Queues F) (r : ℤ) (q' : Queues F) : Prop :=
  match entry.1 with
  | .unknown => False
  | .pFabric => sizes entry.2 = some r ∧ q' = q
  | .sp table => h.priorityTable table entry.2 = some r ∧ q' = q
  | .wfq object =>
      ∃ s, calWFQPriority D ⟨entry.2, tsToCycle D p, p.len⟩ (q object) = some (r, s) ∧
        q' = Function.update q object s

/-- The sources of the ranks along a path. -/
inductive RanksFrom :
    List (SchedStrategy × String) → Queues F → List ℤ → Queues F → Prop
  | nil (q : Queues F) : RanksFrom [] q [] q
  | cons {entry : SchedStrategy × String} {entries : List (SchedStrategy × String)}
      {q q' q'' : Queues F} {r : ℤ} {rs : List ℤ} (head : RankFrom D h sizes p entry q r q')
      (tail : RanksFrom entries q' rs q'') : RanksFrom (entry :: entries) q (r :: rs) q''

variable {D h sizes p}

theorem rankFrom_of_leafPriority {strategy : SchedStrategy} {q q' : Queues F} {r : ℤ}
    (hrank : leafPriority D h sizes p strategy q = some (r, q')) :
    RankFrom D h sizes p (strategy, p.flowId) q r q' := by
  cases strategy with
  | unknown => exact absurd hrank (by simp [leafPriority])
  | pFabric =>
    obtain ⟨size, hsize, heq⟩ := Option.map_eq_some_iff.1 hrank
    obtain ⟨rfl, rfl⟩ := Prod.mk.inj heq
    refine ⟨?_, rfl⟩
    unfold calPFabricPriority at hsize
    split at hsize
    · exact absurd hsize (by simp)
    · split_ifs at hsize
      obtain rfl := Option.some.inj hsize
      assumption
  | sp table =>
    obtain ⟨prio, hprio, heq⟩ := Option.map_eq_some_iff.1 hrank
    obtain ⟨rfl, rfl⟩ := Prod.mk.inj heq
    exact ⟨hprio, rfl⟩
  | wfq object =>
    obtain ⟨⟨tag, s⟩, htag, heq⟩ := Option.map_eq_some_iff.1 hrank
    obtain ⟨rfl, rfl⟩ := Prod.mk.inj heq
    exact ⟨s, htag, rfl⟩

theorem rankFrom_of_nonLeafPriority {strategy : SchedStrategy} {childNodeId : ℤ}
    {q q' : Queues F} {r : ℤ}
    (hrank : nonLeafPriority D h p strategy childNodeId q = some (r, q')) :
    RankFrom D h sizes p (strategy, toString childNodeId) q r q' := by
  cases strategy with
  | unknown => exact absurd hrank (by simp [nonLeafPriority])
  | pFabric => exact absurd hrank (by simp [nonLeafPriority])
  | sp table =>
    obtain ⟨prio, hprio, heq⟩ := Option.map_eq_some_iff.1 hrank
    obtain ⟨rfl, rfl⟩ := Prod.mk.inj heq
    exact ⟨hprio, rfl⟩
  | wfq object =>
    obtain ⟨⟨tag, s⟩, htag, heq⟩ := Option.map_eq_some_iff.1 hrank
    obtain ⟨rfl, rfl⟩ := Prod.mk.inj heq
    exact ⟨s, htag, rfl⟩

/-- The ranks of the loop come from the path above the node. -/
theorem ranksFrom_of_climb {fuel : ℕ} {node : TreeNode} {q q' : Queues F} {rs : List ℤ}
    (hclimb : climb D h p fuel node q = some (rs, q')) :
    RanksFrom D h sizes p (pathAbove h fuel node) q rs q' := by
  induction fuel generalizing node q rs with
  | zero =>
    rw [climb] at hclimb
    split at hclimb
    · obtain ⟨rfl, rfl⟩ := Prod.mk.inj (Option.some.inj hclimb)
      exact .nil q
    · exact absurd hclimb (by simp)
  | succ fuel ih =>
    rw [climb] at hclimb
    rw [pathAbove]
    split at hclimb
    · obtain ⟨rfl, rfl⟩ := Prod.mk.inj (Option.some.inj hclimb)
      exact .nil q
    · split at hclimb
      · exact absurd hclimb (by simp)
      · obtain ⟨⟨r, q₁⟩, hrank, hrest⟩ := Option.bind_eq_some_iff.1 hclimb
        obtain ⟨⟨rs', q₂⟩, hrec, heq⟩ := Option.map_eq_some_iff.1 hrest
        obtain ⟨rfl, rfl⟩ := Prod.mk.inj heq
        exact .cons (rankFrom_of_nonLeafPriority hrank) (ih hrec)

/-- **Every rank has its place on the way to the root.** -/
theorem ranksFrom_of_tagPriorityTillRoot {leafNode : TreeNode} {q q' : Queues F} {rs : List ℤ}
    (htag : tagPriorityTillRoot D h sizes p leafNode q = some (rs, q')) :
    RanksFrom D h sizes p (path h p leafNode) q rs q' := by
  obtain ⟨⟨r, q₁⟩, hrank, hrest⟩ := Option.bind_eq_some_iff.1 htag
  obtain ⟨⟨rs', q₂⟩, hrec, heq⟩ := Option.map_eq_some_iff.1 hrest
  obtain ⟨rfl, rfl⟩ := Prod.mk.inj heq
  exact .cons (rankFrom_of_leafPriority hrank) (ranksFrom_of_climb hrec)

theorem RanksFrom.length_eq {entries : List (SchedStrategy × String)} {q q' : Queues F}
    {rs : List ℤ} (hranks : RanksFrom D h sizes p entries q rs q') :
    rs.length = entries.length := by
  induction hranks with
  | nil q => rfl
  | cons head tail ih => rw [List.length_cons, List.length_cons, ih]

/-! ## What a fair queue sees -/

variable (D p) in
/-- The calls that one object gets for a packet. -/
def callsOn (object : ℕ) (entries : List (SchedStrategy × String)) : List WFQCall :=
  entries.filterMap fun entry =>
    if entry.1 = .wfq object then some ⟨entry.2, tsToCycle D p, p.len⟩ else none

/-- A rank is a call of the object it names, and no other object notices. -/
theorem RankFrom.at_object {entry : SchedStrategy × String} {q q' : Queues F} {r : ℤ}
    (hrank : RankFrom D h sizes p entry q r q') (object : ℕ) :
    (entry.1 = .wfq object →
      calWFQPriority D ⟨entry.2, tsToCycle D p, p.len⟩ (q object) = some (r, q' object)) ∧
      (entry.1 ≠ .wfq object → q' object = q object) := by
  obtain ⟨strategy, key⟩ := entry
  cases strategy with
  | unknown => exact hrank.elim
  | pFabric => exact ⟨fun heq => absurd heq (by simp), fun _ => by rw [hrank.2]⟩
  | sp table => exact ⟨fun heq => absurd heq (by simp), fun _ => by rw [hrank.2]⟩
  | wfq other =>
    obtain ⟨s, hcall, rfl⟩ := hrank
    constructor
    · intro heq
      obtain rfl := SchedStrategy.wfq.inj heq
      rw [Function.update_self]
      exact hcall
    · intro hne
      have hobject : object ≠ other := by
        rintro rfl
        exact hne rfl
      exact Function.update_of_ne hobject _ _

theorem callsOn_cons_self {entry : SchedStrategy × String} {object : ℕ}
    (hown : entry.1 = .wfq object) (entries : List (SchedStrategy × String)) :
    callsOn D p object (entry :: entries) =
      ⟨entry.2, tsToCycle D p, p.len⟩ :: callsOn D p object entries := by
  simp [callsOn, hown]

theorem callsOn_cons_of_ne {entry : SchedStrategy × String} {object : ℕ}
    (hother : entry.1 ≠ .wfq object) (entries : List (SchedStrategy × String)) :
    callsOn D p object (entry :: entries) = callsOn D p object entries := by
  simp [callsOn, hother]

/-- An object answers its own calls, in the order of the path. -/
theorem RanksFrom.serve {entries : List (SchedStrategy × String)} {q q' : Queues F}
    {rs : List ℤ} (hranks : RanksFrom D h sizes p entries q rs q') (object : ℕ) :
    ∃ tags, serve D (q object) (callsOn D p object entries) = some (tags, q' object) := by
  induction hranks with
  | nil q => exact ⟨[], rfl⟩
  | @cons entry entries q q₁ q₂ r rs head tail ih =>
    obtain ⟨tags, htags⟩ := ih
    by_cases hown : entry.1 = .wfq object
    · refine ⟨r :: tags, ?_⟩
      rw [callsOn_cons_self hown, Sdl.serve, (head.at_object object).1 hown, Option.bind_some,
        htags]
      rfl
    · rw [(head.at_object object).2 hown] at htags
      exact ⟨tags, by rw [callsOn_cons_of_ne hown, htags]⟩

/-- The start tags for a longer path: the rank in front, if it is one of this object. -/
theorem RankFrom.startTags_cons {entry : SchedStrategy × String}
    {entries : List (SchedStrategy × String)} {q q₁ q₂ : Queues F} {r : ℤ} {rs : List ℤ}
    (head : RankFrom D h sizes p entry q r q₁)
    (tail : RanksFrom D h sizes p entries q₁ rs q₂) (object : ℕ) :
    startTags D (q object) (callsOn D p object (entry :: entries)) =
      if entry.1 = .wfq object then r :: startTags D (q₁ object) (callsOn D p object entries)
      else startTags D (q₁ object) (callsOn D p object entries) := by
  split_ifs with hown
  · obtain ⟨tags, htags⟩ := tail.serve object
    have hserve : Sdl.serve D (q object) (callsOn D p object (entry :: entries)) =
        some (r :: tags, q₂ object) := by
      rw [callsOn_cons_self hown, Sdl.serve, (head.at_object object).1 hown, Option.bind_some,
        htags]
      rfl
    rw [startTags_eq hserve, startTags_eq htags]
  · rw [callsOn_cons_of_ne hown, (head.at_object object).2 hown]

variable (h sizes) in
/-- The total or the table entry that an entry of a path reads, if it reads one, has the
property. -/
def TableHas (P : ℤ → Prop) (entry : SchedStrategy × String) : Prop :=
  match entry.1 with
  | .pFabric => ∀ r, sizes entry.2 = some r → P r
  | .sp table => ∀ r, h.priorityTable table entry.2 = some r → P r
  | _ => True

/-- A rank is a table entry or a start tag. -/
theorem RankFrom.tableHas_iff {entry : SchedStrategy × String} {q q' : Queues F} {r : ℤ}
    (hrank : RankFrom D h sizes p entry q r q') (P : ℤ → Prop) :
    P r ↔ TableHas h sizes P entry ∧ ((∃ object, entry.1 = .wfq object) → P r) := by
  obtain ⟨strategy, key⟩ := entry
  cases strategy with
  | unknown => exact hrank.elim
  | pFabric => simp [TableHas, hrank.1]
  | sp table => simp [TableHas, hrank.1]
  | wfq object => simp [TableHas]

/-- All ranks of a packet have a property exactly when the table entries on its path have
it and the start tags that the fair queues give to their calls. -/
theorem RanksFrom.forall_iff {entries : List (SchedStrategy × String)} {q q' : Queues F}
    {rs : List ℤ} (hranks : RanksFrom D h sizes p entries q rs q') (P : ℤ → Prop) :
    (∀ r ∈ rs, P r) ↔ (∀ entry ∈ entries, TableHas h sizes P entry) ∧
      ∀ object, ∀ r ∈ startTags D (q object) (callsOn D p object entries), P r := by
  induction hranks with
  | nil q => simp [callsOn, startTags, Sdl.serve]
  | @cons entry entries q q₁ q₂ r rs head tail ih =>
    have htags : (∀ object, ∀ t ∈ startTags D (q object) (callsOn D p object (entry :: entries)),
        P t) ↔ ((∃ object, entry.1 = .wfq object) → P r) ∧
          ∀ object, ∀ t ∈ startTags D (q₁ object) (callsOn D p object entries), P t := by
      constructor
      · intro hall
        constructor
        · rintro ⟨object, hown⟩
          have h := hall object
          rw [head.startTags_cons tail, if_pos hown] at h
          exact h r List.mem_cons_self
        · intro object t ht
          have h := hall object
          rw [head.startTags_cons tail] at h
          split_ifs at h
          · exact h t (List.mem_cons_of_mem r ht)
          · exact h t ht
      · rintro ⟨hr, hall⟩ object
        rw [head.startTags_cons tail]
        split_ifs with hown
        · exact List.forall_mem_cons.2 ⟨hr ⟨object, hown⟩, hall object⟩
        · exact hall object
    have hr := head.tableHas_iff P
    rw [List.forall_mem_cons, List.forall_mem_cons, ih, htags]
    constructor
    · rintro ⟨hP, htables, hqueues⟩
      exact ⟨⟨(hr.1 hP).1, htables⟩, fun _ => hP, hqueues⟩
    · rintro ⟨⟨htable, htables⟩, hqueue, hqueues⟩
      exact ⟨hr.2 ⟨htable, hqueue⟩, htables, hqueues⟩

/-! ## Which packets are printed -/

/-- A packet that is printed, with the node its flow is attached to and the cycle of the
packet printed before it. -/
structure Tagged where
  curCycle : ℤ
  leaf : ℕ
  packet : Packet

variable (D h) in
/-- The packets of a list that are printed: those of an attached flow, until the fifth
gap. -/
def taggedFrom (curCycle idleCycleCnt : ℤ) : List Packet → List Tagged
  | [] => []
  | p :: ps =>
    if idleCycleCnt > 4 then []
    else
      match h.flowNodeMap p.flowId with
      | none => taggedFrom curCycle idleCycleCnt ps
      | some leaf =>
        ⟨curCycle, leaf, p⟩ ::
          taggedFrom (tsToCycle D p) (nextIdleCycleCnt curCycle (tsToCycle D p) idleCycleCnt) ps

variable (D h sizes) in
/-- What is printed for a list of tagged packets, with metas from `pktId` on: an idle
record where there is a gap, a push with the ranks along the path, a pop. -/
inductive Printed : Queues F → ℤ → List Tagged → List Record → Prop
  | nil (q : Queues F) (pktId : ℤ) : Printed q pktId [] []
  | cons {q q' : Queues F} {pktId : ℤ} {t : Tagged} {ts : List Tagged} {leafNode : TreeNode}
      {priorityVec : List ℤ} {out : List Record}
      (leaf : h.nodes[t.leaf]? = some leafNode)
      (ranks : RanksFrom D h sizes t.packet (path h t.packet leafNode) q priorityVec q')
      (rest : Printed q' (pktId + 1) ts out) :
      Printed q pktId (t :: ts)
        (gapRecord t.curCycle (tsToCycle D t.packet) ++
          (.push leafNode.nodeId pktId priorityVec :: .pop :: out))

/-- Every tagged packet is one of a flow attached to its leaf. -/
theorem flowNodeMap_of_mem_taggedFrom {packets : List Packet} {curCycle idleCycleCnt : ℤ}
    {t : Tagged} (ht : t ∈ taggedFrom D h curCycle idleCycleCnt packets) :
    h.flowNodeMap t.packet.flowId = some t.leaf := by
  induction packets generalizing curCycle idleCycleCnt with
  | nil => simp [taggedFrom] at ht
  | cons p ps ih =>
    rw [taggedFrom] at ht
    split_ifs at ht
    · simp at ht
    · split at ht
      · exact ih ht
      · rename_i leaf hleaf
        rcases List.mem_cons.1 ht with rfl | ht
        · exact hleaf
        · exact ih ht

/-- After the fifth gap nothing is printed. -/
theorem tagLoop_of_gaps {packets : List Packet} {s : TagState F} (hgaps : s.idleCycleCnt > 4) :
    tagLoop D h sizes packets s = some [] := by
  induction packets with
  | nil => rfl
  | cons p ps ih =>
    rw [tagLoop, tagPriorityHandler, if_pos hgaps, Option.bind_some, ih]
    rfl

/-- **What the pass prints.**  The loop over the packets prints the tagged packets, one
after the other. -/
theorem printed_of_tagLoop {packets : List Packet} {s : TagState F} {out : List Record}
    (hloop : tagLoop D h sizes packets s = some out) :
    Printed D h sizes s.q s.pktId (taggedFrom D h s.curCycle s.idleCycleCnt packets) out := by
  induction packets generalizing s out with
  | nil =>
    obtain rfl := Option.some.inj hloop
    exact .nil _ _
  | cons p ps ih =>
    by_cases hgaps : s.idleCycleCnt > 4
    · rw [tagLoop_of_gaps hgaps] at hloop
      obtain rfl := Option.some.inj hloop
      rw [taggedFrom, if_pos hgaps]
      exact .nil _ _
    · obtain ⟨⟨s₁, printed⟩, hhandler, hrest⟩ := Option.bind_eq_some_iff.1 hloop
      obtain ⟨out', hout', rfl⟩ := Option.map_eq_some_iff.1 hrest
      rw [tagPriorityHandler, if_neg hgaps] at hhandler
      rw [taggedFrom, if_neg hgaps]
      split at hhandler
      · -- a packet of no attached flow leaves the state as it is
        obtain ⟨rfl, rfl⟩ := Prod.mk.inj (Option.some.inj hhandler)
        exact ih hout'
      · rename_i leaf hflow
        split at hhandler
        · exact absurd hhandler (by simp)
        · rename_i leafNode hleaf
          obtain ⟨⟨priorityVec, q'⟩, htag, hhandler⟩ := Option.bind_eq_some_iff.1 hhandler
          simp only [Option.ite_none_right_eq_some, Option.some.injEq, Prod.mk.injEq] at hhandler
          obtain ⟨-, rfl, rfl⟩ := hhandler
          have hprinted := Printed.cons (t := ⟨s.curCycle, leaf, p⟩) hleaf
            (ranksFrom_of_tagPriorityTillRoot htag) (ih hout')
          simpa using hprinted

end Tag

end VPifo.Sdl
