import VPifo.Compiler.TagPriority

/-!
# Which traces the memory image can hold

The tagger numbers the trees by the counter of `createTreeNode`, which moves on by ten;
the script gives a tree identifier `TREE_NUM_BITS = 2` bits, pads and never checks.  The
first node has number `0` and the second `10`, so the line of a packet is a word of the
ROM only if the leaf of its flow was the first node the program created, before the root.
`trace_fits_iff` is the exact account: besides the leaf, every rank must fit `PTW` bits,
and the lines must not be more than the ROM has.  The metas and the idle counts need no
condition of their own.

`spTrace_does_not_fit` is the smallest program of the kind the repository's tests are: a
root, one leaf below it, one flow, one packet.
-/

namespace VPifo.Sdl

open Numerals Trace

/-- The widths set in `trace2mem.py`. -/
def sdlWidths : TraceWidths where
  PTW := 24
  MTW := 13
  TREE_NUM_BITS := 2
  IDLECYCLE_BITS := 8

/-- `ROM_SIZE`. -/
def ROM_SIZE : ℕ := 16384

theorem sdlWidths_ok : sdlWidths.Ok := by constructor <;> decide

section Fits

variable {F : Type} (D : Doubles F) (h : Heap F) (sizes : String → Option ℤ)

/-- Every flow is attached to a node one level below a root. -/
def OneLevel : Prop :=
  ∀ flowId leaf, h.flowNodeMap flowId = some leaf →
    ∃ leafNode f root, h.nodes[leaf]? = some leafNode ∧ leafNode.father = some f ∧
      h.nodes[f]? = some root ∧ root.father = none

/-- The calls that one fair queue gets for a list of packets. -/
def objectCalls (object : ℕ) (ts : List Tagged) : List WFQCall :=
  ts.flatMap fun t =>
    match h.nodes[t.leaf]? with
    | none => []
    | some leafNode => callsOn D t.packet object (path h t.packet leafNode)

/-- There is an idle record in front of the packet. -/
def hasGap (t : Tagged) : Bool := decide (tsToCycle D t.packet - t.curCycle > 1)

variable {D h sizes}

theorem length_gapRecord (t : Tagged) :
    (gapRecord t.curCycle (tsToCycle D t.packet)).length = if hasGap D t then 1 else 0 := by
  unfold gapRecord hasGap
  by_cases hgap : tsToCycle D t.packet - t.curCycle > 1
  · by_cases hfirst : t.curCycle ≠ 0 <;> simp [hgap, hfirst]
  · simp [hgap]

/-- The idle counts that are printed fit. -/
theorem fits_gapRecord (curCycle thisPacketCycle : ℤ) :
    ∀ r ∈ gapRecord curCycle thisPacketCycle, r.Fits sdlWidths := by
  intro r hr
  unfold gapRecord at hr
  split_ifs at hr with hgap hfirst
  · rw [List.mem_singleton.1 hr]
    have hmin : min (thisPacketCycle - curCycle - 1) MAX_INTERVAL_IDLECYCLE ≤ 107 :=
      min_le_right _ _
    have hpos : 0 ≤ min (thisPacketCycle - curCycle - 1) MAX_INTERVAL_IDLECYCLE :=
      le_min (by omega) (by decide)
    exact ⟨hpos, lt_of_le_of_lt hmin (by decide)⟩
  · rw [List.mem_singleton.1 hr]
    exact (by decide : InRange sdlWidths.IDLECYCLE_BITS 10)
  · simp at hr

/-- A push with two ranks fits when its four values do. -/
theorem fits_push_iff {w : TraceWidths} {t m : ℤ} {rs : List ℤ} (hrs : rs.length = 2) :
    (Record.push t m rs).Fits w ↔
      InRange w.TREE_NUM_BITS t ∧ InRange w.MTW m ∧ ∀ r ∈ rs, InRange w.PTW r := by
  obtain ⟨p₀, p₁, rfl⟩ := List.length_eq_two.1 hrs
  simp [Record.Fits]

/-- The lines printed for a list of packets. -/
theorem Printed.length_eq {q : Queues F} {pktId : ℤ} {ts : List Tagged} {out : List Record}
    (hprinted : Printed D h sizes q pktId ts out) :
    out.length = 2 * ts.length + ts.countP (hasGap D) := by
  induction hprinted with
  | nil q pktId => rfl
  | @cons q q' pktId t ts leafNode priorityVec out leaf ranks rest ih =>
    rw [List.length_append, length_gapRecord, List.length_cons, List.length_cons, ih,
      List.length_cons, List.countP_cons]
    omega

/-- A fair queue answers its calls for a list of packets. -/
theorem Printed.serve {q : Queues F} {pktId : ℤ} {ts : List Tagged} {out : List Record}
    (hprinted : Printed D h sizes q pktId ts out) (object : ℕ) :
    ∃ tags s, serve D (q object) (objectCalls D h object ts) = some (tags, s) := by
  induction hprinted with
  | nil q pktId => exact ⟨[], q object, rfl⟩
  | @cons q q' pktId t ts leafNode priorityVec out leaf ranks rest ih =>
    obtain ⟨tags, htags⟩ := ranks.serve object
    obtain ⟨tags', s, htags'⟩ := ih
    refine ⟨tags ++ tags', s, ?_⟩
    rw [objectCalls, List.flatMap_cons, leaf]
    exact serve_append htags htags'

/-- The start tags for one packet more. -/
theorem Printed.startTags_cons {q q' : Queues F} {pktId : ℤ} {t : Tagged} {ts : List Tagged}
    {leafNode : TreeNode} {priorityVec : List ℤ} {out : List Record}
    (leaf : h.nodes[t.leaf]? = some leafNode)
    (ranks : RanksFrom D h sizes t.packet (path h t.packet leafNode) q priorityVec q')
    (rest : Printed D h sizes q' pktId ts out) (object : ℕ) :
    startTags D (q object) (objectCalls D h object (t :: ts)) =
      startTags D (q object) (callsOn D t.packet object (path h t.packet leafNode)) ++
        startTags D (q' object) (objectCalls D h object ts) := by
  obtain ⟨tags, htags⟩ := ranks.serve object
  obtain ⟨tags', s, htags'⟩ := rest.serve object
  have hboth := serve_append htags htags'
  have hcalls : objectCalls D h object (t :: ts) =
      callsOn D t.packet object (path h t.packet leafNode) ++ objectCalls D h object ts := by
    rw [objectCalls, List.flatMap_cons, leaf]
    rfl
  rw [hcalls, startTags_eq hboth, startTags_eq htags, startTags_eq htags']

/-- A property of all start tags, for one packet more. -/
theorem Printed.forall_startTags_cons {q q' : Queues F} {pktId : ℤ} {t : Tagged}
    {ts : List Tagged} {leafNode : TreeNode} {priorityVec : List ℤ} {out : List Record}
    (leaf : h.nodes[t.leaf]? = some leafNode)
    (ranks : RanksFrom D h sizes t.packet (path h t.packet leafNode) q priorityVec q')
    (rest : Printed D h sizes q' pktId ts out) (P : ℤ → Prop) :
    (∀ object, ∀ r ∈ startTags D (q object) (objectCalls D h object (t :: ts)), P r) ↔
      (∀ object, ∀ r ∈ startTags D (q object)
        (callsOn D t.packet object (path h t.packet leafNode)), P r) ∧
      ∀ object, ∀ r ∈ startTags D (q' object) (objectCalls D h object ts), P r := by
  simp only [Printed.startTags_cons leaf ranks rest, List.forall_mem_append, forall_and]

/-- A property of the node that a packet hangs from. -/
theorem forall_node_iff {leaf : ℕ} {leafNode : TreeNode}
    (hleaf : h.nodes[leaf]? = some leafNode) (P : TreeNode → Prop) :
    (∀ node, h.nodes[leaf]? = some node → P node) ↔ P leafNode := by
  constructor
  · exact fun hall => hall leafNode hleaf
  · intro hP node hnode
    obtain rfl := Option.some.inj (hleaf.symm.trans hnode)
    exact hP

variable (h sizes) in
/-- The tables along the path of a packet have the property where they are read. -/
def PathHas (P : ℤ → Prop) (t : Tagged) : Prop :=
  ∀ leafNode, h.nodes[t.leaf]? = some leafNode →
    ∀ entry ∈ path h t.packet leafNode, TableHas h sizes P entry

/-- One level below a root there are two ranks. -/
theorem OneLevel.length_path (hlevel : OneLevel h) {flowId : String} {leaf : ℕ}
    {leafNode : TreeNode} (hflow : h.flowNodeMap flowId = some leaf)
    (hleaf : h.nodes[leaf]? = some leafNode) (p : Packet) :
    (path h p leafNode).length = 2 := by
  obtain ⟨node, f, root, hnode, hfather, hroot, htop⟩ := hlevel flowId leaf hflow
  obtain rfl := Option.some.inj (hleaf.symm.trans hnode)
  obtain ⟨n, hn⟩ : ∃ n, h.nodes.length = n + 1 := by
    have hlt := (List.getElem?_eq_some_iff.1 hleaf).1
    exact ⟨h.nodes.length - 1, by omega⟩
  have habove : ∀ fuel, pathAbove h fuel root = [] := by
    intro fuel
    cases fuel with
    | zero => rfl
    | succ fuel => rw [pathAbove, htop]
  rw [path, hn, pathAbove, hfather]
  simp only [hroot, habove, List.length_cons, List.length_nil]

/-- The metas of a list of packets, one packet more. -/
theorem forall_metas_cons {P : ℤ → Prop} {n : ℕ} {pktId : ℤ} :
    (∀ i < n + 1, P (pktId + (i : ℕ))) ↔ P pktId ∧ ∀ i < n, P (pktId + 1 + (i : ℕ)) := by
  constructor
  · intro hall
    refine ⟨by simpa using hall 0 (Nat.succ_pos n), fun i hi => ?_⟩
    have hnext := hall (i + 1) (by omega)
    push_cast at hnext
    rwa [add_comm (i : ℤ) 1, ← add_assoc] at hnext
  · rintro ⟨hfirst, hall⟩ i hi
    cases i with
    | zero => simpa using hfirst
    | succ i =>
      have hnext := hall i (by omega)
      push_cast
      rwa [add_comm (i : ℤ) 1, ← add_assoc]

/-- **When the printed records fit.**  The records printed for a list of packets fit exactly
when the number of every leaf fits, the metas do, and all ranks do: those read from tables
and those that the fair queues give. -/
theorem Printed.fits_iff (hlevel : OneLevel h) {q : Queues F} {pktId : ℤ} {ts : List Tagged}
    {out : List Record} (hprinted : Printed D h sizes q pktId ts out)
    (hflow : ∀ t ∈ ts, h.flowNodeMap t.packet.flowId = some t.leaf) :
    (∀ r ∈ out, r.Fits sdlWidths) ↔
      (∀ t ∈ ts, ∀ leafNode, h.nodes[t.leaf]? = some leafNode →
        InRange sdlWidths.TREE_NUM_BITS leafNode.nodeId) ∧
      (∀ t ∈ ts, PathHas h sizes (InRange sdlWidths.PTW) t) ∧
      (∀ i < ts.length, InRange sdlWidths.MTW (pktId + (i : ℕ))) ∧
      ∀ object, ∀ r ∈ startTags D (q object) (objectCalls D h object ts),
        InRange sdlWidths.PTW r := by
  induction hprinted with
  | nil q pktId => simp [objectCalls, startTags, Sdl.serve]
  | @cons q q' pktId t ts leafNode priorityVec out leaf ranks rest ih =>
    have hlen : priorityVec.length = 2 := by
      rw [ranks.length_eq]
      exact hlevel.length_path (hflow t List.mem_cons_self) leaf t.packet
    have hrest := ih fun t' ht' => hflow t' (List.mem_cons_of_mem t ht')
    -- the records of this packet, then those of the packets after it
    have hsplit : (∀ r ∈ gapRecord t.curCycle (tsToCycle D t.packet) ++
        (Record.push leafNode.nodeId pktId priorityVec :: Record.pop :: out), r.Fits sdlWidths) ↔
          (Record.push leafNode.nodeId pktId priorityVec).Fits sdlWidths ∧
            ∀ r ∈ out, r.Fits sdlWidths := by
      simp only [List.mem_append, List.mem_cons]
      constructor
      · intro hall
        exact ⟨hall _ (.inr (.inl rfl)), fun r hr => hall r (.inr (.inr (.inr hr)))⟩
      · rintro ⟨hpush, hout⟩ r (hr | rfl | rfl | hr)
        · exact fits_gapRecord _ _ r hr
        · exact hpush
        · trivial
        · exact hout r hr
    rw [hsplit, fits_push_iff hlen, ranks.forall_iff, hrest,
      Printed.forall_startTags_cons leaf ranks rest, List.length_cons,
      forall_metas_cons (P := InRange sdlWidths.MTW), List.forall_mem_cons, List.forall_mem_cons]
    simp only [PathHas, forall_node_iff leaf]
    constructor
    · rintro ⟨⟨htree, hmeta, htables, htags⟩, hleaves, htables', hmetas, htags'⟩
      exact ⟨⟨htree, hleaves⟩, ⟨htables, htables'⟩, ⟨hmeta, hmetas⟩, htags, htags'⟩
    · rintro ⟨⟨htree, hleaves⟩, ⟨htables, htables'⟩, ⟨hmeta, hmetas⟩, htags, htags'⟩
      exact ⟨⟨htree, hmeta, htables, htags⟩, hleaves, htables', hmetas, htags'⟩

variable (D h sizes) in
/-- What the builder's state and the packets must satisfy for the trace to fit: the flow
of every packet that is printed hangs from the first node created, the tables on its path
hold values of `PTW` bits, every fair queue gives its calls start tags of `PTW` bits, and
the lines are not more than the ROM has. -/
structure FitsRom (ts : List Tagged) : Prop where
  firstNode : ∀ t ∈ ts, t.leaf = 0
  tables : ∀ t ∈ ts, PathHas h sizes (InRange sdlWidths.PTW) t
  queues : ∀ object, ∀ r ∈ startTags D (h.wfq object) (objectCalls D h object ts),
    InRange sdlWidths.PTW r
  size : 2 * ts.length + ts.countP (hasGap D) + 1 ≤ ROM_SIZE

/-- The number of a node fits two bits only if it is the first. -/
theorem Numbered.inRange_iff (hh : Numbered h) {leaf : ℕ} {node : TreeNode}
    (hnode : h.nodes[leaf]? = some node) :
    InRange sdlWidths.TREE_NUM_BITS node.nodeId ↔ leaf = 0 := by
  rw [hh.nodes leaf node hnode]
  change 0 ≤ 10 * (leaf : ℤ) ∧ 10 * (leaf : ℤ) < 2 ^ 2 ↔ leaf = 0
  omega

/-- **Which traces fit.**  For every program the builder accepts whose flows are attached
one level below a root, and every list of packets the tagger accepts: every line of the
trace is encoded to a word of `TOTAL_WIDTH` digits that decodes to what was printed, and
the lines are no more than `ROM_SIZE`, if and only if every printed packet hangs from the
first node created, every rank fits `PTW` bits, and the packets and gaps are few enough. -/
theorem trace_fits_iff (calls : List (Call F)) (hbuild : build D calls = some h)
    (hlevel : OneLevel h) (packets : List Packet) (hasPFabric : Bool) (trace : List Record)
    (htag : tagPriority D h packets hasPFabric = some trace) :
    ((∀ r ∈ trace, WellFormed sdlWidths r) ∧ trace.length ≤ ROM_SIZE) ↔
      FitsRom D h (flowRemainingSizeTable packets hasPFabric) (taggedFrom D h 0 0 packets) := by
  obtain ⟨out, hloop, rfl⟩ := Option.map_eq_some_iff.1 htag
  have hprinted : Printed D h (flowRemainingSizeTable packets hasPFabric) h.wfq 0
      (taggedFrom D h 0 0 packets) out := printed_of_tagLoop hloop
  have hflow : ∀ t ∈ taggedFrom D h 0 0 packets, h.flowNodeMap t.packet.flowId = some t.leaf :=
    fun t ht => flowNodeMap_of_mem_taggedFrom ht
  have hlength := hprinted.length_eq
  have hfits := hprinted.fits_iff hlevel hflow
  have hleaves : (∀ t ∈ taggedFrom D h 0 0 packets, ∀ leafNode,
      h.nodes[t.leaf]? = some leafNode → InRange sdlWidths.TREE_NUM_BITS leafNode.nodeId) ↔
        ∀ t ∈ taggedFrom D h 0 0 packets, t.leaf = 0 := by
    refine forall₂_congr fun t ht => ?_
    obtain ⟨leafNode, f, root, hleaf, -⟩ := hlevel _ _ (hflow t ht)
    constructor
    · intro hall
      exact ((build_numbered hbuild).inRange_iff hleaf).1 (hall leafNode hleaf)
    · intro hzero node hnode
      exact ((build_numbered hbuild).inRange_iff hnode).2 hzero
  have hlast : (Record.idle MAX_IDLECYCLE).Fits sdlWidths := by
    exact (by decide : InRange sdlWidths.IDLECYCLE_BITS MAX_IDLECYCLE)
  have hwell : (∀ r ∈ out ++ [Record.idle MAX_IDLECYCLE], WellFormed sdlWidths r) ↔
      ∀ r ∈ out, r.Fits sdlWidths := by
    simp only [wellFormed_iff_fits sdlWidths_ok, List.forall_mem_append, List.mem_singleton,
      forall_eq, hlast, and_true]
  rw [hwell, hfits, hleaves, List.length_append, List.length_singleton, hlength]
  constructor
  · rintro ⟨⟨hfirst, htables, -, hqueues⟩, hsize⟩
    exact ⟨hfirst, htables, hqueues, hsize⟩
  · rintro ⟨hfirst, htables, hqueues, hsize⟩
    refine ⟨⟨hfirst, htables, ?_, hqueues⟩, hsize⟩
    -- two lines for every packet: the metas fit when the lines do
    intro i hi
    change 0 ≤ 0 + (i : ℤ) ∧ 0 + (i : ℤ) < 2 ^ 13
    unfold ROM_SIZE at hsize
    omega

end Fits

/-! ## A root and one leaf -/

/-- The program: a root with strict priority, a leaf with strict priority below it, and
one flow. -/
def spProgram : List (Call ℚ) :=
  [.createTreeRoot (.sp 0), .createTreeNode (.sp 1), .attachNode 1 (some 0) (.priority 1),
    .attachFlow "f" (some 1) (.priority 1)]

/-- One packet of the flow. -/
def spPackets : List Packet := [⟨"f", 0, 5, 100⟩]

/-- What the tagger prints for the packet. -/
def spTrace : List Record := [.idle 10, .push 10 0 [1, 1], .pop, .idle 255]

/-- The flow of the program hangs one level below the root, and the packet is printed as
`spTrace`. -/
theorem spProgram_runs :
    ∃ h, build Doubles.rat spProgram = some h ∧ OneLevel h ∧
      tagPriority Doubles.rat h spPackets false = some spTrace := by
  refine ⟨_, rfl, ?_, by decide +kernel⟩
  intro flowId leaf hflow
  by_cases hname : flowId = "f"
  · subst hname
    obtain rfl : 1 = leaf := by simpa using hflow
    exact ⟨_, 0, _, rfl, rfl, rfl, rfl⟩
  · simp [hname, createTreeNode, createTreeRoot, Heap.init] at hflow

/-- **The trace of the smallest program does not fit.**  The leaf has number 10, whose four
binary digits stand where the format has two, and the line of the packet is 67 digits
long. -/
theorem spTrace_does_not_fit :
    ∃ h, build Doubles.rat spProgram = some h ∧ OneLevel h ∧
      tagPriority Doubles.rat h spPackets false = some spTrace ∧
      (∃ line, encodeLine sdlWidths (Record.push 10 0 [1, 1]).text = some line ∧
        line.length = 67) ∧ totalWidth sdlWidths = 65 ∧
      ¬((∀ r ∈ spTrace, WellFormed sdlWidths r) ∧ spTrace.length ≤ ROM_SIZE) := by
  obtain ⟨h, hbuild, hlevel, htag⟩ := spProgram_runs
  refine ⟨h, hbuild, hlevel, htag, ⟨_, encodeLine_push sdlWidths sdlWidths_ok 10 0 1 1, ?_⟩, ?_, ?_⟩
  · decide +kernel
  · decide
  · rintro ⟨hwell, -⟩
    have hfits := fits_of_wellFormed sdlWidths_ok
      (hwell (.push 10 0 [1, 1]) (by simp [spTrace]))
    exact absurd hfits.1 (by decide)

/-- The same tree with the leaf created before the root, so that its number is 0. -/
def leafFirstProgram : List (Call ℚ) :=
  [.createTreeNode (.sp 1), .createTreeRoot (.sp 0), .attachNode 0 (some 1) (.priority 1),
    .attachFlow "f" (some 0) (.priority 1)]

/-- What the tagger prints for the packet then. -/
def leafFirstTrace : List Record := [.idle 10, .push 0 0 [1, 1], .pop, .idle 255]

/-- With the leaf first the trace of the packet fits, and the condition holds. -/
theorem trace_fits_iff_leafFirst :
    ∃ h, build Doubles.rat leafFirstProgram = some h ∧ OneLevel h ∧
      tagPriority Doubles.rat h spPackets false = some leafFirstTrace ∧
      FitsRom Doubles.rat h (flowRemainingSizeTable spPackets false)
        (taggedFrom Doubles.rat h 0 0 spPackets) := by
  have hwell : ∀ r ∈ leafFirstTrace, WellFormed sdlWidths r := by
    intro r hr
    refine wellFormed_of_fits sdlWidths_ok ?_
    simp only [leafFirstTrace, List.mem_cons, List.not_mem_nil, or_false] at hr
    rcases hr with rfl | rfl | rfl | rfl
    · exact (by decide : InRange 8 10)
    · exact ⟨by decide, by decide, by decide, by decide⟩
    · trivial
    · exact (by decide : InRange 8 255)
  have hlevel : ∀ h, build Doubles.rat leafFirstProgram = some h → OneLevel h := by
    rintro h hbuild flowId leaf hflow
    obtain rfl := Option.some.inj hbuild
    by_cases hname : flowId = "f"
    · subst hname
      obtain rfl : 0 = leaf := by simpa using hflow
      exact ⟨_, 1, _, rfl, rfl, rfl, rfl⟩
    · simp [hname, createTreeNode, createTreeRoot, Heap.init] at hflow
  have htag : ∃ h, build Doubles.rat leafFirstProgram = some h ∧
      tagPriority Doubles.rat h spPackets false = some leafFirstTrace :=
    ⟨_, rfl, by decide +kernel⟩
  obtain ⟨h, hbuild, htag⟩ := htag
  exact ⟨h, hbuild, hlevel h hbuild, htag,
    (trace_fits_iff leafFirstProgram hbuild (hlevel h hbuild) spPackets false leafFirstTrace
      htag).1 ⟨hwell, by decide⟩⟩

end VPifo.Sdl
