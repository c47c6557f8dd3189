import VPifo.Simulator.ReadLine

/-!
# Which traces the reference simulator reads back

The tagger prints one rank for every node from the leaf of a flow up to the root; the
reference simulator reads two.  `trace_reads_back_iff` is the exact account for the programs
the builder accepts and the packets both passes of the compiler accept: the simulator gets
one record a call, with the values that were printed, if and only if every packet that is
printed hangs one level below a root, the values come back as `int`s without their sign, and
the flows have numbers for which the simulator has queues.

In a tree of three levels (`threeLevels_not_read_back`) the rank at the root stays behind on
the line of the push, is read as a record of its own, and the rank of the middle node stands
for it.
-/

namespace VPifo.ReadLine

open Numerals Trace Words Sdl
open Simulator (Config)

/-- Reading the two files back: the map is read, and then the trace, one record a call. -/
def TraceReadsBack (trace : List Record) (pfLines : List PFLine) : Prop :=
  ∃ pfMap, readPFMap (pfLines.flatMap PFLine.text) = some pfMap ∧
    ReadsBack Config.source pfMap (Globals.start (trace.flatMap Record.text)) trace

/-- On a trace that is read back `while(read_line());` ends, and fills the queues that the
reader of the records fills, with which the main loop starts. -/
theorem readAll_of_traceReadsBack {trace : List Record} {pfLines : List PFLine}
    (hback : TraceReadsBack trace pfLines) :
    ∃ pfMap g s, readPFMap (pfLines.flatMap PFLine.text) = some pfMap ∧
      readAll Config.source pfMap (trace.length + 1)
        (Globals.start (trace.flatMap Record.text)) = some g ∧
      Simulator.readAll (flowsOf pfMap) (trace.map toSimulator) = some s ∧ SameInput g s := by
  obtain ⟨pfMap, hmap, hback⟩ := hback
  have hstart : SameInput (Globals.start (trace.flatMap Record.text))
      ⟨fun _ => [], fun _ => 0, 0⟩ := ⟨rfl, fun _ => rfl, fun _ => rfl⟩
  obtain ⟨g, s, hall, hfold, hsame⟩ := readAll_of_readsBack (skip_text trace) hback hstart
  exact ⟨pfMap, g, s, hmap, hall, hfold, hsame⟩

section ReadBack

variable {F : Type} {D : Doubles F} {h : Heap F} {sizes FidMap : String → Option ℤ}

/-- The map that is read gives a meta the flow of its packet. -/
theorem enter_of_listed {pktId : ℤ} {ts : List Tagged} {ls : List PFLine}
    (hlisted : Listed FidMap pktId ts ls) (pfmap : ℤ → Option ℤ) :
    ∀ i t, ts[i]? = some t → enter pfmap ls (pktId + (i : ℕ)) = FidMap t.packet.flowId := by
  have hlater : ∀ {n : ℤ} {ts : List Tagged} {ls : List PFLine}, Listed FidMap n ts ls →
      ∀ l ∈ ls, n ≤ l.pktMeta := by
    intro n ts ls hl
    induction hl with
    | nil n => simp
    | cons flow rest ih =>
      intro l hmem
      rcases List.mem_cons.1 hmem with rfl | hmem
      · exact le_rfl
      · exact le_trans (by omega) (ih l hmem)
  induction hlisted generalizing pfmap with
  | nil pktId => simp
  | @cons pktId fid t ts ls flow rest ih =>
    intro i t' ht'
    cases i with
    | zero =>
      obtain rfl := Option.some.inj ht'
      have hself : enter (Function.update pfmap pktId (some fid)) ls pktId = some fid := by
        rw [enter_of_not_mem fun l hl => by have := hlater rest l hl; omega,
          Function.update_self]
      rw [flow, ← hself, Nat.cast_zero, add_zero]
      rfl
    | succ i =>
      have hnext := ih (Function.update pfmap pktId (some fid)) i t' ht'
      rw [add_assoc, add_comm (1 : ℤ)] at hnext
      rw [← hnext]
      push_cast
      rfl

/-- The numbers in the map. -/
theorem isInt_of_listed {pktId : ℤ} {ts : List Tagged} {ls : List PFLine}
    (hlisted : Listed FidMap pktId ts ls) (hmetas : ∀ i < ts.length, IsInt (pktId + (i : ℕ)))
    (hflows : ∀ t ∈ ts, ∃ f, FidMap t.packet.flowId = some f ∧ IsInt f) :
    ∀ l ∈ ls, IsInt l.pktMeta ∧ IsInt l.flow := by
  induction hlisted with
  | nil pktId => simp
  | @cons pktId fid t ts ls flow rest ih =>
    rw [List.length_cons, forall_metas_cons (P := IsInt)] at hmetas
    obtain ⟨⟨f, hf, hint⟩, hflows⟩ := List.forall_mem_cons.1 hflows
    obtain rfl := Option.some.inj (flow.symm.trans hf)
    rw [List.forall_mem_cons]
    exact ⟨⟨hmetas.1, hint⟩, ih hmetas.2 hflows⟩

/-- The flow of a packet, as an index of the vectors of the flows. -/
def FlowOk (c : Config) (FidMap : String → Option ℤ) (t : Tagged) : Prop :=
  ∃ f, FidMap t.packet.flowId = some f ∧ 0 ≤ f ∧ f < c.FLOW_NUM

theorem flowOf_iff {c : Config} {pfMap : ℤ → Option ℤ} {pktMeta : ℤ} {t : Tagged}
    (hmap : pfMap pktMeta = FidMap t.packet.flowId) :
    (∃ f, flowOf c pfMap pktMeta = some f) ↔ FlowOk c FidMap t := by
  unfold flowOf FlowOk
  rw [hmap]
  cases FidMap t.packet.flowId with
  | none => simp
  | some f => simp

/-- The idle count in front of a packet comes back. -/
theorem readable_gapRecord {c : Config} {pfMap : ℤ → Option ℤ} {lastMeta : ℤ}
    (curCycle thisPacketCycle : ℤ) (rs : List Record) :
    Readable c pfMap lastMeta (gapRecord curCycle thisPacketCycle ++ rs) ↔
      Readable c pfMap lastMeta rs := by
  unfold gapRecord
  split_ifs with hgap hfirst
  · have hcount : Recovered (min (thisPacketCycle - curCycle - 1) MAX_INTERVAL_IDLECYCLE) := by
      rw [recovered_iff]
      unfold MAX_INTERVAL_IDLECYCLE
      omega
    exact and_iff_right hcount
  · have hcount : Recovered 10 := by decide
    exact and_iff_right hcount
  · rfl

/-- **When the printed records can be read back.** -/
theorem readable_iff_of_printed {c : Config} {pfMap : ℤ → Option ℤ} {q : Queues F} {pktId : ℤ}
    {ts : List Tagged} {out : List Record} (hprinted : Printed D h sizes q pktId ts out)
    (hmap : ∀ i t, ts[i]? = some t → pfMap (pktId + (i : ℕ)) = FidMap t.packet.flowId)
    (lastMeta : ℤ) :
    Readable c pfMap lastMeta (out ++ [.idle MAX_IDLECYCLE]) ↔
      (∀ t ∈ ts, ∀ leafNode, h.nodes[t.leaf]? = some leafNode →
        (path h t.packet leafNode).length = 2 ∧ Recovered leafNode.nodeId) ∧
      (∀ t ∈ ts, PathHas h sizes Recovered t) ∧
      (∀ i < ts.length, Recovered (pktId + (i : ℕ))) ∧
      (∀ object, ∀ r ∈ startTags D (q object) (objectCalls D h object ts), Recovered r) ∧
      ∀ t ∈ ts, FlowOk c FidMap t := by
  induction hprinted generalizing lastMeta with
  | nil q pktId =>
    have hlast : Recovered MAX_IDLECYCLE := by decide
    simp [Readable, RecordOk, hlast, objectCalls, startTags, Sdl.serve]
  | @cons q q' pktId t ts leafNode priorityVec out leaf ranks rest ih =>
    have hflow := flowOf_iff (c := c) (by simpa using hmap 0 t rfl : pfMap pktId = _)
    have hrest := ih (fun i t' ht' => by
      have hnext := hmap (i + 1) t' ht'
      push_cast at hnext
      rwa [add_comm (i : ℤ) 1, ← add_assoc] at hnext) pktId
    -- the push and the pop of this packet, then the records after it
    have hsplit : Readable c pfMap lastMeta
        ((gapRecord t.curCycle (tsToCycle D t.packet) ++
          (Record.push leafNode.nodeId pktId priorityVec :: Record.pop :: out)) ++
            [.idle MAX_IDLECYCLE]) ↔
          RecordOk c pfMap lastMeta (.push leafNode.nodeId pktId priorityVec) ∧
            Readable c pfMap pktId (out ++ [.idle MAX_IDLECYCLE]) := by
      rw [List.append_assoc, readable_gapRecord]
      constructor
      · rintro ⟨hpush, -, hout⟩
        exact ⟨hpush, hout⟩
      · rintro ⟨hpush, hout⟩
        exact ⟨hpush, hpush.2.2.2.2, hout⟩
    rw [hsplit, hrest, RecordOk, hflow, ranks.forall_iff, ranks.length_eq,
      Printed.forall_startTags_cons leaf ranks rest, List.length_cons,
      forall_metas_cons (P := Recovered), List.forall_mem_cons, List.forall_mem_cons,
      List.forall_mem_cons]
    simp only [PathHas, forall_node_iff leaf]
    constructor
    · rintro ⟨⟨hlen, htree, hmeta, ⟨htables, htags⟩, hok⟩, hleaves, htables', hmetas, htags', hoks⟩
      exact ⟨⟨⟨hlen, htree⟩, hleaves⟩, ⟨htables, htables'⟩, ⟨hmeta, hmetas⟩, ⟨htags, htags'⟩, hok,
        hoks⟩
    · rintro ⟨⟨⟨hlen, htree⟩, hleaves⟩, ⟨htables, htables'⟩, ⟨hmeta, hmetas⟩, ⟨htags, htags'⟩, hok,
        hoks⟩
      exact ⟨⟨hlen, htree, hmeta, ⟨htables, htags⟩, hok⟩, hleaves, htables', hmetas, htags', hoks⟩

theorem exists_leaf_of_printed {q : Queues F} {pktId : ℤ} {ts : List Tagged}
    {out : List Record} (hprinted : Printed D h sizes q pktId ts out) :
    ∀ t ∈ ts, ∃ leafNode, h.nodes[t.leaf]? = some leafNode := by
  induction hprinted with
  | nil q pktId => simp
  | cons leaf ranks rest ih => exact List.forall_mem_cons.2 ⟨⟨_, leaf⟩, ih⟩

variable (D h sizes FidMap) in
/-- What the builder's state, the packets and the numbers of the flows must satisfy for the
trace to be read back.  Every packet that is printed hangs one level below a root, from a
node whose number is an `int`; the ranks in the tables on its path and the start tags of the
fair queues are `int`s that keep their value without the sign; the metas are `int`s; and the
simulator has a queue for the number of its flow. -/
structure ReadableTrace (ts : List Tagged) : Prop where
  twoRanks : ∀ t ∈ ts, ∀ leafNode, h.nodes[t.leaf]? = some leafNode →
    (path h t.packet leafNode).length = 2
  nodes : ∀ t ∈ ts, 10 * (t.leaf : ℤ) < 2 ^ 31
  tables : ∀ t ∈ ts, PathHas h sizes (fun r => (0 ≤ r ∧ r < 2 ^ 31) ∨ r = -2 ^ 31) t
  queues : ∀ object, ∀ r ∈ startTags D (h.wfq object) (objectCalls D h object ts),
    (0 ≤ r ∧ r < 2 ^ 31) ∨ r = -2 ^ 31
  metas : ts.length ≤ 2 ^ 31
  flows : ∀ t ∈ ts, ∃ f, FidMap t.packet.flowId = some f ∧ 0 ≤ f ∧ f < Config.source.FLOW_NUM

/-- **Which traces are read back.**  For every program the builder accepts and all packets
and flow numbers on which both passes run through: the map is read, and call after call
`read_line` takes exactly one printed record and reads the values printed, if and only if the
trace is readable. -/
theorem trace_reads_back_iff (calls : List (Call F)) (hbuild : build D calls = some h)
    (packets : List Packet) (hasPFabric : Bool) (trace : List Record) (pfLines : List PFLine)
    (htag : tagPriority D h packets hasPFabric = some trace)
    (hmap : printPFMap D h FidMap packets = some pfLines) :
    TraceReadsBack trace pfLines ↔
      ReadableTrace D h (flowRemainingSizeTable packets hasPFabric) FidMap
        (taggedFrom D h 0 0 packets) := by
  obtain ⟨out, hloop, rfl⟩ := Option.map_eq_some_iff.1 htag
  obtain ⟨⟨s', ls⟩, hloop', rfl⟩ := Option.map_eq_some_iff.1 hmap
  have hprinted : Printed D h (flowRemainingSizeTable packets hasPFabric) h.wfq 0
      (taggedFrom D h 0 0 packets) out := printed_of_tagLoop hloop
  have hlisted : Listed FidMap 0 (taggedFrom D h 0 0 packets) ls := listed_of_pcapLoop hloop'
  have hreadable := readable_iff_of_printed (c := Config.source) hprinted
    (enter_of_listed hlisted fun _ => none) 0
  have hback : TraceReadsBack (out ++ [.idle MAX_IDLECYCLE]) ls ↔
      (∀ l ∈ ls, IsInt l.pktMeta ∧ IsInt l.flow) ∧
        Readable Config.source (enter (fun _ => none) ls) 0 (out ++ [.idle MAX_IDLECYCLE]) := by
    rw [TraceReadsBack, readPFMap_eq]
    split_ifs with hints
    · simp only [Option.some.injEq, exists_eq_left']
      exact (readsBack_iff _ _ (skip_text _)).trans (and_iff_right hints).symm
    · simp [hints]
  have hrecovered : (fun r : ℤ => (0 ≤ r ∧ r < 2 ^ 31) ∨ r = -2 ^ 31) = Recovered :=
    funext fun r => (propext (recovered_iff r)).symm
  have hnumber : ∀ {t : Tagged} {leafNode : TreeNode}, h.nodes[t.leaf]? = some leafNode →
      (Recovered leafNode.nodeId ↔ 10 * (t.leaf : ℤ) < 2 ^ 31) := by
    intro t leafNode hleaf
    rw [(build_numbered hbuild).nodes _ _ hleaf, recovered_iff]
    omega
  have hmeta : ∀ i : ℕ, Recovered (0 + (i : ℤ)) ↔ i < 2 ^ 31 := by
    intro i
    rw [recovered_iff]
    omega
  rw [hback, hreadable]
  constructor
  · rintro ⟨-, hleaves, htables, hmetas, hqueues, hflows⟩
    refine ⟨fun t ht node hnode => (hleaves t ht node hnode).1, ?_, ?_, ?_, ?_, hflows⟩
    · intro t ht
      obtain ⟨node, hnode⟩ := exists_leaf_of_printed hprinted t ht
      exact (hnumber hnode).1 (hleaves t ht node hnode).2
    · rwa [hrecovered]
    · intro object r hr
      exact (recovered_iff r).1 (hqueues object r hr)
    · by_contra hlong
      have hlast := (hmeta (2 ^ 31)).1 (hmetas (2 ^ 31) (by omega))
      exact lt_irrefl _ hlast
  · rintro ⟨hranks, hnodes, htables, hqueues, hmetas, hflows⟩
    rw [hrecovered] at htables
    refine ⟨isInt_of_listed hlisted ?_ ?_, ?_, htables, ?_, ?_, hflows⟩
    · intro i hi
      unfold IsInt
      omega
    · intro t ht
      obtain ⟨f, hf, hpos, hlt⟩ := hflows t ht
      have hnum : f < 6 := hlt
      refine ⟨f, hf, ?_⟩
      unfold IsInt
      omega
    · exact fun t ht node hnode => ⟨hranks t ht node hnode, (hnumber hnode).2 (hnodes t ht)⟩
    · exact fun i hi => (hmeta i).2 (lt_of_lt_of_le hi hmetas)
    · exact fun object r hr => (recovered_iff r).2 (hqueues object r hr)

end ReadBack

/-! ## A tree of two levels and a tree of three -/

/-- The one flow of the programs has number 0. -/
def oneFid (flowId : String) : Option ℤ := if flowId = "f" then some 0 else none

/-- The trace of `spProgram` is read back, and the condition holds. -/
theorem trace_reads_back_iff_twoLevels :
    ∃ h, build Doubles.rat spProgram = some h ∧ TraceReadsBack spTrace [⟨0, 0⟩] ∧
      ReadableTrace Doubles.rat h (flowRemainingSizeTable spPackets false) oneFid
        (taggedFrom Doubles.rat h 0 0 spPackets) := by
  have hback : TraceReadsBack spTrace [⟨0, 0⟩] := by
    refine ⟨enter (fun _ => none) [⟨0, 0⟩], ?_, ?_⟩
    · rw [readPFMap_eq, if_pos (by decide)]
    · refine (readsBack_iff [.idle 10, .push 10 0 [1, 1], .pop] _ (skip_text _)).2 ?_
      have hidle : Recovered 10 ∧ Recovered 255 := by decide
      exact ⟨hidle.1, ⟨rfl, by decide, by decide, by decide, 0, by decide⟩, ⟨0, by decide⟩,
        hidle.2, trivial⟩
  obtain ⟨h, hruns⟩ : ∃ h, build Doubles.rat spProgram = some h ∧
      tagPriority Doubles.rat h spPackets false = some spTrace ∧
      printPFMap Doubles.rat h oneFid spPackets = some [⟨0, 0⟩] :=
    ⟨_, rfl, by decide +kernel, by decide +kernel⟩
  exact ⟨h, hruns.1, hback, (trace_reads_back_iff spProgram hruns.1 spPackets false spTrace
    [⟨0, 0⟩] hruns.2.1 hruns.2.2).1 hback⟩

/-- A root, a node below it and a leaf below that, with strict priority, and one flow. -/
def threeLevelProgram : List (Call ℚ) :=
  [.createTreeRoot (.sp 0), .createTreeNode (.sp 1), .createTreeNode (.sp 2),
    .attachNode 1 (some 0) (.priority 3), .attachNode 2 (some 1) (.priority 2),
    .attachFlow "f" (some 2) (.priority 1)]

/-- What the tagger prints for the packet then. -/
def threeLevelTrace : List Record := [.idle 10, .push 20 0 [1, 2, 3], .pop, .idle 255]

/-- **A tree of three levels is not read back.** -/
theorem threeLevels_not_read_back :
    ∃ h, build Doubles.rat threeLevelProgram = some h ∧
      tagPriority Doubles.rat h spPackets false = some threeLevelTrace ∧
      printPFMap Doubles.rat h oneFid spPackets = some [⟨0, 0⟩] ∧
      ¬TraceReadsBack threeLevelTrace [⟨0, 0⟩] := by
  refine ⟨_, rfl, by decide +kernel, by decide +kernel, ?_⟩
  rintro ⟨pfMap, -, hback⟩
  have hreadable := (readsBack_iff [.idle 10, .push 20 0 [1, 2, 3], .pop] _
    (skip_text _)).1 hback
  exact absurd hreadable.2.1.1 (by decide)

end VPifo.ReadLine
