import VPifo.Compiler.TraceFits

/-!
# `SchedStrategy.cpp`: the packet-flow map

`printPFMap` goes over the capture file a second time and prints, for every packet that
the trace has a push for, the meta of the push and the number of the packet's flow.  It is
a callback of its own: it skips, cuts off and numbers the packets with the static counters
that `tagPriority` used before, in another order of the same statements.

`pcapLoop` is the library's loop with either callback.  `handlers_agree` compares one
packet in the two callbacks, and `loops_agree` carries the agreement of the counters over
a capture file; the flow of a packet and the node it is attached to are then read off at
one and the same position of the two outputs.
-/

namespace VPifo.Sdl

open Trace

/-- `pcap_loop`: the callback goes over the packets, with what it leaves and what it
prints. -/
def pcapLoop {S O : Type} (handler : Packet → S → Option (S × List O)) :
    List Packet → S → Option (S × List O)
  | [], s => some (s, [])
  | p :: ps, s =>
    (handler p s).bind fun r =>
      (pcapLoop handler ps r.1).map fun rest => (rest.1, r.2 ++ rest.2)

/-- A line of the packet-flow map. -/
structure PFLine where
  pktMeta : ℤ
  flow : ℤ
  deriving DecidableEq, Repr

/-- What is printed for it, with the end of the line. -/
def PFLine.text (l : PFLine) : List Char :=
  chars "meta:" ++ Numerals.decimal l.pktMeta ++ chars ", flow:" ++ Numerals.decimal l.flow ++
    ['\n']

/-- The static variables of the pass. -/
structure PFState where
  curCycle : ℤ
  pktId : ℤ
  idleCycleCnt : ℤ

section PFMap

variable {F : Type} (D : Doubles F) (h : Heap F) (FidMap : String → Option ℤ)

/-- `printPFMapHandler`; the line is printed before the time is checked. -/
def printPFMapHandler (p : Packet) (s : PFState) : Option (PFState × List PFLine) :=
  if s.idleCycleCnt > 4 then some (s, [])
  else
    match h.flowNodeMap p.flowId with
    | none => some (s, [])
    | some _ =>
      match FidMap p.flowId with
      | none => none
      | some fid =>
        let line : PFLine := ⟨s.pktId, fid⟩
        let thisPacketCycle := tsToCycle D p
        if thisPacketCycle ≥ s.curCycle then
          some
            (⟨thisPacketCycle, s.pktId + 1,
              nextIdleCycleCnt s.curCycle thisPacketCycle s.idleCycleCnt⟩, [line])
        else none

/-- `printPFMap`: the lines of the map. -/
def printPFMap (packets : List Packet) : Option (List PFLine) :=
  (pcapLoop (printPFMapHandler D h FidMap) packets ⟨0, 0, 0⟩).map Prod.snd

/-! ## The two passes -/

/-- The tree and the meta of every push of a trace. -/
def pushes (trace : List Record) : List (ℤ × ℤ) :=
  trace.filterMap fun
    | .push treeId pktMeta _ => some (treeId, pktMeta)
    | _ => none

/-- The flow is attached to a node. -/
def Attached (p : Packet) : Bool := (h.flowNodeMap p.flowId).isSome

/-- `flowNodeMap[flowId]->nodeId`. -/
def leafNodeId (flowId : String) : Option ℤ :=
  (h.flowNodeMap flowId).bind fun leaf => h.nodes[leaf]?.map TreeNode.nodeId

/-- The counters of the two passes agree. -/
structure SameCounters (s : TagState F) (s' : PFState) : Prop where
  curCycle : s.curCycle = s'.curCycle
  pktId : s.pktId = s'.pktId
  idleCycleCnt : s.idleCycleCnt = s'.idleCycleCnt

variable {D h FidMap} {sizes : String → Option ℤ}

@[simp] theorem pushes_append (xs ys : List Record) :
    pushes (xs ++ ys) = pushes xs ++ pushes ys := List.filterMap_append

@[simp] theorem pushes_gapRecord (curCycle thisPacketCycle : ℤ) :
    pushes (gapRecord curCycle thisPacketCycle) = [] := by
  unfold gapRecord
  split_ifs <;> rfl

/-- The loop of the tagger is the library's loop with its callback. -/
theorem tagLoop_eq_pcapLoop (packets : List Packet) (s : TagState F) :
    tagLoop D h sizes packets s =
      (pcapLoop (tagPriorityHandler D h sizes) packets s).map Prod.snd := by
  induction packets generalizing s with
  | nil => rfl
  | cons p ps ih =>
    rw [tagLoop, pcapLoop]
    cases tagPriorityHandler D h sizes p s with
    | none => rfl
    | some r => simp [ih, Function.comp_def]

/-- **One packet in the two callbacks.**  From the same counters both leave the same
counters.  A packet that is not attached, or comes after the fifth gap, changes and prints
nothing; any other is a push to the leaf of its flow and a line with the number of its
flow, under one meta. -/
theorem handlers_agree {p : Packet} {s s₁ : TagState F} {s' s₁' : PFState}
    {out : List Record} {lines : List PFLine} (hs : SameCounters s s')
    (htag : tagPriorityHandler D h sizes p s = some (s₁, out))
    (hmap : printPFMapHandler D h FidMap p s' = some (s₁', lines)) :
    SameCounters s₁ s₁' ∧
      (if s.idleCycleCnt > 4 ∨ Attached h p = false then
        s₁ = s ∧ out = [] ∧ lines = []
      else
        s₁.pktId = s.pktId + 1 ∧ ∃ treeId fid, leafNodeId h p.flowId = some treeId ∧
          FidMap p.flowId = some fid ∧ pushes out = [(treeId, s.pktId)] ∧
          lines = [⟨s.pktId, fid⟩]) := by
  obtain ⟨hcycle, hpkt, hidle⟩ := hs
  rw [tagPriorityHandler] at htag
  rw [printPFMapHandler, ← hcycle, ← hpkt, ← hidle] at hmap
  by_cases hgaps : s.idleCycleCnt > 4
  · rw [if_pos hgaps] at htag hmap
    obtain ⟨rfl, rfl⟩ := Prod.mk.inj (Option.some.inj htag)
    obtain ⟨rfl, rfl⟩ := Prod.mk.inj (Option.some.inj hmap)
    exact ⟨⟨hcycle, hpkt, hidle⟩, by simp [hgaps]⟩
  rw [if_neg hgaps] at htag hmap
  cases hflow : h.flowNodeMap p.flowId with
  | none =>
    rw [hflow] at htag hmap
    obtain ⟨rfl, rfl⟩ := Prod.mk.inj (Option.some.inj htag)
    obtain ⟨rfl, rfl⟩ := Prod.mk.inj (Option.some.inj hmap)
    exact ⟨⟨hcycle, hpkt, hidle⟩, by simp [Attached, hflow]⟩
  | some leaf =>
    simp only [hflow] at htag hmap
    split at htag
    · exact absurd htag (by simp)
    rename_i leafNode hleaf
    split at hmap
    · exact absurd hmap (by simp)
    rename_i fid hfid
    obtain ⟨⟨priorityVec, q'⟩, -, htag⟩ := Option.bind_eq_some_iff.1 htag
    simp only [Option.ite_none_right_eq_some, Option.some.injEq, Prod.mk.injEq] at htag hmap
    obtain ⟨-, rfl, rfl⟩ := htag
    obtain ⟨-, rfl, rfl⟩ := hmap
    refine ⟨⟨rfl, rfl, rfl⟩, ?_⟩
    rw [if_neg (by simp [hgaps, Attached, hflow])]
    refine ⟨rfl, leafNode.nodeId, fid, by simp [leafNodeId, hflow, hleaf], hfid, ?_, rfl⟩
    rw [pushes_append, pushes_gapRecord]
    rfl

/-- A callback that does nothing leaves the loop nothing to do. -/
theorem pcapLoop_of_idle {S O : Type} {handler : Packet → S → Option (S × List O)} {s : S}
    (hidle : ∀ p, handler p s = some (s, [])) (packets : List Packet) :
    pcapLoop handler packets s = some (s, []) := by
  induction packets with
  | nil => rfl
  | cons p ps ih =>
    rw [pcapLoop, hidle, Option.bind_some, ih]
    rfl

/-- The loop after one packet more. -/
theorem pcapLoop_cons {S O : Type} {handler : Packet → S → Option (S × List O)} {p : Packet}
    {s s₁ : S} {out : List O} (hp : handler p s = some (s₁, out)) {ps : List Packet} {t : S}
    {rest : List O} (hps : pcapLoop handler ps s₁ = some (t, rest)) :
    pcapLoop handler (p :: ps) s = some (t, out ++ rest) := by
  rw [pcapLoop, hp, Option.bind_some, hps]
  rfl

theorem exists_of_pcapLoop_cons {S O : Type} {handler : Packet → S → Option (S × List O)}
    {p : Packet} {ps : List Packet} {s t : S} {out : List O}
    (hloop : pcapLoop handler (p :: ps) s = some (t, out)) :
    ∃ s₁ here rest, handler p s = some (s₁, here) ∧
      pcapLoop handler ps s₁ = some (t, rest) ∧ out = here ++ rest := by
  obtain ⟨⟨s₁, here⟩, hp, hrest⟩ := Option.bind_eq_some_iff.1 hloop
  obtain ⟨⟨t', rest⟩, hps, heq⟩ := Option.map_eq_some_iff.1 hrest
  obtain ⟨rfl, rfl⟩ := Prod.mk.inj heq
  exact ⟨s₁, here, rest, hp, hps, rfl⟩

variable (D h FidMap sizes) in
/-- Over a list of packets, from two given states: both passes get through every prefix with
the same counters, and both have stopped from the packet at position `stop` on. -/
def StopTogether (packets : List Packet) (s : TagState F) (s' : PFState) (stop : ℕ) : Prop :=
  ∀ k < packets.length, ∃ t out t' lines,
    pcapLoop (tagPriorityHandler D h sizes) (packets.take k) s = some (t, out) ∧
    pcapLoop (printPFMapHandler D h FidMap) (packets.take k) s' = some (t', lines) ∧
    SameCounters t t' ∧ (t.idleCycleCnt > 4 ↔ stop ≤ k)

variable (h FidMap) in
/-- The pushes of a trace and the lines of a map, packet by packet, for the packets that
are printed: one meta for both, the number of the leaf in the one, that of the flow in the
other. -/
def Labelled (n : ℕ) (printed : List Packet) (trace : List Record) (pfMap : List PFLine) :
    Prop :=
  (pushes trace).map (fun x => (some x.1, x.2)) =
      (printed.zipIdx n).map (fun x => (leafNodeId h x.1.flowId, (x.2 : ℤ))) ∧
    pfMap.map (fun l => (some l.flow, l.pktMeta)) =
      (printed.zipIdx n).map (fun x => (FidMap x.1.flowId, (x.2 : ℤ)))

/-- **The two loops.**  From the same counters both stop at the same packet and label the
attached packets before it alike. -/
theorem loops_agree {packets : List Packet} {s t : TagState F} {s' t' : PFState}
    {trace : List Record} {pfMap : List PFLine} {n : ℕ} (hs : SameCounters s s')
    (hn : s.pktId = n)
    (htag : pcapLoop (tagPriorityHandler D h sizes) packets s = some (t, trace))
    (hmap : pcapLoop (printPFMapHandler D h FidMap) packets s' = some (t', pfMap)) :
    ∃ stop, StopTogether D h FidMap sizes packets s s' stop ∧
      Labelled h FidMap n ((packets.take stop).filter (Attached h)) trace pfMap := by
  induction packets generalizing s s' trace pfMap n with
  | nil =>
    obtain ⟨-, rfl⟩ := Prod.mk.inj (Option.some.inj htag)
    obtain ⟨-, rfl⟩ := Prod.mk.inj (Option.some.inj hmap)
    exact ⟨0, fun k hk => absurd hk (Nat.not_lt_zero k), rfl, rfl⟩
  | cons p ps ih =>
    by_cases hgaps : s.idleCycleCnt > 4
    · -- both have stopped before this packet, and stay so
      have hgaps' : s'.idleCycleCnt > 4 := by rwa [← hs.idleCycleCnt]
      have hidle : ∀ ps, pcapLoop (tagPriorityHandler D h sizes) ps s = some (s, []) :=
        pcapLoop_of_idle fun p => by rw [tagPriorityHandler, if_pos hgaps]
      have hidle' : ∀ ps, pcapLoop (printPFMapHandler D h FidMap) ps s' = some (s', []) :=
        pcapLoop_of_idle fun p => by rw [printPFMapHandler, if_pos hgaps']
      rw [hidle] at htag
      rw [hidle'] at hmap
      obtain ⟨rfl, rfl⟩ := Prod.mk.inj (Option.some.inj htag)
      obtain ⟨rfl, rfl⟩ := Prod.mk.inj (Option.some.inj hmap)
      exact ⟨0, fun k _ => ⟨s, [], s', [], hidle _, hidle' _, hs, by simp [hgaps]⟩, rfl, rfl⟩
    · obtain ⟨s₁, out, trace₁, hp, hps, rfl⟩ := exists_of_pcapLoop_cons htag
      obtain ⟨s₁', lines, pfMap₁, hp', hps', rfl⟩ := exists_of_pcapLoop_cons hmap
      obtain ⟨hs₁, hprint⟩ := handlers_agree hs hp hp'
      have hstop : ∀ stop, StopTogether D h FidMap sizes ps s₁ s₁' stop →
          StopTogether D h FidMap sizes (p :: ps) s s' (stop + 1) := by
        intro stop hall k hk
        cases k with
        | zero => exact ⟨s, [], s', [], rfl, rfl, hs, by simp [hgaps]⟩
        | succ k =>
          obtain ⟨t, out', t', lines', hk, hk', hsame, hiff⟩ := hall k (by simpa using hk)
          exact ⟨t, _, t', _, pcapLoop_cons hp hk, pcapLoop_cons hp' hk', hsame, by
            rw [hiff, Nat.add_le_add_iff_right]⟩
      cases hattached : Attached h p with
      | false =>
        rw [if_pos (.inr hattached)] at hprint
        obtain ⟨rfl, rfl, rfl⟩ := hprint
        obtain ⟨stop, htogether, hlabels⟩ := ih hs₁ hn hps hps'
        refine ⟨stop + 1, hstop stop htogether, ?_⟩
        rw [List.take_succ_cons, List.filter_cons_of_neg (by simp [hattached])]
        exact hlabels
      | true =>
        rw [if_neg (by simp [hgaps, hattached])] at hprint
        obtain ⟨hpkt, treeId, fid, htree, hfid, hout, rfl⟩ := hprint
        have hn₁ : s₁.pktId = ((n + 1 : ℕ) : ℤ) := by
          rw [hpkt, hn]
          push_cast
          rfl
        obtain ⟨stop, htogether, hpushes, hlines⟩ := ih hs₁ hn₁ hps hps'
        refine ⟨stop + 1, hstop stop htogether, ?_, ?_⟩
        · rw [List.take_succ_cons, List.filter_cons_of_pos hattached, List.zipIdx_cons,
            pushes_append, hout, List.map_append, hpushes]
          simp [htree, hn]
        · rw [List.take_succ_cons, List.filter_cons_of_pos hattached, List.zipIdx_cons,
            List.map_append, hlines]
          simp [hfid, hn]

theorem Labelled.metas {printed : List Packet} {trace : List Record} {pfMap : List PFLine}
    {n : ℕ} (hlabels : Labelled h FidMap n printed trace pfMap) :
    (pushes trace).map Prod.snd = (List.range' n printed.length).map (fun i : ℕ => (i : ℤ)) ∧
      pfMap.map PFLine.pktMeta = (List.range' n printed.length).map (fun i : ℕ => (i : ℤ)) := by
  have hindices : ∀ source : String → Option ℤ,
      ((printed.zipIdx n).map fun x => (source x.1.flowId, (x.2 : ℤ))).map Prod.snd =
        (List.range' n printed.length).map fun i : ℕ => (i : ℤ) := by
    intro source
    rw [← List.zipIdx_map_snd n printed, List.map_map, List.map_map]
    rfl
  constructor
  · rw [← hindices (leafNodeId h), ← hlabels.1, List.map_map]
    rfl
  · rw [← hindices FidMap, ← hlabels.2, List.map_map]
    rfl

/-- **The trace and the packet-flow map agree.**  For every heap, every list of packets and
every table of flow numbers on which both passes run through: both keep the same counters
through every prefix of the packets and stop at the same one of them; the metas of both are
`0, 1, …` in this order, one for each attached packet before that; and under one meta the
trace has the number of the leaf of the packet's flow, the map the number of that flow. -/
theorem trace_agrees_with_PFMap (packets : List Packet) (hasPFabric : Bool)
    (trace : List Record) (pfMap : List PFLine)
    (htag : tagPriority D h packets hasPFabric = some trace)
    (hmap : printPFMap D h FidMap packets = some pfMap) :
    ∃ stop, StopTogether D h FidMap (flowRemainingSizeTable packets hasPFabric) packets
        ⟨h.wfq, 0, 0, 0⟩ ⟨0, 0, 0⟩ stop ∧
      (pushes trace).map Prod.snd = pfMap.map PFLine.pktMeta ∧
      pfMap.map PFLine.pktMeta =
        (List.range ((packets.take stop).filter (Attached h)).length).map
          (fun i : ℕ => (i : ℤ)) ∧
      Labelled h FidMap 0 ((packets.take stop).filter (Attached h)) trace pfMap := by
  obtain ⟨out, hloop, rfl⟩ := Option.map_eq_some_iff.1 htag
  rw [tagLoop_eq_pcapLoop] at hloop
  obtain ⟨⟨t, out'⟩, hfirst, rfl⟩ := Option.map_eq_some_iff.1 hloop
  obtain ⟨⟨t', lines⟩, hsecond, rfl⟩ := Option.map_eq_some_iff.1 hmap
  obtain ⟨stop, htogether, hlabels⟩ :=
    loops_agree ⟨rfl, rfl, rfl⟩ Nat.cast_zero.symm hfirst hsecond
  -- the record at the end of the trace is no push
  have hlast : Labelled h FidMap 0 ((packets.take stop).filter (Attached h))
      (out' ++ [.idle MAX_IDLECYCLE]) lines := by
    have hpushes : pushes (out' ++ [Record.idle MAX_IDLECYCLE]) = pushes out' := by
      rw [pushes_append]
      exact List.append_nil _
    exact ⟨by rw [hpushes]; exact hlabels.1, hlabels.2⟩
  obtain ⟨hmetas, hmetas'⟩ := hlast.metas
  rw [← List.range_eq_range'] at hmetas hmetas'
  exact ⟨stop, htogether, hmetas.trans hmetas'.symm, hmetas', hlast⟩

/-! ## The lines of the map, one by one -/

variable (FidMap) in
/-- The lines for a list of tagged packets, with metas from `pktId` on. -/
inductive Listed : ℤ → List Tagged → List PFLine → Prop
  | nil (pktId : ℤ) : Listed pktId [] []
  | cons {pktId fid : ℤ} {t : Tagged} {ts : List Tagged} {ls : List PFLine}
      (flow : FidMap t.packet.flowId = some fid) (rest : Listed (pktId + 1) ts ls) :
      Listed pktId (t :: ts) (⟨pktId, fid⟩ :: ls)

/-- The loop over the packets prints a line for each tagged packet. -/
theorem listed_of_pcapLoop {packets : List Packet} {s t : PFState} {ls : List PFLine}
    (hloop : pcapLoop (printPFMapHandler D h FidMap) packets s = some (t, ls)) :
    Listed FidMap s.pktId (taggedFrom D h s.curCycle s.idleCycleCnt packets) ls := by
  induction packets generalizing s ls with
  | nil =>
    obtain ⟨-, rfl⟩ := Prod.mk.inj (Option.some.inj hloop)
    exact .nil _
  | cons p ps ih =>
    by_cases hgaps : s.idleCycleCnt > 4
    · have hidle : ∀ p, printPFMapHandler D h FidMap p s = some (s, []) :=
        fun p => by rw [printPFMapHandler, if_pos hgaps]
      rw [pcapLoop_of_idle hidle] at hloop
      obtain ⟨-, rfl⟩ := Prod.mk.inj (Option.some.inj hloop)
      rw [taggedFrom, if_pos hgaps]
      exact .nil _
    · obtain ⟨s₁, here, rest, hp, hps, rfl⟩ := exists_of_pcapLoop_cons hloop
      rw [printPFMapHandler, if_neg hgaps] at hp
      rw [taggedFrom, if_neg hgaps]
      cases hflow : h.flowNodeMap p.flowId with
      | none =>
        rw [hflow] at hp
        obtain ⟨rfl, rfl⟩ := Prod.mk.inj (Option.some.inj hp)
        exact ih hps
      | some leaf =>
        simp only [hflow] at hp
        split at hp
        · exact absurd hp (by simp)
        · rename_i fid hfid
          simp only [Option.ite_none_right_eq_some, Option.some.injEq, Prod.mk.injEq] at hp
          obtain ⟨-, rfl, rfl⟩ := hp
          exact .cons (t := ⟨s.curCycle, leaf, p⟩) hfid (ih hps)

end PFMap

/-! ## Two flows that are attached and one that is not -/

/-- A root and two leaves with strict priorities, and a flow at each leaf. -/
def mixedProgram : List (Call ℚ) :=
  [.createTreeRoot (.sp 0), .createTreeNode (.sp 1), .createTreeNode (.sp 2),
    .attachNode 1 (some 0) (.priority 1), .attachNode 2 (some 0) (.priority 2),
    .attachFlow "f" (some 1) (.priority 1), .attachFlow "e" (some 2) (.priority 1)]

/-- Packets of three flows, more than a microsecond apart. -/
def mixedPackets : List Packet :=
  [⟨"g", 0, 1, 60⟩, ⟨"f", 0, 5, 100⟩, ⟨"e", 0, 6, 200⟩, ⟨"f", 0, 7, 100⟩, ⟨"g", 0, 8, 60⟩,
    ⟨"e", 0, 9, 80⟩, ⟨"e", 1, 0, 80⟩, ⟨"f", 1, 1, 90⟩, ⟨"f", 1, 2, 90⟩]

/-- The numbers of the two flows. -/
def mixedFids (flowId : String) : Option ℤ :=
  if flowId = "f" then some 7 else if flowId = "e" then some 3 else none

/-- The lines of the map. -/
def mixedMap : List PFLine := [⟨0, 7⟩, ⟨1, 3⟩, ⟨2, 7⟩, ⟨3, 3⟩, ⟨4, 3⟩, ⟨5, 7⟩]

/-- Both passes run through and skip the packets of the third flow, and the five gaps stop both
before the last packet. -/
theorem trace_agrees_with_PFMap_mixed :
    ∃ h trace, build Doubles.rat mixedProgram = some h ∧
      tagPriority Doubles.rat h mixedPackets false = some trace ∧
      pushes trace = [(10, 0), (20, 1), (10, 2), (20, 3), (20, 4), (10, 5)] ∧
      ∃ stop, StopTogether Doubles.rat h mixedFids (flowRemainingSizeTable mixedPackets false)
          mixedPackets ⟨h.wfq, 0, 0, 0⟩ ⟨0, 0, 0⟩ stop ∧
        (pushes trace).map Prod.snd = mixedMap.map PFLine.pktMeta ∧
        mixedMap.map PFLine.pktMeta =
          (List.range ((mixedPackets.take stop).filter (Attached h)).length).map
            (fun i : ℕ => (i : ℤ)) ∧
        Labelled h mixedFids 0 ((mixedPackets.take stop).filter (Attached h)) trace mixedMap := by
  have hrun : ((build Doubles.rat mixedProgram).bind fun h =>
      (tagPriority Doubles.rat h mixedPackets false).map fun trace =>
        decide (pushes trace = [(10, 0), (20, 1), (10, 2), (20, 3), (20, 4), (10, 5)] ∧
          printPFMap Doubles.rat h mixedFids mixedPackets = some mixedMap)) = some true := by
    decide +kernel
  obtain ⟨h, hbuild, hrest⟩ := Option.bind_eq_some_iff.1 hrun
  obtain ⟨trace, htag, hchecks⟩ := Option.map_eq_some_iff.1 hrest
  obtain ⟨hpushes, hmap⟩ := of_decide_eq_true hchecks
  exact ⟨h, trace, hbuild, htag, hpushes,
    trace_agrees_with_PFMap mixedPackets false trace mixedMap htag hmap⟩

end VPifo.Sdl
