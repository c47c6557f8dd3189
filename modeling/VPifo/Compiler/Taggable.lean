import VPifo.Compiler.Admission
import VPifo.Compiler.PFMap
import VPifo.Compiler.WFQAccount

/-!
# What is built and what can be tagged

Both the builder and the tagger decide by the strategies of the nodes, and both use
assertions for it.  The builder's six overloads refuse a call that gives a strategy an
argument it has no use for.  The tagger's two switches refuse a strategy that has no rank:
an unknown strategy at any node of the way to the root, and pFabric at any node but the first,
since it ranks flows and not nodes.  The builder lets both pass, because it files nothing for
them and so has nothing to refuse.

What the builder files is enough for the rest (`Filed`): a strategy with a table has an entry
for every node and every flow that was attached below it, and a call of the tagger removes
none (`SameTables`).  So `tagPriorityTillRoot` returns if and only if the strategies of the
way are fit and a flow at a pFabric node has a positive size in the table
(`isSome_tagPriorityTillRoot_iff`).

That table is filled if `checkMakeTree` has found a pFabric node among the *leaves of the
root*, and a flow may be attached to a node that is none of these.  Its sizes are kept in an
`int`, so the size of a flow is the number of its bytes as far as that goes.
-/

namespace VPifo.Sdl

open PointerTree

/-! ## What the builder files -/

section Filed

variable {F : Type} {D : Doubles F}

/-- If the strategy has a table, this has an entry for the key. -/
def Entered (h : Heap F) (strategy : SchedStrategy) (key : String) : Prop :=
  match strategy with
  | .unknown => True
  | .pFabric => True
  | .sp table => (h.priorityTable table key).isSome
  | .wfq object => ((h.wfq object).weightTable key).isSome

/-- The switch files the key with the strategy and forgets no other. -/
theorem entered_of_setEntry {strategy : SchedStrategy} {key : String} {arg : Arg F}
    {h h' : Heap F} (hset : setEntry strategy key arg h = some h') :
    Entered h' strategy key ∧ ∀ s k, Entered h s k → Entered h' s k := by
  cases strategy <;> cases arg <;> simp only [setEntry, Option.some.injEq, reduceCtorEq] at hset
  all_goals subst hset
  · exact ⟨trivial, fun _ _ hold => hold⟩
  · exact ⟨trivial, fun _ _ hold => hold⟩
  · refine ⟨by simp [Entered], fun s k hold => ?_⟩
    cases s with
    | sp table' =>
      simp only [Entered, Function.update_apply] at hold ⊢
      split_ifs with htable
      · subst htable
        rw [Function.update_apply]
        split_ifs
        · rfl
        · exact hold
      · exact hold
    | _ => exact hold
  · refine ⟨by simp [Entered], fun s k hold => ?_⟩
    cases s with
    | wfq object' =>
      simp only [Entered, Function.update_apply] at hold ⊢
      split_ifs with hobject
      · subst hobject
        simp only [Function.update_apply]
        split_ifs
        · rfl
        · exact hold
      · exact hold
    | _ => exact hold

/-- Every node is filed with its father and every flow with its node. -/
structure Filed (h : Heap F) : Prop where
  node : ∀ (i : ℕ) (node : TreeNode) (f : ℕ), h.nodes[i]? = some node → node.father = some f →
    ∃ fatherNode, h.nodes[f]? = some fatherNode ∧
      Entered h fatherNode.strategy (toString node.nodeId)
  flow : ∀ flowId leaf, h.flowNodeMap flowId = some leaf →
    ∃ leafNode, h.nodes[leaf]? = some leafNode ∧ Entered h leafNode.strategy flowId

/-- A heap whose nodes have kept strategies and numbers and whose tables have only grown, apart
from one new father and one new flow. -/
theorem Filed.of_grown {h h' : Heap F} (hh : Filed h)
    (hold : ∀ (i : ℕ) (node : TreeNode), h.nodes[i]? = some node →
      ∃ node', h'.nodes[i]? = some node' ∧ node'.strategy = node.strategy)
    (hentered : ∀ s k, Entered h s k → Entered h' s k)
    (hnode : ∀ (i : ℕ) (node' : TreeNode) (f : ℕ), h'.nodes[i]? = some node' →
      node'.father = some f →
      (∃ node, h.nodes[i]? = some node ∧ node.nodeId = node'.nodeId ∧ node.father = some f) ∨
        ∃ fatherNode, h'.nodes[f]? = some fatherNode ∧
          Entered h' fatherNode.strategy (toString node'.nodeId))
    (hflow : ∀ flowId leaf, h'.flowNodeMap flowId = some leaf →
      h.flowNodeMap flowId = some leaf ∨
        ∃ leafNode, h'.nodes[leaf]? = some leafNode ∧ Entered h' leafNode.strategy flowId) :
    Filed h' := by
  constructor
  · intro i node' f hi hfather
    rcases hnode i node' f hi hfather with ⟨node, hi', hid, hfather'⟩ | hnew
    · obtain ⟨fatherNode, hf, hent⟩ := hh.node i node f hi' hfather'
      obtain ⟨fatherNode', hf', hstrategy⟩ := hold f fatherNode hf
      exact ⟨fatherNode', hf', by rw [hstrategy, ← hid]; exact hentered _ _ hent⟩
    · exact hnew
  · intro flowId leaf hleaf
    rcases hflow flowId leaf hleaf with hleaf | hnew
    · obtain ⟨leafNode, hnode', hent⟩ := hh.flow flowId leaf hleaf
      obtain ⟨leafNode', hleaf', hstrategy⟩ := hold leaf leafNode hnode'
      exact ⟨leafNode', hleaf', by rw [hstrategy]; exact hentered _ _ hent⟩
    · exact hnew

theorem Filed.of_createTreeNode {h : Heap F} (hh : Filed h) (strategy : SchedStrategy) :
    Filed (createTreeNode strategy h) := by
  refine hh.of_grown (fun i node hi => ⟨node, ?_, rfl⟩) (fun _ _ hent => hent) ?_
    fun _ _ hleaf => .inl hleaf
  · have hlt := (List.getElem?_eq_some_iff.1 hi).1
    simpa only [createTreeNode, List.getElem?_append_left hlt] using hi
  · intro i node' f hi hfather
    simp only [createTreeNode] at hi
    rcases Nat.lt_or_ge i h.nodes.length with hlt | hge
    · rw [List.getElem?_append_left hlt] at hi
      exact .inl ⟨node', hi, rfl, hfather⟩
    · -- the new node has no father
      rw [List.getElem?_append_right hge, List.getElem?_eq_some_iff] at hi
      obtain ⟨hidx, hnew⟩ := hi
      simp only [List.getElem_singleton] at hnew
      rw [← hnew] at hfather
      exact absurd hfather (by simp)

theorem Filed.of_attachFlow {h h' : Heap F} (hh : Filed h) {flowId : String} {f : ℕ}
    {arg : Arg F} (hrun : attachFlow flowId (some f) arg h = some h') : Filed h' := by
  simp only [attachFlow] at hrun
  split at hrun
  · exact absurd hrun (by simp)
  · rename_i fatherNode hf
    obtain ⟨-, hnodes, hmap⟩ := setEntry_frame hrun
    obtain ⟨hent, hold⟩ := entered_of_setEntry hrun
    refine hh.of_grown (fun i node hi => ⟨node, by rw [hnodes]; exact hi, rfl⟩)
      (fun s k hentered => hold s k hentered)
      (fun i node' f' hi hfather => .inl ⟨node', ?_, rfl, hfather⟩)
      fun flowId' leaf hleaf => ?_
    · rwa [hnodes] at hi
    · rw [hmap] at hleaf
      dsimp only at hleaf
      rw [Function.update_apply] at hleaf
      split_ifs at hleaf with heq
      · obtain rfl := Option.some.inj hleaf
        exact .inr ⟨fatherNode, by rw [hnodes]; exact hf, by rw [heq]; exact hent⟩
      · exact .inl hleaf

/-- Reading a node after a father and a son have been written. -/
theorem getElem?_modify_modify {nodes : List TreeNode} {node f i : ℕ} {node' : TreeNode}
    (hi : ((nodes.modify node fun n => { n with father := some f }).modify f
      fun n => { n with children := n.children ++ [node] })[i]? = some node') :
    ∃ old, nodes[i]? = some old ∧ node'.nodeId = old.nodeId ∧ node'.strategy = old.strategy ∧
      node'.father = if node = i then some f else old.father := by
  rw [List.getElem?_modify, List.getElem?_modify] at hi
  cases hold : nodes[i]? with
  | none => simp [hold] at hi
  | some old =>
    rw [hold] at hi
    refine ⟨old, rfl, ?_⟩
    by_cases hnode : node = i <;> by_cases hf : f = i <;> simp [hnode, hf] at hi <;>
      subst hi <;> simp [hnode, hf]

/-- Both writes keep the nodes where they are. -/
theorem exists_modify_modify {nodes : List TreeNode} (node f : ℕ) {i : ℕ} {old : TreeNode}
    (hi : nodes[i]? = some old) :
    ∃ node', ((nodes.modify node fun n => { n with father := some f }).modify f
      fun n => { n with children := n.children ++ [node] })[i]? = some node' ∧
      node'.strategy = old.strategy := by
  rw [List.getElem?_modify, List.getElem?_modify, hi]
  by_cases hnode : node = i <;> by_cases hf : f = i <;> simp [hnode, hf]

theorem Filed.of_attachNode {h h' : Heap F} (hh : Filed h) {node f : ℕ} {arg : Arg F}
    (hrun : attachNode node (some f) arg h = some h') : Filed h' := by
  simp only [attachNode] at hrun
  split at hrun
  · rename_i fatherNode child hf hchild
    obtain ⟨-, hnodes, hmap⟩ := setEntry_frame hrun
    obtain ⟨hent, hold⟩ := entered_of_setEntry hrun
    refine hh.of_grown (fun i old hi => ?_) (fun s k hentered => hold s k hentered)
      (fun i node' f' hi hfather => ?_) fun flowId leaf hleaf => .inl ?_
    · rw [hnodes]
      exact exists_modify_modify _ _ hi
    · rw [hnodes] at hi ⊢
      obtain ⟨old, hi', hid, -, hfather'⟩ := getElem?_modify_modify hi
      rw [hfather] at hfather'
      split_ifs at hfather' with hnode
      · -- the node that has been attached
        subst hnode
        obtain rfl := Option.some.inj hfather'
        obtain rfl := Option.some.inj (hchild.symm.trans hi')
        obtain ⟨fatherNode', hf', hstrategy⟩ := exists_modify_modify node f' hf
        exact .inr ⟨fatherNode', hf', by rw [hstrategy, hid]; exact hent⟩
      · exact .inl ⟨old, hi', hid.symm, hfather'.symm⟩
    · rwa [hmap] at hleaf
  · exact absurd hrun (by simp)

theorem Filed.of_run {h h' : Heap F} (hh : Filed h) {call : Call F}
    (hrun : runCall call h = some h') : Filed h' := by
  cases call with
  | createTreeNode strategy =>
    obtain rfl := Option.some.inj hrun
    exact hh.of_createTreeNode strategy
  | createTreeRoot strategy =>
    obtain rfl := Option.some.inj hrun
    exact hh.of_createTreeNode strategy
  | attachFlow flowId father arg =>
    cases father with
    | none =>
      obtain rfl := Option.some.inj hrun
      exact hh
    | some f => exact hh.of_attachFlow hrun
  | attachNode node father arg =>
    cases father with
    | none =>
      obtain rfl := Option.some.inj hrun
      exact hh
    | some f => exact hh.of_attachNode hrun

/-- **What a program files.** -/
theorem build_filed {calls : List (Call F)} {h : Heap F} (hbuild : build D calls = some h) :
    Filed h := by
  have hinit : Filed (Heap.init D) := ⟨by simp [Heap.init], by simp [Heap.init]⟩
  exact Runs.foldlM_keeps (fun call _ _ _ hh hcall => hh.of_run hcall) hinit hbuild

end Filed

/-! ## Ranking one packet -/

section Rank

variable {F : Type} {D : Doubles F} {h : Heap F} {sizes : String → Option ℤ} {p : Packet}

/-- The fair queues have the weights of the heap. -/
def SameTables (h : Heap F) (q : Queues F) : Prop :=
  ∀ object, (q object).weightTable = (h.wfq object).weightTable

/-- A call of a fair queue leaves its weights alone. -/
theorem weightTable_of_calWFQPriority {call : WFQCall} {s s' : StrategyWFQ F} {tag : ℤ}
    (hcall : calWFQPriority D call s = some (tag, s')) : s'.weightTable = s.weightTable := by
  obtain ⟨weight, -, -, rfl⟩ := calWFQPriority_eq_some hcall
  exact (departLoop_frame call.cycle s.outQueue.length s).1

theorem SameTables.of_rankFrom {q q' : Queues F} (hq : SameTables h q)
    {entry : SchedStrategy × String} {r : ℤ} (hrank : RankFrom D h sizes p entry q r q') :
    SameTables h q' := by
  obtain ⟨strategy, key⟩ := entry
  cases strategy with
  | unknown => exact hrank.elim
  | pFabric =>
    obtain ⟨-, rfl⟩ := hrank
    exact hq
  | sp table =>
    obtain ⟨-, rfl⟩ := hrank
    exact hq
  | wfq object =>
    obtain ⟨s, hcall, rfl⟩ := hrank
    intro other
    rw [Function.update_apply]
    split_ifs with heq
    · rw [weightTable_of_calWFQPriority hcall, heq]
      exact hq object
    · exact hq other

theorem SameTables.of_ranksFrom {q q' : Queues F} {entries : List (SchedStrategy × String)}
    {rs : List ℤ} (hq : SameTables h q) (hranks : RanksFrom D h sizes p entries q rs q') :
    SameTables h q' := by
  induction hranks with
  | nil q => exact hq
  | cons head _ ih => exact ih (hq.of_rankFrom head)

theorem SameTables.of_nonLeafPriority {q q' : Queues F} (hq : SameTables h q)
    {strategy : SchedStrategy} {childNodeId r : ℤ}
    (hrank : nonLeafPriority D h p strategy childNodeId q = some (r, q')) : SameTables h q' := by
  have hfrom : RankFrom D h (fun _ => none) p (strategy, toString childNodeId) q r q' :=
    rankFrom_of_nonLeafPriority hrank
  exact hq.of_rankFrom hfrom

theorem isSome_calWFQPriority (call : WFQCall) (s : StrategyWFQ F) :
    (calWFQPriority D call s).isSome ↔ (s.weightTable call.key).isSome := by
  rw [calWFQPriority]
  split
  · rename_i hnone
    simp [hnone]
  · rename_i weight hweight
    simp [hweight]

/-- The strategies with a rank for a child. -/
def RanksChild : SchedStrategy → Prop
  | .unknown => False
  | .pFabric => False
  | .sp _ => True
  | .wfq _ => True

instance : DecidablePred RanksChild := fun strategy => by
  cases strategy <;> unfold RanksChild <;> infer_instance

/-- The second switch has a rank where the strategy is one that ranks children. -/
theorem isSome_nonLeafPriority {q : Queues F} (hq : SameTables h q) {strategy : SchedStrategy}
    {childNodeId : ℤ} (hent : Entered h strategy (toString childNodeId)) :
    (nonLeafPriority D h p strategy childNodeId q).isSome ↔ RanksChild strategy := by
  cases strategy with
  | unknown => simp [nonLeafPriority, RanksChild]
  | pFabric => simp [nonLeafPriority, RanksChild]
  | sp table =>
    rw [Entered] at hent
    simpa [nonLeafPriority, RanksChild, calSPNonLeafPriority] using hent
  | wfq object =>
    rw [Entered, ← hq object] at hent
    simpa [nonLeafPriority, RanksChild, calWFQNonLeafPriority, isSome_calWFQPriority] using hent

/-- What the first switch asks for, with `sizes` the table of pFabric. -/
def RanksFlow (sizes : String → Option ℤ) (flowId : String) : SchedStrategy → Prop
  | .unknown => False
  | .pFabric => ∃ size, sizes flowId = some size ∧ 0 < size
  | .sp _ => True
  | .wfq _ => True

variable (D sizes) in
theorem isSome_leafPriority {q : Queues F} (hq : SameTables h q) {strategy : SchedStrategy}
    (hent : Entered h strategy p.flowId) :
    (leafPriority D h sizes p strategy q).isSome ↔ RanksFlow sizes p.flowId strategy := by
  cases strategy with
  | unknown => simp [leafPriority, RanksFlow]
  | pFabric =>
    rw [leafPriority, RanksFlow, Option.isSome_map, calPFabricPriority]
    cases hsize : sizes p.flowId with
    | none => simp
    | some size => by_cases hpos : size > 0 <;> simp [hpos]
  | sp table =>
    rw [Entered] at hent
    simpa [leafPriority, RanksFlow, calSPLeafPriority] using hent
  | wfq object =>
    rw [Entered, ← hq object] at hent
    simpa [leafPriority, RanksFlow, calWFQLeafPriority, isSome_calWFQPriority] using hent

/-- The loop returns where every strategy above the node ranks children and the way up ends. -/
theorem isSome_climb_iff (hh : Filed h) {fuel i : ℕ} {node : TreeNode} {q : Queues F}
    (hq : SameTables h q) (hnode : h.nodes[i]? = some node)
    (hend : above h.fatherOf (fuel + 1) i = none) :
    (climb D h p fuel node q).isSome ↔
      ∀ entry ∈ pathAbove h fuel node, RanksChild entry.1 := by
  induction fuel generalizing i node q with
  | zero =>
    have hfather : node.father = none := by
      rw [above_one, Heap.fatherOf, hnode] at hend
      exact hend
    simp [climb, pathAbove, hfather]
  | succ fuel ih =>
    rw [climb, pathAbove]
    cases hfather : node.father with
    | none => simp
    | some f =>
      obtain ⟨fatherNode, hf, hent⟩ := hh.node i node f hnode hfather
      have hend' : above h.fatherOf (fuel + 1) f = none := by
        rw [above, Heap.fatherOf, hnode, Option.bind_some, hfather] at hend
        exact hend
      have hranks := isSome_nonLeafPriority (D := D) (p := p) hq hent
      simp only [hf, List.forall_mem_cons]
      cases hrank : nonLeafPriority D h p fatherNode.strategy node.nodeId q with
      | none =>
        rw [hrank] at hranks
        simp [← hranks]
      | some r =>
        obtain ⟨rank, q'⟩ := r
        rw [hrank] at hranks
        have hq' := hq.of_nonLeafPriority hrank
        rw [← hranks, Option.bind_some, Option.isSome_map, ih hq' hf hend']
        simp

/-- **When a packet is ranked.** -/
theorem isSome_tagPriorityTillRoot_iff (hh : Filed h) {leaf : ℕ} {leafNode : TreeNode}
    {q : Queues F} (hq : SameTables h q) (hleaf : h.nodes[leaf]? = some leafNode)
    (hent : Entered h leafNode.strategy p.flowId)
    (hend : above h.fatherOf (h.nodes.length + 1) leaf = none) :
    (tagPriorityTillRoot D h sizes p leafNode q).isSome ↔
      RanksFlow sizes p.flowId leafNode.strategy ∧
        ∀ entry ∈ pathAbove h h.nodes.length leafNode, RanksChild entry.1 := by
  have hranks := isSome_leafPriority D sizes hq hent
  rw [tagPriorityTillRoot]
  cases hrank : leafPriority D h sizes p leafNode.strategy q with
  | none =>
    rw [hrank] at hranks
    simp [← hranks]
  | some r =>
    obtain ⟨rank, q'⟩ := r
    rw [hrank] at hranks
    have hq' := hq.of_rankFrom (rankFrom_of_leafPriority hrank)
    rw [← hranks, Option.bind_some, Option.isSome_map, isSome_climb_iff hh hq' hleaf hend]
    simp

end Rank

/-! ## The table of pFabric -/

section Sizes

/-- The bytes of a flow in a capture file. -/
def flowBytes (packets : List Packet) (flowId : String) : ℤ :=
  ((packets.filter fun p => p.flowId = flowId).map fun p => (p.len : ℤ)).sum

/-- **The size of a flow** is the number of its bytes, as an `int`. -/
theorem pFabricInitFlowRemainingSize_eq (packets : List Packet) (flowId : String) :
    pFabricInitFlowRemainingSize packets flowId =
      if packets.any fun p => p.flowId = flowId then
        some (toInt32 (flowBytes packets flowId))
      else none := by
  induction packets using List.reverseRecOn with
  | nil => rfl
  | append_singleton packets p ih =>
    rw [pFabricInitFlowRemainingSize] at ih ⊢
    rw [List.foldl_append, List.foldl_cons, List.foldl_nil, initFlowRemainingSizeHandler,
      Function.update_apply]
    by_cases hflow : flowId = p.flowId
    · subst hflow
      have hbytes : flowBytes (packets ++ [p]) p.flowId = flowBytes packets p.flowId + p.len := by
        simp [flowBytes]
      rw [if_pos rfl, ih, hbytes]
      by_cases hany : (packets.any fun p' => p'.flowId = p.flowId) = true
      · simp [hany, toInt32]
      · have hnone : flowBytes packets p.flowId = 0 := by
          rw [flowBytes, List.filter_eq_nil_iff.mpr fun p' hp' heq => hany ?_]
          · rfl
          · exact List.any_eq_true.mpr ⟨p', hp', heq⟩
        simp [hany, hnone]
    · rw [if_neg hflow, ih]
      have hne : ¬p.flowId = flowId := fun h => hflow h.symm
      simp [flowBytes, hne]

end Sizes

/-! ## Tagging a capture file -/

section Run

variable {F : Type} (D : Doubles F) (h : Heap F) (sizes : String → Option ℤ)

/-- The packets that are ranked: those of attached flows until the fifth gap, or until one that
is earlier than the packet before it, which is ranked before its time is looked at. -/
def rankedFrom (curCycle idleCycleCnt : ℤ) : List Packet → List Tagged
  | [] => []
  | p :: ps =>
    if idleCycleCnt > 4 then []
    else
      match h.flowNodeMap p.flowId with
      | none => rankedFrom curCycle idleCycleCnt ps
      | some leaf =>
        ⟨curCycle, leaf, p⟩ ::
          if tsToCycle D p ≥ curCycle then
            rankedFrom (tsToCycle D p) (nextIdleCycleCnt curCycle (tsToCycle D p) idleCycleCnt) ps
          else []

/-- A packet that is ranked is one of the file, of a flow attached to its leaf. -/
theorem mem_rankedFrom {curCycle idleCycleCnt : ℤ} {packets : List Packet} {t : Tagged}
    (ht : t ∈ rankedFrom D h curCycle idleCycleCnt packets) :
    t.packet ∈ packets ∧ h.flowNodeMap t.packet.flowId = some t.leaf := by
  induction packets generalizing curCycle idleCycleCnt with
  | nil => simp [rankedFrom] at ht
  | cons p ps ih =>
    by_cases hgaps : idleCycleCnt > 4
    · simp [rankedFrom, hgaps] at ht
    rw [rankedFrom, if_neg hgaps] at ht
    split at ht
    · exact ⟨List.mem_cons_of_mem p (ih ht).1, (ih ht).2⟩
    · rename_i leaf hleaf
      rcases List.mem_cons.1 ht with rfl | ht
      · exact ⟨List.mem_cons_self, hleaf⟩
      · split_ifs at ht
        · exact ⟨List.mem_cons_of_mem p (ih ht).1, (ih ht).2⟩
        · simp at ht

/-- No assertion fails while a packet is ranked: wherever the loop over the capture file has come
to a packet of an attached flow, `tagPriorityTillRoot` returns. -/
def AllRanked (packets : List Packet) (s : TagState F) : Prop :=
  ∀ pre p post, packets = pre ++ p :: post → ∀ t out,
    pcapLoop (tagPriorityHandler D h sizes) pre s = some (t, out) → t.idleCycleCnt ≤ 4 →
    ∀ leaf leafNode, h.flowNodeMap p.flowId = some leaf → h.nodes[leaf]? = some leafNode →
      (tagPriorityTillRoot D h sizes p leafNode t.q).isSome

variable {D h sizes}

/-- One packet, and the ones after it if the loop goes on. -/
theorem allRanked_cons {p : Packet} {ps : List Packet} {s : TagState F} :
    AllRanked D h sizes (p :: ps) s ↔
      (s.idleCycleCnt ≤ 4 → ∀ leaf leafNode, h.flowNodeMap p.flowId = some leaf →
        h.nodes[leaf]? = some leafNode →
        (tagPriorityTillRoot D h sizes p leafNode s.q).isSome) ∧
      ∀ t out, tagPriorityHandler D h sizes p s = some (t, out) → AllRanked D h sizes ps t := by
  constructor
  · intro hall
    refine ⟨hall [] p ps rfl s [] rfl, fun t out hp pre p' post heq t' out' hloop => ?_⟩
    refine hall (p :: pre) p' post (by rw [heq, List.cons_append]) t' (out ++ out') ?_
    exact pcapLoop_cons hp hloop
  · rintro ⟨hfirst, hrest⟩ pre p' post heq t out hloop
    cases pre with
    | nil =>
      obtain ⟨rfl, rfl⟩ := List.cons.inj heq
      obtain ⟨rfl, -⟩ := Prod.mk.inj (Option.some.inj hloop)
      exact hfirst
    | cons p₀ pre =>
      obtain ⟨rfl, rfl⟩ := List.cons.inj heq
      obtain ⟨t₁, here, rest, hp, hps, -⟩ := exists_of_pcapLoop_cons hloop
      exact hrest t₁ here hp pre p' post rfl t rest hps

/-- After the fifth gap no packet is ranked. -/
theorem allRanked_of_gaps {packets : List Packet} {s : TagState F} (hgaps : s.idleCycleCnt > 4) :
    AllRanked D h sizes packets s := by
  intro pre p post _ t out hloop hle
  have hidle : ∀ p, tagPriorityHandler D h sizes p s = some (s, []) :=
    fun p => by rw [tagPriorityHandler, if_pos hgaps]
  rw [pcapLoop_of_idle hidle] at hloop
  obtain ⟨rfl, -⟩ := Prod.mk.inj (Option.some.inj hloop)
  omega

/-- A property of packets under which they are ranked, in whatever state. -/
theorem allRanked_iff {ranks : Tagged → Prop} {packets : List Packet} {s : TagState F}
    (hnodes : ∀ flowId leaf, h.flowNodeMap flowId = some leaf →
      ∃ leafNode, h.nodes[leaf]? = some leafNode)
    (hranks : ∀ p ∈ packets, ∀ curCycle leaf leafNode q, SameTables h q →
      h.flowNodeMap p.flowId = some leaf → h.nodes[leaf]? = some leafNode →
      ((tagPriorityTillRoot D h sizes p leafNode q).isSome ↔ ranks ⟨curCycle, leaf, p⟩))
    (hs : SameTables h s.q) :
    AllRanked D h sizes packets s ↔
      ∀ t ∈ rankedFrom D h s.curCycle s.idleCycleCnt packets, ranks t := by
  induction packets generalizing s with
  | nil =>
    refine iff_of_true (fun pre p post heq => ?_) (by simp [rankedFrom])
    exact absurd heq.symm (by simp)
  | cons p ps ih =>
    have ih' := fun {s : TagState F} =>
      ih (s := s) fun p' hp' => hranks p' (List.mem_cons_of_mem p hp')
    by_cases hgaps : s.idleCycleCnt > 4
    · exact iff_of_true (allRanked_of_gaps hgaps) (by simp [rankedFrom, hgaps])
    rw [allRanked_cons, rankedFrom, if_neg hgaps]
    cases hflow : h.flowNodeMap p.flowId with
    | none =>
      have hskip : tagPriorityHandler D h sizes p s = some (s, []) := by
        rw [tagPriorityHandler, if_neg hgaps, hflow]
      rw [← ih' hs]
      simp [hskip]
    | some leaf =>
      obtain ⟨leafNode, hleaf⟩ := hnodes _ _ hflow
      have hhere := hranks p List.mem_cons_self s.curCycle leaf leafNode s.q hs hflow hleaf
      have hhandler : tagPriorityHandler D h sizes p s =
          (tagPriorityTillRoot D h sizes p leafNode s.q).bind fun r =>
            if tsToCycle D p ≥ s.curCycle then
              some (⟨r.2, tsToCycle D p, s.pktId + 1,
                nextIdleCycleCnt s.curCycle (tsToCycle D p) s.idleCycleCnt⟩,
                gapRecord s.curCycle (tsToCycle D p) ++
                  [.push leafNode.nodeId s.pktId r.1, .pop])
            else none := by
        rw [tagPriorityHandler, if_neg hgaps, hflow]
        simp only [hleaf]
      have hfirst : (s.idleCycleCnt ≤ 4 → ∀ leaf' leafNode', some leaf = some leaf' →
          h.nodes[leaf']? = some leafNode' →
          (tagPriorityTillRoot D h sizes p leafNode' s.q).isSome) ↔
            ranks ⟨s.curCycle, leaf, p⟩ := by
        rw [← hhere]
        constructor
        · exact fun hall => hall (by omega) leaf leafNode rfl hleaf
        · intro hsome _ leaf' leafNode' heq hleaf'
          obtain rfl := Option.some.inj heq
          obtain rfl := Option.some.inj (hleaf.symm.trans hleaf')
          exact hsome
      rw [hfirst, List.forall_mem_cons]
      refine and_congr_right fun hrank => ?_
      obtain ⟨⟨priorityVec, q'⟩, htag⟩ := Option.isSome_iff_exists.1 (hhere.2 hrank)
      have hq' : SameTables h q' := hs.of_ranksFrom (ranksFrom_of_tagPriorityTillRoot htag)
      rw [hhandler, htag, Option.bind_some]
      by_cases htime : tsToCycle D p ≥ s.curCycle
      · rw [if_pos htime, if_pos htime, ← ih' (s := ⟨q', tsToCycle D p, s.pktId + 1,
          nextIdleCycleCnt s.curCycle (tsToCycle D p) s.idleCycleCnt⟩) hq']
        simp
      · rw [if_neg htime, if_neg htime]
        simp

end Run

/-! ## The tree and the capture file together -/

section Together

variable {F : Type} {D : Doubles F} {h : Heap F}

/-- A childless node below the root has pFabric, which is what `checkMakeTree` looks for. -/
def PFabricLeaf (h : Heap F) (root : ℕ) : Prop :=
  ∃ n ∈ leaves h.sons h.nodes.length root, h.nodes[n]?.map TreeNode.strategy = some .pFabric

instance (h : Heap F) (root : ℕ) : Decidable (PFabricLeaf h root) :=
  inferInstanceAs (Decidable (∃ n ∈ leaves h.sons h.nodes.length root, _ = _))

/-- A packet can be ranked: the strategy of its node is known, every strategy above ranks
children, and if the flow is at a pFabric node, there is one among the leaves and the flow has
a positive number of bytes, as an `int`. -/
def Rankable (h : Heap F) (packets : List Packet) (root : ℕ) (t : Tagged) : Prop :=
  ∀ leafNode, h.nodes[t.leaf]? = some leafNode →
    leafNode.strategy ≠ .unknown ∧
    (leafNode.strategy = .pFabric →
      PFabricLeaf h root ∧ 0 < toInt32 (flowBytes packets t.packet.flowId)) ∧
    ∀ entry ∈ pathAbove h h.nodes.length leafNode, RanksChild entry.1

/-- The leaves deliver their bandwidths, whatever the nodes ask for. -/
theorem exists_foldlM_upDeliver (hl : Linked h.sons h.fatherOf) (hnum : Numbered h)
    {rootNode : TreeNode} {root K : ℕ} (hroot : h.nodes[root]? = some rootNode)
    (hheight : HeightLe h.sons K root) (ns : List ℕ) (hns : ∀ n ∈ ns, n ∈ subtree h.sons K root)
    (P : ℕ → Option ℚ) :
    ∃ Q, ∀ fuel, K ≤ fuel → ns.foldlM (upDeliverMinPerfToRoot h rootNode fuel) P = some Q := by
  induction ns generalizing P with
  | nil => exact ⟨P, fun _ _ => rfl⟩
  | cons n ns ih =>
    obtain ⟨path, hpath⟩ := exists_path hheight n (hns n List.mem_cons_self)
    obtain ⟨Q, hQ⟩ := ih (fun m hm => hns m (List.mem_cons_of_mem n hm))
      (deliverAll path (P n).toList P)
    refine ⟨Q, fun fuel hfuel => ?_⟩
    rw [List.foldlM_cons, upDeliver_leaf hl hnum hroot hheight hpath hfuel]
    exact hQ fuel hfuel

/-- **`checkMakeTree` returns**, and its result is whether a leaf has pFabric. -/
theorem checkMakeTree_returns (hl : Linked h.sons h.fatherOf) (hnum : Numbered h)
    {root K : ℕ} (hroot : root < h.nodes.length) (hheight : HeightLe h.sons K root)
    (least : ℕ → Option ℚ) (actual : ℚ) :
    ∃ made, (∀ fuel, K ≤ fuel → checkMakeTree h fuel least (some actual) root = some made) ∧
      made.hasPFabric = (leaves h.sons K root).any fun n =>
        (h.nodes[n]?.map TreeNode.strategy) == some .pFabric := by
  have hnode := List.getElem?_eq_getElem hroot
  obtain ⟨Q, hQ⟩ := exists_foldlM_upDeliver hl hnum hnode hheight (leaves h.sons K root)
    (fun n hn => leaves_subset_subtree hheight hn) least
  obtain ⟨meet, hmeet⟩ : ∃ meet, checkPerfInfoMeet (some actual) (Q root) = some meet := by
    cases hleast : Q root <;> exact ⟨_, rfl⟩
  refine ⟨⟨Q, if meet then [] else [exceedsText], (leaves h.sons K root).any fun n =>
    (h.nodes[n]?.map TreeNode.strategy) == some .pFabric⟩, fun fuel hfuel => ?_, rfl⟩
  have hcollect := collectLeafNode_eq hl hnode (hheight.mono hfuel) []
  rw [List.nil_append, leaves, collect_stable _ hheight hfuel, ← leaves] at hcollect
  simp [checkMakeTree, hnode, hcollect, hQ fuel hfuel, hmeet]

/-- Fathers and sons are nodes. -/
theorem Filed.father_mem (hh : Filed h) (s f : ℕ) (hs : h.fatherOf s = some f) :
    s ∈ Finset.range h.nodes.length ∧ f ∈ Finset.range h.nodes.length := by
  obtain ⟨node, hnode, hfather⟩ := exists_node_of_fatherOf hs
  obtain ⟨fatherNode, hf, -⟩ := hh.node s node f hnode hfather
  exact ⟨Finset.mem_range.mpr (List.getElem?_eq_some_iff.1 hnode).1,
    Finset.mem_range.mpr (List.getElem?_eq_some_iff.1 hf).1⟩

/-- The size that pFabric finds for a flow with a packet. -/
theorem ranksFlow_pFabric_iff {packets : List Packet} {p : Packet} (hp : p ∈ packets)
    (hasPFabric : Bool) :
    RanksFlow (flowRemainingSizeTable packets hasPFabric) p.flowId .pFabric ↔
      hasPFabric = true ∧ 0 < toInt32 (flowBytes packets p.flowId) := by
  have hany : (packets.any fun p' => p'.flowId = p.flowId) = true :=
    List.any_eq_true.mpr ⟨p, hp, decide_eq_true rfl⟩
  cases hasPFabric with
  | false => simp [RanksFlow, flowRemainingSizeTable]
  | true =>
    rw [RanksFlow, flowRemainingSizeTable, if_pos rfl, pFabricInitFlowRemainingSize_eq, hany]
    simp

/-- **When what is built can be tagged.**  Let a program attach no node twice and leave no
cycle.  Then `checkMakeTree` returns, and `tagPriority` with the flag it computes fails no
assertion while it ranks a packet if and only if every packet that is ranked is `Rankable`. -/
theorem tagPriority_ranks_iff {calls : List (Call F)} (hbuild : build D calls = some h)
    (honce : AttachedOnce calls) (hacyclic : Acyclic h.fatherOf) (packets : List Packet)
    (least : ℕ → Option ℚ) (actual : ℚ) {root : ℕ} (hroot : root < h.nodes.length) :
    ∃ made, (∀ fuel, h.nodes.length ≤ fuel →
        checkMakeTree h fuel least (some actual) root = some made) ∧
      (AllRanked D h (flowRemainingSizeTable packets made.hasPFabric) packets ⟨h.wfq, 0, 0, 0⟩ ↔
        ∀ t ∈ rankedFrom D h 0 0 packets, Rankable h packets root t) := by
  have hl := linked_of_build hbuild honce
  have hfiled := build_filed hbuild
  have hheight : HeightLe h.sons h.nodes.length root := by
    have hcard := hacyclic.heightLe hl hfiled.father_mem (Finset.mem_range.mpr hroot)
    rwa [Finset.card_range] at hcard
  obtain ⟨made, hmade, hflag⟩ := checkMakeTree_returns hl (build_numbered hbuild) hroot hheight
    least actual
  have hleaf : made.hasPFabric = true ↔ PFabricLeaf h root := by
    rw [hflag, List.any_eq_true]
    simp only [beq_iff_eq]
    rfl
  refine ⟨made, hmade, allRanked_iff (fun flowId leaf hflow => ?_)
    (fun p hp curCycle leaf leafNode q hq hflow hnode => ?_) fun _ => rfl⟩
  · obtain ⟨leafNode, hnode, -⟩ := hfiled.flow flowId leaf hflow
    exact ⟨leafNode, hnode⟩
  · have hent : Entered h leafNode.strategy p.flowId := by
      obtain ⟨leafNode', hnode', hent⟩ := hfiled.flow p.flowId leaf hflow
      obtain rfl := Option.some.inj (hnode.symm.trans hnode')
      exact hent
    have hend : above h.fatherOf (h.nodes.length + 1) leaf = none := by
      by_contra hne
      obtain ⟨top, htop⟩ := Option.ne_none_iff_exists'.mp hne
      have hlt := hacyclic.above_lt (fun s f hs => (hfiled.father_mem s f hs).2)
        (Finset.mem_range.mpr (List.getElem?_eq_some_iff.1 hnode).1) htop
      rw [Finset.card_range] at hlt
      omega
    rw [isSome_tagPriorityTillRoot_iff hfiled hq hnode hent hend]
    have hsize := ranksFlow_pFabric_iff hp made.hasPFabric
    rw [hleaf] at hsize
    constructor
    · rintro ⟨hflowRank, habove⟩ leafNode' hnode'
      obtain rfl := Option.some.inj (hnode.symm.trans hnode')
      refine ⟨fun hunknown => ?_, fun hpFabric => ?_, habove⟩
      · rw [hunknown] at hflowRank
        exact hflowRank
      · rw [hpFabric] at hflowRank
        exact hsize.1 hflowRank
    · intro hrankable
      obtain ⟨hknown, hpFabric, habove⟩ := hrankable leafNode hnode
      refine ⟨?_, habove⟩
      cases hstrategy : leafNode.strategy with
      | unknown => exact absurd hstrategy hknown
      | pFabric => exact hsize.2 (hpFabric hstrategy)
      | sp table => trivial
      | wfq object => trivial

end Together

/-! ## A flow at an inner node and a flow at a leaf -/

/-- Pointers that lead to an older node make no cycle. -/
theorem acyclic_of_lt {father : ℕ → Option ℕ} (hlt : ∀ s f, father s = some f → f < s) :
    Acyclic father := by
  have hway : ∀ d n m, above father (d + 1) n = some m → m < n := by
    intro d
    induction d with
    | zero =>
      intro n m hm
      rw [above_one] at hm
      exact hlt n m hm
    | succ d ih =>
      intro n m hm
      rw [above] at hm
      obtain ⟨f, hf, hm⟩ := Option.bind_eq_some_iff.mp hm
      exact (ih f m hm).trans (hlt n f hf)
  exact fun n d hn => lt_irrefl n (hway d n n hn)

/-- A flow at a pFabric root, which has a son. -/
def innerProgram : List (Call ℚ) :=
  [.createTreeRoot .pFabric, .createTreeNode (.sp 0), .attachNode 1 (some 0) .none,
    .attachFlow "f" (some 0) .none]

/-- A flow at a pFabric leaf below a root with strict priority. -/
def leafProgram : List (Call ℚ) :=
  [.createTreeRoot (.sp 0), .createTreeNode .pFabric, .attachNode 1 (some 0) (.priority 3),
    .attachFlow "f" (some 1) .none]

/-- One packet of the flow. -/
def onePacket : List Packet := [⟨"f", 0, 5, 100⟩]

/-- The way up of the two programs. -/
theorem acyclic_of_second {father : ℕ → Option ℕ} (h1 : father 1 = some 0)
    (hother : ∀ n, n ≠ 1 → father n = none) : Acyclic father := by
  refine acyclic_of_lt fun s f hs => ?_
  by_cases hs1 : s = 1
  · subst hs1
    obtain rfl := Option.some.inj (h1.symm.trans hs)
    exact Nat.one_pos
  · rw [hother s hs1] at hs
    exact absurd hs (by simp)

/-- **A tree that is built and cannot be tagged.**  The root has pFabric and a flow, but it is no
leaf, so the flag is not set, the sizes are not read, and ranking the first packet fails. -/
theorem inner_pFabric_fails :
    AttachedOnce innerProgram ∧ ∃ h, build Doubles.rat innerProgram = some h ∧
      Acyclic h.fatherOf ∧ (∀ p ∈ onePacket, 0 < p.len) ∧
      ∃ made, checkMakeTree h 2 (fun _ => none) (some 10) 0 = some made ∧
        ¬AllRanked Doubles.rat h (flowRemainingSizeTable onePacket made.hasPFabric) onePacket
          ⟨h.wfq, 0, 0, 0⟩ := by
  refine ⟨by decide, _, rfl, acyclic_of_second rfl fun n hn => ?_, by decide, _, rfl,
    fun hall => ?_⟩
  · rcases n with _ | _ | n
    · rfl
    · exact absurd rfl hn
    · rfl
  · have hsome := hall [] ⟨"f", 0, 5, 100⟩ [] rfl _ [] rfl (by decide) 0 _ rfl rfl
    exact absurd hsome (by decide +kernel)

/-- With pFabric at a leaf the packet is ranked. -/
theorem tagPriority_ranks_iff_leaf :
    ∃ h, build Doubles.rat leafProgram = some h ∧
      ∃ made, checkMakeTree h 2 (fun _ => none) (some 10) 0 = some made ∧
        AllRanked Doubles.rat h (flowRemainingSizeTable onePacket made.hasPFabric) onePacket
          ⟨h.wfq, 0, 0, 0⟩ := by
  obtain ⟨h, hbuild, hacyclic, hroot, hlen, hrankable⟩ :
      ∃ h, build Doubles.rat leafProgram = some h ∧ Acyclic h.fatherOf ∧ 0 < h.nodes.length ∧
        h.nodes.length = 2 ∧
        ∀ t ∈ rankedFrom Doubles.rat h 0 0 onePacket, Rankable h onePacket 0 t := by
    refine ⟨_, rfl, acyclic_of_second rfl fun n hn => ?_, by decide, by decide, fun t ht => ?_⟩
    · rcases n with _ | _ | n
      · rfl
      · exact absurd rfl hn
      · rfl
    · obtain ⟨hpacket, hflow⟩ := mem_rankedFrom Doubles.rat _ ht
      obtain ⟨curCycle, leaf, packet⟩ := t
      obtain rfl := List.mem_singleton.mp hpacket
      obtain rfl : 1 = leaf := Option.some.inj hflow
      intro leafNode hnode
      obtain rfl := Option.some.inj hnode
      have hbytes : 0 < toInt32 (flowBytes onePacket "f") := by decide
      exact ⟨by decide, fun _ => ⟨by decide, hbytes⟩, by decide⟩
  obtain ⟨made, hmade, hiff⟩ := tagPriority_ranks_iff hbuild (by decide) hacyclic onePacket
    (fun _ => none) 10 hroot
  exact ⟨h, hbuild, made, hmade 2 hlen.le, hiff.mpr hrankable⟩

end VPifo.Sdl
