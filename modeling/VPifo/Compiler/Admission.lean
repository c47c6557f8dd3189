import VPifo.Compiler.TreeBuilder
import VPifo.Lib.PointerTree
import VPifo.Lib.RunningSums

/-!
# `PIFOTree.cpp`: the bandwidth check

A leaf of a scheduling tree may ask for a bandwidth, its `minPerf`.  `checkMakeTree` hands
what the leaves ask for up to the root, leaf by leaf, and prints an error if the root has
less.  The loop that goes up adds to the father of a node what the *node* has by then.  For
the leaf that is what it asks for; for a node further up it is the sum over all leaves
handled so far, which the father has been given before.  With two levels this never happens.
With three or more, the earlier leaves below an inner node are counted again for each later
one.

What a node hands on, value by value, is the list of running sums of what its sons hand to
it (`emits`, `delivered_leaves`).  From this the value a node is left with is a sum of the
bandwidths below it, each counted a number of times that depends on the shape of the tree
only (`timesCounted`, `sum_below`).  So the check is right if and only if these weighted sums
are the plain ones, and where no bandwidth is negative this means that no inner node but
the root has two leaves below it that count (`LastOnly`, `sums_iff_lastOnly`).

Bandwidths are taken as exact numbers.  `TreeBuilder` leaves the performance records out, so
what the nodes are created with comes as a function here.
-/

namespace VPifo.Sdl

open PointerTree

/-! ## The code -/

/-- `sumPerfInfo`; the sum it adds to is there. -/
def sumPerfInfo (perfInfo : Option ℚ) (perfInfoSum : ℚ) : ℚ :=
  match perfInfo with
  | some bandWidth => perfInfoSum + bandWidth
  | none => perfInfoSum

/-- `checkPerfInfoMeet`; `none` is the failing assertion. -/
def checkPerfInfoMeet (actualPerf minPerf : Option ℚ) : Option Bool :=
  match actualPerf, minPerf with
  | none, _ => none
  | some _, none => some true
  | some actual, some least => some (decide (least ≤ actual))

/-- What `checkMakeTree` leaves: the `minPerf` of the nodes, what it has printed, and its
result. -/
structure MakeTree where
  minPerf : ℕ → Option ℚ
  out : List String
  hasPFabric : Bool

/-- The text of the error. -/
def exceedsText : String := "Error: The minimum requirement exceeds the actual capacity!"

section Code

variable {F : Type} (h : Heap F)

/-- `collectLeafNode`; `none` when the fuel is used up, or for a pointer to no node. -/
def collectLeafNode : ℕ → List ℕ → ℕ → Option (List ℕ)
  | 0, _, _ => none
  | fuel + 1, leafNodes, node =>
    match h.nodes[node]? with
    | none => none
    | some n =>
      n.children.foldlM (fun leafNodes it => collectLeafNode fuel leafNodes it)
        (if n.children.isEmpty then leafNodes ++ [node] else leafNodes)

/-- The loop of `upDeliverMinPerfToRoot`.  A new `PerfInfo_` is taken to start at zero. -/
def upDeliverLoop (root : TreeNode) : ℕ → ℕ → (ℕ → Option ℚ) → Option (ℕ → Option ℚ)
  | 0, _, _ => none
  | fuel + 1, leafNode, minPerf =>
    match h.nodes[leafNode]? with
    | none => none
    | some leaf =>
      match leaf.father with
      | none => some minPerf
      | some father =>
        if leaf.nodeId = root.nodeId then some minPerf
        else
          upDeliverLoop root fuel father (Function.update minPerf father
            (some (sumPerfInfo (minPerf leafNode) ((minPerf father).getD 0))))

/-- `upDeliverMinPerfToRoot`. -/
def upDeliverMinPerfToRoot (root : TreeNode) (fuel : ℕ) (minPerf : ℕ → Option ℚ)
    (leafNode : ℕ) : Option (ℕ → Option ℚ) :=
  match minPerf leafNode with
  | none => some minPerf
  | some _ => upDeliverLoop h root fuel leafNode minPerf

/-- `checkMakeTree`, for nodes that have been created with the given `minPerf` and a root with
the given `actualPerf`. -/
def checkMakeTree (fuel : ℕ) (minPerf : ℕ → Option ℚ) (actualPerf : Option ℚ) (root : ℕ) :
    Option MakeTree := do
  let rootNode ← h.nodes[root]?
  let leafNodes ← collectLeafNode h fuel [] root
  let minPerf ← leafNodes.foldlM (upDeliverMinPerfToRoot h rootNode fuel) minPerf
  let meet ← checkPerfInfoMeet actualPerf (minPerf root)
  return {
    minPerf := minPerf
    out := if meet then [] else [exceedsText]
    hasPFabric := leafNodes.any fun node =>
      (h.nodes[node]?.map TreeNode.strategy) == some .pFabric }

end Code

/-! ## The tree in the heap -/

section Tree

variable {F : Type} {D : Doubles F}

/-- `children` of a node. -/
def Heap.sons (h : Heap F) (n : ℕ) : List ℕ := (h.nodes[n]?.map TreeNode.children).getD []

/-- `father` of a node. -/
def Heap.fatherOf (h : Heap F) (n : ℕ) : Option ℕ := h.nodes[n]?.bind TreeNode.father

/-- The node a call attaches. -/
def attachedNode : Call F → Option ℕ
  | .attachNode node (some _) _ => some node
  | _ => none

/-- The program attaches no node twice. -/
def AttachedOnce (calls : List (Call F)) : Prop := (calls.filterMap attachedNode).Nodup

instance (calls : List (Call F)) : Decidable (AttachedOnce calls) :=
  inferInstanceAs (Decidable (calls.filterMap attachedNode).Nodup)

/-- A new node has no sons, as a position that is no node has none. -/
theorem sons_createTreeNode (h : Heap F) (strategy : SchedStrategy) :
    (createTreeNode strategy h).sons = h.sons := by
  funext n
  simp only [Heap.sons, createTreeNode]
  rcases Nat.lt_trichotomy n h.nodes.length with hlt | rfl | hgt
  · rw [List.getElem?_append_left hlt]
  · simp
  · rw [List.getElem?_eq_none (by simp; omega), List.getElem?_eq_none (by omega)]

theorem fatherOf_createTreeNode (h : Heap F) (strategy : SchedStrategy) :
    (createTreeNode strategy h).fatherOf = h.fatherOf := by
  funext n
  simp only [Heap.fatherOf, createTreeNode]
  rcases Nat.lt_trichotomy n h.nodes.length with hlt | rfl | hgt
  · rw [List.getElem?_append_left hlt]
  · simp
  · rw [List.getElem?_eq_none (by simp; omega), List.getElem?_eq_none (by omega)]

/-- Attaching a node changes one list of sons and one father. -/
theorem sons_attachNode {h h' : Heap F} {node f : ℕ} {arg : Arg F}
    (hrun : attachNode node (some f) arg h = some h') :
    h'.sons = Function.update h.sons f (h.sons f ++ [node]) ∧
      h'.fatherOf = Function.update h.fatherOf node (some f) := by
  simp only [attachNode] at hrun
  split at hrun
  · next fatherNode child hf hnode =>
    have hnodes := (setEntry_frame hrun).2.1
    constructor <;> funext n <;>
      simp only [Heap.sons, Heap.fatherOf, hnodes, List.getElem?_modify, Function.update_apply]
    · by_cases hnf : n = f
      · subst hnf
        by_cases hn : node = n <;> simp [hn, hf]
      · by_cases hn : node = n <;> cases hx : h.nodes[n]? <;> simp [hn, hnf, Ne.symm hnf]
    · by_cases hn : n = node
      · subst hn
        by_cases hfn : f = n <;> simp [hfn, hnode]
      · by_cases hfn : f = n <;> cases hx : h.nodes[n]? <;> simp [hn, hfn, Ne.symm hn]
  · exact absurd hrun (by simp)

theorem nodes_attachFlow {h h' : Heap F} {flowId : String} {father : Option ℕ} {arg : Arg F}
    (hrun : attachFlow flowId father arg h = some h') : h'.nodes = h.nodes := by
  cases father with
  | none =>
    obtain rfl := Option.some.inj hrun
    rfl
  | some f =>
    simp only [attachFlow] at hrun
    split at hrun
    · exact absurd hrun (by simp)
    · exact (setEntry_frame hrun).2.1

/-- The pointers agree, and only nodes of a list have a father. -/
structure Grown (h : Heap F) (attached : List ℕ) : Prop where
  linked : Linked h.sons h.fatherOf
  fresh : ∀ s f, h.fatherOf s = some f → s ∈ attached

theorem Grown.of_eq {h h' : Heap F} {attached : List ℕ} (hg : Grown h attached)
    (hsons : h'.sons = h.sons) (hfather : h'.fatherOf = h.fatherOf) : Grown h' attached :=
  ⟨by rw [hsons, hfather]; exact hg.linked, by rw [hfather]; exact hg.fresh⟩

theorem Grown.append_nil {h : Heap F} {attached : List ℕ} (hg : Grown h attached) :
    Grown h (attached ++ []) := by
  rw [List.append_nil]
  exact hg

/-- A node that has no father yet is attached. -/
theorem Grown.attach {h h' : Heap F} {attached : List ℕ} (hg : Grown h attached) {node f : ℕ}
    {arg : Arg F} (hrun : attachNode node (some f) arg h = some h') (hnew : node ∉ attached) :
    Grown h' (attached ++ [node]) := by
  obtain ⟨hsons, hfather⟩ := sons_attachNode hrun
  have hnone : ∀ n, node ∉ h.sons n := fun n hn =>
    hnew (hg.fresh node n ((hg.linked.iff n node).mp hn))
  refine ⟨⟨fun n s => ?_, fun n => ?_⟩, fun s f' hs => ?_⟩
  · rw [hsons, hfather, Function.update_apply, Function.update_apply]
    by_cases hsn : s = node
    · subst hsn
      by_cases hnf : n = f
      · simp [hnf]
      · simp [hnf, Ne.symm hnf, hnone n]
    · have hiff := hg.linked.iff n s
      by_cases hnf : n = f
      · subst hnf
        simp [hsn, hiff]
      · simp [hsn, hnf, hiff]
  · rw [hsons, Function.update_apply]
    split
    · exact (hg.linked.nodup f).append (List.nodup_singleton node)
        (List.disjoint_singleton.mpr (hnone f))
    · exact hg.linked.nodup n
  · rw [hfather, Function.update_apply] at hs
    split at hs
    · next hsn => exact List.mem_append_right _ (List.mem_singleton.mpr hsn)
    · exact List.mem_append_left _ (hg.fresh s f' hs)

theorem Grown.of_run {h h' : Heap F} {attached : List ℕ} (hg : Grown h attached) {call : Call F}
    (hrun : runCall call h = some h') (hnew : ∀ s, attachedNode call = some s → s ∉ attached) :
    Grown h' (attached ++ (attachedNode call).toList) := by
  cases call with
  | createTreeNode strategy =>
    obtain rfl := Option.some.inj hrun
    exact (hg.of_eq (sons_createTreeNode h strategy)
      (fatherOf_createTreeNode h strategy)).append_nil
  | createTreeRoot strategy =>
    obtain rfl := Option.some.inj hrun
    exact (hg.of_eq (sons_createTreeNode h strategy)
      (fatherOf_createTreeNode h strategy)).append_nil
  | attachFlow flowId father arg =>
    have hnodes := nodes_attachFlow hrun
    exact (hg.of_eq (by funext n; rw [Heap.sons, hnodes]; rfl)
      (by funext n; rw [Heap.fatherOf, hnodes]; rfl)).append_nil
  | attachNode node father arg =>
    cases father with
    | none =>
      obtain rfl := Option.some.inj hrun
      exact hg.append_nil
    | some f => exact hg.attach hrun (hnew node rfl)

/-- **A program that attaches no node twice builds a forest**, as far as the pointers go. -/
theorem linked_of_build {calls : List (Call F)} {h : Heap F} (hbuild : build D calls = some h)
    (honce : AttachedOnce calls) : Linked h.sons h.fatherOf := by
  have hrun : ∀ (calls : List (Call F)) (h₀ : Heap F) (attached : List ℕ), Grown h₀ attached →
      (attached ++ calls.filterMap attachedNode).Nodup →
      calls.foldlM (fun h call => runCall call h) h₀ = some h → Linked h.sons h.fatherOf := by
    intro calls
    induction calls with
    | nil =>
      intro h₀ attached hg _ hfold
      obtain rfl := Option.some.inj hfold
      exact hg.linked
    | cons call calls ih =>
      intro h₀ attached hg hnodup hfold
      obtain ⟨h₁, hcall, hrest⟩ := Runs.of_foldlM_cons hfold
      have hsplit : (call :: calls).filterMap attachedNode =
          (attachedNode call).toList ++ calls.filterMap attachedNode := by
        rw [List.filterMap_cons]
        cases attachedNode call <;> rfl
      rw [hsplit, ← List.append_assoc] at hnodup
      refine ih h₁ _ (hg.of_run hcall fun s hs => ?_) hnodup hrest
      have hdisj := (List.nodup_append.mp (List.nodup_append.mp hnodup).1).2.2
      intro hmem
      exact hdisj s hmem s (by rw [hs]; simp) rfl
  refine hrun calls (Heap.init D) [] ⟨⟨fun n s => ?_, fun n => ?_⟩, fun s f hs => ?_⟩
    (by rw [List.nil_append]; exact honce) hbuild
  · simp [Heap.sons, Heap.fatherOf, Heap.init]
  · simp [Heap.sons, Heap.init]
  · simp [Heap.fatherOf, Heap.init] at hs

/-! ## Delivering upwards -/

/-- Add `x` to the first node of a path, the new value of the first node to the second one,
and so on. -/
def deliver : List ℕ → ℚ → (ℕ → Option ℚ) → ℕ → Option ℚ
  | [], _, minPerf => minPerf
  | f :: path, x, minPerf =>
    deliver path ((minPerf f).getD 0 + x)
      (Function.update minPerf f (some ((minPerf f).getD 0 + x)))

/-- Deliver one value after the other. -/
def deliverAll (path : List ℕ) (xs : List ℚ) (minPerf : ℕ → Option ℚ) : ℕ → Option ℚ :=
  xs.foldl (fun minPerf x => deliver path x minPerf) minPerf

variable {path : List ℕ} {P P' : ℕ → Option ℚ} {n m : ℕ}

theorem deliver_of_not_mem (hm : m ∉ path) (x : ℚ) : deliver path x P m = P m := by
  induction path generalizing x P with
  | nil => rfl
  | cons f path ih =>
    rw [List.mem_cons, not_or] at hm
    rw [deliver, ih hm.2, Function.update_of_ne hm.1]

/-- What is delivered depends on the path only. -/
theorem deliver_congr (hpath : ∀ a ∈ path, P a = P' a) (hm : P m = P' m) (x : ℚ) :
    deliver path x P m = deliver path x P' m := by
  induction path generalizing x P P' with
  | nil => exact hm
  | cons f path ih =>
    rw [deliver, deliver, hpath f List.mem_cons_self]
    refine ih (fun a ha => ?_) ?_ _
    · rw [Function.update_apply, Function.update_apply,
        hpath a (List.mem_cons_of_mem f ha)]
    · rw [Function.update_apply, Function.update_apply, hm]

theorem deliverAll_of_not_mem (hm : m ∉ path) (xs : List ℚ) : deliverAll path xs P m = P m := by
  induction xs generalizing P with
  | nil => rfl
  | cons x xs ih => exact (ih (P := deliver path x P)).trans (deliver_of_not_mem hm x)

theorem deliverAll_congr (hpath : ∀ a ∈ path, P a = P' a) (hm : P m = P' m) (xs : List ℚ) :
    deliverAll path xs P m = deliverAll path xs P' m := by
  induction xs generalizing P P' with
  | nil => exact hm
  | cons x xs ih =>
    exact ih (fun a ha => deliver_congr hpath (hpath a ha) x) (deliver_congr hpath hm x)

/-- The first node of the path hands on its running sums. -/
theorem deliverAll_cons (hn : n ∉ path) (xs : List ℚ) (P : ℕ → Option ℚ) :
    (∀ m ≠ n, deliverAll (n :: path) xs P m =
      deliverAll path (runningSums ((P n).getD 0) xs) P m) ∧
    deliverAll (n :: path) xs P n =
      if xs = [] then P n else some ((P n).getD 0 + xs.sum) := by
  induction xs generalizing P with
  | nil => exact ⟨fun _ _ => rfl, rfl⟩
  | cons x xs ih =>
    obtain ⟨hother, hself⟩ := ih (deliver (n :: path) x P)
    have hP1 : deliver (n :: path) x P n = some ((P n).getD 0 + x) := by
      rw [deliver, deliver_of_not_mem hn, Function.update_self]
    rw [hP1, Option.getD_some] at hother hself
    refine ⟨fun m hm => (hother m hm).trans ?_, hself.trans ?_⟩
    · have hagree : ∀ a ≠ n, deliver (n :: path) x P a = deliver path ((P n).getD 0 + x) P a :=
        fun a ha => deliver_congr
          (fun b hb => Function.update_of_ne (ne_of_mem_of_not_mem hb hn) ..)
          (Function.update_of_ne ha ..) _
      exact deliverAll_congr (fun a ha => hagree a (ne_of_mem_of_not_mem ha hn)) (hagree m hm) _
    · rw [if_neg (List.cons_ne_nil x xs), List.sum_cons, ← add_assoc]
      split
      · next hnil => rw [hnil, List.sum_nil, add_zero]
      · rfl

/-! ## What the leaves deliver -/

/-- The bandwidths that the leaves below a node ask for. -/
def demands (h : Heap F) (least : ℕ → Option ℚ) (K n : ℕ) : List ℚ :=
  (leaves h.sons K n).filterMap least

/-- What a node delivers to its father, one value for each leaf below it that asks for
bandwidth. -/
def emits (h : Heap F) (least : ℕ → Option ℚ) : ℕ → ℕ → List ℚ :=
  collect h.sons fun n below =>
    if (h.sons n).isEmpty then (least n).toList else runningSums 0 below

/-- What a node is left with. -/
def settled (h : Heap F) (least : ℕ → Option ℚ) (K n : ℕ) : Option ℚ :=
  if (h.sons n).isEmpty then least n
  else if (h.sons n).flatMap (emits h least K) = [] then none
  else some ((h.sons n).flatMap (emits h least K)).sum

section Deliver

variable {h : Heap F} {least : ℕ → Option ℚ} {k K root : ℕ} {rootNode : TreeNode}

theorem emits_eq (hn : HeightLe h.sons K n) : emits h least K n =
    if (h.sons n).isEmpty then (least n).toList
    else runningSums 0 ((h.sons n).flatMap (emits h least K)) := collect_eq _ hn

theorem demands_eq (hn : HeightLe h.sons K n) : demands h least K n =
    if (h.sons n).isEmpty then (least n).toList
    else (h.sons n).flatMap (demands h least K) := by
  rw [demands, leaves_eq hn]
  split
  · cases hleast : least n <;> simp [hleast]
  · rw [List.filterMap_flatMap]
    rfl

theorem isEmpty_of_inner (hleaf : h.sons n ≠ []) : (h.sons n).isEmpty = false := by
  simpa [List.isEmpty_iff] using hleaf

theorem demands_inner (hn : HeightLe h.sons K n) (hleaf : h.sons n ≠ []) :
    demands h least K n = (h.sons n).flatMap (demands h least K) := by
  rw [demands_eq hn, isEmpty_of_inner hleaf]
  rfl

theorem emits_inner (hn : HeightLe h.sons K n) (hleaf : h.sons n ≠ []) :
    emits h least K n = runningSums 0 ((h.sons n).flatMap (emits h least K)) := by
  rw [emits_eq hn, isEmpty_of_inner hleaf]
  rfl

/-- A node with a father is a node. -/
theorem exists_node_of_fatherOf {s f : ℕ} (hs : h.fatherOf s = some f) :
    ∃ node, h.nodes[s]? = some node ∧ node.father = some f :=
  Option.bind_eq_some_iff.mp hs

theorem sons_eq {node : TreeNode} (hnode : h.nodes[n]? = some node) :
    h.sons n = node.children := by
  rw [Heap.sons, hnode]
  rfl

/-- `collectLeafNode` collects the leaves. -/
theorem collectLeafNode_eq (hl : Linked h.sons h.fatherOf) {fuel : ℕ} {node : TreeNode}
    (hnode : h.nodes[n]? = some node) (hn : HeightLe h.sons fuel n) (acc : List ℕ) :
    collectLeafNode h fuel acc n = some (acc ++ leaves h.sons fuel n) := by
  induction fuel generalizing n node acc with
  | zero => exact hn.elim
  | succ fuel ih =>
    have hsons := sons_eq hnode
    have hfold : ∀ (ss : List ℕ) (acc : List ℕ), (∀ s ∈ ss, s ∈ h.sons n) →
        ss.foldlM (fun leafNodes it => collectLeafNode h fuel leafNodes it) acc =
          some (acc ++ ss.flatMap (leaves h.sons fuel)) := by
      intro ss
      induction ss with
      | nil => simp
      | cons s ss ih' =>
        intro acc hss
        have hs := hss s List.mem_cons_self
        obtain ⟨son, hson, -⟩ := exists_node_of_fatherOf ((hl.iff n s).mp hs)
        rw [List.foldlM_cons, ih hson (hn s hs) acc]
        show ss.foldlM _ (acc ++ leaves h.sons fuel s) = _
        rw [ih' _ fun s' hs' => hss s' (List.mem_cons_of_mem s hs')]
        simp [List.append_assoc]
    rw [collectLeafNode, hnode]
    show node.children.foldlM _ _ = _
    rw [← hsons, hfold _ _ fun s hs => hs, leaves, collect, ← leaves]
    cases hempty : h.sons n <;> simp

/-- **The way up of one value.**  The loop follows the path to the root and ends there, also
when the root has a father. -/
theorem upDeliverLoop_eq (hl : Linked h.sons h.fatherOf) (hnum : Numbered h)
    (hroot : h.nodes[root]? = some rootNode) (hheight : HeightLe h.sons K root)
    (hpath : Path h.sons root n path) {fuel : ℕ} (hfuel : path.length < fuel) {x : ℚ}
    (hx : P n = some x) : upDeliverLoop h rootNode fuel n P = some (deliver path x P) := by
  obtain ⟨fuel, rfl⟩ : ∃ f, fuel = f + 1 := ⟨fuel - 1, by omega⟩
  induction hpath generalizing fuel x P with
  | root =>
    rw [upDeliverLoop, hroot]
    cases hfather : rootNode.father <;> simp [hfather, deliver]
  | @son f s path hs hbefore ih =>
    obtain ⟨node, hnode, hfather⟩ := exists_node_of_fatherOf ((hl.iff f s).mp hs)
    have hne : s ≠ root := (Path.son hs hbefore).ne_root hl hheight (List.cons_ne_nil f path)
    have hid : node.nodeId ≠ rootNode.nodeId := by
      rw [hnum.nodes s node hnode, hnum.nodes root rootNode hroot]
      omega
    rw [List.length_cons] at hfuel
    obtain ⟨fuel, rfl⟩ : ∃ f', fuel = f' + 1 := ⟨fuel - 1, by omega⟩
    rw [upDeliverLoop, hnode]
    simp only [hfather, if_neg hid, hx, sumPerfInfo]
    rw [ih (Function.update_self ..) fuel (by omega), deliver]

/-- One leaf delivers what it asks for. -/
theorem upDeliver_leaf (hl : Linked h.sons h.fatherOf) (hnum : Numbered h)
    (hroot : h.nodes[root]? = some rootNode) (hheight : HeightLe h.sons K root)
    (hpath : Path h.sons root n path) {fuel : ℕ} (hfuel : K ≤ fuel) :
    upDeliverMinPerfToRoot h rootNode fuel P n = some (deliverAll path (P n).toList P) := by
  have hlt := hpath.length_lt hl hheight
  rw [upDeliverMinPerfToRoot]
  cases hx : P n with
  | none => rfl
  | some x => exact upDeliverLoop_eq hl hnum hroot hheight hpath (by omega) hx

/-- What the leaves below `n` do to the nodes: the nodes below `n` are settled, the nodes on the
way up are given what `n` emits, and the other ones are as before. -/
def Delivered (h : Heap F) (least : ℕ → Option ℚ) (K : ℕ) (path : List ℕ)
    (P : ℕ → Option ℚ) (ns : List ℕ) (Q : ℕ → Option ℚ) : Prop :=
  (∀ m, (∀ n ∈ ns, m ∉ subtree h.sons K n) →
    Q m = deliverAll path (ns.flatMap (emits h least K)) P m) ∧
  ∀ n ∈ ns, ∀ m ∈ subtree h.sons K n, Q m = settled h least K m

/-- There is one such result. -/
theorem Delivered.unique {ns : List ℕ} {Q Q' : ℕ → Option ℚ} (hQ : Delivered h least K path P ns Q)
    (hQ' : Delivered h least K path P ns Q') : Q = Q' := by
  funext m
  by_cases hm : ∃ n ∈ ns, m ∈ subtree h.sons K n
  · obtain ⟨n, hn, hmn⟩ := hm
    rw [hQ.2 n hn m hmn, hQ'.2 n hn m hmn]
  · have hm' : ∀ n ∈ ns, m ∉ subtree h.sons K n := fun n hn hmn => hm ⟨n, hn, hmn⟩
    rw [hQ.1 m hm', hQ'.1 m hm']

/-- The leaves of several sons, one son after the other. -/
theorem delivered_sons (hl : Linked h.sons h.fatherOf) (hn : HeightLe h.sons K n) {fuel : ℕ}
    (hpath : ∀ a ∈ n :: path, ∀ s ∈ h.sons n, a ∉ subtree h.sons K s)
    (hson : ∀ s ∈ h.sons n, ∀ P : ℕ → Option ℚ, (∀ m ∈ subtree h.sons K s, P m = least m) →
      ∃ Q, (leaves h.sons K s).foldlM (upDeliverMinPerfToRoot h rootNode fuel) P = some Q ∧
        Delivered h least K (n :: path) P [s] Q)
    (ns : List ℕ) (hns : ∀ s ∈ ns, s ∈ h.sons n) (hnodup : ns.Nodup) (P : ℕ → Option ℚ)
    (hP : ∀ s ∈ ns, ∀ m ∈ subtree h.sons K s, P m = least m) :
    ∃ Q, (ns.flatMap (leaves h.sons K)).foldlM (upDeliverMinPerfToRoot h rootNode fuel) P = some Q ∧
      Delivered h least K (n :: path) P ns Q := by
  induction ns generalizing P with
  | nil => exact ⟨P, rfl, fun _ _ => rfl, fun _ hs => absurd hs List.not_mem_nil⟩
  | cons s ns ih =>
    have hs := hns s List.mem_cons_self
    have hns' : ∀ s' ∈ ns, s' ∈ h.sons n := fun s' h' => hns s' (List.mem_cons_of_mem s h')
    obtain ⟨hsns, hnodup'⟩ := List.nodup_cons.mp hnodup
    have hdisj : ∀ s' ∈ ns, ∀ m ∈ subtree h.sons K s', m ∉ subtree h.sons K s :=
      fun s' hs' m hm => disjoint_subtree hl hn (hns' s' hs') hs
        (ne_of_mem_of_not_mem hs' hsns) hm
    obtain ⟨Q₁, hfold₁, hout₁, hin₁⟩ := hson s hs P (hP s List.mem_cons_self)
    have hout₁' : ∀ m, m ∉ subtree h.sons K s →
        Q₁ m = deliverAll (n :: path) (emits h least K s) P m := by
      intro m hm
      have hm' := hout₁ m (by simpa using hm)
      simpa using hm'
    have hbelow : ∀ s' ∈ h.sons n, ∀ m ∈ subtree h.sons K s', m ∉ n :: path :=
      fun s' hs' m hm ha => hpath m ha s' hs' hm
    obtain ⟨Q, hfold, hout, hin⟩ := ih hns' hnodup' Q₁ fun s' hs' m hm => by
      rw [hout₁' m (hdisj s' hs' m hm), deliverAll_of_not_mem (hbelow s' (hns' s' hs') m hm)]
      exact hP s' (List.mem_cons_of_mem s hs') m hm
    refine ⟨Q, ?_, fun m hm => ?_, fun s' hs' m hm => ?_⟩
    · rw [List.flatMap_cons, List.foldlM_append, hfold₁]
      exact hfold
    · -- on the path and elsewhere, the two deliveries follow each other
      rw [hout m fun s' hs' => hm s' (List.mem_cons_of_mem s hs'), List.flatMap_cons, deliverAll,
        deliverAll, List.foldl_append]
      exact deliverAll_congr (fun a ha => hout₁' a (hpath a ha s hs))
        (hout₁' m (hm s List.mem_cons_self)) _
    · rcases List.mem_cons.mp hs' with rfl | hs'
      · have hother : ∀ s'' ∈ ns, m ∉ subtree h.sons K s'' := fun s'' hs'' hm'' =>
          hdisj s'' hs'' m hm'' hm
        rw [hout m hother, deliverAll_of_not_mem (hbelow s' hs m hm)]
        exact hin₁ s' (List.mem_singleton_self s') m hm
      · exact hin s' hs' m hm

/-- **The leaves below a node settle the nodes below it**, and what the node emits goes up. -/
theorem delivered_leaves (hl : Linked h.sons h.fatherOf) (hnum : Numbered h)
    (hroot : h.nodes[root]? = some rootNode) (hheight : HeightLe h.sons K root)
    (hinner : ∀ n ∈ subtree h.sons K root, h.sons n ≠ [] → least n = none)
    {fuel : ℕ} (hfuel : K ≤ fuel) (hn : HeightLe h.sons K n) :
    n ∈ subtree h.sons K root → ∀ path P, Path h.sons root n path →
      (∀ a ∈ path, a ∉ subtree h.sons K n) → (∀ m ∈ subtree h.sons K n, P m = least m) →
      ∃ Q, (leaves h.sons K n).foldlM (upDeliverMinPerfToRoot h rootNode fuel) P = some Q ∧
        Delivered h least K path P [n] Q := by
  refine HeightLe.rec_sons ?_ hn
  intro n hn ih hmem path P hpath hout hP
  have hself := mem_subtree_self hn
  have hnpath : n ∉ path := fun h => hout n h hself
  by_cases hleaf : h.sons n = []
  · -- a leaf delivers what it asks for
    have hsub : subtree h.sons K n = [n] := by rw [subtree_eq hn, hleaf]; rfl
    have hlist : leaves h.sons K n = [n] := by rw [leaves_eq hn, hleaf]; rfl
    have hemits : emits h least K n = (least n).toList := by rw [emits_eq hn, hleaf]; rfl
    refine ⟨deliverAll path (P n).toList P, ?_, fun m _ => ?_, fun s hs m hm => ?_⟩
    · rw [hlist]
      show (upDeliverMinPerfToRoot h rootNode fuel P n).bind some = _
      rw [upDeliver_leaf hl hnum hroot hheight hpath hfuel]
      rfl
    · simp [hemits, hP n hself]
    · obtain rfl := List.mem_singleton.mp hs
      rw [hsub] at hm
      obtain rfl := List.mem_singleton.mp hm
      rw [deliverAll_of_not_mem hnpath, hP m hself, settled, hleaf]
      rfl
  · have hempty := isEmpty_of_inner hleaf
    have hsubtree : ∀ {s m : ℕ}, s ∈ h.sons n → m ∈ subtree h.sons K s →
        m ∈ subtree h.sons K n := fun hs hm => mem_subtree_of_son hn hs hm
    have hpath' : ∀ a ∈ n :: path, ∀ s ∈ h.sons n, a ∉ subtree h.sons K s := by
      intro a ha s hs hmem'
      rcases List.mem_cons.mp ha with rfl | ha
      · exact not_mem_subtree_son hl hn hs hmem'
      · exact hout a ha (hsubtree hs hmem')
    obtain ⟨Q, hfold, hup, hdown⟩ := delivered_sons hl hn hpath'
      (fun s hs P' hP' => ih s hs (son_mem_subtree hheight n hmem s hs) (n :: path) P'
        (.son hs hpath) (fun a ha => hpath' a ha s hs) hP')
      (h.sons n) (fun s hs => hs) (hl.nodup n) P fun s hs m hm => hP m (hsubtree hs hm)
    have hnone : P n = none := (hP n hself).trans (hinner n hmem hleaf)
    obtain ⟨hother, hthis⟩ := deliverAll_cons hnpath ((h.sons n).flatMap (emits h least K)) P
    rw [hnone, Option.getD_none] at hother hthis
    refine ⟨Q, ?_, fun m hm => ?_, fun s hs m hm => ?_⟩
    · rw [leaves_eq hn, hempty]
      exact hfold
    · have hm' := hm n (List.mem_singleton_self n)
      have hne : m ≠ n := fun h => hm' (h ▸ hself)
      rw [hup m fun s hs hms => hm' (hsubtree hs hms), hother m hne]
      simp [emits_eq hn, hempty]
    · obtain rfl := List.mem_singleton.mp hs
      rw [subtree_eq hn] at hm
      rcases List.mem_cons.mp hm with rfl | hm
      · rw [hup m fun s hs => not_mem_subtree_son hl hn hs, hthis, settled, hempty, zero_add]
        rfl
      · obtain ⟨s', hs', hms⟩ := List.mem_flatMap.mp hm
        exact hdown s' hs' m hms

/-- **What `checkMakeTree` computes**: every node of the tree is settled, and the root's value
is compared with the capacity. -/
theorem checkMakeTree_eq (hl : Linked h.sons h.fatherOf) (hnum : Numbered h)
    (hroot : h.nodes[root]? = some rootNode) (hheight : HeightLe h.sons K root)
    (hinner : ∀ n ∈ subtree h.sons K root, h.sons n ≠ [] → least n = none) (actual : ℚ) :
    ∃ r : MakeTree, (∀ fuel, K ≤ fuel → checkMakeTree h fuel least (some actual) root = some r) ∧
      (∀ n ∈ subtree h.sons K root, r.minPerf n = settled h least K n) ∧
      (r.out = [exceedsText] ↔ ∃ x, settled h least K root = some x ∧ actual < x) := by
  have hself := mem_subtree_self hheight
  have hall : ∀ fuel, K ≤ fuel → ∃ Q, (leaves h.sons K root).foldlM
      (upDeliverMinPerfToRoot h rootNode fuel) least = some Q ∧
      Delivered h least K [] least [root] Q := fun fuel hfuel =>
    delivered_leaves hl hnum hroot hheight hinner hfuel hheight hself [] least .root
      (fun _ ha => absurd ha List.not_mem_nil) fun _ _ => rfl
  obtain ⟨Q, -, hQ⟩ := hall K le_rfl
  have hsettled : ∀ n ∈ subtree h.sons K root, Q n = settled h least K n :=
    hQ.2 root (List.mem_singleton_self root)
  obtain ⟨meet, hmeet, hiff⟩ : ∃ meet, checkPerfInfoMeet (some actual) (Q root) = some meet ∧
      (meet = false ↔ ∃ x, settled h least K root = some x ∧ actual < x) := by
    rw [hsettled root hself]
    cases settled h least K root with
    | none => exact ⟨true, rfl, by simp⟩
    | some x => exact ⟨decide (x ≤ actual), rfl, by simp⟩
  refine ⟨⟨Q, if meet then [] else [exceedsText], (leaves h.sons K root).any fun node =>
    (h.nodes[node]?.map TreeNode.strategy) == some .pFabric⟩, fun fuel hfuel => ?_, hsettled, ?_⟩
  · obtain ⟨Q', hfold, hQ'⟩ := hall fuel hfuel
    obtain rfl : Q' = Q := hQ'.unique hQ
    have hleaves := collectLeafNode_eq hl hroot (hheight.mono hfuel) []
    rw [List.nil_append, leaves, collect_stable _ hheight hfuel, ← leaves] at hleaves
    simp only [checkMakeTree, hroot, hleaves, Option.bind_eq_bind, Option.bind_some, hfold, hmeet]
    rfl
  · rw [← hiff]
    cases meet <;> simp

/-! ## How often a leaf is counted -/

theorem demands_succ (h : Heap F) (least : ℕ → Option ℚ) (k n : ℕ) :
    demands h least (k + 1) n = if (h.sons n).isEmpty then (least n).toList
      else (h.sons n).flatMap (demands h least k) := by
  rw [demands, leaves, collect, ← leaves]
  split
  · cases hleast : least n <;> simp [hleast]
  · rw [List.filterMap_flatMap]
    rfl

theorem length_emits (hn : HeightLe h.sons k n) :
    (emits h least k n).length = (demands h least k n).length := by
  induction k generalizing n with
  | zero => exact hn.elim
  | succ k ih =>
    rw [demands_succ, emits, collect, ← emits]
    split
    · rfl
    · rw [length_runningSums, List.length_flatMap, List.length_flatMap]
      exact congrArg List.sum (List.map_congr_left fun s hs => ih (hn s hs))

/-- Deal a list out to the sons, each getting as many entries as it has leaves that ask. -/
def dealt (f : ℕ → List ℕ → List ℕ) (len : ℕ → ℕ) : List ℕ → List ℕ → List ℕ
  | [], _ => []
  | s :: ns, cs => f s (cs.take (len s)) ++ dealt f len ns (cs.drop (len s))

/-- How often each leaf below `n` is counted when the values that `n` delivers are counted
`cs` times: what is delivered for one leaf contains everything up to this leaf. -/
def shares (h : Heap F) (least : ℕ → Option ℚ) : ℕ → ℕ → List ℕ → List ℕ
  | 0, _, _ => []
  | k + 1, n, cs =>
    if (h.sons n).isEmpty then cs
    else dealt (shares h least k) (fun s => (demands h least k s).length) (h.sons n) (suffixSums cs)

/-- How often each leaf below `n` that asks for bandwidth is counted in the value `n` is left
with, which is the last one it delivers. -/
def timesCounted (h : Heap F) (least : ℕ → Option ℚ) (K n : ℕ) : List ℕ :=
  shares h least K n (List.replicate ((demands h least K n).length - 1) 0 ++ [1])

theorem dot_shares (hn : HeightLe h.sons k n) (cs : List ℕ)
    (hcs : cs.length = (demands h least k n).length) :
    dot cs (emits h least k n) = dot (shares h least k n cs) (demands h least k n) ∧
      (shares h least k n cs).length = cs.length := by
  induction k generalizing n cs with
  | zero => exact hn.elim
  | succ k ih =>
    -- the sons of the node, one after the other
    have hdealt : ∀ (ns : List ℕ) (cs : List ℕ), (∀ s ∈ ns, s ∈ h.sons n) →
        cs.length = (ns.flatMap (demands h least k)).length →
        dot cs (ns.flatMap (emits h least k)) =
            dot (dealt (shares h least k) (fun s => (demands h least k s).length) ns cs)
              (ns.flatMap (demands h least k)) ∧
          (dealt (shares h least k) (fun s => (demands h least k s).length) ns cs).length =
            cs.length := by
      intro ns
      induction ns with
      | nil =>
        intro cs _ hlen
        obtain rfl : cs = [] := List.length_eq_zero_iff.mp (by simpa using hlen)
        exact ⟨rfl, rfl⟩
      | cons s ns ih' =>
        intro cs hns hlen
        have hs := hn s (hns s List.mem_cons_self)
        rw [List.flatMap_cons, List.length_append] at hlen
        have htake : (cs.take (demands h least k s).length).length =
            (demands h least k s).length := by
          rw [List.length_take]
          omega
        obtain ⟨hdot, hlength⟩ := ih hs _ htake
        obtain ⟨hdot', hlength'⟩ := ih' (cs.drop (demands h least k s).length)
          (fun s' hs' => hns s' (List.mem_cons_of_mem s hs')) (by
            rw [List.length_drop]
            omega)
        refine ⟨?_, ?_⟩
        · conv_lhs => rw [← List.take_append_drop (demands h least k s).length cs]
          rw [List.flatMap_cons, List.flatMap_cons, dealt,
            dot_append (by rw [htake, length_emits hs]), dot_append (by rw [hlength, htake]),
            hdot, hdot']
        · rw [dealt, List.length_append, hlength, hlength', ← List.length_append,
            List.take_append_drop]
    rw [demands_succ] at hcs ⊢
    rw [emits, collect, ← emits, shares]
    split
    · exact ⟨rfl, rfl⟩
    · next hleaf =>
      rw [if_neg hleaf] at hcs
      obtain ⟨hdot, hlength⟩ := hdealt (h.sons n) (suffixSums cs) (fun s hs => hs)
        (by rw [length_suffixSums, hcs])
      refine ⟨?_, by rw [hlength, length_suffixSums]⟩
      rw [dot_runningSums 0 ?_, mul_zero, zero_add, hdot]
      rw [hcs, List.length_flatMap, List.length_flatMap]
      exact congrArg List.sum (List.map_congr_left fun s hs => (length_emits (hn s hs)).symm)

/-! ## What a node is left with -/

/-- The values the sons of a node deliver to it. -/
theorem length_below (hn : HeightLe h.sons K n) (hleaf : h.sons n ≠ []) :
    ((h.sons n).flatMap (emits h least K)).length = (demands h least K n).length := by
  rw [demands_inner hn hleaf, List.length_flatMap, List.length_flatMap]
  exact congrArg List.sum (List.map_congr_left fun s hs => length_emits (hn.son hs))

/-- An inner node is left with the bandwidths below it, each as often as it is counted. -/
theorem sum_below (hn : HeightLe h.sons K n) (hleaf : h.sons n ≠ []) :
    ((h.sons n).flatMap (emits h least K)).sum =
      dot (timesCounted h least K n) (demands h least K n) := by
  have hlen : ((h.sons n).flatMap (emits h least K)).length = (demands h least K n).length :=
    length_below hn hleaf
  have hemits : emits h least K n = runningSums 0 ((h.sons n).flatMap (emits h least K)) :=
    emits_inner hn hleaf
  by_cases hnil : (h.sons n).flatMap (emits h least K) = []
  · rw [hnil, List.length_nil] at hlen
    rw [hnil, List.length_eq_zero_iff.mp hlen.symm]
    cases timesCounted h least K n <;> rfl
  · have hpos := List.length_pos_iff.mpr hnil
    rw [← dot_last_runningSums hnil, ← hemits, hlen]
    exact (dot_shares hn _ (by simp; omega)).1

/-- A leaf delivers what it asks for. -/
theorem emits_leaf (hn : HeightLe h.sons K n) (hleaf : h.sons n = []) :
    emits h least K n = demands h least K n := by
  rw [emits_eq hn, demands_eq hn, hleaf]
  rfl

/-- Without negative bandwidths nothing is delivered short. -/
theorem demands_le_emits (hn : HeightLe h.sons K n) :
    (∀ w ∈ demands h least K n, 0 ≤ w) →
      List.Forall₂ (· ≤ ·) (demands h least K n) (emits h least K n) := by
  refine HeightLe.rec_sons ?_ hn
  intro n hn ih hpos
  by_cases hleaf : h.sons n = []
  · rw [emits_leaf hn hleaf]
    exact List.forall₂_refl _
  · rw [demands_inner hn hleaf] at hpos ⊢
    rw [emits_inner hn hleaf]
    refine le_runningSums (forall₂_flatMap fun s hs => ih s hs fun w hw => ?_) hpos le_rfl
    exact hpos w (List.mem_flatMap.mpr ⟨s, hs, hw⟩)

/-- Below every inner node other than the root only the last leaf that asks for bandwidth asks
for more than nothing. -/
def LastOnly (h : Heap F) (least : ℕ → Option ℚ) (K root : ℕ) : Prop :=
  ∀ n ∈ subtree h.sons K root, n ≠ root → h.sons n ≠ [] →
    ∀ w ∈ (demands h least K n).dropLast, w = 0

/-- Then every node below the root delivers what its leaves ask for. -/
theorem emits_eq_demands (hl : Linked h.sons h.fatherOf) (hheight : HeightLe h.sons K root)
    (hlast : LastOnly h least K root) (hn : HeightLe h.sons K n) :
    n ∈ subtree h.sons K root → n ≠ root → emits h least K n = demands h least K n := by
  refine HeightLe.rec_sons ?_ hn
  intro n hn ih hmem hne
  by_cases hleaf : h.sons n = []
  · exact emits_leaf hn hleaf
  · have hsons : (h.sons n).flatMap (emits h least K) = demands h least K n := by
      rw [demands_inner hn hleaf]
      refine List.flatMap_congr fun s hs => ih s hs (son_mem_subtree hheight n hmem s hs) ?_
      exact fun hs' => root_not_mem_sons hl hheight hmem (hs' ▸ hs)
    rw [emits_inner hn hleaf, hsons]
    exact runningSums_eq_self (hlast n hmem hne hleaf)

/-- **With no negative bandwidth, the sums are right if and only if each inner node below the
root has its demand in one place.** -/
theorem sums_iff_lastOnly (hl : Linked h.sons h.fatherOf) (hheight : HeightLe h.sons K root)
    (hpos : ∀ w ∈ demands h least K root, 0 ≤ w) :
    (∀ n ∈ subtree h.sons K root, h.sons n ≠ [] →
      ((h.sons n).flatMap (emits h least K)).sum = (demands h least K n).sum) ↔
    LastOnly h least K root := by
  constructor
  · intro hsums s hmem hne hinner
    obtain ⟨n, hn, hs⟩ := exists_father_mem_subtree hheight s hmem hne
    have hnleaf : h.sons n ≠ [] := List.ne_nil_of_mem hs
    have hheight' := heightLe_of_mem_subtree hheight
    have hposn : ∀ m ∈ subtree h.sons K root, ∀ w ∈ demands h least K m, 0 ≤ w := by
      intro m hm w hw
      obtain ⟨l, hlm, hlw⟩ := List.mem_filterMap.mp hw
      exact hpos w (List.mem_filterMap.mpr ⟨l, leaves_subset hheight m hm hlm, hlw⟩)
    -- the father gets no more than is asked for, so it gets no more from this son
    have hle : ∀ s' ∈ h.sons n, (demands h least K s').sum ≤ (emits h least K s').sum :=
      fun s' hs' => (demands_le_emits ((hheight' n hn).son hs')
        (hposn s' (son_mem_subtree hheight n hn s' hs'))).sum_le_sum
    have hson : (emits h least K s).sum = (demands h least K s).sum := by
      by_contra hne'
      have hsum := hsums n hn hnleaf
      rw [demands_inner (hheight' n hn) hnleaf, sum_flatMap, sum_flatMap] at hsum
      exact (List.sum_lt_sum _ _ hle ⟨s, hs, lt_of_le_of_ne (hle s hs) (Ne.symm hne')⟩).ne hsum.symm
    have hbelow : List.Forall₂ (· ≤ ·) (demands h least K s)
        ((h.sons s).flatMap (emits h least K)) := by
      rw [demands_inner (hheight' s hmem) hinner]
      refine forall₂_flatMap fun s' hs' => demands_le_emits ((hheight' s hmem).son hs') ?_
      exact hposn s' (son_mem_subtree hheight s hmem s' hs')
    rw [emits_inner (hheight' s hmem) hinner] at hson
    refine dropLast_eq_zero_of_le hbelow (hposn s hmem)
      (eq_zero_of_sum_runningSums (nonneg_of_le hbelow (hposn s hmem)) (le_antisymm ?_ ?_))
    · exact hson.le.trans hbelow.sum_le_sum
    · exact sum_le_sum_runningSums (nonneg_of_le hbelow (hposn s hmem))
  · intro hlast n hn hinner
    have hheight' := heightLe_of_mem_subtree hheight n hn
    rw [demands_inner hheight' hinner]
    refine congrArg List.sum (List.flatMap_congr fun s hs => ?_)
    exact emits_eq_demands hl hheight hlast (hheight'.son hs) (son_mem_subtree hheight n hn s hs)
      fun hs' => root_not_mem_sons hl hheight hn (hs' ▸ hs)

/-! ## When the sums and the error are right -/

/-- The check is right: every inner node is left with the sum of what is asked for below it,
and the error is printed if and only if the root's capacity is exceeded. -/
structure Admitted (h : Heap F) (least : ℕ → Option ℚ) (actual : ℚ) (K root : ℕ)
    (r : MakeTree) : Prop where
  sums : ∀ n ∈ subtree h.sons K root, h.sons n ≠ [] → demands h least K n ≠ [] →
    r.minPerf n = some (demands h least K n).sum
  error : r.out = [exceedsText] ↔ actual < (demands h least K root).sum

/-- Every leaf is counted as if it were counted once. -/
def CountedOnce (h : Heap F) (least : ℕ → Option ℚ) (K root : ℕ) : Prop :=
  ∀ n ∈ subtree h.sons K root, h.sons n ≠ [] →
    dot (timesCounted h least K n) (demands h least K n) = (demands h least K n).sum

theorem below_eq_nil_iff (hn : HeightLe h.sons K n) (hinner : h.sons n ≠ []) :
    (h.sons n).flatMap (emits h least K) = [] ↔ demands h least K n = [] := by
  rw [← List.length_eq_zero_iff, length_below hn hinner, List.length_eq_zero_iff]

theorem settled_of_demands (hn : HeightLe h.sons K n) (hinner : h.sons n ≠ [])
    (hdemands : demands h least K n ≠ []) :
    settled h least K n = some (dot (timesCounted h least K n) (demands h least K n)) := by
  rw [settled, isEmpty_of_inner hinner, if_neg (by simp),
    if_neg fun hnil => hdemands ((below_eq_nil_iff hn hinner).mp hnil), sum_below hn hinner]

theorem settled_of_no_demands (hn : HeightLe h.sons K n) (hdemands : demands h least K n = []) :
    settled h least K n = none := by
  by_cases hleaf : h.sons n = []
  · rw [demands_eq hn, hleaf] at hdemands
    rw [settled, hleaf]
    exact Option.toList_eq_nil_iff.mp hdemands
  · rw [settled, isEmpty_of_inner hleaf, if_neg (by simp),
      if_pos ((below_eq_nil_iff hn hleaf).mpr hdemands)]

theorem admitted_iff (hheight : HeightLe h.sons K root) {actual : ℚ} {r : MakeTree}
    (hsettled : ∀ n ∈ subtree h.sons K root, r.minPerf n = settled h least K n)
    (hout : r.out = [exceedsText] ↔ ∃ x, settled h least K root = some x ∧ actual < x) :
    Admitted h least actual K root r ↔
      CountedOnce h least K root ∧ (demands h least K root ≠ [] ∨ 0 ≤ actual) := by
  have hheight' := heightLe_of_mem_subtree hheight
  have hsums : (∀ n ∈ subtree h.sons K root, h.sons n ≠ [] → demands h least K n ≠ [] →
      r.minPerf n = some (demands h least K n).sum) ↔ CountedOnce h least K root := by
    refine forall₃_congr fun n hn hinner => ?_
    by_cases hdemands : demands h least K n = []
    · simp only [hdemands, ne_eq, not_true_eq_false, false_implies, List.sum_nil, true_iff]
      cases timesCounted h least K n <;> rfl
    · rw [hsettled n hn, settled_of_demands (hheight' n hn) hinner hdemands]
      simp [hdemands]
  have herror : CountedOnce h least K root → ((r.out = [exceedsText] ↔
      actual < (demands h least K root).sum) ↔ (demands h least K root ≠ [] ∨ 0 ≤ actual)) := by
    intro hcounted
    rw [hout]
    by_cases hdemands : demands h least K root = []
    · simp [settled_of_no_demands hheight hdemands, hdemands]
    · have hvalue : settled h least K root = some (demands h least K root).sum := by
        by_cases hleaf : h.sons root = []
        · have hlist : demands h least K root = (least root).toList := by
            rw [demands_eq hheight, hleaf]
            rfl
          rw [settled, hleaf, hlist]
          cases hx : least root with
          | none => exact absurd (by rw [hlist, hx]; rfl) hdemands
          | some x => simp
        · rw [settled_of_demands hheight hleaf hdemands,
            hcounted root (mem_subtree_self hheight) hleaf]
      simp [hvalue, hdemands]
  constructor
  · intro hadm
    have hcounted := hsums.mp hadm.sums
    exact ⟨hcounted, (herror hcounted).mp hadm.error⟩
  · rintro ⟨hcounted, hcap⟩
    exact ⟨hsums.mpr hcounted, (herror hcounted).mpr hcap⟩

end Deliver

/-- **When the bandwidth check is right.**  Let a program attach no node twice, and let the
nodes below `root` be a tree in which only leaves ask for bandwidth.  Then `checkMakeTree`
returns, and what it leaves and prints is right if and only if every inner node counts the
bandwidths below it to the same sum as if each was counted once, and some leaf asks for
bandwidth or the capacity is not negative.  If no bandwidth is negative, the first condition
says that below every inner node other than the root only the last leaf that asks for
bandwidth asks for more than nothing. -/
theorem checkMakeTree_right_iff {calls : List (Call F)} {h : Heap F}
    (hbuild : build D calls = some h) (honce : AttachedOnce calls) (least : ℕ → Option ℚ)
    (actual : ℚ) {root K : ℕ} (hroot : root < h.nodes.length)
    (hheight : HeightLe h.sons K root)
    (hinner : ∀ n ∈ subtree h.sons K root, h.sons n ≠ [] → least n = none) :
    ∃ r : MakeTree, (∀ fuel, K ≤ fuel → checkMakeTree h fuel least (some actual) root = some r) ∧
      (Admitted h least actual K root r ↔
        CountedOnce h least K root ∧ (demands h least K root ≠ [] ∨ 0 ≤ actual)) ∧
      ((∀ w ∈ demands h least K root, 0 ≤ w) →
        (CountedOnce h least K root ↔ LastOnly h least K root)) := by
  have hl := linked_of_build hbuild honce
  obtain ⟨r, hrun, hsettled, hout⟩ := checkMakeTree_eq hl (build_numbered hbuild)
    (List.getElem?_eq_getElem hroot) hheight hinner actual
  refine ⟨r, hrun, admitted_iff hheight hsettled hout, fun hpos => ?_⟩
  rw [← sums_iff_lastOnly hl hheight hpos]
  refine forall₃_congr fun n hn hleaf => ?_
  rw [sum_below (heightLe_of_mem_subtree hheight n hn) hleaf]

end Tree

/-! ## Two leaves -/

/-- The leaves 2 and 3 ask for a bandwidth of one each. -/
def twoAsk (n : ℕ) : Option ℚ := if n = 2 ∨ n = 3 then some 1 else none

/-- A root with a son that is never used and two leaves. -/
def flatProgram : List (Call ℚ) :=
  [.createTreeRoot .unknown, .createTreeNode .unknown, .createTreeNode .unknown,
    .createTreeNode .unknown, .attachNode 1 (some 0) .none, .attachNode 2 (some 0) .none,
    .attachNode 3 (some 0) .none]

/-- With two levels the check is right. -/
theorem checkMakeTree_right_iff_flat :
    ∃ h, build Doubles.rat flatProgram = some h ∧
      ∃ r, checkMakeTree h 2 twoAsk (some 2) 0 = some r ∧ Admitted h twoAsk 2 2 0 r := by
  obtain ⟨h, hbuild, hroot, hheight, hinner, hpos, hlast, hsome⟩ :
      ∃ h, build Doubles.rat flatProgram = some h ∧ 0 < h.nodes.length ∧
        HeightLe h.sons 2 0 ∧
        (∀ n ∈ subtree h.sons 2 0, h.sons n ≠ [] → twoAsk n = none) ∧
        (∀ w ∈ demands h twoAsk 2 0, 0 ≤ w) ∧
        (∀ n ∈ subtree h.sons 2 0, n ≠ 0 → h.sons n ≠ [] →
          ∀ w ∈ (demands h twoAsk 2 n).dropLast, w = 0) ∧ demands h twoAsk 2 0 ≠ [] :=
    ⟨_, rfl, by decide, by decide, by decide, by decide, by decide, by decide⟩
  obtain ⟨r, hrun, hright, hcounted⟩ := checkMakeTree_right_iff hbuild (by decide) twoAsk 2 hroot
    hheight hinner
  exact ⟨h, hbuild, r, hrun 2 le_rfl, hright.mpr ⟨(hcounted hpos).mpr hlast, .inl hsome⟩⟩

/-- A root with one inner node and the two leaves below it. -/
def chainProgram : List (Call ℚ) :=
  [.createTreeRoot .unknown, .createTreeNode .unknown, .createTreeNode .unknown,
    .createTreeNode .unknown, .attachNode 1 (some 0) .none, .attachNode 2 (some 1) .none,
    .attachNode 3 (some 1) .none]

/-- **A tree that is refused.**  The leaves of the three-level tree ask for two in all and the
root has two, but the root is left with three and the error is printed. -/
theorem two_leaves_counted_thrice :
    AttachedOnce chainProgram ∧ ∃ h, build Doubles.rat chainProgram = some h ∧
      HeightLe h.sons 3 0 ∧ (demands h twoAsk 3 0).sum = 2 ∧
      ∃ r, checkMakeTree h 3 twoAsk (some 2) 0 = some r ∧ r.minPerf 0 = some 3 ∧
        r.out = [exceedsText] ∧ ¬Admitted h twoAsk 2 3 0 r := by
  refine ⟨by decide, _, rfl, by decide, by decide +kernel, _, rfl, by decide +kernel,
    by decide +kernel, fun hadm => ?_⟩
  have hsum := hadm.sums 0 (by decide) (by decide) (by decide)
  exact absurd hsum (by decide +kernel)

end VPifo.Sdl
