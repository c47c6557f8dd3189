import VPifo.Compiler.WFQ
import VPifo.Lib.Runs

/-!
# `PIFOTree.cpp`: building a scheduling tree

A program of the scheduling description language is a sequence of calls: it creates
nodes, attaches them to each other and attaches flows to nodes.  The calls work on a heap
of nodes and strategy objects and on two static variables, the counter of node numbers
and the map from flows to nodes.

Pointers are positions: a node is the position at which it was created, an object of a
strategy is a number that names it, and the null pointer is `none`.  The three overloads
of `attachNode` and of `attachFlow` differ in what they take besides the node, nothing, an
`int` or a `double` (`Arg`), and in which strategies of the father accept it
(`setEntry`); `none` as a result is a failing `assert(0)`.

`build_numbered` is what later results use: the number of a node is ten times its position.
-/

namespace VPifo.Sdl

/-- A scheduling strategy, with the object that its union points to. -/
inductive SchedStrategy
  | unknown
  | pFabric
  | sp (table : ℕ)
  | wfq (object : ℕ)
  deriving DecidableEq

/-- `TreeNode_`. -/
structure TreeNode where
  nodeId : ℤ
  strategy : SchedStrategy
  father : Option ℕ
  children : List ℕ

/-- What the calls of a program work on. -/
structure Heap (F : Type) where
  nodeId : ℤ
  nodes : List TreeNode
  flowNodeMap : String → Option ℕ
  priorityTable : ℕ → String → Option ℤ
  wfq : ℕ → StrategyWFQ F

/-- The last argument of an overload of `attachNode` or `attachFlow`. -/
inductive Arg (F : Type)
  | none
  | priority (priority : ℤ)
  | weight (weight : F)

/-- A call of the program. -/
inductive Call (F : Type)
  | createTreeNode (strategy : SchedStrategy)
  | createTreeRoot (strategy : SchedStrategy)
  | attachNode (node : ℕ) (father : Option ℕ) (arg : Arg F)
  | attachFlow (flowId : String) (father : Option ℕ) (arg : Arg F)

section Build

variable {F : Type} (D : Doubles F)

/-- Before the first call. -/
def Heap.init : Heap F where
  nodeId := 0
  nodes := []
  flowNodeMap _ := none
  priorityTable _ _ := none
  wfq _ := StrategyWFQ.new D

/-- `createTreeNode`: the new node is the last of the heap, and the counter moves on by
ten. -/
def createTreeNode (strategy : SchedStrategy) (h : Heap F) : Heap F :=
  { h with
    nodes := h.nodes ++ [⟨h.nodeId, strategy, none, []⟩]
    nodeId := h.nodeId + 10 }

/-- `createTreeRoot`, which differs in the performance record of the node only. -/
def createTreeRoot (strategy : SchedStrategy) (h : Heap F) : Heap F :=
  createTreeNode strategy h

/-- The `switch` of the six overloads: a strategy without weights or priorities accepts
no argument, strict priority accepts an `int` and files it under the key, fair queueing a
`double`. -/
def setEntry (strategy : SchedStrategy) (key : String) (arg : Arg F) (h : Heap F) :
    Option (Heap F) :=
  match strategy, arg with
  | .unknown, .none => some h
  | .pFabric, .none => some h
  | .sp table, .priority priority =>
      some { h with
        priorityTable := Function.update h.priorityTable table
          (Function.update (h.priorityTable table) key (some priority)) }
  | .wfq object, .weight weight =>
      some { h with
        wfq := Function.update h.wfq object
          { h.wfq object with
            weightTable := Function.update (h.wfq object).weightTable key (some weight) } }
  | _, _ => none

/-- `attachFlow`. -/
def attachFlow (flowId : String) (father : Option ℕ) (arg : Arg F) (h : Heap F) :
    Option (Heap F) :=
  match father with
  | none => some h
  | some f =>
    match h.nodes[f]? with
    | none => none
    | some fatherNode =>
      setEntry fatherNode.strategy flowId arg
        { h with flowNodeMap := Function.update h.flowNodeMap flowId (some f) }

/-- `attachNode`. -/
def attachNode (node : ℕ) (father : Option ℕ) (arg : Arg F) (h : Heap F) : Option (Heap F) :=
  match father with
  | none => some h
  | some f =>
    match h.nodes[f]?, h.nodes[node]? with
    | some fatherNode, some child =>
      let nodes := h.nodes.modify node fun n => { n with father := some f }
      setEntry fatherNode.strategy (toString child.nodeId) arg
        { h with nodes := nodes.modify f fun n => { n with children := n.children ++ [node] } }
    | _, _ => none

/-- One call. -/
def runCall : Call F → Heap F → Option (Heap F)
  | .createTreeNode strategy, h => some (createTreeNode strategy h)
  | .createTreeRoot strategy, h => some (createTreeRoot strategy h)
  | .attachNode node father arg, h => attachNode node father arg h
  | .attachFlow flowId father arg, h => attachFlow flowId father arg h

/-- A program from the start; `none` if an assertion fails or a pointer is none of the
nodes. -/
def build (calls : List (Call F)) : Option (Heap F) :=
  calls.foldlM (fun h call => runCall call h) (Heap.init D)

/-! ## The numbers of the nodes -/

/-- The number of every node is ten times its position, and the counter is ten times the
number of nodes. -/
structure Numbered (h : Heap F) : Prop where
  counter : h.nodeId = 10 * h.nodes.length
  nodes : ∀ (i : ℕ) (node : TreeNode), h.nodes[i]? = some node → node.nodeId = 10 * (i : ℤ)

variable {D}

/-- The switch leaves the nodes, the counter and the map of flows alone. -/
theorem setEntry_frame {strategy : SchedStrategy} {key : String} {arg : Arg F} {h h' : Heap F}
    (hset : setEntry strategy key arg h = some h') :
    h'.nodeId = h.nodeId ∧ h'.nodes = h.nodes ∧ h'.flowNodeMap = h.flowNodeMap := by
  cases strategy <;> cases arg <;> simp only [setEntry, Option.some.injEq, reduceCtorEq] at hset
  all_goals
    subst hset
    exact ⟨rfl, rfl, rfl⟩

theorem Numbered.of_setEntry {strategy : SchedStrategy} {key : String} {arg : Arg F}
    {h h' : Heap F} (hh : Numbered h) (hset : setEntry strategy key arg h = some h') :
    Numbered h' := by
  obtain ⟨hid, hnodes, -⟩ := setEntry_frame hset
  exact ⟨by rw [hid, hnodes, hh.counter], by rw [hnodes]; exact hh.nodes⟩

theorem Numbered.of_flowNodeMap {h : Heap F} (hh : Numbered h) (m : String → Option ℕ) :
    Numbered { h with flowNodeMap := m } := ⟨hh.counter, hh.nodes⟩

/-- A change of a node that keeps its number keeps the numbering. -/
theorem Numbered.of_modify {h : Heap F} (hh : Numbered h) (i : ℕ) {f : TreeNode → TreeNode}
    (hf : ∀ node, (f node).nodeId = node.nodeId) :
    Numbered { h with nodes := h.nodes.modify i f } := by
  refine ⟨by simp [hh.counter], ?_⟩
  intro j node hj
  rw [List.getElem?_modify] at hj
  obtain ⟨node₀, hnode₀, rfl⟩ := Option.map_eq_some_iff.1 hj
  split_ifs
  · rw [hf]
    exact hh.nodes j node₀ hnode₀
  · exact hh.nodes j node₀ hnode₀

theorem Numbered.of_createTreeNode {h : Heap F} (hh : Numbered h) (strategy : SchedStrategy) :
    Numbered (createTreeNode strategy h) := by
  constructor
  · simp only [createTreeNode, List.length_append, List.length_singleton, hh.counter]
    push_cast
    ring
  · intro i node hi
    simp only [createTreeNode] at hi
    rcases Nat.lt_or_ge i h.nodes.length with hlt | hge
    · rw [List.getElem?_append_left hlt] at hi
      exact hh.nodes i node hi
    · rw [List.getElem?_append_right hge] at hi
      obtain ⟨hidx, hnode⟩ := List.getElem?_eq_some_iff.1 hi
      have hi' : i = h.nodes.length := by
        simp only [List.length_singleton] at hidx
        omega
      subst hi'
      rw [← hnode]
      simpa using hh.counter

/-- One call keeps the numbering. -/
theorem Numbered.of_run {h h' : Heap F} (hh : Numbered h) {call : Call F}
    (hrun : runCall call h = some h') : Numbered h' := by
  cases call with
  | createTreeNode strategy =>
    obtain rfl := Option.some.inj hrun
    exact hh.of_createTreeNode strategy
  | createTreeRoot strategy =>
    obtain rfl := Option.some.inj hrun
    exact hh.of_createTreeNode strategy
  | attachFlow flowId father arg =>
    cases father with
    | none =>
      obtain rfl := Option.some.inj hrun
      exact hh
    | some f =>
      simp only [runCall, attachFlow] at hrun
      split at hrun
      · exact absurd hrun (by simp)
      · exact (hh.of_flowNodeMap _).of_setEntry hrun
  | attachNode node father arg =>
    cases father with
    | none =>
      obtain rfl := Option.some.inj hrun
      exact hh
    | some f =>
      simp only [runCall, attachNode] at hrun
      split at hrun
      · have hchild := hh.of_modify node (f := fun n => { n with father := some f }) fun _ => rfl
        have hboth := hchild.of_modify f
          (f := fun n => { n with children := n.children ++ [node] }) fun _ => rfl
        exact hboth.of_setEntry hrun
      · exact absurd hrun (by simp)

/-- **The numbers a program hands out.**  After every program that fails no assertion, the
number of a node is ten times its position in the order of creation. -/
theorem build_numbered {calls : List (Call F)} {h : Heap F} (hbuild : build D calls = some h) :
    Numbered h := by
  have hinit : Numbered (Heap.init D) := ⟨rfl, by simp [Heap.init]⟩
  exact Runs.foldlM_keeps (fun call _ _ _ hh hcall => hh.of_run hcall) hinit hbuild

end Build

end VPifo.Sdl
