import VPifo.Lib.HeapTree
import Mathlib.Data.Prod.Lex
import Mathlib.Data.Set.Disjoint
import Mathlib.Order.CompletePartialOrder
import Mathlib.Order.Lattice.Nat
import Mathlib.Algebra.BigOperators.Fin
import Mathlib.Tactic.FinCases
import Mathlib.Tactic.Ring

/-!
# The reference tree

`vPIFO_trace.cpp` computes the reference files with a tree of its own: nodes of two slots
in a pool that all trees share.  A slot whose `first` is `inf` is empty; its `second` is
whatever the last pop left there.  `num` counts the elements below a slot, as far as it
is right, and `son` is the index of the node below, allocated when it is first needed.
Nodes are never freed.

The functions of the source recurse from a node to a son.  `push` and `pop` carry a bound
on the depth of that recursion and answer `none` when it does not suffice; the number of
nodes allocated so far always does (`push_spec`, `pop_spec`).

The pool is read as one `HeapTree` for each tree.  What the proofs need beside the tree
is where its nodes are: `Shape` is a tree of node indices, and `Rep` says that the pool
has the nodes of a shape linked as the shape says, each of them once.  A function that
stays inside the nodes of a shape then leaves every tree with other nodes alone.
-/

namespace VPifo

namespace Reference

open HeapTree

/-! ## The code -/

/-- `inf`. -/
def inf : ℤ := 1000000007

/-- `pair<int, int>`. -/
@[ext] structure Pair where
  first : ℤ
  second : ℤ
  deriving DecidableEq

namespace Pair

theorem toLex_injective :
    Function.Injective fun x : Pair => (toLex (x.first, x.second) : ℤ ×ₗ ℤ) := by
  intro x y h
  have hxy : (x.first, x.second) = (y.first, y.second) := toLex.injective h
  rw [Prod.mk.injEq] at hxy
  exact Pair.ext hxy.1 hxy.2

/-- Pairs are compared lexicographically. -/
instance : LinearOrder Pair := LinearOrder.lift' _ toLex_injective

theorem le_iff {x y : Pair} :
    x ≤ y ↔ x.first < y.first ∨ x.first = y.first ∧ x.second ≤ y.second :=
  Prod.Lex.toLex_le_toLex

/-- An empty slot. -/
def IsEmpty (x : Pair) : Prop := x.first = inf

instance (x : Pair) : Decidable x.IsEmpty := inferInstanceAs (Decidable (x.first = inf))

end Pair

/-- `struct Tree`. -/
structure TreeNode where
  min : Fin 2 → Pair
  num : Fin 2 → ℤ
  son : Fin 2 → ℕ

/-- A node as its constructor leaves it. -/
def TreeNode.blank : TreeNode := ⟨fun _ => ⟨inf, 0⟩, fun _ => 0, fun _ => 0⟩

/-- `node[]` and `tot`. -/
structure Pool where
  node : ℕ → TreeNode
  tot : ℕ

namespace Pool

/-- Write one node. -/
def set (p : Pool) (i : ℕ) (n : TreeNode) : Pool :=
  { p with node := fun j => if j = i then n else p.node j }

/-- `get_son`. -/
def getSon (p : Pool) (root : ℕ) (d : Fin 2) : ℕ × Pool :=
  if (p.node root).son d ≠ 0 then ((p.node root).son d, p)
  else (p.tot + 1, { p.set root { p.node root with
      son := fun k => if k = d then p.tot + 1 else (p.node root).son k } with tot := p.tot + 1 })

/-- `go_down` of `push`. -/
def pushSlot (p : Pool) (root : ℕ) : Fin 2 :=
  if (p.node root).num 0 > (p.node root).num 1 then 1 else 0

/-- `go_down` of `pop` and `top`. -/
def popSlot (p : Pool) (root : ℕ) : Fin 2 :=
  if (p.node root).min 0 > (p.node root).min 1 then 1 else 0

/-- Write one slot of a node. -/
def setMin (p : Pool) (i : ℕ) (d : Fin 2) (x : Pair) : Pool :=
  p.set i { p.node i with min := fun k => if k = d then x else (p.node i).min k }

/-- Add to the counter of one slot of a node. -/
def addNum (p : Pool) (i : ℕ) (d : Fin 2) (x : ℤ) : Pool :=
  p.set i { p.node i with num := fun k => if k = d then (p.node i).num k + x else (p.node i).num k }

/-- `push`. -/
def push : ℕ → Pool → ℕ → Pair → Option Pool
  | 0, _, _, _ => none
  | n + 1, p, root, val =>
    if ((p.node root).min 0).IsEmpty then some (p.setMin root 0 val)
    else if ((p.node root).min 1).IsEmpty then some (p.setMin root 1 val)
    else
      let goDown := p.pushSlot root
      let (s, q) := p.getSon root goDown
      if val < (p.node root).min goDown then
        (push n q s ((p.node root).min goDown)).map fun r =>
          (r.setMin root goDown val).addNum root goDown 1
      else (push n q s val).map fun r => r.addNum root goDown 1

/-- `pop`. -/
def pop : ℕ → Pool → ℕ → Option (Pair × Pool)
  | 0, _, _ => none
  | n + 1, p, root =>
    let goDown := p.popSlot root
    let ret := (p.node root).min goDown
    let q := p.setMin root goDown { ret with first := inf }
    if (p.node root).son goDown ≠ 0 then
      (pop n q ((p.node root).son goDown)).map fun r =>
        (ret, (r.2.setMin root goDown r.1).addNum root goDown (-1))
    else some (ret, q)

/-- `top`. -/
def top (p : Pool) (root : ℕ) : Pair := (p.node root).min (p.popSlot root)

/-- `pop` goes down into a node that holds nothing, and takes one off the counter above
it. -/
def popEntersEmpty : ℕ → Pool → ℕ → Bool
  | 0, _, _ => false
  | n + 1, p, root =>
    let goDown := p.popSlot root
    let q := p.setMin root goDown { (p.node root).min goDown with first := inf }
    let s := (p.node root).son goDown
    decide (s ≠ 0) && (decide (q.top s).IsEmpty || popEntersEmpty n q s)

/-- The pool after the roots of `M` trees have been allocated. -/
def init (M : ℕ) : Pool := ⟨fun _ => TreeNode.blank, M⟩

end Pool

/-- `tree[t]`: the roots are allocated first, from 1 on. -/
def treeRoot (t : ℕ) : ℕ := t + 1

/-! ## Reading nodes -/

section Nodes

variable (p : Pool) {i j : ℕ} (d k : Fin 2)

@[simp] theorem set_tot (n : TreeNode) : (p.set i n).tot = p.tot := rfl

@[simp] theorem set_node_self (n : TreeNode) : (p.set i n).node i = n := if_pos rfl

theorem set_node_of_ne (n : TreeNode) (h : j ≠ i) : (p.set i n).node j = p.node j := if_neg h

@[simp] theorem setMin_tot (x : Pair) : (p.setMin i d x).tot = p.tot := rfl

@[simp] theorem addNum_tot (x : ℤ) : (p.addNum i d x).tot = p.tot := rfl

theorem setMin_node_of_ne (x : Pair) (h : j ≠ i) : (p.setMin i d x).node j = p.node j :=
  if_neg h

theorem addNum_node_of_ne (x : ℤ) (h : j ≠ i) : (p.addNum i d x).node j = p.node j := if_neg h

@[simp] theorem setMin_min (x : Pair) :
    ((p.setMin i d x).node i).min k = if k = d then x else (p.node i).min k := by
  simp [Pool.setMin]

@[simp] theorem setMin_num (x : Pair) : ((p.setMin i d x).node i).num = (p.node i).num := by
  simp [Pool.setMin]

@[simp] theorem setMin_son (x : Pair) : ((p.setMin i d x).node i).son = (p.node i).son := by
  simp [Pool.setMin]

@[simp] theorem addNum_min (x : ℤ) : ((p.addNum i d x).node i).min = (p.node i).min := by
  simp [Pool.addNum]

@[simp] theorem addNum_num (x : ℤ) : ((p.addNum i d x).node i).num k =
    if k = d then (p.node i).num k + x else (p.node i).num k := by
  simp [Pool.addNum]

@[simp] theorem addNum_son (x : ℤ) : ((p.addNum i d x).node i).son = (p.node i).son := by
  simp [Pool.addNum]

end Nodes

/-! ## Shapes -/

/-- Where the nodes of a tree are. -/
inductive Shape where
  | nil : Shape
  | node (i : ℕ) (sub : Fin 2 → Shape) : Shape

namespace Shape

/-- The nodes of a shape. -/
def nodes : Shape → Set ℕ
  | nil => ∅
  | node i sub => {j | j = i ∨ ∃ k, j ∈ nodes (sub k)}

/-- How many nodes a shape has. -/
def size : Shape → ℕ
  | nil => 0
  | node _ sub => 1 + ∑ k, size (sub k)

/-- How deep a shape is. -/
def height : Shape → ℕ
  | nil => 0
  | node _ sub => 1 + Finset.univ.sup fun k => height (sub k)

/-- The index of the first node, or 0. -/
def root : Shape → ℕ
  | nil => 0
  | node i _ => i

theorem height_le_size (s : Shape) : s.height ≤ s.size := by
  induction s with
  | nil => exact le_rfl
  | node i sub ih =>
    rw [height, size]
    refine Nat.add_le_add_left (Finset.sup_le fun k _ => (ih k).trans ?_) 1
    exact Finset.single_le_sum (f := fun k => size (sub k)) (fun _ _ => Nat.zero_le _)
      (Finset.mem_univ k)

theorem height_sub_lt (i : ℕ) (sub : Fin 2 → Shape) (k : Fin 2) :
    (sub k).height < (node i sub).height := by
  rw [height, Nat.add_comm, Nat.lt_succ_iff]
  exact Finset.le_sup (f := fun k => height (sub k)) (Finset.mem_univ k)

/-- Fuel for a node is fuel for one more level. -/
theorem exists_succ_of_height_le {i n : ℕ} {sub : Fin 2 → Shape} (h : (node i sub).height ≤ n) :
    ∃ m, n = m + 1 := by
  rw [height] at h
  exact ⟨n - 1, by omega⟩

end Shape

open Shape

/-- A pair, unless it stands for nothing. -/
def optPair (x : Pair) : Option Pair := if x.IsEmpty then none else some x

theorem optPair_of_isEmpty {x : Pair} (h : x.IsEmpty) : optPair x = none := if_pos h

theorem optPair_of_not {x : Pair} (h : ¬x.IsEmpty) : optPair x = some x := if_neg h

/-- The tree of a shape, read from the pool. -/
def toHeap (p : Pool) : Shape → HeapTree (Fin 2) Pair
  | .nil => .nil
  | .node i sub => .node (fun k => optPair ((p.node i).min k)) fun k => toHeap p (sub k)

/-- The pool has the nodes of a shape, linked as the shape says, each of them once. -/
def Rep (p : Pool) : Shape → Prop
  | .nil => True
  | .node i sub => i ≠ 0 ∧ (∀ k, (p.node i).son k = (sub k).root) ∧ (∀ k, i ∉ (sub k).nodes) ∧
      (∀ k l, k ≠ l → Disjoint (sub k).nodes (sub l).nodes) ∧ ∀ k, Rep p (sub k)

/-- A tree depends on its nodes only. -/
theorem toHeap_congr {p q : Pool} {s : Shape} (h : ∀ j ∈ s.nodes, q.node j = p.node j) :
    toHeap q s = toHeap p s := by
  induction s with
  | nil => rfl
  | node i sub ih =>
    rw [toHeap, toHeap, h i (Or.inl rfl)]
    congr 1
    funext k
    exact ih k fun j hj => h j (Or.inr ⟨k, hj⟩)

theorem rep_congr {p q : Pool} {s : Shape} (h : ∀ j ∈ s.nodes, q.node j = p.node j)
    (hs : Rep p s) : Rep q s := by
  induction s with
  | nil => trivial
  | node i sub ih =>
    obtain ⟨h0, hson, hi, hdisj, hsub⟩ := hs
    refine ⟨h0, ?_, hi, hdisj, fun k => ih k (fun j hj => h j (Or.inr ⟨k, hj⟩)) (hsub k)⟩
    rw [h i (Or.inl rfl)]
    exact hson

/-- Every counter is the number of elements below its slot. -/
def Counted (p : Pool) : Shape → Prop
  | .nil => True
  | .node i sub => (∀ k, (p.node i).num k = (elems (toHeap p (sub k))).card) ∧
      ∀ k, Counted p (sub k)

theorem counted_congr {p q : Pool} {s : Shape} (h : ∀ j ∈ s.nodes, q.node j = p.node j)
    (hs : Counted p s) : Counted q s := by
  induction s with
  | nil => trivial
  | node i sub ih =>
    have hsub : ∀ k, ∀ j ∈ (sub k).nodes, q.node j = p.node j := fun k j hj => h j (Or.inr ⟨k, hj⟩)
    refine ⟨fun k => ?_, fun k => ih k (hsub k) (hs.2 k)⟩
    rw [h i (Or.inl rfl), toHeap_congr (hsub k)]
    exact hs.1 k

theorem root_eq_zero {p : Pool} {s : Shape} (hs : Rep p s) : s.root = 0 ↔ s = .nil := by
  cases s with
  | nil => exact ⟨fun _ => rfl, fun _ => rfl⟩
  | node i sub => exact ⟨fun h => absurd h hs.1, fun h => absurd h (by simp)⟩

/-! ## Replacing a sub-tree

A push and a pop both change one sub-tree of a node and leave the other alone. -/

section Replace

variable {p q : Pool} {i : ℕ} {d : Fin 2} {sub : Fin 2 → Shape} {t : Shape}

theorem rep_update (hs : Rep p (.node i sub)) (hit : i ∉ t.nodes) (ht : Rep q t)
    (hson : (q.node i).son = fun k => if k = d then t.root else (p.node i).son k)
    (hapart : ∀ k, k ≠ d → Disjoint (sub k).nodes t.nodes)
    (hother : ∀ k, k ≠ d → ∀ j ∈ (sub k).nodes, q.node j = p.node j) :
    Rep q (.node i (Function.update sub d t)) := by
  obtain ⟨h0, hlink, hi, hdisj, hsub⟩ := hs
  refine ⟨h0, fun k => ?_, fun k => ?_, fun k l hkl => ?_, fun k => ?_⟩
  · rw [hson]
    by_cases hk : k = d
    · subst hk
      simp
    · simp [hk, hlink k]
  · by_cases hk : k = d
    · subst hk
      rwa [Function.update_self]
    · rw [Function.update_of_ne hk]
      exact hi k
  · by_cases hk : k = d
    · have hl : l ≠ d := fun hl => hkl (hk.trans hl.symm)
      rw [hk, Function.update_self, Function.update_of_ne hl]
      exact (hapart l hl).symm
    · by_cases hl : l = d
      · rw [hl, Function.update_self, Function.update_of_ne hk]
        exact hapart k hk
      · rw [Function.update_of_ne hk, Function.update_of_ne hl]
        exact hdisj k l hkl
  · by_cases hk : k = d
    · rw [hk, Function.update_self]
      exact ht
    · rw [Function.update_of_ne hk]
      exact rep_congr (hother k hk) (hsub k)

theorem toHeap_update (hother : ∀ k, k ≠ d → ∀ j ∈ (sub k).nodes, q.node j = p.node j) :
    (fun k => toHeap q (Function.update sub d t k)) =
      Function.update (fun k => toHeap p (sub k)) d (toHeap q t) := by
  funext k
  by_cases hk : k = d
  · rw [hk, Function.update_self, Function.update_self]
  · rw [Function.update_of_ne hk, Function.update_of_ne hk]
    exact toHeap_congr (hother k hk)

theorem counted_update (hother : ∀ k, k ≠ d → ∀ j ∈ (sub k).nodes, q.node j = p.node j)
    (hcount : ∀ k, Counted p (sub k)) (ht : Counted q t) (k : Fin 2) :
    Counted q (Function.update sub d t k) := by
  by_cases hk : k = d
  · rw [hk, Function.update_self]
    exact ht
  · rw [Function.update_of_ne hk]
    exact counted_congr (hother k hk) (hcount k)

/-- Writing a slot of a node leaves its sub-trees alone. -/
theorem setMin_sub (hs : Rep p (.node i sub)) (d : Fin 2) (x : Pair) (k : Fin 2) :
    ∀ j ∈ (sub k).nodes, (p.setMin i d x).node j = p.node j := by
  intro j hj
  exact setMin_node_of_ne p d x fun hji => hs.2.2.1 k (hji ▸ hj)

/-- A slot that is written. -/
theorem optPair_update {n : TreeNode} {d : Fin 2} {x : Pair} :
    (fun k => optPair (if k = d then x else n.min k)) =
      Function.update (fun k => optPair (n.min k)) d (optPair x) := by
  funext k
  rw [Function.update_apply]
  split
  · rfl
  · rfl

end Replace

/-! ## A push -/

/-- The nodes that have not been allocated are as their constructor leaves them. -/
def Untouched (p : Pool) : Prop := ∀ j, p.tot < j → p.node j = TreeNode.blank

/-- What a push does to the pool `p` and the tree of shape `s`, apart from its node `i`. -/
structure Grows (p q : Pool) (i : ℕ) (s t : Shape) : Prop where
  rep : Rep q t
  nodes : ∀ j ∈ t.nodes, j ∈ s.nodes ∨ p.tot < j ∧ j ≤ q.tot
  le_tot : p.tot ≤ q.tot
  size : q.tot + s.size = p.tot + t.size
  frame : ∀ j, j ∉ s.nodes → j ≠ i → j ≤ p.tot → q.node j = p.node j
  untouched : Untouched q
  counted : Counted p s → Counted q t
  height_le : t.height ≤ s.height + 1
  height : ∀ L, Counted p s → s.height ≤ L → (elems (toHeap p s)).card < 2 ^ (L + 1) - 2 →
    t.height ≤ L

/-- The pool after a push into the sub-tree below slot `d` of node `i`. -/
structure GrowsBelow (p q : Pool) (i : ℕ) (d : Fin 2) (s t : Shape) (u : Pair) : Prop
    extends Grows p q i s t where
  tree : Push id (toHeap p s) u (toHeap q t)
  self : q.node i = { p.node i with son := fun k => if k = d then t.root else (p.node i).son k }

theorem toHeap_node (p : Pool) (i : ℕ) (sub : Fin 2 → Shape) : toHeap p (.node i sub) =
    .node (fun k => optPair ((p.node i).min k)) fun k => toHeap p (sub k) := rfl

theorem size_update (i : ℕ) (sub : Fin 2 → Shape) (d : Fin 2) (t : Shape) :
    (Shape.node i (Function.update sub d t)).size + (sub d).size =
      (Shape.node i sub).size + t.size := by
  rw [Shape.size, Shape.size, Fin.sum_univ_two, Fin.sum_univ_two]
  fin_cases d <;> simp <;> omega

theorem height_update_le {i : ℕ} {sub : Fin 2 → Shape} {d : Fin 2} {t : Shape} {n : ℕ}
    (hsub : ∀ k, (sub k).height ≤ n) (ht : t.height ≤ n) :
    (Shape.node i (Function.update sub d t)).height ≤ n + 1 := by
  rw [Shape.height, Nat.add_comm]
  refine Nat.succ_le_succ (Finset.sup_le fun k _ => ?_)
  by_cases hk : k = d
  · rw [hk, Function.update_self]
    exact ht
  · rw [Function.update_of_ne hk]
    exact hsub k

/-- The elements of a node both of whose slots are occupied. -/
theorem card_elems_full {p : Pool} {i : ℕ} {sub : Fin 2 → Shape}
    (hfull : ∀ k, ¬((p.node i).min k).IsEmpty) :
    (elems (toHeap p (.node i sub))).card =
      2 + (elems (toHeap p (sub 0))).card + (elems (toHeap p (sub 1))).card := by
  rw [toHeap_node, elems_node, Fin.sum_univ_two, optPair_of_not (hfull 0), optPair_of_not (hfull 1)]
  simp only [slotElems_some, Multiset.card_add, Multiset.card_singleton]
  omega

/-- A full node whose counters are right has the room for one more below the slot with the
smaller counter. -/
theorem room_below {p : Pool} {i : ℕ} {sub : Fin 2 → Shape} {d : Fin 2} {L : ℕ}
    (hfull : ∀ k, ¬((p.node i).min k).IsEmpty) (hcount : Counted p (.node i sub))
    (hbal : ∀ k, (p.node i).num d ≤ (p.node i).num k)
    (hcard : (elems (toHeap p (.node i sub))).card < 2 ^ (L + 1 + 1) - 2) :
    (elems (toHeap p (sub d))).card < 2 ^ (L + 1) - 2 := by
  have hle : ∀ k, (elems (toHeap p (sub d))).card ≤ (elems (toHeap p (sub k))).card := by
    intro k
    have h := hbal k
    rw [hcount.1 d, hcount.1 k] at h
    exact_mod_cast h
  have h0 := hle 0
  have h1 := hle 1
  rw [card_elems_full hfull] at hcard
  rw [Nat.pow_succ 2 (L + 1)] at hcard
  omega

section Apart

variable {p r : Pool} {i : ℕ} {d : Fin 2} {sub : Fin 2 → Shape} {t : Shape} {u : Pair}

theorem GrowsBelow.not_mem (h : GrowsBelow p r i d (sub d) t u) (hs : Rep p (.node i sub))
    (hle : ∀ j ∈ (Shape.node i sub).nodes, j ≤ p.tot) : i ∉ t.nodes := by
  intro hmem
  rcases h.nodes i hmem with hold | hnew
  · exact hs.2.2.1 d hold
  · have := hle i (Or.inl rfl)
    omega

/-- The nodes of the other sub-tree are not in the one that grew. -/
theorem GrowsBelow.apart (h : GrowsBelow p r i d (sub d) t u) (hs : Rep p (.node i sub))
    (hle : ∀ j ∈ (Shape.node i sub).nodes, j ≤ p.tot) {k : Fin 2} (hk : k ≠ d) :
    Disjoint (sub k).nodes t.nodes := by
  refine Set.disjoint_left.mpr fun j hj hjt => ?_
  rcases h.nodes j hjt with hold | hnew
  · exact Set.disjoint_left.mp (hs.2.2.2.1 k d hk) hj hold
  · have := hle j (Or.inr ⟨k, hj⟩)
    omega

/-- They stay as they are. -/
theorem GrowsBelow.other (h : GrowsBelow p r i d (sub d) t u) (hs : Rep p (.node i sub))
    (hle : ∀ j ∈ (Shape.node i sub).nodes, j ≤ p.tot) {k : Fin 2} (hk : k ≠ d) {j : ℕ}
    (hj : j ∈ (sub k).nodes) : j ≠ i ∧ r.node j = p.node j := by
  have hji : j ≠ i := fun hji => hs.2.2.1 k (hji ▸ hj)
  refine ⟨hji, h.frame j (fun hjd => ?_) hji (hle j (Or.inr ⟨k, hj⟩))⟩
  exact Set.disjoint_left.mp (hs.2.2.2.1 k d hk) hj hjd

end Apart

/-- Putting a sub-tree that has grown back below its node. -/
theorem GrowsBelow.assemble {p q r : Pool} {i : ℕ} {d : Fin 2} {sub : Fin 2 → Shape} {t : Shape}
    {u : Pair} (h : GrowsBelow p r i d (sub d) t u) (hs : Rep p (.node i sub))
    (hle : ∀ j ∈ (Shape.node i sub).nodes, j ≤ p.tot)
    (hfull : ∀ k, ¬((p.node i).min k).IsEmpty) (hbal : ∀ k, (p.node i).num d ≤ (p.node i).num k)
    (htot : q.tot = r.tot) (hne : ∀ j, j ≠ i → q.node j = r.node j)
    (hson : (q.node i).son = (r.node i).son)
    (hnum : ∀ k, (q.node i).num k = if k = d then (r.node i).num k + 1 else (r.node i).num k) :
    Grows p q i (.node i sub) (.node i (Function.update sub d t)) ∧
      toHeap q (.node i (Function.update sub d t)) =
        .node (fun k => optPair ((q.node i).min k))
          (Function.update (fun k => toHeap p (sub k)) d (toHeap r t)) := by
  have hit := h.not_mem hs hle
  have hother : ∀ k, k ≠ d → ∀ j ∈ (sub k).nodes, q.node j = p.node j := by
    intro k hk j hj
    obtain ⟨hji, hr⟩ := h.other hs hle hk hj
    rw [hne j hji, hr]
  have hsame : ∀ j ∈ t.nodes, q.node j = r.node j := fun j hj => hne j fun hji => hit (hji ▸ hj)
  have hapart : ∀ k, k ≠ d → Disjoint (sub k).nodes t.nodes := fun k hk => h.apart hs hle hk
  have hrnum : (r.node i).num = (p.node i).num := by rw [h.self]
  refine ⟨⟨?_, ?_, by rw [htot]; exact h.le_tot, ?_, ?_, ?_, ?_, ?_, ?_⟩, ?_⟩
  · exact rep_update hs hit (rep_congr hsame h.rep) (by rw [hson, h.self]) hapart hother
  · rintro j (rfl | ⟨k, hj⟩)
    · exact Or.inl (Or.inl rfl)
    · by_cases hk : k = d
      · rw [hk, Function.update_self] at hj
        rcases h.nodes j hj with hold | hnew
        · exact Or.inl (Or.inr ⟨d, hold⟩)
        · exact Or.inr (by rwa [htot])
      · rw [Function.update_of_ne hk] at hj
        exact Or.inl (Or.inr ⟨k, hj⟩)
  · have h1 := h.size
    have h2 := size_update i sub d t
    omega
  · intro j hj hji hjle
    rw [hne j hji]
    exact h.frame j (fun hjd => hj (Or.inr ⟨d, hjd⟩)) hji hjle
  · intro j hj
    rw [htot] at hj
    have hji : j ≠ i := by
      have := hle i (Or.inl rfl)
      have := h.le_tot
      omega
    rw [hne j hji]
    exact h.untouched j hj
  · intro hcount
    refine ⟨fun k => ?_, counted_update hother hcount.2 (counted_congr hsame
      (h.counted (hcount.2 d)))⟩
    rw [congrFun (toHeap_update hother) k, hnum k, hrnum, hcount.1 k]
    by_cases hk : k = d
    · rw [if_pos hk, hk, Function.update_self, toHeap_congr hsame, h.tree.elems_eq,
        Multiset.card_cons]
      push_cast
      rfl
    · rw [if_neg hk, Function.update_of_ne hk]
  · refine height_update_le (fun k => (Shape.height_sub_lt i sub k).le) ?_
    exact h.height_le.trans (Shape.height_sub_lt i sub d)
  · intro L hcount hL hcard
    obtain ⟨L, rfl⟩ := exists_succ_of_height_le hL
    have hsubL : ∀ k, (sub k).height ≤ L := by
      intro k
      have := Shape.height_sub_lt i sub k
      omega
    exact height_update_le hsubL
      (h.height L (hcount.2 d) (hsubL d) (room_below hfull hcount hbal hcard))
  · rw [toHeap_node, toHeap_update hother, toHeap_congr hsame]

/-- Writing an empty slot of a node. -/
theorem grows_setMin {p : Pool} {i : ℕ} {sub : Fin 2 → Shape} {d : Fin 2} {v : Pair}
    (hs : Rep p (.node i sub)) (hle : ∀ j ∈ (Shape.node i sub).nodes, j ≤ p.tot)
    (hp : Untouched p) (hv : ¬v.IsEmpty) (hempty : ((p.node i).min d).IsEmpty) :
    Grows p (p.setMin i d v) i (.node i sub) (.node i sub) ∧
      Push id (toHeap p (.node i sub)) v (toHeap (p.setMin i d v) (.node i sub)) := by
  have hne : ∀ j, j ≠ i → (p.setMin i d v).node j = p.node j :=
    fun j hj => setMin_node_of_ne p d v hj
  have hsub := setMin_sub hs d v
  obtain ⟨h0, hlink, hi, hdisj, hrep⟩ := hs
  refine ⟨⟨⟨h0, ?_, hi, hdisj, fun k => rep_congr (hsub k) (hrep k)⟩, fun j hj => Or.inl hj, le_rfl,
    rfl, fun j _ hji _ => hne j hji, ?_, fun hcount => ⟨fun k => ?_, fun k => ?_⟩, Nat.le_succ _,
    fun _ _ hL _ => hL⟩, ?_⟩
  · rw [setMin_son]
    exact hlink
  · intro j hj
    rw [setMin_tot] at hj
    have := hle i (Or.inl rfl)
    rw [hne j (by omega)]
    exact hp j hj
  · rw [setMin_num, toHeap_congr (hsub k)]
    exact hcount.1 k
  · exact counted_congr (hsub k) (hcount.2 k)
  · have hslots : (fun k => optPair (((p.setMin i d v).node i).min k)) =
        Function.update (fun k => optPair ((p.node i).min k)) d (some v) := by
      simp only [setMin_min]
      rw [optPair_update, optPair_of_not hv]
    rw [toHeap_node, toHeap_node, hslots, show (fun k => toHeap (p.setMin i d v) (sub k)) =
      fun k => toHeap p (sub k) from funext fun k => toHeap_congr (hsub k)]
    exact Push.place v (optPair_of_isEmpty hempty)

/-- Pushing into a node that has just been allocated. -/
theorem growsBelow_alloc {p : Pool} {i : ℕ} {sub : Fin 2 → Shape} {d : Fin 2} {u : Pair}
    (hs : Rep p (.node i sub)) (hle : ∀ j ∈ (Shape.node i sub).nodes, j ≤ p.tot)
    (hp : Untouched p) (hu : ¬u.IsEmpty) (hnil : sub d = .nil) :
    ∃ r, (∀ n, Pool.push (n + 1) (p.getSon i d).2 (p.getSon i d).1 u = some r) ∧
      GrowsBelow p r i d (sub d) (.node (p.tot + 1) fun _ => .nil) u := by
  have hi := hle i (Or.inl rfl)
  have hget : p.getSon i d = (p.tot + 1, { p.set i { p.node i with
      son := fun k => if k = d then p.tot + 1 else (p.node i).son k } with tot := p.tot + 1 }) := by
    rw [Pool.getSon, if_neg]
    rw [hs.2.1 d, hnil]
    simp [Shape.root]
  rw [hget]
  generalize hq : ({ p.set i { p.node i with
      son := fun k => if k = d then p.tot + 1 else (p.node i).son k } with tot := p.tot + 1 } :
      Pool) = q
  have hnode : ∀ j, j ≠ i → q.node j = p.node j := by
    intro j hj
    rw [← hq]
    exact set_node_of_ne p _ hj
  have hqtot : q.tot = p.tot + 1 := by rw [← hq]
  have hblank : q.node (p.tot + 1) = TreeNode.blank := by
    rw [hnode _ (by omega)]
    exact hp _ (Nat.lt_succ_self _)
  have hne : ∀ j, j ≠ p.tot + 1 → (q.setMin (p.tot + 1) 0 u).node j = q.node j :=
    fun j hj => setMin_node_of_ne q 0 u hj
  refine ⟨q.setMin (p.tot + 1) 0 u, fun n => ?_,
    ⟨⟨⟨Nat.succ_ne_zero _, ?_, ?_, ?_, fun _ => trivial⟩, ?_, ?_, ?_, ?_, ?_,
      fun _ => ⟨fun k => ?_, fun _ => trivial⟩, ?_, fun L _ _ hcard => ?_⟩, ?_, ?_⟩⟩
  · rw [Pool.push, if_pos]
    rw [hblank]
    rfl
  · intro k
    rw [setMin_son, hblank]
    rfl
  · exact fun _ => Set.notMem_empty _
  · exact fun _ _ _ => Set.disjoint_empty _
  · rintro j (rfl | ⟨_, hj⟩)
    · exact Or.inr ⟨Nat.lt_succ_self _, by rw [setMin_tot, hqtot]⟩
    · exact absurd hj (Set.notMem_empty _)
  · rw [setMin_tot, hqtot]
    exact Nat.le_succ _
  · rw [setMin_tot, hqtot, hnil]
    simp [Shape.size]
  · intro j _ hji hjle
    rw [hne j (by omega), hnode j hji]
  · intro j hj
    rw [setMin_tot, hqtot] at hj
    rw [hne j (by omega), hnode j (by omega)]
    exact hp j (by omega)
  · rw [setMin_num, hblank]
    rfl
  · rw [hnil]
    simp [Shape.height]
  · have hL : 1 ≤ L := by
      by_contra hL
      obtain rfl : L = 0 := by omega
      exact absurd hcard (by simp)
    have hflat : Finset.univ.sup (fun _ : Fin 2 => Shape.nil.height) = 0 := by decide
    rw [Shape.height, hflat]
    exact hL
  · have hslots : (fun k => optPair (((q.setMin (p.tot + 1) 0 u).node (p.tot + 1)).min k)) =
        Function.update (fun _ => none) 0 (some u) := by
      simp only [setMin_min, hblank]
      rw [optPair_update, optPair_of_not hu]
      rfl
    rw [hnil, toHeap_node, hslots]
    exact Push.grow u 0
  · rw [hne i (by omega), ← hq]
    exact set_node_self p _

/-- The son of a slot that has a sub-tree. -/
theorem getSon_of_ne_nil {p : Pool} {i : ℕ} {sub : Fin 2 → Shape} (hs : Rep p (.node i sub))
    {d : Fin 2} (hsub : sub d ≠ .nil) : p.getSon i d = ((sub d).root, p) := by
  have hson : (p.node i).son d ≠ 0 := by
    rw [hs.2.1 d]
    exact fun h => hsub ((root_eq_zero (hs.2.2.2.2 d)).mp h)
  rw [Pool.getSon, if_pos hson, hs.2.1 d]

/-- A sub-tree that has grown, as its node sees it. -/
theorem Grows.below {p r : Pool} {i : ℕ} {d : Fin 2} {sub : Fin 2 → Shape} {t : Shape} {u : Pair}
    (h : Grows p r (sub d).root (sub d) t) (hroot : t.root = (sub d).root)
    (htree : Push id (toHeap p (sub d)) u (toHeap r t)) (hs : Rep p (.node i sub))
    (hi : i ≤ p.tot) (hsub : sub d ≠ .nil) : GrowsBelow p r i d (sub d) t u := by
  have hmem : (sub d).root ∈ (sub d).nodes := by
    cases hd : sub d with
    | nil => exact absurd hd hsub
    | node j sub' => exact Or.inl rfl
  have hid := hs.2.2.1 d
  refine ⟨⟨h.rep, h.nodes, h.le_tot, h.size, fun x hx _ hxle => ?_, h.untouched, h.counted,
    h.height_le, h.height⟩, htree, ?_⟩
  · exact h.frame x hx (fun hxj => hx (hxj ▸ hmem)) hxle
  · rw [h.frame i hid (fun hxj => hid (hxj ▸ hmem)) hi, hroot]
    have hson : (fun k => if k = d then (sub d).root else (p.node i).son k) = (p.node i).son := by
      funext k
      split
      · next hk => rw [hk, hs.2.1 d]
      · rfl
    rw [hson]

theorem pushSlot_le (p : Pool) (i : ℕ) (k : Fin 2) :
    (p.node i).num (p.pushSlot i) ≤ (p.node i).num k := by
  unfold Pool.pushSlot
  split
  · next h =>
    fin_cases k
    · exact h.le
    · exact le_rfl
  · next h =>
    fin_cases k
    · exact le_rfl
    · exact not_lt.mp h

/-- A push into a node without an empty slot. -/
theorem push_full {p : Pool} {i : ℕ} {v : Pair} (hfull : ∀ k, ¬((p.node i).min k).IsEmpty)
    (n : ℕ) : p.push (n + 1) i v =
      if v < (p.node i).min (p.pushSlot i) then
        (Pool.push n (p.getSon i (p.pushSlot i)).2 (p.getSon i (p.pushSlot i)).1
          ((p.node i).min (p.pushSlot i))).map fun r =>
            (r.setMin i (p.pushSlot i) v).addNum i (p.pushSlot i) 1
      else (Pool.push n (p.getSon i (p.pushSlot i)).2 (p.getSon i (p.pushSlot i)).1 v).map
        fun r => r.addNum i (p.pushSlot i) 1 := by
  rw [Pool.push, if_neg (hfull 0), if_neg (hfull 1)]

section Full

variable {p r : Pool} {i : ℕ} {d : Fin 2} {sub : Fin 2 → Shape} {t : Shape} {v : Pair}

/-- The slot keeps its value, and `v` has gone down. -/
theorem GrowsBelow.keep (h : GrowsBelow p r i d (sub d) t v) (hs : Rep p (.node i sub))
    (hle : ∀ j ∈ (Shape.node i sub).nodes, j ≤ p.tot)
    (hfull : ∀ k, ¬((p.node i).min k).IsEmpty) (hbal : ∀ k, (p.node i).num d ≤ (p.node i).num k)
    (hmin : (p.node i).min d ≤ v) :
    Grows p (r.addNum i d 1) i (.node i sub) (.node i (Function.update sub d t)) ∧
      Push id (toHeap p (.node i sub)) v
        (toHeap (r.addNum i d 1) (.node i (Function.update sub d t))) := by
  obtain ⟨hall, hheap⟩ := h.assemble (q := r.addNum i d 1) hs hle hfull hbal rfl
    (fun j hj => addNum_node_of_ne _ _ _ hj) (by rw [addNum_son]) fun k => by rw [addNum_num]
  refine ⟨hall, ?_⟩
  rw [hheap, toHeap_node]
  simp only [addNum_min, h.self]
  exact Push.keep (optPair_of_not (hfull d)) hmin h.tree

/-- The slot takes `v`, and its value has gone down. -/
theorem GrowsBelow.swap (h : GrowsBelow p r i d (sub d) t ((p.node i).min d))
    (hs : Rep p (.node i sub)) (hle : ∀ j ∈ (Shape.node i sub).nodes, j ≤ p.tot)
    (hfull : ∀ k, ¬((p.node i).min k).IsEmpty) (hbal : ∀ k, (p.node i).num d ≤ (p.node i).num k)
    (hv : ¬v.IsEmpty) (hmin : v < (p.node i).min d) :
    Grows p ((r.setMin i d v).addNum i d 1) i (.node i sub)
        (.node i (Function.update sub d t)) ∧
      Push id (toHeap p (.node i sub)) v
        (toHeap ((r.setMin i d v).addNum i d 1) (.node i (Function.update sub d t))) := by
  have hne : ∀ j, j ≠ i → ((r.setMin i d v).addNum i d 1).node j = r.node j := by
    intro j hj
    rw [addNum_node_of_ne _ _ _ hj, setMin_node_of_ne _ _ _ hj]
  obtain ⟨hall, hheap⟩ := h.assemble (q := (r.setMin i d v).addNum i d 1) hs hle hfull hbal
    rfl hne (by rw [addNum_son, setMin_son]) fun k => by rw [addNum_num, setMin_num]
  refine ⟨hall, ?_⟩
  have hslots : (fun k => optPair ((((r.setMin i d v).addNum i d 1).node i).min k)) =
      Function.update (fun k => optPair ((p.node i).min k)) d (some v) := by
    simp only [addNum_min, setMin_min, h.self]
    rw [optPair_update, optPair_of_not hv]
  rw [hheap, hslots, toHeap_node]
  exact Push.swap (optPair_of_not (hfull d)) hmin.le h.tree

theorem height_le_of_update {n : ℕ}
    (hn : (Shape.node i (Function.update sub d t)).height ≤ n + 1) : t.height ≤ n := by
  have := Shape.height_sub_lt i (Function.update sub d t) d
  rw [Function.update_self] at this
  omega

/-- Whichever value goes down, the sub-tree below the slot grows by it, if a push into a
sub-tree that is there lets it grow. -/
theorem exists_growsBelow (hs : Rep p (.node i sub))
    (hle : ∀ j ∈ (Shape.node i sub).nodes, j ≤ p.tot) (hp : Untouched p) (hv : ¬v.IsEmpty)
    (hsub : sub d ≠ .nil → ∃ q t, (∀ n, t.height ≤ n → p.push n (sub d).root v = some q) ∧
      t.root = (sub d).root ∧ Grows p q (sub d).root (sub d) t ∧
      Push id (toHeap p (sub d)) v (toHeap q t)) :
    ∃ r t, (∀ n, t.height ≤ n → Pool.push n (p.getSon i d).2 (p.getSon i d).1 v = some r) ∧
      GrowsBelow p r i d (sub d) t v := by
  by_cases hnil : sub d = .nil
  · obtain ⟨r, hr, hgrow⟩ := growsBelow_alloc hs hle hp hv hnil
    refine ⟨r, _, fun n hn => ?_, hgrow⟩
    obtain ⟨m, rfl⟩ := exists_succ_of_height_le hn
    exact hr m
  · obtain ⟨r, t, hr, hroot, hgrow, htree⟩ := hsub hnil
    rw [getSon_of_ne_nil hs hnil]
    exact ⟨r, t, hr, hgrow.below hroot htree hs (hle i (Or.inl rfl)) hnil⟩

end Full

/-- **A push adds its value to the tree**; a recursion as deep as the tree will be is
enough. -/
theorem push_spec (s : Shape) : ∀ {p : Pool} {v : Pair}, Rep p s → s ≠ .nil →
    (∀ j ∈ s.nodes, j ≤ p.tot) → Untouched p → ¬v.IsEmpty →
    ∃ q t, (∀ n, t.height ≤ n → p.push n s.root v = some q) ∧ t.root = s.root ∧
      Grows p q s.root s t ∧ Push id (toHeap p s) v (toHeap q t) := by
  induction s with
  | nil => exact fun _ h => absurd rfl h
  | node i sub ih =>
    intro p v hs _ hle hp hv
    by_cases h0 : ((p.node i).min 0).IsEmpty
    · refine ⟨p.setMin i 0 v, .node i sub, fun n hn => ?_, rfl, grows_setMin hs hle hp hv h0⟩
      obtain ⟨m, rfl⟩ := exists_succ_of_height_le hn
      rw [Shape.root, Pool.push, if_pos h0]
    by_cases h1 : ((p.node i).min 1).IsEmpty
    · refine ⟨p.setMin i 1 v, .node i sub, fun n hn => ?_, rfl, grows_setMin hs hle hp hv h1⟩
      obtain ⟨m, rfl⟩ := exists_succ_of_height_le hn
      rw [Shape.root, Pool.push, if_neg h0, if_pos h1]
    have hfull : ∀ k, ¬((p.node i).min k).IsEmpty := Fin.forall_fin_two.mpr ⟨h0, h1⟩
    have hpush := push_full (v := v) hfull
    have hbal := pushSlot_le p i
    generalize p.pushSlot i = d at hpush hbal
    have hbelow : ∀ {u : Pair}, ¬u.IsEmpty → ∃ r t,
        (∀ n, t.height ≤ n → Pool.push n (p.getSon i d).2 (p.getSon i d).1 u = some r) ∧
          GrowsBelow p r i d (sub d) t u := fun hu =>
      exists_growsBelow hs hle hp hu fun hsub => ih d (hs.2.2.2.2 d) hsub
        (fun x hx => hle x (Or.inr ⟨d, hx⟩)) hp hu
    by_cases hlt : v < (p.node i).min d
    · obtain ⟨r, t, hr, hgrow⟩ := hbelow (hfull d)
      refine ⟨_, .node i (Function.update sub d t), fun n hn => ?_, rfl,
        hgrow.swap hs hle hfull hbal hv hlt⟩
      obtain ⟨m, rfl⟩ := exists_succ_of_height_le hn
      rw [Shape.root, hpush, if_pos hlt, hr m (height_le_of_update hn)]
      rfl
    · obtain ⟨r, t, hr, hgrow⟩ := hbelow hv
      refine ⟨_, .node i (Function.update sub d t), fun n hn => ?_, rfl,
        hgrow.keep hs hle hfull hbal (not_lt.mp hlt)⟩
      obtain ⟨m, rfl⟩ := exists_succ_of_height_le hn
      rw [Shape.root, hpush, if_neg hlt, hr m (height_le_of_update hn)]
      rfl

/-! ## A pop -/

/-- No slot shows a priority above that of an empty one. -/
def Bounded (p : Pool) : Prop := ∀ j k, ((p.node j).min k).first ≤ inf

theorem bounded_setMin {p : Pool} {x : Pair} (hp : Bounded p) (hx : x.first ≤ inf) (i : ℕ)
    (d : Fin 2) : Bounded (p.setMin i d x) := by
  intro j k
  by_cases hj : j = i
  · rw [hj, setMin_min]
    split
    · exact hx
    · exact hp i k
  · rw [setMin_node_of_ne p d x hj]
    exact hp j k

theorem bounded_addNum {p : Pool} (hp : Bounded p) (i : ℕ) (d : Fin 2) (x : ℤ) :
    Bounded (p.addNum i d x) := by
  intro j k
  by_cases hj : j = i
  · rw [hj, addNum_min]
    exact hp i k
  · rw [addNum_node_of_ne p d x hj]
    exact hp j k

theorem bounded_getSon {p : Pool} (hp : Bounded p) (i : ℕ) (d : Fin 2) :
    Bounded (p.getSon i d).2 := by
  rw [Pool.getSon]
  split
  · exact hp
  · intro j k
    show (((p.set i _).node j).min k).first ≤ inf
    by_cases hj : j = i
    · rw [hj, set_node_self]
      exact hp i k
    · rw [set_node_of_ne p _ hj]
      exact hp j k

theorem bounded_push {n : ℕ} : ∀ {p q : Pool} {root : ℕ} {v : Pair}, Bounded p → v.first ≤ inf →
    p.push n root v = some q → Bounded q := by
  induction n with
  | zero => exact fun _ _ h => absurd h (by simp [Pool.push])
  | succ n ih =>
    intro p q root v hp hv h
    rw [Pool.push] at h
    split at h
    · rw [← Option.some.inj h]
      exact bounded_setMin hp hv root 0
    · split at h
      · rw [← Option.some.inj h]
        exact bounded_setMin hp hv root 1
      · dsimp only at h
        have hget := bounded_getSon hp root (p.pushSlot root)
        split at h
        · obtain ⟨r, hr, rfl⟩ := Option.map_eq_some_iff.mp h
          exact bounded_addNum (bounded_setMin (ih hget (hp root _) hr) hv _ _) _ _ _
        · obtain ⟨r, hr, rfl⟩ := Option.map_eq_some_iff.mp h
          exact bounded_addNum (ih hget hv hr) _ _ _

theorem bounded_pop {n : ℕ} : ∀ {p q : Pool} {root : ℕ} {x : Pair}, Bounded p →
    p.pop n root = some (x, q) → x.first ≤ inf ∧ Bounded q := by
  induction n with
  | zero => exact fun _ h => absurd h (by simp [Pool.pop])
  | succ n ih =>
    intro p q root x hp h
    rw [Pool.pop] at h
    have hq := bounded_setMin (x := { (p.node root).min (p.popSlot root) with first := inf }) hp
      le_rfl root (p.popSlot root)
    split at h
    · obtain ⟨⟨y, r⟩, hr, hxy⟩ := Option.map_eq_some_iff.mp h
      rw [Prod.mk.injEq] at hxy
      obtain ⟨rfl, rfl⟩ := hxy
      obtain ⟨hy, hr⟩ := ih hq hr
      exact ⟨hp root _, bounded_addNum (bounded_setMin hr hy _ _) _ _ _⟩
    · rw [Option.some.injEq, Prod.mk.injEq] at h
      obtain ⟨rfl, rfl⟩ := h
      exact ⟨hp root _, hq⟩

/-- What a pop does to the pool beside the tree. -/
structure Keeps (p q : Pool) (s : Shape) : Prop where
  tot : q.tot = p.tot
  son : ∀ j, (q.node j).son = (p.node j).son
  frame : ∀ j, j ∉ s.nodes → q.node j = p.node j

theorem Keeps.rep {p q : Pool} {s t : Shape} (h : Keeps p q s) (ht : Rep p t) : Rep q t := by
  induction t with
  | nil => trivial
  | node i sub ih =>
    obtain ⟨h0, hson, hi, hdisj, hsub⟩ := ht
    refine ⟨h0, ?_, hi, hdisj, fun k => ih k (hsub k)⟩
    rw [h.son]
    exact hson

theorem popSlot_le (p : Pool) (i : ℕ) (k : Fin 2) :
    (p.node i).min (p.popSlot i) ≤ (p.node i).min k := by
  unfold Pool.popSlot
  split
  · next h =>
    fin_cases k
    · exact h.le
    · exact le_rfl
  · next h =>
    fin_cases k
    · exact le_rfl
    · exact not_lt.mp h

/-- The slot that is popped is a least one. -/
theorem isLeast_popSlot {p : Pool} (hp : Bounded p) (i : ℕ) :
    IsLeast id (fun k => optPair ((p.node i).min k)) (p.popSlot i) := by
  intro k v hv
  have hle := popSlot_le p i k
  dsimp only at hv
  by_cases hk : ((p.node i).min k).IsEmpty
  · rw [optPair_of_isEmpty hk] at hv
    exact absurd hv (by simp)
  · rw [optPair_of_not hk, Option.some.injEq] at hv
    have hd : ¬((p.node i).min (p.popSlot i)).IsEmpty := by
      intro hd
      rw [Pair.le_iff, hd] at hle
      have hbound := hp i k
      rcases hle with h | h
      · exact absurd h (not_lt.mpr hbound)
      · exact hk h.1.symm
    exact ⟨_, optPair_of_not hd, hv ▸ hle⟩

section PopAbove

variable {p q r : Pool} {i : ℕ} {d : Fin 2} {sub : Fin 2 → Shape} {x : Pair}

/-- A pop empties the slot it takes. -/
theorem keeps_setMin (p : Pool) (i : ℕ) (d : Fin 2) (x : Pair) (sub : Fin 2 → Shape) :
    Keeps p (p.setMin i d x) (.node i sub) := by
  refine ⟨rfl, fun j => ?_, fun j hj => setMin_node_of_ne p d x fun hji => hj (Or.inl hji)⟩
  by_cases hj : j = i
  · rw [hj, setMin_son]
  · rw [setMin_node_of_ne p d x hj]

/-- What came up from the sub-tree is written to the slot. -/
theorem Keeps.above (h : Keeps p r (.node i sub)) (hq : Keeps r q (sub d)) (x : Pair) (c : ℤ) :
    Keeps p ((q.setMin i d x).addNum i d c) (.node i sub) := by
  refine ⟨?_, fun k => ?_, fun k hk => ?_⟩
  · rw [addNum_tot, setMin_tot, hq.tot, h.tot]
  · by_cases hk : k = i
    · rw [hk, addNum_son, setMin_son, hq.son, h.son]
    · rw [addNum_node_of_ne _ _ _ hk, setMin_node_of_ne _ _ _ hk, hq.son, h.son]
  · have hki : k ≠ i := fun hki => hk (Or.inl hki)
    rw [addNum_node_of_ne _ _ _ hki, setMin_node_of_ne _ _ _ hki,
      hq.frame k fun hkd => hk (Or.inr ⟨d, hkd⟩), h.frame k hk]

/-- The sub-trees of the node, after the slot has been written and counted. -/
theorem addNum_setMin_sub (hs : Rep p (.node i sub)) (d : Fin 2) (x : Pair) (c : ℤ) (k : Fin 2) :
    ∀ j ∈ (sub k).nodes, ((q.setMin i d x).addNum i d c).node j = q.node j := by
  intro j hj
  have hji : j ≠ i := fun hji => hs.2.2.1 k (hji ▸ hj)
  rw [addNum_node_of_ne _ _ _ hji, setMin_node_of_ne _ _ _ hji]

/-- The other sub-tree, after a pop of the one below the slot. -/
theorem Keeps.other (hs : Rep p (.node i sub)) (hq : Keeps (p.setMin i d x) q (sub d)) :
    ∀ k, k ≠ d → ∀ j ∈ (sub k).nodes, q.node j = p.node j := by
  intro k hk j hj
  rw [hq.frame j fun hjd => Set.disjoint_left.mp (hs.2.2.2.1 k d hk) hj hjd]
  exact setMin_sub hs d x k j hj

/-- A pop of a node, from the pop of the sub-tree below its slot. -/
theorem pop_above {y : Pair} (hs : Rep p (.node i sub))
    (hleast : IsLeast id (fun k => optPair ((p.node i).min k)) d)
    (hq : Keeps (p.setMin i d x) q (sub d))
    (hdown : Pop id (toHeap p (sub d)) (optPair y) (toHeap q (sub d))) (c : ℤ) :
    Pop id (toHeap p (.node i sub)) (optPair ((p.node i).min d))
      (toHeap ((q.setMin i d y).addNum i d c) (.node i sub)) := by
  have hi : (q.node i).min = ((p.setMin i d x).node i).min := by
    rw [hq.frame i (hs.2.2.1 d)]
  have hslots : (fun k => optPair ((((q.setMin i d y).addNum i d c).node i).min k)) =
      Function.update (fun k => optPair ((p.node i).min k)) d (optPair y) := by
    rw [← optPair_update]
    funext k
    rw [addNum_min, setMin_min, hi, setMin_min]
    by_cases hk : k = d
    · rw [if_pos hk, if_pos hk]
    · rw [if_neg hk, if_neg hk, if_neg hk]
  have hheap : (fun k => toHeap ((q.setMin i d y).addNum i d c) (sub k)) =
      Function.update (fun k => toHeap p (sub k)) d (toHeap q (sub d)) := by
    rw [← toHeap_update (Keeps.other hs hq), Function.update_eq_self]
    exact funext fun k => toHeap_congr (addNum_setMin_sub hs d y c k)
  rw [toHeap_node, toHeap_node, hslots, hheap]
  exact Pop.node (c := fun k => toHeap p (sub k)) hleast hdown

/-- The counters of a node, from the counters of the sub-tree below its slot, if that loses
exactly one element. -/
theorem counted_above {y : Pair} (hs : Rep p (.node i sub)) (hcount : Counted p (.node i sub))
    (hq : Keeps (p.setMin i d x) q (sub d)) (hqcount : Counted q (sub d))
    (hcard : (elems (toHeap q (sub d))).card + 1 = (elems (toHeap p (sub d))).card) :
    Counted ((q.setMin i d y).addNum i d (-1)) (.node i sub) := by
  have hsame := addNum_setMin_sub (q := q) hs d y (-1)
  have hother := Keeps.other hs hq
  have hi : (q.node i).num = (p.node i).num := by rw [hq.frame i (hs.2.2.1 d), setMin_num]
  refine ⟨fun k => ?_, fun k => counted_congr (hsame k) ?_⟩
  · rw [toHeap_congr (hsame k), addNum_num, setMin_num, hi, hcount.1 k]
    by_cases hk : k = d
    · rw [if_pos hk, hk, ← hcard]
      push_cast
      ring
    · rw [if_neg hk, toHeap_congr (hother k hk)]
  · by_cases hk : k = d
    · rw [hk]
      exact hqcount
    · exact counted_congr (hother k hk) (hcount.2 k)

/-- A pop of a node without a sub-tree below its slot. -/
theorem pop_leaf (hs : Rep p (.node i sub)) (hsub : sub d = .nil) (hx : x.IsEmpty)
    (hleast : IsLeast id (fun k => optPair ((p.node i).min k)) d) :
    Pop id (toHeap p (.node i sub)) (optPair ((p.node i).min d))
      (toHeap (p.setMin i d x) (.node i sub)) := by
  have hdown : Pop id (toHeap p (sub d)) none (toHeap p (sub d)) := by
    rw [hsub]
    exact Pop.nil
  have hpop := Pop.node (c := fun k => toHeap p (sub k)) hleast hdown
  rw [Function.update_eq_self] at hpop
  have hslots : (fun k => optPair (((p.setMin i d x).node i).min k)) =
      Function.update (fun k => optPair ((p.node i).min k)) d none := by
    rw [← optPair_of_isEmpty hx, ← optPair_update]
    simp only [setMin_min]
  rw [toHeap_node, toHeap_node, hslots,
    show (fun k => toHeap (p.setMin i d x) (sub k)) = fun k => toHeap p (sub k) from
      funext fun k => toHeap_congr (setMin_sub hs d x k)]
  exact hpop

end PopAbove

/-- **A pop takes a least value out of the tree**, and does not run out of depth.  The
counters stay right unless it goes down into a node that holds nothing. -/
theorem pop_spec (s : Shape) : ∀ {p : Pool} {n : ℕ}, Rep p s → s ≠ .nil → Bounded p →
    s.height ≤ n → ∃ q, p.pop n s.root = some (p.top s.root, q) ∧ Keeps p q s ∧
      Pop id (toHeap p s) (optPair (p.top s.root)) (toHeap q s) ∧
      (Counted p s → p.popEntersEmpty n s.root = false → Counted q s) := by
  induction s with
  | nil => exact fun _ h => absurd rfl h
  | node i sub ih =>
    intro p n hs _ hp hn
    obtain ⟨n, rfl⟩ := exists_succ_of_height_le hn
    have hleast := isLeast_popSlot hp i
    have hheight := Shape.height_sub_lt i sub (p.popSlot i)
    rw [Shape.root, Pool.pop, Pool.top, Pool.popEntersEmpty]
    generalize p.popSlot i = d at hleast hheight ⊢
    have hrsub := setMin_sub hs d { (p.node i).min d with first := inf }
    have hrkeep := keeps_setMin p i d { (p.node i).min d with first := inf } sub
    by_cases hsub : sub d = .nil
    · have h0 : ¬(p.node i).son d ≠ 0 := by rw [hs.2.1 d, hsub]; simp [Shape.root]
      rw [if_neg h0]
      refine ⟨_, rfl, hrkeep, pop_leaf hs hsub rfl hleast,
        fun hcount _ => ⟨fun k => ?_, fun k => ?_⟩⟩
      · rw [setMin_num, toHeap_congr (hrsub k)]
        exact hcount.1 k
      · exact counted_congr (hrsub k) (hcount.2 k)
    · have h0 : (p.node i).son d ≠ 0 := by
        rw [hs.2.1 d]
        exact fun h => hsub ((root_eq_zero (hs.2.2.2.2 d)).mp h)
      obtain ⟨q, hq, hkeep, hdown, hqcount⟩ := ih d (n := n) (rep_congr (hrsub d) (hs.2.2.2.2 d))
        hsub (bounded_setMin hp le_rfl i d) (by omega)
      rw [if_pos h0, hs.2.1 d, hq]
      rw [toHeap_congr (hrsub d)] at hdown
      refine ⟨_, rfl, hrkeep.above hkeep _ _, pop_above hs hleast hkeep hdown _,
        fun hcount hpath => ?_⟩
      rw [decide_eq_true (hs.2.1 d ▸ h0), Bool.true_and, Bool.or_eq_false_iff,
        decide_eq_false_iff_not] at hpath
      refine counted_above hs hcount hkeep
        (hqcount (counted_congr (hrsub d) (hcount.2 d)) hpath.2) ?_
      -- the node that is entered holds something, so it loses exactly one element
      rw [optPair_of_not hpath.1] at hdown
      have hcard := congrArg Multiset.card hdown.elems_eq
      rw [slotElems_some, Multiset.card_add, Multiset.card_singleton, Nat.add_comm] at hcard
      exact hcard

/-! ## The trees of a pool -/

/-- The tree below a node, down to a given depth. -/
def readTree : ℕ → Pool → ℕ → HeapTree (Fin 2) Pair
  | 0, _, _ => .nil
  | n + 1, p, i =>
    if i = 0 then .nil
    else .node (fun k => optPair ((p.node i).min k)) fun k => readTree n p ((p.node i).son k)

/-- What tree `t` holds. -/
def stored (p : Pool) (t : ℕ) : Multiset Pair := elems (readTree p.tot p (treeRoot t))

theorem readTree_eq (s : Shape) : ∀ {p : Pool} {n : ℕ}, Rep p s → s.height ≤ n →
    readTree n p s.root = toHeap p s := by
  induction s with
  | nil =>
    intro p n _ _
    cases n <;> simp [readTree, Shape.root, toHeap]
  | node i sub ih =>
    intro p n hs hn
    obtain ⟨n, rfl⟩ := Shape.exists_succ_of_height_le hn
    rw [Shape.root, readTree, if_neg hs.1, toHeap_node]
    congr 1
    funext k
    have := Shape.height_sub_lt i sub k
    rw [hs.2.1 k, ih k (hs.2.2.2.2 k) (by omega)]

/-- The invariant of a pool of `M` trees, whose nodes are where `sh` says. -/
structure PoolInv (M : ℕ) (p : Pool) (sh : ℕ → Shape) : Prop where
  rep : ∀ t < M, Rep p (sh t)
  root : ∀ t < M, (sh t).root = treeRoot t
  disjoint : ∀ t < M, ∀ u < M, t ≠ u → Disjoint (sh t).nodes (sh u).nodes
  le_tot : ∀ t < M, ∀ j ∈ (sh t).nodes, j ≤ p.tot
  size : p.tot = ∑ t ∈ Finset.range M, (sh t).size
  heap : ∀ t < M, HeapOrdered id (toHeap p (sh t))
  untouched : Untouched p
  bounded : Bounded p

section Inv

variable {M : ℕ} {p : Pool} {sh : ℕ → Shape} {t : ℕ}

theorem PoolInv.height_le (h : PoolInv M p sh) (ht : t < M) : (sh t).height ≤ p.tot := by
  refine (Shape.height_le_size _).trans ?_
  rw [h.size]
  exact Finset.single_le_sum (f := fun t => (sh t).size) (fun _ _ => Nat.zero_le _)
    (Finset.mem_range.mpr ht)

theorem PoolInv.stored_eq (h : PoolInv M p sh) (ht : t < M) :
    stored p t = elems (toHeap p (sh t)) := by
  rw [stored, ← h.root t ht, readTree_eq _ (h.rep t ht) (h.height_le ht)]

theorem PoolInv.ne_nil (h : PoolInv M p sh) (ht : t < M) : sh t ≠ .nil := by
  intro hnil
  have := h.root t ht
  rw [hnil] at this
  exact absurd this (by simp [Shape.root, treeRoot])

/-- The pool after the roots have been allocated. -/
theorem poolInv_init (M : ℕ) :
    PoolInv M (Pool.init M) fun t => .node (treeRoot t) fun _ => .nil where
  rep t _ := ⟨Nat.succ_ne_zero t, fun _ => rfl, fun _ => Set.notMem_empty _,
    fun _ _ _ => Set.disjoint_empty _, fun _ => trivial⟩
  root _ _ := rfl
  disjoint t _ u _ htu := by
    refine Set.disjoint_left.mpr ?_
    rintro j (rfl | ⟨_, hj⟩) (hj' | ⟨_, hj'⟩)
    · exact htu (Nat.succ.inj hj')
    · exact hj'
    · exact hj
    · exact hj
  le_tot t ht j hj := by
    rcases hj with rfl | ⟨_, hj⟩
    · exact ht
    · exact absurd hj (Set.notMem_empty _)
  size := by simp [Pool.init, Shape.size]
  heap t _ k := by
    have hnone : optPair ((TreeNode.blank).min k) = none := optPair_of_isEmpty rfl
    exact ⟨trivial, fun _ => rfl, fun v hv => absurd (hnone.symm.trans hv) (by simp)⟩
  untouched _ _ := rfl
  bounded _ _ := le_rfl

theorem stored_init (ht : t < M) : stored (Pool.init M) t = 0 := by
  rw [(poolInv_init M).stored_eq ht, toHeap_node]
  exact elems_node_eq_zero.mpr fun k => ⟨optPair_of_isEmpty rfl, rfl⟩

/-- A push leaves the nodes of the other trees alone: they are neither in this tree nor
new. -/
theorem PoolInv.push_frame (h : PoolInv M p sh) (ht : t < M) {q : Pool} {s : Shape}
    (hgrow : Grows p q (treeRoot t) (sh t) s) {u : ℕ} (hu : u < M) (hut : u ≠ t) :
    ∀ j ∈ (sh u).nodes, q.node j = p.node j := by
  intro j hj
  have hjt : j ∉ (sh t).nodes := fun hjt => Set.disjoint_left.mp (h.disjoint u hu t ht hut) hj hjt
  refine hgrow.frame j hjt (fun hj0 => hjt ?_) (h.le_tot u hu j hj)
  rw [hj0, ← h.root t ht]
  cases hsh : sh t with
  | nil => exact absurd hsh (h.ne_nil ht)
  | node i sub => exact Or.inl rfl

/-- A pop leaves the nodes of the other trees alone. -/
theorem PoolInv.pop_frame (h : PoolInv M p sh) (ht : t < M) {q : Pool} (hkeep : Keeps p q (sh t))
    {u : ℕ} (hu : u < M) (hut : u ≠ t) : ∀ j ∈ (sh u).nodes, q.node j = p.node j :=
  fun j hj => hkeep.frame j fun hjt => Set.disjoint_left.mp (h.disjoint u hu t ht hut) hj hjt

/-- The nodes of another tree are not in the one that has grown. -/
theorem PoolInv.push_apart (h : PoolInv M p sh) (ht : t < M) {q : Pool} {s : Shape}
    (hgrow : Grows p q (treeRoot t) (sh t) s) {u : ℕ} (hu : u < M) (hut : u ≠ t) :
    Disjoint (sh u).nodes s.nodes := by
  refine Set.disjoint_left.mpr fun j hj hjs => ?_
  rcases hgrow.nodes j hjs with hold | hnew
  · exact Set.disjoint_left.mp (h.disjoint u hu t ht hut) hj hold
  · have := h.le_tot u hu j hj
    omega

variable (sh) in
/-- The trees all together grow by what one of them does. -/
theorem sum_size_update (ht : t < M) (s : Shape) :
    ∑ u ∈ Finset.range M, (Function.update sh t s u).size + (sh t).size =
      ∑ u ∈ Finset.range M, (sh u).size + s.size := by
  have hmem := Finset.mem_range.mpr ht
  have hold := Finset.add_sum_erase (Finset.range M) (fun u => (sh u).size) hmem
  have hnew := Finset.add_sum_erase (Finset.range M)
    (fun u => (Function.update sh t s u).size) hmem
  have hrest : ∑ u ∈ (Finset.range M).erase t, (Function.update sh t s u).size =
      ∑ u ∈ (Finset.range M).erase t, (sh u).size := by
    refine Finset.sum_congr rfl fun u hu => ?_
    rw [Function.update_of_ne (Finset.ne_of_mem_erase hu)]
  simp only [Function.update_self] at hnew
  omega

/-- A tree that has grown takes the place of the old one. -/
theorem PoolInv.grow (h : PoolInv M p sh) (ht : t < M) {q : Pool} {s : Shape} {v : Pair}
    (hgrow : Grows p q (treeRoot t) (sh t) s) (hroot : s.root = treeRoot t)
    (htree : Push id (toHeap p (sh t)) v (toHeap q s)) (hbounded : Bounded q) :
    PoolInv M q (Function.update sh t s) := by
  have hother : ∀ u < M, u ≠ t → ∀ j ∈ (sh u).nodes, q.node j = p.node j :=
    fun u hu hut => h.push_frame ht hgrow hu hut
  refine ⟨fun u hu => ?_, fun u hu => ?_, fun u hu w hw huw => ?_, fun u hu j hj => ?_, ?_,
    fun u hu => ?_, hgrow.untouched, hbounded⟩
  · by_cases hut : u = t
    · rw [hut, Function.update_self]
      exact hgrow.rep
    · rw [Function.update_of_ne hut]
      exact rep_congr (hother u hu hut) (h.rep u hu)
  · by_cases hut : u = t
    · rw [hut, Function.update_self]
      exact hroot
    · rw [Function.update_of_ne hut]
      exact h.root u hu
  · by_cases hut : u = t
    · have hwt : w ≠ t := fun hwt => huw (hut.trans hwt.symm)
      rw [hut, Function.update_self, Function.update_of_ne hwt]
      exact (h.push_apart ht hgrow hw hwt).symm
    · by_cases hwt : w = t
      · rw [hwt, Function.update_self, Function.update_of_ne hut]
        exact h.push_apart ht hgrow hu hut
      · rw [Function.update_of_ne hut, Function.update_of_ne hwt]
        exact h.disjoint u hu w hw huw
  · by_cases hut : u = t
    · rw [hut, Function.update_self] at hj
      rcases hgrow.nodes j hj with hold | hnew
      · exact (h.le_tot t ht j hold).trans hgrow.le_tot
      · exact hnew.2
    · rw [Function.update_of_ne hut] at hj
      exact (h.le_tot u hu j hj).trans hgrow.le_tot
  · have hsize := hgrow.size
    have hsum := sum_size_update sh ht s
    rw [h.size] at hsize
    omega
  · by_cases hut : u = t
    · rw [hut, Function.update_self]
      exact htree.heapOrdered (h.heap t ht)
    · rw [Function.update_of_ne hut, toHeap_congr (hother u hu hut)]
      exact h.heap u hu

/-- **One push.** -/
theorem PoolInv.push (h : PoolInv M p sh) (ht : t < M) {v : Pair} (hv : v.first < inf) :
    ∃ q s, (∀ n, s.height ≤ n → p.push n (treeRoot t) v = some q) ∧
      p.push (p.tot + 1) (treeRoot t) v = some q ∧
      PoolInv M q (Function.update sh t s) ∧ Grows p q (treeRoot t) (sh t) s ∧
      stored q t = v ::ₘ stored p t ∧ ∀ u < M, u ≠ t → stored q u = stored p u := by
  have hempty : ¬v.IsEmpty := fun he => absurd (he ▸ hv : inf < inf) (lt_irrefl _)
  obtain ⟨q, s, hq, hroot, hgrow, htree⟩ := push_spec (sh t) (h.rep t ht) (h.ne_nil ht)
    (h.le_tot t ht) h.untouched hempty
  rw [h.root t ht] at hq hroot hgrow
  have hrun := hq (p.tot + 1) (hgrow.height_le.trans (Nat.succ_le_succ (h.height_le ht)))
  have hinv := h.grow ht hgrow hroot htree (bounded_push h.bounded hv.le hrun)
  refine ⟨q, s, hq, hrun, hinv, hgrow, ?_, fun u hu hut => ?_⟩
  · rw [hinv.stored_eq ht, h.stored_eq ht, Function.update_self]
    exact htree.elems_eq
  · rw [hinv.stored_eq hu, h.stored_eq hu, Function.update_of_ne hut,
      toHeap_congr (h.push_frame ht hgrow hu hut)]

/-- What is on top of a tree that holds something is no sentinel. -/
theorem PoolInv.top_first_ne (h : PoolInv M p sh) (ht : t < M) (hne : stored p t ≠ 0) :
    (p.top (treeRoot t)).first ≠ inf := by
  obtain ⟨q, -, -, htree, -⟩ := pop_spec (sh t) (h.rep t ht) (h.ne_nil ht) h.bounded
    ((h.height_le ht).trans (Nat.le_succ _))
  rw [h.root t ht] at htree
  intro he
  rw [optPair_of_isEmpty he] at htree
  rw [h.stored_eq ht] at hne
  exact hne (htree.elems_eq_zero (h.heap t ht))

/-- **One pop.** -/
theorem PoolInv.pop (h : PoolInv M p sh) (ht : t < M) :
    ∃ q, p.pop (p.tot + 1) (treeRoot t) = some (p.top (treeRoot t), q) ∧ PoolInv M q sh ∧
      Keeps p q (sh t) ∧
      (Counted p (sh t) → p.popEntersEmpty (p.tot + 1) (treeRoot t) = false → Counted q (sh t)) ∧
      (stored p t ≠ 0 → p.top (treeRoot t) ∈ stored p t ∧
        (∀ x ∈ stored p t, p.top (treeRoot t) ≤ x) ∧
        stored q t = (stored p t).erase (p.top (treeRoot t))) ∧
      (stored p t = 0 → (p.top (treeRoot t)).first = inf ∧ stored q t = 0) ∧
      ∀ u < M, u ≠ t → stored q u = stored p u := by
  obtain ⟨q, hq, hkeep, htree, hcount⟩ := pop_spec (sh t) (h.rep t ht) (h.ne_nil ht) h.bounded
    ((h.height_le ht).trans (Nat.le_succ _))
  rw [h.root t ht] at hq htree hcount
  have hother : ∀ u < M, u ≠ t → toHeap q (sh u) = toHeap p (sh u) :=
    fun u hu hut => toHeap_congr (h.pop_frame ht hkeep hu hut)
  have hinv : PoolInv M q sh := by
    refine ⟨fun u hu => hkeep.rep (h.rep u hu), h.root, h.disjoint, fun u hu j hj => ?_, ?_,
      fun u hu => ?_, fun j hj => ?_, (bounded_pop h.bounded hq).2⟩
    · rw [hkeep.tot]
      exact h.le_tot u hu j hj
    · rw [hkeep.tot, h.size]
    · by_cases hut : u = t
      · rw [hut]
        exact htree.heapOrdered (h.heap t ht)
      · rw [hother u hu hut]
        exact h.heap u hu
    · rw [hkeep.tot] at hj
      rw [hkeep.frame j fun hjt => absurd (h.le_tot t ht j hjt) (not_le.mpr hj)]
      exact h.untouched j hj
  refine ⟨q, hq, hinv, hkeep, hcount, fun hne => ?_, fun hzero => ?_, fun u hu hut => ?_⟩
  · have hfull : ¬(p.top (treeRoot t)).IsEmpty := h.top_first_ne ht hne
    rw [h.stored_eq ht]
    rw [optPair_of_not hfull] at htree
    have helems : p.top (treeRoot t) ::ₘ elems (toHeap q (sh t)) = elems (toHeap p (sh t)) :=
      htree.elems_eq
    refine ⟨?_, htree.key_le (h.heap t ht), ?_⟩
    · rw [← helems]
      exact Multiset.mem_cons_self _ _
    · rw [hinv.stored_eq ht, ← helems, Multiset.erase_cons_head]
  · rw [h.stored_eq ht] at hzero
    obtain ⟨hnone, hsame⟩ := htree.eq_of_elems_eq_zero hzero
    refine ⟨?_, by rw [hinv.stored_eq ht, hsame, hzero]⟩
    by_contra hfull
    rw [optPair_of_not hfull] at hnone
    exact absurd hnone (by simp)
  · rw [hinv.stored_eq hu, h.stored_eq hu, hother u hu hut]

end Inv

/-! ## Runs -/

/-- A call of `push` or `pop` on one of the trees. -/
inductive Call where
  | push (t : ℕ) (v : Pair)
  | pop (t : ℕ)
  deriving DecidableEq

/-- The call is on one of the `M` trees, and what it pushes has a rank below `inf`. -/
def Call.Valid (M : ℕ) : Call → Prop
  | .push t v => t < M ∧ v.first < inf
  | .pop t => t < M

instance (M : ℕ) : (c : Call) → Decidable (c.Valid M)
  | .push t v => inferInstanceAs (Decidable (t < M ∧ v.first < inf))
  | .pop t => inferInstanceAs (Decidable (t < M))

/-- The pool after a call. -/
def exec (p : Pool) : Call → Option Pool
  | .push t v => p.push (p.tot + 1) (treeRoot t) v
  | .pop t => (p.pop (p.tot + 1) (treeRoot t)).map Prod.snd

/-- The pool after a list of calls. -/
def run (M : ℕ) (cs : List Call) : Option Pool := cs.foldlM exec (Pool.init M)

theorem run_append_singleton (M : ℕ) (cs : List Call) (c : Call) :
    run M (cs ++ [c]) = (run M cs).bind fun p => exec p c := by
  rw [run, List.foldlM_append]
  cases hrun : List.foldlM exec (Pool.init M) cs <;> simp [run, hrun]

/-- The invariant holds after every list of calls. -/
theorem run_inv {M : ℕ} {cs : List Call} (h : ∀ c ∈ cs, c.Valid M) :
    ∃ p sh, run M cs = some p ∧ PoolInv M p sh := by
  induction cs using List.reverseRecOn with
  | nil => exact ⟨_, _, rfl, poolInv_init M⟩
  | append_singleton cs c ih =>
    obtain ⟨p, sh, hrun, hinv⟩ := ih fun x hx => h x (List.mem_append_left _ hx)
    have hc := h c (by simp)
    rw [run_append_singleton, hrun]
    cases c with
    | push t v =>
      obtain ⟨q, s, -, hq, hinv', -⟩ := hinv.push hc.1 hc.2
      exact ⟨q, _, hq, hinv'⟩
    | pop t =>
      obtain ⟨q, hq, hinv', -⟩ := hinv.pop hc
      exact ⟨q, sh, by simp [exec, hq], hinv'⟩

/-- **The reference trees are exact, independent priority queues.**  After every list of
calls on `M` trees with ranks below `inf`, starting from the initial pool: a push adds its
pair to its tree; a pop of a tree that is not empty answers the least pair of the tree in
lexicographic order and removes one copy of it; a pop of an empty tree answers a pair
whose first is `inf` and leaves the tree empty; neither changes any other tree; and `top`
is what a pop answers. -/
theorem reference_tree_exact (M : ℕ) (cs : List Call) (h : ∀ c ∈ cs, c.Valid M) :
    (∀ t < M, stored (Pool.init M) t = 0) ∧
    ∃ p, run M cs = some p ∧
      (∀ t < M, ∀ v : Pair, v.first < inf → ∃ q, exec p (.push t v) = some q ∧
        stored q t = v ::ₘ stored p t ∧ ∀ u < M, u ≠ t → stored q u = stored p u) ∧
      (∀ t < M, ∃ x q, p.pop (p.tot + 1) (treeRoot t) = some (x, q) ∧ exec p (.pop t) = some q ∧
        p.top (treeRoot t) = x ∧
        (stored p t ≠ 0 → x ∈ stored p t ∧ (∀ y ∈ stored p t, x ≤ y) ∧
          stored q t = (stored p t).erase x) ∧
        (stored p t = 0 → x.first = inf ∧ stored q t = 0) ∧
        ∀ u < M, u ≠ t → stored q u = stored p u) := by
  obtain ⟨p, sh, hrun, hinv⟩ := run_inv h
  refine ⟨fun t ht => stored_init ht, p, hrun, fun t ht v hv => ?_, fun t ht => ?_⟩
  · obtain ⟨q, s, -, hq, -, -, hself, hother⟩ := hinv.push ht hv
    exact ⟨q, hq, hself, hother⟩
  · obtain ⟨q, hq, -, -, -, hfull, hempty, hother⟩ := hinv.pop ht
    exact ⟨_, q, hq, by simp [exec, hq], rfl, hfull, hempty, hother⟩

/-- Two packets of one rank in tree 0 and one packet in tree 1: tree 0 answers the pair that
is smaller in its second component. -/
theorem reference_tree_exact_twoTrees :
    ∃ p q, run 2 [.push 0 ⟨5, 2⟩, .push 1 ⟨3, 9⟩, .push 0 ⟨5, 1⟩] = some p ∧
      p.pop (p.tot + 1) (treeRoot 0) = some (⟨5, 1⟩, q) ∧ stored q 1 = stored p 1 := by
  obtain ⟨-, p, hrun, -, hpop⟩ :=
    reference_tree_exact 2 [.push 0 ⟨5, 2⟩, .push 1 ⟨3, 9⟩, .push 0 ⟨5, 1⟩] (by decide)
  obtain ⟨x, q, hq, -, htop, -, -, hother⟩ := hpop 0 (by decide)
  have hx : (run 2 [.push 0 ⟨5, 2⟩, .push 1 ⟨3, 9⟩, .push 0 ⟨5, 1⟩]).map
      (fun p => p.top (treeRoot 0)) = some ⟨5, 1⟩ := by decide +kernel
  rw [hrun, Option.map_some, Option.some.injEq, htop] at hx
  exact ⟨p, q, hrun, hx ▸ hq, hother 1 (by decide) (by decide)⟩

end Reference

end VPifo
