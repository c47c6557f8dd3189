import Mathlib.Algebra.Order.BigOperators.Group.Finset
import Mathlib.Algebra.Order.Group.Multiset
import Mathlib.Data.Fintype.BigOperators
import Mathlib.Tactic.Abel

/-!
# Heap-ordered trees of slots

A node of a *slot tree* has a slot for every index `k : ι`, which is empty or
holds a value, and below every slot a sub-tree.  Such a tree is a priority queue
when two things hold at every node: an empty slot has nothing below it, and a
value is no larger than anything below it.  This file proves that, without
saying where a pushed value goes.

The steering is left open on purpose.  `Push key t v t'` says that `t'` arises
from `t` by inserting `v` along *some* path: an empty slot takes the value, and
an occupied slot keeps the smaller of the two values and hands the larger one
down.  Which slot is chosen at each node is a matter of balance, not of
correctness, so every counter that steers the insertion, right or wrong, is
outside this file.  `Pop key t o t'` is the converse: take a least slot, and
refill it with whatever the sub-tree below it gives up.

* `Push.elems_eq`, `Push.heapOrdered`: a push adds its value and nothing else.
* `Pop.elems_eq`, `Pop.key_le`, `Pop.elems_eq_zero`, `Pop.heapOrdered`: a pop
  takes a value of least key, exactly one copy of it, and answers `none` only on
  an empty tree.
* `Pop.eq_of_elems_eq_zero`: a pop of an empty tree changes nothing.
-/

namespace VPifo

/-- A tree whose nodes carry one slot and one sub-tree for each index `k : ι`. -/
inductive HeapTree (ι V : Type) where
  | nil : HeapTree ι V
  | node (slot : ι → Option V) (sub : ι → HeapTree ι V) : HeapTree ι V

namespace HeapTree

variable {ι V κ : Type} [Fintype ι]

/-- The value of a slot, as a multiset of at most one element. -/
def slotElems : Option V → Multiset V
  | none => 0
  | some v => {v}

@[simp] theorem slotElems_none : slotElems (none : Option V) = 0 := rfl

@[simp] theorem slotElems_some (v : V) : slotElems (some v) = {v} := rfl

theorem slotElems_eq_zero {o : Option V} : slotElems o = 0 ↔ o = none := by
  cases o <;> simp

/-- Everything stored in a tree. -/
def elems : HeapTree ι V → Multiset V
  | nil => 0
  | node s c => ∑ k, (slotElems (s k) + elems (c k))

@[simp] theorem elems_nil : elems (nil : HeapTree ι V) = 0 := rfl

theorem elems_node (s : ι → Option V) (c : ι → HeapTree ι V) :
    elems (node s c) = ∑ k, (slotElems (s k) + elems (c k)) := rfl

section Update

variable [DecidableEq ι]

/-- Replacing one slot and the sub-tree below it exchanges their elements and
keeps all the others. -/
theorem elems_update (s : ι → Option V) (c : ι → HeapTree ι V) (k : ι) (o : Option V)
    (t : HeapTree ι V) :
    elems (node (Function.update s k o) (Function.update c k t)) +
        (slotElems (s k) + elems (c k)) =
      elems (node s c) + (slotElems o + elems t) := by
  have hold := Finset.add_sum_erase Finset.univ
    (fun j => slotElems (s j) + elems (c j)) (Finset.mem_univ k)
  have hnew := Finset.add_sum_erase Finset.univ
    (fun j => slotElems (Function.update s k o j) + elems (Function.update c k t j))
    (Finset.mem_univ k)
  have hrest : ∑ j ∈ Finset.univ.erase k,
        (slotElems (Function.update s k o j) + elems (Function.update c k t j)) =
      ∑ j ∈ Finset.univ.erase k, (slotElems (s j) + elems (c j)) := by
    refine Finset.sum_congr rfl fun j hj => ?_
    have hjk : j ≠ k := Finset.ne_of_mem_erase hj
    rw [Function.update_of_ne hjk, Function.update_of_ne hjk]
  simp only [Function.update_self] at hnew
  rw [elems_node, elems_node, ← hold, ← hnew, hrest]
  abel

end Update

theorem mem_elems_node {s : ι → Option V} {c : ι → HeapTree ι V} {u : V} :
    u ∈ elems (node s c) ↔ ∃ k, s k = some u ∨ u ∈ elems (c k) := by
  rw [elems_node, Multiset.mem_sum]
  constructor
  · rintro ⟨k, -, hk⟩
    refine ⟨k, ?_⟩
    rcases Multiset.mem_add.mp hk with h | h
    · cases hs : s k with
      | none => rw [hs] at h; exact absurd h (Multiset.notMem_zero u)
      | some v => rw [hs, slotElems_some, Multiset.mem_singleton] at h; exact Or.inl (by rw [h])
    · exact Or.inr h
  · rintro ⟨k, h | h⟩
    · exact ⟨k, Finset.mem_univ k, Multiset.mem_add.mpr (Or.inl (by rw [h]; simp))⟩
    · exact ⟨k, Finset.mem_univ k, Multiset.mem_add.mpr (Or.inr h)⟩

theorem elems_node_eq_zero {s : ι → Option V} {c : ι → HeapTree ι V} :
    elems (node s c) = 0 ↔ ∀ k, s k = none ∧ elems (c k) = 0 := by
  rw [elems_node, Finset.sum_eq_zero_iff]
  constructor
  · intro h k
    have hk := h k (Finset.mem_univ k)
    rw [add_eq_zero, slotElems_eq_zero] at hk
    exact hk
  · intro h k _
    rw [(h k).1, (h k).2, slotElems_none, add_zero]

/-! ## Heap order -/

/-- Heap order: an empty slot has an empty sub-tree, and a value is no larger
than any value below it. -/
def HeapOrdered [LE κ] (key : V → κ) : HeapTree ι V → Prop
  | nil => True
  | node s c => ∀ k, HeapOrdered key (c k) ∧ (s k = none → elems (c k) = 0) ∧
      ∀ v, s k = some v → ∀ u ∈ elems (c k), key v ≤ key u

section Preorder

variable [DecidableEq ι] [Preorder κ] {key : V → κ}

/-- Heap order survives the exchange of one slot and its sub-tree, as long as the
new pair is in order by itself. -/
theorem HeapOrdered.update {s : ι → Option V} {c : ι → HeapTree ι V}
    (h : HeapOrdered key (node s c)) {k : ι} {o : Option V} {t : HeapTree ι V}
    (ht : HeapOrdered key t) (hnone : o = none → elems t = 0)
    (hsome : ∀ v, o = some v → ∀ u ∈ elems t, key v ≤ key u) :
    HeapOrdered key (node (Function.update s k o) (Function.update c k t)) := by
  intro j
  by_cases hj : j = k
  · subst hj
    simp only [Function.update_self]
    exact ⟨ht, hnone, hsome⟩
  · rw [Function.update_of_ne hj, Function.update_of_ne hj]
    exact h j

/-! ## Insertion along an arbitrary path -/

/-- `Push key t v t'`: inserting `v` into `t` along some path gives `t'`.  An
empty slot takes the value; an occupied one keeps the smaller value and hands the
larger one to its sub-tree. -/
inductive Push (key : V → κ) : HeapTree ι V → V → HeapTree ι V → Prop where
  | grow (v : V) (k : ι) :
      Push key nil v (node (Function.update (fun _ => none) k (some v)) fun _ => nil)
  | place {s : ι → Option V} {c : ι → HeapTree ι V} (v : V) {k : ι} (hk : s k = none) :
      Push key (node s c) v (node (Function.update s k (some v)) c)
  | keep {s : ι → Option V} {c : ι → HeapTree ι V} {v u : V} {k : ι} {t : HeapTree ι V}
      (hk : s k = some u) (hle : key u ≤ key v) (hdown : Push key (c k) v t) :
      Push key (node s c) v (node s (Function.update c k t))
  | swap {s : ι → Option V} {c : ι → HeapTree ι V} {v u : V} {k : ι} {t : HeapTree ι V}
      (hk : s k = some u) (hle : key v ≤ key u) (hdown : Push key (c k) u t) :
      Push key (node s c) v (node (Function.update s k (some v)) (Function.update c k t))

/-- **A push adds its value and nothing else.** -/
theorem Push.elems_eq {t t' : HeapTree ι V} {v : V} (h : Push key t v t') :
    elems t' = v ::ₘ elems t := by
  induction h with
  | grow v k =>
    have h := elems_update (fun _ => none) (fun _ : ι => (nil : HeapTree ι V)) k (some v) nil
    have hz : elems (node (fun _ : ι => (none : Option V)) fun _ => nil) = 0 :=
      elems_node_eq_zero.mpr fun _ => ⟨rfl, rfl⟩
    rw [Function.update_eq_self, hz] at h
    simpa using h
  | @place s c v k hk =>
    have h := elems_update s c k (some v) (c k)
    rw [Function.update_eq_self, hk] at h
    simp only [slotElems_none, zero_add, slotElems_some] at h
    rw [← add_assoc] at h
    rw [add_right_cancel h, add_comm, Multiset.singleton_add]
  | @keep s c v u k t hk _ _ ih =>
    have h := elems_update s c k (some u) t
    rw [← hk, Function.update_eq_self, ih, hk] at h
    have h' : elems (node s (Function.update c k t)) + ({u} + elems (c k)) =
        v ::ₘ elems (node s c) + ({u} + elems (c k)) := by
      rw [slotElems_some] at h
      rw [h, Multiset.cons_add, ← Multiset.singleton_add v (elems (c k)),
        ← Multiset.singleton_add v]
      abel
    exact add_right_cancel h'
  | @swap s c v u k t hk _ _ ih =>
    have h := elems_update s c k (some v) t
    rw [ih, hk, slotElems_some, slotElems_some] at h
    have h' : elems (node (Function.update s k (some v)) (Function.update c k t)) +
        ({u} + elems (c k)) = v ::ₘ elems (node s c) + ({u} + elems (c k)) := by
      rw [h, ← Multiset.singleton_add u (elems (c k)), ← Multiset.singleton_add v]
      abel
    exact add_right_cancel h'

/-- **A push keeps heap order.** -/
theorem Push.heapOrdered {t t' : HeapTree ι V} {v : V} (h : Push key t v t')
    (ht : HeapOrdered key t) : HeapOrdered key t' := by
  induction h with
  | grow v k =>
    have hblank : HeapOrdered key (node (fun _ : ι => (none : Option V)) fun _ => nil) :=
      fun _ => ⟨trivial, fun _ => rfl, fun _ hv => by simp at hv⟩
    have h := hblank.update (k := k) (o := some v) (t := nil) trivial (fun _ => rfl)
      (fun _ _ u hu => absurd hu (Multiset.notMem_zero u))
    rwa [Function.update_eq_self] at h
  | @place s c v k hk =>
    have h := ht.update (k := k) (o := some v) (t := c k) (ht k).1 (fun _ => (ht k).2.1 hk)
      (fun _ _ u hu => by rw [(ht k).2.1 hk] at hu; exact absurd hu (Multiset.notMem_zero u))
    rwa [Function.update_eq_self] at h
  | @keep s c v u k t hk hle hdown ih =>
    have h := ht.update (k := k) (o := some u) (t := t) (ih (ht k).1) (by simp) (by
      intro w hw x hx
      rw [hdown.elems_eq, Multiset.mem_cons] at hx
      cases hw
      rcases hx with rfl | hx
      · exact hle
      · exact (ht k).2.2 u hk x hx)
    rwa [← hk, Function.update_eq_self] at h
  | @swap s c v u k t hk hle hdown ih =>
    refine ht.update (ih (ht k).1) (by simp) ?_
    intro w hw x hx
    rw [hdown.elems_eq, Multiset.mem_cons] at hx
    cases hw
    rcases hx with rfl | hx
    · exact hle
    · exact hle.trans ((ht k).2.2 u hk x hx)

/-! ## Extraction of a least value -/

/-- Slot `k` is a least slot of a node: every occupied slot of the node shows that
slot `k` is occupied by a value that is no larger. -/
def IsLeast (key : V → κ) (s : ι → Option V) (k : ι) : Prop :=
  ∀ j v, s j = some v → ∃ u, s k = some u ∧ key u ≤ key v

/-- `Pop key t o t'`: taking a least slot out of `t`, and refilling it from its
sub-tree all the way down, answers `o` and leaves `t'`. -/
inductive Pop (key : V → κ) : HeapTree ι V → Option V → HeapTree ι V → Prop where
  | nil : Pop key nil none nil
  | node {s : ι → Option V} {c : ι → HeapTree ι V} {k : ι} {o : Option V} {t : HeapTree ι V}
      (hk : IsLeast key s k) (hdown : Pop key (c k) o t) :
      Pop key (node s c) (s k) (node (Function.update s k o) (Function.update c k t))

/-- **A pop removes what it answers and nothing else.** -/
theorem Pop.elems_eq {t t' : HeapTree ι V} {o : Option V} (h : Pop key t o t') :
    slotElems o + elems t' = elems t := by
  induction h with
  | nil => rfl
  | @node s c k o t _ _ ih =>
    have h := elems_update s c k o t
    rw [ih, ← add_assoc] at h
    rw [add_comm]
    exact add_right_cancel h

/-- A pop answers `none` only on an empty tree. -/
theorem Pop.elems_eq_zero {t t' : HeapTree ι V} (h : Pop key t none t')
    (ht : HeapOrdered key t) : elems t = 0 := by
  generalize ho : (none : Option V) = o at h
  cases h with
  | nil => rfl
  | @node s c k _ _ hk _ =>
    rw [elems_node_eq_zero]
    intro j
    have hj : s j = none := by
      cases hs : s j with
      | none => rfl
      | some v =>
        obtain ⟨u, hu, -⟩ := hk j v hs
        rw [hu] at ho
        exact absurd ho (by simp)
    exact ⟨hj, (ht j).2.1 hj⟩

/-- **A pop answers a value of least key.** -/
theorem Pop.key_le {t t' : HeapTree ι V} {v : V} (h : Pop key t (some v) t')
    (ht : HeapOrdered key t) : ∀ u ∈ elems t, key v ≤ key u := by
  generalize ho : some v = o at h
  cases h with
  | nil => exact absurd ho (by simp)
  | @node s c k _ _ hk _ =>
    intro u hu
    -- the least slot beats the slot `u` is in or below, and heap order does the rest
    obtain ⟨j, hj⟩ := mem_elems_node.mp hu
    cases hs : s j with
    | none =>
      rcases hj with hj | hj
      · rw [hs] at hj; exact absurd hj (by simp)
      · rw [(ht j).2.1 hs] at hj; exact absurd hj (Multiset.notMem_zero u)
    | some w =>
      obtain ⟨x, hx, hle⟩ := hk j w hs
      rw [hx, Option.some.injEq] at ho
      subst ho
      rcases hj with hj | hj
      · rw [hs, Option.some.injEq] at hj
        exact hj ▸ hle
      · exact hle.trans ((ht j).2.2 w hs u hj)

/-- **A pop keeps heap order.** -/
theorem Pop.heapOrdered {t t' : HeapTree ι V} {o : Option V} (h : Pop key t o t')
    (ht : HeapOrdered key t) : HeapOrdered key t' := by
  induction h with
  | nil => trivial
  | @node s c k o t _ hdown ih =>
    refine ht.update (ih (ht k).1) ?_ ?_
    · intro ho
      subst ho
      have h := hdown.elems_eq
      rw [hdown.elems_eq_zero (ht k).1, slotElems_none, zero_add] at h
      exact h
    · intro v hv u hu
      subst hv
      refine hdown.key_le (ht k).1 u ?_
      rw [← hdown.elems_eq]
      exact Multiset.mem_add.mpr (Or.inr hu)

/-- A pop of an empty tree answers `none` and leaves the tree as it is. -/
theorem Pop.eq_of_elems_eq_zero {t t' : HeapTree ι V} {o : Option V} (h : Pop key t o t')
    (ht : elems t = 0) : o = none ∧ t' = t := by
  induction h with
  | nil => exact ⟨rfl, rfl⟩
  | @node s c k o t _ _ ih =>
    have hk := elems_node_eq_zero.mp ht k
    obtain ⟨ho, hc⟩ := ih hk.2
    refine ⟨hk.1, ?_⟩
    rw [ho, hc, ← hk.1, Function.update_eq_self, Function.update_eq_self]

end Preorder

end HeapTree

end VPifo
