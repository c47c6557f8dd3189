import VPifo.Lib.HeapTree
import VPifo.Hardware.Sequential
import Mathlib.Algebra.Order.Ring.GeomSum

/-!
# The sequential tree is a bounded priority queue

`toTree` reads a memory as a slot tree of `VPifo.Lib.HeapTree`: a slot whose priority is
all-ones is empty.  The library then says what an insertion along some path and an
extraction do to the elements and to heap order, so that two things are left for this
file.

The first is that the descents of the hardware are such an insertion and such an
extraction (`push_spec`, `pop_spec`).  The second is the balance.  The counters steer a
push to the slot with the fewest elements below it, so a push can fall off the last level
only when every slot of the tree is full.  That needs exact counters, which is why they
are part of the invariant: `Sound` says that every counter is the number of elements of
its slot and of the sub-tree below, and that an empty slot is all-ones in its metadata
as well.

`Sound` is kept by a push only if the counters have room.  The room is asked for at the
root, where the counters are largest.
-/

namespace VPifo

open HeapTree

section Queue

variable {o : Order} {W : Widths}

/-- A value, unless it stands for nothing. -/
def optVal (v : Val W) : Option (Val W) := if v.IsEmpty then none else some v

/-- The order of the queue. -/
def key (v : Val W) : ℕ := v.priority.toNat

theorem optVal_of_isEmpty {v : Val W} (h : v.IsEmpty) : optVal v = none := if_pos h

theorem optVal_of_not {v : Val W} (h : ¬v.IsEmpty) : optVal v = some v := if_neg h

theorem optVal_eq_none {v : Val W} : optVal v = none ↔ v.IsEmpty := by
  unfold optVal
  split <;> simp_all

theorem optVal_eq_some {v u : Val W} : optVal v = some u ↔ ¬v.IsEmpty ∧ v = u := by
  unfold optVal
  split <;> simp_all

/-- A value that is not empty goes before every empty one. -/
theorem not_isEmpty_of_key_le {v u : Val W} (h : key v ≤ key u) (hu : ¬u.IsEmpty) :
    ¬v.IsEmpty := by
  intro hv
  refine hu (BitVec.eq_of_toNat_eq (le_antisymm ?_ ?_))
  · rw [BitVec.toNat_allOnes]
    have := u.priority.isLt
    omega
  · rw [key, hv] at h
    exact h

/-- The sub-tree of `n` levels at node `a` of level `l`. -/
def toTree (m : Mem o W) : ℕ → ℕ → ℕ → HeapTree (Fin o.D) (Val W)
  | 0, _, _ => .nil
  | n + 1, l, a => .node (fun k => optVal (m l a k).pifoVal)
      fun k => toTree m n (l + 1) (o.D * a + k)

/-- The elements of slot `k` of a node and of the sub-tree below it, `n` levels in all. -/
def slotCount (m : Mem o W) : ℕ → ℕ → ℕ → Fin o.D → ℕ
  | 0, _, _, _ => 0
  | n + 1, l, a, k => (slotElems (optVal (m l a k).pifoVal)).card +
      (elems (toTree m n (l + 1) (o.D * a + k))).card

/-- Every counter is exact, and an empty slot is all-ones. -/
def Sound (m : Mem o W) : ℕ → ℕ → ℕ → Prop
  | 0, _, _ => True
  | n + 1, l, a => ∀ k : Fin o.D,
      (m l a k).subTreeSize.toNat = slotCount m (n + 1) l a k ∧
      ((m l a k).pifoVal.IsEmpty → (m l a k).pifoVal = Val.ones) ∧
      Sound m n (l + 1) (o.D * a + k)

/-- The elements of a tree of `L` levels. -/
def stored (L : ℕ) (m : Mem o W) : Multiset (Val W) := elems (toTree m L 0 0)

/-! ## Capacity -/

/-- What a tree of `L` levels can hold. -/
def capacity (o : Order) (L : ℕ) : ℕ := o.D * (o.D ^ L - 1) / (o.D - 1)

theorem capacity_eq_sum (o : Order) (L : ℕ) :
    capacity o L = o.D * ∑ i ∈ Finset.range L, o.D ^ i := by
  rw [capacity, Nat.geomSum_eq o.two_le_D,
    Nat.mul_div_assoc _ (by simpa using Nat.sub_dvd_pow_sub_pow o.D 1 L)]

@[simp] theorem capacity_zero (o : Order) : capacity o 0 = 0 := by
  rw [capacity_eq_sum]
  rfl

theorem capacity_succ (o : Order) (n : ℕ) : capacity o (n + 1) = o.D * (1 + capacity o n) := by
  rw [capacity_eq_sum, capacity_eq_sum, Finset.sum_range_succ', pow_zero, Nat.add_comm,
    Finset.mul_sum]
  simp only [pow_succ']

theorem card_slotElems_le {V : Type} (x : Option V) : (slotElems x).card ≤ 1 := by
  cases x <;> simp

theorem card_elems_succ (m : Mem o W) (n l a : ℕ) :
    (elems (toTree m (n + 1) l a)).card = ∑ k, slotCount m (n + 1) l a k := by
  rw [toTree, elems_node, Multiset.card_sum]
  exact Finset.sum_congr rfl fun k _ => Multiset.card_add _ _

/-- A memory never holds more than its slots. -/
theorem card_elems_le (m : Mem o W) (n : ℕ) :
    ∀ l a, (elems (toTree m n l a)).card ≤ capacity o n := by
  induction n with
  | zero => exact fun _ _ => Nat.zero_le _
  | succ n ih =>
    intro l a
    rw [card_elems_succ, capacity_succ]
    calc ∑ k, slotCount m (n + 1) l a k ≤ ∑ _k : Fin o.D, (1 + capacity o n) :=
          Finset.sum_le_sum fun k _ => Nat.add_le_add (card_slotElems_le _) (ih _ _)
      _ = o.D * (1 + capacity o n) := by simp

theorem slotCount_le (m : Mem o W) (n l a : ℕ) (k : Fin o.D) :
    slotCount m (n + 1) l a k ≤ 1 + capacity o n :=
  Nat.add_le_add (card_slotElems_le _) (card_elems_le m n _ _)

/-! ## Descents stay below their node -/

/-- Word `a'` of level `l'` is node `a` of level `l` or below it. -/
def InSub (o : Order) (l a l' a' : ℕ) : Prop := l ≤ l' ∧ a' / o.D ^ (l' - l) = a

theorem inSub_self (l a : ℕ) : InSub o l a l a := ⟨le_rfl, by simp⟩

theorem InSub.of_child {l a l' a' : ℕ} {k : Fin o.D} (h : InSub o (l + 1) (o.D * a + k) l' a') :
    InSub o l a l' a' := by
  obtain ⟨hl, ha⟩ := h
  refine ⟨by omega, ?_⟩
  rw [show l' - l = l' - (l + 1) + 1 by omega, Nat.pow_succ, ← Nat.div_div_eq_div_mul, ha,
    Nat.mul_add_div o.D_pos, Nat.div_eq_of_lt k.isLt, Nat.add_zero]

theorem not_inSub_child {l a : ℕ} {j k : Fin o.D} (hjk : j ≠ k) {l' a' : ℕ}
    (h : InSub o (l + 1) (o.D * a + j) l' a') : ¬InSub o (l + 1) (o.D * a + k) l' a' := by
  intro h'
  have := h.2.symm.trans h'.2
  exact hjk (Fin.ext (by omega))

/-- The sub-tree depends on the words below its node only. -/
theorem toTree_congr {m m' : Mem o W} (n : ℕ) : ∀ {l a : ℕ},
    (∀ l' a', InSub o l a l' a' → m' l' a' = m l' a') → toTree m' n l a = toTree m n l a := by
  induction n with
  | zero => exact fun _ => rfl
  | succ n ih =>
    intro l a h
    rw [toTree, toTree, h l a (inSub_self l a)]
    congr 1
    funext k
    exact ih fun l' a' hs => h l' a' hs.of_child

theorem slotCount_congr {m m' : Mem o W} (n : ℕ) {l a : ℕ}
    (h : ∀ l' a', InSub o l a l' a' → m' l' a' = m l' a') (k : Fin o.D) :
    slotCount m' n l a k = slotCount m n l a k := by
  cases n with
  | zero => rfl
  | succ n =>
    rw [slotCount, slotCount, h l a (inSub_self l a),
      toTree_congr n fun l' a' hs => h l' a' hs.of_child]

theorem sound_congr {m m' : Mem o W} (n : ℕ) : ∀ {l a : ℕ},
    (∀ l' a', InSub o l a l' a' → m' l' a' = m l' a') → Sound m n l a → Sound m' n l a := by
  induction n with
  | zero => exact fun _ _ => trivial
  | succ n ih =>
    intro l a h hs k
    obtain ⟨h1, h2, h3⟩ := hs k
    rw [slotCount_congr (n + 1) h, h l a (inSub_self l a)]
    exact ⟨h1, h2, ih (fun l' a' hs' => h l' a' hs'.of_child) h3⟩

theorem descendPush_frame (n : ℕ) : ∀ {l a : ℕ} {v : Val W} {m : Mem o W} {l' a' : ℕ},
    ¬InSub o l a l' a' → (descendPush n l a v m).1 l' a' = m l' a' := by
  induction n with
  | zero => exact fun _ => rfl
  | succ n ih =>
    intro l a v m l' a' h
    have hne : ¬(l' = l ∧ a' = a) := by
      rintro ⟨rfl, rfl⟩
      exact h (inSub_self _ _)
    rw [descendPush]
    split
    · exact Mem.write_of_ne _ _ hne
    · exact (ih fun hs => h (InSub.of_child (k := minSubTree (m l a)) hs)).trans
        (Mem.write_of_ne _ _ hne)

theorem descendPop_frame (n : ℕ) : ∀ {l a : ℕ} {m : Mem o W} {l' a' : ℕ},
    ¬InSub o l a l' a' → (descendPop n l a m).1 l' a' = m l' a' := by
  induction n with
  | zero => exact fun _ => rfl
  | succ n ih =>
    intro l a m l' a' h
    have hne : ¬(l' = l ∧ a' = a) := by
      rintro ⟨rfl, rfl⟩
      exact h (inSub_self _ _)
    rw [descendPop]
    exact (Mem.write_of_ne _ _ hne).trans
      (ih fun hs => h (InSub.of_child (k := minDataPort (m l a)) hs))

/-! ## Changing one slot -/

/-- `m'` arises from `m` by putting `s` into slot `k` of node `a` of level `l` and by
changes in the sub-tree below that slot. -/
structure ChangesAt (m m' : Mem o W) (l a : ℕ) (k : Fin o.D) (s : Slot W) : Prop where
  word : m' l a = Function.update (m l a) k s
  rest : ∀ j ≠ k, ∀ l' a', InSub o (l + 1) (o.D * a + j) l' a' → m' l' a' = m l' a'

section Change

variable {m m' : Mem o W} {l a : ℕ} {k : Fin o.D} {s : Slot W}

theorem ChangesAt.toTree_eq (h : ChangesAt m m' l a k s) (n : ℕ) :
    toTree m' (n + 1) l a = .node
      (Function.update (fun j => optVal (m l a j).pifoVal) k (optVal s.pifoVal))
      (Function.update (fun j : Fin o.D => toTree m n (l + 1) (o.D * a + j)) k
        (toTree m' n (l + 1) (o.D * a + k))) := by
  rw [toTree, h.word]
  congr 1
  · funext j
    by_cases hj : j = k
    · subst hj
      rw [Function.update_self, Function.update_self]
    · rw [Function.update_of_ne hj, Function.update_of_ne hj]
  · funext j
    by_cases hj : j = k
    · subst hj
      rw [Function.update_self]
    · rw [Function.update_of_ne hj, toTree_congr n (h.rest j hj)]

theorem ChangesAt.slotCount_self (h : ChangesAt m m' l a k s) (n : ℕ) :
    slotCount m' (n + 1) l a k =
      (slotElems (optVal s.pifoVal)).card + (elems (toTree m' n (l + 1) (o.D * a + k))).card := by
  rw [slotCount, h.word, Function.update_self]

/-- The invariant of a node whose slot `k` has changed. -/
theorem ChangesAt.sound (h : ChangesAt m m' l a k s) {n : ℕ} (hs : Sound m (n + 1) l a)
    (hcount : s.subTreeSize.toNat = slotCount m' (n + 1) l a k)
    (hempty : s.pifoVal.IsEmpty → s.pifoVal = Val.ones)
    (hbelow : Sound m' n (l + 1) (o.D * a + k)) : Sound m' (n + 1) l a := by
  intro j
  by_cases hj : j = k
  · subst hj
    rw [h.word, Function.update_self]
    exact ⟨hcount, hempty, hbelow⟩
  · obtain ⟨h1, h2, h3⟩ := hs j
    have hcnt : slotCount m' (n + 1) l a j = slotCount m (n + 1) l a j := by
      rw [slotCount, slotCount, h.word, Function.update_of_ne hj, toTree_congr n (h.rest j hj)]
    rw [hcnt, h.word, Function.update_of_ne hj]
    exact ⟨h1, h2, sound_congr n (h.rest j hj) h3⟩

end Change

/-- A word of level `l` is not below a node of level `l + 1`. -/
theorem not_inSub_above {l a b : ℕ} : ¬InSub o (l + 1) b l a := fun h => by
  have := h.1
  omega

theorem write_below {m : Mem o W} {l a b : ℕ} (w : Node o W) {l' a' : ℕ}
    (h : InSub o (l + 1) b l' a') : m.write l a w l' a' = m l' a' :=
  Mem.write_of_level_ne m w (by have := h.1; omega)

theorem slotCount_le_card (m : Mem o W) (n l a : ℕ) (k : Fin o.D) :
    slotCount m n l a k ≤ (elems (toTree m n l a)).card := by
  cases n with
  | zero => exact Nat.zero_le _
  | succ n =>
    rw [card_elems_succ]
    exact Finset.single_le_sum (f := fun k => slotCount m (n + 1) l a k)
      (fun _ _ => Nat.zero_le _) (Finset.mem_univ k)

/-- **Balance.**  In a node that is not full, the slot with the smallest counter has
room. -/
theorem slotCount_minSubTree_lt {m : Mem o W} {n l a : ℕ} (hs : Sound m (n + 1) l a)
    (hcap : (elems (toTree m (n + 1) l a)).card < capacity o (n + 1)) :
    slotCount m (n + 1) l a (minSubTree (m l a)) < 1 + capacity o n := by
  by_contra hge
  rw [not_lt] at hge
  have hall : ∀ j : Fin o.D, 1 + capacity o n ≤ slotCount m (n + 1) l a j := by
    intro j
    have hmin := minSubTree_le (m l a) j
    rw [(hs _).1, (hs j).1] at hmin
    exact hge.trans hmin
  have hsum : o.D * (1 + capacity o n) ≤ ∑ j, slotCount m (n + 1) l a j := by
    calc o.D * (1 + capacity o n) = ∑ _j : Fin o.D, (1 + capacity o n) := by simp
      _ ≤ ∑ j, slotCount m (n + 1) l a j := Finset.sum_le_sum fun j _ => hall j
  rw [card_elems_succ, capacity_succ] at hcap
  omega

/-! ## A push -/

/-- The three things a push can do at a node. -/
theorem pushNode_cases (w : Node o W) (v : Val W) :
    ((w (minSubTree w)).pifoVal.IsEmpty ∧ pushNode w v =
      (Function.update w (minSubTree w) ⟨(w (minSubTree w)).subTreeSize + 1, v⟩, none)) ∨
    (¬(w (minSubTree w)).pifoVal.IsEmpty ∧ key v ≤ key (w (minSubTree w)).pifoVal ∧
      pushNode w v =
        (Function.update w (minSubTree w) ⟨(w (minSubTree w)).subTreeSize + 1, v⟩,
          some (w (minSubTree w)).pifoVal)) ∨
    (¬(w (minSubTree w)).pifoVal.IsEmpty ∧ key (w (minSubTree w)).pifoVal ≤ key v ∧
      pushNode w v =
        (Function.update w (minSubTree w) ⟨(w (minSubTree w)).subTreeSize + 1,
          (w (minSubTree w)).pifoVal⟩, some v)) := by
  by_cases hempty : (w (minSubTree w)).pifoVal.IsEmpty
  · refine .inl ⟨hempty, ?_⟩
    have hp : (w (minSubTree w)).pifoVal.priority = BitVec.allOnes _ := hempty
    simp [pushNode, hp]
  · have hp : (w (minSubTree w)).pifoVal.priority ≠ BitVec.allOnes _ := hempty
    by_cases hlt : v.priority < (w (minSubTree w)).pifoVal.priority
    · refine .inr (.inl ⟨hempty, le_of_lt hlt, ?_⟩)
      simp [pushNode, hp, hlt]
    · refine .inr (.inr ⟨hempty, BitVec.not_lt.mp hlt, ?_⟩)
      simp [pushNode, hp, hlt]

theorem toNat_add_one {x : BitVec W.CTW} (h : x.toNat + 1 < 2 ^ W.CTW) :
    (x + 1).toNat = x.toNat + 1 := by
  have hone : (1 : BitVec W.CTW).toNat = 1 := Nat.mod_eq_of_lt (show 1 < 2 ^ W.CTW by omega)
  rw [BitVec.toNat_add, hone, Nat.mod_eq_of_lt h]

/-- A push that goes on below the chosen slot. -/
theorem descendPush_some {n l a : ℕ} {v u : Val W} {m : Mem o W} {s : Slot W}
    (h : pushNode (m l a) v = (Function.update (m l a) (minSubTree (m l a)) s, some u)) :
    descendPush (n + 1) l a v m =
      descendPush n (l + 1) (o.D * a + minSubTree (m l a)) u
        (m.write l a (Function.update (m l a) (minSubTree (m l a)) s)) := by
  rw [descendPush, h]
  rfl

theorem changesAt_write (m : Mem o W) (l a : ℕ) (k : Fin o.D) (s : Slot W) :
    ChangesAt m (m.write l a (Function.update (m l a) k s)) l a k s :=
  ⟨Mem.write_self _ _ _ _, fun _ _ _ _ hs => write_below _ hs⟩

/-- A descent below slot `k` after the slot was written. -/
theorem changesAt_descendPush (m : Mem o W) (n l a : ℕ) (k : Fin o.D) (s : Slot W) (u : Val W) :
    ChangesAt m (descendPush n (l + 1) (o.D * a + k) u
      (m.write l a (Function.update (m l a) k s))).1 l a k s where
  word := by rw [descendPush_frame n not_inSub_above, Mem.write_self]
  rest j hj l' a' hs := by rw [descendPush_frame n (not_inSub_child hj hs), write_below _ hs]

/-- What a push guarantees for the sub-tree it enters. -/
structure PushOk (n l a : ℕ) (v : Val W) (m : Mem o W) : Prop where
  kept : (descendPush n l a v m).2 = none
  tree : Push key (toTree m n l a) v (toTree (descendPush n l a v m).1 n l a)
  sound : (∀ k, slotCount (descendPush n l a v m).1 n l a k < 2 ^ W.CTW) →
    Sound (descendPush n l a v m).1 n l a

/-- The step of `push_spec` when the chosen slot is occupied: it keeps `x` and sends `u`
down. -/
theorem pushOk_of_below {n l a : ℕ} {v x u : Val W} {m : Mem o W} (hs : Sound m (n + 1) l a)
    (hocc : ¬(m l a (minSubTree (m l a))).pifoVal.IsEmpty) (hx : ¬x.IsEmpty)
    (hnode : pushNode (m l a) v = (Function.update (m l a) (minSubTree (m l a))
      ⟨(m l a (minSubTree (m l a))).subTreeSize + 1, x⟩, some u))
    (hbelow : PushOk n (l + 1) (o.D * a + minSubTree (m l a)) u
      (m.write l a (Function.update (m l a) (minSubTree (m l a))
        ⟨(m l a (minSubTree (m l a))).subTreeSize + 1, x⟩)))
    (htree : ∀ t, Push key (toTree m n (l + 1) (o.D * a + minSubTree (m l a))) u t →
      Push key (toTree m (n + 1) l a) v (.node
        (Function.update (fun j => optVal (m l a j).pifoVal) (minSubTree (m l a)) (some x))
        (Function.update (fun j : Fin o.D => toTree m n (l + 1) (o.D * a + j))
          (minSubTree (m l a)) t))) :
    PushOk (n + 1) l a v m := by
  have hdesc := descendPush_some (n := n) hnode
  have hchg := changesAt_descendPush m n l a (minSubTree (m l a))
    ⟨(m l a (minSubTree (m l a))).subTreeSize + 1, x⟩ u
  rw [← hdesc] at hchg
  have hsame : toTree (m.write l a (Function.update (m l a) (minSubTree (m l a))
      ⟨(m l a (minSubTree (m l a))).subTreeSize + 1, x⟩)) n (l + 1)
        (o.D * a + minSubTree (m l a)) =
      toTree m n (l + 1) (o.D * a + minSubTree (m l a)) :=
    toTree_congr n fun l' a' h => write_below _ h
  have hsub := hbelow.tree
  rw [hsame, ← hdesc] at hsub
  refine ⟨by rw [hdesc]; exact hbelow.kept, ?_, fun hroom => ?_⟩
  · rw [hchg.toTree_eq, optVal_of_not hx]
    exact htree _ hsub
  · -- the slot has one element more below it, and the counter has room for it
    have hcnt : slotCount (descendPush (n + 1) l a v m).1 (n + 1) l a (minSubTree (m l a)) =
        slotCount m (n + 1) l a (minSubTree (m l a)) + 1 := by
      rw [hchg.slotCount_self, slotCount, hsub.elems_eq, optVal_of_not hx, optVal_of_not hocc]
      simp only [slotElems_some, Multiset.card_singleton, Multiset.card_cons]
      omega
    have hk := hroom (minSubTree (m l a))
    refine hchg.sound hs ?_ (fun h => absurd h hx) ?_
    · rw [hcnt, toNat_add_one, (hs _).1]
      rw [(hs _).1, ← hcnt]
      exact hk
    · rw [hdesc]
      refine hbelow.sound fun j => ?_
      rw [← hdesc]
      refine lt_of_le_of_lt (slotCount_le_card _ n _ _ j) (lt_of_le_of_lt ?_ hk)
      rw [hchg.slotCount_self]
      exact Nat.le_add_left _ _

/-- The step of `push_spec` when the chosen slot is empty: it takes `v`. -/
theorem pushOk_of_empty {n l a : ℕ} {v : Val W} {m : Mem o W} (hs : Sound m (n + 1) l a)
    (hv : ¬v.IsEmpty) (hempty : (m l a (minSubTree (m l a))).pifoVal.IsEmpty)
    (hnode : pushNode (m l a) v = (Function.update (m l a) (minSubTree (m l a))
      ⟨(m l a (minSubTree (m l a))).subTreeSize + 1, v⟩, none)) : PushOk (n + 1) l a v m := by
  obtain ⟨hcnt, -, hbelow⟩ := hs (minSubTree (m l a))
  have hnone : optVal (m l a (minSubTree (m l a))).pifoVal = none := optVal_of_isEmpty hempty
  have hdesc : descendPush (n + 1) l a v m =
      (m.write l a (Function.update (m l a) (minSubTree (m l a))
        ⟨(m l a (minSubTree (m l a))).subTreeSize + 1, v⟩), none) := by
    rw [descendPush, hnode]
  have hchg := changesAt_write m l a (minSubTree (m l a))
    ⟨(m l a (minSubTree (m l a))).subTreeSize + 1, v⟩
  have hsame : toTree (m.write l a (Function.update (m l a) (minSubTree (m l a))
      ⟨(m l a (minSubTree (m l a))).subTreeSize + 1, v⟩)) n (l + 1)
        (o.D * a + minSubTree (m l a)) =
      toTree m n (l + 1) (o.D * a + minSubTree (m l a)) :=
    toTree_congr n fun l' a' h => write_below _ h
  refine ⟨by rw [hdesc], ?_, fun hroom => ?_⟩
  · rw [hdesc]
    dsimp only
    rw [hchg.toTree_eq, hsame, optVal_of_not hv, Function.update_eq_self, toTree]
    exact Push.place v hnone
  · rw [hdesc] at hroom ⊢
    have hcnt' : slotCount (m.write l a (Function.update (m l a) (minSubTree (m l a))
        ⟨(m l a (minSubTree (m l a))).subTreeSize + 1, v⟩)) (n + 1) l a (minSubTree (m l a)) =
        slotCount m (n + 1) l a (minSubTree (m l a)) + 1 := by
      rw [hchg.slotCount_self, slotCount, hsame, optVal_of_not hv, hnone]
      simp only [slotElems_some, slotElems_none, Multiset.card_singleton, Multiset.card_zero]
      omega
    refine hchg.sound hs ?_ (fun h => absurd h hv)
      (sound_congr n (fun l' a' h => write_below _ h) hbelow)
    have hk := hroom (minSubTree (m l a))
    rw [hcnt'] at hk ⊢
    rw [toNat_add_one (by rw [hcnt]; exact hk), hcnt]

/-- **A push into a tree that is not full.**  Nothing falls off, the value goes in along
some path, and the counters stay exact as long as they have room. -/
theorem push_spec (n : ℕ) : ∀ {l a : ℕ} {v : Val W} {m : Mem o W}, Sound m n l a →
    HeapOrdered key (toTree m n l a) → ¬v.IsEmpty →
    (elems (toTree m n l a)).card < capacity o n → PushOk n l a v m := by
  induction n with
  | zero =>
    intro l a v m _ _ _ hcap
    rw [capacity_zero] at hcap
    exact absurd hcap (Nat.not_lt_zero _)
  | succ n ih =>
    intro l a v m hs hord hv hcap
    have hlt := slotCount_minSubTree_lt hs hcap
    obtain ⟨-, -, hbelow⟩ := hs (minSubTree (m l a))
    obtain ⟨hordk, -, -⟩ := hord (minSubTree (m l a))
    -- the induction hypothesis, below an occupied slot
    have hrec : ¬(m l a (minSubTree (m l a))).pifoVal.IsEmpty → ∀ (s : Slot W) (u : Val W),
        ¬u.IsEmpty → PushOk n (l + 1) (o.D * a + minSubTree (m l a)) u
          (m.write l a (Function.update (m l a) (minSubTree (m l a)) s)) := by
      intro hocc s u hu
      have hsame : toTree (m.write l a (Function.update (m l a) (minSubTree (m l a)) s)) n (l + 1)
          (o.D * a + minSubTree (m l a)) = toTree m n (l + 1) (o.D * a + minSubTree (m l a)) :=
        toTree_congr n fun l' a' h => write_below _ h
      refine ih (sound_congr n (fun l' a' h => write_below _ h) hbelow) ?_ hu ?_
      · rw [hsame]
        exact hordk
      · rw [slotCount, optVal_of_not hocc] at hlt
        rw [hsame]
        simpa using hlt
    rcases pushNode_cases (m l a) v with ⟨hempty, hnode⟩ | ⟨hocc, hle, hnode⟩ | ⟨hocc, hle, hnode⟩
    · exact pushOk_of_empty hs hv hempty hnode
    · exact pushOk_of_below hs hocc hv hnode (hrec hocc _ _ hocc) fun t ht =>
        Push.swap (optVal_of_not hocc) hle ht
    · refine pushOk_of_below hs hocc hocc hnode (hrec hocc _ _ hv) fun t ht => ?_
      have hkeep := Push.keep (s := fun j => optVal (m l a j).pifoVal)
        (c := fun j : Fin o.D => toTree m n (l + 1) (o.D * a + j)) (optVal_of_not hocc) hle ht
      rw [← optVal_of_not hocc, Function.update_eq_self]
      exact hkeep

/-! ## A pop -/

theorem slotCount_eq_zero {m : Mem o W} {n l a : ℕ} {k : Fin o.D} :
    slotCount m (n + 1) l a k = 0 ↔ (m l a k).pifoVal.IsEmpty ∧
      elems (toTree m n (l + 1) (o.D * a + k)) = 0 := by
  rw [slotCount, Nat.add_eq_zero_iff, Multiset.card_eq_zero, Multiset.card_eq_zero,
    slotElems_eq_zero, optVal_eq_none]

/-- **A pop of an empty sub-tree** answers all-ones and changes no word. -/
theorem descendPop_of_empty (n : ℕ) : ∀ {l a : ℕ} {m : Mem o W}, Sound m n l a →
    elems (toTree m n l a) = 0 → descendPop n l a m = (m, Val.ones) := by
  induction n with
  | zero => exact fun _ _ => rfl
  | succ n ih =>
    intro l a m hs hzero
    obtain ⟨hnone, hbelow⟩ := elems_node_eq_zero.mp hzero (minDataPort (m l a))
    obtain ⟨hcnt, hones, hsk⟩ := hs (minDataPort (m l a))
    have hempty := optVal_eq_none.mp hnone
    rw [slotCount_eq_zero.mpr ⟨hempty, hbelow⟩] at hcnt
    have hsize : (m l a (minDataPort (m l a))).subTreeSize = 0 := BitVec.eq_of_toNat_eq hcnt
    have hnode : popNode (m l a) (descendPop n (l + 1) (popChild (m l a) a) m).2 = m l a := by
      simp [popNode, hsize]
    rw [descendPop, hnode, show popChild (m l a) a = o.D * a + minDataPort (m l a) from rfl,
      ih hsk hbelow, Mem.write_eq_self, popData, hones hempty]

/-- The slot with the smallest priority is a least slot. -/
theorem isLeast_minDataPort (w : Node o W) :
    IsLeast key (fun j => optVal (w j).pifoVal) (minDataPort w) := by
  intro j v hj
  obtain ⟨hne, rfl⟩ := optVal_eq_some.mp hj
  have hle : key (w (minDataPort w)).pifoVal ≤ key (w j).pifoVal := minDataPort_le w j
  exact ⟨_, optVal_of_not (not_isEmpty_of_key_le hle hne), hle⟩

/-- What a pop guarantees for the sub-tree it enters. -/
structure PopOk (n l a : ℕ) (m : Mem o W) : Prop where
  tree : Pop key (toTree m n l a) (optVal (descendPop n l a m).2)
    (toTree (descendPop n l a m).1 n l a)
  ones : (descendPop n l a m).2.IsEmpty → (descendPop n l a m).2 = Val.ones
  sound : Sound (descendPop n l a m).1 n l a

theorem toNat_sub_one {x : BitVec W.CTW} (h : x ≠ 0) : (x - 1).toNat = x.toNat - 1 := by
  have hpos : x.toNat ≠ 0 := fun h0 => h (BitVec.eq_of_toNat_eq h0)
  have hx := x.isLt
  have hone : (1 : BitVec W.CTW).toNat = 1 := Nat.mod_eq_of_lt (show 1 < 2 ^ W.CTW by omega)
  rw [BitVec.toNat_sub, hone, show 2 ^ W.CTW - 1 + x.toNat = x.toNat - 1 + 2 ^ W.CTW by omega,
    Nat.add_mod_right, Nat.mod_eq_of_lt (by omega)]

/-- The step of `pop_spec` when the counter is zero: nothing is there, and nothing changes. -/
theorem popOk_of_zero {n l a : ℕ} {m : Mem o W} (hs : Sound m (n + 1) l a)
    (hord : HeapOrdered key (toTree m (n + 1) l a))
    (hbelow : PopOk n (l + 1) (o.D * a + minDataPort (m l a)) m)
    (hsize : (m l a (minDataPort (m l a))).subTreeSize = 0) : PopOk (n + 1) l a m := by
  obtain ⟨hcnt, -, hsk⟩ := hs (minDataPort (m l a))
  have hzero : slotCount m (n + 1) l a (minDataPort (m l a)) = 0 := by
    rw [← hcnt, hsize]
    rfl
  obtain ⟨hempty, hchild⟩ := slotCount_eq_zero.mp hzero
  have hpop := Pop.node (c := fun j : Fin o.D => toTree m n (l + 1) (o.D * a + j))
    (isLeast_minDataPort (m l a)) hbelow.tree
  -- the least slot is empty, so everything is
  have htree : elems (toTree m (n + 1) l a) = 0 := by
    rw [optVal_of_isEmpty hempty] at hpop
    exact hpop.elems_eq_zero hord
  have hself := descendPop_of_empty (n + 1) hs htree
  rw [descendPop_of_empty n hsk hchild, optVal_of_isEmpty Val.isEmpty_ones,
    ← optVal_of_isEmpty hempty, Function.update_eq_self, Function.update_eq_self] at hpop
  refine ⟨?_, by rw [hself]; exact fun _ => rfl, by rw [hself]; exact hs⟩
  have hanswer : (descendPop (n + 1) l a m).2 = (m l a (minDataPort (m l a))).pifoVal := rfl
  rw [hanswer, hself]
  exact hpop

/-- The memory after a pop through a slot whose counter is not zero. -/
theorem descendPop_some {n l a : ℕ} {m : Mem o W}
    (hsize : (m l a (minDataPort (m l a))).subTreeSize ≠ 0) :
    (descendPop (n + 1) l a m).1 =
      (descendPop n (l + 1) (o.D * a + minDataPort (m l a)) m).1.write l a
        (Function.update (m l a) (minDataPort (m l a))
          ⟨(m l a (minDataPort (m l a))).subTreeSize - 1,
            (descendPop n (l + 1) (o.D * a + minDataPort (m l a)) m).2⟩) := by
  have hnode : popNode (m l a) (descendPop n (l + 1) (popChild (m l a) a) m).2 =
      Function.update (m l a) (minDataPort (m l a))
        ⟨(m l a (minDataPort (m l a))).subTreeSize - 1,
          (descendPop n (l + 1) (o.D * a + minDataPort (m l a)) m).2⟩ := by
    simp only [popNode, ne_eq, hsize, not_false_eq_true, if_true]
    rfl
  rw [← hnode]
  rfl

/-- The step of `pop_spec` when the counter is not zero: the slot takes what comes up from
below. -/
theorem popOk_of_below {n l a : ℕ} {m : Mem o W} (hs : Sound m (n + 1) l a)
    (hord : HeapOrdered key (toTree m (n + 1) l a))
    (hbelow : PopOk n (l + 1) (o.D * a + minDataPort (m l a)) m)
    (hsize : (m l a (minDataPort (m l a))).subTreeSize ≠ 0) : PopOk (n + 1) l a m := by
  obtain ⟨hcnt, hones, -⟩ := hs (minDataPort (m l a))
  obtain ⟨-, hemptyk, -⟩ := hord (minDataPort (m l a))
  have hdesc := descendPop_some (n := n) hsize
  have hchg : ChangesAt m (descendPop (n + 1) l a m).1 l a (minDataPort (m l a))
      ⟨(m l a (minDataPort (m l a))).subTreeSize - 1,
        (descendPop n (l + 1) (o.D * a + minDataPort (m l a)) m).2⟩ := by
    rw [hdesc]
    refine ⟨Mem.write_self _ _ _ _, fun j hj l' a' h => ?_⟩
    rw [write_below _ h, descendPop_frame n (not_inSub_child hj h)]
  have hsame : toTree (descendPop (n + 1) l a m).1 n (l + 1) (o.D * a + minDataPort (m l a)) =
      toTree (descendPop n (l + 1) (o.D * a + minDataPort (m l a)) m).1 n (l + 1)
        (o.D * a + minDataPort (m l a)) := by
    rw [hdesc]
    exact toTree_congr n fun l' a' h => write_below _ h
  have hanswer : (descendPop (n + 1) l a m).2 = (m l a (minDataPort (m l a))).pifoVal := rfl
  refine ⟨?_, by rw [hanswer]; exact hones, hchg.sound hs ?_ hbelow.ones ?_⟩
  · rw [hanswer, hchg.toTree_eq, hsame]
    exact Pop.node (isLeast_minDataPort (m l a)) hbelow.tree
  · -- the slot was occupied, and what it loses comes up from below
    have hocc : ¬(m l a (minDataPort (m l a))).pifoVal.IsEmpty := by
      intro hempty
      have hz := slotCount_eq_zero.mpr ⟨hempty, hemptyk (optVal_of_isEmpty hempty)⟩
      rw [← hcnt] at hz
      exact hsize (BitVec.eq_of_toNat_eq hz)
    have hcard := congrArg Multiset.card hbelow.tree.elems_eq
    rw [Multiset.card_add] at hcard
    rw [hchg.slotCount_self, hsame, hcard, toNat_sub_one hsize, hcnt, slotCount,
      optVal_of_not hocc, slotElems_some, Multiset.card_singleton, Nat.add_sub_cancel_left]
  · rw [hdesc]
    exact sound_congr n (fun l' a' h => write_below _ h) hbelow.sound

/-- **A pop takes out a least element and refills the slots on its way.** -/
theorem pop_spec (n : ℕ) : ∀ {l a : ℕ} {m : Mem o W}, Sound m n l a →
    HeapOrdered key (toTree m n l a) → PopOk n l a m := by
  induction n with
  | zero =>
    intro l a m _ _
    exact ⟨by rw [descendPop, optVal_of_isEmpty Val.isEmpty_ones]; exact Pop.nil, fun _ => rfl,
      trivial⟩
  | succ n ih =>
    intro l a m hs hord
    have hbelow := ih (hs (minDataPort (m l a))).2.2 (hord (minDataPort (m l a))).1
    by_cases hsize : (m l a (minDataPort (m l a))).subTreeSize = 0
    · exact popOk_of_zero hs hord hbelow hsize
    · exact popOk_of_below hs hord hbelow hsize

/-! ## Whole runs -/

/-- The invariant of a tree of `L` levels between two tasks. -/
structure TreeInv (L : ℕ) (m : Mem o W) : Prop where
  sound : Sound m L 0 0
  heap : HeapOrdered key (toTree m L 0 0)

theorem elems_init (n : ℕ) : ∀ l a, elems (toTree (Mem.init o W) n l a) = 0 := by
  induction n with
  | zero => exact fun _ _ => rfl
  | succ n ih =>
    intro l a
    exact elems_node_eq_zero.mpr fun k => ⟨optVal_of_isEmpty Val.isEmpty_ones, ih _ _⟩

theorem heapOrdered_init (n : ℕ) : ∀ l a, HeapOrdered key (toTree (Mem.init o W) n l a) := by
  induction n with
  | zero => exact fun _ _ => trivial
  | succ n ih =>
    intro l a k
    have hnone : optVal (Mem.init o W l a k).pifoVal = none := optVal_of_isEmpty Val.isEmpty_ones
    exact ⟨ih _ _, fun _ => elems_init n _ _, fun v hv => absurd (hnone.symm.trans hv) (by simp)⟩

theorem sound_init (n : ℕ) : ∀ l a, Sound (Mem.init o W) n l a := by
  induction n with
  | zero => exact fun _ _ => trivial
  | succ n ih =>
    intro l a k
    refine ⟨?_, fun _ => rfl, ih _ _⟩
    rw [slotCount_eq_zero.mpr ⟨Val.isEmpty_ones, elems_init n _ _⟩]
    rfl

theorem treeInv_init (L : ℕ) : TreeInv L (Mem.init o W) :=
  ⟨sound_init L 0 0, heapOrdered_init L 0 0⟩

section Steps

variable {L : ℕ} {m : Mem o W}

/-- **One push.** -/
theorem TreeInv.push (h : TreeInv L m) {v : Val W} (hv : ¬v.IsEmpty)
    (hcap : (stored L m).card < capacity o L) :
    (descendPush L 0 0 v m).2 = none ∧ stored L (seqStep L m (.push v)) = v ::ₘ stored L m ∧
      ((∀ k, slotCount (seqStep L m (.push v)) L 0 0 k < 2 ^ W.CTW) →
        TreeInv L (seqStep L m (.push v))) := by
  have hok := push_spec L h.sound h.heap hv hcap
  exact ⟨hok.kept, hok.tree.elems_eq, fun hroom => ⟨hok.sound hroom, hok.tree.heapOrdered h.heap⟩⟩

/-- **One pop.** -/
theorem TreeInv.pop (h : TreeInv L m) : TreeInv L (seqStep L m .pop) := by
  have hok := pop_spec L h.sound h.heap
  exact ⟨hok.sound, hok.tree.heapOrdered h.heap⟩

/-- A pop of a tree with elements answers a least one and removes it. -/
theorem TreeInv.pop_of_ne_zero (h : TreeInv L m) (hne : stored L m ≠ 0) :
    seqPopData L m ∈ stored L m ∧ (∀ u ∈ stored L m, key (seqPopData L m) ≤ key u) ∧
      stored L (seqStep L m .pop) = (stored L m).erase (seqPopData L m) := by
  have hok := (pop_spec L h.sound h.heap).tree
  have hsome : optVal (seqPopData L m) = some (seqPopData L m) := by
    cases hopt : optVal (seqPopData L m) with
    | none =>
      rw [show (descendPop L 0 0 m).2 = seqPopData L m from rfl, hopt] at hok
      exact absurd (hok.elems_eq_zero h.heap) hne
    | some v => rw [(optVal_eq_some.mp hopt).2]
  rw [show (descendPop L 0 0 m).2 = seqPopData L m from rfl, hsome] at hok
  have helems : seqPopData L m ::ₘ stored L (seqStep L m .pop) = stored L m := hok.elems_eq
  refine ⟨?_, hok.key_le h.heap, ?_⟩
  · rw [← helems]
    exact Multiset.mem_cons_self _ _
  · rw [← helems, Multiset.erase_cons_head]

/-- A pop of an empty tree answers all-ones and changes nothing. -/
theorem TreeInv.pop_of_eq_zero (h : TreeInv L m) (hzero : stored L m = 0) :
    seqPopData L m = Val.ones ∧ seqStep L m .pop = m := by
  have hdesc := descendPop_of_empty L h.sound hzero
  rw [seqPopData, seqStep, hdesc]
  exact ⟨rfl, rfl⟩

theorem TreeInv.card_pop (h : TreeInv L m) :
    (stored L (seqStep L m .pop)).card = (stored L m).card - 1 := by
  by_cases hzero : stored L m = 0
  · rw [(h.pop_of_eq_zero hzero).2, hzero]
    rfl
  · obtain ⟨hmem, -, herase⟩ := h.pop_of_ne_zero hzero
    rw [herase, Multiset.card_erase_of_mem hmem]
    rfl

end Steps

/-- Every counter of a sound tree is exact. -/
theorem sound_at {m : Mem o W} {n : ℕ} (l : ℕ) : ∀ {a : ℕ}, Sound m (l + n) 0 0 → a < o.D ^ l →
    Sound m n l a := by
  induction l generalizing n with
  | zero =>
    intro a h ha
    rw [Nat.zero_add] at h
    rw [pow_zero, Nat.lt_one_iff] at ha
    exact ha ▸ h
  | succ l ih =>
    intro a h ha
    have hdiv : a / o.D < o.D ^ l := by
      rw [Nat.div_lt_iff_lt_mul o.D_pos, ← Nat.pow_succ]
      exact ha
    have hup : Sound m (n + 1) l (a / o.D) := ih (by rwa [Nat.add_right_comm] at h) hdiv
    have hk := (hup ⟨a % o.D, Nat.mod_lt _ o.D_pos⟩).2.2
    rwa [show o.D * (a / o.D) + (⟨a % o.D, Nat.mod_lt _ o.D_pos⟩ : Fin o.D) = a from
      Nat.div_add_mod a o.D] at hk

/-- How many elements a priority queue holds after a list of tasks. -/
def load (ts : List (Task W)) : ℕ :=
  ts.foldl (fun n t => match t with | .push _ => n + 1 | .pop => n - 1) 0

theorem load_push (ts : List (Task W)) (v : Val W) : load (ts ++ [.push v]) = load ts + 1 := by
  simp [load]

theorem load_pop (ts : List (Task W)) : load (ts ++ [.pop]) = load ts - 1 := by
  simp [load]

/-- The tasks never overload a tree of `L` levels: no priority is all-ones, the queue is
never longer than the tree has slots, and no counter of the root is ever asked to count
further than its width. -/
structure Fits (o : Order) (L : ℕ) (ts : List (Task W)) : Prop where
  prio : ∀ v, Task.push v ∈ ts → ¬v.IsEmpty
  load_le : ∀ pre, pre <+: ts → load pre ≤ capacity o L
  counters : ∀ pre, pre <+: ts → ∀ k, slotCount (seqMem L o pre) L 0 0 k < 2 ^ W.CTW

/-- Counters that can count a whole sub-tree of the root are never too narrow. -/
theorem Fits.of_width {n : ℕ} {ts : List (Task W)} (hwidth : 1 + capacity o n < 2 ^ W.CTW)
    (hprio : ∀ v, Task.push v ∈ ts → ¬v.IsEmpty)
    (hload : ∀ pre, pre <+: ts → load pre ≤ capacity o (n + 1)) : Fits o (n + 1) ts :=
  ⟨hprio, hload, fun _ _ k => lt_of_le_of_lt (slotCount_le _ n 0 0 k) hwidth⟩

theorem Fits.of_isPrefix {L : ℕ} {ts us : List (Task W)} (h : Fits o L us) (hpre : ts <+: us) :
    Fits o L ts :=
  ⟨fun v hv => h.prio v (hpre.subset hv), fun pre hp => h.load_le pre (hp.trans hpre),
    fun pre hp => h.counters pre (hp.trans hpre)⟩

/-- The invariant holds after every list of tasks that fits, and the tree holds as many
elements as a queue would. -/
theorem Fits.treeInv {L : ℕ} {ts : List (Task W)} (h : Fits o L ts) :
    TreeInv L (seqMem L o ts) ∧ (stored L (seqMem L o ts)).card = load ts := by
  induction ts using List.reverseRecOn with
  | nil => exact ⟨treeInv_init L, by rw [seqMem_nil, stored, elems_init]; rfl⟩
  | append_singleton ts t ih =>
    obtain ⟨hinv, hcard⟩ := ih (h.of_isPrefix (List.prefix_append _ _))
    rw [seqMem_append_singleton]
    cases t with
    | push v =>
      have hle := h.load_le _ (List.prefix_refl _)
      have hroom := h.counters _ (List.prefix_refl _)
      rw [seqMem_append_singleton] at hroom
      rw [load_push] at hle ⊢
      obtain ⟨-, hstored, hnext⟩ := hinv.push (h.prio v (by simp)) (by omega)
      exact ⟨hnext hroom, by rw [hstored, Multiset.card_cons, hcard]⟩
    | pop => exact ⟨hinv.pop, by rw [load_pop, hinv.card_pop, hcard]⟩

/-- **The hardware tree, one task at a time, is an exact bounded priority queue.**  For
nodes of two, four or eight slots, any number of levels and every list of tasks that
fits: no push drops an element; a pop answers an element of least priority and removes
exactly that one, or answers all-ones and changes no word when there is none; and every
counter of every node is the number of elements in its slot and below. -/
theorem bmw_tree_is_priority_queue (o : Order) (W : Widths) (L : ℕ) (ts : List (Task W))
    (h : Fits o L ts) :
    (∀ pre v, pre ++ [.push v] <+: ts →
      (descendPush L 0 0 v (seqMem L o pre)).2 = none ∧
      stored L (seqMem L o (pre ++ [.push v])) = v ::ₘ stored L (seqMem L o pre)) ∧
    (∀ pre, pre ++ [.pop] <+: ts →
      (stored L (seqMem L o pre) ≠ 0 →
        seqPopData L (seqMem L o pre) ∈ stored L (seqMem L o pre) ∧
        (∀ u ∈ stored L (seqMem L o pre),
          (seqPopData L (seqMem L o pre)).priority ≤ u.priority) ∧
        stored L (seqMem L o (pre ++ [.pop])) =
          (stored L (seqMem L o pre)).erase (seqPopData L (seqMem L o pre))) ∧
      (stored L (seqMem L o pre) = 0 →
        seqPopData L (seqMem L o pre) = Val.ones ∧
        seqMem L o (pre ++ [.pop]) = seqMem L o pre)) ∧
    (∀ pre, pre <+: ts → ∀ l < L, ∀ a < o.D ^ l, ∀ k,
      (seqMem L o pre l a k).subTreeSize.toNat = slotCount (seqMem L o pre) (L - l) l a k) := by
  refine ⟨fun pre v hpre => ?_, fun pre hpre => ?_, fun pre hpre l hl a ha k => ?_⟩
  · have hfit := h.of_isPrefix ((List.prefix_append pre _).trans hpre)
    obtain ⟨hinv, hcard⟩ := hfit.treeInv
    have hle := h.load_le _ hpre
    rw [load_push] at hle
    obtain ⟨hkept, hstored, -⟩ := hinv.push (h.prio v (hpre.subset (by simp))) (by omega)
    exact ⟨hkept, by rw [seqMem_append_singleton]; exact hstored⟩
  · obtain ⟨hinv, -⟩ := (h.of_isPrefix ((List.prefix_append pre _).trans hpre)).treeInv
    rw [seqMem_append_singleton]
    exact ⟨hinv.pop_of_ne_zero, hinv.pop_of_eq_zero⟩
  · obtain ⟨hinv, -⟩ := (h.of_isPrefix hpre).treeInv
    have hsound := sound_at (n := L - l) l (by rw [Nat.add_sub_cancel' hl.le]; exact hinv.sound) ha
    obtain ⟨n, hn⟩ : ∃ n, L - l = n + 1 := ⟨L - l - 1, by omega⟩
    rw [hn] at hsound ⊢
    exact (hsound k).1

/-- Six pushes and five pops on a two-level tree of two-slot nodes. -/
def mixedTasks : List (Task ⟨4, 2, 2⟩) :=
  [.push ⟨0, 7⟩, .push ⟨1, 3⟩, .push ⟨2, 9⟩, .pop, .push ⟨3, 4⟩, .push ⟨0, 8⟩, .push ⟨1, 2⟩,
    .pop, .pop, .pop, .pop]

theorem bmw_tree_is_priority_queue_mixed :
    Fits .two 2 mixedTasks ∧
      (∀ pre v, pre ++ [.push v] <+: mixedTasks →
        (descendPush 2 0 0 v (seqMem 2 .two pre)).2 = none ∧
        stored 2 (seqMem 2 .two (pre ++ [.push v])) = v ::ₘ stored 2 (seqMem 2 .two pre)) ∧
      seqPopData 2 (seqMem 2 .two (mixedTasks.take 3)) = ⟨1, 3⟩ := by
  have hload : ∀ pre ∈ mixedTasks.inits, load pre ≤ capacity .two 2 := by decide
  have hprio : ∀ t ∈ mixedTasks, ∀ v, t = Task.push v → ¬v.IsEmpty := by
    simp [mixedTasks, Val.IsEmpty]
  have hfits : Fits .two 2 mixedTasks := Fits.of_width (by decide) (fun v hv => hprio _ hv v rfl)
    fun pre h => hload pre ((List.mem_inits _ _).mpr h)
  exact ⟨hfits, (bmw_tree_is_priority_queue .two _ 2 mixedTasks hfits).1, by decide +kernel⟩

end Queue

end VPifo
