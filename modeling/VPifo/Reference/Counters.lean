import VPifo.Reference.Depth

/-!
# The counters of the reference trees

`num` is kept to balance the pushes, and should be the number of elements below its slot.
A push keeps it so.  A pop takes one off the counter of every slot on its way that has a
son, and nodes are never freed: when the son holds nothing any more, the counter goes from
zero to minus one, and stays one too low from then on.

`CountersExact` says it of all nodes of the pool.  The nodes of the trees are all the
allocated ones (`exists_mem_nodes`), so that it is `Counted` for every tree
(`countersExact_iff`), and `pop_spec` says that a pop keeps that unless it goes down into a
node that holds nothing.  `pop_uncounts` is the other half: such a pop always makes a
counter wrong.  So in a run the counters are right all the time exactly when no pop of the
run is of this kind (`balance_counters_exact_iff`).
-/

namespace VPifo

namespace Reference

open HeapTree Shape

/-- What is stored below slot `d` of node `r`; nothing when it has no son there. -/
def below (p : Pool) (r : ℕ) (d : Fin 2) : Multiset Pair :=
  elems (readTree p.tot p ((p.node r).son d))

/-- Every counter of every allocated node is the number of elements below its slot. -/
def CountersExact (p : Pool) : Prop :=
  ∀ r, 1 ≤ r → r ≤ p.tot → ∀ d, (p.node r).num d = ((below p r d).card : ℤ)

instance (p : Pool) : Decidable (CountersExact p) :=
  decidable_of_iff (∀ r ≤ p.tot, 1 ≤ r → ∀ d, (p.node r).num d = ((below p r d).card : ℤ))
    ⟨fun h r hr hle => h r hle hr, fun h r hle hr => h r hr hle⟩

/-! ## The allocated nodes -/

/-- The nodes of a shape, each of them once. -/
theorem exists_finset_nodes {p : Pool} {s : Shape} (hs : Rep p s) :
    ∃ F : Finset ℕ, (∀ j, j ∈ F ↔ j ∈ s.nodes) ∧ F.card = s.size := by
  induction s with
  | nil => exact ⟨∅, fun j => by simp [Shape.nodes], rfl⟩
  | node i sub ih =>
    obtain ⟨-, -, hi, hdisj, hsub⟩ := hs
    choose F hmem hcard using fun k => ih k (hsub k)
    refine ⟨insert i (Finset.univ.biUnion F), fun j => ?_, ?_⟩
    · simp [Shape.nodes, hmem]
    · have hnot : i ∉ Finset.univ.biUnion F := by simpa [hmem] using hi
      rw [Finset.card_insert_of_notMem hnot, Shape.size, Finset.card_biUnion, Nat.add_comm]
      · simp only [hcard]
      · intro k _ l _ hkl
        refine Finset.disjoint_left.mpr fun j hj hj' => ?_
        exact Set.disjoint_left.mp (hdisj k l hkl) ((hmem k j).1 hj) ((hmem l j).1 hj')

theorem ne_zero_of_mem_nodes {p : Pool} {s : Shape} (hs : Rep p s) {j : ℕ} (hj : j ∈ s.nodes) :
    j ≠ 0 := by
  induction s with
  | nil => exact absurd hj (Set.notMem_empty j)
  | node i sub ih =>
    rcases hj with rfl | ⟨k, hj⟩
    · exact hs.1
    · exact ih k (hs.2.2.2.2 k) hj

variable {M : ℕ} {p : Pool} {sh : ℕ → Shape}

/-- Every allocated node is a node of one of the trees. -/
theorem PoolInv.exists_mem_nodes (h : PoolInv M p sh) {r : ℕ} (hpos : 1 ≤ r) (hle : r ≤ p.tot) :
    ∃ t < M, r ∈ (sh t).nodes := by
  choose! F hmem hcard using fun t (ht : t < M) => exists_finset_nodes (h.rep t ht)
  have hdisj : ∀ t ∈ Finset.range M, ∀ u ∈ Finset.range M, t ≠ u → Disjoint (F t) (F u) := by
    intro t ht u hu htu
    have ht' := Finset.mem_range.mp ht
    have hu' := Finset.mem_range.mp hu
    refine Finset.disjoint_left.mpr fun j hj hj' => ?_
    exact Set.disjoint_left.mp (h.disjoint t ht' u hu' htu) ((hmem t ht' j).1 hj)
      ((hmem u hu' j).1 hj')
  have hsub : (Finset.range M).biUnion F ⊆ Finset.Icc 1 p.tot := by
    intro j hj
    obtain ⟨t, ht, hj⟩ := Finset.mem_biUnion.mp hj
    have ht' := Finset.mem_range.mp ht
    have hj' := (hmem t ht' j).1 hj
    have hne := ne_zero_of_mem_nodes (h.rep t ht') hj'
    exact Finset.mem_Icc.mpr ⟨Nat.one_le_iff_ne_zero.mpr hne, h.le_tot t ht' j hj'⟩
  -- as many nodes as there are indices
  have hall : (Finset.range M).biUnion F = Finset.Icc 1 p.tot := by
    refine Finset.eq_of_subset_of_card_le hsub ?_
    rw [Finset.card_biUnion hdisj, Nat.card_Icc, Nat.add_sub_cancel, h.size]
    exact (Finset.sum_congr rfl fun t ht => (hcard t (Finset.mem_range.mp ht)).symm).le
  obtain ⟨t, ht, hr⟩ := Finset.mem_biUnion.mp (hall ▸ Finset.mem_Icc.mpr ⟨hpos, hle⟩)
  exact ⟨t, Finset.mem_range.mp ht, (hmem t (Finset.mem_range.mp ht) r).1 hr⟩

/-- The counters of a shape, node by node. -/
theorem counted_iff {s : Shape} (hs : Rep p s) (hn : s.height ≤ p.tot) :
    Counted p s ↔ ∀ r ∈ s.nodes, ∀ d, (p.node r).num d = ((below p r d).card : ℤ) := by
  induction s with
  | nil => exact ⟨fun _ r hr => absurd hr (Set.notMem_empty r), fun _ => trivial⟩
  | node i sub ih =>
    have hsub : ∀ k, (sub k).height ≤ p.tot := fun k => (height_sub_lt i sub k).le.trans hn
    have hbelow : ∀ k, below p i k = elems (toHeap p (sub k)) := by
      intro k
      rw [below, hs.2.1 k, readTree_eq _ (hs.2.2.2.2 k) (hsub k)]
    constructor
    · rintro ⟨hnum, hcount⟩ r hr
      rcases hr with rfl | ⟨k, hr⟩
      · intro d
        rw [hbelow]
        exact hnum d
      · exact (ih k (hs.2.2.2.2 k) (hsub k)).1 (hcount k) r hr
    · intro hall
      refine ⟨fun k => ?_, fun k => (ih k (hs.2.2.2.2 k) (hsub k)).2 fun r hr => ?_⟩
      · rw [← hbelow]
        exact hall i (Or.inl rfl) k
      · exact hall r (Or.inr ⟨k, hr⟩)

/-- The counters of the pool, tree by tree. -/
theorem PoolInv.countersExact_iff (h : PoolInv M p sh) :
    CountersExact p ↔ ∀ t < M, Counted p (sh t) := by
  constructor
  · intro hexact t ht
    rw [counted_iff (h.rep t ht) (h.height_le ht)]
    intro r hr
    exact hexact r (Nat.one_le_iff_ne_zero.mpr (ne_zero_of_mem_nodes (h.rep t ht) hr))
      (h.le_tot t ht r hr)
  · intro hcount r hpos hle
    obtain ⟨t, ht, hr⟩ := h.exists_mem_nodes hpos hle
    exact (counted_iff (h.rep t ht) (h.height_le ht)).1 (hcount t ht) r hr

/-! ## A pop that goes down into an empty node -/

/-- **A pop that goes down into a node that holds nothing makes a counter wrong.** -/
theorem pop_uncounts (s : Shape) : ∀ {p q : Pool} {n : ℕ} {x : Pair}, Rep p s → s ≠ .nil →
    Bounded p → HeapOrdered id (toHeap p s) → s.height ≤ n → Counted p s →
    p.popEntersEmpty n s.root = true → p.pop n s.root = some (x, q) → ¬Counted q s := by
  induction s with
  | nil => exact fun _ h => absurd rfl h
  | node i sub ih =>
    intro p q n x hs _ hp hheap hn hcount hpath hpop
    obtain ⟨n, rfl⟩ := exists_succ_of_height_le hn
    rw [Shape.root, Pool.popEntersEmpty] at hpath
    rw [Shape.root, Pool.pop] at hpop
    have hheight := Shape.height_sub_lt i sub (p.popSlot i)
    generalize p.popSlot i = d at hheight hpath hpop
    generalize hr : p.setMin i d { (p.node i).min d with first := inf } = r at hpath hpop
    have hrne : ∀ k, ∀ j ∈ (sub k).nodes, r.node j = p.node j := by
      intro k
      rw [← hr]
      exact setMin_sub hs d _ k
    have hrheap : ∀ k, toHeap r (sub k) = toHeap p (sub k) := fun k => toHeap_congr (hrne k)
    have hrrep : Rep r (sub d) := rep_congr (hrne d) (hs.2.2.2.2 d)
    have hrb : Bounded r := by
      rw [← hr]
      exact bounded_setMin hp le_rfl i d
    have hrcount : Counted r (sub d) := counted_congr (hrne d) (hcount.2 d)
    have hrorder : HeapOrdered id (toHeap r (sub d)) := by
      rw [hrheap d]
      exact (hheap d).1
    obtain ⟨hson, hempty⟩ := Bool.and_eq_true_iff.1 hpath
    have h0 : (p.node i).son d ≠ 0 := of_decide_eq_true hson
    have hsubne : sub d ≠ .nil := by
      intro hnil
      rw [hs.2.1 d, hnil] at h0
      exact h0 rfl
    rw [if_pos h0] at hpop
    rw [hs.2.1 d] at hpop hempty
    obtain ⟨q₁, hq₁, hkeep, hdown, -⟩ := pop_spec (sub d) (n := n) hrrep hsubne hrb (by omega)
    rw [hq₁] at hpop
    obtain ⟨-, rfl⟩ := Prod.mk.inj (Option.some.inj hpop)
    rintro ⟨hnum, hcount'⟩
    rcases Bool.or_eq_true_iff.1 hempty with htop | hfurther
    · -- the counter was zero, and is minus one now
      have hnone : elems (toHeap p (sub d)) = 0 := by
        rw [optPair_of_isEmpty (of_decide_eq_true htop)] at hdown
        rw [← hrheap d]
        exact hdown.elems_eq_zero hrorder
      have hzero : (p.node i).num d = 0 := by
        rw [hcount.1 d, hnone]
        rfl
      have hself : q₁.node i = r.node i := hkeep.frame i (hs.2.2.1 d)
      have hneg := hnum d
      rw [addNum_num, if_pos rfl, setMin_num, hself, ← hr, setMin_num, hzero] at hneg
      omega
    · exact ih d hrrep hsubne hrb hrorder (by omega) hrcount hfurther hq₁
        (counted_congr (fun j hj => (addNum_setMin_sub hs d _ _ d j hj).symm) (hcount' d))

/-! ## Runs -/

/-- The counters stay right in a run without such pops. -/
theorem run_counted {M : ℕ} {cs : List Call} (h : ∀ c ∈ cs, c.Valid M)
    (hpop : NeverEntersEmpty M cs) :
    ∃ p sh, run M cs = some p ∧ PoolInv M p sh ∧ ∀ t < M, Counted p (sh t) := by
  induction cs using List.reverseRecOn with
  | nil =>
    exact ⟨_, _, rfl, poolInv_init M, fun t _ => ⟨fun _ => rfl, fun _ => trivial⟩⟩
  | append_singleton cs c ih =>
    have hsub : cs <+: cs ++ [c] := List.prefix_append cs [c]
    obtain ⟨p, sh, hrun, hinv, hcount⟩ := ih (fun x hx => h x (List.mem_append_left _ hx))
      fun pre x hpre => hpop pre x (hpre.trans hsub)
    have hc := h c (by simp)
    have hpath := hpop cs c List.prefix_rfl p hrun
    rw [run_append_singleton, hrun]
    cases c with
    | push t v =>
      obtain ⟨q, s, -, hq, hinv', hgrow, -, -⟩ := hinv.push hc.1 hc.2
      refine ⟨q, _, hq, hinv', fun u hu => ?_⟩
      by_cases hut : u = t
      · rw [hut, Function.update_self]
        exact hgrow.counted (hcount t hc.1)
      · rw [Function.update_of_ne hut]
        exact counted_congr (hinv.push_frame hc.1 hgrow hu hut) (hcount u hu)
    | pop t =>
      obtain ⟨q, hq, hinv', hkeep, hcounted, -⟩ := hinv.pop hc
      refine ⟨q, sh, by simp [exec, hq], hinv', fun u hu => ?_⟩
      by_cases hut : u = t
      · rw [hut]
        exact hcounted (hcount t hc) hpath
      · exact counted_congr (hinv.pop_frame hc hkeep hu hut) (hcount u hu)

/-- **When the balance counters are exact.**  For every number of trees and every list of
calls with ranks below `inf`, from the initial pool: after every call so far, every counter
of every allocated node is the number of elements below its slot, if and only if no pop of
the list goes down into an allocated node that holds nothing. -/
theorem balance_counters_exact_iff (M : ℕ) (cs : List Call) (h : ∀ c ∈ cs, c.Valid M) :
    (∀ pre, pre <+: cs → ∀ p, run M pre = some p → CountersExact p) ↔ NeverEntersEmpty M cs := by
  constructor
  · intro hexact pre c hpre p hrun
    have hvalid : ∀ x ∈ pre ++ [c], x.Valid M := fun x hx => h x (hpre.subset hx)
    obtain ⟨p', sh, hrun', hinv⟩ := run_inv fun x hx => hvalid x (List.mem_append_left _ hx)
    obtain rfl := Option.some.inj (hrun.symm.trans hrun')
    have hcount := hinv.countersExact_iff.1
      (hexact pre ((List.prefix_append pre [c]).trans hpre) p hrun)
    cases c with
    | push t v => rfl
    | pop t =>
      have ht : t < M := hvalid (.pop t) (by simp)
      obtain ⟨q, hq, hinv', -⟩ := hinv.pop ht
      have hrunq : run M (pre ++ [.pop t]) = some q := by
        rw [run_append_singleton, hrun]
        simp [exec, hq]
      by_contra hpath
      rw [Bool.not_eq_false] at hpath
      rw [← hinv.root t ht] at hq
      have hpath' : p.popEntersEmpty (p.tot + 1) (sh t).root = true := by
        rw [hinv.root t ht]
        exact hpath
      refine pop_uncounts (sh t) (hinv.rep t ht) (hinv.ne_nil ht) hinv.bounded (hinv.heap t ht)
        ((hinv.height_le ht).trans (Nat.le_succ _)) (hcount t ht) hpath' hq ?_
      exact hinv'.countersExact_iff.1 (hexact _ hpre q hrunq) t ht
  · intro hpop pre hpre p hrun
    obtain ⟨p', sh, hrun', hinv, hcount⟩ := run_counted (fun c hc => h c (hpre.subset hc))
      fun pre' c hpre' => hpop pre' c (hpre'.trans hpre)
    obtain rfl := Option.some.inj (hrun.symm.trans hrun')
    exact hinv.countersExact_iff.2 hcount

/-- Three packets, of which the third goes below the first, and three pops: the sub-tree is
drained, then the slot above it is popped. -/
def drainThenPop : List Call :=
  [.push 0 ⟨1, 0⟩, .push 0 ⟨2, 0⟩, .push 0 ⟨3, 0⟩, .pop 0, .pop 0, .pop 0]

/-- **A counter of minus one.**  The third packet is below the first slot and comes up with
the first pop; the third pop takes it from there and goes down into the empty node. -/
theorem balance_counter_negative :
    (∀ c ∈ drainThenPop, c.Valid 1) ∧ ∃ p, run 1 drainThenPop = some p ∧
      (p.node 1).num 0 = -1 ∧ ¬CountersExact p := by
  have hrun : ((run 1 drainThenPop).any fun p =>
      decide ((p.node 1).num 0 = -1 ∧ ¬CountersExact p)) = true := by decide +kernel
  obtain ⟨p, hp, hneg⟩ := Option.any_eq_true .. |>.mp hrun
  exact ⟨by decide, p, hp, of_decide_eq_true hneg⟩

/-- The counters are right all the time while three packets go in and one comes out. -/
theorem balance_counters_exact_iff_threePackets :
    ∃ p, run 1 [.push 0 ⟨1, 1⟩, .push 0 ⟨2, 2⟩, .push 0 ⟨3, 3⟩, .pop 0] = some p ∧
      CountersExact p := by
  obtain ⟨p, hp⟩ := Option.isSome_iff_exists.1
    (by decide +kernel :
      (run 1 [.push 0 ⟨1, 1⟩, .push 0 ⟨2, 2⟩, .push 0 ⟨3, 3⟩, .pop 0]).isSome = true)
  exact ⟨p, hp, (balance_counters_exact_iff 1 _ (by decide)).2
    (neverEntersEmpty_of (by decide +kernel)) _ List.prefix_rfl p hp⟩

end Reference

end VPifo
