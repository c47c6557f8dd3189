import VPifo.Reference.Tree

/-!
# Pools whose trees may be popped when they are empty

A pop of an empty tree leaves behind counters and slots that no tree of elements explains, so
`Rep` has nothing to say about the pools that come after it.  Some things are true of every
pool all the same: a son has a larger index than its father, since it was allocated later, and
it is not one of the first `M` nodes, which are the roots.  So the recursion ends (`Forest.push`,
`Forest.pop`), and what is done to one tree leaves the roots of the others alone.
-/

namespace VPifo

namespace Reference

/-- The pool of a program with `M` trees. -/
structure Forest (M : ℕ) (p : Pool) : Prop where
  roots : M ≤ p.tot
  son : ∀ i d, (p.node i).son d ≠ 0 →
    M < (p.node i).son d ∧ i < (p.node i).son d ∧ (p.node i).son d ≤ p.tot
  blank : ∀ i, p.tot < i → p.node i = TreeNode.blank

theorem forest_init (M : ℕ) : Forest M (Pool.init M) :=
  ⟨le_rfl, fun _ _ h => absurd rfl h, fun _ _ => rfl⟩

namespace Forest

variable {M : ℕ} {p q : Pool} {root : ℕ} {d : Fin 2}

/-- The nodes of the pool may get other elements and counters. -/
theorem congr (h : Forest M p) (htot : q.tot = p.tot) (hson : ∀ i, (q.node i).son = (p.node i).son)
    (hnew : ∀ i, p.tot < i → q.node i = p.node i) : Forest M q := by
  refine ⟨htot ▸ h.roots, fun i d hne => ?_, fun i hi => ?_⟩
  · rw [hson] at hne ⊢
    rw [htot]
    exact h.son i d hne
  · rw [htot] at hi
    rw [hnew i hi]
    exact h.blank i hi

theorem setMin (h : Forest M p) (hroot : root ≤ p.tot) (d : Fin 2) (x : Pair) :
    Forest M (p.setMin root d x) := by
  refine h.congr rfl (fun i => ?_) fun i hi => setMin_node_of_ne _ _ _ (by omega)
  by_cases hi : i = root
  · rw [hi, setMin_son]
  · rw [setMin_node_of_ne _ _ _ hi]

theorem addNum (h : Forest M p) (hroot : root ≤ p.tot) (d : Fin 2) (x : ℤ) :
    Forest M (p.addNum root d x) := by
  refine h.congr rfl (fun i => ?_) fun i hi => addNum_node_of_ne _ _ _ (by omega)
  by_cases hi : i = root
  · rw [hi, addNum_son]
  · rw [addNum_node_of_ne _ _ _ hi]

/-- `get_son`. -/
theorem getSon (h : Forest M p) (hroot : root ≤ p.tot) (d : Fin 2) :
    Forest M (p.getSon root d).2 ∧ M < (p.getSon root d).1 ∧ root < (p.getSon root d).1 ∧
      (p.getSon root d).1 ≤ (p.getSon root d).2.tot ∧ p.tot ≤ (p.getSon root d).2.tot ∧
      (∀ i, i ≠ root → (p.getSon root d).2.node i = p.node i) ∧
      ((p.getSon root d).2 = p ∨ (p.getSon root d).1 = p.tot + 1) := by
  have hM := h.roots
  rw [Pool.getSon]
  split
  · next hne =>
    obtain ⟨hson, hlt, hle⟩ := h.son root d hne
    exact ⟨h, hson, hlt, hle, le_rfl, fun _ _ => rfl, Or.inl rfl⟩
  · refine ⟨⟨?_, fun i k hne => ?_, fun i hi => ?_⟩, ?_, ?_, le_rfl, Nat.le_succ _, fun i hi => ?_,
      Or.inr rfl⟩
    · show M ≤ p.tot + 1
      omega
    · by_cases hi : i = root
      · subst hi
        simp only [set_node_self] at hne ⊢
        by_cases hk : k = d
        · rw [if_pos hk]
          omega
        · rw [if_neg hk] at hne ⊢
          obtain ⟨hson, hlt, hle⟩ := h.son i k hne
          exact ⟨hson, hlt, by omega⟩
      · have hnode : (p.set root { p.node root with
            son := fun k => if k = d then p.tot + 1 else (p.node root).son k }).node i =
            p.node i := set_node_of_ne _ _ hi
        dsimp only at hne ⊢
        rw [hnode] at hne ⊢
        obtain ⟨hson, hlt, hle⟩ := h.son i k hne
        exact ⟨hson, hlt, by omega⟩
    · have hi' : p.tot + 1 < i := hi
      refine (set_node_of_ne _ _ (by omega)).trans (h.blank i (by omega))
    · show M < p.tot + 1
      omega
    · show root < p.tot + 1
      omega
    · exact set_node_of_ne _ _ hi

/-- **`push`** comes to an end, and leaves the other roots alone. -/
theorem push {n : ℕ} : ∀ {p : Pool} {root : ℕ}, Forest M p → root ≤ p.tot → ∀ val,
    (p.tot + 2 ≤ root + n ∨ 0 < n ∧ ((p.node root).min 0).IsEmpty) →
    ∃ q, p.push n root val = some q ∧ Forest M q ∧ p.tot ≤ q.tot ∧
      ∀ i, i ≠ root → i ≤ M → q.node i = p.node i := by
  induction n with
  | zero => exact fun _ hroot _ hfuel => absurd hfuel (by omega)
  | succ n ih =>
    intro p root h hroot val hfuel
    rw [Pool.push]
    by_cases h0 : ((p.node root).min 0).IsEmpty
    · rw [if_pos h0]
      exact ⟨_, rfl, h.setMin hroot _ _, le_rfl, fun i hi _ => setMin_node_of_ne _ _ _ hi⟩
    by_cases h1 : ((p.node root).min 1).IsEmpty
    · rw [if_neg h0, if_pos h1]
      exact ⟨_, rfl, h.setMin hroot _ _, le_rfl, fun i hi _ => setMin_node_of_ne _ _ _ hi⟩
    rw [if_neg h0, if_neg h1]
    have hfuel := hfuel.resolve_right fun h => h0 h.2
    obtain ⟨hq, hM, hlt, hle, htot, hnode, hcases⟩ := h.getSon hroot (p.pushSlot root)
    dsimp only
    generalize p.getSon root (p.pushSlot root) = sq at *
    -- a son that is there already has a larger index, and a new one an empty slot
    have hson : sq.2.tot + 2 ≤ sq.1 + n ∨ 0 < n ∧ ((sq.2.node sq.1).min 0).IsEmpty := by
      rcases hcases with hsame | hnew
      · rw [hsame]
        exact Or.inl (by omega)
      · refine Or.inr ⟨by omega, ?_⟩
        rw [hnode _ (by omega), h.blank _ (by omega)]
        rfl
    have hroot' : ∀ {r : Pool}, sq.2.tot ≤ r.tot → root ≤ r.tot := fun hr =>
      hroot.trans (htot.trans hr)
    split
    · obtain ⟨r, hr, hforest, hgrow, hframe⟩ := ih hq hle ((p.node root).min (p.pushSlot root)) hson
      rw [hr, Option.map_some]
      refine ⟨_, rfl, (hforest.setMin (hroot' hgrow) _ _).addNum (hroot' hgrow) _ _,
        htot.trans hgrow, fun i hi hiM => ?_⟩
      rw [addNum_node_of_ne _ _ _ hi, setMin_node_of_ne _ _ _ hi, hframe i (by omega) hiM,
        hnode i hi]
    · obtain ⟨r, hr, hforest, hgrow, hframe⟩ := ih hq hle val hson
      rw [hr, Option.map_some]
      refine ⟨_, rfl, hforest.addNum (hroot' hgrow) _ _, htot.trans hgrow, fun i hi hiM => ?_⟩
      rw [addNum_node_of_ne _ _ _ hi, hframe i (by omega) hiM, hnode i hi]

/-- **`pop`** comes to an end, and leaves the other roots alone. -/
theorem pop {n : ℕ} : ∀ {p : Pool} {root : ℕ}, Forest M p → root ≤ p.tot →
    p.tot + 1 ≤ root + n → ∃ x q, p.pop n root = some (x, q) ∧ Forest M q ∧ q.tot = p.tot ∧
      ∀ i, i ≠ root → i ≤ M → q.node i = p.node i := by
  induction n with
  | zero => exact fun _ hroot hfuel => absurd hfuel (by omega)
  | succ n ih =>
    intro p root h hroot hfuel
    rw [Pool.pop]
    split
    · next hne =>
      obtain ⟨hM, hlt, hle⟩ := h.son root _ hne
      have hset := h.setMin hroot (p.popSlot root)
        { (p.node root).min (p.popSlot root) with first := inf }
      obtain ⟨x, q, hr, hforest, htot, hframe⟩ := ih hset hle (by rw [setMin_tot]; omega)
      rw [setMin_tot] at htot
      rw [hr, Option.map_some]
      refine ⟨_, _, rfl, (hforest.setMin (htot ▸ hroot) _ _).addNum (htot ▸ hroot) _ _, htot,
        fun i hi hiM => ?_⟩
      rw [addNum_node_of_ne _ _ _ hi, setMin_node_of_ne _ _ _ hi, hframe i (by omega) hiM,
        setMin_node_of_ne _ _ _ hi]
    · exact ⟨_, _, rfl, h.setMin hroot _ _, rfl, fun i hi _ => setMin_node_of_ne _ _ _ hi⟩

end Forest

end Reference

end VPifo
