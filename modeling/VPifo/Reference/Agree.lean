import VPifo.Reference.Tree
import VPifo.Hardware.TreeQueue

/-!
# The reference tree and the hardware tree

Both trees are priority queues, and both are exact ones: `reference_tree_exact` is proved
for the tree of `vPIFO_trace.cpp` and `bmw_tree_is_priority_queue` for the node rule of
`PIFO_SRAM`.  They do not queue by the same key.  The reference compares whole pairs, the
hardware the priority field only, and of several slots with the least priority it takes
the first.

So the two hold the same ranks after every list of operations and every pop takes the same
rank (`Agree.ranks`), whatever the ties.  Which of the elements of that rank is taken is
another matter: the reference takes the one with the smallest value, the hardware the one
its counters put first.  As long as the elements of least rank are copies of one pair
whenever there is a pop, the two hold the same pairs (`Agree.pairs`).
-/

namespace VPifo

namespace Reference

variable {W : Widths} {L : ℕ}

/-- What the reference pushes for a word of the hardware: `PTW` is the rank, `MTW` the
value. -/
def toPair (v : Val W) : Pair := ⟨v.priority.toNat, v.metadata.toNat⟩

/-- The call of the reference for a task of the hardware. -/
def toCall : VPifo.Task W → Call
  | .push v => .push 0 (toPair v)
  | .pop => .pop 0

/-- The tree of the reference after a list of tasks. -/
def refRun (ts : List (VPifo.Task W)) : Option Pool := run 1 (ts.map toCall)

/-- No priority is `inf`. -/
def BelowInf (ts : List (VPifo.Task W)) : Prop :=
  ∀ v, VPifo.Task.push v ∈ ts → (v.priority.toNat : ℤ) < inf

/-- The elements of least priority of a multiset are copies of one value. -/
def OneLeast (s : Multiset (Val W)) : Prop :=
  ∀ u ∈ s, ∀ v ∈ s, (∀ w ∈ s, key u ≤ key w) → (∀ w ∈ s, key v ≤ key w) → u = v

instance (s : Multiset (Val W)) : Decidable (OneLeast s) :=
  inferInstanceAs (Decidable (∀ u ∈ s, ∀ v ∈ s, (∀ w ∈ s, key u ≤ key w) →
    (∀ w ∈ s, key v ≤ key w) → u = v))

/-- Whenever a pop came in this list of tasks, the elements of least priority were copies of
one value. -/
def TieFree (L : ℕ) (ts : List (VPifo.Task W)) : Prop :=
  ∀ pre, pre ++ [.pop] <+: ts → OneLeast (VPifo.stored L (seqMem L .two pre))

theorem TieFree.of_isPrefix {ts us : List (VPifo.Task W)} (h : TieFree L us) (hpre : ts <+: us) :
    TieFree L ts := fun pre hp => h pre (hp.trans hpre)

theorem toCall_valid {ts : List (VPifo.Task W)} (h : BelowInf ts) :
    ∀ c ∈ ts.map toCall, c.Valid 1 := by
  intro c hc
  obtain ⟨t, ht, rfl⟩ := List.mem_map.mp hc
  cases t with
  | push v => exact ⟨Nat.one_pos, h v ht⟩
  | pop => exact Nat.one_pos

theorem refRun_append_singleton (ts : List (VPifo.Task W)) (t : VPifo.Task W) :
    refRun (ts ++ [t]) = (refRun ts).bind fun p => exec p (toCall t) := by
  rw [refRun, List.map_append, List.map_singleton, run_append_singleton]
  rfl

/-- Two multisets with the same keys have the same least key. -/
theorem least_key_eq {α β : Type} {s : Multiset α} {t : Multiset β} {f : α → ℤ} {g : β → ℤ}
    (h : s.map f = t.map g) {x : α} {y : β} (hx : x ∈ s) (hy : y ∈ t)
    (hxs : ∀ z ∈ s, f x ≤ f z) (hyt : ∀ z ∈ t, g y ≤ g z) : f x = g y := by
  refine le_antisymm ?_ ?_
  · obtain ⟨z, hz, hzy⟩ := Multiset.mem_map.mp (h ▸ Multiset.mem_map_of_mem g hy)
    exact hzy ▸ hxs z hz
  · obtain ⟨z, hz, hzx⟩ := Multiset.mem_map.mp (h.symm ▸ Multiset.mem_map_of_mem f hx)
    exact hzx ▸ hyt z hz

/-- What the two trees have in common after a list of tasks. -/
structure Agree (L : ℕ) (ts : List (VPifo.Task W)) (p : Pool) : Prop where
  ranks : (stored p 0).map Pair.first =
    (VPifo.stored L (seqMem L .two ts)).map fun v => (v.priority.toNat : ℤ)
  pairs : TieFree L ts → stored p 0 = (VPifo.stored L (seqMem L .two ts)).map toPair

/-- The hardware's answer to a pop. -/
def hwPop (L : ℕ) (ts : List (VPifo.Task W)) : Val W := seqPopData L (seqMem L .two ts)

section Step

variable {ts : List (VPifo.Task W)} {p : Pool} {sh : ℕ → Shape}

theorem Agree.stored_eq_zero (h : Agree L ts p) :
    stored p 0 = 0 ↔ VPifo.stored L (seqMem L .two ts) = 0 := by
  rw [← Multiset.map_eq_zero (f := Pair.first), h.ranks, Multiset.map_eq_zero]

/-- A pop takes the same rank from both. -/
theorem Agree.pop_rank (h : Agree L ts p) (hinv : PoolInv 1 p sh)
    (hm : TreeInv L (seqMem L .two ts)) (hne : stored p 0 ≠ 0) :
    (p.top (treeRoot 0)).first = (hwPop L ts).priority.toNat := by
  obtain ⟨q, -, -, -, -, hfull, -⟩ := hinv.pop Nat.one_pos
  obtain ⟨hmem, hleast, -⟩ := hfull hne
  obtain ⟨hmem', hleast', -⟩ := hm.pop_of_ne_zero fun hz => hne (h.stored_eq_zero.mpr hz)
  refine least_key_eq h.ranks hmem hmem' (fun z hz => ?_) fun z hz => ?_
  · rcases Pair.le_iff.mp (hleast z hz) with hlt | heq
    · exact hlt.le
    · exact heq.1.le
  · exact_mod_cast hleast' z hz

/-- A pop takes the same pair from both, if the elements of least rank are copies of one. -/
theorem Agree.pop_pair (h : Agree L ts p) (hinv : PoolInv 1 p sh)
    (hm : TreeInv L (seqMem L .two ts)) (hne : stored p 0 ≠ 0) (htie : TieFree L (ts ++ [.pop])) :
    p.top (treeRoot 0) = toPair (hwPop L ts) := by
  have hpairs := h.pairs (htie.of_isPrefix (List.prefix_append _ _))
  obtain ⟨q, -, -, -, -, hfull, -⟩ := hinv.pop Nat.one_pos
  obtain ⟨hmem, -, -⟩ := hfull hne
  obtain ⟨hmem', hleast', -⟩ := hm.pop_of_ne_zero fun hz => hne (h.stored_eq_zero.mpr hz)
  rw [hpairs] at hmem
  obtain ⟨u, hu, hux⟩ := Multiset.mem_map.mp hmem
  have hkey : key u = key (hwPop L ts) := by
    have := h.pop_rank hinv hm hne
    rw [← hux] at this
    exact Int.ofNat.inj this
  have hone := htie ts List.prefix_rfl u hu (hwPop L ts) hmem' (fun w hw => ?_) hleast'
  · rw [← hux, hone]
  · rw [hkey]
    exact hleast' w hw

/-- **One push.** -/
theorem Agree.push (h : Agree L ts p) (hinv : PoolInv 1 p sh) {v : Val W} {q : Pool}
    (hq : exec p (toCall (.push v)) = some q) (hv : (v.priority.toNat : ℤ) < inf)
    (hstored : VPifo.stored L (seqMem L .two (ts ++ [.push v])) =
      v ::ₘ VPifo.stored L (seqMem L .two ts)) : Agree L (ts ++ [.push v]) q := by
  obtain ⟨q', -, -, hq', -, -, hself, -⟩ := hinv.push Nat.one_pos (v := toPair v) hv
  obtain rfl : q' = q := Option.some.inj (hq'.symm.trans hq)
  refine ⟨?_, fun htie => ?_⟩
  · rw [hself, hstored, Multiset.map_cons, Multiset.map_cons, h.ranks]
    rfl
  · rw [hself, hstored, Multiset.map_cons, h.pairs (htie.of_isPrefix (List.prefix_append _ _))]

/-- **One pop.** -/
theorem Agree.pop (h : Agree L ts p) (hinv : PoolInv 1 p sh) (hm : TreeInv L (seqMem L .two ts))
    {q : Pool} (hq : exec p (toCall (.pop : VPifo.Task W)) = some q) :
    Agree L (ts ++ [.pop]) q := by
  obtain ⟨q', hq', -, -, -, hfull, hempty, -⟩ := hinv.pop Nat.one_pos
  obtain rfl : q' = q := by
    rw [toCall, exec, hq'] at hq
    exact Option.some.inj hq
  by_cases hzero : stored p 0 = 0
  · have hz := h.stored_eq_zero.mp hzero
    have hsame : seqMem L .two (ts ++ [.pop]) = seqMem L .two ts := by
      rw [seqMem_append_singleton]
      exact (hm.pop_of_eq_zero hz).2
    refine ⟨?_, fun _ => ?_⟩
    · rw [hsame, hz, (hempty hzero).2]
      rfl
    · rw [hsame, hz, (hempty hzero).2]
      rfl
  · obtain ⟨hmem, -, herase⟩ := hfull hzero
    obtain ⟨hmem', -, herase'⟩ := hm.pop_of_ne_zero fun hz => hzero (h.stored_eq_zero.mpr hz)
    rw [← hwPop] at hmem'
    have hhw : VPifo.stored L (seqMem L .two (ts ++ [.pop])) =
        (VPifo.stored L (seqMem L .two ts)).erase (hwPop L ts) := by
      rw [seqMem_append_singleton]
      exact herase'
    refine ⟨?_, fun htie => ?_⟩
    · rw [herase, hhw, Multiset.map_erase_of_mem _ _ hmem, Multiset.map_erase_of_mem _ _ hmem',
        h.ranks, h.pop_rank hinv hm hzero]
    · rw [herase, hhw, Multiset.map_erase_of_mem _ _ hmem', h.pop_pair hinv hm hzero htie,
        h.pairs (htie.of_isPrefix (List.prefix_append _ _))]

end Step

/-- The two trees agree after every list of tasks. -/
theorem agree_run {ts : List (VPifo.Task W)} (hfits : Fits .two L ts) (hinf : BelowInf ts) :
    ∃ p sh, refRun ts = some p ∧ PoolInv 1 p sh ∧ Agree L ts p := by
  induction ts using List.reverseRecOn with
  | nil =>
    refine ⟨_, _, rfl, poolInv_init 1, ?_, fun _ => ?_⟩
    · rw [stored_init Nat.one_pos, seqMem_nil, VPifo.stored, elems_init]
      rfl
    · rw [stored_init Nat.one_pos, seqMem_nil, VPifo.stored, elems_init]
      rfl
  | append_singleton ts t ih =>
    have hfits' := hfits.of_isPrefix (List.prefix_append ts [t])
    obtain ⟨p, sh, hrun, hinv, hagree⟩ := ih hfits' fun v hv => hinf v (List.mem_append_left _ hv)
    obtain ⟨q, sh', hq, hinv'⟩ := run_inv (toCall_valid hinf)
    have hexec : exec p (toCall t) = some q := by
      rw [← refRun, refRun_append_singleton, hrun] at hq
      exact hq
    refine ⟨q, sh', hq, hinv', ?_⟩
    obtain ⟨hm, hcard⟩ := hfits'.treeInv
    cases t with
    | push v =>
      have hle := hfits.load_le _ List.prefix_rfl
      rw [load_push] at hle
      obtain ⟨-, hstored, -⟩ := hm.push (hfits.prio v (by simp)) (by omega)
      rw [← seqMem_append_singleton] at hstored
      exact hagree.push hinv hexec (hinf v (by simp)) hstored
    | pop => exact hagree.pop hinv hm hexec

/-- **The reference and the hardware pop the same ranks**, and the same packets as long as
the packets of least rank are alike whenever there is a pop.  For every list of tasks that
fits a tree of two-slot nodes, with priorities below both sentinels, and for every pop of
it: if the tree is empty, both answer their sentinel; otherwise they answer the same rank,
and the same pair unless this pop or an earlier one found two different pairs of least
rank. -/
theorem reference_agrees (W : Widths) (L : ℕ) (ts : List (VPifo.Task W)) (hfits : Fits .two L ts)
    (hinf : BelowInf ts) (pre : List (VPifo.Task W)) (hpre : pre ++ [.pop] <+: ts) :
    ∃ p x q, refRun pre = some p ∧ p.pop (p.tot + 1) (treeRoot 0) = some (x, q) ∧
      (VPifo.stored L (seqMem L .two pre) = 0 → x.first = inf ∧ hwPop L pre = Val.ones) ∧
      (VPifo.stored L (seqMem L .two pre) ≠ 0 →
        x.first = (hwPop L pre).priority.toNat ∧
        (TieFree L (pre ++ [.pop]) → x = toPair (hwPop L pre))) := by
  have hpre' := (List.prefix_append pre _).trans hpre
  have hfits' := hfits.of_isPrefix hpre'
  obtain ⟨p, sh, hrun, hinv, hagree⟩ := agree_run hfits' fun v hv => hinf v (hpre'.subset hv)
  obtain ⟨hm, -⟩ := hfits'.treeInv
  obtain ⟨q, hq, -, -, -, -, hempty, -⟩ := hinv.pop Nat.one_pos
  refine ⟨p, _, q, hrun, hq, fun hz => ?_, fun hne => ?_⟩
  · exact ⟨(hempty (hagree.stored_eq_zero.mpr hz)).1, (hm.pop_of_eq_zero hz).1⟩
  · have hne' : stored p 0 ≠ 0 := fun hz => hne (hagree.stored_eq_zero.mp hz)
    exact ⟨hagree.pop_rank hinv hm hne', hagree.pop_pair hinv hm hne'⟩

/-- A list of tasks that is evaluated fits a tree of two levels and has priorities below
`inf`. -/
theorem fits_of_inits (ts : List (VPifo.Task ⟨4, 2, 2⟩))
    (hload : ∀ pre ∈ ts.inits, load pre ≤ capacity .two 2)
    (hprio : ∀ t ∈ ts, ∀ v, t = VPifo.Task.push v → v.priority.toNat < 15) :
    Fits .two 2 ts ∧ BelowInf ts := by
  refine ⟨Fits.of_width (by decide) (fun v hv hempty => ?_)
    fun pre h => hload pre ((List.mem_inits _ _).mpr h), fun v hv => ?_⟩
  · have hlt := hprio _ hv v rfl
    rw [show v.priority = BitVec.allOnes 4 from hempty] at hlt
    exact absurd hlt (by decide)
  · have hlt := hprio _ hv v rfl
    rw [inf]
    omega

/-- Two packets of ranks 7 and 5, and a pop. -/
def twoRanks : List (VPifo.Task ⟨4, 2, 2⟩) := [.push ⟨1, 7⟩, .push ⟨2, 5⟩, .pop]

theorem reference_agrees_twoRanks :
    ∃ p q, refRun (twoRanks.take 2) = some p ∧
      p.pop (p.tot + 1) (treeRoot 0) = some (⟨5, 2⟩, q) := by
  obtain ⟨hfits, hinf⟩ := fits_of_inits twoRanks (by decide) (by simp [twoRanks])
  have hleast : ∀ pre ∈ twoRanks.inits, OneLeast (VPifo.stored 2 (seqMem 2 .two pre)) := by
    decide +kernel
  have htie : TieFree 2 twoRanks := fun pre hpre =>
    hleast pre ((List.mem_inits _ _).mpr ((List.prefix_append pre _).trans hpre))
  obtain ⟨p, x, q, hrun, hq, -, hfull⟩ := reference_agrees ⟨4, 2, 2⟩ 2 twoRanks hfits hinf
    (twoRanks.take 2) List.prefix_rfl
  have hne : VPifo.stored 2 (seqMem 2 .two (twoRanks.take 2)) ≠ 0 := by decide +kernel
  have hx : toPair (hwPop 2 (twoRanks.take 2)) = ⟨5, 2⟩ := by decide +kernel
  refine ⟨p, q, hrun, ?_⟩
  rw [hq, (hfull hne).2 htie, hx]

/-- The packets (5, 2) and (5, 1), pushed in this order, and a pop. -/
def equalRanks : List (VPifo.Task ⟨4, 2, 2⟩) := [.push ⟨2, 5⟩, .push ⟨1, 5⟩, .pop]

/-- **Two packets of one rank can come out in different orders**: of (5, 2) and (5, 1) the
reference pops (5, 1) first, the hardware (5, 2). -/
theorem reference_breaks_ties_otherwise :
    Fits .two 2 equalRanks ∧ BelowInf equalRanks ∧ equalRanks.take 2 ++ [.pop] <+: equalRanks ∧
      (refRun (equalRanks.take 2)).map (fun p => (p.pop (p.tot + 1) (treeRoot 0)).map Prod.fst) =
        some (some ⟨5, 1⟩) ∧
      toPair (hwPop 2 (equalRanks.take 2)) = ⟨5, 2⟩ := by
  obtain ⟨hfits, hinf⟩ := fits_of_inits equalRanks (by decide) (by simp [equalRanks])
  exact ⟨hfits, hinf, List.prefix_rfl, by decide +kernel, by decide +kernel⟩

end Reference

end VPifo
