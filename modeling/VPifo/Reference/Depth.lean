import VPifo.Reference.Tree

/-!
# The depth of the reference trees

A push goes down where the counter is smaller.  While every counter is the number of
elements below its slot, a tree of at most `2 ^ (L + 1) - 2` elements needs no more than
`L` levels: a full node has the room for one more element below the slot with the smaller
counter (`room_below`), and so `M` trees need fewer than `M * 2 ^ L` nodes.

The counters do not always say that.  Nodes are never freed, and a pop follows `son`, not
`num`: once a son is allocated, a pop goes down into it also when it holds nothing, finds
nothing there, and takes one off the counter above.  The counter is then below the number
of elements (`popEntersEmpty` says when a pop does this), later pushes are sent down the
same side too often, and the tree grows a level too many (`reference_tree_too_deep`).  In
a run without such pops the counters stay right and the depth is as it should be
(`reference_tree_depth`).
-/

namespace VPifo

namespace Reference

open HeapTree

/-! ## Levels -/

/-- The levels of the tree below a node, down to a given depth. -/
def levels : ℕ → Pool → ℕ → ℕ
  | 0, _, _ => 0
  | n + 1, p, i => if i = 0 then 0 else 1 + Finset.univ.sup fun k => levels n p ((p.node i).son k)

/-- The levels of tree `t`. -/
def treeLevels (p : Pool) (t : ℕ) : ℕ := levels p.tot p (treeRoot t)

theorem levels_eq (s : Shape) : ∀ {p : Pool} {n : ℕ}, Rep p s → s.height ≤ n →
    levels n p s.root = s.height := by
  induction s with
  | nil =>
    intro p n _ _
    cases n <;> simp [levels, Shape.root, Shape.height]
  | node i sub ih =>
    intro p n hs hn
    obtain ⟨n, rfl⟩ := Shape.exists_succ_of_height_le hn
    rw [Shape.root, levels, if_neg hs.1, Shape.height]
    congr 2
    funext k
    have := Shape.height_sub_lt i sub k
    rw [hs.2.1 k, ih k (hs.2.2.2.2 k) (by omega)]

/-- A shape of `n` levels has fewer than `2 ^ n` nodes. -/
theorem Shape.size_lt_two_pow (s : Shape) : ∀ {n : ℕ}, s.height ≤ n → s.size < 2 ^ n := by
  induction s with
  | nil => exact fun _ => Nat.two_pow_pos _
  | node i sub ih =>
    intro n hn
    obtain ⟨n, rfl⟩ := Shape.exists_succ_of_height_le hn
    have hsub : ∀ k, (sub k).size < 2 ^ n := by
      intro k
      have := Shape.height_sub_lt i sub k
      exact ih k (by omega)
    have h0 := hsub 0
    have h1 := hsub 1
    rw [Shape.size, Fin.sum_univ_two, Nat.pow_succ]
    omega

/-! ## Calls within a depth -/

/-- The pool after a call that may go down `n` levels. -/
def execWithin (n : ℕ) (p : Pool) : Call → Option Pool
  | .push t v => p.push n (treeRoot t) v
  | .pop t => (p.pop n (treeRoot t)).map Prod.snd

/-- The pool after a list of calls, each of which may go down `n` levels. -/
def runWithin (n M : ℕ) (cs : List Call) : Option Pool := cs.foldlM (execWithin n) (Pool.init M)

/-- The call is a pop that goes down into a node that holds nothing. -/
def Call.entersEmpty (p : Pool) : Call → Bool
  | .push _ _ => false
  | .pop t => p.popEntersEmpty (p.tot + 1) (treeRoot t)

theorem runWithin_append_singleton (n M : ℕ) (cs : List Call) (c : Call) :
    runWithin n M (cs ++ [c]) = (runWithin n M cs).bind fun p => execWithin n p c := by
  rw [runWithin, List.foldlM_append]
  cases hrun : List.foldlM (execWithin n) (Pool.init M) cs <;> simp [runWithin, hrun]

/-- A pop that has come to its end does not go down further when it may. -/
theorem pop_mono {n : ℕ} : ∀ {m : ℕ} {p : Pool} {root : ℕ} {x : Pair × Pool}, n ≤ m →
    p.pop n root = some x → p.pop m root = some x := by
  induction n with
  | zero => exact fun _ h => absurd h (by simp [Pool.pop])
  | succ n ih =>
    intro m p root x hm h
    obtain ⟨m, rfl⟩ : ∃ l, m = l + 1 := ⟨m - 1, by omega⟩
    rw [Pool.pop] at h ⊢
    split at h
    · next hson =>
      obtain ⟨y, hy, hyx⟩ := Option.map_eq_some_iff.mp h
      rw [if_pos hson, ih (Nat.le_of_succ_le_succ hm) hy, Option.map_some, hyx]
    · next hson =>
      rw [if_neg hson]
      exact h

/-! ## The invariant -/

/-- The counters are right and no tree has more than `L` levels. -/
structure DepthInv (L M : ℕ) (p : Pool) (sh : ℕ → Shape) : Prop extends PoolInv M p sh where
  counted : ∀ t < M, Counted p (sh t)
  height : ∀ t < M, (sh t).height ≤ L

section Inv

variable {L M : ℕ} {p : Pool} {sh : ℕ → Shape} {t : ℕ}

theorem depthInv_init (hL : 1 ≤ L) :
    DepthInv L M (Pool.init M) fun t => .node (treeRoot t) fun _ => .nil where
  toPoolInv := poolInv_init M
  counted _ _ := ⟨fun _ => rfl, fun _ => trivial⟩
  height _ _ := by
    have hflat : Finset.univ.sup (fun _ : Fin 2 => Shape.nil.height) = 0 := by decide
    rw [Shape.height, hflat]
    exact hL

/-- A push into a tree that is not full. -/
theorem DepthInv.push (h : DepthInv L M p sh) (ht : t < M) {v : Pair} (hv : v.first < inf)
    {q : Pool} (hq : exec p (.push t v) = some q)
    (hcap : (stored q t).card ≤ 2 ^ (L + 1) - 2) :
    execWithin L p (.push t v) = some q ∧ ∃ sh', DepthInv L M q sh' := by
  obtain ⟨q', s, hwithin, hq', hinv, hgrow, hself, -⟩ := h.toPoolInv.push ht hv
  obtain rfl : q' = q := Option.some.inj (hq'.symm.trans hq)
  have hroom : (elems (toHeap p (sh t))).card < 2 ^ (L + 1) - 2 := by
    rw [hself, Multiset.card_cons, h.stored_eq ht] at hcap
    exact hcap
  have hs : s.height ≤ L := hgrow.height L (h.counted t ht) (h.height t ht) hroom
  refine ⟨hwithin L hs, _, hinv, fun u hu => ?_, fun u hu => ?_⟩
  · by_cases hut : u = t
    · rw [hut, Function.update_self]
      exact hgrow.counted (h.counted t ht)
    · rw [Function.update_of_ne hut]
      exact counted_congr (h.push_frame ht hgrow hu hut) (h.counted u hu)
  · by_cases hut : u = t
    · rw [hut, Function.update_self]
      exact hs
    · rw [Function.update_of_ne hut]
      exact h.height u hu

/-- A pop that does not go down into an empty node. -/
theorem DepthInv.pop (h : DepthInv L M p sh) (ht : t < M) {q : Pool}
    (hq : exec p (.pop t) = some q) (hpath : Call.entersEmpty p (.pop t) = false) :
    execWithin L p (.pop t) = some q ∧ ∃ sh', DepthInv L M q sh' := by
  obtain ⟨q', hq', hinv, hkeep, hcount, -⟩ := h.toPoolInv.pop ht
  obtain rfl : q' = q := by
    rw [exec, hq'] at hq
    exact Option.some.inj hq
  refine ⟨?_, sh, hinv, fun u hu => ?_, h.height⟩
  · obtain ⟨q'', hq'', -⟩ := pop_spec (sh t) (h.rep t ht) (h.ne_nil ht) h.bounded (h.height t ht)
    rw [h.root t ht] at hq''
    have hsame : some (p.top (treeRoot t), q'') = some (p.top (treeRoot t), q') := by
      rw [← hq', ← pop_mono (Nat.le_max_left L (p.tot + 1)) hq'',
        pop_mono (Nat.le_max_right L (p.tot + 1)) hq', hq']
    rw [execWithin, hq'', hsame]
    rfl
  · by_cases hut : u = t
    · rw [hut]
      exact hcount (h.counted t ht) hpath
    · exact counted_congr (h.pop_frame ht hkeep hu hut) (h.counted u hu)

theorem DepthInv.treeLevels_le (h : DepthInv L M p sh) (ht : t < M) : treeLevels p t ≤ L := by
  rw [treeLevels, ← h.root t ht, levels_eq _ (h.rep t ht) (h.height_le ht)]
  exact h.height t ht

theorem DepthInv.tot_lt (h : DepthInv L M p sh) (hM : 0 < M) : p.tot < M <<< L := by
  rw [h.size, Nat.shiftLeft_eq, ← Finset.card_range M, ← smul_eq_mul, ← Finset.sum_const]
  rw [Finset.card_range]
  exact Finset.sum_lt_sum_of_nonempty ⟨0, Finset.mem_range.mpr hM⟩
    fun t ht => Shape.size_lt_two_pow (sh t) (h.height t (Finset.mem_range.mp ht))

end Inv

/-! ## Runs -/

/-- No tree of `M` holds more than `2 ^ (L + 1) - 2` elements at any time of the run. -/
def NeverOverfull (L M : ℕ) (cs : List Call) : Prop :=
  ∀ pre, pre <+: cs → ∀ p, run M pre = some p → ∀ t < M, (stored p t).card ≤ 2 ^ (L + 1) - 2

/-- No pop of the run goes down into a node that holds nothing. -/
def NeverEntersEmpty (M : ℕ) (cs : List Call) : Prop :=
  ∀ pre c, pre ++ [c] <+: cs → ∀ p, run M pre = some p → c.entersEmpty p = false

theorem run_depthInv {L M : ℕ} (hL : 1 ≤ L) {cs : List Call} (h : ∀ c ∈ cs, c.Valid M)
    (hcap : NeverOverfull L M cs) (hpop : NeverEntersEmpty M cs) :
    ∃ p sh, run M cs = some p ∧ runWithin L M cs = some p ∧ DepthInv L M p sh := by
  induction cs using List.reverseRecOn with
  | nil => exact ⟨_, _, rfl, rfl, depthInv_init hL⟩
  | append_singleton cs c ih =>
    have hsub : cs <+: cs ++ [c] := List.prefix_append cs [c]
    obtain ⟨p, sh, hrun, hwithin, hinv⟩ := ih (fun x hx => h x (List.mem_append_left _ hx))
      (fun pre hpre => hcap pre (hpre.trans hsub)) fun pre x hpre => hpop pre x (hpre.trans hsub)
    have hc := h c (by simp)
    have hpath := hpop cs c List.prefix_rfl p hrun
    obtain ⟨q, -, hq, -⟩ := run_inv h
    have hexec : exec p c = some q := by
      rw [run_append_singleton, hrun] at hq
      exact hq
    have hstep : execWithin L p c = some q ∧ ∃ sh', DepthInv L M q sh' := by
      cases c with
      | push t v => exact hinv.push hc.1 hc.2 hexec (hcap _ List.prefix_rfl q hq t hc.1)
      | pop t => exact hinv.pop hc hexec hpath
    obtain ⟨hwithin', sh', hinv'⟩ := hstep
    refine ⟨q, sh', hq, ?_, hinv'⟩
    rw [runWithin_append_singleton, hwithin]
    exact hwithin'

/-- **The reference trees keep to their depth and to the node pool as long as no pop goes
down into a node that holds nothing.**  In every such run of calls on `M` trees, none of
which ever holds more than `2 ^ (L + 1) - 2` elements, every call goes down at most `L`
levels, no tree has more than `L` levels, and fewer than `M << L` nodes are allocated. -/
theorem reference_tree_depth (L M : ℕ) (hL : 1 ≤ L) (hM : 0 < M) (cs : List Call)
    (h : ∀ c ∈ cs, c.Valid M) (hcap : NeverOverfull L M cs) (hpop : NeverEntersEmpty M cs) :
    ∃ p, run M cs = some p ∧ runWithin L M cs = some p ∧ p.tot < M <<< L ∧
      ∀ t < M, treeLevels p t ≤ L := by
  obtain ⟨p, sh, hrun, hwithin, hinv⟩ := run_depthInv hL h hcap hpop
  exact ⟨p, hrun, hwithin, hinv.tot_lt hM, fun t ht => hinv.treeLevels_le ht⟩

/-! ## Runs that are evaluated -/

/-- What `NeverOverfull` asks, on the prefixes of the run one after the other. -/
def overfullFree (L M : ℕ) (cs : List Call) : Bool :=
  cs.inits.all fun pre => (run M pre).all fun p =>
    (List.range M).all fun t => decide ((stored p t).card ≤ 2 ^ (L + 1) - 2)

theorem neverOverfull_of {L M : ℕ} {cs : List Call} (h : overfullFree L M cs = true) :
    NeverOverfull L M cs := by
  intro pre hpre p hp t ht
  have hrun := List.all_eq_true.mp h pre ((List.mem_inits pre cs).mpr hpre)
  rw [hp, Option.all_some] at hrun
  exact of_decide_eq_true (List.all_eq_true.mp hrun t (List.mem_range.mpr ht))

/-- What `NeverEntersEmpty` asks, on the calls of the run one after the other. -/
def emptyFree (M : ℕ) (cs : List Call) : Bool :=
  (List.range cs.length).all fun n =>
    (run M (cs.take n)).all fun p => (cs[n]?).all fun c => !c.entersEmpty p

theorem neverEntersEmpty_of {M : ℕ} {cs : List Call} (h : emptyFree M cs = true) :
    NeverEntersEmpty M cs := by
  rintro pre c ⟨post, rfl⟩ p hp
  have hlen : pre.length < (pre ++ [c] ++ post).length := by simp
  have hrun := List.all_eq_true.mp h pre.length (List.mem_range.mpr hlen)
  have htake : (pre ++ [c] ++ post).take pre.length = pre := by
    rw [List.append_assoc, List.take_left]
  have hget : (pre ++ [c] ++ post)[pre.length]? = some c := by simp
  rw [htake, hp, Option.all_some, hget, Option.all_some] at hrun
  simpa using hrun

/-- Three packets through one tree of two levels. -/
theorem reference_tree_depth_threePackets :
    ∃ p, run 1 [.push 0 ⟨1, 1⟩, .push 0 ⟨2, 2⟩, .push 0 ⟨3, 3⟩, .pop 0] = some p ∧
      runWithin 2 1 [.push 0 ⟨1, 1⟩, .push 0 ⟨2, 2⟩, .push 0 ⟨3, 3⟩, .pop 0] = some p ∧
      p.tot < 1 <<< 2 ∧ ∀ t < 1, treeLevels p t ≤ 2 :=
  reference_tree_depth 2 1 (by decide) (by decide)
    [.push 0 ⟨1, 1⟩, .push 0 ⟨2, 2⟩, .push 0 ⟨3, 3⟩, .pop 0] (by decide)
    (neverOverfull_of (by decide +kernel)) (neverEntersEmpty_of (by decide +kernel))

/-- Four packets go in and out, then two more one after the other, then five go in: the tree
never holds more than five elements, and has a third level and a fourth node. -/
def drainAndRefill : List Call :=
  [.push 0 ⟨1, 0⟩, .push 0 ⟨2, 0⟩, .push 0 ⟨3, 0⟩, .push 0 ⟨4, 0⟩, .pop 0, .pop 0, .pop 0, .pop 0,
    .push 0 ⟨5, 0⟩, .pop 0, .push 0 ⟨6, 0⟩, .pop 0, .push 0 ⟨1, 0⟩, .push 0 ⟨2, 0⟩,
    .push 0 ⟨3, 0⟩, .push 0 ⟨4, 0⟩, .push 0 ⟨5, 0⟩]

/-- **A tree of five elements can be three levels deep.** -/
theorem reference_tree_too_deep : (∀ c ∈ drainAndRefill, c.Valid 1) ∧
    NeverOverfull 2 1 drainAndRefill ∧ ∃ p, run 1 drainAndRefill = some p ∧
      ¬p.tot < 1 <<< 2 ∧ ¬treeLevels p 0 ≤ 2 ∧ runWithin 2 1 drainAndRefill = none := by
  have hrun : ((run 1 drainAndRefill).any fun p =>
      decide (¬p.tot < 1 <<< 2 ∧ ¬treeLevels p 0 ≤ 2)) = true := by decide +kernel
  have hnone : (runWithin 2 1 drainAndRefill).isNone = true := by decide +kernel
  obtain ⟨p, hp, hdeep⟩ := Option.any_eq_true .. |>.mp hrun
  obtain ⟨htot, hlevels⟩ := of_decide_eq_true hdeep
  exact ⟨by decide, neverOverfull_of (by decide +kernel), p, hp, htot, hlevels,
    Option.isNone_iff_eq_none.mp hnone⟩

end Reference

end VPifo
