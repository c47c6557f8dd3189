import VPifo.Lib.Runs
import VPifo.Simulator.AlgoLoop
import Mathlib.Algebra.BigOperators.Ring.Finset

/-!
# What the throughput counters count

The statistics see the ring one cycle after the tasks were sent.  They take an RPU with all `L`
cycles to live for a task that has just been dispatched: a pop of it is executed and counted,
and anything else is counted as a push.  But a pop leaves its write-back behind, which keeps
the `TTL` of the pop for one more cycle, and so the pop is counted as a push in the cycle after
the one that executes it.

`Tally` says what the counters are at the end of a cycle.  `pending` is what the statistics of
the next cycle are going to add to `push_num`: the pushes that were sent, and the write-backs of
the pops that were executed (`pending_ringStep`).
-/

namespace VPifo

namespace Simulator

open Cyclic Reference

namespace Algo

/-! ## What the statistics see -/

section Ring

variable (c : Params)

/-- The task list of tree `u`. -/
def Params.home (u : ℕ) : ℕ := u % c.N

/-- The statistics count this task as a push of tree `u`. -/
def Pending (u : ℕ) (t : Task) : Prop := t.TTL = c.L ∧ t.type ≠ .pop ∧ t.root = u

instance (u : ℕ) (t : Task) : Decidable (Pending c u t) := inferInstanceAs (Decidable (_ ∧ _))

/-- What is counted as a push of tree `u` in the first `n` RPUs. -/
def pending (rpu : ℕ → Task) (n u : ℕ) : ℕ :=
  ∑ i ∈ Finset.range n, if Pending c u (rpu i) then 1 else 0

/-- The pops of tree `u` that are executed in the first `n` RPUs. -/
def ready (rpu : ℕ → Task) (n u : ℕ) : ℕ :=
  ∑ i ∈ Finset.range n, if (rpu i).Ready c.L ∧ (rpu i).root = u then 1 else 0

variable {c}

/-- The tasks of different RPUs that satisfy `q`. -/
theorem sum_exists_mem {N : ℕ} {sent : List (ℕ × Task)} (hlt : ∀ x ∈ sent, x.1 < N)
    (hnodup : (sent.map Prod.fst).Nodup) (q : Task → Prop) [DecidablePred q]
    [∀ i, Decidable (∃ t, (i, t) ∈ sent ∧ q t)] :
    (∑ i ∈ Finset.range N, if ∃ t, (i, t) ∈ sent ∧ q t then 1 else 0) =
      sent.countP fun x => decide (q x.2) := by
  have hsub : ((sent.filter fun x => decide (q x.2)).map Prod.fst).Nodup :=
    hnodup.sublist (List.filter_sublist.map Prod.fst)
  have hset : (Finset.range N).filter (fun i => ∃ t, (i, t) ∈ sent ∧ q t) =
      ((sent.filter fun x => decide (q x.2)).map Prod.fst).toFinset := by
    ext i
    simp only [Finset.mem_filter, Finset.mem_range, List.mem_toFinset, List.mem_map,
      List.mem_filter, decide_eq_true_eq]
    constructor
    · rintro ⟨-, t, ht, hq⟩
      exact ⟨(i, t), ⟨ht, hq⟩, rfl⟩
    · rintro ⟨⟨j, t⟩, ⟨ht, hq⟩, rfl⟩
      exact ⟨hlt _ ht, t, ht, hq⟩
  rw [← Finset.card_filter, hset, List.toFinset_card_of_nodup hsub, List.length_map,
    List.countP_eq_length_filter]

/-- **What the next statistics count as pushes**: those that have been sent, and the pops that
have just been executed. -/
theorem pending_ringStep (c : Params) {rpu : ℕ → Task} {lists : ℕ → List Task}
    (hring : RingInv c.N c.L rpu) (hload : Loaded c.L lists) (locked : ℕ → Bool) (u : ℕ) :
    pending c (ringStep c.N locked lists rpu).rpu c.N u = ready c rpu c.N u +
      (ringStep c.N locked lists rpu).sent.countP
        fun x => decide (x.2.type = .push ∧ x.2.root = u) := by
  have hstep := ringStep_inv locked c.two_le_N c.two_le_L hring hload
  have hfull := fun x (hx : x < c.N) =>
    ringStep_full c.two_le_N c.two_le_L hring locked lists hx
  classical
  rw [← sum_exists_mem (fun x hx => (hstep.sent x hx).1) hstep.nodup
    fun t => t.type = .push ∧ t.root = u, pending, ready, ← Finset.sum_add_distrib]
  refine Finset.sum_congr rfl fun x hx => ?_
  have hx := Finset.mem_range.mp hx
  -- an RPU with a pop was not empty, so nothing was sent to it
  have hpop : (rpu x).type = .pop →
      (ringStep c.N locked lists rpu).rpu x = { rpu x with type := .writeBack } := by
    intro hpop
    have hpass : passDown c.N rpu x = { rpu x with type := .writeBack } := by
      rw [passDown_eq rpu hx, passed, if_pos hpop]
    rw [hstep.kept x hx (by rw [hpass]; exact OpType.noConfusion), hpass]
  by_cases hready : (rpu x).Ready c.L ∧ (rpu x).root = u
  · have hno : ¬∃ t, (x, t) ∈ (ringStep c.N locked lists rpu).sent ∧ t.type = .push ∧
        t.root = u := by
      rintro ⟨t, ht, htype, -⟩
      have hrpu : (ringStep c.N locked lists rpu).rpu x = t := (hstep.sent _ ht).2.1
      rw [hpop hready.1.2] at hrpu
      rw [← hrpu] at htype
      exact OpType.noConfusion htype
    rw [if_pos hready, if_neg hno, if_pos]
    rw [hpop hready.1.2]
    exact ⟨hready.1.1, OpType.noConfusion, hready.2⟩
  · rw [if_neg hready, zero_add]
    refine if_congr ⟨fun hpend => ?_, ?_⟩ rfl rfl
    · rcases hfull x hx hpend.1 with hsent | ⟨htype, hTTL, hrpu⟩
      · exact ⟨_, hsent, ((hstep.sent _ hsent).2.2.type).resolve_right hpend.2.1, hpend.2.2⟩
      · refine absurd ⟨⟨hTTL, htype⟩, ?_⟩ hready
        have hroot := hpend.2.2
        rw [hrpu] at hroot
        exact hroot
    · rintro ⟨t, ht, htype, hroot⟩
      obtain ⟨-, hrpu, hfresh⟩ := hstep.sent _ ht
      dsimp only at hrpu
      rw [hrpu]
      exact ⟨hfresh.TTL, by rw [htype]; exact OpType.noConfusion, hroot⟩

end Ring

/-! ## The phases of a cycle -/

/-- What holds of the tasks and the trees at every point. -/
structure Wired {X : Type} (c : Params) (s : State X) : Prop where
  ring : RingInv c.N c.L s.rpu
  placed : Placed c.home c.L s.lists
  ready : ReadyPlaced c.home c.N c.L s.rpu
  forest : Forest c.M s.pool

/-- The sums are the totals of the counters. -/
structure Totals {X : Type} (c : Params) (s : State X) : Prop where
  push : s.pushSum = ∑ u ∈ (Finset.range c.M).erase 0, s.pushNum u
  pop : s.popSum = ∑ u ∈ (Finset.range c.M).erase 0, s.popNum u

/-- As long as no pop runs on an empty tree, a tree without a push has seen no pop, either. -/
def Untouched {X : Type} (c : Params) (s : State X) (h : History) : Prop :=
  h.emptyPop = false → ∀ u < c.M, h.dispatched u = 0 →
    h.executed u = 0 ∧ s.pool.node (treeRoot u) = TreeNode.blank

/-- Tasks arrive. -/
inductive Arrived {X : Type} (c : Params) (s : State X) : State X → Prop where
  | refl : Arrived c s s
  | push {s' : State X} (h : Arrived c s s') {t : Task} (ht : t.Fresh c.L) :
      Arrived c s (s'.pushTask (c.home t.root) t)
  | extra {s' : State X} (h : Arrived c s s') (x : X) : Arrived c s { s' with extra := x }

/-- The tasks of a program arrive where they belong. -/
def Program.Sound {X I : Type} (c : Params) (p : Program X I) : Prop :=
  ∀ input s s', p.arrive input s = some s' → Arrived c s s'

/-- What the statistics have done when they have reached RPU `n`. -/
structure Counted {X : Type} (c : Params) (s₀ : State X) (h₀ : History) (n : ℕ) (s : State X)
    (h : History) : Prop where
  wired : Wired c s
  totals : Totals c s
  untouched : Untouched c s h
  rpu : s.rpu = s₀.rpu
  pushNum : ∀ u, u ≠ 0 → s.pushNum u = s₀.pushNum u + pending c s₀.rpu n u
  popNum : ∀ u, u ≠ 0 → s.popNum u = s₀.popNum u + ready c s₀.rpu n u
  executed : ∀ u, h.executed u = h₀.executed u + ready c s₀.rpu n u
  dispatched : h.dispatched = h₀.dispatched
  before : h.executedBefore = h₀.executedBefore

/-- **The counters at the end of a cycle.**  What `push_num` is short of, or is going to have too
much, is what is pending. -/
structure Tally {X : Type} (c : Params) (s : State X) (h : History) : Prop where
  wired : Wired c s
  totals : Totals c s
  untouched : Untouched c s h
  pushNum : ∀ u, u ≠ 0 → s.pushNum u + pending c s.rpu c.N u = h.dispatched u + h.executed u
  popNum : ∀ u, u ≠ 0 → s.popNum u = h.executed u
  before : h.executedBefore = h.executed

section Phases

variable {X I : Type} {c : Params} {s s' s₀ : State X} {h h' h₀ : History} {i n u : ℕ}

theorem Wired.pushTask (hw : Wired c s) {t : Task} (ht : t.Fresh c.L) :
    Wired c (s.pushTask (c.home t.root) t) :=
  ⟨hw.ring, placed_append hw.placed rfl ht fun _ => rfl, hw.ready, hw.forest⟩

theorem fresh_mkPush (c : Params) (root : ℕ) (rank val : ℤ) :
    (mkPush c root rank val).Fresh c.L := ⟨Or.inl rfl, rfl⟩

theorem fresh_mkPop (c : Params) (root : ℕ) : (mkPop c root).Fresh c.L := ⟨Or.inr rfl, rfl⟩

/-- What arrives changes the lists only. -/
theorem Arrived.same (ha : Arrived c s s') (hw : Wired c s) : Wired c s' ∧ s'.rpu = s.rpu ∧
    s'.pool = s.pool ∧ s'.pushNum = s.pushNum ∧ s'.popNum = s.popNum ∧
    s'.pushSum = s.pushSum ∧ s'.popSum = s.popSum := by
  induction ha with
  | refl => exact ⟨hw, rfl, rfl, rfl, rfl, rfl, rfl⟩
  | push _ ht ih => exact ⟨ih.1.pushTask ht, ih.2⟩
  | extra _ x ih => exact ⟨⟨ih.1.ring, ih.1.placed, ih.1.ready, ih.1.forest⟩, ih.2⟩

theorem pending_succ (rpu : ℕ → Task) : pending c rpu (n + 1) u =
    pending c rpu n u + if Pending c u (rpu n) then 1 else 0 := Finset.sum_range_succ _ n

theorem ready_succ (rpu : ℕ → Task) : ready c rpu (n + 1) u =
    ready c rpu n u + if (rpu n).Ready c.L ∧ (rpu n).root = u then 1 else 0 :=
  Finset.sum_range_succ _ n

/-- One more in the count of a tree is one more in the total. -/
theorem sum_erase_add_one {M v : ℕ} (hv : v < M) (hv0 : v ≠ 0) (f : ℕ → ℕ) :
    (∑ u ∈ (Finset.range M).erase 0, if u = v then f u + 1 else f u) =
      (∑ u ∈ (Finset.range M).erase 0, f u) + 1 := by
  have hmem : v ∈ (Finset.range M).erase 0 :=
    Finset.mem_erase.mpr ⟨hv0, Finset.mem_range.mpr hv⟩
  rw [← Finset.add_sum_erase _ _ hmem, ← Finset.add_sum_erase _ f hmem, if_pos rfl,
    Finset.sum_congr rfl fun u hu => if_neg (Finset.ne_of_mem_erase hu)]
  exact Nat.add_right_comm _ _ _

/-- The tree of a node that nothing has been written to is empty. -/
theorem isEmpty_top_of_blank {p : Pool} {root : ℕ} (hblank : p.node root = TreeNode.blank) :
    (p.top root).IsEmpty := by
  rw [Pool.top, hblank]
  rfl

/-- The history after a pop of tree `v`. -/
theorem Untouched.pop (hu : Untouched c s h) {v : ℕ} {s' : State X}
    {h' : History} (hdispatched : h'.dispatched = h.dispatched)
    (hexecuted : ∀ u, u ≠ v → h'.executed u = h.executed u)
    (hempty : h'.emptyPop = (h.emptyPop || decide (s.pool.top (treeRoot v)).IsEmpty))
    (hpool : ∀ i, i ≠ treeRoot v → i ≤ c.M → s'.pool.node i = s.pool.node i) :
    Untouched c s' h' := by
  intro hno u hlt hzero
  rw [hempty, Bool.or_eq_false_iff, decide_eq_false_iff_not] at hno
  rw [hdispatched] at hzero
  obtain ⟨hexec, hblank⟩ := hu hno.1 u hlt hzero
  have huv : u ≠ v := by
    rintro rfl
    exact hno.2 (isEmpty_top_of_blank hblank)
  have hne : treeRoot u ≠ treeRoot v := fun heq => huv (Nat.succ_injective heq)
  rw [hexecuted u huv, hpool _ hne hlt]
  exact ⟨hexec, hblank⟩

/-- Nothing happens to an RPU that is not in its first cycle. -/
theorem Counted.skip (hc : Counted c s₀ h₀ n s h) (hready : ¬(s.rpu n).Ready c.L)
    (hpending : ∀ u, u ≠ 0 → ¬Pending c u (s.rpu n)) : Counted c s₀ h₀ (n + 1) s h := by
  have hrpu := hc.rpu
  rw [hrpu] at hready hpending
  have hready' : ∀ u, ready c s₀.rpu (n + 1) u = ready c s₀.rpu n u := fun u => by
    rw [ready_succ, if_neg fun h => hready h.1, add_zero]
  refine ⟨hc.wired, hc.totals, hc.untouched, hrpu, fun u hu => ?_, fun u hu => ?_, fun u => ?_,
    hc.dispatched, hc.before⟩
  · rw [pending_succ, if_neg (hpending u hu), add_zero]
    exact hc.pushNum u hu
  · rw [hready']
    exact hc.popNum u hu
  · rw [hready']
    exact hc.executed u

/-- A task that is not a pop is counted as a push. -/
theorem Counted.push (hc : Counted c s₀ h₀ n s h) (hTTL : (s.rpu n).TTL = c.L)
    (hM : (s.rpu n).root < c.M) (htype : (s.rpu n).type ≠ .pop) (hroot : (s.rpu n).root ≠ 0) :
    Counted c s₀ h₀ (n + 1) { s with
      pushSum := s.pushSum + 1
      pushNum := fun u => if u = (s.rpu n).root then s.pushNum u + 1 else s.pushNum u } h := by
  have hrpu := hc.rpu
  have hready' : ∀ u, ready c s₀.rpu (n + 1) u = ready c s₀.rpu n u := fun u => by
    rw [ready_succ, ← hrpu, if_neg fun h => htype h.1.2, add_zero]
  refine ⟨⟨hc.wired.ring, hc.wired.placed, hc.wired.ready, hc.wired.forest⟩,
    ⟨?_, hc.totals.pop⟩, hc.untouched, hrpu, fun u hu => ?_, fun u hu => ?_, fun u => ?_,
    hc.dispatched, hc.before⟩
  · dsimp only
    rw [sum_erase_add_one hM hroot, hc.totals.push]
  · dsimp only
    rw [pending_succ, ← hrpu, hc.pushNum u hu, ← hrpu]
    by_cases hur : u = (s.rpu n).root
    · rw [if_pos hur, if_pos ⟨hTTL, htype, hur.symm⟩, add_assoc]
    · rw [if_neg hur, if_neg fun h => hur h.2.2.symm, add_zero]
  · rw [hready']
    exact hc.popNum u hu
  · rw [hready']
    exact hc.executed u

/-- A pop in its first cycle is one more for its root, and none for the pending pushes. -/
theorem succ_of_ready {rpu : ℕ → Task} (hready : (rpu n).Ready c.L) (u : ℕ) :
    ready c rpu (n + 1) u = ready c rpu n u + (if u = (rpu n).root then 1 else 0) ∧
      pending c rpu (n + 1) u = pending c rpu n u := by
  constructor
  · rw [ready_succ]
    exact congrArg _ (if_congr ⟨fun h => h.2.symm, fun h => ⟨hready, h.symm⟩⟩ rfl rfl)
  · rw [pending_succ, if_neg fun h => h.2.1 hready.2, add_zero]

/-- A pop is executed. -/
theorem Counted.pop (hc : Counted c s₀ h₀ n s h) (hready : (s.rpu n).Ready c.L)
    (hM : (s.rpu n).root < c.M) {onPop : X → ℕ → Pair → X} {s' : State X}
    (hpop : (s.pool.pop (s.pool.tot + 1) (treeRoot (s.rpu n).root)).bind (s.popped c onPop n) =
      some s') : Counted c s₀ h₀ (n + 1) s' (h.execAt c s n) := by
  have hrpu := hc.rpu
  have hexec : h.execAt c s n = { h with
      executed := fun u => if u = (s.rpu n).root then h.executed u + 1 else h.executed u
      emptyPop := h.emptyPop || decide (s.pool.top (treeRoot (s.rpu n).root)).IsEmpty } :=
    if_pos hready
  have hroot : treeRoot (s.rpu n).root ≤ s.pool.tot := le_trans hM hc.wired.forest.roots
  obtain ⟨pa, q, hq, hforest, -, hframe⟩ := hc.wired.forest.pop (n := s.pool.tot + 1) hroot
    (by omega)
  rw [hq, Option.bind_some, State.popped] at hpop
  dsimp only at hpop
  have hwired : Wired c { s with pool := q, extra := onPop s.extra (s.rpu n).root pa } :=
    ⟨hc.wired.ring, hc.wired.placed, hc.wired.ready, hforest⟩
  have hready' : ∀ u, ready c s₀.rpu (n + 1) u =
      ready c s₀.rpu n u + if u = (s.rpu n).root then 1 else 0 := fun u =>
    hrpu ▸ (succ_of_ready hready u).1
  have hpending : ∀ u, pending c s₀.rpu (n + 1) u = pending c s₀.rpu n u := fun u =>
    hrpu ▸ (succ_of_ready hready u).2
  have hexecuted : ∀ u, (h.execAt c s n).executed u = h₀.executed u + ready c s₀.rpu (n + 1) u := by
    intro u
    rw [hexec, hready']
    dsimp only
    rw [hc.executed u]
    split <;> rfl
  have huntouched : ∀ s'' : State X, s''.pool = q → Untouched c s'' (h.execAt c s n) := by
    rintro s'' hpool
    refine hc.untouched.pop (v := (s.rpu n).root) (by rw [hexec]) (fun u hu => ?_) (by rw [hexec])
      fun i hi hiM => ?_
    · rw [hexec]
      exact if_neg hu
    · rw [hpool]
      exact hframe i hi hiM
  split at hpop
  · next hroot =>
    split at hpop
    · rw [← Option.some.inj hpop]
      refine ⟨hwired.pushTask (fresh_mkPop c pa.second.toNat), ⟨hc.totals.push, hc.totals.pop⟩,
        huntouched _ rfl, hrpu, fun u hu => ?_, fun u hu => ?_, hexecuted, ?_, ?_⟩
      · rw [hpending]
        exact hc.pushNum u hu
      · rw [hready', if_neg (hroot ▸ hu), add_zero]
        exact hc.popNum u hu
      · rw [hexec]
        exact hc.dispatched
      · rw [hexec]
        exact hc.before
    · exact absurd hpop (by simp)
  · next hroot =>
    rw [← Option.some.inj hpop]
    refine ⟨⟨hc.wired.ring, hc.wired.placed, hc.wired.ready, hforest⟩, ⟨hc.totals.push, ?_⟩,
      huntouched _ rfl, hrpu, fun u hu => ?_, fun u hu => ?_, hexecuted, ?_, ?_⟩
    · dsimp only
      rw [sum_erase_add_one hM hroot, hc.totals.pop]
    · rw [hpending]
      exact hc.pushNum u hu
    · rw [hready']
      dsimp only
      rw [hc.popNum u hu]
      split <;> rfl
    · rw [hexec]
      exact hc.dispatched
    · rw [hexec]
      exact hc.before

/-- **A round of the statistics.** -/
theorem Counted.countAt (hc : Counted c s₀ h₀ n s h) {onPop : X → ℕ → Pair → X}
    {x : State X × History} (hstep : countAt c onPop (s, h) n = some x) :
    Counted c s₀ h₀ (n + 1) x.1 x.2 := by
  obtain ⟨s', hs', rfl⟩ := Option.map_eq_some_iff.mp hstep
  dsimp only at hs' ⊢
  rw [State.execAt] at hs'
  by_cases hready : (s.rpu n).Ready c.L
  · rw [if_pos hready.1] at hs'
    split at hs'
    · exact absurd hs' (by simp)
    · next hM =>
      rw [if_pos hready.2] at hs'
      exact hc.pop hready (not_le.mp hM) hs'
  · rw [History.execAt, if_neg hready]
    by_cases hTTL : (s.rpu n).TTL = c.L
    · have htype : (s.rpu n).type ≠ .pop := fun h => hready ⟨hTTL, h⟩
      rw [if_pos hTTL] at hs'
      split at hs'
      · exact absurd hs' (by simp)
      · next hM =>
        split at hs'
        · next hroot =>
          rw [← Option.some.inj hs']
          exact hc.push hTTL (not_le.mp hM) htype hroot
        · next hroot =>
          rw [← Option.some.inj hs']
          exact hc.skip hready fun u hu hp => hroot fun h0 => hu (hp.2.2.symm.trans h0)
    · rw [if_neg hTTL] at hs'
      rw [← Option.some.inj hs']
      exact hc.skip hready fun u _ hp => hTTL hp.1

/-- **The statistics phase.**  After it `push_num` is what has been dispatched, and what had been
executed in the cycles before. -/
theorem Tally.count {p : Program X I} (ht : Tally c s h) (hp : p.Sound c) {input : I}
    {x : State X × History} (hcount : p.count c input (s, h) = some x) :
    ∃ s₁ : State X, Counted c s₁ h c.N x.1 x.2 ∧ s₁.rpu = s.rpu ∧ s₁.pushNum = s.pushNum ∧
      s₁.popNum = s.popNum := by
  obtain ⟨s₁, harrive, hloop⟩ := Option.bind_eq_some_iff.mp hcount
  obtain ⟨hwired, hrpu, hpool, hpush, hpop, hpushSum, hpopSum⟩ :=
    (hp _ _ _ harrive).same ht.wired
  refine ⟨s₁, ?_, hrpu, hpush, hpop⟩
  have hstart : Counted c s₁ h 0 s₁ h := by
    refine ⟨hwired, ⟨?_, ?_⟩, fun hno u hu hzero => ?_, rfl, fun _ _ => rfl, fun _ _ => rfl,
      fun _ => rfl, rfl, rfl⟩
    · rw [hpushSum, hpush]
      exact ht.totals.push
    · rw [hpopSum, hpop]
      exact ht.totals.pop
    · rw [hpool]
      exact ht.untouched hno u hu hzero
  exact Runs.foldlM_range_keeps (P := fun n x => Counted c s₁ h n x.1 x.2) hstart
    (fun i _ _ _ hcounted hround => hcounted.countAt hround) hloop

/-- Pushes are executed in the trees they are for. -/
theorem pushSent_spec (sent : List (ℕ × Task)) : ∀ {q q' : Pool}, Forest c.M q →
    pushSent c sent q = some q' → Forest c.M q' ∧ ∀ u < c.M,
      (sent.countP fun x => decide (x.2.type = .push ∧ x.2.root = u)) = 0 →
      q'.node (treeRoot u) = q.node (treeRoot u) := by
  induction sent with
  | nil =>
    intro q q' hq hsent
    rw [← Option.some.inj hsent]
    exact ⟨hq, fun _ _ _ => rfl⟩
  | cons x sent ih =>
    intro q q' hq hsent
    obtain ⟨q₁, hq₁, hrest⟩ := Runs.of_foldlM_cons hsent
    by_cases hx : x.2.type = .push
    · rw [if_pos hx] at hq₁
      split at hq₁
      · exact absurd hq₁ (by simp)
      · next hM =>
        have hroot : treeRoot x.2.root ≤ q.tot := le_trans (not_le.mp hM) hq.roots
        obtain ⟨r, hr, hforest, -, hframe⟩ := hq.push (n := q.tot + 1) hroot ⟨x.2.rank, x.2.val⟩
          (Or.inl (by rw [treeRoot]; omega))
        rw [hr, Option.some.injEq] at hq₁
        subst hq₁
        obtain ⟨hforest', hframe'⟩ := ih hforest hrest
        refine ⟨hforest', fun u hu hzero => ?_⟩
        rw [List.countP_cons] at hzero
        have hux : x.2.root ≠ u := by
          rintro rfl
          rw [if_pos (by simpa using hx)] at hzero
          omega
        have hne : treeRoot u ≠ treeRoot x.2.root := fun heq => hux (Nat.succ_injective heq).symm
        rw [hframe' u hu (by omega), hframe _ hne hu]
    · rw [if_neg hx, Option.some.injEq] at hq₁
      subst hq₁
      obtain ⟨hforest', hframe'⟩ := ih hq hrest
      refine ⟨hforest', fun u hu hzero => hframe' u hu ?_⟩
      rw [List.countP_cons] at hzero
      omega

/-- The ring and the lists after *pass down* and *send*. -/
theorem Wired.send (hw : Wired c s) : RingInv c.N c.L (s.send c).ring.rpu ∧
    Placed c.home c.L (s.send c).ring.lists ∧ ReadyPlaced c.home c.N c.L (s.send c).ring.rpu ∧
    ∀ u, pending c (s.send c).ring.rpu c.N u = Algo.ready c s.rpu c.N u +
      (s.send c).ring.sent.countP fun x => decide (x.2.type = .push ∧ x.2.root = u) := by
  obtain ⟨locked, hring⟩ := ringStepWaits_ring c.N Waits.popTask s.waits s.lists s.rpu
  have hhome : ∀ u, c.home u < c.N := fun u => Nat.mod_lt u (by have := c.two_le_N; omega)
  have hload := hw.placed.loaded
  rw [State.send, hring]
  obtain ⟨hplaced, -⟩ := ops_ringStep (fun _ => ()) locked c.two_le_N c.two_le_L hhome hw.ring
    hw.placed fun _ => 0
  exact ⟨(ringStep_inv locked c.two_le_N c.two_le_L hw.ring hload).ring, hplaced,
    fun i hi hr => hw.placed.home i _
      (ready_ringStep locked c.two_le_N c.two_le_L hhome hw.ring hw.placed hi hr),
    pending_ringStep c hw.ring hload locked⟩

/-- **The rest of a cycle.** -/
theorem Counted.moveOn (hc : Counted c s₀ h₀ c.N s h)
    (hpush : ∀ u, u ≠ 0 → s₀.pushNum u + pending c s₀.rpu c.N u =
      h₀.dispatched u + h₀.executed u)
    (hpop : ∀ u, u ≠ 0 → s₀.popNum u = h₀.executed u)
    {finish : (ℕ → Task) → X → X} {anything : ℕ → Bool} {s' : State X}
    (hmove : s.moveOn c finish anything = some s') :
    Tally c s' (h.moveOn (s.send c).ring.sent) := by
  obtain ⟨hring, hplaced, hready, hpending⟩ := hc.wired.send
  obtain ⟨q, hq, rfl⟩ := Option.map_eq_some_iff.mp hmove
  obtain ⟨hforest, hframe⟩ := pushSent_spec _ hc.wired.forest hq
  refine ⟨⟨hring, hplaced, hready, hforest⟩, ⟨hc.totals.push, hc.totals.pop⟩,
    fun hno u hu hzero => ?_, fun u hu => ?_, fun u hu => ?_, rfl⟩
  · have hzero' : h.dispatched u + (s.send c).ring.sent.countP
        (fun x => decide (x.2.type = .push ∧ x.2.root = u)) = 0 := hzero
    obtain ⟨hexec, hblank⟩ := hc.untouched hno u hu (by omega)
    exact ⟨hexec, (hframe u hu (by omega)).trans hblank⟩
  · show s.pushNum u + pending c (s.send c).ring.rpu c.N u = (h.dispatched u + _) + h.executed u
    rw [hpending, hc.pushNum u hu, hc.executed u, hc.dispatched, hpush u hu, hc.rpu]
    omega
  · exact (hc.popNum u hu).trans (by rw [hpop u hu, ← hc.executed u]; rfl)

/-- **The counters are a tally at the end of every cycle.** -/
theorem Program.tally {p : Program X I} (hp : p.Sound c) (inputs : ℕ → I)
    (anything : ℕ → ℕ → Bool) (n : ℕ) : ∀ x, p.run c inputs anything n = some x →
    Tally c x.1 x.2 := by
  induction n with
  | zero =>
    intro x hx
    rw [← Option.some.inj hx]
    refine ⟨⟨ringInv_blank, ⟨fun _ _ ht => absurd ht List.not_mem_nil,
      fun _ _ ht => absurd ht List.not_mem_nil⟩, fun _ _ hr => absurd hr.2 OpType.noConfusion,
      forest_init c.M⟩, ⟨?_, ?_⟩, fun _ _ _ _ => ⟨rfl, rfl⟩, fun u _ => ?_, fun _ _ => rfl, rfl⟩
    · exact (Finset.sum_const_zero).symm
    · exact (Finset.sum_const_zero).symm
    · refine (Nat.zero_add _).trans (Finset.sum_eq_zero fun i _ => if_neg fun h => ?_)
      have hL := c.two_le_L
      have hTTL : (0 : ℤ) = c.L := h.1
      omega
  | succ n ih =>
    intro x hx
    obtain ⟨y, hy, hrest⟩ := Option.bind_eq_some_iff.mp hx
    obtain ⟨z, hz, hcount⟩ := Option.bind_eq_some_iff.mp hy
    have ht := ih z hz
    obtain ⟨s₁, hc, hrpu, hpush, hpop⟩ := ht.count hp hcount
    obtain ⟨s', hs', rfl⟩ := Option.map_eq_some_iff.mp hrest
    refine hc.moveOn (fun u hu => ?_) (fun u hu => ?_) hs'
    · rw [hpush, hrpu]
      exact ht.pushNum u hu
    · rw [hpop]
      exact ht.popNum u hu

end Phases

/-! ## The two programs -/

section Programs

variable {X : Type} {c : Params} {s s' s'' : State X}

theorem Arrived.trans (h : Arrived c s s') (h' : Arrived c s' s'') : Arrived c s s'' := by
  induction h' with
  | refl => exact h
  | push _ ht ih => exact ih.push ht
  | extra _ x ih => exact ih.extra x

theorem home_zero (c : Params) : c.home 0 = 0 := Nat.zero_mod c.N

/-- Tasks of the root join list 0. -/
theorem Arrived.pushRoot (h : Arrived c s s') {t : Task} (ht : t.Fresh c.L) (hroot : t.root = 0) :
    Arrived c s (s'.pushTask 0 t) := by
  have hpush := h.push ht
  rw [hroot, home_zero] at hpush
  exact hpush

theorem arrived_wfqPush (c : Params) (s : State Wfq) (i : ℕ) (rank val : ℤ) :
    Arrived c s (wfqPush c s i rank val) :=
  .extra (.pushRoot (.extra (.push .refl (fresh_mkPush c i rank val)) _) (fresh_mkPush c 0 _ _) rfl)
    _

theorem arrived_wfqPop (c : Params) (s : State Wfq) : Arrived c s (wfqPop c s) := by
  rw [wfqPop]
  split
  · exact .extra (.pushRoot .refl (fresh_mkPop c 0) rfl) _
  · exact .refl

/-- Tasks that arrive one after the other. -/
theorem arrived_foldl {arrive : State X → ℕ → State X} (h : ∀ s i, Arrived c s (arrive s i)) :
    ∀ (is : List ℕ) (s : State X), Arrived c s (is.foldl arrive s) := by
  intro is
  induction is with
  | nil => exact fun s => .refl
  | cons i is ih => exact fun s => (h s i).trans (ih (arrive s i))

theorem wfq_sound (c : Params) : (wfq c).Sound c := by
  intro input s s' hs
  rw [← Option.some.inj hs]
  refine (arrived_foldl (fun s₁ i => ?_) _ s).trans (arrived_wfqPop c _)
  rcases input i with _ | ⟨rank, val⟩
  · exact .refl
  · exact arrived_wfqPush c s₁ i rank val

theorem trace_sound (c : Params) (input : List InputLine) : (traceProgram c input).Sound c := by
  intro _ s s' hs
  obtain ⟨s₁, hs₁, rfl⟩ := Option.map_eq_some_iff.mp hs
  refine .extra ?_ _
  split at hs₁
  · rw [readLine] at hs₁
    split at hs₁
    · exact absurd hs₁ (by simp)
    · next line rest hinput =>
      have hstart : Arrived c s { s with extra := { s.extra with input := rest } } := .extra .refl _
      cases line with
      | pop =>
        rw [← Option.some.inj hs₁]
        exact hstart.pushRoot (fresh_mkPop c 0) rfl
      | push treeid pktMeta p0 p1 =>
        dsimp only at hs₁
        split at hs₁
        · rw [← Option.some.inj hs₁]
          exact (hstart.push (fresh_mkPush c treeid p0 pktMeta)).pushRoot (fresh_mkPush c 0 _ _) rfl
        · exact absurd hs₁ (by simp)
      | idle cycles =>
        rw [← Option.some.inj hs₁]
        exact hstart.extra _
      | other =>
        rw [← Option.some.inj hs₁]
        exact hstart
  · rw [← Option.some.inj hs₁]
    exact .refl

end Programs

/-! ## What the counters count -/

section Counters

variable {X I : Type} {c : Params} {s : State X} {h : History}

/-- The counters count pushes: after a statistics phase `push_num` is what was dispatched in
earlier cycles and `pop_num` what was executed, the sums are their totals, and no tree has more
pops than pushes as long as no pop ran on an empty tree. -/
structure CountsPushes (c : Params) (s : State X) (h : History) : Prop where
  push : ∀ u < c.M, u ≠ 0 → s.pushNum u = h.dispatched u
  pop : ∀ u < c.M, u ≠ 0 → s.popNum u = h.executed u
  totals : Totals c s
  le : h.emptyPop = false → ∀ u < c.M, u ≠ 0 → s.popNum u ≤ s.pushNum u

/-- A tree has at most one pop in its first cycle. -/
theorem ready_le_one (hw : Wired c s) (u : ℕ) : ready c s.rpu c.N u ≤ 1 := by
  have hN := c.two_le_N
  rw [ready, sum_ready_tree (fun u => Nat.mod_lt u (by omega)) hw.ready]
  split <;> omega

/-- **The counters after a statistics phase.**  A push is counted once, and a pop is counted
once more, as a push. -/
theorem Program.counted_spec {p : Program X I} (hp : p.Sound c) {inputs : ℕ → I}
    {anything : ℕ → ℕ → Bool} {n : ℕ} {x : State X × History}
    (hx : p.counted c inputs anything n = some x) :
    Wired c x.1 ∧ Totals c x.1 ∧ Untouched c x.1 x.2 ∧
      (∀ u, u ≠ 0 → x.1.pushNum u = x.2.dispatched u + x.2.executedBefore u) ∧
      (∀ u, u ≠ 0 → x.1.popNum u = x.2.executed u) ∧
      ∀ u, x.2.executed u ≤ x.2.executedBefore u + 1 := by
  obtain ⟨y, hy, hcount⟩ := Option.bind_eq_some_iff.mp hx
  have ht := p.tally hp inputs anything n y hy
  obtain ⟨s₁, hc, hrpu, hpush, hpop⟩ := ht.count hp hcount
  refine ⟨hc.wired, hc.totals, hc.untouched, fun u hu => ?_, fun u hu => ?_, fun u => ?_⟩
  · rw [hc.pushNum u hu, hpush, hrpu, ht.pushNum u hu, hc.dispatched, hc.before, ht.before]
  · rw [hc.popNum u hu, hpop, ht.popNum u hu, hc.executed u]
  · rw [hc.executed u, hc.before, ht.before, ← hc.rpu]
    exact Nat.add_le_add_left (ready_le_one hc.wired u) _

/-- The counters count pushes exactly until the cycle after the first pop of a packet. -/
theorem Program.countsPushes_iff {p : Program X I} (hp : p.Sound c) {inputs : ℕ → I}
    {anything : ℕ → ℕ → Bool} {n : ℕ} {x : State X × History}
    (hx : p.counted c inputs anything n = some x) :
    CountsPushes c x.1 x.2 ↔ ∀ u < c.M, u ≠ 0 → x.2.executedBefore u = 0 := by
  obtain ⟨-, htotals, huntouched, hpush, hpop, hone⟩ := p.counted_spec hp hx
  refine ⟨fun hcounts u hu hu0 => ?_, fun hzero => ⟨fun u hu hu0 => ?_, fun u _ hu0 => hpop u hu0,
    htotals, fun hno u hu hu0 => ?_⟩⟩
  · have hsame := hcounts.push u hu hu0
    rw [hpush u hu0] at hsame
    omega
  · rw [hpush u hu0, hzero u hu hu0, add_zero]
  · rw [hpush u hu0, hpop u hu0]
    by_cases hd : x.2.dispatched u = 0
    · rw [(huntouched hno u hu hd).1]
      exact Nat.zero_le _
    · have := hone u
      rw [hzero u hu hu0] at this ⊢
      omega

end Counters

/-- **The throughput counters of the two simulators.**  After a statistics phase they are what
they stand for if and only if no pop of a packet was executed in an earlier cycle. -/
theorem throughput_counters_iff (N M : ℕ) (hN : 2 ≤ N) (inputs : ℕ → ℕ → Option (ℤ × ℤ))
    (c : Params) (input : List InputLine) (anything : ℕ → ℕ → Bool) (n : ℕ)
    (x : State Wfq × History) (y : State Trace × History) :
    ((wfq ⟨N, M, N, hN, hN⟩).counted ⟨N, M, N, hN, hN⟩ inputs anything n = some x →
      (CountsPushes ⟨N, M, N, hN, hN⟩ x.1 x.2 ↔
        ∀ u < M, u ≠ 0 → x.2.executedBefore u = 0)) ∧
    ((traceProgram c input).counted c (fun _ => ()) anything n = some y →
      (CountsPushes c y.1 y.2 ↔ ∀ u < c.M, u ≠ 0 → y.2.executedBefore u = 0)) :=
  ⟨fun hx => Program.countsPushes_iff (wfq_sound _) hx,
    fun hy => Program.countsPushes_iff (trace_sound c input) hy⟩

/-- A push and a pop of tree 1, and six cycles. -/
def onePacket : List InputLine :=
  [.push 1 7 10 20, .pop, .other, .other, .other, .other, .other]

/-- Three trees and five RPUs. -/
def smallTrace : Params := ⟨5, 3, 5, Nat.le_add_left 2 3, Nat.le_add_left 2 3⟩

set_option maxRecDepth 10000 in
/-- The counters of the third cycle of a run, where the push has been counted, and of a run of the
other program. -/
theorem throughput_counters_iff_onePacket :
    (∃ x, (wfq ⟨2, 2, 2, le_rfl, le_rfl⟩).counted ⟨2, 2, 2, le_rfl, le_rfl⟩
      (fun _ _ => some (10, 20)) (fun _ _ => false) 2 = some x ∧
      (CountsPushes ⟨2, 2, 2, le_rfl, le_rfl⟩ x.1 x.2 ↔
        ∀ u < 2, u ≠ 0 → x.2.executedBefore u = 0)) ∧
    ∃ x, (traceProgram smallTrace onePacket).counted smallTrace (fun _ => ())
        (fun _ _ => false) 2 = some x ∧
      (CountsPushes smallTrace x.1 x.2 ↔ ∀ u < 3, u ≠ 0 → x.2.executedBefore u = 0) := by
  have hwfq : ((wfq ⟨2, 2, 2, le_rfl, le_rfl⟩).counted ⟨2, 2, 2, le_rfl, le_rfl⟩
      (fun _ _ => some (10, 20)) (fun _ _ => false) 2).isSome = true := by decide +kernel
  have htrace : ((traceProgram smallTrace onePacket).counted smallTrace (fun _ => ())
      (fun _ _ => false) 2).isSome = true := by decide +kernel
  obtain ⟨x, hx⟩ := Option.isSome_iff_exists.mp hwfq
  obtain ⟨y, hy⟩ := Option.isSome_iff_exists.mp htrace
  obtain ⟨hx', hy'⟩ := throughput_counters_iff 2 2 le_rfl (fun _ _ => some (10, 20)) smallTrace
    onePacket (fun _ _ => false) 2 x y
  exact ⟨⟨x, hx, hx' hx⟩, y, hy, hy' hy⟩

set_option maxRecDepth 10000 in
/-- In the seventh cycle of this run the pop of the packet has been counted as a push: one push of
tree 1 was dispatched, and `push_num` is 2. -/
theorem throughput_counters_fails :
    ∃ x, (traceProgram smallTrace onePacket).counted smallTrace (fun _ => ())
        (fun _ _ => false) 6 = some x ∧
      x.1.pushNum 1 = 2 ∧ x.2.dispatched 1 = 1 ∧ ¬CountsPushes smallTrace x.1 x.2 := by
  have hrun : ((traceProgram smallTrace onePacket).counted smallTrace (fun _ => ())
      (fun _ _ => false) 6).map (fun x => (x.1.pushNum 1, x.2.dispatched 1)) = some (2, 1) := by
    decide +kernel
  obtain ⟨x, hx, hcounters⟩ := Option.map_eq_some_iff.mp hrun
  obtain ⟨hpush, hdispatched⟩ := Prod.mk.inj hcounters
  refine ⟨x, hx, hpush, hdispatched, fun hcounts => ?_⟩
  have hsame := hcounts.push 1 (Nat.lt_of_sub_eq_succ rfl) Nat.one_ne_zero
  rw [hpush, hdispatched] at hsame
  exact absurd hsame (by decide)

end Algo

end Simulator

end VPifo
