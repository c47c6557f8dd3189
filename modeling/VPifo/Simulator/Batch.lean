import VPifo.Simulator.Ring
import Mathlib.Algebra.BigOperators.Group.List.Basic
import Mathlib.Algebra.BigOperators.Ring.Finset
import Mathlib.Tactic.Ring

/-!
# The simulation of a batch

`vPIFO_pipeline.cpp` puts some random pushes and pops into the task lists, lets the ring run
"until all the task list is empty", and prints how much of the ring was in use.  The loop does not
look at the lists.  It looks at a counter, from which the statistics of every cycle subtract the
tasks that complete.

So the counter has to be right: a task completes once and for all, although a pop is in two places
of the ring at a time, as a pop and as the write-backs that it leaves behind.  Both counters of the
program are sums over the tasks of what a task has still ahead of it (`Task.tokens`, `Task.work`),
and what a cycle subtracts is what its tasks get done.  `batch_finishes` says that the loop ends,
with nothing left in the lists or in the ring, and that a push has been counted as in use `N` times
and a pop `2 * N` times, whatever the order in which the ring has taken them.
-/

namespace VPifo

namespace Simulator

open Cyclic

/-! ## The code -/

/-- The RPU is running. -/
def Task.Running (t : Task) : Prop := t.type = .push ∨ t.type = .pop ∨ t.type = .writeBack

instance (t : Task) : Decidable t.Running := inferInstanceAs (Decidable (_ ∨ _ ∨ _))

/-- The task execution completes in this cycle. -/
def Task.Completes (t : Task) : Prop := t.TTL = 1 ∧ (t.type = .push ∨ t.type = .writeBack)

instance (t : Task) : Decidable t.Completes := inferInstanceAs (Decidable (_ ∧ _))

/-- The variables of the program. -/
structure Batch where
  rpu : ℕ → Task
  lists : ℕ → List Task
  taskNum : ℤ
  T : ℕ
  useNum : ℕ

section Code

variable (N : ℕ)

/-- A cycle of the loop. -/
def Batch.cycle (s : Batch) : Batch :=
  let r := ringStep N (fun _ => false) s.lists s.rpu
  { rpu := r.rpu
    lists := r.lists
    taskNum := s.taskNum - (List.range N).countP fun i => decide (s.rpu i).Completes
    T := s.T + 1
    useNum := s.useNum + (List.range N).countP fun i => decide (s.rpu i).Running }

/-- The loop, for at most so many cycles. -/
def Batch.run : ℕ → Batch → Option Batch
  | 0, s => if 0 < s.taskNum then none else some s
  | fuel + 1, s => if 0 < s.taskNum then Batch.run fuel (s.cycle N) else some s

/-- A task that has been drawn: whether it is a push, and its tree. -/
def drawn (t : Bool × ℕ) : Task := ⟨if t.1 then .push else .pop, t.2, N, 0, 0⟩

/-- The state before the loop.  The tasks of tree `i` are in list `i`. -/
def Batch.start (tasks : List (Bool × ℕ)) : Batch where
  rpu _ := Task.blank
  lists i := (tasks.filter fun t => decide (t.2 = i)).map (drawn N)
  taskNum := tasks.length
  T := 0
  useNum := 0

end Code

/-! ## What tasks have ahead of them -/

/-- How often the statistics will count the task as complete.  A write-back that is not in its last
cycle has its pop in front of it, which is counted instead. -/
def Task.tokens (t : Task) : ℕ :=
  match t.type with
  | .push => 1
  | .pop => 1
  | .writeBack => if t.TTL = 1 then 1 else 0
  | _ => 0

/-- How often the statistics will count the task as running. -/
def Task.work (t : Task) : ℕ :=
  match t.type with
  | .push => t.TTL.toNat
  | .pop => 2 * t.TTL.toNat
  | .writeBack => 1
  | _ => 0

/-- What the tasks of the ring and of the lists have ahead of them. -/
def ahead (N : ℕ) (f : Task → ℕ) (rpu : ℕ → Task) (lists : ℕ → List Task) : ℕ :=
  ∑ x ∈ Finset.range N, (f (rpu x) + ((lists x).map f).sum)

/-- Something that tasks have ahead of them, of which a cycle gets `done` done. -/
structure Ahead (f done : Task → ℕ) : Prop where
  locked : ∀ t, t.type = .locked → f t = 0
  empty : ∀ t, t.type = .empty → f t = 0
  /-- What the task leaves behind, what it hands on, and what it gets done. -/
  pass : ∀ t, (t.type ≠ .empty → 1 ≤ t.TTL) →
    (if t.type = .pop then f { t with type := .writeBack } else 0) +
      (if t.type ≠ .writeBack ∧ 2 ≤ t.TTL then f { t with TTL := t.TTL - 1 } else 0) + done t = f t

/-- What is not running is locked or empty. -/
theorem Task.type_of_not_running {t : Task} (h : ¬t.Running) :
    t.type = .locked ∨ t.type = .empty := by
  rcases htype : t.type with _ | _ | _ | _ | _
  · exact absurd (Or.inl htype) h
  · exact absurd (Or.inr (Or.inl htype)) h
  · exact absurd (Or.inr (Or.inr htype)) h
  · exact Or.inl rfl
  · exact Or.inr rfl

theorem Ahead.idle {f done : Task → ℕ} (hf : Ahead f done) {t : Task} (h : ¬t.Running) : f t = 0 :=
  (Task.type_of_not_running h).elim (hf.locked t) (hf.empty t)

theorem ahead_tokens : Ahead Task.tokens fun t => if t.Completes then 1 else 0 where
  locked t h := by rw [Task.tokens, h]
  empty t h := by rw [Task.tokens, h]
  pass := by
    rintro ⟨type, root, TTL, rank, val⟩ hpos
    cases type <;> simp only [Task.tokens, Task.Completes, ne_eq, reduceCtorEq, not_false_eq_true,
      not_true_eq_false, false_implies, true_implies, or_false, or_true, and_false, and_true,
      true_and, false_and, if_true, if_false] at hpos ⊢ <;> split_ifs <;> omega

theorem ahead_work : Ahead Task.work fun t => if t.Running then 1 else 0 where
  locked t h := by rw [Task.work, h]
  empty t h := by rw [Task.work, h]
  pass := by
    rintro ⟨type, root, TTL, rank, val⟩ hpos
    cases type <;> simp only [Task.work, Task.Running, ne_eq, reduceCtorEq, not_false_eq_true,
      not_true_eq_false, false_implies, true_implies, or_false, or_true, true_and, false_and,
      if_true, if_false] at hpos ⊢ <;> split_ifs <;> omega

/-! ## A cycle -/

section Cycle

variable {N L : ℕ} {f done : Task → ℕ} {rpu : ℕ → Task} {lists : ℕ → List Task}

/-- **What pass down gets done.** -/
theorem Ahead.passDown (hf : Ahead f done) (h : RingInv N L rpu) :
    ∑ x ∈ Finset.range N, f (passDown N rpu x) + ∑ x ∈ Finset.range N, done (rpu x) =
      ∑ x ∈ Finset.range N, f (rpu x) := by
  have hone : ∀ x ∈ Finset.range N, f (Simulator.passDown N rpu x) =
      (if (rpu x).type = .pop then f { rpu x with type := .writeBack } else 0) +
        if (rpu (prev N x)).type ≠ .writeBack ∧ 2 ≤ (rpu (prev N x)).TTL then
          f { rpu (prev N x) with TTL := (rpu (prev N x)).TTL - 1 } else 0 := by
    intro x hx
    have hx := Finset.mem_range.mp hx
    rcases passDown_cases rpu hx with ⟨hpop, hx'⟩ | ⟨hno, hlive, hx'⟩ | ⟨hno, hlast, hx'⟩
    · -- what is passed on to a pop is its own write-back
      rw [hx', if_pos hpop, if_neg]
      · rw [add_zero]
      · rintro ⟨hwb, hlive⟩
        rcases h.before_pop x hx hpop with hwb' | hone
        · exact hwb hwb'
        · omega
    · rw [hx', if_neg hno, if_pos ⟨fun hwb => hno (h.behind_pop x hx hwb hlive), hlive⟩, zero_add]
    · rw [hx', if_neg hno, if_neg fun h => absurd h.2 (by omega), hf.empty _ rfl]
  rw [Finset.sum_congr rfl hone, Finset.sum_add_distrib,
    sum_prev fun x => if (rpu x).type ≠ .writeBack ∧ 2 ≤ (rpu x).TTL then
      f { rpu x with TTL := (rpu x).TTL - 1 } else 0, ← Finset.sum_add_distrib,
    ← Finset.sum_add_distrib]
  exact Finset.sum_congr rfl fun x hx => hf.pass (rpu x) (h.pos x (Finset.mem_range.mp hx))

/-- A sum in which one summand changes. -/
theorem sum_range_replace {i : ℕ} (hi : i < N) (g g' : ℕ → ℕ) (h : ∀ k, k ≠ i → g' k = g k) :
    ∑ k ∈ Finset.range N, g' k + g i = ∑ k ∈ Finset.range N, g k + g' i := by
  have hmem := Finset.mem_range.mpr hi
  have hrest : ∑ k ∈ (Finset.range N).erase i, g' k = ∑ k ∈ (Finset.range N).erase i, g k :=
    Finset.sum_congr rfl fun k hk => h k (Finset.ne_of_mem_erase hk)
  rw [← Finset.add_sum_erase _ (fun k => g k) hmem, ← Finset.add_sum_erase _ (fun k => g' k) hmem,
    hrest]
  ring

/-- A round of *send* moves a task from its list to its RPU. -/
theorem Ahead.sendAt (hf : Ahead f done) {s : Sending} (h : RingInv N L s.rpu)
    (locked : ℕ → Bool) {i : ℕ} (hi : i < N) (hN : 2 ≤ N) :
    ahead N f (sendAt N locked s i).rpu (sendAt N locked s i).lists = ahead N f s.rpu s.lists := by
  rcases sendAt_cases N locked s i with hnone | ⟨t, rest, hlist, hempty, hlists, -, hrpu⟩
  · rw [hnone]
  have hself : (Simulator.sendAt N locked s i).rpu i = t := by
    rcases hrpu with ⟨-, hrpu⟩ | ⟨-, -, hrpu⟩
    · rw [hrpu]
      exact if_pos rfl
    · rw [hrpu]
      simp only [if_neg (prev_ne_self hN i).symm, if_true]
  have hother : ∀ k, k ≠ i → f ((Simulator.sendAt N locked s i).rpu k) = f (s.rpu k) := by
    intro k hk
    rcases hrpu with ⟨-, hrpu⟩ | ⟨-, hlast, hrpu⟩
    · rw [hrpu]
      exact congrArg f (if_neg hk)
    · rw [hrpu]
      by_cases hkj : k = prev N i
      · -- the RPU before was empty, or is in its last cycle anyway
        simp only [hkj, if_true]
        by_cases hb : (s.rpu (prev N i)).type = .empty
        · rw [hf.locked _ (if_pos hb), hf.empty _ hb]
        · have hpos := h.pos _ (prev_lt hi) hb
          simp only [if_neg hb]
          rw [show (1 : ℤ) = (s.rpu (prev N i)).TTL from le_antisymm hpos hlast]
      · simp only [if_neg hkj, if_neg hk]
  have hsum : ahead N f (Simulator.sendAt N locked s i).rpu (Simulator.sendAt N locked s i).lists +
      (f (s.rpu i) + ((s.lists i).map f).sum) = ahead N f s.rpu s.lists +
        (f ((Simulator.sendAt N locked s i).rpu i) +
          (((Simulator.sendAt N locked s i).lists i).map f).sum) :=
    sum_range_replace hi (fun x => f (s.rpu x) + ((s.lists x).map f).sum)
      (fun x => f ((Simulator.sendAt N locked s i).rpu x) +
        (((Simulator.sendAt N locked s i).lists x).map f).sum)
      fun k hk => by simp only [hother k hk, hlists, if_neg hk]
  have hsame : f (s.rpu i) + ((s.lists i).map f).sum =
      f ((Simulator.sendAt N locked s i).rpu i) +
        (((Simulator.sendAt N locked s i).lists i).map f).sum := by
    rw [hself, hlists]
    dsimp only
    rw [if_pos rfl, hlist, List.map_cons, List.sum_cons, hf.empty _ hempty, zero_add]
  rw [hsame] at hsum
  exact Nat.add_right_cancel hsum

theorem sum_filter_eq_countP (q : Task → Prop) [DecidablePred q] (rpu : ℕ → Task) :
    (∑ x ∈ Finset.range N, if q (rpu x) then 1 else 0) =
      (List.range N).countP fun i => decide (q (rpu i)) := by
  rw [Finset.sum_boole, Nat.cast_id, List.countP_eq_length_filter, ← List.toFinset_card_of_nodup
    (List.nodup_range.filter _)]
  congr 1
  ext x
  simp

/-- **What a cycle gets done.** -/
theorem Ahead.ringStep (hf : Ahead f done) (hN : 2 ≤ N) (hL : 2 ≤ L) (h : RingInv N L rpu)
    (hload : Loaded L lists) (locked : ℕ → Bool) :
    ahead N f (ringStep N locked lists rpu).rpu (ringStep N locked lists rpu).lists +
      ∑ x ∈ Finset.range N, done (rpu x) = ahead N f rpu lists := by
  have hsend : ahead N f (Simulator.ringStep N locked lists rpu).rpu
      (Simulator.ringStep N locked lists rpu).lists =
        ahead N f (Simulator.passDown N rpu) lists := by
    refine (Runs.foldl_range_keeps (P := fun _ (s : Sending) =>
      SendInv N L (Simulator.passDown N rpu) s ∧
        ahead N f s.rpu s.lists = ahead N f (Simulator.passDown N rpu) lists) ⟨?_, rfl⟩ ?_).2
    · exact ⟨passDown_ringInv h, hload, fun _ _ _ => rfl, fun p hp => absurd hp (by simp),
        List.nodup_nil, fun x hx hpop httl => absurd httl (ne_of_lt (passDown_pop_lt h hx hpop))⟩
    · intro i hi s ⟨hs, heq⟩
      exact ⟨hs.sendAt locked hN hL hi, (hf.sendAt hs.ring locked hi hN).trans heq⟩
  have hpass := hf.passDown h
  rw [hsend, ahead, ahead, Finset.sum_add_distrib, Finset.sum_add_distrib]
  omega

/-! ### A ring with nothing to do -/

/-- An RPU is locked for one cycle. -/
def LockedOnce (N : ℕ) (rpu : ℕ → Task) : Prop :=
  ∀ x < N, (rpu x).type = .locked → (rpu x).TTL = 1

theorem LockedOnce.passDown (h : LockedOnce N rpu) {x : ℕ} (hx : x < N) :
    (passDown N rpu x).type ≠ .locked := by
  rcases passDown_cases rpu hx with ⟨-, hx'⟩ | ⟨-, hlive, hx'⟩ | ⟨-, -, hx'⟩ <;> rw [hx']
  · simp
  · intro hlocked
    have hone := h (prev N x) (prev_lt hx) hlocked
    omega
  · simp

theorem LockedOnce.ringStep (h : LockedOnce N rpu) (hN : 2 ≤ N) (hload : Loaded L lists)
    (locked : ℕ → Bool) :
    LockedOnce N (ringStep N locked lists rpu).rpu := by
  refine (Runs.foldl_range_keeps (P := fun _ (s : Sending) => Loaded L s.lists ∧
    LockedOnce N s.rpu) ⟨hload, fun x hx hlocked => absurd hlocked (h.passDown hx)⟩ ?_).2
  intro i hi s ⟨hs, honce⟩
  rcases sendAt_cases N locked s i with hnone | ⟨t, rest, hlist, hempty, hlists, -, hrpu⟩
  · rw [hnone]
    exact ⟨hs, honce⟩
  have hfresh : t.Fresh L := hs i t (by rw [hlist]; exact List.mem_cons_self)
  have hself : t.type ≠ .locked := by
    rcases hfresh.type with ht | ht <;> rw [ht] <;> simp
  refine ⟨fun k u hu => ?_, fun x hx hlocked => ?_⟩
  · rw [hlists] at hu
    dsimp only at hu
    split at hu
    · exact hs i u (by rw [hlist]; exact List.mem_cons_of_mem _ hu)
    · exact hs k u hu
  · rcases hrpu with ⟨-, hrpu⟩ | ⟨-, -, hrpu⟩ <;> rw [hrpu] at hlocked ⊢
    · by_cases hxi : x = i
      · simp only [hxi, if_true] at hlocked
        exact absurd hlocked hself
      · simp only [if_neg hxi] at hlocked ⊢
        exact honce x hx hlocked
    · by_cases hxj : x = prev N i
      · simp only [hxj, if_true]
      · by_cases hxi : x = i
        · simp only [hxi, if_neg (prev_ne_self hN i).symm, if_true] at hlocked
          exact absurd hlocked hself
        · simp only [if_neg hxj, if_neg hxi] at hlocked ⊢
          exact honce x hx hlocked

/-- No RPU is running. -/
def Idle (N : ℕ) (rpu : ℕ → Task) : Prop := ∀ x < N, ¬(rpu x).Running

instance : Decidable (Idle N rpu) := Nat.decidableBallLT N fun x _ => ¬(rpu x).Running

theorem Idle.passDown (h : Idle N rpu) (hring : RingInv N L rpu) (honce : LockedOnce N rpu) {x : ℕ}
    (hx : x < N) : (passDown N rpu x).type = .empty ∧ (passDown N rpu x).TTL = 0 := by
  rcases passDown_cases rpu hx with ⟨hpop, -⟩ | ⟨-, hlive, -⟩ | ⟨-, -, hx'⟩
  · exact absurd (Or.inr (Or.inl hpop)) (h x hx)
  · -- what is not running is locked or empty
    rcases Task.type_of_not_running (h (prev N x) (prev_lt hx)) with htype | htype
    · have := honce _ (prev_lt hx) htype
      omega
    · have := hring.zero _ (prev_lt hx) htype
      omega
  · rw [hx']
    exact ⟨rfl, rfl⟩

/-- **A ring that is idle takes a task**, if there is one. -/
theorem Idle.ringStep (h : Idle N rpu) (hN : 2 ≤ N) (hL : 2 ≤ L) (hring : RingInv N L rpu)
    (hload : Loaded L lists) (honce : LockedOnce N rpu) {i : ℕ} (hi : i < N) (hlist : lists i ≠ []) :
    ¬Idle N (ringStep N (fun _ => false) lists rpu).rpu := by
  have hsent : (Simulator.ringStep N (fun _ => false) lists rpu).sent ≠ [] := by
    -- nothing is sent before the first list that is not empty
    have hloop : (Simulator.ringStep N (fun _ => false) lists rpu =
        ⟨Simulator.passDown N rpu, lists, []⟩ ∧ ∀ k < N, lists k = []) ∨
          (Simulator.ringStep N (fun _ => false) lists rpu).sent ≠ [] := by
      refine Runs.foldl_range_keeps (P := fun m (s : Sending) =>
        (s = ⟨Simulator.passDown N rpu, lists, []⟩ ∧ ∀ k < m, lists k = []) ∨ s.sent ≠ [])
        (Or.inl ⟨rfl, fun k hk => absurd hk (Nat.not_lt_zero k)⟩) fun m hm s hs => ?_
      rcases hs with ⟨rfl, hnone⟩ | hs
      · obtain ⟨hempty, -⟩ := h.passDown hring honce hm
        obtain ⟨-, hzero⟩ := h.passDown hring honce (prev_lt hm)
        cases hm' : lists m with
        | nil =>
          refine Or.inl ⟨?_, fun k hk => ?_⟩
          · simp only [Simulator.sendAt, hm', hempty, and_self, if_true]
          · rcases Nat.lt_succ_iff_lt_or_eq.mp hk with hk | rfl
            · exact hnone k hk
            · exact hm'
        | cons t rest =>
          refine Or.inr ?_
          simp only [Simulator.sendAt, hm', hempty, and_self, if_true, hzero]
          split
          · simp
          · rw [if_pos (by decide)]
            simp
      · refine Or.inr ?_
        rcases sendAt_cases N (fun _ => false) s m with heq | ⟨t, rest, -, -, -, heq, -⟩
        · rw [heq]
          exact hs
        · rw [heq]
          simp
    rcases hloop with ⟨-, hnone⟩ | hsent
    · exact absurd (hnone i hi) hlist
    · exact hsent
  obtain ⟨p, rest, hp⟩ := List.exists_cons_of_ne_nil hsent
  obtain ⟨hlt, hrpu, hfresh⟩ := (ringStep_inv (fun _ => false) hN hL hring hload).sent p
    (by rw [hp]; exact List.mem_cons_self)
  intro hidle
  refine hidle p.1 hlt ?_
  rw [hrpu]
  exact hfresh.type.imp_right Or.inl

end Cycle

/-! ## The loop -/

section Loop

variable {N : ℕ} {s s' : Batch}

/-- What holds between two cycles: the counter is right. -/
structure Batch.Inv (N : ℕ) (s : Batch) : Prop where
  ring : RingInv N N s.rpu
  loaded : Loaded N s.lists
  once : LockedOnce N s.rpu
  taskNum : s.taskNum = ahead N Task.tokens s.rpu s.lists

theorem Batch.Inv.cycle (h : s.Inv N) (hN : 2 ≤ N) : (s.cycle N).Inv N ∧
    (s.cycle N).useNum + ahead N Task.work (s.cycle N).rpu (s.cycle N).lists =
      s.useNum + ahead N Task.work s.rpu s.lists := by
  have htokens := ahead_tokens.ringStep hN hN h.ring h.loaded fun _ => false
  have hwork := ahead_work.ringStep hN hN h.ring h.loaded fun _ => false
  rw [sum_filter_eq_countP] at htokens hwork
  have hstep := ringStep_inv (fun _ => false) hN hN h.ring h.loaded
  have htaskNum := h.taskNum
  refine ⟨⟨hstep.ring, hstep.loaded, h.once.ringStep hN h.loaded _, ?_⟩, ?_⟩
  · show s.taskNum - _ = _
    rw [htaskNum, ← htokens]
    push_cast
    exact add_sub_cancel_right _ _
  · show s.useNum + _ + _ = _
    rw [← hwork]
    exact Nat.add_right_comm _ _ _ |>.trans (Nat.add_assoc _ _ _)

/-- Something is left of a task until it completes. -/
theorem ahead_eq_zero {f : Task → ℕ} {rpu : ℕ → Task} {lists : ℕ → List Task}
    (h : ahead N f rpu lists = 0) {x : ℕ} (hx : x < N) : f (rpu x) = 0 ∧ ∀ t ∈ lists x, f t = 0 := by
  have hsum := Finset.sum_eq_zero_iff.mp h x (Finset.mem_range.mpr hx)
  obtain ⟨hrpu, hlist⟩ := Nat.add_eq_zero_iff.mp hsum
  exact ⟨hrpu, fun t ht => List.sum_eq_zero_iff.mp hlist _ (List.mem_map_of_mem ht)⟩

/-- When the counter is zero, nothing is left. -/
theorem Batch.Inv.done (h : s.Inv N) (hN : 2 ≤ N) (hzero : s.taskNum ≤ 0) :
    (∀ i < N, s.lists i = []) ∧ Idle N s.rpu := by
  have hahead : ahead N Task.tokens s.rpu s.lists = 0 := by
    have := h.taskNum
    omega
  have hno : ∀ x < N, (s.rpu x).type ≠ .push ∧ (s.rpu x).type ≠ .pop := by
    intro x hx
    have htokens := (ahead_eq_zero hahead hx).1
    constructor <;> intro htype <;> rw [Task.tokens, htype] at htokens <;>
      exact Nat.one_ne_zero htokens
  refine ⟨fun i hi => ?_, fun x hx hrun => ?_⟩
  · refine List.eq_nil_iff_forall_not_mem.mpr fun t ht => ?_
    have htokens := (ahead_eq_zero hahead hi).2 t ht
    rcases (h.loaded i t ht).type with htype | htype <;> rw [Task.tokens, htype] at htokens <;>
      exact Nat.one_ne_zero htokens
  · rcases hrun with hpush | hpop | hwb
    · exact (hno x hx).1 hpush
    · exact (hno x hx).2 hpop
    · have htokens := (ahead_eq_zero hahead hx).1
      rw [Task.tokens, hwb] at htokens
      have hpos := h.ring.pos x hx (by rw [hwb]; simp)
      have hone : (s.rpu x).TTL ≠ 1 := fun hone => absurd htokens (by simp [hone])
      -- a write-back that has time has its pop in front of it
      have hnext : prev N ((x + 1) % N) = x := by
        rw [prev_mod_add_one (by omega), Nat.mod_eq_of_lt hx]
      have hlt := Nat.mod_lt (x + 1) (by omega : 0 < N)
      exact (hno _ hlt).2 (h.ring.behind_pop _ hlt (by rw [hnext]; exact hwb)
        (by rw [hnext]; omega))

/-- **The loop ends**: a cycle in which the ring is idle is followed by one in which it is not, and
then there is less work left. -/
theorem Batch.Inv.run (hN : 2 ≤ N) : ∀ {fuel : ℕ} {s : Batch}, s.Inv N →
    2 * ahead N Task.work s.rpu s.lists + (if Idle N s.rpu then 1 else 0) ≤ fuel →
    ∃ s', Batch.run N fuel s = some s' ∧ s'.Inv N ∧ s'.taskNum ≤ 0 ∧ s'.T ≤ s.T + fuel ∧
      s'.useNum + ahead N Task.work s'.rpu s'.lists =
        s.useNum + ahead N Task.work s.rpu s.lists := by
  intro fuel
  induction fuel with
  | zero =>
    intro s h hfuel
    -- an idle ring has one cycle left
    have hwork : ahead N Task.work s.rpu s.lists = 0 := by omega
    have hbusy : ¬Idle N s.rpu := fun hidle => by
      rw [if_pos hidle] at hfuel
      omega
    refine absurd (fun x hx hrun => ?_) hbusy
    have hzero := (ahead_eq_zero hwork hx).1
    have hpos := h.ring.pos x hx fun hempty => by
      rcases hrun with ht | ht | ht <;> rw [hempty] at ht <;> exact absurd ht (by simp)
    rcases hrun with ht | ht | ht <;> rw [Task.work, ht] at hzero <;> simp only at hzero <;> omega
  | succ fuel ih =>
    intro s h hfuel
    rw [Batch.run]
    by_cases hpos : 0 < s.taskNum
    · rw [if_pos hpos]
      obtain ⟨hinv, htotal⟩ := h.cycle hN
      obtain ⟨s', hrun, hs', hzero, hT, huse⟩ := ih hinv (by
        have huseNum : (s.cycle N).useNum = s.useNum +
          (List.range N).countP fun i => decide (s.rpu i).Running := rfl
        by_cases hidle : Idle N s.rpu
        · -- there is a task that waits
          rw [if_pos hidle] at hfuel
          have hbusy : ¬Idle N (s.cycle N).rpu := by
            by_contra hall
            have hwait : ∀ i < N, s.lists i = [] := fun i hi => by
              by_contra hlist
              exact hidle.ringStep hN hN h.ring h.loaded h.once hi hlist hall
            have hnone : ahead N Task.tokens s.rpu s.lists = 0 :=
              Finset.sum_eq_zero fun x hx => by
                have hx := Finset.mem_range.mp hx
                rw [hwait x hx, ahead_tokens.idle (hidle x hx)]
                rfl
            have := h.taskNum
            omega
          rw [if_neg hbusy]
          omega
        · have hcount : 0 < (List.range N).countP fun i => decide (s.rpu i).Running := by
            rw [List.countP_pos_iff]
            simp only [Idle, not_forall, not_not] at hidle
            obtain ⟨x, hx, hrun⟩ := hidle
            exact ⟨x, List.mem_range.mpr hx, decide_eq_true hrun⟩
          rw [if_neg hidle] at hfuel
          split <;> omega)
      refine ⟨s', hrun, hs', hzero, ?_, huse.trans htotal⟩
      have : (s.cycle N).T = s.T + 1 := rfl
      omega
    · rw [if_neg hpos]
      exact ⟨s, rfl, h, by omega, by omega, rfl⟩

/-! ### From the start -/

/-- What the tasks have ahead of them when they are drawn. -/
theorem ahead_start {f : Task → ℕ} (hf : f Task.blank = 0) {tasks : List (Bool × ℕ)}
    (hroot : ∀ t ∈ tasks, t.2 < N) :
    ahead N f (Batch.start N tasks).rpu (Batch.start N tasks).lists =
      (tasks.map fun t => f (drawn N t)).sum := by
  have hlists : ahead N f (Batch.start N tasks).rpu (Batch.start N tasks).lists =
      ∑ i ∈ Finset.range N, ((tasks.filter fun t => decide (t.2 = i)).map
        fun t => f (drawn N t)).sum := by
    refine Finset.sum_congr rfl fun i _ => ?_
    show f Task.blank + (((tasks.filter fun t => decide (t.2 = i)).map (drawn N)).map f).sum = _
    rw [hf, zero_add, List.map_map]
    rfl
  rw [hlists]
  clear hlists
  induction tasks with
  | nil => exact Finset.sum_eq_zero fun _ _ => rfl
  | cons t tasks ih =>
    obtain ⟨ht, hrest⟩ := List.forall_mem_cons.mp hroot
    have hcons : ∀ i, (((t :: tasks).filter fun t => decide (t.2 = i)).map
        fun t => f (drawn N t)).sum = (if t.2 = i then f (drawn N t) else 0) +
          ((tasks.filter fun t => decide (t.2 = i)).map fun t => f (drawn N t)).sum := by
      intro i
      by_cases hi : t.2 = i <;> simp [hi]
    rw [List.map_cons, List.sum_cons, ← ih hrest, Finset.sum_congr rfl fun i _ => hcons i,
      Finset.sum_add_distrib, Finset.sum_ite_eq, if_pos (Finset.mem_range.mpr ht)]

theorem work_drawn (N : ℕ) (tasks : List (Bool × ℕ)) :
    (tasks.map fun t => Task.work (drawn N t)).sum =
      N * tasks.countP (fun t => t.1) + 2 * N * tasks.countP (fun t => !t.1) := by
  induction tasks with
  | nil => simp
  | cons t tasks ih =>
    obtain ⟨push, root⟩ := t
    rw [List.map_cons, List.sum_cons, ih, List.countP_cons, List.countP_cons]
    cases push <;> simp [drawn, Task.work] <;> ring

theorem Batch.start_inv {tasks : List (Bool × ℕ)} (hroot : ∀ t ∈ tasks, t.2 < N) :
    (Batch.start N tasks).Inv N where
  ring := ringInv_blank
  loaded i t ht := by
    obtain ⟨u, -, rfl⟩ := List.mem_map.mp ht
    refine ⟨?_, rfl⟩
    rw [drawn]
    split
    · exact Or.inl rfl
    · exact Or.inr rfl
  once x _ h := absurd h (by simp [Batch.start, Task.blank])
  taskNum := by
    have htokens : ∀ t : Bool × ℕ, Task.tokens (drawn N t) = 1 := by
      rintro ⟨push, root⟩
      cases push <;> rfl
    rw [ahead_start rfl hroot]
    simp [htokens, Batch.start]

/-- **The batch is finished**: after a bounded number of cycles the counter is zero, and with it the
lists are empty and no RPU is running.  A push has been in use `N` times, a pop `2 * N` times. -/
theorem batch_finishes (N : ℕ) (hN : 2 ≤ N) (tasks : List (Bool × ℕ))
    (hroot : ∀ t ∈ tasks, t.2 < N) : ∃ s,
      Batch.run N (2 * (N * tasks.countP (fun t => t.1) + 2 * N * tasks.countP fun t => !t.1) + 1)
        (Batch.start N tasks) = some s ∧
      s.taskNum = 0 ∧ (∀ i < N, s.lists i = []) ∧ Idle N s.rpu ∧
      s.useNum = N * tasks.countP (fun t => t.1) + 2 * N * tasks.countP (fun t => !t.1) := by
  have hwork : ahead N Task.work (Batch.start N tasks).rpu (Batch.start N tasks).lists =
      N * tasks.countP (fun t => t.1) + 2 * N * tasks.countP (fun t => !t.1) := by
    rw [ahead_start rfl hroot, work_drawn]
  have hidle : Idle N (Batch.start N tasks).rpu := fun x _ h => by
    rcases h with h | h | h <;> exact absurd h (by simp [Batch.start, Task.blank])
  have hfuel : 2 * ahead N Task.work (Batch.start N tasks).rpu (Batch.start N tasks).lists +
      (if Idle N (Batch.start N tasks).rpu then 1 else 0) ≤
        2 * (N * tasks.countP (fun t => t.1) + 2 * N * tasks.countP fun t => !t.1) + 1 := by
    rw [hwork, if_pos hidle]
  obtain ⟨s, hrun, hinv, hzero, -, huse⟩ := (Batch.start_inv hroot).run hN hfuel
  obtain ⟨hlists, hdone⟩ := hinv.done hN hzero
  refine ⟨s, hrun, ?_, hlists, hdone, ?_⟩
  · have := hinv.taskNum
    omega
  · have hnone : ahead N Task.work s.rpu s.lists = 0 := Finset.sum_eq_zero fun x hx => by
      have hx := Finset.mem_range.mp hx
      rw [hlists x hx, ahead_work.idle (hdone x hx)]
      rfl
    rw [hnone, hwork] at huse
    exact huse.trans (Nat.zero_add _)

/-- Three tasks for the five RPUs of the program. -/
theorem batch_finishes_three : ∃ s,
    Batch.run 5 41 (Batch.start 5 [(true, 1), (false, 2), (true, 1)]) = some s ∧ s.taskNum = 0 ∧
      (∀ i < 5, s.lists i = []) ∧ Idle 5 s.rpu ∧ s.useNum = 20 :=
  batch_finishes 5 (by decide) [(true, 1), (false, 2), (true, 1)] (by decide)

end Loop

end Simulator

end VPifo
