import VPifo.Lib.LeakyBucket
import VPifo.Hardware.Drain
import VPifo.Hardware.Isolation

/-!
# How much can wait

Two comments of `TASK_GENERATOR` are about its backlog: the root's FIFO "will be full first", and
"only one `is_level0_pop` will be 1 per cycle".  Neither holds for every input.  The packets of a
port wait while the tokens in front of them pass its RPU, so its FIFO can fill while the root's is
read; and the pops that two tokens make can wait on two ports and be granted together.

This file says for which inputs the comments hold, and it asks the inputs only.  Something is
announced in every `LEVEL + 4` cycles as long as there is work to do (`served`), so a leaky bucket
bounds what waits: a push or a pop pours in two pieces of work and one piece leaks out in
`LEVEL + 4` cycles.  What waits on one port, and how many pops are under way, is bounded by the
same bucket and by what has been asked for (`mayWait`, `mayPop`).

* If what may wait on a port, with the packet of the cycle, is at most `FIFO_SIZE + 1`, for every
  port but the root's, then no word is lost while the flag is low (`full_flag_sound`).  A FIFO
  loses a word only when it is full and the task head before it is in use, and the bound is sharp
  (`roomFor_sharp`).  It holds if no port gets more packets and pops than that in the whole run
  (`roomFor_of_arrived`), and if no stretch of cycles asks for more than a FIFO holds beyond what
  is served in it (`roomFor_of_rate`).
* If at most one pop may be under way, or if the ports in use are neighbours, then no two pops of
  sub-trees are granted together, and every one is on the outputs (`sub_pops_shown`).  Three RPUs
  are neighbours whatever is pushed, and so are the ports of two trees.

Whatever is lost, no more comes out than was asked for, and a tree only gives out what was pushed
for it; this is so for all inputs (`out_sound`).
-/

namespace VPifo

namespace TaskGenerator

open Cyclic TaskDistribute PifoSramTop LeakyBucket

variable {P : GenParams} {pu : PowerUp P.toParams} {xs : ℕ → GenIn P} {c i : ℕ}

/-! ## Judged by the inputs -/

/-- The cycles within which a piece of work is done. -/
def serviceTime (P : GenParams) : ℕ := P.LEVEL + 4

theorem serviceTime_pos (P : GenParams) : 0 < serviceTime P := Nat.succ_pos _

/-- The packet that the inputs of a cycle have for port `i`, other than the root's. -/
def toPort (i : ℕ) (x : GenIn P) : ℕ := if i = pushRpuId x then x.iPush.toNat else 0

/-- The most work there can be. -/
def mayRemain (xs : ℕ → GenIn P) : ℕ → ℕ := bound (serviceTime P) fun c => cost (xs c)

/-- The most tasks that can wait on port `i`, other than the root's, or be on their way to it: at
most one for every packet of the port and for every pop, and no more than all the work. -/
def mayWait (xs : ℕ → GenIn P) (i : ℕ) : ℕ → ℕ :=
  share (serviceTime P) (fun c => cost (xs c)) fun c => toPort i (xs c) + (xs c).iPop.toNat

/-- The most pops that can be under way. -/
def mayPop (xs : ℕ → GenIn P) : ℕ → ℕ :=
  share (serviceTime P) (fun c => cost (xs c)) fun c => (xs c).iPop.toNat

/-- The scheduler serves its work. -/
theorem served_work (pu : PowerUp P.toParams) (xs : ℕ → GenIn P) :
    Served (serviceTime P) (fun c => work (run pu xs c)) (fun c => cost (xs c))
      fun c => starts pu (engineIns pu xs) c where
  start := by
    have hload : (run pu xs 0).load = 0 := load_eq_zero_iff.mpr fun _ _ => rfl
    rw [work, hload]
    rfl
  step c := work_succ_add pu xs c
  served c _ := served pu xs c

/-- **The work there is, judged by the inputs.** -/
theorem work_le_mayRemain (pu : PowerUp P.toParams) (xs : ℕ → GenIn P) (c : ℕ) :
    work (run pu xs c) ≤ mayRemain xs c := (served_work pu xs).le_bound (serviceTime_pos P) c

theorem length_pending_le_load (S : PifoSramTop P.toParams) (hi : i < P.LEVEL) :
    (S.pending i).length ≤ S.load :=
  Finset.single_le_sum (f := fun i => (S.pending i).length) (fun _ _ => Nat.zero_le _)
    (Finset.mem_range.mpr hi)

/-- **What waits on a port, judged by the inputs**, with the pops that the root has yet to make. -/
theorem pending_le_mayWait (pu : PowerUp P.toParams) (xs : ℕ → GenIn P) (hi : i < P.LEVEL)
    (h0 : i ≠ 0) (c : ℕ) :
    ((run pu xs c).pending i).length + rootPops (run pu xs c) ≤ mayWait xs i c := by
  refine (served_work pu xs).le_share
    (b := fun c => ((run pu xs c).pending i).length + rootPops (run pu xs c))
    (d := fun c => toPort i (xs c) + (xs c).iPop.toNat)
    (serviceTime_pos P) (fun c => ?_) (fun c => ?_) c
  · rw [work_eq]
    exact Nat.add_le_add_right (length_pending_le_load _ hi) _
  · have hport := length_pending_succ pu xs c i
    have hpush := pushBit_le (run pu xs c) (xs c) i
    have hpop := popBit_le (run pu xs c) (xs c) i
    rw [if_neg h0, Nat.zero_add] at hpush hpop
    have hanswer :
        (if i = popRpuId (run pu xs c) then ((run pu xs c).oIsLevel0Pop 0).toNat else 0) ≤
          ((run pu xs c).oIsLevel0Pop 0).toNat := by
      split
      · exact le_rfl
      · exact Nat.zero_le _
    have hroot := rootPops_succ_add pu xs c
    rw [toPort]
    omega

/-- The pops that wait on any port. -/
def waitingPops (S : PifoSramTop P.toParams) : ℕ :=
  ∑ i ∈ Finset.range P.LEVEL, if i = 0 then 0 else (S.pending i).countP isPop

/-- The pops that have just been announced. -/
def newPops (S : PifoSramTop P.toParams) : ℕ :=
  ∑ i ∈ Finset.range P.LEVEL, if i = 0 then 0 else (S.td i).rpuPopNew.toNat

/-- A pop that is announced no longer waits, and one at most is made by an answer of the root. -/
theorem waitingPops_succ_add (pu : PowerUp P.toParams) (xs : ℕ → GenIn P) (c : ℕ) :
    waitingPops (run pu xs (c + 1)) + newPops (run pu xs (c + 1)) ≤
      waitingPops (run pu xs c) + ((run pu xs c).oIsLevel0Pop 0).toNat := by
  refine le_trans ?_ (Nat.add_le_add_left (sum_ite_le P.LEVEL (popRpuId (run pu xs c)) _) _)
  rw [waitingPops, waitingPops, newPops, ← Finset.sum_add_distrib, ← Finset.sum_add_distrib]
  refine Finset.sum_le_sum fun i _ => ?_
  by_cases h0 : i = 0
  · rw [if_pos h0, if_pos h0]
    exact Nat.zero_le _
  · have hpops := countP_pending_succ pu xs c i
    have hpop := popBit_le (run pu xs c) (xs c) i
    rw [if_neg h0, Nat.zero_add] at hpop
    rw [if_neg h0, if_neg h0, if_neg h0]
    omega

/-- **The pops under way, judged by the inputs.** -/
theorem pops_le_mayPop (pu : PowerUp P.toParams) (xs : ℕ → GenIn P) (c : ℕ) :
    waitingPops (run pu xs c) + rootPops (run pu xs c) ≤ mayPop xs c := by
  refine (served_work pu xs).le_share
    (b := fun c => waitingPops (run pu xs c) + rootPops (run pu xs c))
    (d := fun c => (xs c).iPop.toNat) (serviceTime_pos P) (fun c => ?_) (fun c => ?_) c
  · rw [work_eq]
    refine Nat.add_le_add_right (Finset.sum_le_sum fun i _ => ?_) _
    split
    · exact Nat.zero_le _
    · exact List.countP_le_length
  · have hports := waitingPops_succ_add pu xs c
    have hroot := rootPops_succ_add pu xs c
    omega

/-! ## The full flag -/

/-- What may wait on the ports other than the root's, with the packet of the cycle, has room. -/
def RoomFor (xs : ℕ → GenIn P) (c : ℕ) : Prop :=
  ∀ i < P.LEVEL, i ≠ 0 → mayWait xs i c + toPort i (xs c) ≤ P.fifoSize + 1

instance (xs : ℕ → GenIn P) (c : ℕ) : Decidable (RoomFor xs c) :=
  inferInstanceAs (Decidable (∀ i < P.LEVEL, _))

/-- A full FIFO that is not read has its size of words, and the task head before it is in use. -/
theorem fifoSize_lt_pending (c : ℕ) (hfull : (run pu xs c).oTaskFifoFull i = true)
    (hread : (run pu xs c).popTaskFIFO i = false) :
    P.fifoSize + 1 ≤ ((run pu xs c).pending i).length := by
  have hcount : ((run pu xs c).fifo i).fifoCounter = 2 ^ P.FIFO_WIDTH := beq_iff_eq.mp hfull
  have hwords : 2 ^ P.FIFO_WIDTH ≤
      ((((run pu xs c).fifo i).contents P.FIFO_WIDTH).flatMap Entry.tasks).length := by
    rw [List.length_flatMap, ← hcount, ← TaskFIFO.length_contents (B := P.FIFO_WIDTH),
      ← List.length_map (f := fun e : Entry P.toWidths => e.tasks.length)]
    refine List.length_le_sum_of_one_le _ fun n hn => ?_
    obtain ⟨e, he, rfl⟩ := List.mem_map.mp hn
    rw [run_eq_engine] at he
    exact List.length_pos_of_ne_nil (tasks_ne_nil_of_mem he)
  have hhead : ((run pu xs c).head i).tasks ≠ [] := by
    -- nothing but a task in the task head keeps a FIFO from being read
    intro hnil
    have hsplit := tasks_taskHead (run pu xs c) (fun _ => Entry.zero) i
    rw [hnil] at hsplit
    have hafter := congrArg List.length (List.append_eq_nil_iff.mp hsplit.symm).2
    rw [length_tasks] at hafter
    have hempty : (run pu xs c).view.empty i = false := by
      refine beq_eq_false_iff_ne.mpr ?_
      rw [hcount]
      exact (Nat.two_pow_pos _).ne'
    rw [PifoSramTop.popTaskFIFO, TaskDistribute.popTaskFIFO, hempty] at hread
    revert hread hafter
    cases (taskHeadAfter P.toParams (run pu xs c).td (run pu xs c).view i).pushBit <;>
      cases (taskHeadAfter P.toParams (run pu xs c).td (run pu xs c).view i).popBit <;> simp
  rw [pending, List.length_append, Params.fifoSize]
  have := List.length_pos_of_ne_nil hhead
  omega

/-- A run in which no port gets more packets than its FIFO and the task head hold, pops counted
with them. -/
theorem roomFor_of_arrived (h : ∀ i < P.LEVEL, i ≠ 0 →
    arrived (fun k => toPort i (xs k) + (xs k).iPop.toNat) 0 (c + 1) ≤ P.fifoSize + 1) :
    RoomFor xs c := by
  intro i hi h0
  have htotal := h i hi h0
  rw [arrived_succ (Nat.zero_le c)] at htotal
  have hshare := share_le_arrived (serviceTime P) (fun c => cost (xs c))
    (fun k => toPort i (xs k) + (xs k).iPop.toNat) c
  rw [mayWait]
  omega

/-- A run without a stretch of cycles that asks for more than a FIFO holds and for more than one
piece of work in every `LEVEL + 4` cycles. -/
theorem roomFor_of_rate (h : ∀ b < c, serviceTime P * arrived (fun k => cost (xs k)) b c ≤
    serviceTime P * P.fifoSize + (c - 1 - b)) : RoomFor xs c := by
  intro i _ _
  have hbound := (bound_le_iff (serviceTime_pos P) _ c P.fifoSize).mpr h
  have hshare := share_le_bound (serviceTime P) (fun c => cost (xs c))
    (fun k => toPort i (xs k) + (xs k).iPop.toNat) c
  have hpush : toPort i (xs c) ≤ 1 := by
    rw [toPort]
    split
    · exact Bool.toNat_le _
    · exact Nat.zero_le _
  rw [mayWait]
  omega

/-- **When the full flag can be trusted.**  In every cycle of every run in which what may wait on
the ports, judged by the inputs so far, has room: if the flag is low then no FIFO loses a word. -/
theorem full_flag_sound (P : GenParams) (pu : PowerUp P.toParams) (xs : ℕ → GenIn P) (c : ℕ)
    (hroom : RoomFor xs c) (hflag : oTaskFifoFull (run pu xs c) = false) :
    (run pu xs c).NoOverflow (engineIns pu xs c) := by
  rintro i hi ⟨hpush, hfull, hread⟩
  by_cases h0 : i = 0
  · subst h0
    exact absurd (hfull.symm.trans hflag) (by simp)
  · have hwait := pending_le_mayWait pu xs hi h0 c
    have hwords := fifoSize_lt_pending c hfull hread
    have hport := hroom i hi h0
    -- the word that is lost carries the packet of the cycle or a pop of the root's token
    have hword : 1 ≤ toPort i (xs c) + rootPops (run pu xs c) := by
      have hbit := pushBit_le (run pu xs c) (xs c) i
      have hpop := popBit_le (run pu xs c) (xs c) i
      rw [if_neg h0, Nat.zero_add] at hbit hpop
      rw [toPort, rootPops]
      rw [pushTaskFIFO, Bool.or_eq_true] at hpush
      rcases hpush with hpush | hpush
      · rw [show (ports (run pu xs c) (xs c) i).pushBit = true from hpush] at hbit
        exact hbit.trans (Nat.le_add_right _ _)
      · rw [show (ports (run pu xs c) (xs c) i).popBit = true from hpush] at hpop
        refine (hpop.trans ?_).trans (Nat.le_add_left _ _)
        split
        · exact Nat.le_add_left _ _
        · exact Nat.zero_le _
    omega

/-- Four packets for tree 3, and then packets for tree 1. -/
def threeThenOne (c : ℕ) : GenIn defaults :=
  if c < 4 then ⟨true, 3, 5, ⟨2, 5⟩, false⟩ else ⟨true, 1, 5, ⟨0, 5⟩, false⟩

/-- The ninth packet for tree 1 is taken. -/
theorem full_flag_sound_threeThenOne :
    (run (PowerUp.blank defaults.toParams) threeThenOne 12).NoOverflow
      (engineIns (PowerUp.blank defaults.toParams) threeThenOne 12) :=
  full_flag_sound defaults (PowerUp.blank defaults.toParams) threeThenOne 12 (by decide +kernel)
    (by decide +kernel)

/-- The tenth one is lost: no larger bound than that of `RoomFor` would do. -/
theorem roomFor_sharp :
    mayWait threeThenOne 1 13 + toPort 1 (threeThenOne 13) = defaults.fifoSize + 2 ∧
      oTaskFifoFull (run (PowerUp.blank defaults.toParams) threeThenOne 13) = false ∧
      ((run (PowerUp.blank defaults.toParams) threeThenOne 13).fifo 1).Drops defaults.FIFO_WIDTH
        (PifoSramTop.pushTaskFIFO (engineIns (PowerUp.blank defaults.toParams) threeThenOne 13 1))
        ((run (PowerUp.blank defaults.toParams) threeThenOne 13).popTaskFIFO 1) := by
  decide +kernel

/-- **The flag misses a lost word.**  The tokens pass RPU 1 on their way down the root, so
the packets behind it wait; after twelve cycles FIFO 1 is full and loses a packet while
the flag is low. -/
theorem full_flag_misses_drop :
    oTaskFifoFull (run (PowerUp.blank defaults.toParams) steadyPush 12) = false ∧
      ¬(run (PowerUp.blank defaults.toParams) steadyPush 12).NoOverflow
        (engineIns (PowerUp.blank defaults.toParams) steadyPush 12) := by
  have hdrop : oTaskFifoFull (run (PowerUp.blank defaults.toParams) steadyPush 12) = false ∧
      ((run (PowerUp.blank defaults.toParams) steadyPush 12).fifo 1).Drops defaults.FIFO_WIDTH
        (PifoSramTop.pushTaskFIFO (engineIns (PowerUp.blank defaults.toParams) steadyPush 12 1))
        ((run (PowerUp.blank defaults.toParams) steadyPush 12).popTaskFIFO 1) := by
    decide +kernel
  exact ⟨hdrop.1, fun h => h 1 (by decide) hdrop.2⟩

/-! ## The merged outputs -/

/-- A pop that is granted waits on its port. -/
theorem countP_pos_of_pop {S : PifoSramTop P.toParams}
    (h : (newNxt P.toParams S.td S.view i).pop = true) : 0 < (S.pending i).countP isPop := by
  have hbit : (S.head i).popBit = true := (newNxt_pop h).head
  rw [pending, List.countP_append, countP_tasks, hbit]
  exact Nat.lt_add_right _ Nat.one_pos

/-- If at most one pop can be under way, only one is granted. -/
theorem oneSubGrant_of_mayPop (h : mayPop xs c ≤ 1) : OneSubGrant (run pu xs c) := by
  intro i hi j hj h0 h0' hpi hpj
  by_contra hne
  have hle := (pops_le_mayPop pu xs c).trans h
  have hpair : ∑ k ∈ {i, j}, (if k = 0 then 0 else ((run pu xs c).pending k).countP isPop) ≤
      waitingPops (run pu xs c) := by
    refine Finset.sum_le_sum_of_subset fun k hk => Finset.mem_range.mpr ?_
    rcases Finset.mem_insert.mp hk with rfl | hk
    · exact hi
    · exact (Finset.mem_singleton.mp hk) ▸ hj
  rw [Finset.sum_pair hne, if_neg h0, if_neg h0'] at hpair
  have := countP_pos_of_pop hpi
  have := countP_pos_of_pop hpj
  omega

/-- Port `i`, other than the root's, is in use: a tree of the port has been pushed, or a pop has
been asked for and the port is that of the tree that the empty root names. -/
def InUse (xs : ℕ → GenIn P) (c i : ℕ) : Prop :=
  i ≠ 0 ∧ ((∃ k < c, (xs k).iPush = true ∧ i = pushRpuId (xs k)) ∨
    (∃ k < c, (xs k).iPop = true) ∧ i = (2 ^ P.treeNumBits - 1) % P.LEVEL)

instance (xs : ℕ → GenIn P) (c i : ℕ) : Decidable (InUse xs c i) :=
  inferInstanceAs (Decidable (_ ∧ (_ ∨ _)))

theorem pop_mem_tasks {W : Widths} {e : Entry W} {t : ℕ} (h : (t, Task.pop) ∈ e.tasks) :
    e.popBit = true ∧ t = e.popTreeId := by
  rw [Entry.tasks] at h
  cases hpush : e.pushBit <;> cases hpop : e.popBit <;> simp_all

theorem push_mem_tasks {W : Widths} {e : Entry W} {t : ℕ} {v : Val W}
    (h : (t, Task.push v) ∈ e.tasks) :
    e.pushBit = true ∧ t = e.pushTreeId ∧ v = e.pushData := by
  rw [Entry.tasks] at h
  cases hpush : e.pushBit <;> cases hpop : e.popBit <;> simp_all

/-- A pop that is announced has been presented. -/
theorem presented_of_popNew (h : ((run pu xs c).td i).rpuPopNew = true) :
    ∃ k < c, ∃ t, (t, Task.pop) ∈ (ports (run pu xs k) (xs k) i).tasks := by
  rw [run_eq_engine] at h
  have hpush : ((PifoSramTop.run pu (engineIns pu xs) c).td i).rpuPushNew = false := by
    rw [← Bool.not_eq_true]
    exact fun hpush => not_both_new pu (engineIns pu xs) c i ⟨hpush, h⟩
  have hy : (((PifoSramTop.run pu (engineIns pu xs) c).td i).rpuTreeId, Task.pop) ∈
      (shadow pu (engineIns pu xs) c i).announcement := by
    rw [Rpu.announcement, shadow, hpush, h]
    exact List.mem_singleton_self _
  obtain ⟨k, hk, hmem⟩ := presented_of_announcement hy
  exact ⟨k, hk, _, hmem⟩

/-- A pop of the root is one that has been asked for. -/
theorem exists_iPop_of_level0Pop (h : (run pu xs c).oIsLevel0Pop 0 = true) :
    ∃ k < c, (xs k).iPop = true := by
  cases c with
  | zero => exact absurd h (by simp [run, PifoSramTop.reset, PifoSramTop.oIsLevel0Pop,
      PifoSram.oIsLevel0Pop, PifoSram.Regs.idle])
  | succ c =>
    rw [oIsLevel0Pop_succ] at h
    obtain ⟨k, hk, t, hmem⟩ := presented_of_popNew h
    exact ⟨k, Nat.lt_succ_of_lt hk, (pop_mem_tasks hmem).1⟩

/-- **A pop is granted on a port that is in use.** -/
theorem inUse_of_pop (h3 : 3 ≤ P.LEVEL) (h0 : i ≠ 0)
    (h : (newNxt P.toParams (run pu xs c).td (run pu xs c).view i).pop = true) :
    InUse xs c i := by
  have hnew : ((run pu xs (c + 1)).td i).rpuPopNew = true := h
  obtain ⟨k, hk, t, hmem⟩ := presented_of_popNew hnew
  have hport := (ports_popBit _ _ h0).mp (pop_mem_tasks hmem).1
  -- the pop was made by an answer of the root
  have hroot : (run pu xs k).oIsLevel0Pop 0 = true := by
    rw [← Bool.not_eq_false]
    intro hroot
    rw [popRpuId, popTreeId, hroot] at hport
    exact h0 (hport.trans (Nat.zero_mod _))
  have htree := oTreeId_root hroot
  rw [popRpuId, popTreeId, if_pos hroot] at hport
  have hgiven := oPopData_givenTo h3 (homed_engineIns pu xs) P.LEVEL_pos
    (by rw [← run_eq_engine]; exact hroot)
  rw [← run_eq_engine, htree] at hgiven
  rcases hgiven with hones | ⟨k', hk', hmem'⟩
  · obtain ⟨k', hk', hpop⟩ := exists_iPop_of_level0Pop hroot
    rw [hones, tokenTree_ones] at hport
    exact ⟨h0, .inr ⟨⟨k', by omega, hpop⟩, hport⟩⟩
  · rw [Nat.zero_mod] at hmem'
    obtain ⟨hpush, -, hdata⟩ := push_mem_tasks hmem'
    have hpush : (xs k').iPush = true := hpush
    have htoken : (run pu xs k).oPopData 0 = token (xs k') := hdata.trans (if_pos hpush)
    rw [htoken, tokenTree_token] at hport
    exact ⟨h0, .inl ⟨k', by omega, hpush, hport⟩⟩

/-- The ports in use are one port or two neighbours. -/
def Neighbours (xs : ℕ → GenIn P) (c : ℕ) : Prop :=
  ∀ i < P.LEVEL, ∀ j < P.LEVEL, InUse xs c i → InUse xs c j → j ≤ i + 1

instance (xs : ℕ → GenIn P) (c : ℕ) : Decidable (Neighbours xs c) :=
  inferInstanceAs (Decidable (∀ i < P.LEVEL, ∀ j < P.LEVEL, _))

/-- With three RPUs any two ports are neighbours. -/
theorem neighbours_of_three (hL : P.LEVEL ≤ 3) (xs : ℕ → GenIn P) (c : ℕ) : Neighbours xs c :=
  fun _ _ _ _ hi _ => by
    have := hi.1
    omega

/-- Two trees, one of them the root, use one port. -/
theorem neighbours_of_two_trees (hT : P.treeNumBits ≤ 1) (xs : ℕ → GenIn P) (c : ℕ) :
    Neighbours xs c := by
  have hone : ∀ i, InUse xs c i → i = 1 := by
    have hpow : 2 ^ P.treeNumBits ≤ 2 := by
      calc 2 ^ P.treeNumBits ≤ 2 ^ 1 := Nat.pow_le_pow_right Nat.two_pos hT
        _ = 2 := rfl
    rintro i ⟨h0, ⟨k, -, -, hport⟩ | ⟨-, hport⟩⟩
    · have hle : pushRpuId (xs k) ≤ (xs k).iPushTreeId.toNat := Nat.mod_le _ _
      have hlt := (xs k).iPushTreeId.isLt
      omega
    · have hle := Nat.mod_le (2 ^ P.treeNumBits - 1) P.LEVEL
      omega
  intro i _ j _ hi hj
  rw [hone i hi, hone j hj]
  exact Nat.le_succ 1

theorem oneSubGrant_of_neighbours (h : Neighbours xs c) : OneSubGrant (run pu xs c) := by
  refine oneSubGrant_of_near fun i hi j hj h0 h0' hpi hpj => ?_
  rcases Nat.lt_or_ge P.LEVEL 3 with hL | hL
  · omega
  · exact h i hi j hj (inUse_of_pop hL h0 hpi) (inUse_of_pop hL h0' hpj)

/-- **When every sub-tree pop reaches the outputs.**  In every cycle of every run: if two cycles
before, judged by the inputs so far, the ports in use were neighbours or at most one pop could be
under way, then at most one tree other than the root shows a pop, and every such pop is on the
outputs. -/
theorem sub_pops_shown (P : GenParams) (pu : PowerUp P.toParams) (xs : ℕ → GenIn P) (c : ℕ)
    (h : ∀ k, k + 2 = c → Neighbours xs k ∨ mayPop xs k ≤ 1) :
    OneSubPop (run pu xs c) ∧ Shown (run pu xs c) := by
  have hone : OneSubPop (run pu xs c) := by
    rcases Nat.lt_or_ge c 2 with hc | hc
    · exact oneSubPop_early pu xs hc
    · obtain ⟨k, rfl⟩ : ∃ k, c = k + 2 := ⟨c - 2, by omega⟩
      refine (oneSubPop_iff_grant pu xs k).mpr ?_
      rcases h k rfl with hports | hpops
      · exact oneSubGrant_of_neighbours hports
      · exact oneSubGrant_of_mayPop hpops
  exact ⟨hone, hone.shown⟩

/-- Packets for two neighbours, and a pop for each. -/
def neighbourPops (c : ℕ) : GenIn defaults :=
  if c = 0 then ⟨true, 2, 5, ⟨0, 5⟩, false⟩
  else if c = 1 then ⟨true, 3, 5, ⟨2, 5⟩, false⟩
  else if c = 2 ∨ c = 3 then ⟨false, 0, 0, Val.zero, true⟩
  else ⟨false, 0, 0, Val.zero, false⟩

/-- The cycle in which tree 3 shows its packet; both pops were asked for at once. -/
theorem sub_pops_shown_neighbourPops :
    out (run (PowerUp.blank defaults.toParams) neighbourPops 17) = ⟨true, 3, ⟨2, 5⟩⟩ ∧
      OneSubPop (run (PowerUp.blank defaults.toParams) neighbourPops 17) ∧
      Shown (run (PowerUp.blank defaults.toParams) neighbourPops 17) := by
  refine ⟨by decide +kernel, sub_pops_shown defaults (PowerUp.blank defaults.toParams)
    neighbourPops 17 fun k hk => ?_⟩
  obtain rfl : k = 15 := by omega
  exact .inl (by decide +kernel)

/-- **Two pops in one cycle.**  The pop of tree 1 waits behind the tokens that pass RPU 1,
the pop of tree 3 does not, and both show in cycle 15.  The packet of tree 1 is never on
the outputs. -/
theorem sub_pops_collide :
    ¬OneSubPop (run (PowerUp.blank defaults.toParams) twoPops 15) ∧
      (run (PowerUp.blank defaults.toParams) twoPops 15).oIsLevel0Pop 1 = true ∧
      (run (PowerUp.blank defaults.toParams) twoPops 15).oTreeId 1 = 1 ∧
      out (run (PowerUp.blank defaults.toParams) twoPops 15) = ⟨true, 3, ⟨2, 9⟩⟩ := by
  have hrun : (run (PowerUp.blank defaults.toParams) twoPops 15).oIsLevel0Pop 3 = true ∧
      (run (PowerUp.blank defaults.toParams) twoPops 15).oIsLevel0Pop 1 = true ∧
      (run (PowerUp.blank defaults.toParams) twoPops 15).oTreeId 1 = 1 ∧
      out (run (PowerUp.blank defaults.toParams) twoPops 15) = ⟨true, 3, ⟨2, 9⟩⟩ := by
    decide +kernel
  obtain ⟨h3, h1, hrest⟩ := hrun
  refine ⟨fun h => ?_, h1, hrest⟩
  exact absurd (h 1 (by decide) 3 (by decide) (by decide) (by decide) h1 h3) (by decide)

/-! ## What comes out -/

/-- What is on the outputs is shown by an RPU other than the root's. -/
theorem exists_of_outLoop {S : PifoSramTop P.toParams} {n : ℕ}
    (h : (outLoop S n).oPopOut = true) : ∃ i, i ≠ 0 ∧ i ≤ n ∧ S.oIsLevel0Pop i = true ∧
      outLoop S n = ⟨true, S.oTreeId i, S.oPopData i⟩ := by
  induction n with
  | zero => exact absurd h (by simp [outLoop])
  | succ n ih =>
    rw [outLoop] at h ⊢
    split at h
    · next hpop => exact ⟨n + 1, Nat.succ_ne_zero n, le_rfl, hpop, if_pos hpop⟩
    · next hpop =>
      obtain ⟨i, h0, hi, hshow, heq⟩ := ih h
      exact ⟨i, h0, hi.trans (Nat.le_succ n), hshow, (if_neg hpop).trans heq⟩

/-- What is shown has been announced in the cycle before. -/
theorem oPopOut_succ_le (pu : PowerUp P.toParams) (xs : ℕ → GenIn P) (c : ℕ) :
    (out (run pu xs (c + 1))).oPopOut.toNat ≤ newPops (run pu xs c) := by
  cases hout : (out (run pu xs (c + 1))).oPopOut with
  | false => exact Nat.zero_le _
  | true =>
    obtain ⟨i, h0, hi, hpop, -⟩ := exists_of_outLoop hout
    have hlt : i < P.LEVEL := by
      have := P.LEVEL_pos
      omega
    have hnew : ((run pu xs c).td i).rpuPopNew = true := by
      rw [run_eq_engine] at hpop ⊢
      exact (oIsLevel0Pop_iff pu _ c hlt).mp hpop
    have hle := Finset.single_le_sum
      (f := fun i => if i = 0 then 0 else ((run pu xs c).td i).rpuPopNew.toNat)
      (fun _ _ => Nat.zero_le _) (Finset.mem_range.mpr hlt)
    rw [if_neg h0, hnew] at hle
    exact hle

/-- Every pop that has been asked for is under way, has been shown, or is lost. -/
theorem shown_add_le (pu : PowerUp P.toParams) (xs : ℕ → GenIn P) (c : ℕ) :
    ∑ k ∈ Finset.range (c + 1), (out (run pu xs k)).oPopOut.toNat + newPops (run pu xs c) +
      (waitingPops (run pu xs c) + rootPops (run pu xs c)) ≤
        ∑ k ∈ Finset.range c, (xs k).iPop.toNat := by
  induction c with
  | zero =>
    have hout : (out (run pu xs 0)).oPopOut = false := by
      rw [← Bool.not_eq_true]
      intro hout
      obtain ⟨i, -, -, hpop, -⟩ := exists_of_outLoop hout
      exact absurd hpop (by simp [run, PifoSramTop.reset, PifoSramTop.oIsLevel0Pop,
        PifoSram.oIsLevel0Pop, PifoSram.Regs.idle])
    have hnew : newPops (run pu xs 0) = 0 := Finset.sum_eq_zero fun i _ => ite_self 0
    have hpops := pops_le_mayPop pu xs 0
    have hmay : mayPop xs 0 = 0 := rfl
    rw [Finset.sum_range_one, Finset.sum_range_zero, hout, hnew, Bool.toNat_false]
    omega
  | succ c ih =>
    rw [Finset.sum_range_succ _ (c + 1), Finset.sum_range_succ (fun k => (xs k).iPop.toNat) c]
    have hshown := oPopOut_succ_le pu xs c
    have hports := waitingPops_succ_add pu xs c
    have hroot := rootPops_succ_add pu xs c
    omega

/-- **What comes out has been asked for, and it is the tree's own.**  Whatever is pushed and
popped, whatever the FIFOs drop and however full the trees are: no more packets have come out than
pops have been asked for, and a packet that comes out for a tree has been pushed for this tree, or
is the all ones of an empty one. -/
theorem out_sound (P : GenParams) (h3 : 3 ≤ P.LEVEL) (pu : PowerUp P.toParams) (xs : ℕ → GenIn P)
    (c : ℕ) :
    ∑ k ∈ Finset.range (c + 1), (out (run pu xs k)).oPopOut.toNat ≤
        ∑ k ∈ Finset.range c, (xs k).iPop.toNat ∧
      ((out (run pu xs c)).oPopOut = true → (out (run pu xs c)).oPopData = Val.ones ∨
        ∃ k < c, (xs k).iPush = true ∧
          (xs k).iPushTreeId.toNat = (out (run pu xs c)).oPopTreeId ∧
          (xs k).iPushData = (out (run pu xs c)).oPopData) := by
  refine ⟨?_, fun hout => ?_⟩
  · have := shown_add_le pu xs c
    omega
  · obtain ⟨i, h0, hi, hpop, heq⟩ := exists_of_outLoop hout
    have hlt : i < P.LEVEL := by omega
    have hport := (oTreeId_of_level0Pop pu xs c hlt hpop).2
    have hgiven := oPopData_givenTo h3 (homed_engineIns pu xs) hlt
      (by rw [← run_eq_engine]; exact hpop)
    rw [← run_eq_engine] at hgiven
    rw [out, heq]
    rcases hgiven with hones | hpresented
    · exact .inl hones
    · obtain ⟨k, hk, hmem⟩ := hpresented
      rw [hport] at hmem
      obtain ⟨hpush, htree, hdata⟩ := push_mem_tasks hmem
      have hword := ports_push (run pu xs k) (xs k) h0 hpush
      exact .inr ⟨k, hk, ((ports_pushBit _ _ h0).mp hpush).2, hword.1.symm.trans htree.symm,
        hword.2.symm.trans hdata.symm⟩

/-- In cycle 15 the packet of tree 3 is on the outputs. -/
theorem out_sound_twoPops :
    out (run (PowerUp.blank defaults.toParams) twoPops 15) = ⟨true, 3, ⟨2, 9⟩⟩ ∧
      ∑ k ∈ Finset.range 16, (out (run (PowerUp.blank defaults.toParams) twoPops k)).oPopOut.toNat ≤
        2 ∧
      ∃ k < 15, (twoPops k).iPush = true ∧ (twoPops k).iPushTreeId.toNat = 3 ∧
        (twoPops k).iPushData = ⟨2, 9⟩ := by
  have hout : out (run (PowerUp.blank defaults.toParams) twoPops 15) = ⟨true, 3, ⟨2, 9⟩⟩ := by
    decide +kernel
  obtain ⟨hcount, hdata⟩ := out_sound defaults (by decide) (PowerUp.blank defaults.toParams)
    twoPops 15
  rw [hout] at hdata
  exact ⟨hout, hcount.trans (by decide +kernel), (hdata rfl).resolve_left (by decide)⟩

end TaskGenerator

end VPifo
