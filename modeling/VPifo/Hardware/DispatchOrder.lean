import VPifo.Hardware.Dispatch

/-!
# Every accepted task is dispatched once, in order

`VPifo.Hardware.Dispatch` follows the tasks of a port as long as no FIFO drops a word.
Here the FIFO may be full.  A word that is written to a full FIFO which is not read in the
same cycle is lost, and nothing else happens to it or because of it: what has been
announced, then the task head, then the FIFO, is what the FIFO has *accepted*, in order
(`dispatch_in_order`).

The last section is about the one size for which this fails.  With `FIFO_SIZE = 1` the
pointers are declared `reg[-1:0]`, which is two bits and not none; they go through four
values while the memory has one word, so a write with the pointer at 1 is outside of the
memory and lost.
-/

namespace VPifo

open Cyclic TaskDistribute

namespace PifoSramTop

variable {P : Params} {S : PifoSramTop P} {x : ℕ → Entry P.toWidths} {i : ℕ}

/-- The FIFO of port `i` takes the word that is presented. -/
def Accepts (S : PifoSramTop P) (x : ℕ → Entry P.toWidths) (i : ℕ) : Prop :=
  pushTaskFIFO (x i) = true ∧
    ¬(S.fifo i).Drops P.FIFO_WIDTH (pushTaskFIFO (x i)) (S.popTaskFIFO i)

instance (S : PifoSramTop P) (x : ℕ → Entry P.toWidths) (i : ℕ) : Decidable (S.Accepts x i) :=
  inferInstanceAs (Decidable (_ ∧ _))

/-- The words the FIFO of port `i` has accepted before cycle `c`. -/
def accepted (pu : PowerUp P) (ins : ℕ → ℕ → Entry P.toWidths) (i : ℕ) :
    ℕ → List (Entry P.toWidths)
  | 0 => []
  | c + 1 => accepted pu ins i c ++ if (run pu ins c).Accepts (ins c) i then [ins c i] else []

/-- A cycle in which the word is lost. -/
theorem pending_step_of_drops
    (hd : (S.fifo i).Drops P.FIFO_WIDTH (pushTaskFIFO (x i)) (S.popTaskFIFO i)) :
    ((S.step x).td i).announcement ++ (S.step x).pending i = S.pending i := by
  have hfifo : ((S.step x).fifo i).contents P.FIFO_WIDTH = (S.fifo i).contents P.FIFO_WIDTH :=
    TaskFIFO.contents_step_of_drops hd (x i)
  have hhead : (S.step x).head i =
      if !S.popTaskFIFO i then taskHeadAfter P S.td S.view i else ((S.step x).fifo i).bufOut := rfl
  rw [hd.2.2] at hhead
  rw [pending, pending, tasks_taskHead S x i, hhead, hfifo]
  simp

/-- **One cycle of one port**, whether the word is taken or not. -/
theorem pending_step_accepts (hf : (S.fifo i).Wf P.FIFO_WIDTH) :
    ((S.step x).td i).announcement ++ (S.step x).pending i =
      S.pending i ++ (if S.Accepts x i then [x i] else []).flatMap Entry.tasks := by
  by_cases hd : (S.fifo i).Drops P.FIFO_WIDTH (pushTaskFIFO (x i)) (S.popTaskFIFO i)
  · rw [if_neg fun h => h.2 hd, pending_step_of_drops hd]
    simp
  · rw [pending_step hf hd]
    congr 1
    by_cases hpush : pushTaskFIFO (x i) = true
    · rw [if_pos ⟨hpush, hd⟩]
      simp
    · rw [if_neg fun h => hpush h.1, tasks_of_not_push (Bool.eq_false_iff.mpr hpush)]
      rfl

/-- A unit is never told to start a push and a pop in one cycle. -/
theorem not_both_new (pu : PowerUp P) (ins : ℕ → ℕ → Entry P.toWidths) (c i : ℕ) :
    ¬(((run pu ins c).td i).rpuPushNew = true ∧ ((run pu ins c).td i).rpuPopNew = true) := by
  rintro ⟨hpush, hpop⟩
  cases c with
  | zero => exact absurd hpush (by simp [run, reset, TaskDistribute.reset, Rpu.reset])
  | succ c =>
    have hno := newNxt_not_both (P := P) (s := (run pu ins c).td) (v := (run pu ins c).view)
      (i := i) hpush
    exact absurd (hno.symm.trans hpop) (by simp)

/-- Announced, then pending, is what was accepted. -/
theorem announced_append_pending_accepted (pu : PowerUp P) (ins : ℕ → ℕ → Entry P.toWidths)
    (c i : ℕ) : announced pu ins i (c + 1) ++ (run pu ins c).pending i =
      (accepted pu ins i c).flatMap Entry.tasks := by
  induction c with
  | zero => rfl
  | succ c ih =>
    have hstep := pending_step_accepts (x := ins c) (wf_fifo pu ins c i)
    rw [accepted, List.flatMap_append, ← ih, announced, List.append_assoc, List.append_assoc,
      ← hstep]
    rfl

/-- **Every accepted task is announced once and in order.**  For every number of levels,
every FIFO of two words or more, every run from reset and every port: at the beginning of
every cycle, the tasks announced so far, followed by the tasks of the task head (the word
that is being read out is there already), followed by the tasks in the FIFO, are the tasks
of the words the FIFO has accepted; and a push and a pop are never announced together. -/
theorem dispatch_in_order (P : Params) (pu : PowerUp P) (ins : ℕ → ℕ → Entry P.toWidths) (c i : ℕ) :
    announced pu ins i (c + 1) ++ ((run pu ins c).head i).tasks ++
        (((run pu ins c).fifo i).contents P.FIFO_WIDTH).flatMap Entry.tasks =
      (accepted pu ins i c).flatMap Entry.tasks ∧
    ¬(((run pu ins c).td i).rpuPushNew = true ∧ ((run pu ins c).td i).rpuPopNew = true) := by
  refine ⟨?_, not_both_new pu ins c i⟩
  rw [List.append_assoc, ← pending]
  exact announced_append_pending_accepted pu ins c i

theorem mem_accepted {pu : PowerUp P} {ins : ℕ → ℕ → Entry P.toWidths} {c : ℕ}
    {e : Entry P.toWidths} (he : e ∈ accepted pu ins i c) : ∃ k < c, e = ins k i := by
  induction c with
  | zero => exact absurd he List.not_mem_nil
  | succ c ih =>
    rcases List.mem_append.mp he with he | he
    · obtain ⟨k, hk, hek⟩ := ih he
      exact ⟨k, Nat.lt_succ_of_lt hk, hek⟩
    · split at he
      · exact ⟨c, Nat.lt_succ_self c, List.mem_singleton.mp he⟩
      · exact absurd he List.not_mem_nil

/-- What is announced has been presented on that port, whatever the FIFOs drop. -/
theorem presented_of_announcement {pu : PowerUp P} {ins : ℕ → ℕ → Entry P.toWidths} {c : ℕ}
    {y : ℕ × Task P.toWidths} (hy : y ∈ (shadow pu ins c i).announcement) :
    ∃ k < c, y ∈ (ins k i).tasks := by
  have hmem : y ∈ (accepted pu ins i c).flatMap Entry.tasks := by
    rw [← announced_append_pending_accepted, announced, List.append_assoc]
    exact List.mem_append_right _ (List.mem_append_left _ hy)
  obtain ⟨e, he, hye⟩ := List.mem_flatMap.mp hmem
  obtain ⟨k, hk, rfl⟩ := mem_accepted he
  exact ⟨k, hk, hye⟩

/-- An engine of two levels. -/
def smallest : Params where
  PTW := 1
  MTW := 1
  CTW := 2
  order := .two
  arbiter := .vPIFO
  LEVEL := 2
  TREE_NUM := 2
  FIFO_WIDTH := 1
  two_le_LEVEL := le_rfl
  two_le_TREE_NUM := le_rfl
  one_le_FIFO_WIDTH := le_rfl

end PifoSramTop

/-! ## A FIFO of one word -/

namespace OneWord

/-- The FIFO of port 0, of one word, and the dispatcher; nothing comes on the other ports. -/
structure State (P : Params) where
  fifo : TaskFIFO P.toWidths
  td : TaskDistribute P.toWidths

variable {P : Params}

/-- What the dispatcher sees. -/
def view (S : State P) : FifoView P.toWidths where
  data i := if i = 0 then S.fifo.bufOut else Entry.zero
  empty i := if i = 0 then S.fifo.bufEmpty else true

/-- One clock edge, with `x` presented on port 0. -/
def step (S : State P) (x : Entry P.toWidths) : State P where
  fifo := S.fifo.step 0 (PifoSramTop.pushTaskFIFO x) (popTaskFIFO P S.td (view S) 0) x
  td := TaskDistribute.step P S.td (view S)

/-- The state at the beginning of cycle `c`. -/
def run (ins : ℕ → Entry P.toWidths) : ℕ → State P
  | 0 => ⟨TaskFIFO.reset (fun _ => Entry.zero) false, TaskDistribute.reset⟩
  | c + 1 => step (run ins c) (ins c)

/-- The tasks announced to unit 0 before cycle `c`. -/
def announced (ins : ℕ → Entry P.toWidths) : ℕ → List (ℕ × Task P.toWidths)
  | 0 => []
  | c + 1 => announced ins c ++ ((run ins c).td 0).announcement

/-- The words the FIFO has accepted before cycle `c`. -/
def accepted (ins : ℕ → Entry P.toWidths) : ℕ → List (Entry P.toWidths)
  | 0 => []
  | c + 1 => accepted ins c ++
      if PifoSramTop.pushTaskFIFO (ins c) = true ∧ ¬(run ins c).fifo.Drops 0
        (PifoSramTop.pushTaskFIFO (ins c)) (popTaskFIFO P (run ins c).td (view (run ins c)) 0)
      then [ins c] else []

/-- A push for tree 0 in cycle 0 and another one in cycle 2. -/
def twoPushes (c : ℕ) : Entry PifoSramTop.smallest.toWidths :=
  if c = 0 then ⟨true, false, 0, 0, ⟨0, 0⟩⟩
  else if c = 2 then ⟨true, false, 0, 0, ⟨1, 0⟩⟩
  else Entry.zero

/-- **A FIFO of one word loses the second task.**  Both pushes are accepted; four cycles on
the FIFO is empty, the task head is empty, and only the first push has been announced. -/
theorem oneWord_loses_task :
    (accepted twoPushes 4).flatMap Entry.tasks = [(0, .push ⟨0, 0⟩), (0, .push ⟨1, 0⟩)] ∧
      announced twoPushes 5 = [(0, .push ⟨0, 0⟩)] ∧
      (taskHead _ (run twoPushes 4).td (view (run twoPushes 4)) 0).tasks = [] ∧
      (run twoPushes 4).fifo.fifoCounter = 0 := by
  decide +kernel

end OneWord

end VPifo
