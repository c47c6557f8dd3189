import VPifo.Hardware.Control
import VPifo.Hardware.Sequential

/-!
# No task is lost, and no task overtakes another

A task presented on a port waits in the port's FIFO, moves to the task head of the
dispatcher, and is announced to a unit.  This file follows the tasks of one port
through these three places.  At the beginning of every cycle, what has been announced,
followed by what the task head still holds, followed by what the FIFO holds, is what has
been presented so far, in order (`announced_append_pending`).  The only assumption is
that no FIFO has dropped a word.

A word that carries a push and a pop stands for the push followed by the pop.
-/

namespace VPifo

open Cyclic TaskDistribute

/-- The tasks of a word, with their tree identifiers; the push goes first. -/
def Entry.tasks {W : Widths} (e : Entry W) : List (ℕ × Task W) :=
  (if e.pushBit then [(e.pushTreeId, Task.push e.pushData)] else []) ++
    (if e.popBit then [(e.popTreeId, Task.pop)] else [])

/-- The task an RPU is told to start. -/
def Rpu.announcement {W : Widths} (d : Rpu W) : List (ℕ × Task W) :=
  if d.rpuPushNew then [(d.rpuTreeId, Task.push d.rpuPushData)]
  else if d.rpuPopNew then [(d.rpuTreeId, Task.pop)]
  else []

namespace PifoSramTop

variable {P : Params} (pu : PowerUp P) (ins : ℕ → ℕ → Entry P.toWidths)

/-- The tasks presented on port `i` before cycle `c`. -/
def presented (i : ℕ) : ℕ → List (ℕ × Task P.toWidths)
  | 0 => []
  | c + 1 => presented i c ++ (ins c i).tasks

/-- The tasks announced to unit `i` before cycle `c`. -/
def announced (i : ℕ) : ℕ → List (ℕ × Task P.toWidths)
  | 0 => []
  | c + 1 => announced i c ++ (shadow pu ins c i).announcement

/-- `TaskHead` of port `i`. -/
def head (S : PifoSramTop P) (i : ℕ) : Entry P.toWidths := taskHead P S.td S.view i

/-- The tasks of port `i` that wait: the task head, then the FIFO. -/
def pending (S : PifoSramTop P) (i : ℕ) : List (ℕ × Task P.toWidths) :=
  (S.head i).tasks ++ ((S.fifo i).contents P.FIFO_WIDTH).flatMap Entry.tasks

variable {pu ins} {i : ℕ}

/-- No FIFO drops a word before cycle `c`. -/
def NoOverflowBefore (pu : PowerUp P) (ins : ℕ → ℕ → Entry P.toWidths) (c : ℕ) : Prop :=
  ∀ k < c, (run pu ins k).NoOverflow (ins k)

instance (pu : PowerUp P) (ins : ℕ → ℕ → Entry P.toWidths) (c : ℕ) :
    Decidable (NoOverflowBefore pu ins c) :=
  inferInstanceAs (Decidable (∀ k < c, _))

/-! ## The task head -/

/-- **A grant takes the first task of the task head.** -/
theorem tasks_taskHead (S : PifoSramTop P) (x : ℕ → Entry P.toWidths) (i : ℕ) :
    (S.head i).tasks =
      ((S.step x).td i).announcement ++ (taskHeadAfter P S.td S.view i).tasks := by
  show (taskHead P S.td S.view i).tasks = (TaskDistribute.step P S.td S.view i).announcement ++ _
  cases hpush : (newNxt P S.td S.view i).push with
  | true =>
    have hbit := (newNxt_push hpush).head
    simp [Entry.tasks, Rpu.announcement, TaskDistribute.step, taskHeadAfter, hpush, hbit]
  | false =>
    cases hpop : (newNxt P S.td S.view i).pop with
    | true =>
      have hspec := newNxt_pop hpop
      simp [Entry.tasks, Rpu.announcement, TaskDistribute.step, taskHeadAfter, hpush, hpop,
        hspec.head, hspec.noPush]
    | false =>
      simp [Rpu.announcement, TaskDistribute.step, taskHeadAfter, hpush, hpop]

/-- The FIFO is read only when it holds something and the task head is used up. -/
theorem popTaskFIFO_spec {S : PifoSramTop P} (h : S.popTaskFIFO i = true) :
    (S.fifo i).bufEmpty = false ∧ (taskHeadAfter P S.td S.view i).tasks = [] := by
  rw [popTaskFIFO, TaskDistribute.popTaskFIFO, Bool.and_eq_true, Bool.and_eq_true,
    Bool.not_eq_true', Bool.not_eq_true', Bool.not_eq_true'] at h
  refine ⟨h.2, ?_⟩
  rw [Entry.tasks, h.1.1, h.1.2]
  rfl

/-! ## One cycle -/

variable {S : PifoSramTop P} {x : ℕ → Entry P.toWidths}

/-- An entry that is written carries a task, and one that is not carries none. -/
theorem tasks_of_not_push {e : Entry P.toWidths} (h : pushTaskFIFO e = false) : e.tasks = [] := by
  rw [pushTaskFIFO, Bool.or_eq_false_iff] at h
  rw [Entry.tasks, h.1, h.2]
  rfl

/-- **One cycle of one port.** -/
theorem pending_step (hf : (S.fifo i).Wf P.FIFO_WIDTH)
    (hno : ¬(S.fifo i).Drops P.FIFO_WIDTH (pushTaskFIFO (x i)) (S.popTaskFIFO i)) :
    ((S.step x).td i).announcement ++ (S.step x).pending i = S.pending i ++ (x i).tasks := by
  have hrd : S.popTaskFIFO i = true → (S.fifo i).bufEmpty = false :=
    fun h => (popTaskFIFO_spec h).1
  have hcontents := TaskFIFO.contents_step hf (x i) hrd hno
  have htail : (if pushTaskFIFO (x i) then [x i] else []).flatMap Entry.tasks = (x i).tasks := by
    cases hp : pushTaskFIFO (x i) with
    | true => simp
    | false => rw [tasks_of_not_push hp]; rfl
  have hhead : (S.step x).head i =
      if !S.popTaskFIFO i then taskHeadAfter P S.td S.view i else ((S.step x).fifo i).bufOut := rfl
  have hfifo : ((S.step x).fifo i).contents P.FIFO_WIDTH = _ := hcontents
  rw [pending, pending, tasks_taskHead S x i, hhead, hfifo, List.flatMap_append, htail]
  cases hpop : S.popTaskFIFO i with
  | false => simp
  | true =>
    obtain ⟨hempty, hused⟩ := popTaskFIFO_spec hpop
    have hout := TaskFIFO.bufOut_step hf (pushTaskFIFO (x i)) (x i) hempty
    have hstep : ((S.step x).fifo i).bufOut =
        ((S.fifo i).step P.FIFO_WIDTH (pushTaskFIFO (x i)) true (x i)).bufOut := by
      rw [← hpop]
      rfl
    rw [hused, hstep]
    conv_rhs => rw [hout]
    simp

theorem wf_fifo (pu : PowerUp P) (ins : ℕ → ℕ → Entry P.toWidths) (c i : ℕ) :
    ((run pu ins c).fifo i).Wf P.FIFO_WIDTH := by
  induction c with
  | zero => exact TaskFIFO.wf_reset P.one_le_FIFO_WIDTH _ _
  | succ c ih => exact ih.step _ fun h => (popTaskFIFO_spec h).1

/-- **Announced, then pending, is what was presented.** -/
theorem announced_append_pending {c : ℕ} (hno : NoOverflowBefore pu ins c) (hi : i < P.LEVEL) :
    announced pu ins i (c + 1) ++ (run pu ins c).pending i = presented ins i c := by
  induction c with
  | zero => rfl
  | succ c ih =>
    have hstep := pending_step (x := ins c) (wf_fifo pu ins c i) (hno c (Nat.lt_succ_self c) i hi)
    have ih' := ih fun k hk => hno k (Nat.lt_succ_of_lt hk)
    rw [announced, presented, ← ih', List.append_assoc, List.append_assoc]
    congr 1

/-! ## The tasks of one tree -/

/-- The tasks of tree `t` in a list of tasks. -/
def ofTree {W : Widths} (t : ℕ) (ts : List (ℕ × Task W)) : List (Task W) :=
  (ts.filter fun x => x.1 == t).map Prod.snd

@[simp] theorem ofTree_nil {W : Widths} (t : ℕ) : ofTree t ([] : List (ℕ × Task W)) = [] := rfl

@[simp] theorem ofTree_append {W : Widths} (t : ℕ) (ts us : List (ℕ × Task W)) :
    ofTree t (ts ++ us) = ofTree t ts ++ ofTree t us := by
  simp [ofTree]

/-- The tasks of tree `t` that entered the FIFO of its port before cycle `c`. -/
def entered (ins : ℕ → ℕ → Entry P.toWidths) (t c : ℕ) : List (Task P.toWidths) :=
  ofTree t (presented ins (t % P.LEVEL) c)

/-- The tasks of tree `t` that a unit was told to start before cycle `c`. -/
def started (pu : PowerUp P) (ins : ℕ → ℕ → Entry P.toWidths) (t c : ℕ) :
    List (Task P.toWidths) :=
  ofTree t (announced pu ins (t % P.LEVEL) c)

/-- The tasks of tree `t` that wait on its port. -/
def waiting (S : PifoSramTop P) (t : ℕ) : List (Task P.toWidths) :=
  ofTree t (S.pending (t % P.LEVEL))

/-- **Per tree: started, then waiting, is what entered.** -/
theorem started_append_waiting {c : ℕ} (hno : NoOverflowBefore pu ins c) (t : ℕ) :
    started pu ins t (c + 1) ++ (run pu ins c).waiting t = entered ins t c := by
  rw [started, waiting, entered, ← ofTree_append,
    announced_append_pending hno (Nat.mod_lt t P.LEVEL_pos)]

theorem started_prefix_entered {c : ℕ} (hno : NoOverflowBefore pu ins c) (t : ℕ) :
    started pu ins t (c + 1) <+: entered ins t c :=
  ⟨_, started_append_waiting hno t⟩

/-! ## Announcements belong to their port -/

/-- The tasks of a word belong to trees whose level 0 is at RPU `i`. -/
def Ported (P : Params) (i : ℕ) (e : Entry P.toWidths) : Prop :=
  ∀ x ∈ e.tasks, x.1 < P.TREE_NUM ∧ x.1 % P.LEVEL = i

instance (i : ℕ) (e : Entry P.toWidths) : Decidable (Ported P i e) :=
  inferInstanceAs (Decidable (∀ x ∈ e.tasks, _))

/-- A run up to cycle `c` in which every task is presented on its own port and no FIFO
overflows. -/
structure Legal (pu : PowerUp P) (ins : ℕ → ℕ → Entry P.toWidths) (c : ℕ) : Prop where
  ported : ∀ k < c, ∀ i < P.LEVEL, Ported P i (ins k i)
  noOverflow : NoOverflowBefore pu ins c

theorem Legal.mono {c c' : ℕ} (h : Legal pu ins c) (hc : c' ≤ c) : Legal pu ins c' :=
  ⟨fun k hk => h.ported k (lt_of_lt_of_le hk hc), fun k hk => h.noOverflow k (lt_of_lt_of_le hk hc)⟩

theorem mem_presented {c : ℕ} {y : ℕ × Task P.toWidths} (hy : y ∈ presented ins i c) :
    ∃ k < c, y ∈ (ins k i).tasks := by
  induction c with
  | zero => exact absurd hy (by simp [presented])
  | succ c ih =>
    rw [presented, List.mem_append] at hy
    rcases hy with hy | hy
    · obtain ⟨k, hk, hyk⟩ := ih hy
      exact ⟨k, Nat.lt_succ_of_lt hk, hyk⟩
    · exact ⟨c, Nat.lt_succ_self c, hy⟩

/-- A unit is only told to start tasks of its own trees. -/
theorem Legal.announcement {c : ℕ} (h : Legal pu ins c) (hi : i < P.LEVEL)
    {y : ℕ × Task P.toWidths} (hy : y ∈ (shadow pu ins c i).announcement) :
    y.1 < P.TREE_NUM ∧ y.1 % P.LEVEL = i := by
  have hmem : y ∈ presented ins i c := by
    rw [← announced_append_pending h.noOverflow hi, announced]
    exact List.mem_append.mpr (.inl (List.mem_append.mpr (.inr hy)))
  obtain ⟨k, hk, hyk⟩ := mem_presented hmem
  exact h.ported k hk i hi y hyk

/-- What a unit works on: a node of a tree with property `Q`, at the place of its level. -/
structure AtHome (P : Params) (Q : ℕ → Prop) (i : ℕ) (r : PifoSram.Regs P.toWidths) : Prop where
  tree : Q r.curTreeId
  bank : PifoSram.bank P r.curTreeId r.curLevel = i
  addr : r.myAddr < P.order.D ^ r.curLevel

/-- The first node of a tree. -/
theorem AtHome.root {Q : ℕ → Prop} (fsm : Fsm) (v : Val P.toWidths) {t : ℕ} (ht : Q t)
    (hti : t % P.LEVEL = i) : AtHome P Q i ⟨fsm, v, 0, 0, t⟩ where
  tree := ht
  bank := hti
  addr := Nat.one_pos

/-- The son a unit names, one level and one unit on. -/
theorem AtHome.child {Q : ℕ → Prop} (hi : i < P.LEVEL) {r : PifoSram.Regs P.toWidths}
    {w : Node P.order P.toWidths} (h : AtHome P Q (prev P.LEVEL i) r)
    (hact : r.fsm ≠ .idle) (hlt : r.curLevel + 1 < P.LEVEL) (fsm : Fsm)
    (v : Val P.toWidths) :
    AtHome P Q i ⟨fsm, v, PifoSram.oChildAddr P r w, PifoSram.oLevel P r, r.curTreeId⟩ where
  tree := h.tree
  bank := by
    show PifoSram.bank P r.curTreeId (PifoSram.oLevel P r) = i
    have hbank := h.bank
    rw [PifoSram.bank] at hbank
    rw [oLevel_eq hlt, PifoSram.bank, ← Nat.add_assoc, ← Nat.mod_add_mod, hbank,
      prev_add_one_mod hi]
  addr := by
    show PifoSram.oChildAddr P r w < P.order.D ^ PifoSram.oLevel P r
    have hson : ∀ k : Fin P.order.D,
        (P.order.D * r.myAddr + k) % 2 ^ P.adw < P.order.D ^ (r.curLevel + 1) := fun k =>
      lt_of_le_of_lt (Nat.mod_le _ _) (P.order.child_lt h.addr k.isLt)
    rw [oLevel_eq hlt, PifoSram.oChildAddr]
    cases hf : r.fsm with
    | idle => exact absurd hf hact
    | push => exact hson (minSubTree w)
    | pop | wb => exact hson (minDataPort w)

/-- **Units are told to work at home.**  If every task that is announced belongs to a tree
with property `Q` whose level 0 is at its port, every unit works on nodes of such trees on
the levels that are its own. -/
theorem atHome_of_announced {Q : ℕ → Prop} {c : ℕ}
    (hann : ∀ k < c, ∀ i < P.LEVEL, ∀ y ∈ (shadow pu ins k i).announcement,
      Q y.1 ∧ y.1 % P.LEVEL = i) :
    ∀ {i : ℕ}, i < P.LEVEL → ((run pu ins c).pifo i).fsm ≠ .idle →
      AtHome P Q i ((run pu ins c).pifo i) := by
  induction c with
  | zero => exact fun _ hf => absurd rfl hf
  | succ c ih =>
    intro i hi hf
    have ih' := @ih fun k hk => hann k (Nat.lt_succ_of_lt hk)
    have hfol := follows_run pu ins c hi
    have hreg : (run pu ins (c + 1)).pifo i =
        ((run pu ins c).pifo i).step ((run pu ins c).command i) := rfl
    have hnew := hann c (Nat.lt_succ_self c) i hi
    rw [hreg] at hf ⊢
    cases shadow_move pu ins c hi with
    | idle hfree hq hpush hpop =>
      rw [hfol.step_idle hfree hq hpush hpop] at hf
      exact absurd rfl hf
    | newPush hfree hq hpush hpop =>
      have hy := hnew (_, .push (shadow pu ins c i).rpuPushData) (by
        rw [Rpu.announcement, if_pos hpush]
        exact List.mem_singleton_self _)
      rw [hfol.step_newPush hfree hq hpush hpop]
      exact .root _ _ hy.1 hy.2
    | newPop hfree hq hpush hpop =>
      have hy := hnew (_, .pop) (by
        rw [Rpu.announcement, hpush, hpop]
        exact List.mem_singleton_self _)
      rw [hfol.step_newPop hfree hq hpush hpop]
      exact .root _ _ hy.1 hy.2
    | inheritPush hfree hh hpush hpop =>
      rw [hfol.step_inheritPush hfree hh hpush hpop] at hf ⊢
      cases hdn : (run pu ins c).pushDn (prev P.LEVEL i) with
      | false => rw [hdn] at hf; exact absurd rfl hf
      | true =>
        rcases hfol.before.push hh.1 with hp | hp
        · rw [PifoSramTop.pushDn, hp, PifoSram.oPush] at hdn
          simp [PifoSram.push, PifoSram.Regs.idle] at hdn
        · have hact : ((run pu ins c).pifo (prev P.LEVEL i)).fsm ≠ .idle := by rw [hp.1]; simp
          exact (ih' (prev_lt hi) hact).child hi hact (by rw [hp.2]; exact hh.2) _ _
    | inheritPop hfree hh hpush hpop =>
      obtain ⟨hfp, hlp⟩ := hfol.before.pop hh.1
      have hact : ((run pu ins c).pifo (prev P.LEVEL i)).fsm ≠ .idle := by rw [hfp]; simp
      rw [hfol.step_inheritPop hfree hh hpush hpop]
      exact (ih' (prev_lt hi) hact).child hi hact (by rw [hlp]; exact hh.2) _ _
    | writeBack hpop =>
      have hact : ((run pu ins c).pifo i).fsm ≠ .idle := by rw [(hfol.self.pop hpop).1]; simp
      rw [hfol.step_writeBack hpop]
      exact ⟨(ih' hi hact).tree, (ih' hi hact).bank, (ih' hi hact).addr⟩

/-- **Level `l` of tree `t` is worked on at unit `(t + l) % LEVEL`**, and nowhere else. -/
theorem Legal.bank_eq {c : ℕ} (h : Legal pu ins c) {i : ℕ} (hi : i < P.LEVEL)
    (hf : ((run pu ins c).pifo i).fsm ≠ .idle) :
    PifoSram.bank P ((run pu ins c).pifo i).curTreeId ((run pu ins c).pifo i).curLevel = i :=
  (atHome_of_announced (Q := (· < P.TREE_NUM))
    (fun _ hk _ hj _ hy => (h.mono hk.le).announcement hj hy) hi hf).bank

end PifoSramTop

end VPifo
