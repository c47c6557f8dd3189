import VPifo.Lib.Runs
import VPifo.Hardware.DispatchOrder
import VPifo.Hardware.Pipeline
import VPifo.Hardware.TaskGenerator
import Mathlib.Algebra.Order.BigOperators.Group.Finset
import Mathlib.Algebra.Order.BigOperators.Group.List
import Mathlib.Algebra.Order.Ring.Nat

/-!
# The engine never gets stuck

The other files say what the dispatcher must not do; this one says that it does something.
A pop waits until the unit before its own is ready, and the units are in a ring, so it is
not clear at first that they do not wait for each other.  They do not: both arbiters break
the ring at one place, and when no task is under way they grant one to every port that has
something at its head, up to a pop next to another (`exists_grant`).  A task is under way
for `LEVEL` cycles only, so as long as anything waits, something is announced within
`LEVEL + 2` cycles, whatever is presented in the meantime (`progress`).

When nothing is presented any more, the ports run empty.  In the two-level scheduler this is
not the end, since a pop of the root makes a pop of another tree; but it makes one at most.
-/

namespace VPifo

open Cyclic

namespace TaskDistribute

variable {P : Params} {s : TaskDistribute P.toWidths} {v : FifoView P.toWidths} {i : ℕ}

/-! ## The arbiters -/

/-- No task is under way, except for the last write-back of a pop. -/
def Still (P : Params) (s : TaskDistribute P.toWidths) : Prop :=
  ∀ i < P.LEVEL, (s i).rpuState ≠ .push ∧ (s i).rpuState ≠ .pop

/-- Nothing is granted. -/
def NoGrant (P : Params) (s : TaskDistribute P.toWidths) (v : FifoView P.toWidths) : Prop :=
  ∀ i < P.LEVEL, newNxt P s v i = ⟨false, false⟩

theorem Still.quiet (h : Still P s) (hi : i < P.LEVEL) : Quiet P s i :=
  ⟨fun hh => (h i hi).1 hh.1, fun hh => (h i hi).2 hh.1⟩

section StillRing

variable (hr : Ring P s) (h : Still P s) (hi : i < P.LEVEL)

include hr h hi

theorem Still.stateMid : stateMid P s i = .idle :=
  (stateMid_eq_idle_iff hr hi).mpr ⟨(h i hi).2, h.quiet (prev_lt hi)⟩

theorem Still.readyNxt : readyNxt P s i = true := by
  rw [TaskDistribute.readyNxt, Still.stateMid hr h hi]
  rfl

theorem Still.inherit : pushInheritNxt P s i = false ∧ popInheritNxt P s i = false :=
  (quiet_iff hr hi).mp (h.quiet (prev_lt hi))

end StillRing

/-- When no task is under way and nothing is granted, no RPU stands in the way of another. -/
theorem newNxt_of_noGrant (hr : Ring P s) (h : Still P s) (hno : NoGrant P s v)
    (hi : i < P.LEVEL) : newNxt P s v i = grantAt P s v i false false := by
  have hL := P.two_le_LEVEL
  have hready : ∀ j < P.LEVEL, (!TaskDistribute.readyNxt P s j) = false := fun j hj => by
    rw [h.readyNxt hr hj]
    rfl
  cases harb : P.arbiter with
  | vPIFO =>
    have hnew : ∀ j, newNxt P s v j = newNxtV1 P s v j := fun j => by rw [newNxt, harb]
    have hzero : grantAt P s v 0 false (!TaskDistribute.readyNxt P s (P.LEVEL - 1)) =
        ⟨false, false⟩ := (hnew 0).symm.trans (hno 0 (by omega))
    cases i with
    | zero =>
      rw [hnew, newNxtV1, hready _ (by omega)]
    | succ j =>
      have hj : newNxtV1 P s v j = ⟨false, false⟩ := (hnew j).symm.trans (hno j (by omega))
      rw [hnew, newNxtV1, hj, hzero, hready j (by omega)]
      exact ite_self _
  | vPIFO2 =>
    have hnew : ∀ j, newNxt P s v j = newNxtV2 P s v j := fun j => by rw [newNxt, harb]
    have hchain : ∀ j, j + 1 < P.LEVEL → chainV2 P s v j = ⟨false, false⟩ :=
      fun j hj => (hnew (j + 1)).symm.trans (hno (j + 1) hj)
    have hany : ∀ j, j + 1 < P.LEVEL → anyNxt P s ⟨false, false⟩ (j + 1) = false := by
      intro j hj
      obtain ⟨hpush, hpop⟩ := h.inherit hr hj
      rw [anyNxt, hpush, hpop]
      rfl
    rcases i with _ | _ | j
    · have hlast : P.LEVEL - 1 = P.LEVEL - 2 + 1 := by omega
      rw [hnew, newNxtV2, hchain 0 (by omega), hchain (P.LEVEL - 2) (by omega),
        hready _ (by omega), hlast, hany _ (by omega)]
      rfl
    · obtain ⟨hpush, hpop⟩ := h.inherit hr (i := 0) (by omega)
      rw [hnew, newNxtV2, chainV2, hready 0 (by omega), hpush, hpop]
      rfl
    · rw [hnew, newNxtV2, chainV2, hchain j (by omega), hready (j + 1) (by omega),
        hany j (by omega)]
      rfl

/-- A task head that is granted nothing, with nothing in its way, is empty. -/
theorem tasks_of_grantAt (hmid : stateMid P s i = .idle)
    (h : grantAt P s v i false false = ⟨false, false⟩) : (taskHead P s v i).tasks = [] := by
  rw [grantAt] at h
  have hpush : (taskHead P s v i).pushBit = false := by simpa [hmid] using congrArg Grant.push h
  have hpop : (taskHead P s v i).popBit = false := by
    simpa [hmid, hpush] using congrArg Grant.pop h
  rw [Entry.tasks, hpush, hpop]
  rfl

/-- **A ring at rest grants something** as soon as there is a task at some head. -/
theorem exists_grant (hr : Ring P s) (h : Still P s) (hi : i < P.LEVEL)
    (hhead : (taskHead P s v i).tasks ≠ []) : ¬NoGrant P s v := fun hno =>
  hhead <| tasks_of_grantAt (h.stateMid hr hi) <|
    (newNxt_of_noGrant hr h hno hi).symm.trans (hno i hi)

end TaskDistribute

namespace PifoSramTop

open TaskDistribute

variable {P : Params} {pu : PowerUp P} {ins : ℕ → ℕ → Entry P.toWidths} {c i : ℕ}

/-! ## Tasks that are under way -/

theorem announcement_eq_nil {W : Widths} {d : Rpu W} :
    d.announcement = [] ↔ d.rpuPushNew = false ∧ d.rpuPopNew = false := by
  cases hpush : d.rpuPushNew <;> cases hpop : d.rpuPopNew <;>
    simp [Rpu.announcement, hpush, hpop]

/-- Nothing is announced in a cycle. -/
def Silent (pu : PowerUp P) (ins : ℕ → ℕ → Entry P.toWidths) (c : ℕ) : Prop :=
  ∀ i < P.LEVEL, (shadow pu ins c i).announcement = []

theorem silent_succ_iff : Silent pu ins (c + 1) ↔
    NoGrant P (shadow pu ins c) (run pu ins c).view := by
  refine forall₂_congr fun i _ => announcement_eq_nil.trans ?_
  exact (Grant.mk.injEq _ _ _ _).to_iff.symm

/-- **A task moves on or is done**, so that after `k` cycles without an announcement nothing is
under way above level `k`. -/
theorem level_ge_of_silent {k : ℕ} (h : ∀ j < k, Silent pu ins (c + j + 1)) (hi : i < P.LEVEL)
    (hact : (shadow pu ins (c + k) i).rpuState = .push ∨
      (shadow pu ins (c + k) i).rpuState = .pop) : k ≤ (shadow pu ins (c + k) i).rpuLevel := by
  induction k generalizing i with
  | zero => exact Nat.zero_le _
  | succ k ih =>
    have ih' := @ih (prev P.LEVEL i) (fun j hj => h j (Nat.lt_succ_of_lt hj)) (prev_lt hi)
    obtain ⟨hnoPush, hnoPop⟩ := announcement_eq_nil.mp (h k (Nat.lt_succ_self k) i hi)
    have hmove : Move P (shadow pu ins (c + k)) (shadow pu ins (c + (k + 1))) i :=
      shadow_move pu ins (c + (k + 1)) hi
    cases hmove with
    | idle _ _ _ _ hst | writeBack _ _ _ _ hst =>
      rw [hst] at hact
      simp at hact
    | newPush _ _ hnew => exact absurd (hnew.symm.trans hnoPush) (by simp)
    | newPop _ _ _ hnew => exact absurd (hnew.symm.trans hnoPop) (by simp)
    | inheritPush _ hh _ _ _ hl =>
      rw [hl]
      exact Nat.succ_le_succ (ih' (.inl hh.1))
    | inheritPop _ hh _ _ _ hl =>
      rw [hl]
      exact Nat.succ_le_succ (ih' (.inr hh.1))

/-- After `LEVEL` cycles without an announcement the ring is at rest. -/
theorem still_of_silent {k : ℕ} (hk : P.LEVEL ≤ k) (h : ∀ j < k, Silent pu ins (c + j + 1)) :
    Still P (shadow pu ins (c + k)) := by
  intro i hi
  have hlt := (ring_shadow pu ins (c + k)).level_lt i hi
  have hge := level_ge_of_silent h hi
  constructor
  · intro hst
    exact absurd (hge (.inl hst)) (by omega)
  · intro hst
    exact absurd (hge (.inr hst)) (by omega)

/-! ## Progress -/

/-- A word in a FIFO carries a task. -/
theorem tasks_ne_nil_of_mem {e : Entry P.toWidths}
    (he : e ∈ ((run pu ins c).fifo i).contents P.FIFO_WIDTH) : e.tasks ≠ [] := by
  induction c with
  | zero => exact absurd he List.not_mem_nil
  | succ c ih =>
    by_cases hd : ((run pu ins c).fifo i).Drops P.FIFO_WIDTH (pushTaskFIFO (ins c i))
        ((run pu ins c).popTaskFIFO i)
    · refine ih ?_
      rw [← TaskFIFO.contents_step_of_drops hd (ins c i)]
      exact he
    · have hstep : ((run pu ins (c + 1)).fifo i).contents P.FIFO_WIDTH = _ :=
        TaskFIFO.contents_step (wf_fifo pu ins c i) (ins c i) (fun h => (popTaskFIFO_spec h).1) hd
      rw [hstep, List.mem_append] at he
      rcases he with he | he
      · split at he
        · exact ih (List.mem_of_mem_tail he)
        · exact ih he
      · split at he
        · next hpush =>
          rw [List.mem_singleton.mp he]
          intro hnil
          rw [pushTaskFIFO, Bool.or_eq_true] at hpush
          rcases hpush with hbit | hbit <;> simp [Entry.tasks, hbit] at hnil
        · exact absurd he List.not_mem_nil

/-- What waits goes on waiting as long as nothing is announced. -/
theorem pending_ne_nil_of_silent {k : ℕ} (h : ∀ j < k, Silent pu ins (c + j + 1))
    (hi : i < P.LEVEL) (hp : (run pu ins c).pending i ≠ []) :
    (run pu ins (c + k)).pending i ≠ [] := by
  induction k with
  | zero => exact hp
  | succ k ih =>
    have hstep := pending_step_accepts (x := ins (c + k)) (wf_fifo pu ins (c + k) i)
    have hnone : (((run pu ins (c + k)).step (ins (c + k))).td i).announcement = [] :=
      h k (Nat.lt_succ_self k) i hi
    rw [hnone, List.nil_append] at hstep
    have hnext : (run pu ins (c + (k + 1))).pending i = _ := hstep
    rw [hnext]
    exact List.append_ne_nil_of_left_ne_nil (ih fun j hj => h j (Nat.lt_succ_of_lt hj)) _

/-- A task at the head of a port is announced when the ring is at rest. -/
theorem not_silent_of_head (hs : Still P (shadow pu ins c)) (hi : i < P.LEVEL)
    (hhead : ((run pu ins c).head i).tasks ≠ []) : ¬Silent pu ins (c + 1) := fun hno =>
  exists_grant (ring_shadow pu ins c) hs hi hhead (silent_succ_iff.mp hno)

/-- A FIFO is read when its task head is empty and nothing is announced. -/
theorem head_succ (hno : Silent pu ins (c + 1)) (hi : i < P.LEVEL)
    (hhead : ((run pu ins c).head i).tasks = []) (hp : (run pu ins c).pending i ≠ []) :
    ((run pu ins (c + 1)).head i).tasks ≠ [] := by
  have hf := wf_fifo pu ins c i
  have hne : ((run pu ins c).fifo i).contents P.FIFO_WIDTH ≠ [] := by
    intro hnil
    rw [pending, hhead, hnil] at hp
    exact hp rfl
  have hempty : ((run pu ins c).fifo i).bufEmpty = false := by
    rw [TaskFIFO.bufEmpty, beq_eq_false_iff_ne, ← TaskFIFO.length_contents (B := P.FIFO_WIDTH)]
    exact fun hzero => hne (List.length_eq_zero_iff.mp hzero)
  have hgrant : newNxt P (run pu ins c).td (run pu ins c).view i = ⟨false, false⟩ :=
    silent_succ_iff.mp hno i hi
  have hafter : taskHeadAfter P (run pu ins c).td (run pu ins c).view i =
      (run pu ins c).head i := by
    rw [taskHeadAfter, hgrant]
    rfl
  have hpop : (run pu ins c).popTaskFIFO i = true := by
    rw [popTaskFIFO, TaskDistribute.popTaskFIFO, hafter]
    rw [Entry.tasks] at hhead
    have hbits := List.append_eq_nil_iff.mp hhead
    have hpush : ((run pu ins c).head i).pushBit = false := by simpa using hbits.1
    have hpopBit : ((run pu ins c).head i).popBit = false := by simpa using hbits.2
    rw [hpush, hpopBit, show (run pu ins c).view.empty i = false from hempty]
    rfl
  have hnext : (run pu ins (c + 1)).head i =
      if !(run pu ins c).popTaskFIFO i then
        taskHeadAfter P (run pu ins c).td (run pu ins c).view i
      else ((run pu ins (c + 1)).fifo i).bufOut := rfl
  rw [hpop] at hnext
  have hout := TaskFIFO.bufOut_step hf (pushTaskFIFO (ins c i)) (ins c i) hempty
  rw [← hpop] at hout
  have hmem : (run pu ins (c + 1)).head i ∈ ((run pu ins c).fifo i).contents P.FIFO_WIDTH := by
    rw [hnext, hout]
    exact List.mem_cons_self
  exact tasks_ne_nil_of_mem hmem

/-- **As long as anything waits, something is announced within `LEVEL + 2` cycles**, with either
arbiter, at least two levels, and FIFOs of any power of two from 2 on. -/
theorem progress (pu : PowerUp P) (ins : ℕ → ℕ → Entry P.toWidths) (c : ℕ) (hi : i < P.LEVEL)
    (hp : (run pu ins c).pending i ≠ []) :
    ∃ k ≤ P.LEVEL + 1, ¬Silent pu ins (c + k + 1) := by
  by_contra hnone
  have hsilent : ∀ k < P.LEVEL + 2, Silent pu ins (c + k + 1) := fun k hk =>
    not_not.mp fun hs => hnone ⟨k, Nat.le_of_lt_succ hk, hs⟩
  have hbefore : ∀ k ≤ P.LEVEL + 1, ∀ j < k, Silent pu ins (c + j + 1) :=
    fun k hk j hj => hsilent j (by omega)
  have hwait := pending_ne_nil_of_silent (hbefore P.LEVEL (by omega)) hi hp
  by_cases hhead : ((run pu ins (c + P.LEVEL)).head i).tasks = []
  · -- the FIFO is read, and its first word is at the head in the next cycle
    have hnext := head_succ (hsilent P.LEVEL (by omega)) hi hhead hwait
    exact not_silent_of_head (still_of_silent (Nat.le_succ _) (hbefore _ le_rfl)) hi hnext
      (hsilent (P.LEVEL + 1) (by omega))
  · exact not_silent_of_head (still_of_silent le_rfl (hbefore _ (by omega))) hi hhead
      (hsilent P.LEVEL (by omega))

/-- One push in the first cycle. -/
def onePush (c i : ℕ) : Entry smallest.toWidths :=
  if c = 0 ∧ i = 0 then ⟨true, false, 0, 0, ⟨0, 0⟩⟩ else Entry.zero

theorem progress_onePush : ∃ k ≤ 3, ¬Silent (PowerUp.blank smallest) onePush (1 + k + 1) :=
  progress (PowerUp.blank smallest) onePush 1 (i := 0) (by decide) (by decide +kernel)

/-! ## What is left to announce -/

/-- The tasks that wait on the ports. -/
def load (S : PifoSramTop P) : ℕ := ∑ i ∈ Finset.range P.LEVEL, (S.pending i).length

/-- The tasks announced in a cycle. -/
def starts (pu : PowerUp P) (ins : ℕ → ℕ → Entry P.toWidths) (c : ℕ) : ℕ :=
  ∑ i ∈ Finset.range P.LEVEL, (shadow pu ins c i).announcement.length

theorem load_eq_zero_iff {S : PifoSramTop P} :
    S.load = 0 ↔ ∀ i < P.LEVEL, S.pending i = [] := by
  simp [load]

theorem starts_pos (h : ¬Silent pu ins c) : 0 < starts pu ins c := by
  rw [Silent, not_forall] at h
  obtain ⟨i, h⟩ := h
  rw [Classical.not_imp] at h
  calc 0 < (shadow pu ins c i).announcement.length := List.length_pos_of_ne_nil h.2
    _ ≤ starts pu ins c := Finset.single_le_sum (f := fun i =>
        (shadow pu ins c i).announcement.length) (fun _ _ => Nat.zero_le _)
        (Finset.mem_range.mpr h.1)

/-- What is announced no longer waits. -/
theorem load_succ_add (pu : PowerUp P) (ins : ℕ → ℕ → Entry P.toWidths) (c : ℕ) :
    (run pu ins (c + 1)).load + starts pu ins (c + 1) ≤
      (run pu ins c).load + ∑ i ∈ Finset.range P.LEVEL, (ins c i).tasks.length := by
  rw [load, starts, load, ← Finset.sum_add_distrib, ← Finset.sum_add_distrib]
  refine Finset.sum_le_sum fun i _ => ?_
  have hstep := congrArg List.length (pending_step_accepts (x := ins c) (wf_fifo pu ins c i))
  rw [List.length_append, List.length_append] at hstep
  have htasks : ((if (run pu ins c).Accepts (ins c) i then [ins c i] else []).flatMap
      Entry.tasks).length ≤ (ins c i).tasks.length := by
    split <;> simp
  have hsplit : (shadow pu ins (c + 1) i).announcement.length +
      ((run pu ins (c + 1)).pending i).length = _ := hstep
  omega

end PifoSramTop

namespace TaskGenerator

open PifoSramTop

variable {P : GenParams} {pu : PowerUp P.toParams} {xs : ℕ → GenIn P} {c : ℕ}

/-! ## The two-level scheduler runs empty -/

/-- A task that is a pop. -/
def isPop {W : Widths} (y : ℕ × Task W) : Bool := decide (y.2 = .pop)

/-- What is left to announce when there are no more inputs: the tasks that wait, and a pop of
another tree for every pop of the root that waits, is announced or is just being answered. -/
def work (S : PifoSramTop P.toParams) : ℕ :=
  S.load + (S.pending 0).countP isPop + (S.td 0).rpuPopNew.toNat + (S.oIsLevel0Pop 0).toNat

/-- No input. -/
def Quiet (x : GenIn P) : Prop := x.iPush = false ∧ x.iPop = false

/-- The tasks that the inputs of a cycle make in the end: a push is a token and a packet, and a
pop of the root makes one of another tree. -/
def cost (x : GenIn P) : ℕ := 2 * x.iPush.toNat + 2 * x.iPop.toNat

theorem Quiet.cost_eq {x : GenIn P} (hx : Quiet x) : cost x = 0 := by
  rw [cost, hx.1, hx.2]
  rfl

/-- The pops of other trees that the root has yet to make: for every pop of the root that waits,
is announced or is just being answered. -/
def rootPops (S : PifoSramTop P.toParams) : ℕ :=
  (S.pending 0).countP isPop + (S.td 0).rpuPopNew.toNat + (S.oIsLevel0Pop 0).toNat

theorem work_eq (S : PifoSramTop P.toParams) : work S = S.load + rootPops S := by
  rw [work, rootPops, Nat.add_assoc, Nat.add_assoc, Nat.add_assoc]

theorem length_tasks {W : Widths} (e : Entry W) :
    e.tasks.length = e.pushBit.toNat + e.popBit.toNat := by
  rw [Entry.tasks]
  cases e.pushBit <;> cases e.popBit <;> rfl

theorem countP_tasks {W : Widths} (e : Entry W) : e.tasks.countP isPop = e.popBit.toNat := by
  rw [Entry.tasks]
  cases e.pushBit <;> cases e.popBit <;> simp [isPop]

/-- A push goes to port 0 and to the port of its tree. -/
theorem pushBit_le (S : PifoSramTop P.toParams) (x : GenIn P) (i : ℕ) :
    (ports S x i).pushBit.toNat ≤
      (if i = 0 then x.iPush.toNat else 0) + if i = pushRpuId x then x.iPush.toNat else 0 := by
  by_cases h0 : i = 0
  · rw [h0, if_pos rfl]
    exact Nat.le_add_right _ _
  · cases hbit : (ports S x i).pushBit with
    | false => exact Nat.zero_le _
    | true =>
      obtain ⟨hport, hpush⟩ := (ports_pushBit S x h0).mp hbit
      rw [if_neg h0, if_pos hport, hpush]
      rfl

/-- A pop goes to port 0, and another one to the port of the token that the root answers. -/
theorem popBit_le (S : PifoSramTop P.toParams) (x : GenIn P) (i : ℕ) :
    (ports S x i).popBit.toNat ≤
      (if i = 0 then x.iPop.toNat else 0) +
        if i = popRpuId S then (S.oIsLevel0Pop 0).toNat else 0 := by
  by_cases h0 : i = 0
  · rw [h0, if_pos rfl]
    exact Nat.le_add_right _ _
  · cases hbit : (ports S x i).popBit with
    | false => exact Nat.zero_le _
    | true =>
      have hport := (ports_popBit S x h0).mp hbit
      have hroot : S.oIsLevel0Pop 0 = true := by
        rw [← Bool.not_eq_false]
        intro hroot
        rw [popRpuId, popTreeId, hroot] at hport
        exact h0 (hport.trans (Nat.zero_mod _))
      rw [if_neg h0, if_pos hport, hroot]
      rfl

/-- What is presented for one place out of the ports is no more than one of them gets. -/
theorem sum_ite_le (L k m : ℕ) : (∑ i ∈ Finset.range L, if i = k then m else 0) ≤ m := by
  rw [Finset.sum_ite_eq']
  split
  · exact le_rfl
  · exact Nat.zero_le _

theorem sum_pushBit_le (S : PifoSramTop P.toParams) (x : GenIn P) :
    ∑ i ∈ Finset.range P.LEVEL, (ports S x i).pushBit.toNat ≤ 2 * x.iPush.toNat := by
  refine (Finset.sum_le_sum fun i _ => pushBit_le S x i).trans ?_
  rw [Finset.sum_add_distrib, Nat.two_mul]
  exact Nat.add_le_add (sum_ite_le _ _ _) (sum_ite_le _ _ _)

theorem sum_popBit_le (S : PifoSramTop P.toParams) (x : GenIn P) :
    ∑ i ∈ Finset.range P.LEVEL, (ports S x i).popBit.toNat ≤
      x.iPop.toNat + (S.oIsLevel0Pop 0).toNat := by
  refine (Finset.sum_le_sum fun i _ => popBit_le S x i).trans ?_
  rw [Finset.sum_add_distrib]
  exact Nat.add_le_add (sum_ite_le _ _ _) (sum_ite_le _ _ _)

/-- What the ports are presented with: the inputs, and a pop when the root answers. -/
theorem sum_tasks_le (S : PifoSramTop P.toParams) (x : GenIn P) :
    ∑ i ∈ Finset.range P.LEVEL, (ports S x i).tasks.length ≤
      2 * x.iPush.toNat + (x.iPop.toNat + (S.oIsLevel0Pop 0).toNat) := by
  rw [Finset.sum_congr rfl fun i _ => length_tasks (ports S x i), Finset.sum_add_distrib]
  exact Nat.add_le_add (sum_pushBit_le S x) (sum_popBit_le S x)

section Accounts

variable (pu : PowerUp P.toParams) (xs : ℕ → GenIn P) (c : ℕ)

/-- What waits on a port, and what of it is announced. -/
theorem pending_succ (i : ℕ) :
    ∃ new, new.Sublist (ports (run pu xs c) (xs c) i).tasks ∧
      ((run pu xs (c + 1)).td i).announcement ++ (run pu xs (c + 1)).pending i =
        (run pu xs c).pending i ++ new := by
  have hf : ((run pu xs c).fifo i).Wf P.FIFO_WIDTH := by
    rw [run_eq_engine]
    exact wf_fifo pu (engineIns pu xs) c i
  refine ⟨_, ?_, pending_step_accepts (x := ports (run pu xs c) (xs c)) hf⟩
  split
  · rw [List.flatMap_singleton]
  · exact List.nil_sublist _

theorem length_pending_succ (i : ℕ) : ((run pu xs (c + 1)).pending i).length ≤
    ((run pu xs c).pending i).length + (ports (run pu xs c) (xs c) i).pushBit.toNat +
      (ports (run pu xs c) (xs c) i).popBit.toNat := by
  obtain ⟨new, hnew, hstep⟩ := pending_succ pu xs c i
  have hlength := congrArg List.length hstep
  rw [List.length_append, List.length_append] at hlength
  have := hnew.length_le
  rw [length_tasks] at this
  omega

/-- A pop that is announced no longer waits. -/
theorem countP_pending_succ (i : ℕ) :
    ((run pu xs (c + 1)).pending i).countP isPop + ((run pu xs (c + 1)).td i).rpuPopNew.toNat ≤
      ((run pu xs c).pending i).countP isPop +
        (ports (run pu xs c) (xs c) i).popBit.toNat := by
  obtain ⟨new, hnew, hstep⟩ := pending_succ pu xs c i
  have hboth := not_both_new pu (engineIns pu xs) (c + 1) i
  rw [← run_eq_engine] at hboth
  have hann : ((run pu xs (c + 1)).td i).announcement.countP isPop =
      ((run pu xs (c + 1)).td i).rpuPopNew.toNat := by
    cases hpush : ((run pu xs (c + 1)).td i).rpuPushNew <;>
      cases hpop : ((run pu xs (c + 1)).td i).rpuPopNew <;>
        simp_all [Rpu.announcement, isPop]
  have hcount := congrArg (List.countP isPop) hstep
  rw [List.countP_append, List.countP_append, hann] at hcount
  have := hnew.countP_le (p := isPop)
  rw [countP_tasks] at this
  omega

/-- A pop of the root is answered in the cycle after its announcement. -/
theorem oIsLevel0Pop_succ :
    (run pu xs (c + 1)).oIsLevel0Pop 0 = ((run pu xs c).td 0).rpuPopNew := by
  rw [Bool.eq_iff_iff, run_eq_engine, run_eq_engine]
  exact oIsLevel0Pop_iff pu (engineIns pu xs) c P.LEVEL_pos

/-- A pop of the root is done when it is answered. -/
theorem rootPops_succ_add :
    rootPops (run pu xs (c + 1)) + ((run pu xs c).oIsLevel0Pop 0).toNat ≤
      rootPops (run pu xs c) + (xs c).iPop.toNat := by
  have hpops := countP_pending_succ pu xs c 0
  have hport : (ports (run pu xs c) (xs c) 0).popBit = (xs c).iPop := rfl
  rw [hport] at hpops
  rw [rootPops, rootPops, oIsLevel0Pop_succ]
  omega

/-- **The work becomes less with every announcement**, and grows by what the inputs ask for. -/
theorem work_succ_add : work (run pu xs (c + 1)) + starts pu (engineIns pu xs) (c + 1) ≤
    work (run pu xs c) + cost (xs c) := by
  have hload := load_succ_add pu (engineIns pu xs) c
  rw [← run_eq_engine, ← run_eq_engine] at hload
  have hports : ∑ i ∈ Finset.range P.LEVEL, (engineIns pu xs c i).tasks.length ≤ _ :=
    sum_tasks_le (run pu xs c) (xs c)
  have hroot := rootPops_succ_add pu xs c
  rw [work_eq, work_eq, cost]
  omega

end Accounts

variable (pu) in
/-- Without an input the work never grows. -/
theorem work_succ_add_of_quiet (hx : Quiet (xs c)) :
    work (run pu xs (c + 1)) + starts pu (engineIns pu xs) (c + 1) ≤ work (run pu xs c) := by
  have hstep := work_succ_add pu xs c
  rwa [hx.cost_eq, Nat.add_zero] at hstep

theorem work_succ_le (hx : Quiet (xs c)) : work (run pu xs (c + 1)) ≤ work (run pu xs c) :=
  (Nat.le_add_right _ _).trans (work_succ_add_of_quiet pu hx)

/-- Something is announced within `LEVEL + 2` cycles while a task waits. -/
theorem starts_of_load (h : 0 < (run pu xs c).load) :
    ∃ k ≤ P.LEVEL + 1, 0 < starts pu (engineIns pu xs) (c + k + 1) := by
  obtain ⟨i, hi, hp⟩ : ∃ i < P.LEVEL, (run pu xs c).pending i ≠ [] := by
    by_contra hnone
    push Not at hnone
    exact h.ne' (load_eq_zero_iff.mpr hnone)
  rw [run_eq_engine] at hp
  obtain ⟨k, hk, hstart⟩ := progress pu (engineIns pu xs) c hi hp
  exact ⟨k, hk, starts_pos hstart⟩

/-- Nothing is announced when nothing waits. -/
theorem not_popNew_of_load (h : (run pu xs c).load = 0) :
    ((run pu xs (c + 1)).td 0).rpuPopNew = false := by
  have hhead := tasks_taskHead (run pu xs c) (ports (run pu xs c) (xs c)) 0
  have hpending := load_eq_zero_iff.mp h 0 P.LEVEL_pos
  rw [(List.append_eq_nil_iff.mp hpending).1] at hhead
  exact (announcement_eq_nil.mp (List.append_eq_nil_iff.mp hhead.symm).1).2

/-- A pop of the root that nothing waits behind is answered two cycles later. -/
theorem work_eq_zero_of_load (h : ∀ d ≤ 2, (run pu xs (c + d)).load = 0) :
    work (run pu xs (c + 2)) = 0 := by
  have hroot : (run pu xs (c + 1 + 1)).oIsLevel0Pop 0 = false := by
    rw [oIsLevel0Pop_succ]
    exact not_popNew_of_load (h 0 (Nat.zero_le 2))
  have hnew : ((run pu xs (c + 1 + 1)).td 0).rpuPopNew = false :=
    not_popNew_of_load (h 1 one_le_two)
  have hwait := load_eq_zero_iff.mp (h 2 le_rfl) 0 P.LEVEL_pos
  rw [work, h 2 le_rfl, hwait, hroot, hnew]
  rfl

/-- **The scheduler announces something within `LEVEL + 4` cycles**, or has no work left, whatever
its inputs are. -/
theorem served (pu : PowerUp P.toParams) (xs : ℕ → GenIn P) (c : ℕ) : ∃ j < P.LEVEL + 4,
    0 < starts pu (engineIns pu xs) (c + 1 + j) ∨ work (run pu xs (c + 1 + j)) = 0 := by
  by_cases hload : ∃ d ≤ 2, 0 < (run pu xs (c + d)).load
  · obtain ⟨d, hd, hpos⟩ := hload
    obtain ⟨k, hk, hstart⟩ := starts_of_load hpos
    refine ⟨d + k, by omega, .inl ?_⟩
    rw [show c + 1 + (d + k) = c + d + k + 1 by omega]
    exact hstart
  · -- only an answer of the root is left
    push Not at hload
    exact ⟨1, by omega, .inr (work_eq_zero_of_load fun d hd => Nat.le_zero.mp (hload d hd))⟩

/-- **Within `LEVEL + 4` cycles without an input the work becomes less.** -/
theorem work_lt (hquiet : ∀ k, c ≤ k → Quiet (xs k)) (h : 0 < work (run pu xs c)) :
    ∃ j ≤ P.LEVEL + 4, work (run pu xs (c + j)) < work (run pu xs c) := by
  obtain ⟨j, hj, hdone⟩ := served pu xs c
  refine ⟨j + 1, hj, ?_⟩
  have hmono := Runs.never_grows (f := fun m => work (run pu xs m))
    (fun m hm => work_succ_le (hquiet m hm)) le_rfl j
  have hstep := work_succ_add_of_quiet pu (hquiet (c + j) (Nat.le_add_right c j))
  rw [show c + 1 + j = c + j + 1 by omega] at hdone
  rw [← Nat.add_assoc]
  omega

/-- A scheduler with nothing to do stays like that, and its units come to rest. -/
theorem drained_of_work (hquiet : ∀ k, c ≤ k → Quiet (xs k)) (h : work (run pu xs c) = 0) {k : ℕ}
    (hk : c + P.LEVEL + 2 ≤ k) : work (run pu xs k) = 0 ∧ (run pu xs k).Drained := by
  have hzero : ∀ d, work (run pu xs (c + d)) = 0 := fun d =>
    Nat.le_zero.mp (h ▸ Runs.never_grows (f := fun m => work (run pu xs m))
      (fun m hm => work_succ_le (hquiet m hm)) le_rfl d)
  have hsilent : ∀ d, Silent pu (engineIns pu xs) (c + d + 1) := by
    intro d
    by_contra hstart
    have hstep := work_succ_add_of_quiet pu (hquiet (c + d) (Nat.le_add_right c d))
    have hpos := starts_pos hstart
    have := hzero d
    omega
  -- one cycle after the last write-back
  obtain ⟨d, rfl⟩ : ∃ d, k = c + (P.LEVEL + d) + 1 + 1 := ⟨k - (c + P.LEVEL + 2), by omega⟩
  have hstill := still_of_silent (Nat.le_add_right P.LEVEL d) fun j _ => hsilent j
  have hend := hzero (P.LEVEL + d + 1 + 1)
  rw [show c + (P.LEVEL + d + 1 + 1) = c + (P.LEVEL + d) + 1 + 1 by omega] at hend
  refine ⟨hend, ⟨?_, fun i hi => ?_, fun i hi => ?_⟩⟩
  · refine load_eq_zero_iff.mp ?_
    rw [work] at hend
    omega
  · have hnone := announcement_eq_nil.mp (hsilent (P.LEVEL + d + 1) i hi)
    rw [run_eq_engine]
    exact hnone
  · have hidle : (shadow pu (engineIns pu xs) (c + (P.LEVEL + d) + 1) i).rpuState = .idle := by
      obtain ⟨hnoPush, hnoPop⟩ := announcement_eq_nil.mp (hsilent (P.LEVEL + d) i hi)
      have hprev := hstill.quiet (prev_lt hi)
      cases shadow_move pu (engineIns pu xs) (c + (P.LEVEL + d) + 1) hi with
      | idle _ _ _ _ hst => exact hst
      | newPush _ _ hnew => exact absurd (hnew.symm.trans hnoPush) (by simp)
      | newPop _ _ _ hnew => exact absurd (hnew.symm.trans hnoPop) (by simp)
      | inheritPush _ hh => exact absurd hh hprev.noPush
      | inheritPop _ hh => exact absurd hh hprev.noPop
      | writeBack hpop => exact absurd hpop (hstill i hi).2
    have htracks := tracks_run pu (engineIns pu xs) (c + (P.LEVEL + d) + 1 + 1) i hi
    rw [run_eq_engine, htracks.idle hidle]
    rfl

/-! ### How long it takes -/

theorem length_tasks_le {W : Widths} (e : Entry W) : e.tasks.length ≤ 2 := by
  rw [length_tasks]
  exact Nat.add_le_add (Bool.toNat_le _) (Bool.toNat_le _)

theorem countP_tasks_le {W : Widths} (e : Entry W) : e.tasks.countP isPop ≤ 1 := by
  rw [countP_tasks]
  exact Bool.toNat_le _

/-- The most work there can be, with every FIFO full. -/
def maxWork (P : GenParams) : ℕ := P.LEVEL * (2 + 2 * 2 ^ P.FIFO_WIDTH) + (1 + 2 ^ P.FIFO_WIDTH) + 2

/-- A count over the words of a FIFO. -/
theorem sum_contents_le {W : Widths} {B n : ℕ} {f : TaskFIFO W} (hf : f.Wf B) {g : Entry W → ℕ}
    (hg : ∀ e, g e ≤ n) : ((f.contents B).map g).sum ≤ n * 2 ^ B := by
  have hsum := List.sum_le_card_nsmul ((f.contents B).map g) n fun m hm => by
    obtain ⟨e, -, rfl⟩ := List.mem_map.mp hm
    exact hg e
  rw [List.length_map, TaskFIFO.length_contents, nsmul_eq_mul, Nat.cast_id, Nat.mul_comm] at hsum
  exact hsum.trans (Nat.mul_le_mul_left n hf.counter_le)

theorem work_le (pu : PowerUp P.toParams) (xs : ℕ → GenIn P) (c : ℕ) :
    work (run pu xs c) ≤ maxWork P := by
  have hf : ∀ i, ((run pu xs c).fifo i).Wf P.FIFO_WIDTH := by
    rw [run_eq_engine]
    exact wf_fifo pu (engineIns pu xs) c
  have hload : (run pu xs c).load ≤ P.LEVEL * (2 + 2 * 2 ^ P.FIFO_WIDTH) := by
    have hport : ∀ i ∈ Finset.range P.LEVEL,
        ((run pu xs c).pending i).length ≤ 2 + 2 * 2 ^ P.FIFO_WIDTH := fun i _ => by
      rw [pending, List.length_append, List.length_flatMap]
      exact Nat.add_le_add (length_tasks_le _) (sum_contents_le (hf i) length_tasks_le)
    have hsum := Finset.sum_le_card_nsmul _ _ _ hport
    rw [Finset.card_range, nsmul_eq_mul, Nat.cast_id] at hsum
    exact hsum
  have hpops : ((run pu xs c).pending 0).countP isPop ≤ 1 + 2 ^ P.FIFO_WIDTH := by
    rw [pending, List.countP_append, List.countP_flatMap]
    have hsum := sum_contents_le (hf 0) (countP_tasks_le (W := P.toWidths))
    rw [Nat.one_mul] at hsum
    exact Nat.add_le_add (countP_tasks_le _) hsum
  have h1 := Bool.toNat_le ((run pu xs c).td 0).rpuPopNew
  have h2 := Bool.toNat_le ((run pu xs c).oIsLevel0Pop 0)
  rw [work, maxWork]
  omega

variable (pu) in
/-- A fixed number of cycles after the last input there is nothing left to do. -/
theorem drained_within (hquiet : ∀ k, c ≤ k → Quiet (xs k)) {k : ℕ}
    (hk : c + (P.LEVEL + 4) * maxWork P + P.LEVEL + 2 ≤ k) :
    work (run pu xs k) = 0 ∧ (run pu xs k).Drained := by
  have hzero := Runs.drained (f := fun m => work (run pu xs m))
    (fun m hm => work_succ_le (hquiet m hm)) fun m hm hpos =>
      work_lt (fun k hk => hquiet k (hm.trans hk)) hpos
  have hbound := Nat.mul_le_mul_left (P.LEVEL + 4) (work_le pu xs c)
  exact drained_of_work (fun m hm => hquiet m ((Nat.le_add_right c _).trans hm)) hzero (by omega)

/-- **When the inputs stop, the scheduler runs empty.**  However it got where it is, and however
full its FIFOs are: a fixed number of cycles after the last input nothing waits on any port or
is under way in any unit, no pop of the root is left to be answered, and every task a FIFO has
accepted has been announced, those that the pops of the root made included.  A pop that comes to
a full FIFO is not among them. -/
theorem drains (P : GenParams) (pu : PowerUp P.toParams) (xs : ℕ → GenIn P) (c : ℕ)
    (hquiet : ∀ k, c ≤ k → Quiet (xs k)) (k : ℕ)
    (hk : c + (P.LEVEL + 4) * maxWork P + P.LEVEL + 2 ≤ k) :
    work (run pu xs k) = 0 ∧ (run pu xs k).Drained ∧ ∀ i < P.LEVEL,
      announced pu (engineIns pu xs) i (k + 1) =
        (accepted pu (engineIns pu xs) i k).flatMap Entry.tasks := by
  obtain ⟨hend, hdrained⟩ := drained_within pu hquiet hk
  refine ⟨hend, hdrained, fun i hi => ?_⟩
  have hall := announced_append_pending_accepted pu (engineIns pu xs) k i
  rw [← run_eq_engine, hdrained.pending i hi, List.append_nil] at hall
  exact hall

/-- Two packets and two pops in the first seven cycles. -/
theorem drains_twoPops : work (run (PowerUp.blank defaults.toParams) twoPops 700) = 0 ∧
    (run (PowerUp.blank defaults.toParams) twoPops 700).Drained ∧ ∀ i < 4,
      announced (PowerUp.blank defaults.toParams)
          (engineIns (PowerUp.blank defaults.toParams) twoPops) i 701 =
        (accepted (PowerUp.blank defaults.toParams)
          (engineIns (PowerUp.blank defaults.toParams) twoPops) i 700).flatMap Entry.tasks := by
  refine drains defaults (PowerUp.blank defaults.toParams) twoPops 7 (fun k hk => ?_) 700
    (by decide)
  rw [twoPops, if_neg (by omega), if_neg (by omega), if_neg (by omega)]
  exact ⟨rfl, rfl⟩

end TaskGenerator

end VPifo
