import VPifo.Lib.Cyclic
import VPifo.Hardware.TaskFIFO

/-!
# The dispatcher

`TaskDistribute` decides in which cycle the task at the head of a port's FIFO starts.
It keeps a shadow of the ring of RPUs: for every RPU what it will be doing in the
next cycle (`rpu_state`, `rpu_level`), computed without looking at the data.  A task
that is at RPU `i` moves to RPU `i + 1` in every cycle until it has been through
`LEVEL` of them, and a pop stays behind for one more cycle of write-back.

The two versions of the module differ in the grants only.  In `BMW_PIFO_SRAM_vPIFO`
the grants are computed from RPU 0 upwards and RPU `LEVEL-1` gives way to RPU 0; in the
version shared by the other directories they are computed from RPU 1 upwards and
RPU 0 comes last.  The second version also leaves `rpu_pop_inherit` out of
`rpu_level_nxt`.

What both versions guarantee is stated once, in `newNxt_push` and `newNxt_pop`: a push is granted
only to an RPU that would be idle, and a pop only to one that would be idle and whose
predecessor neither gets a task nor has one to hand over.  That is all the rest of
the file uses about the arbiter.  The result is that two tasks never meet
(`tasks_never_collide`) and that a task is where its age says it is.
-/

namespace VPifo

open Cyclic

/-- The registers of `TaskDistribute` that belong to one RPU.  `rpu_push_inherit` and
`i_TaskFIFO_empty_last` are written and never read, the latter because the bit it
selects is cut off by the width of `TaskHead`. -/
@[ext] structure Rpu (W : Widths) where
  rpuPush : Bool
  rpuPop : Bool
  rpuPopInherit : Bool
  rpuState : Fsm
  rpuLevel : ℕ
  taskHeadLast : Entry W
  popTaskFIFOLast : Bool
  rpuPushNew : Bool
  rpuPopNew : Bool
  rpuTreeId : ℕ
  rpuPushData : Val W
  deriving DecidableEq

/-- One RPU after reset. -/
def Rpu.reset {W : Widths} : Rpu W where
  rpuPush := false
  rpuPop := false
  rpuPopInherit := false
  rpuState := .idle
  rpuLevel := 0
  taskHeadLast := Entry.zero
  popTaskFIFOLast := false
  rpuPushNew := false
  rpuPopNew := false
  rpuTreeId := 0
  rpuPushData := Val.zero

/-- What the dispatcher sees of the FIFOs in one cycle. -/
structure FifoView (W : Widths) where
  /-- `i_TaskFIFO_data`. -/
  data : ℕ → Entry W
  /-- `i_TaskFIFO_empty`. -/
  empty : ℕ → Bool

/-- The dispatcher's registers, by RPU. -/
abbrev TaskDistribute (W : Widths) := ℕ → Rpu W

namespace TaskDistribute

variable (P : Params) (s : TaskDistribute P.toWidths) (v : FifoView P.toWidths)

/-! ## Inherited tasks -/

/-- `rpu_push_inherit_nxt`. -/
def pushInheritNxt (i : ℕ) : Bool :=
  (s (prev P.LEVEL i)).rpuPush && decide ((s (prev P.LEVEL i)).rpuLevel < P.LEVEL - 1)

/-- `rpu_pop_inherit_nxt`. -/
def popInheritNxt (i : ℕ) : Bool :=
  (s (prev P.LEVEL i)).rpuPop && decide ((s (prev P.LEVEL i)).rpuLevel < P.LEVEL - 1)

/-- `rpu_level_nxt`.  Only the first version looks at `rpu_pop_inherit`. -/
def levelNxt (i : ℕ) : ℕ :=
  if pushInheritNxt P s i || popInheritNxt P s i ||
      (decide (P.arbiter = .vPIFO) && (s i).rpuPopInherit) then
    ((s (prev P.LEVEL i)).rpuLevel + 1) % 2 ^ P.levelBits
  else 0

/-- The `case` on `{push, pop}` that follows `ST_IDLE`, `ST_PUSH` and `ST_WB`. -/
def nextState (push pop : Bool) : Fsm :=
  match push, pop with
  | false, true => .pop
  | true, false => .push
  | _, _ => .idle

/-- `rpu_state_mid`: the next state, new tasks aside. -/
def stateMid (i : ℕ) : Fsm :=
  match (s i).rpuState with
  | .pop => .wb
  | _ => nextState (pushInheritNxt P s i) (popInheritNxt P s i)

/-- `rpu_ready_nxt`. -/
def readyNxt (i : ℕ) : Bool :=
  decide (stateMid P s i = .idle) ||
    (decide (stateMid P s i ≠ .pop) && decide (levelNxt P s i = P.LEVEL - 1))

/-- `TaskHead`. -/
def taskHead (i : ℕ) : Entry P.toWidths :=
  if !(s i).popTaskFIFOLast then (s i).taskHeadLast else v.data i

/-! ## Grants -/

/-- A pair of grants `rpu_push_new_nxt`, `rpu_pop_new_nxt`. -/
structure Grant where
  push : Bool
  pop : Bool
  deriving DecidableEq

/-- `rpu_push_new_nxt` and `rpu_pop_new_nxt` of one RPU, as far as they are the same
everywhere.  `block` keeps any task out, and `before` is the condition on the RPU
before it that keeps a pop out. -/
def grantAt (i : ℕ) (block before : Bool) : Grant where
  push := if decide (stateMid P s i ≠ .idle) then false
    else if block then false
    else (taskHead P s v i).pushBit
  pop := if decide (stateMid P s i ≠ .idle) then false
    else if block then false
    else if before then false
    else (taskHead P s v i).popBit && !(taskHead P s v i).pushBit

/-- The grants of `BMW_PIFO_SRAM_vPIFO`: RPU 0 asks only whether RPU `LEVEL-1` is ready,
and RPU `LEVEL-1` gives way to a pop of RPU 0. -/
def newNxtV1 : ℕ → Grant
  | 0 => grantAt P s v 0 false (!readyNxt P s (P.LEVEL - 1))
  | i + 1 =>
    let g := newNxtV1 i
    let before := !readyNxt P s i || (g.pop || g.push)
    if i + 1 = P.LEVEL - 1 then
      grantAt P s v (i + 1) (grantAt P s v 0 false (!readyNxt P s (P.LEVEL - 1))).pop before
    else grantAt P s v (i + 1) false before

/-- `rpu_pop_nxt | rpu_push_nxt` of an RPU with grants `g`. -/
def anyNxt (g : Grant) (i : ℕ) : Bool :=
  (g.pop || popInheritNxt P s i) || (g.push || pushInheritNxt P s i)

/-- The grants of RPU `j + 1` in the second version. -/
def chainV2 : ℕ → Grant
  | 0 => grantAt P s v 1 false
      (!readyNxt P s 0 || (popInheritNxt P s 0 || pushInheritNxt P s 0))
  | j + 1 => grantAt P s v (j + 2) false
      (!readyNxt P s (j + 1) || anyNxt P s (chainV2 j) (j + 1))

/-- The grants of the second version: RPU 0 comes last and gives way to a pop of
RPU 1. -/
def newNxtV2 : ℕ → Grant
  | 0 => grantAt P s v 0 (chainV2 P s v 0).pop
      (!readyNxt P s (P.LEVEL - 1) || anyNxt P s (chainV2 P s v (P.LEVEL - 2)) (P.LEVEL - 1))
  | i + 1 => chainV2 P s v i

/-- `rpu_push_new_nxt` and `rpu_pop_new_nxt`. -/
def newNxt (i : ℕ) : Grant :=
  match P.arbiter with
  | .vPIFO => newNxtV1 P s v i
  | .vPIFO2 => newNxtV2 P s v i

/-- `rpu_push_nxt`. -/
def pushNxt (i : ℕ) : Bool := (newNxt P s v i).push || pushInheritNxt P s i

/-- `rpu_pop_nxt`. -/
def popNxt (i : ℕ) : Bool := (newNxt P s v i).pop || popInheritNxt P s i

/-- `TaskHead_after`: the granted bit is flipped. -/
def taskHeadAfter (i : ℕ) : Entry P.toWidths :=
  if (newNxt P s v i).push then
    { taskHead P s v i with pushBit := !(taskHead P s v i).pushBit }
  else if (newNxt P s v i).pop then
    { taskHead P s v i with popBit := !(taskHead P s v i).popBit }
  else taskHead P s v i

/-- `o_pop_TaskFIFO`. -/
def popTaskFIFO (i : ℕ) : Bool :=
  (!(taskHeadAfter P s v i).pushBit && !(taskHeadAfter P s v i).popBit) && !v.empty i

/-- One clock edge. -/
def step : TaskDistribute P.toWidths := fun i =>
  { rpuPush := pushNxt P s v i
    rpuPop := popNxt P s v i
    rpuPopInherit := popInheritNxt P s i
    rpuState :=
      match (s i).rpuState with
      | .pop => .wb
      | _ => nextState (pushNxt P s v i) (popNxt P s v i)
    rpuLevel :=
      match (s i).rpuState with
      | .pop => (s i).rpuLevel
      | _ =>
        match nextState (pushNxt P s v i) (popNxt P s v i) with
        | .idle => 0
        | _ => levelNxt P s i
    taskHeadLast := taskHeadAfter P s v i
    popTaskFIFOLast := popTaskFIFO P s v i
    rpuPushNew := (newNxt P s v i).push
    rpuPopNew := (newNxt P s v i).pop
    rpuTreeId :=
      if (newNxt P s v i).push then (taskHead P s v i).pushTreeId
      else if (newNxt P s v i).pop then (taskHead P s v i).popTreeId
      else 0
    rpuPushData := (taskHead P s v i).pushData }

/-- The dispatcher after reset. -/
def reset {W : Widths} : TaskDistribute W := fun _ => Rpu.reset

/-- A run of the dispatcher against any FIFO outputs. -/
def run (vs : ℕ → FifoView P.toWidths) : ℕ → TaskDistribute P.toWidths
  | 0 => reset
  | c + 1 => step P (run vs c) (vs c)

/-! ## What the arbiter guarantees -/

variable {P s v} {i : ℕ}

theorem grantAt_push {block before : Bool} (h : (grantAt P s v i block before).push = true) :
    stateMid P s i = .idle ∧ block = false ∧ (taskHead P s v i).pushBit = true := by
  simp only [grantAt] at h
  split at h
  · exact absurd h (by simp)
  · next hmid =>
    split at h
    · exact absurd h (by simp)
    · next hblock => exact ⟨by simpa using hmid, by simpa using hblock, h⟩

theorem grantAt_pop {block before : Bool} (h : (grantAt P s v i block before).pop = true) :
    stateMid P s i = .idle ∧ block = false ∧ before = false ∧
      (taskHead P s v i).popBit = true ∧ (taskHead P s v i).pushBit = false := by
  simp only [grantAt] at h
  split at h
  · exact absurd h (by simp)
  · next hmid =>
    split at h
    · exact absurd h (by simp)
    · next hblock =>
      split at h
      · exact absurd h (by simp)
      · next hbefore =>
        rw [Bool.and_eq_true, Bool.not_eq_true'] at h
        exact ⟨by simpa using hmid, by simpa using hblock, by simpa using hbefore, h⟩

theorem grantAt_blocked (before : Bool) : grantAt P s v i true before = ⟨false, false⟩ := by
  simp [grantAt]

/-- A push is granted to an RPU that would be idle. -/
structure PushSpec (P : Params) (s : TaskDistribute P.toWidths) (v : FifoView P.toWidths)
    (i : ℕ) : Prop where
  mid : stateMid P s i = .idle
  head : (taskHead P s v i).pushBit = true

/-- A pop is granted to an RPU that would be idle, and then the RPU before it is ready
and gets nothing new. -/
structure PopSpec (P : Params) (s : TaskDistribute P.toWidths) (v : FifoView P.toWidths)
    (i : ℕ) : Prop where
  mid : stateMid P s i = .idle
  ready : readyNxt P s (prev P.LEVEL i) = true
  before : newNxt P s v (prev P.LEVEL i) = ⟨false, false⟩
  head : (taskHead P s v i).popBit = true
  noPush : (taskHead P s v i).pushBit = false

theorem newNxt_push (h : (newNxt P s v i).push = true) : PushSpec P s v i := by
  have key : ∀ {block before}, (grantAt P s v i block before).push = true → PushSpec P s v i :=
    fun h => ⟨(grantAt_push h).1, (grantAt_push h).2.2⟩
  unfold newNxt at h
  cases harb : P.arbiter with
  | vPIFO =>
    rw [harb] at h
    cases i with
    | zero => exact key h
    | succ i =>
      simp only [newNxtV1] at h
      split at h <;> exact key h
  | vPIFO2 =>
    rw [harb] at h
    rcases i with _ | _ | i <;> exact key h

/-- The second half of `PopSpec`, from the condition `before` of `grantAt`. -/
theorem before_of_or {j : ℕ} {g : Grant} {b : Bool} (hg : newNxt P s v j = g)
    (h : (!readyNxt P s j || b) = false) (hb : b = false → g = ⟨false, false⟩) :
    readyNxt P s j = true ∧ newNxt P s v j = ⟨false, false⟩ := by
  rw [Bool.or_eq_false_iff, Bool.not_eq_false'] at h
  exact ⟨h.1, by rw [hg, hb h.2]⟩

theorem eq_none_of_or {g : Grant} (h : (g.pop || g.push) = false) : g = ⟨false, false⟩ := by
  rw [Bool.or_eq_false_iff] at h
  cases g
  simp_all

theorem eq_none_of_anyNxt {g : Grant} {j : ℕ} (h : anyNxt P s g j = false) :
    g = ⟨false, false⟩ := by
  refine eq_none_of_or ?_
  simp only [anyNxt, Bool.or_eq_false_iff] at h
  rw [h.1.1, h.2.1]
  rfl

theorem newNxt_pop (h : (newNxt P s v i).pop = true) : PopSpec P s v i := by
  have hL := P.two_le_LEVEL
  -- the arbiter's condition on the RPU before `i` is all that differs between the cases
  have key : ∀ {block before}, (grantAt P s v i block before).pop = true →
      (before = false → readyNxt P s (prev P.LEVEL i) = true ∧
        newNxt P s v (prev P.LEVEL i) = ⟨false, false⟩) → PopSpec P s v i := by
    intro block before hpop hbefore
    obtain ⟨hmid, -, hb, hhead, hno⟩ := grantAt_pop hpop
    exact ⟨hmid, (hbefore hb).1, (hbefore hb).2, hhead, hno⟩
  unfold newNxt at h
  cases harb : P.arbiter with
  | vPIFO =>
    have hnew : ∀ j, newNxt P s v j = newNxtV1 P s v j := fun j => by rw [newNxt, harb]
    rw [harb] at h
    cases i with
    | zero =>
      -- RPU `LEVEL-1` sees this very grant and keeps quiet
      refine key h fun hb => ⟨by simpa using hb, ?_⟩
      obtain ⟨k, hk⟩ : ∃ k, P.LEVEL - 1 = k + 1 := ⟨P.LEVEL - 2, by omega⟩
      have hzero : (grantAt P s v 0 false (!readyNxt P s (P.LEVEL - 1))).pop = true := h
      rw [prev_zero, hnew, hk, newNxtV1, if_pos hk.symm, hzero, grantAt_blocked]
    | succ i =>
      simp only [newNxtV1] at h
      have hbefore := fun hb => before_of_or (hnew i) hb eq_none_of_or
      rw [← prev_succ (L := P.LEVEL) i] at hbefore
      split at h
      · exact key h hbefore
      · exact key h hbefore
  | vPIFO2 =>
    have hnew : ∀ j, newNxt P s v j = newNxtV2 P s v j := fun j => by rw [newNxt, harb]
    rw [harb] at h
    rcases i with _ | _ | i
    · refine key h fun hb => ?_
      have hlast : newNxt P s v (P.LEVEL - 1) = chainV2 P s v (P.LEVEL - 2) := by
        rw [hnew, show P.LEVEL - 1 = (P.LEVEL - 2) + 1 by omega, newNxtV2]
      exact before_of_or hlast hb eq_none_of_anyNxt
    · -- RPU 0 sees this very grant and keeps quiet
      refine key h fun hb => ?_
      have hzero : (chainV2 P s v 0).pop = true := h
      have hquiet : newNxt P s v 0 = ⟨false, false⟩ := by
        rw [hnew, newNxtV2, hzero, grantAt_blocked]
      exact before_of_or hquiet hb fun _ => rfl
    · exact key h fun hb => before_of_or (hnew (i + 1)) hb eq_none_of_anyNxt

theorem newNxt_not_both (h : (newNxt P s v i).push = true) : (newNxt P s v i).pop = false := by
  cases hpop : (newNxt P s v i).pop with
  | false => rfl
  | true =>
    have h1 := (newNxt_push h).head
    rw [(newNxt_pop hpop).noPush] at h1
    exact absurd h1 (by simp)

/-! ## The shadow ring -/

/-- RPU `p` hands a push to the RPU after it. -/
def HandsPush (P : Params) (s : TaskDistribute P.toWidths) (p : ℕ) : Prop :=
  (s p).rpuState = .push ∧ (s p).rpuLevel + 1 < P.LEVEL

/-- RPU `p` hands a pop to the RPU after it. -/
def HandsPop (P : Params) (s : TaskDistribute P.toWidths) (p : ℕ) : Prop :=
  (s p).rpuState = .pop ∧ (s p).rpuLevel + 1 < P.LEVEL

/-- RPU `p` hands nothing to the RPU after it. -/
structure Quiet (P : Params) (s : TaskDistribute P.toWidths) (p : ℕ) : Prop where
  noPush : ¬HandsPush P s p
  noPop : ¬HandsPop P s p

/-- The invariant of the shadow ring. -/
structure Ring (P : Params) (s : TaskDistribute P.toWidths) : Prop where
  push_iff : ∀ i < P.LEVEL, (s i).rpuPush = true ↔ (s i).rpuState = .push
  pop_iff : ∀ i < P.LEVEL, (s i).rpuPop = true ↔ (s i).rpuState = .pop
  level_lt : ∀ i < P.LEVEL, (s i).rpuLevel < P.LEVEL
  inherit_pop : ∀ i < P.LEVEL, (s i).rpuPopInherit = true → (s i).rpuState = .pop
  /-- Nothing is on its way to an RPU that pops, since its next cycle is taken. -/
  apart : ∀ i < P.LEVEL, (s i).rpuState = .pop → Quiet P s (prev P.LEVEL i)

theorem ring_reset : Ring P reset where
  push_iff _ _ := by simp [reset, Rpu.reset]
  pop_iff _ _ := by simp [reset, Rpu.reset]
  level_lt _ _ := P.LEVEL_pos
  inherit_pop _ _ h := by simp [reset, Rpu.reset] at h
  apart _ _ h := by simp [reset, Rpu.reset] at h

section Step

variable (h : Ring P s) (hi : i < P.LEVEL)

include h hi

theorem pushInheritNxt_iff : pushInheritNxt P s i = true ↔ HandsPush P s (prev P.LEVEL i) := by
  have hp := h.push_iff _ (prev_lt hi)
  rw [pushInheritNxt, Bool.and_eq_true, decide_eq_true_iff, hp, HandsPush]
  exact and_congr_right fun _ => by omega

theorem popInheritNxt_iff : popInheritNxt P s i = true ↔ HandsPop P s (prev P.LEVEL i) := by
  have hp := h.pop_iff _ (prev_lt hi)
  rw [popInheritNxt, Bool.and_eq_true, decide_eq_true_iff, hp, HandsPop]
  exact and_congr_right fun _ => by omega

theorem quiet_iff : Quiet P s (prev P.LEVEL i) ↔
    pushInheritNxt P s i = false ∧ popInheritNxt P s i = false := by
  rw [← Bool.not_eq_true, ← Bool.not_eq_true, pushInheritNxt_iff h hi, popInheritNxt_iff h hi]
  exact ⟨fun hq => ⟨hq.1, hq.2⟩, fun hq => ⟨hq.1, hq.2⟩⟩

/-- The predecessor hands over one thing at most. -/
theorem not_both_inherit :
    ¬(pushInheritNxt P s i = true ∧ popInheritNxt P s i = true) := by
  rw [pushInheritNxt_iff h hi, popInheritNxt_iff h hi]
  rintro ⟨hpush, hpop⟩
  exact absurd (hpush.1.symm.trans hpop.1) (by simp)

theorem levelNxt_of_handsPush (hp : HandsPush P s (prev P.LEVEL i)) :
    levelNxt P s i = (s (prev P.LEVEL i)).rpuLevel + 1 := by
  rw [levelNxt, (pushInheritNxt_iff h hi).mpr hp]
  exact Nat.mod_eq_of_lt (lt_of_lt_of_le hp.2 P.LEVEL_le_two_pow)

theorem levelNxt_of_handsPop (hp : HandsPop P s (prev P.LEVEL i)) :
    levelNxt P s i = (s (prev P.LEVEL i)).rpuLevel + 1 := by
  rw [levelNxt, (popInheritNxt_iff h hi).mpr hp, Bool.or_true]
  exact Nat.mod_eq_of_lt (lt_of_lt_of_le hp.2 P.LEVEL_le_two_pow)

theorem levelNxt_of_quiet (hq : Quiet P s (prev P.LEVEL i)) (hpop : (s i).rpuState ≠ .pop) :
    levelNxt P s i = 0 := by
  obtain ⟨h1, h2⟩ := (quiet_iff h hi).mp hq
  have hinh : (s i).rpuPopInherit = false := by
    rw [← Bool.not_eq_true]
    exact fun hh => hpop (h.inherit_pop i hi hh)
  rw [levelNxt, h1, h2, hinh]
  simp

/-- An RPU would be idle exactly when it does not pop and nothing is handed to it. -/
theorem stateMid_eq_idle_iff :
    stateMid P s i = .idle ↔ (s i).rpuState ≠ .pop ∧ Quiet P s (prev P.LEVEL i) := by
  have hboth := not_both_inherit h hi
  rw [quiet_iff h hi, stateMid]
  cases hs : (s i).rpuState <;>
    cases hpush : pushInheritNxt P s i <;> cases hpop : popInheritNxt P s i <;>
      simp_all [nextState]

/-- A grant goes to an RPU that does not pop and is handed nothing. -/
theorem free_of_grant (hg : (newNxt P s v i).push = true ∨ (newNxt P s v i).pop = true) :
    (s i).rpuState ≠ .pop ∧ Quiet P s (prev P.LEVEL i) := by
  rw [← stateMid_eq_idle_iff h hi]
  rcases hg with hg | hg
  · exact (newNxt_push hg).mid
  · exact (newNxt_pop hg).mid

end Step

section Collide

variable (h : Ring P s) (hi : i < P.LEVEL)

include h hi

/-- An inherited and a new task are never steered to one RPU. -/
theorem not_inherit_and_new :
    ¬((pushInheritNxt P s i = true ∨ popInheritNxt P s i = true) ∧
      ((newNxt P s v i).push = true ∨ (newNxt P s v i).pop = true)) := by
  rintro ⟨hinh, hnew⟩
  obtain ⟨h1, h2⟩ := (quiet_iff h hi).mp (free_of_grant h hi hnew).2
  rw [h1, h2] at hinh
  exact hinh.elim (by simp) (by simp)

/-- A push and a pop are never steered to one RPU. -/
theorem not_pushNxt_and_popNxt : ¬(pushNxt P s v i = true ∧ popNxt P s v i = true) := by
  have hcross := not_inherit_and_new (v := v) h hi
  simp only [pushNxt, popNxt, Bool.or_eq_true]
  rintro ⟨hpush | hpush, hpop | hpop⟩
  · rw [newNxt_not_both hpush] at hpop
    exact absurd hpop (by simp)
  · exact hcross ⟨.inr hpop, .inl hpush⟩
  · exact hcross ⟨.inl hpush, .inr hpop⟩
  · exact not_both_inherit h hi ⟨hpush, hpop⟩

/-- Nothing is steered to an RPU that pops. -/
theorem nxt_eq_false_of_pop (hpop : (s i).rpuState = .pop) :
    pushNxt P s v i = false ∧ popNxt P s v i = false := by
  obtain ⟨h1, h2⟩ := (quiet_iff h hi).mp (h.apart i hi hpop)
  have hnone : ¬((newNxt P s v i).push = true ∨ (newNxt P s v i).pop = true) :=
    fun hg => (free_of_grant h hi hg).1 hpop
  rw [not_or, Bool.not_eq_true, Bool.not_eq_true] at hnone
  rw [pushNxt, popNxt, h1, h2, hnone.1, hnone.2]
  exact ⟨rfl, rfl⟩

end Collide

/-- What one clock edge can do to RPU `i`. -/
inductive Move (P : Params) (s s' : TaskDistribute P.toWidths) (i : ℕ) : Prop where
  | idle (free : (s i).rpuState ≠ .pop) (quiet : Quiet P s (prev P.LEVEL i))
      (noPush : (s' i).rpuPushNew = false) (noPop : (s' i).rpuPopNew = false)
      (state : (s' i).rpuState = .idle) (level : (s' i).rpuLevel = 0)
  | newPush (free : (s i).rpuState ≠ .pop) (quiet : Quiet P s (prev P.LEVEL i))
      (push : (s' i).rpuPushNew = true) (noPop : (s' i).rpuPopNew = false)
      (state : (s' i).rpuState = .push) (level : (s' i).rpuLevel = 0)
  | newPop (free : (s i).rpuState ≠ .pop) (quiet : Quiet P s (prev P.LEVEL i))
      (noPush : (s' i).rpuPushNew = false) (pop : (s' i).rpuPopNew = true)
      (state : (s' i).rpuState = .pop) (level : (s' i).rpuLevel = 0)
  | inheritPush (free : (s i).rpuState ≠ .pop) (hands : HandsPush P s (prev P.LEVEL i))
      (noPush : (s' i).rpuPushNew = false) (noPop : (s' i).rpuPopNew = false)
      (state : (s' i).rpuState = .push)
      (level : (s' i).rpuLevel = (s (prev P.LEVEL i)).rpuLevel + 1)
  | inheritPop (free : (s i).rpuState ≠ .pop) (hands : HandsPop P s (prev P.LEVEL i))
      (noPush : (s' i).rpuPushNew = false) (noPop : (s' i).rpuPopNew = false)
      (state : (s' i).rpuState = .pop)
      (level : (s' i).rpuLevel = (s (prev P.LEVEL i)).rpuLevel + 1)
  | writeBack (pop : (s i).rpuState = .pop) (quiet : Quiet P s (prev P.LEVEL i))
      (noPush : (s' i).rpuPushNew = false) (noPop : (s' i).rpuPopNew = false)
      (state : (s' i).rpuState = .wb) (level : (s' i).rpuLevel = (s i).rpuLevel)

/-- The next state of an RPU that does not pop. -/
theorem step_of_free (hpop : (s i).rpuState ≠ .pop) :
    (step P s v i).rpuState = nextState (pushNxt P s v i) (popNxt P s v i) ∧
      (step P s v i).rpuLevel =
        if nextState (pushNxt P s v i) (popNxt P s v i) = .idle then 0 else levelNxt P s i := by
  cases hs : (s i).rpuState with
  | pop => exact absurd hs hpop
  | idle | push | wb =>
    refine ⟨by simp [step, hs], ?_⟩
    simp only [step, hs]
    cases nextState (pushNxt P s v i) (popNxt P s v i) <;> simp

/-- **One clock edge, RPU by RPU.** -/
theorem step_move (h : Ring P s) (hi : i < P.LEVEL) : Move P s (step P s v) i := by
  have hgrant := free_of_grant (v := v) h hi
  have hnew : (step P s v i).rpuPushNew = (newNxt P s v i).push ∧
      (step P s v i).rpuPopNew = (newNxt P s v i).pop := ⟨rfl, rfl⟩
  by_cases hpop : (s i).rpuState = .pop
  · -- nothing is granted and nothing arrives
    have hpush' : (newNxt P s v i).push = false := by
      rw [← Bool.not_eq_true]
      exact fun hg => (hgrant (.inl hg)).1 hpop
    have hpop' : (newNxt P s v i).pop = false := by
      rw [← Bool.not_eq_true]
      exact fun hg => (hgrant (.inr hg)).1 hpop
    exact .writeBack hpop (h.apart i hi hpop) hpush' hpop' (by simp [step, hpop])
      (by simp [step, hpop])
  · obtain ⟨hst, hlv⟩ := step_of_free (v := v) hpop
    by_cases hq : Quiet P s (prev P.LEVEL i)
    · obtain ⟨h1, h2⟩ := (quiet_iff h hi).mp hq
      have hzero := levelNxt_of_quiet h hi hq hpop
      rw [pushNxt, popNxt, h1, h2, Bool.or_false, Bool.or_false] at hst hlv
      rw [hzero, ite_self] at hlv
      cases hg1 : (newNxt P s v i).push with
      | true =>
        have hg2 := newNxt_not_both hg1
        rw [hg1, hg2] at hst
        exact .newPush hpop hq hg1 hg2 hst hlv
      | false =>
        cases hg2 : (newNxt P s v i).pop with
        | true =>
          rw [hg1, hg2] at hst
          exact .newPop hpop hq hg1 hg2 hst hlv
        | false =>
          rw [hg1, hg2] at hst
          exact .idle hpop hq hg1 hg2 hst hlv
    · -- something is handed over, so nothing is granted
      have hpush' : (newNxt P s v i).push = false := by
        rw [← Bool.not_eq_true]
        exact fun hg => hq (hgrant (.inl hg)).2
      have hpop' : (newNxt P s v i).pop = false := by
        rw [← Bool.not_eq_true]
        exact fun hg => hq (hgrant (.inr hg)).2
      have hboth := not_both_inherit h hi
      rw [pushNxt, popNxt, hpush', hpop', Bool.false_or, Bool.false_or] at hst hlv
      cases h1 : pushInheritNxt P s i with
      | true =>
        have h2 : popInheritNxt P s i = false := by
          rw [← Bool.not_eq_true]
          exact fun h2 => hboth ⟨h1, h2⟩
        have hhands := (pushInheritNxt_iff h hi).mp h1
        rw [h1, h2] at hst hlv
        rw [levelNxt_of_handsPush h hi hhands] at hlv
        exact .inheritPush hpop hhands hpush' hpop' hst hlv
      | false =>
        cases h2 : popInheritNxt P s i with
        | true =>
          have hhands := (popInheritNxt_iff h hi).mp h2
          rw [h1, h2] at hst hlv
          rw [levelNxt_of_handsPop h hi hhands] at hlv
          exact .inheritPop hpop hhands hpush' hpop' hst hlv
        | false => exact absurd ((quiet_iff h hi).mpr ⟨h1, h2⟩) hq

/-- An RPU that is granted a pop finds nothing on its way in the next cycle. -/
theorem quiet_of_popSpec (h : Ring P s) (hi : i < P.LEVEL) (hpop : PopSpec P s v i) :
    Quiet P (step P s v) (prev P.LEVEL i) := by
  have hp := prev_lt hi
  have hready := hpop.ready
  have hbefore := hpop.before
  have hnone : (step P s v (prev P.LEVEL i)).rpuPushNew = false ∧
      (step P s v (prev P.LEVEL i)).rpuPopNew = false := by
    constructor
    · show (newNxt P s v (prev P.LEVEL i)).push = false
      rw [hbefore]
    · show (newNxt P s v (prev P.LEVEL i)).pop = false
      rw [hbefore]
  have hquiet : ∀ st, (step P s v (prev P.LEVEL i)).rpuState = st → st ≠ .push → st ≠ .pop →
      Quiet P (step P s v) (prev P.LEVEL i) := fun st hst h1 h2 =>
    ⟨fun hh => h1 (hst.symm.trans hh.1), fun hh => h2 (hst.symm.trans hh.1)⟩
  cases step_move (v := v) h hp with
  | idle _ _ _ _ hst => exact hquiet _ hst (by simp) (by simp)
  | newPush _ _ hn => rw [hnone.1] at hn; exact absurd hn (by simp)
  | newPop _ _ _ hn => rw [hnone.2] at hn; exact absurd hn (by simp)
  | writeBack _ _ _ _ hst => exact hquiet _ hst (by simp) (by simp)
  | inheritPush hfree hhands _ _ hst hlv =>
    -- it is ready, so the push is on its last level
    have h1 := (pushInheritNxt_iff h hp).mpr hhands
    have h2 : popInheritNxt P s (prev P.LEVEL i) = false := by
      rw [← Bool.not_eq_true]
      exact fun h2 => not_both_inherit h hp ⟨h1, h2⟩
    have hmid : stateMid P s (prev P.LEVEL i) = .push := by
      rw [stateMid, h1, h2]
      cases hs : (s (prev P.LEVEL i)).rpuState <;> first
        | exact absurd hs hfree
        | rfl
    have hlast : levelNxt P s (prev P.LEVEL i) = P.LEVEL - 1 := by
      simpa [readyNxt, hmid] using hready
    rw [levelNxt_of_handsPush h hp hhands] at hlast
    refine ⟨fun hh => ?_, fun hh => ?_⟩
    · have := hh.2
      rw [hlv] at this
      omega
    · exact absurd (hst.symm.trans hh.1) (by simp)
  | inheritPop hfree hhands _ _ hst hlv =>
    have h2 := (popInheritNxt_iff h hp).mpr hhands
    have h1 : pushInheritNxt P s (prev P.LEVEL i) = false := by
      rw [← Bool.not_eq_true]
      exact fun h1 => not_both_inherit h hp ⟨h1, h2⟩
    have hmid : stateMid P s (prev P.LEVEL i) = .pop := by
      rw [stateMid, h1, h2]
      cases hs : (s (prev P.LEVEL i)).rpuState <;> first
        | exact absurd hs hfree
        | rfl
    exact absurd hready (by simp [readyNxt, hmid])

/-- **The ring invariant is kept by every clock edge.** -/
theorem Ring.step (h : Ring P s) : Ring P (step P s v) where
  push_iff i hi := by
    show pushNxt P s v i = true ↔ _
    by_cases hpop : (s i).rpuState = .pop
    · rw [(nxt_eq_false_of_pop h hi hpop).1]
      simp [TaskDistribute.step, hpop]
    · have hboth := not_pushNxt_and_popNxt (v := v) h hi
      rw [(step_of_free hpop).1]
      cases h1 : pushNxt P s v i <;> cases h2 : popNxt P s v i <;> simp_all [nextState]
  pop_iff i hi := by
    show popNxt P s v i = true ↔ _
    by_cases hpop : (s i).rpuState = .pop
    · rw [(nxt_eq_false_of_pop h hi hpop).2]
      simp [TaskDistribute.step, hpop]
    · have hboth := not_pushNxt_and_popNxt (v := v) h hi
      rw [(step_of_free hpop).1]
      cases h1 : pushNxt P s v i <;> cases h2 : popNxt P s v i <;> simp_all [nextState]
  level_lt i hi := by
    cases step_move (v := v) h hi with
    | idle _ _ _ _ _ hl => rw [hl]; exact P.LEVEL_pos
    | newPush _ _ _ _ _ hl => rw [hl]; exact P.LEVEL_pos
    | newPop _ _ _ _ _ hl => rw [hl]; exact P.LEVEL_pos
    | inheritPush _ hh _ _ _ hl => rw [hl]; exact hh.2
    | inheritPop _ hh _ _ _ hl => rw [hl]; exact hh.2
    | writeBack _ _ _ _ _ hl => rw [hl]; exact h.level_lt i hi
  inherit_pop i hi hinh := by
    have hhands := (popInheritNxt_iff h hi).mp hinh
    cases step_move (v := v) h hi with
    | inheritPop _ _ _ _ hst => exact hst
    | inheritPush _ hh => exact absurd (hh.1.symm.trans hhands.1) (by simp)
    | idle _ hq | newPush _ hq | newPop _ hq | writeBack _ hq => exact absurd hhands hq.noPop
  apart i hi hpop := by
    cases step_move (v := v) h hi with
    | newPop _ _ _ hg => exact quiet_of_popSpec h hi (newNxt_pop hg)
    | inheritPop _ hh =>
      -- the RPU the pop comes from is writing back
      have hwb : (TaskDistribute.step P s v (prev P.LEVEL i)).rpuState = .wb := by
        simp [TaskDistribute.step, hh.1]
      exact ⟨fun hh' => absurd (hwb.symm.trans hh'.1) (by simp),
        fun hh' => absurd (hwb.symm.trans hh'.1) (by simp)⟩
    | idle _ _ _ _ hst | newPush _ _ _ _ hst | inheritPush _ _ _ _ hst | writeBack _ _ _ _ hst =>
      exact absurd (hst.symm.trans hpop) (by simp)

theorem ring_run (vs : ℕ → FifoView P.toWidths) (c : ℕ) : Ring P (run P vs c) := by
  induction c with
  | zero => exact ring_reset
  | succ c ih => exact ih.step

theorem run_move (vs : ℕ → FifoView P.toWidths) (c : ℕ) (hi : i < P.LEVEL) :
    Move P (run P vs c) (run P vs (c + 1)) i := step_move (ring_run vs c) hi

/-! ## A task travels around the ring -/

variable {s' : TaskDistribute P.toWidths}

theorem Move.of_handsPush (hm : Move P s s' i) (hp : HandsPush P s (prev P.LEVEL i)) :
    (s' i).rpuState = .push ∧ (s' i).rpuLevel = (s (prev P.LEVEL i)).rpuLevel + 1 := by
  cases hm with
  | inheritPush _ _ _ _ hst hl => exact ⟨hst, hl⟩
  | inheritPop _ hh => exact absurd (hh.1.symm.trans hp.1) (by simp)
  | idle _ hq | newPush _ hq | newPop _ hq | writeBack _ hq => exact absurd hp hq.noPush

theorem Move.of_handsPop (hm : Move P s s' i) (hp : HandsPop P s (prev P.LEVEL i)) :
    (s' i).rpuState = .pop ∧ (s' i).rpuLevel = (s (prev P.LEVEL i)).rpuLevel + 1 := by
  cases hm with
  | inheritPop _ _ _ _ hst hl => exact ⟨hst, hl⟩
  | inheritPush _ hh => exact absurd (hh.1.symm.trans hp.1) (by simp)
  | idle _ hq | newPush _ hq | newPop _ hq | writeBack _ hq => exact absurd hp hq.noPop

theorem Move.of_pop (hm : Move P s s' i) (hp : (s i).rpuState = .pop) :
    (s' i).rpuState = .wb ∧ (s' i).rpuLevel = (s i).rpuLevel := by
  cases hm with
  | writeBack _ _ _ _ hst hl => exact ⟨hst, hl⟩
  | idle hf | newPush hf | newPop hf | inheritPush hf | inheritPop hf => exact absurd hp hf

theorem Move.of_pushNew (hm : Move P s s' i) (hn : (s' i).rpuPushNew = true) :
    (s' i).rpuState = .push ∧ (s' i).rpuLevel = 0 := by
  cases hm with
  | newPush _ _ _ _ hst hl => exact ⟨hst, hl⟩
  | idle _ _ hx | newPop _ _ hx | inheritPush _ _ hx | inheritPop _ _ hx | writeBack _ _ hx =>
    rw [hx] at hn
    exact absurd hn (by simp)

theorem Move.of_popNew (hm : Move P s s' i) (hn : (s' i).rpuPopNew = true) :
    (s' i).rpuState = .pop ∧ (s' i).rpuLevel = 0 := by
  cases hm with
  | newPop _ _ _ _ hst hl => exact ⟨hst, hl⟩
  | idle _ _ _ hx | newPush _ _ _ hx | inheritPush _ _ _ hx | inheritPop _ _ _ hx
  | writeBack _ _ _ hx =>
    rw [hx] at hn
    exact absurd hn (by simp)

theorem Move.popNew_iff (hm : Move P s s' i) :
    (s' i).rpuPopNew = true ↔ (s' i).rpuState = .pop ∧ (s' i).rpuLevel = 0 := by
  refine ⟨hm.of_popNew, fun hp => ?_⟩
  cases hm with
  | newPop _ _ _ hn => exact hn
  | inheritPop _ _ _ _ _ hl => exact absurd (hl.symm.trans hp.2) (Nat.succ_ne_zero _)
  | idle _ _ _ _ hst | newPush _ _ _ _ hst | inheritPush _ _ _ _ hst | writeBack _ _ _ _ hst =>
    exact absurd (hst.symm.trans hp.1) (by simp)

theorem Move.pushNew_iff (hm : Move P s s' i) :
    (s' i).rpuPushNew = true ↔ (s' i).rpuState = .push ∧ (s' i).rpuLevel = 0 := by
  refine ⟨hm.of_pushNew, fun hp => ?_⟩
  cases hm with
  | newPush _ _ hn => exact hn
  | inheritPush _ _ _ _ _ hl => exact absurd (hl.symm.trans hp.2) (Nat.succ_ne_zero _)
  | idle _ _ _ _ hst | newPop _ _ _ _ hst | inheritPop _ _ _ _ hst | writeBack _ _ _ _ hst =>
    exact absurd (hst.symm.trans hp.1) (by simp)

section Travel

variable (vs : ℕ → FifoView P.toWidths) {c : ℕ} (hi : i < P.LEVEL)

include hi

/-- A task that every RPU hands on is `k` places on and on level `k` after `k` cycles. -/
theorem run_travel {st : Fsm}
    (hnext : ∀ c' j, j < P.LEVEL → (run P vs c' (prev P.LEVEL j)).rpuState = st →
      (run P vs c' (prev P.LEVEL j)).rpuLevel + 1 < P.LEVEL →
        (run P vs (c' + 1) j).rpuState = st ∧
        (run P vs (c' + 1) j).rpuLevel = (run P vs c' (prev P.LEVEL j)).rpuLevel + 1)
    (hstart : (run P vs (c + 1) i).rpuState = st ∧ (run P vs (c + 1) i).rpuLevel = 0)
    (k : ℕ) (hk : k < P.LEVEL) :
    (run P vs (c + 1 + k) ((i + k) % P.LEVEL)).rpuState = st ∧
      (run P vs (c + 1 + k) ((i + k) % P.LEVEL)).rpuLevel = k := by
  induction k with
  | zero =>
    simp only [Nat.add_zero, Nat.mod_eq_of_lt hi]
    exact hstart
  | succ k ih =>
    obtain ⟨hst, hlv⟩ := ih (by omega)
    have hprev : prev P.LEVEL ((i + (k + 1)) % P.LEVEL) = (i + k) % P.LEVEL :=
      prev_mod_add_one P.LEVEL_pos (i + k)
    have hmoved := hnext (c + 1 + k) _ (Nat.mod_lt (i + (k + 1)) P.LEVEL_pos)
    rw [hprev, hlv] at hmoved
    exact hmoved hst hk

/-- A push announced in cycle `c` at RPU `i` is `k` places on and on level `k` after
`k` cycles. -/
theorem run_push (hn : (run P vs (c + 1) i).rpuPushNew = true) (k : ℕ) (hk : k < P.LEVEL) :
    (run P vs (c + 1 + k) ((i + k) % P.LEVEL)).rpuState = .push ∧
      (run P vs (c + 1 + k) ((i + k) % P.LEVEL)).rpuLevel = k :=
  run_travel vs hi (fun c' _ hj hst hlv => (run_move vs c' hj).of_handsPush ⟨hst, hlv⟩)
    ((run_move vs c hi).of_pushNew hn) k hk

theorem run_pop (hn : (run P vs (c + 1) i).rpuPopNew = true) (k : ℕ) (hk : k < P.LEVEL) :
    (run P vs (c + 1 + k) ((i + k) % P.LEVEL)).rpuState = .pop ∧
      (run P vs (c + 1 + k) ((i + k) % P.LEVEL)).rpuLevel = k :=
  run_travel vs hi (fun c' _ hj hst hlv => (run_move vs c' hj).of_handsPop ⟨hst, hlv⟩)
    ((run_move vs c hi).of_popNew hn) k hk

/-- The write-back of a pop is one cycle behind it. -/
theorem run_wb (hn : (run P vs (c + 1) i).rpuPopNew = true) (k : ℕ) (hk : k < P.LEVEL) :
    (run P vs (c + 2 + k) ((i + k) % P.LEVEL)).rpuState = .wb ∧
      (run P vs (c + 2 + k) ((i + k) % P.LEVEL)).rpuLevel = k := by
  obtain ⟨hst, hlv⟩ := run_pop vs hi hn k hk
  have hnext := (run_move vs (c + 1 + k) (Nat.mod_lt (i + k) P.LEVEL_pos)).of_pop hst
  rw [hlv, show c + 1 + k + 1 = c + 2 + k by omega] at hnext
  exact hnext

end Travel

/-- **Two tasks never meet.**  In every state of every run, whatever the FIFOs hold: a
push and a pop are never steered to one RPU, neither of the two `2'b11` branches is
taken, an inherited and a new task are never steered to one RPU, and nothing at all is
steered to an RPU in `ST_POP`.  So a task that is granted RPU `i` is at RPU
`(i + k) % LEVEL`, on level `k`, exactly `k` cycles after it appears there, and the
write-back of a pop is one cycle behind it. -/
theorem tasks_never_collide (P : Params) (vs : ℕ → FifoView P.toWidths) :
    (∀ c i, i < P.LEVEL →
      ¬(pushNxt P (run P vs c) (vs c) i = true ∧ popNxt P (run P vs c) (vs c) i = true) ∧
      ¬(pushInheritNxt P (run P vs c) i = true ∧ popInheritNxt P (run P vs c) i = true) ∧
      ¬((pushInheritNxt P (run P vs c) i = true ∨ popInheritNxt P (run P vs c) i = true) ∧
        ((newNxt P (run P vs c) (vs c) i).push = true ∨
          (newNxt P (run P vs c) (vs c) i).pop = true)) ∧
      ((run P vs c i).rpuState = .pop →
        pushInheritNxt P (run P vs c) i = false ∧ popInheritNxt P (run P vs c) i = false ∧
        newNxt P (run P vs c) (vs c) i = ⟨false, false⟩)) ∧
    (∀ c i, i < P.LEVEL → (newNxt P (run P vs c) (vs c) i).push = true → ∀ k < P.LEVEL,
      (run P vs (c + 1 + k) ((i + k) % P.LEVEL)).rpuState = .push ∧
      (run P vs (c + 1 + k) ((i + k) % P.LEVEL)).rpuLevel = k) ∧
    (∀ c i, i < P.LEVEL → (newNxt P (run P vs c) (vs c) i).pop = true → ∀ k < P.LEVEL,
      ((run P vs (c + 1 + k) ((i + k) % P.LEVEL)).rpuState = .pop ∧
        (run P vs (c + 1 + k) ((i + k) % P.LEVEL)).rpuLevel = k) ∧
      ((run P vs (c + 2 + k) ((i + k) % P.LEVEL)).rpuState = .wb ∧
        (run P vs (c + 2 + k) ((i + k) % P.LEVEL)).rpuLevel = k)) := by
  refine ⟨fun c i hi => ?_, fun c i hi hg k hk => run_push vs hi hg k hk,
    fun c i hi hg k hk => ⟨run_pop vs hi hg k hk, run_wb vs hi hg k hk⟩⟩
  have h := ring_run vs c
  refine ⟨not_pushNxt_and_popNxt h hi, not_both_inherit h hi, not_inherit_and_new h hi,
    fun hpop => ?_⟩
  obtain ⟨hpush, hpop'⟩ := nxt_eq_false_of_pop (v := vs c) h hi hpop
  rw [pushNxt, Bool.or_eq_false_iff] at hpush
  rw [popNxt, Bool.or_eq_false_iff] at hpop'
  refine ⟨hpush.2, hpop'.2, eq_none_of_or ?_⟩
  rw [hpush.1, hpop'.1]
  rfl

end TaskDistribute

end VPifo
