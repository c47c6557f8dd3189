import VPifo.Hardware.Pipeline

/-!
# The shadow is the ring

`TaskDistribute` grants by its own copy of the ring, in which every push travels to the
last level, and no unit ever corrects it.  `tracks_run` says that each unit does what
its RPU says.  This file adds what the two differ in, and why the difference does no
harm.

* A unit that is idle although its RPU pushes: the push has met an empty slot some levels
  above, as many cycles ago (`StoppedAbove`).
* A unit that can be told something is never told both a push and a pop
  (`Follows.not_both`).
* A unit in `ST_POP` takes no command, and the only one it can miss is the pop it is
  already carrying out, which the unit in front repeats in its write-back
  (`misses_of_pop`).
-/

namespace VPifo.PifoSramTop

open Cyclic TaskDistribute

variable {P : Params} {pu : PowerUp P} {ins : ℕ → ℕ → Entry P.toWidths} {i c : ℕ}

/-! ## Where a push stops -/

/-- The unit pushes, and the slot it picks is empty, so that nothing goes down. -/
def Stops (S : PifoSramTop P) (i : ℕ) : Prop :=
  (S.pifo i).fsm = .push ∧ (pushNode (S.sram i).rdata (S.pifo i).ipushdLatch).2 = none

/-- The push that should be on level `l` at unit `i` in cycle `c` has stopped `k` levels
above, `k` cycles ago. -/
def StoppedAbove (pu : PowerUp P) (ins : ℕ → ℕ → Entry P.toWidths) (c i l : ℕ) : Prop :=
  ∃ k, 1 ≤ k ∧ k ≤ c ∧ Stops (run pu ins (c - k)) ((prev P.LEVEL)^[k] i) ∧
    ((run pu ins (c - k)).pifo ((prev P.LEVEL)^[k] i)).curLevel + k = l

/-- A push that stopped above the unit in front has stopped above this one. -/
theorem StoppedAbove.next {l : ℕ} (h : StoppedAbove pu ins c (prev P.LEVEL i) l) :
    StoppedAbove pu ins (c + 1) i (l + 1) := by
  obtain ⟨k, hk, hkc, hstop, hl⟩ := h
  refine ⟨k + 1, by omega, by omega, ?_⟩
  rw [Function.iterate_succ_apply, Nat.add_sub_add_right]
  exact ⟨hstop, by omega⟩

/-- A push above the last level that does not go on has found an empty slot. -/
theorem stops_of_pushDn {S : PifoSramTop P} {p : ℕ} (hf : (S.pifo p).fsm = .push)
    (hlv : (S.pifo p).curLevel + 1 < P.LEVEL) (hdn : S.pushDn p = false) : Stops S p := by
  refine ⟨hf, ?_⟩
  rw [PifoSramTop.pushDn, PifoSram.oPush, if_pos (by omega), PifoSram.push, hf] at hdn
  exact Option.isSome_eq_false_iff.mp hdn |> Option.isNone_iff_eq_none.mp

/-- **A push that is missing has stopped above.**  Along the ring: the unit in front
either pushes, and hands the push on or stops it, or its own push has stopped already. -/
theorem push_or_stoppedAbove (c : ℕ) :
    ∀ i < P.LEVEL, (shadow pu ins c i).rpuState = .push →
      ((run pu ins (c + 1)).pifo i).fsm = .push ∨
        StoppedAbove pu ins (c + 1) i (shadow pu ins c i).rpuLevel := by
  induction c with
  | zero =>
    intro i _ hpush
    exact absurd hpush (by simp [shadow, run, reset, TaskDistribute.reset, Rpu.reset])
  | succ c ih =>
    intro i hi hpush
    have hfollow : Follows (run pu ins (c + 1)) (shadow pu ins c) i := follows_run pu ins (c + 1) hi
    have hreg : (run pu ins (c + 2)).pifo i =
        ((run pu ins (c + 1)).pifo i).step ((run pu ins (c + 1)).command i) := rfl
    cases shadow_move pu ins (c + 1) hi with
    | newPush hfree hq hp hnp =>
      left
      rw [hreg, hfollow.step_newPush hfree hq hp hnp]
    | inheritPush hfree hh hnp hnpop _ hl =>
      rw [Nat.add_sub_cancel] at hfree hh hl
      rw [hl]
      rcases ih _ (prev_lt_LEVEL hi) hh.1 with hf | hstop
      · have hlv : ((run pu ins (c + 1)).pifo (prev P.LEVEL i)).curLevel =
            (shadow pu ins c (prev P.LEVEL i)).rpuLevel := by
          rcases hfollow.before.push hh.1 with hr | hr
          · rw [hr] at hf
            exact absurd hf (by simp [PifoSram.Regs.idle])
          · exact hr.2
        rw [hreg, hfollow.step_inheritPush hfree hh hnp hnpop]
        cases hdn : (run pu ins (c + 1)).pushDn (prev P.LEVEL i) with
        | true => exact .inl rfl
        | false =>
          right
          have hlt := hh.2
          rw [← hlv] at hlt
          exact ⟨1, le_rfl, by omega, stops_of_pushDn hf hlt hdn, by rw [← hlv]; rfl⟩
      · exact .inr hstop.next
    | idle _ _ _ _ hst | newPop _ _ _ _ hst | inheritPop _ _ _ _ hst | writeBack _ _ _ _ hst =>
      exact absurd (hst.symm.trans hpush) (by simp)

/-! ## What a unit is told -/

/-- Unit `i` is told a push and a pop in one cycle, `{i_push, i_pop} = 2'b11`. -/
def TwoCommands (S : PifoSramTop P) (i : ℕ) : Prop :=
  (S.command i).iPush = true ∧ (S.command i).iPop = true

theorem command_iPush {S : PifoSramTop P} (h : (S.td i).rpuPushNew = false) :
    (S.command i).iPush = S.pushDn (prev P.LEVEL i) := by
  simp [command, h]

theorem command_iPop {S : PifoSramTop P} (h : (S.td i).rpuPopNew = false) :
    (S.command i).iPop = S.popDn (prev P.LEVEL i) := by
  simp [command, h]

/-- **No unit that can be told something is told both a push and a pop.** -/
theorem Follows.not_both {S : PifoSramTop P} {d : TaskDistribute P.toWidths} (h : Follows S d i)
    (hm : Move P d S.td i) (hfree : (S.pifo i).fsm ≠ .pop) : ¬TwoCommands S i := by
  rintro ⟨hpush, hpop⟩
  cases hm with
  | idle _ hq hn | newPop _ hq hn =>
    rw [command_iPush hn, h.pushDn hq.noPush] at hpush
    exact absurd hpush (by simp)
  | newPush hf hq _ hn =>
    rw [command_iPop hn, h.popDn hf hq.noPop] at hpop
    exact absurd hpop (by simp)
  | inheritPush hf hh _ hn =>
    have hnp : ¬HandsPop P d (prev P.LEVEL i) := fun hp => absurd (hh.1.symm.trans hp.1) (by simp)
    rw [command_iPop hn, h.popDn hf hnp] at hpop
    exact absurd hpop (by simp)
  | inheritPop _ hh hn =>
    have hnp : ¬HandsPush P d (prev P.LEVEL i) := fun hp => absurd (hh.1.symm.trans hp.1) (by simp)
    rw [command_iPush hn, h.pushDn hnp] at hpush
    exact absurd hpush (by simp)
  | writeBack hp => exact absurd (h.self.pop hp).1 hfree

/-- What unit `i` misses while it is in `ST_POP` and takes no command: no push, nothing from
the dispatcher, and at most the pop it is carrying out, repeated by the write-back of the
unit in front. -/
structure MissesOwnPop (S : PifoSramTop P) (i : ℕ) : Prop where
  takesNone : ∀ x, (S.pifo i).step x = { S.pifo i with fsm := .wb }
  readsNone : ∀ x, PifoSram.oRead P (S.pifo i) x = false
  noPush : (S.command i).iPush = false
  noNewPop : (S.td i).rpuPopNew = false
  frontWb : (S.command i).iPop = true → (S.pifo (prev P.LEVEL i)).fsm = .wb
  frontLevel : (S.command i).iPop = true →
    (S.pifo (prev P.LEVEL i)).curLevel + 1 = (S.pifo i).curLevel
  sameTree : (S.command i).iPop = true → (S.command i).iTreeId = (S.pifo i).curTreeId
  sameLevel : (S.command i).iPop = true → (S.command i).iLevel = (S.pifo i).curLevel
  sameNode : (S.command i).iPop = true → (S.command i).iMyAddr = (S.pifo i).myAddr

/-- A pop that was handed on is repeated in the next cycle: the unit in front keeps its
registers and its word. -/
theorem repeats_pop (hi : i < P.LEVEL)
    (hh : HandsPop P (shadow pu ins (c - 1)) (prev P.LEVEL i)) :
    PifoSram.oChildAddr P ((run pu ins (c + 1)).pifo (prev P.LEVEL i))
        ((run pu ins (c + 1)).sram (prev P.LEVEL i)).rdata =
      PifoSram.oChildAddr P ((run pu ins c).pifo (prev P.LEVEL i))
        ((run pu ins c).sram (prev P.LEVEL i)).rdata ∧
    (run pu ins (c + 1)).pifo (prev P.LEVEL i) =
      { (run pu ins c).pifo (prev P.LEVEL i) with fsm := .wb } := by
  have hp := prev_lt_LEVEL hi
  have hf := ((tracks_run pu ins c _ hp).pop hh.1).1
  have hreg : (run pu ins (c + 1)).pifo (prev P.LEVEL i) =
      { (run pu ins c).pifo (prev P.LEVEL i) with fsm := .wb } :=
    (follows_run pu ins c hp).step_writeBack hh.1
  refine ⟨?_, hreg⟩
  rw [rdata_of_pop c _ hf, hreg]
  simp [PifoSram.oChildAddr, hf]

/-- A pop that the unit in front hands over. -/
theorem pifo_of_handsPop (hi : i < P.LEVEL)
    (hh : HandsPop P (shadow pu ins (c - 1)) (prev P.LEVEL i)) :
    (run pu ins (c + 1)).pifo i =
      ⟨.pop, Val.zero,
        PifoSram.oChildAddr P ((run pu ins c).pifo (prev P.LEVEL i))
          ((run pu ins c).sram (prev P.LEVEL i)).rdata,
        PifoSram.oLevel P ((run pu ins c).pifo (prev P.LEVEL i)),
        (run pu ins c).oTreeId (prev P.LEVEL i)⟩ := by
  have hfollow := follows_run pu ins c hi
  cases shadow_move pu ins c hi with
  | inheritPop hfree _ hn hnp => exact hfollow.step_inheritPop hfree hh hn hnp
  | inheritPush _ hh' => exact absurd (hh.1.symm.trans hh'.1) (by simp)
  | idle _ hq | newPush _ hq | newPop _ hq | writeBack _ hq => exact absurd hh hq.noPop

/-- **A unit in `ST_POP` misses nothing.** -/
theorem misses_of_pop (hi : i < P.LEVEL) (hf : ((run pu ins c).pifo i).fsm = .pop) :
    MissesOwnPop (run pu ins c) i := by
  have hfollow := follows_run pu ins c hi
  have hd := hfollow.self.fsm_eq_pop hf
  cases shadow_move pu ins c hi with
  | writeBack _ hq hn hnp =>
    have hn' : ((run pu ins c).td i).rpuPushNew = false := hn
    have hnp' : ((run pu ins c).td i).rpuPopNew = false := hnp
    -- a pop comes from a write-back that has something below it
    have hwb : ((run pu ins c).command i).iPop = true →
        (shadow pu ins (c - 1) (prev P.LEVEL i)).rpuState = .wb ∧
          (shadow pu ins (c - 1) (prev P.LEVEL i)).rpuLevel + 1 < P.LEVEL := by
      intro hpop
      rw [command_iPop hnp'] at hpop
      by_contra hno
      rw [popDn_eq_false hfollow.before hq.noPop hno] at hpop
      exact absurd hpop (by simp)
    -- and that is the pop this unit took over one cycle ago
    have hsame : ((run pu ins c).command i).iPop = true →
        ((run pu ins c).command i).iTreeId = ((run pu ins c).pifo i).curTreeId ∧
          ((run pu ins c).command i).iLevel = ((run pu ins c).pifo i).curLevel ∧
          ((run pu ins c).command i).iMyAddr = ((run pu ins c).pifo i).myAddr := by
      intro hpop
      obtain ⟨hst, hlv⟩ := hwb hpop
      cases c with
      | zero => exact absurd hf (by simp [run, reset, PifoSram.Regs.idle])
      | succ c =>
        rw [Nat.add_sub_cancel] at hst hlv
        obtain ⟨hpst, hpl⟩ := pop_before_wb pu ins c (prev_lt_LEVEL hi) hst
        have hh : HandsPop P (shadow pu ins (c - 1)) (prev P.LEVEL i) := ⟨hpst, by omega⟩
        obtain ⟨haddr, hfront⟩ := repeats_pop hi hh
        have hself := pifo_of_handsPop hi hh
        simp only [command, levelUp, hn', hnp', Bool.or_self, Bool.false_eq_true, if_false]
        rw [haddr, hself, PifoSramTop.oTreeId, hfront]
        exact ⟨rfl, rfl, rfl⟩
    exact {
      takesNone := fun x => by rw [PifoSram.Regs.step, hf]
      readsNone := fun x => by simp [PifoSram.oRead, hf]
      noPush := by rw [command_iPush hn', hfollow.pushDn hq.noPush]
      noNewPop := hnp'
      frontWb := fun hpop => (hfollow.before.wb (hwb hpop).1).1
      frontLevel := fun hpop => by
        obtain ⟨hst, hlv⟩ := hwb hpop
        rw [(hfollow.before.wb hst).2, (hfollow.self.pop hd).2,
          (pop_of_wb pu ins (c - 1) hi hst hlv).2]
      sameTree := fun hpop => (hsame hpop).1
      sameLevel := fun hpop => (hsame hpop).2.1
      sameNode := fun hpop => (hsame hpop).2.2 }
  | idle hfree | newPush hfree | newPop hfree | inheritPush hfree | inheritPop hfree =>
    exact absurd hd hfree

/-! ## The shadow and the ring -/

/-- **The shadow tracks the ring.**  In every run, whatever the FIFOs hold, a unit does in
cycle `c + 1` what its RPU did in cycle `c`; a push may be missing, and then it has stopped
above.  No unit outside `ST_POP` is told both a push and a pop, and a unit in `ST_POP`,
which takes no command, misses nothing but the pop it is carrying out. -/
theorem shadow_tracks_units (pu : PowerUp P) (ins : ℕ → ℕ → Entry P.toWidths) (c : ℕ)
    (hi : i < P.LEVEL) :
    (((run pu ins c).td i).rpuState = .pop ∨ ((run pu ins c).td i).rpuState = .wb →
      ((run pu ins (c + 1)).pifo i).fsm = ((run pu ins c).td i).rpuState ∧
        ((run pu ins (c + 1)).pifo i).curLevel = ((run pu ins c).td i).rpuLevel) ∧
    (((run pu ins c).td i).rpuState = .push →
      (((run pu ins (c + 1)).pifo i).fsm = .push ∧
        ((run pu ins (c + 1)).pifo i).curLevel = ((run pu ins c).td i).rpuLevel) ∨
      (((run pu ins (c + 1)).pifo i).fsm = .idle ∧
        StoppedAbove pu ins (c + 1) i ((run pu ins c).td i).rpuLevel)) ∧
    (((run pu ins c).td i).rpuState = .idle → ((run pu ins (c + 1)).pifo i).fsm = .idle) ∧
    (((run pu ins c).pifo i).fsm ≠ .pop → ¬TwoCommands (run pu ins c) i) ∧
    (((run pu ins c).pifo i).fsm = .pop → MissesOwnPop (run pu ins c) i) := by
  have ht : Tracks ((run pu ins c).td i) ((run pu ins (c + 1)).pifo i) :=
    tracks_run pu ins (c + 1) i hi
  refine ⟨?_, ?_, fun h => by rw [ht.idle h]; rfl,
    (follows_run pu ins c hi).not_both (shadow_move pu ins c hi), misses_of_pop hi⟩
  · rintro (h | h)
    · rw [h]
      exact ht.pop h
    · rw [h]
      exact ht.wb h
  · intro h
    rcases ht.push h with hr | hr
    · refine .inr ⟨by rw [hr]; rfl, ?_⟩
      refine (push_or_stoppedAbove c i hi h).resolve_left ?_
      rw [hr]
      simp [PifoSram.Regs.idle]
    · exact .inl hr

/-- In `shortRun` the first push to tree 0 finds an empty root in cycle 4, so that unit 1
stays idle; and unit 1 is told to pop in cycle 8, in the middle of the first pop. -/
theorem shadow_tracks_units_shortRun :
    ((run (PowerUp.blank threeLevels) shortRun 5).pifo 1).fsm = .idle ∧
      StoppedAbove (PowerUp.blank threeLevels) shortRun 5 1 1 ∧
      ((run (PowerUp.blank threeLevels) shortRun 8).command 1).iPop = true ∧
      MissesOwnPop (run (PowerUp.blank threeLevels) shortRun 8) 1 := by
  have hidle : ((run (PowerUp.blank threeLevels) shortRun 5).pifo 1).fsm = .idle := by
    decide +kernel
  have hpush : ((run (PowerUp.blank threeLevels) shortRun 4).td 1).rpuState = .push := by
    decide +kernel
  have hlevel : ((run (PowerUp.blank threeLevels) shortRun 4).td 1).rpuLevel = 1 := by
    decide +kernel
  obtain ⟨-, hmissing, -⟩ := shadow_tracks_units (PowerUp.blank threeLevels) shortRun 4
    (i := 1) (by decide)
  obtain ⟨-, -, -, -, hmisses⟩ := shadow_tracks_units (PowerUp.blank threeLevels) shortRun 8
    (i := 1) (by decide)
  have hstop := (hmissing hpush).resolve_left fun h => absurd (hidle.symm.trans h.1) (by simp)
  rw [hlevel] at hstop
  exact ⟨hidle, hstop.2, by decide +kernel, hmisses (by decide +kernel)⟩

end VPifo.PifoSramTop
