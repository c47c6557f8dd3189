import VPifo.Hardware.PifoSramTop

/-!
# The units follow the dispatcher

`TaskDistribute` plans with a shadow of the ring, and the units never report back to
it.  This file proves that the shadow is right: in every run, unit `i` is in the state
the dispatcher recorded for RPU `i` one cycle earlier (`tracks_run`).  The one
difference is a push that finds an empty slot.  The unit below stays idle from there on,
while the dispatcher keeps its place reserved.

Nothing here depends on what the FIFOs hold or on the words in the SRAMs, so the same
facts serve the engine on its own and behind the task generator.

The dispatcher of cycle `c - 1` describes the units of cycle `c`.  For `c = 0` both are
the state after reset, and truncated subtraction says just that.
-/

namespace VPifo.PifoSramTop

open Cyclic TaskDistribute

variable {P : Params} (pu : PowerUp P) (ins : ℕ → ℕ → Entry P.toWidths)

/-- The dispatcher's registers at the beginning of cycle `c`. -/
def shadow (c : ℕ) : TaskDistribute P.toWidths := (run pu ins c).td

/-- Inside the engine the dispatcher runs as it does on its own. -/
theorem shadow_eq_run (c : ℕ) :
    shadow pu ins c = TaskDistribute.run P (fun c => (run pu ins c).view) c := by
  induction c with
  | zero => rfl
  | succ c ih =>
    rw [TaskDistribute.run, ← ih]
    rfl

theorem ring_shadow (c : ℕ) : Ring P (shadow pu ins c) := by
  rw [shadow_eq_run]
  exact ring_run _ c

variable {i : ℕ}

/-- The last move of the shadow ring; before the first cycle everything is idle. -/
theorem shadow_move (c : ℕ) (hi : i < P.LEVEL) :
    Move P (shadow pu ins (c - 1)) (shadow pu ins c) i := by
  cases c with
  | zero =>
    exact .idle (by simp [shadow, run, reset, TaskDistribute.reset, Rpu.reset])
      ⟨fun h => by simpa [shadow, run, reset, TaskDistribute.reset, Rpu.reset] using h.1,
        fun h => by simpa [shadow, run, reset, TaskDistribute.reset, Rpu.reset] using h.1⟩
      rfl rfl rfl rfl
  | succ c => exact step_move (ring_shadow pu ins c) hi

theorem prev_lt_LEVEL (hi : i < P.LEVEL) : prev P.LEVEL i < P.LEVEL := prev_lt hi

/-- Before a write-back there is its pop. -/
theorem pop_before_wb (c : ℕ) (hi : i < P.LEVEL) (hwb : (shadow pu ins c i).rpuState = .wb) :
    (shadow pu ins (c - 1) i).rpuState = .pop ∧
      (shadow pu ins c i).rpuLevel = (shadow pu ins (c - 1) i).rpuLevel := by
  cases shadow_move pu ins c hi with
  | writeBack hpop _ _ _ _ hl => exact ⟨hpop, hl⟩
  | idle _ _ _ _ hst | newPush _ _ _ _ hst | newPop _ _ _ _ hst | inheritPush _ _ _ _ hst
  | inheritPop _ _ _ _ hst => exact absurd (hst.symm.trans hwb) (by simp)

/-- Behind a write-back that is not on the last level there is a pop, one level on. -/
theorem pop_of_wb (c : ℕ) (hi : i < P.LEVEL)
    (hwb : (shadow pu ins c (prev P.LEVEL i)).rpuState = .wb)
    (hlv : (shadow pu ins c (prev P.LEVEL i)).rpuLevel + 1 < P.LEVEL) :
    (shadow pu ins c i).rpuState = .pop ∧
      (shadow pu ins c i).rpuLevel = (shadow pu ins c (prev P.LEVEL i)).rpuLevel + 1 := by
  obtain ⟨hpop, hl⟩ := pop_before_wb pu ins c (prev_lt_LEVEL hi) hwb
  rw [hl] at hlv ⊢
  exact (shadow_move pu ins c hi).of_handsPop ⟨hpop, hlv⟩

/-- In front of a pop that is not on level 0 there is its write-back, one level up. -/
theorem wb_of_pop (c : ℕ) (hi : i < P.LEVEL) (hpop : (shadow pu ins c i).rpuState = .pop)
    (hlv : (shadow pu ins c i).rpuLevel ≠ 0) :
    (shadow pu ins c (prev P.LEVEL i)).rpuState = .wb ∧
      (shadow pu ins c (prev P.LEVEL i)).rpuLevel + 1 = (shadow pu ins c i).rpuLevel := by
  cases shadow_move pu ins c hi with
  | inheritPop _ hh _ _ _ hl =>
    obtain ⟨hst, hlv'⟩ := (shadow_move pu ins c (prev_lt_LEVEL hi)).of_pop hh.1
    exact ⟨hst, by rw [hlv', hl]⟩
  | newPop _ _ _ _ _ hl => exact absurd hl hlv
  | idle _ _ _ _ hst | newPush _ _ _ _ hst | inheritPush _ _ _ _ hst | writeBack _ _ _ _ hst =>
    exact absurd (hst.symm.trans hpop) (by simp)

/-! ## What a unit is told -/

/-- The unit does what the shadow says; a push may have ended early. -/
structure Tracks {W : Widths} (d : Rpu W) (r : PifoSram.Regs W) : Prop where
  idle : d.rpuState = .idle → r = PifoSram.Regs.idle
  push : d.rpuState = .push →
    r = PifoSram.Regs.idle ∨ (r.fsm = .push ∧ r.curLevel = d.rpuLevel)
  pop : d.rpuState = .pop → r.fsm = .pop ∧ r.curLevel = d.rpuLevel
  wb : d.rpuState = .wb → r.fsm = .wb ∧ r.curLevel = d.rpuLevel

section Constructors

variable {W : Widths} {d : Rpu W} {r : PifoSram.Regs W}

theorem Tracks.of_idle (hd : d.rpuState = .idle) (hr : r = PifoSram.Regs.idle) : Tracks d r :=
  ⟨fun _ => hr, fun h => absurd (hd.symm.trans h) (by simp),
    fun h => absurd (hd.symm.trans h) (by simp), fun h => absurd (hd.symm.trans h) (by simp)⟩

theorem Tracks.of_push (hd : d.rpuState = .push)
    (hr : r = PifoSram.Regs.idle ∨ (r.fsm = .push ∧ r.curLevel = d.rpuLevel)) : Tracks d r :=
  ⟨fun h => absurd (hd.symm.trans h) (by simp), fun _ => hr,
    fun h => absurd (hd.symm.trans h) (by simp), fun h => absurd (hd.symm.trans h) (by simp)⟩

theorem Tracks.of_pop (hd : d.rpuState = .pop) (hr : r.fsm = .pop) (hl : r.curLevel = d.rpuLevel) :
    Tracks d r :=
  ⟨fun h => absurd (hd.symm.trans h) (by simp), fun h => absurd (hd.symm.trans h) (by simp),
    fun _ => ⟨hr, hl⟩, fun h => absurd (hd.symm.trans h) (by simp)⟩

theorem Tracks.of_wb (hd : d.rpuState = .wb) (hr : r.fsm = .wb) (hl : r.curLevel = d.rpuLevel) :
    Tracks d r :=
  ⟨fun h => absurd (hd.symm.trans h) (by simp), fun h => absurd (hd.symm.trans h) (by simp),
    fun h => absurd (hd.symm.trans h) (by simp), fun _ => ⟨hr, hl⟩⟩

end Constructors

theorem Tracks.fsm_eq_pop {W : Widths} {d : Rpu W} {r : PifoSram.Regs W} (h : Tracks d r)
    (hr : r.fsm = .pop) : d.rpuState = .pop := by
  cases hd : d.rpuState with
  | idle => rw [h.idle hd] at hr; exact absurd hr (by simp [PifoSram.Regs.idle])
  | push =>
    rcases h.push hd with hp | hp
    · rw [hp] at hr; exact absurd hr (by simp [PifoSram.Regs.idle])
    · exact absurd (hp.1.symm.trans hr) (by simp)
  | pop => rfl
  | wb => exact absurd ((h.wb hd).1.symm.trans hr) (by simp)

theorem Tracks.fsm_eq_wb {W : Widths} {d : Rpu W} {r : PifoSram.Regs W} (h : Tracks d r)
    (hr : r.fsm = .wb) : d.rpuState = .wb := by
  cases hd : d.rpuState with
  | idle => rw [h.idle hd] at hr; exact absurd hr (by simp [PifoSram.Regs.idle])
  | push =>
    rcases h.push hd with hp | hp
    · rw [hp] at hr; exact absurd hr (by simp [PifoSram.Regs.idle])
    · exact absurd (hp.1.symm.trans hr) (by simp)
  | pop => exact absurd ((h.pop hd).1.symm.trans hr) (by simp)
  | wb => rfl

variable {S : PifoSramTop P} {d : TaskDistribute P.toWidths}

/-- A unit sends a push down only when its shadow hands one over. -/
theorem pushDn_eq_false {p : ℕ} (h : Tracks (d p) (S.pifo p)) (hn : ¬HandsPush P d p) :
    S.pushDn p = false := by
  rw [pushDn, PifoSram.oPush]
  split
  · next hlt =>
    rw [PifoSram.push]
    cases hf : (S.pifo p).fsm with
    | push =>
      exfalso
      cases hd : (d p).rpuState with
      | idle => rw [h.idle hd] at hf; exact absurd hf (by simp [PifoSram.Regs.idle])
      | push =>
        rcases h.push hd with hp | hp
        · rw [hp] at hf; exact absurd hf (by simp [PifoSram.Regs.idle])
        · exact hn ⟨hd, by rw [← hp.2]; omega⟩
      | pop => exact absurd ((h.pop hd).1.symm.trans hf) (by simp)
      | wb => exact absurd ((h.wb hd).1.symm.trans hf) (by simp)
    | idle | pop | wb => rfl
  · rfl

/-- A unit sends a pop down only when its shadow hands one over, or in a write-back. -/
theorem popDn_eq_false {p : ℕ} (h : Tracks (d p) (S.pifo p)) (hn : ¬HandsPop P d p)
    (hwb : ¬((d p).rpuState = .wb ∧ (d p).rpuLevel + 1 < P.LEVEL)) : S.popDn p = false := by
  rw [popDn, PifoSram.oPop]
  split
  · next hlt =>
    cases hd : (d p).rpuState with
    | idle => rw [h.idle hd]; rfl
    | push =>
      rcases h.push hd with hp | hp
      · rw [hp]; rfl
      · rw [PifoSram.pop, hp.1]
    | pop => exact absurd ⟨hd, by rw [← (h.pop hd).2]; omega⟩ hn
    | wb => exact absurd ⟨hd, by rw [← (h.wb hd).2]; omega⟩ hwb
  · rfl

theorem popDn_eq_true {p : ℕ} (h : Tracks (d p) (S.pifo p)) (hh : HandsPop P d p) :
    S.popDn p = true := by
  obtain ⟨hf, hl⟩ := h.pop hh.1
  have hlt := hh.2
  rw [← hl] at hlt
  rw [popDn, PifoSram.oPop, if_pos (by omega), PifoSram.pop, hf]

/-! ## What a unit does next -/

theorem step_eq_accept {r : PifoSram.Regs P.toWidths} (x : PifoSram.Command P.toWidths)
    (h : r.fsm ≠ .pop) : r.step x = PifoSram.Regs.accept x := by
  rw [PifoSram.Regs.step]
  cases hr : r.fsm with
  | pop => exact absurd hr h
  | idle | push | wb => rfl

/-- `d` is the shadow of the units of `S` around unit `i`. -/
structure Follows (S : PifoSramTop P) (d : TaskDistribute P.toWidths) (i : ℕ) : Prop where
  self : Tracks (d i) (S.pifo i)
  before : Tracks (d (prev P.LEVEL i)) (S.pifo (prev P.LEVEL i))
  /-- A residual pop from a write-back only meets a unit that pops. -/
  residual : (d i).rpuState ≠ .pop → ¬((d (prev P.LEVEL i)).rpuState = .wb ∧
    (d (prev P.LEVEL i)).rpuLevel + 1 < P.LEVEL)

section Step

variable (h : Follows S d i)

include h

theorem Follows.accept (hfree : (d i).rpuState ≠ .pop) :
    (S.pifo i).step (S.command i) = PifoSram.Regs.accept (S.command i) :=
  step_eq_accept _ fun hf => hfree (h.self.fsm_eq_pop hf)

theorem Follows.pushDn (hq : ¬HandsPush P d (prev P.LEVEL i)) :
    S.pushDn (prev P.LEVEL i) = false := pushDn_eq_false h.before hq

theorem Follows.popDn (hfree : (d i).rpuState ≠ .pop) (hq : ¬HandsPop P d (prev P.LEVEL i)) :
    S.popDn (prev P.LEVEL i) = false := popDn_eq_false h.before hq (h.residual hfree)

theorem Follows.step_idle (hfree : (d i).rpuState ≠ .pop) (hq : Quiet P d (prev P.LEVEL i))
    (hpush : (S.td i).rpuPushNew = false) (hpop : (S.td i).rpuPopNew = false) :
    (S.pifo i).step (S.command i) = PifoSram.Regs.idle := by
  rw [h.accept hfree, PifoSram.Regs.accept]
  simp only [command, hpush, hpop, h.pushDn hq.noPush, h.popDn hfree hq.noPop]
  rfl

theorem Follows.step_newPush (hfree : (d i).rpuState ≠ .pop) (hq : Quiet P d (prev P.LEVEL i))
    (hpush : (S.td i).rpuPushNew = true) (hpop : (S.td i).rpuPopNew = false) :
    (S.pifo i).step (S.command i) =
      ⟨.push, (S.td i).rpuPushData, 0, 0, (S.td i).rpuTreeId⟩ := by
  rw [h.accept hfree, PifoSram.Regs.accept]
  simp only [command, levelUp, hpush, hpop, h.popDn hfree hq.noPop]
  rfl

theorem Follows.step_newPop (hfree : (d i).rpuState ≠ .pop) (hq : Quiet P d (prev P.LEVEL i))
    (hpush : (S.td i).rpuPushNew = false) (hpop : (S.td i).rpuPopNew = true) :
    (S.pifo i).step (S.command i) = ⟨.pop, Val.zero, 0, 0, (S.td i).rpuTreeId⟩ := by
  rw [h.accept hfree, PifoSram.Regs.accept]
  simp only [command, levelUp, hpush, hpop, h.pushDn hq.noPush]
  rfl

/-- The unit in front hands a push on, unless it has found an empty slot for it. -/
theorem Follows.step_inheritPush (hfree : (d i).rpuState ≠ .pop)
    (hh : HandsPush P d (prev P.LEVEL i))
    (hpush : (S.td i).rpuPushNew = false) (hpop : (S.td i).rpuPopNew = false) :
    (S.pifo i).step (S.command i) =
      if S.pushDn (prev P.LEVEL i) then
        ⟨.push, PifoSram.pushData P (S.pifo (prev P.LEVEL i)) (S.sram (prev P.LEVEL i)).rdata,
          PifoSram.oChildAddr P (S.pifo (prev P.LEVEL i)) (S.sram (prev P.LEVEL i)).rdata,
          PifoSram.oLevel P (S.pifo (prev P.LEVEL i)), S.oTreeId (prev P.LEVEL i)⟩
      else PifoSram.Regs.idle := by
  have hnp : ¬HandsPop P d (prev P.LEVEL i) := fun hp => absurd (hh.1.symm.trans hp.1) (by simp)
  rw [h.accept hfree, PifoSram.Regs.accept]
  simp only [command, levelUp, hpush, hpop, h.popDn hfree hnp]
  cases S.pushDn (prev P.LEVEL i) <;> rfl

theorem Follows.step_inheritPop (hfree : (d i).rpuState ≠ .pop)
    (hh : HandsPop P d (prev P.LEVEL i))
    (hpush : (S.td i).rpuPushNew = false) (hpop : (S.td i).rpuPopNew = false) :
    (S.pifo i).step (S.command i) =
      ⟨.pop, Val.zero,
        PifoSram.oChildAddr P (S.pifo (prev P.LEVEL i)) (S.sram (prev P.LEVEL i)).rdata,
        PifoSram.oLevel P (S.pifo (prev P.LEVEL i)), S.oTreeId (prev P.LEVEL i)⟩ := by
  have hnp : ¬HandsPush P d (prev P.LEVEL i) := fun hp => absurd (hh.1.symm.trans hp.1) (by simp)
  rw [h.accept hfree, PifoSram.Regs.accept]
  simp only [command, levelUp, hpush, hpop, h.pushDn hnp, popDn_eq_true h.before hh]
  rfl

theorem Follows.step_writeBack (hpop : (d i).rpuState = .pop) :
    (S.pifo i).step (S.command i) = { S.pifo i with fsm := .wb } := by
  rw [PifoSram.Regs.step, (h.self.pop hpop).1]

end Step

/-- The level sent down fits its register. -/
theorem oLevel_eq {r : PifoSram.Regs P.toWidths} (h : r.curLevel + 1 < P.LEVEL) :
    PifoSram.oLevel P r = r.curLevel + 1 :=
  Nat.mod_eq_of_lt (lt_of_lt_of_le h P.LEVEL_le_two_pow)

/-- A unit keeps following the shadow. -/
theorem Follows.tracks (h : Follows S d i) (hm : Move P d S.td i) :
    Tracks (S.td i) ((S.pifo i).step (S.command i)) := by
  cases hm with
  | idle hfree hq hpush hpop hst _ => exact .of_idle hst (h.step_idle hfree hq hpush hpop)
  | newPush hfree hq hpush hpop hst hl =>
    rw [h.step_newPush hfree hq hpush hpop]
    exact .of_push hst (.inr ⟨rfl, hl.symm⟩)
  | newPop hfree hq hpush hpop hst hl =>
    rw [h.step_newPop hfree hq hpush hpop]
    exact .of_pop hst rfl hl.symm
  | inheritPush hfree hh hpush hpop hst hl =>
    rw [h.step_inheritPush hfree hh hpush hpop]
    refine .of_push hst ?_
    rcases h.before.push hh.1 with hp | hp
    · -- the push has ended above, so nothing comes down
      have hdn : S.pushDn (prev P.LEVEL i) = false := by
        rw [PifoSramTop.pushDn, hp, PifoSram.oPush]
        simp [PifoSram.push, PifoSram.Regs.idle]
      exact .inl (by rw [hdn]; rfl)
    · cases S.pushDn (prev P.LEVEL i) with
      | false => exact .inl rfl
      | true =>
        have hlv := oLevel_eq (r := S.pifo (prev P.LEVEL i)) (by rw [hp.2]; exact hh.2)
        exact .inr ⟨rfl, by rw [if_pos rfl, hl, ← hp.2, hlv]⟩
  | inheritPop hfree hh hpush hpop hst hl =>
    rw [h.step_inheritPop hfree hh hpush hpop]
    obtain ⟨-, hlp⟩ := h.before.pop hh.1
    have hlv := oLevel_eq (r := S.pifo (prev P.LEVEL i)) (by rw [hlp]; exact hh.2)
    exact .of_pop hst rfl (by rw [hl, ← hlp, ← hlv])
  | writeBack hpop _ _ _ hst hl =>
    rw [h.step_writeBack hpop]
    exact .of_wb hst rfl (by rw [hl]; exact (h.self.pop hpop).2)

theorem follows_of_tracks {c : ℕ} (hi : i < P.LEVEL)
    (h : ∀ j < P.LEVEL, Tracks (shadow pu ins (c - 1) j) ((run pu ins c).pifo j)) :
    Follows (run pu ins c) (shadow pu ins (c - 1)) i where
  self := h i hi
  before := h _ (prev_lt_LEVEL hi)
  residual hfree hwb := hfree (pop_of_wb pu ins (c - 1) hi hwb.1 hwb.2).1

/-- **The units follow the dispatcher, one cycle behind.** -/
theorem tracks_run (c : ℕ) :
    ∀ i < P.LEVEL, Tracks (shadow pu ins (c - 1) i) ((run pu ins c).pifo i) := by
  induction c with
  | zero =>
    intro i _
    exact .of_idle rfl rfl
  | succ c ih =>
    intro i hi
    exact (follows_of_tracks pu ins hi ih).tracks (shadow_move pu ins c hi)

theorem follows_run (c : ℕ) (hi : i < P.LEVEL) :
    Follows (run pu ins c) (shadow pu ins (c - 1)) i :=
  follows_of_tracks pu ins hi (tracks_run pu ins c)

/-! ## Two consequences -/

theorem oIsLevel0Pop_eq_true (S : PifoSramTop P) (i : ℕ) :
    S.oIsLevel0Pop i = true ↔ (S.pifo i).curLevel = 0 ∧ (S.pifo i).fsm = .pop := by
  rw [oIsLevel0Pop, PifoSram.oIsLevel0Pop, Bool.and_eq_true, decide_eq_true_iff,
    decide_eq_true_iff]

/-- **A level-0 pop is a pop the dispatcher announced one cycle before.** -/
theorem oIsLevel0Pop_iff (c : ℕ) (hi : i < P.LEVEL) :
    (run pu ins (c + 1)).oIsLevel0Pop i = true ↔ (shadow pu ins c i).rpuPopNew = true := by
  have ht : Tracks (shadow pu ins c i) ((run pu ins (c + 1)).pifo i) :=
    tracks_run pu ins (c + 1) i hi
  rw [(shadow_move pu ins c hi).popNew_iff, oIsLevel0Pop_eq_true]
  constructor
  · rintro ⟨hl, hf⟩
    have hd := ht.fsm_eq_pop hf
    exact ⟨hd, by rw [← (ht.pop hd).2, hl]⟩
  · rintro ⟨hd, hl⟩
    obtain ⟨hf, hl'⟩ := ht.pop hd
    exact ⟨by rw [hl', hl], hf⟩

/-- In the cycle after a pop the unit keeps its word. -/
theorem rdata_of_pop {pu : PowerUp P} {ins : ℕ → ℕ → Entry P.toWidths} (c i : ℕ)
    (h : ((run pu ins c).pifo i).fsm = .pop) :
    ((run pu ins (c + 1)).sram i).rdata = ((run pu ins c).sram i).rdata := by
  show ((run pu ins c).sramNxt i).rdata = _
  simp [sramNxt, Sram.step, PifoSram.oRead, h]

/-! ## The level of a write-back -/

/-- `level_wb` of a write-back is what the unit in front sent down in the cycle of the
pop. -/
theorem levelWb_of_pop (c : ℕ) (hi : i < P.LEVEL)
    (hpop : (shadow pu ins (c - 1) i).rpuState = .pop) :
    (run pu ins (c + 1)).levelWb i =
      PifoSram.oLevel P ((run pu ins c).pifo (prev P.LEVEL i)) := by
  cases shadow_move pu ins c hi with
  | writeBack _ _ hpush hnpop =>
    show (run pu ins c).levelUp i = _
    rw [levelUp, show ((run pu ins c).td i).rpuPushNew = false from hpush,
      show ((run pu ins c).td i).rpuPopNew = false from hnpop]
    rfl
  | idle hf | newPush hf | newPop hf | inheritPush hf | inheritPop hf => exact absurd hpop hf

/-- Below level 0 the unit in front is the same pop's write-back, one level up. -/
theorem levelWb_of_pop_ne_zero (c : ℕ) (hi : i < P.LEVEL)
    (hpop : (shadow pu ins (c - 1) i).rpuState = .pop)
    (h0 : (shadow pu ins (c - 1) i).rpuLevel ≠ 0) :
    (run pu ins (c + 1)).levelWb i = (shadow pu ins (c - 1) i).rpuLevel := by
  obtain ⟨hd, hlv⟩ := wb_of_pop pu ins (c - 1) hi hpop h0
  have hcur := ((tracks_run pu ins c _ (prev_lt_LEVEL hi)).wb hd).2
  have hlt := (ring_shadow pu ins (c - 1)).level_lt i hi
  rw [levelWb_of_pop pu ins c hi hpop, oLevel_eq (by rw [hcur, hlv]; exact hlt), hcur, hlv]

/-- In front of a pop on level 0 there is a unit that is idle or at the end of another
task. -/
theorem curLevel_before_pop (c : ℕ) (hi : i < P.LEVEL)
    (hpop : (shadow pu ins (c - 1) i).rpuState = .pop)
    (h0 : (shadow pu ins (c - 1) i).rpuLevel = 0) :
    ((run pu ins c).pifo (prev P.LEVEL i)).curLevel = 0 ∨
      ((run pu ins c).pifo (prev P.LEVEL i)).curLevel = P.LEVEL - 1 := by
  have hp := prev_lt_LEVEL hi
  have ht : Tracks (shadow pu ins (c - 1) (prev P.LEVEL i))
      ((run pu ins c).pifo (prev P.LEVEL i)) := tracks_run pu ins c _ hp
  have hlt := (ring_shadow pu ins (c - 1)).level_lt _ hp
  cases shadow_move pu ins c hi with
  | writeBack _ hq =>
    cases hd : (shadow pu ins (c - 1) (prev P.LEVEL i)).rpuState with
    | idle => rw [ht.idle hd]; exact .inl rfl
    | push =>
      rcases ht.push hd with hr | hr
      · rw [hr]; exact .inl rfl
      · have := hq.noPush
        rw [HandsPush, not_and] at this
        have := this hd
        exact .inr (by omega)
    | pop =>
      have := hq.noPop
      rw [HandsPop, not_and] at this
      have := this hd
      exact .inr (by rw [(ht.pop hd).2]; omega)
    | wb =>
      refine .inr ?_
      rw [(ht.wb hd).2]
      by_contra hnl
      have := (pop_of_wb pu ins (c - 1) hi hd (by omega)).2
      omega
  | idle hf | newPush hf | newPop hf | inheritPush hf | inheritPop hf => exact absurd hpop hf

/-- The level a unit sends down from level 0 is 1, and from the last level it is not the
last one. -/
theorem oLevel_eq_last_iff {r : PifoSram.Regs P.toWidths}
    (h : r.curLevel = 0 ∨ r.curLevel = P.LEVEL - 1) :
    PifoSram.oLevel P r = P.LEVEL - 1 ↔ P.LEVEL = 2 ∧ r.curLevel = 0 := by
  have h2 := P.two_le_LEVEL
  have hpow := P.LEVEL_le_two_pow
  rw [PifoSram.oLevel]
  rcases h with h | h
  · rw [h, Nat.mod_eq_of_lt (by omega)]
    omega
  · rw [h, Nat.sub_add_cancel (by omega)]
    rcases Nat.eq_or_lt_of_le hpow with heq | hlt
    · rw [← heq, Nat.mod_self]
      omega
    · rw [Nat.mod_eq_of_lt hlt]
      omega

/-- **`level_wb` and the last level.**  It is `level_up` of the cycle before, and what the
unit in front sends down in that cycle is one more than its own level.  For a pop on
level 0 that unit is idle or at the end of another task, and only the level after an idle
unit can be taken for the last one, which is where there are no more than two. -/
theorem levelWb_eq_last_iff_of (c : ℕ) (hi : i < P.LEVEL)
    (hwb : (shadow pu ins c i).rpuState = .wb)
    (hclear : P.LEVEL = 2 → (shadow pu ins c i).rpuLevel = 0 →
      ((run pu ins c).pifo (prev P.LEVEL i)).curLevel ≠ 0) :
    (run pu ins (c + 1)).levelWb i = P.LEVEL - 1 ↔
      (shadow pu ins c i).rpuLevel = P.LEVEL - 1 := by
  have h2 := P.two_le_LEVEL
  obtain ⟨hpop, hl⟩ := pop_before_wb pu ins c hi hwb
  rw [hl] at hclear ⊢
  by_cases h0 : (shadow pu ins (c - 1) i).rpuLevel = 0
  · rw [levelWb_of_pop pu ins c hi hpop,
      oLevel_eq_last_iff (curLevel_before_pop pu ins c hi hpop h0)]
    constructor
    · rintro ⟨htwo, hcur⟩
      exact absurd hcur (hclear htwo h0)
    · omega
  · rw [levelWb_of_pop_ne_zero pu ins c hi hpop h0]

/-- **`level_wb` recognises the last level** of at least three. -/
theorem levelWb_eq_last_iff (h3 : 3 ≤ P.LEVEL) (c : ℕ) (hi : i < P.LEVEL)
    (hwb : (shadow pu ins c i).rpuState = .wb) :
    (run pu ins (c + 1)).levelWb i = P.LEVEL - 1 ↔
      (shadow pu ins c i).rpuLevel = P.LEVEL - 1 :=
  levelWb_eq_last_iff_of pu ins c hi hwb fun h2 => absurd h2 (by omega)

end VPifo.PifoSramTop
