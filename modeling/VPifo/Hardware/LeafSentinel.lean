import VPifo.Hardware.Control

/-!
# The leaf sentinel

On the last level a pop has nothing to take from below, and `pop_data_dn` is all-ones
there.  `PIFO_SRAM_TOP` tells the last level by `level_wb`, which is `level_up` of one cycle
before; and in that cycle `level_up` is one more than the level of the unit in front, whatever
that unit is doing.

With three levels or more this is right.  With two levels it is right only if the unit in
front is not on level 0: there is just one other unit, and if it is idle while a pop starts,
the root's write-back is taken for a leaf's (`levelWb_eq_last_iff_of`).  The root then gets
all-ones for the value its child has popped, and that value is gone.
-/

namespace VPifo.PifoSramTop

open Cyclic TaskDistribute

variable {P : Params}

/-- The sentinel at unit `i`: a write-back gets it on the last level and only there, and above
the last level it gets what the unit below pops. -/
structure SentinelRight (S : PifoSramTop P) (i : ℕ) : Prop where
  last_iff : (S.pifo i).fsm = .wb →
    (S.levelWb i = P.LEVEL - 1 ↔ (S.pifo i).curLevel = P.LEVEL - 1)
  childPops : (S.pifo i).fsm = .wb → (S.pifo i).curLevel ≠ P.LEVEL - 1 →
    (S.pifo ((i + 1) % P.LEVEL)).fsm = .pop ∧
      (S.pifo ((i + 1) % P.LEVEL)).curLevel = (S.pifo i).curLevel + 1
  fromChild : (S.pifo i).fsm = .wb → (S.pifo i).curLevel ≠ P.LEVEL - 1 →
    S.popDataDn i = S.oPopData ((i + 1) % P.LEVEL)

/-- With two levels, a pop does not start while the other unit shows level 0. -/
def FrontAway (S : PifoSramTop P) (i : ℕ) : Prop :=
  P.LEVEL = 2 → (S.pifo i).fsm = .pop → (S.pifo i).curLevel = 0 →
    (S.pifo (prev P.LEVEL i)).curLevel ≠ 0

variable (pu : PowerUp P) (ins : ℕ → ℕ → Entry P.toWidths)

/-- The unit after a write-back that is not on the last level. -/
theorem child_of_wb {c i : ℕ} (hi : i < P.LEVEL)
    (hwb : ((run pu ins (c + 1)).pifo i).fsm = .wb)
    (hl : ((run pu ins (c + 1)).pifo i).curLevel ≠ P.LEVEL - 1) :
    ((run pu ins (c + 1)).pifo ((i + 1) % P.LEVEL)).fsm = .pop ∧
      ((run pu ins (c + 1)).pifo ((i + 1) % P.LEVEL)).curLevel =
        ((run pu ins (c + 1)).pifo i).curLevel + 1 := by
  have hj : (i + 1) % P.LEVEL < P.LEVEL := Nat.mod_lt _ P.LEVEL_pos
  have hprev : prev P.LEVEL ((i + 1) % P.LEVEL) = i := by
    rw [prev_mod_add_one P.LEVEL_pos, Nat.mod_eq_of_lt hi]
  have ht : Tracks (shadow pu ins c i) ((run pu ins (c + 1)).pifo i) :=
    tracks_run pu ins (c + 1) i hi
  have hd := ht.fsm_eq_wb hwb
  have hlt := (ring_shadow pu ins c).level_lt i hi
  rw [(ht.wb hd).2] at hl ⊢
  have hchild := pop_of_wb pu ins c hj (by rw [hprev]; exact hd) (by rw [hprev]; omega)
  rw [hprev] at hchild
  obtain ⟨hf, hcur⟩ := (tracks_run pu ins (c + 1) _ hj).pop hchild.1
  exact ⟨hf, hcur.trans hchild.2⟩

/-- **One cycle.**  The sentinel is right after a clock edge exactly if no pop started beside
a unit on level 0. -/
theorem sentinelRight_succ_iff {c i : ℕ} (hi : i < P.LEVEL) :
    SentinelRight (run pu ins (c + 1)) i ↔ FrontAway (run pu ins c) i := by
  have ht : Tracks (shadow pu ins c i) ((run pu ins (c + 1)).pifo i) :=
    tracks_run pu ins (c + 1) i hi
  have hbefore : Tracks (shadow pu ins (c - 1) i) ((run pu ins c).pifo i) :=
    tracks_run pu ins c i hi
  constructor
  · intro h htwo hf h0 hfront
    have hpop := hbefore.fsm_eq_pop hf
    have hst := (shadow_move pu ins c hi).of_pop hpop
    obtain ⟨hwb, hcur⟩ := ht.wb hst.1
    rw [hst.2, ← (hbefore.pop hpop).2, h0] at hcur
    have hlast : (run pu ins (c + 1)).levelWb i = P.LEVEL - 1 := by
      rw [levelWb_of_pop pu ins c hi hpop, oLevel_eq_last_iff (.inl hfront)]
      exact ⟨htwo, hfront⟩
    have := (h.last_iff hwb).mp hlast
    omega
  · intro h
    have hiff : ((run pu ins (c + 1)).pifo i).fsm = .wb →
        ((run pu ins (c + 1)).levelWb i = P.LEVEL - 1 ↔
          ((run pu ins (c + 1)).pifo i).curLevel = P.LEVEL - 1) := by
      intro hwb
      have hd := ht.fsm_eq_wb hwb
      obtain ⟨hpop, hl⟩ := pop_before_wb pu ins c hi hd
      obtain ⟨hf, hcur⟩ := hbefore.pop hpop
      rw [(ht.wb hd).2]
      refine levelWb_eq_last_iff_of pu ins c hi hd fun htwo h0 => h htwo hf ?_
      rw [hcur, ← hl, h0]
    refine ⟨hiff, fun hwb hl => child_of_wb pu ins hi hwb hl, fun hwb hl => ?_⟩
    rw [popDataDn, if_neg fun hlast => hl ((hiff hwb).mp hlast)]

/-- **When the sentinel marks the leaves.**  In every run, the sentinel is right in all states
up to cycle `n` exactly if before cycle `n` no pop starts on level 0 of a two-level engine
while the other unit shows level 0.  With three levels there is nothing to ask for. -/
theorem sentinel_right_iff (P : Params) (pu : PowerUp P) (ins : ℕ → ℕ → Entry P.toWidths)
    (n : ℕ) :
    (∀ c ≤ n, ∀ i < P.LEVEL, SentinelRight (run pu ins c) i) ↔
      ∀ c < n, ∀ i < P.LEVEL, FrontAway (run pu ins c) i := by
  constructor
  · intro h c hc i hi
    exact (sentinelRight_succ_iff pu ins hi).mp (h (c + 1) hc i hi)
  · intro h c hc i hi
    cases c with
    | zero =>
      have hidle : ((run pu ins 0).pifo i).fsm ≠ .wb := by simp [run, reset, PifoSram.Regs.idle]
      exact ⟨fun hwb => absurd hwb hidle, fun hwb => absurd hwb hidle,
        fun hwb => absurd hwb hidle⟩
    | succ c => exact (sentinelRight_succ_iff pu ins hi).mpr (h c hc i hi)

/-- The instance of `TC_SRAM_NEW5.sv`, which pushes a tree of two levels full and pops it
empty. -/
def twoLevels : Params where
  PTW := 16
  MTW := 0
  CTW := 16
  order := .two
  arbiter := .vPIFO
  LEVEL := 2
  TREE_NUM := 2
  FIFO_WIDTH := 11
  two_le_LEVEL := Nat.le_refl 2
  two_le_TREE_NUM := Nat.le_refl 2
  one_le_FIFO_WIDTH := Nat.succ_le_succ (Nat.zero_le 10)

/-- A push to tree 0 and a pop of it. -/
def pushAndPop (c i : ℕ) : Entry twoLevels.toWidths :=
  if c = 0 ∧ i = 0 then ⟨true, false, 0, 0, ⟨0, 5⟩⟩
  else if c = 2 ∧ i = 0 then ⟨false, true, 0, 0, ⟨0, 0⟩⟩
  else Entry.zero

/-- In cycle 7 the root is written back as if it were a leaf. -/
theorem sentinel_right_fails :
    ¬∀ c, ∀ i < twoLevels.LEVEL,
      SentinelRight (run (PowerUp.blank twoLevels) pushAndPop c) i := by
  intro h
  have hwb : ((run (PowerUp.blank twoLevels) pushAndPop 7).pifo 0).fsm = .wb := by
    decide +kernel
  have hlast : (run (PowerUp.blank twoLevels) pushAndPop 7).levelWb 0 = twoLevels.LEVEL - 1 := by
    decide +kernel
  have hroot : ((run (PowerUp.blank twoLevels) pushAndPop 7).pifo 0).curLevel ≠
      twoLevels.LEVEL - 1 := by
    decide +kernel
  exact hroot (((h 7 0 twoLevels.LEVEL_pos).last_iff hwb).mp hlast)

end VPifo.PifoSramTop
