import VPifo.Hardware.EmptyRoot

/-!
# A tree answers what it was given

The trees share the units, the wires and the SRAMs, and a unit that pops writes its word twice:
in the first cycle with whatever the next unit shows, which may be the packet of another tree, and
in the second one, the write-back, with the replacement.  None of this leaks.  Whatever the FIFOs
drop, in whatever order the tasks come, and however full the trees are, a pop of tree `t` answers
with a value that has been presented for tree `t`, or with all ones (`oPopData_givenTo`).

The invariant is `Keeps`.  A word that is about to be written back is left out of it, since
nothing reads it before; a unit that works on the tree has read a word that is not.
-/

namespace VPifo

open Cyclic TaskDistribute PifoSram

section Rule

variable {o : Order} {W : Widths} {Q : Val W → Prop} {w : Node o W} {v x : Val W}

/-- Every value of a word has a property. -/
def AllVals (Q : Val W → Prop) (w : Node o W) : Prop := ∀ k, Q (w k).pifoVal

theorem AllVals.initValue (h : Q Val.ones) : AllVals Q (VPifo.initValue o W) := fun _ => h

theorem AllVals.update (hw : AllVals Q w) {s : Slot W} (hs : Q s.pifoVal) (j : Fin o.D) :
    AllVals Q (Function.update w j s) := by
  intro k
  by_cases hk : k = j
  · rwa [hk, Function.update_self]
  · rw [Function.update_of_ne hk]
    exact hw k

theorem AllVals.pushNode (hw : AllVals Q w) (hv : Q v) : AllVals Q (VPifo.pushNode w v).1 := by
  rw [VPifo.pushNode]
  split
  · split
    · exact hw.update hv _
    · refine hw.update ?_ _
      exact hw (minSubTree w)
  · exact hw.update hv _

/-- What a push sends down is the value it came with or one of the word's. -/
theorem AllVals.sent (hw : AllVals Q w) (hv : Q v) (h : (VPifo.pushNode w v).2 = some x) :
    Q x := by
  rw [VPifo.pushNode] at h
  split at h
  · split at h
    · rw [← Option.some.inj h]
      exact hw _
    · rwa [← Option.some.inj h]
  · exact absurd h (by simp)

theorem AllVals.popNode (hw : AllVals Q w) (hv : Q v) : AllVals Q (VPifo.popNode w v) := by
  rw [VPifo.popNode]
  split
  · exact hw.update hv _
  · exact hw

end Rule

namespace PifoSramTop

variable {P : Params} {pu : PowerUp P} {ins : ℕ → ℕ → Entry P.toWidths} {c i t l a : ℕ}
  {Q : Val P.toWidths → Prop}

/-! ## The unit below a write-back -/

/-- A command never asks for a write-back. -/
theorem accept_fsm (x : Command P.toWidths) : (Regs.accept x).fsm = .idle ∨
    (Regs.accept x).fsm = .push ∨ (Regs.accept x).fsm = .pop := by
  rw [Regs.accept]
  split
  · exact .inr (.inr rfl)
  · exact .inr (.inl rfl)
  · exact .inl rfl

/-- Below a write-back that is not on the last level the next unit pops, for the same tree. -/
theorem pop_below_wb (hi : i < P.LEVEL) (hwb : ((run pu ins (c + 1)).pifo i).fsm = .wb)
    (hl : ((run pu ins (c + 1)).pifo i).curLevel + 1 < P.LEVEL) :
    ((run pu ins (c + 1)).pifo ((i + 1) % P.LEVEL)).fsm = .pop ∧
      (run pu ins (c + 1)).oTreeId ((i + 1) % P.LEVEL) = (run pu ins (c + 1)).oTreeId i := by
  have hn : (i + 1) % P.LEVEL < P.LEVEL := Nat.mod_lt _ P.LEVEL_pos
  have hprev : prev P.LEVEL ((i + 1) % P.LEVEL) = i := by
    rw [prev_mod_add_one P.LEVEL_pos, Nat.mod_eq_of_lt hi]
  have ht : Tracks (shadow pu ins c i) ((run pu ins (c + 1)).pifo i) :=
    tracks_run pu ins (c + 1) i hi
  have hstate := ht.fsm_eq_wb hwb
  obtain ⟨hpop, hlevel⟩ := pop_before_wb pu ins c hi hstate
  have hhands : HandsPop P (shadow pu ins (c - 1)) (prev P.LEVEL ((i + 1) % P.LEVEL)) := by
    rw [hprev]
    exact ⟨hpop, by rw [← hlevel, ← (ht.wb hstate).2]; exact hl⟩
  have hself : (run pu ins (c + 1)).pifo i = { (run pu ins c).pifo i with fsm := .wb } :=
    wb_of_fsm_pop c i ((tracks_run pu ins c i hi).pop hpop).1
  have hfol := follows_run pu ins c hn
  cases shadow_move pu ins c hn with
  | inheritPop hfree hh hpush hpop' =>
    have hreg : (run pu ins (c + 1)).pifo ((i + 1) % P.LEVEL) = _ :=
      hfol.step_inheritPop hfree hh hpush hpop'
    rw [oTreeId, oTreeId, hreg, hself, hprev]
    exact ⟨rfl, rfl⟩
  | inheritPush _ hh => exact absurd (hh.1.symm.trans hhands.1) (by simp)
  | idle _ hq | newPush _ hq | newPop _ hq | writeBack _ hq => exact absurd hhands hq.noPop

/-! ## What a tree holds -/

/-- A word of tree `t` that is being written back. -/
def Rewritten (S : PifoSramTop P) (t l a : ℕ) : Prop :=
  (S.pifo (bank P t l)).fsm = .wb ∧ (S.pifo (bank P t l)).curTreeId = t ∧
    (S.pifo (bank P t l)).curLevel = l ∧ (S.pifo (bank P t l)).myAddr = a

/-- The values of tree `t` have a property, in the words and in the units at work there. -/
structure Keeps (S : PifoSramTop P) (t : ℕ) (Q : Val P.toWidths → Prop) : Prop where
  words : ∀ l < P.LEVEL, ∀ a < P.order.D ^ l, ¬Rewritten S t l a →
    AllVals Q ((S.sram (bank P t l)).ram (readAddr P t l a))
  latch : ∀ i < P.LEVEL, (S.pifo i).fsm = .push → S.oTreeId i = t → Q (S.pifo i).ipushdLatch
  rdata : ∀ i < P.LEVEL, (S.pifo i).fsm ≠ .idle → S.oTreeId i = t → AllVals Q (S.sram i).rdata

theorem Keeps.mono {S : PifoSramTop P} {Q' : Val P.toWidths → Prop} (h : Keeps S t Q)
    (hQ : ∀ v, Q v → Q' v) : Keeps S t Q' where
  words l hl a ha hnot k := hQ _ (h.words l hl a ha hnot k)
  latch i hi hpush htree := hQ _ (h.latch i hi hpush htree)
  rdata i hi hact htree k := hQ _ (h.rdata i hi hact htree k)

theorem keeps_reset (hones : Q Val.ones) : Keeps (run pu ins 0) t Q where
  words _ _ _ _ _ := AllVals.initValue hones
  latch _ _ h := absurd h (by simp [run, reset, Regs.idle])
  rdata _ _ h := absurd rfl h

section Step

variable (h3 : 3 ≤ P.LEVEL) (hhome : Homed pu ins) (hones : Q Val.ones)
  (h : Keeps (run pu ins c) t Q)

include h3 hones h

/-- The replacement is a value of the tree, or all ones on the last level. -/
theorem Keeps.popDataDn (hi : i < P.LEVEL) (hwb : ((run pu ins c).pifo i).fsm = .wb)
    (htree : (run pu ins c).oTreeId i = t) : Q ((run pu ins c).popDataDn i) := by
  cases c with
  | zero => exact absurd hwb (by simp [run, reset, Regs.idle])
  | succ c =>
    rw [PifoSramTop.popDataDn]
    have ht : Tracks (shadow pu ins c i) ((run pu ins (c + 1)).pifo i) :=
      tracks_run pu ins (c + 1) i hi
    have hstate := ht.fsm_eq_wb hwb
    split
    · exact hones
    · next hlast =>
      rw [levelWb_eq_last_iff pu ins h3 c hi hstate] at hlast
      have hlt := (ring_shadow pu ins c).level_lt i hi
      obtain ⟨hpop, hbelow⟩ := pop_below_wb hi hwb (by rw [(ht.wb hstate).2]; omega)
      have hword := h.rdata _ (Nat.mod_lt _ P.LEVEL_pos) (by rw [hpop]; simp)
        (hbelow.trans htree)
      rw [PifoSramTop.oPopData, PifoSram.oPopData, hpop]
      exact hword _

include hhome

/-- A word that is not about to be written back holds values of the tree. -/
theorem Keeps.words_succ (ht : t < 2 ^ P.treeNumBits) (hl : l < P.LEVEL)
    (ha : a < P.order.D ^ l) (hnot : ¬Rewritten (run pu ins (c + 1)) t l a) :
    AllVals Q (((run pu ins (c + 1)).sram (bank P t l)).ram (readAddr P t l a)) := by
  have hi := bank_lt P t l
  rw [ram_succ]
  split
  · next hact =>
    have hbank := (hhome.atHome hi hact).bank
    by_cases haddr : readAddr P t l a = writeAddr P
        ((run pu ins c).pifo (bank P t l)).curTreeId ((run pu ins c).pifo (bank P t l)).curLevel
        ((run pu ins c).pifo (bank P t l)).myAddr
    · -- the unit works on this very word
      obtain ⟨htree, hlevel, hnode⟩ := readAddr_injective ⟨ht, hl, ha⟩ (hhome.hasWord hi hact)
        hbank.symm haddr
      have hdata := h.rdata _ hi hact htree.symm
      rw [haddr, Function.update_self, oWriteData]
      cases hf : ((run pu ins c).pifo (bank P t l)).fsm with
      | idle => exact absurd hf hact
      | push => exact hdata.pushNode (h.latch _ hi hf htree.symm)
      | wb => exact hdata.popNode (h.popDataDn h3 hones hi hf htree.symm)
      | pop =>
        -- the write-back is still to come
        refine absurd ?_ hnot
        have hwb := wb_of_fsm_pop c _ hf
        rw [Rewritten, hwb]
        exact ⟨rfl, htree.symm, hlevel.symm, hnode.symm⟩
    · rw [Function.update_of_ne haddr]
      refine h.words l hl a ha fun hwb => haddr ?_
      rw [hwb.2.1, hwb.2.2.1, hwb.2.2.2]
      rfl
  · next hidle =>
    refine h.words l hl a ha fun hwb => ?_
    exact absurd hwb.1 (by rw [not_not.mp hidle]; simp)

/-- **One cycle.**  The values of a tree are still the ones it was given. -/
theorem Keeps.succ (ht : t < 2 ^ P.treeNumBits)
    (hnew : ∀ i < P.LEVEL, ∀ v, (t, Task.push v) ∈ (shadow pu ins c i).announcement → Q v) :
    Keeps (run pu ins (c + 1)) t Q where
  words l hl a ha hnot := h.words_succ h3 hhome hones ht hl ha hnot
  latch i hi hfsm htree := by
    have hfol := follows_run pu ins c hi
    have hreg : (run pu ins (c + 1)).pifo i =
        ((run pu ins c).pifo i).step ((run pu ins c).command i) := rfl
    rw [oTreeId] at htree
    rw [hreg] at hfsm htree ⊢
    cases shadow_move pu ins c hi with
    | idle hfree hq hpush hpop =>
      rw [hfol.step_idle hfree hq hpush hpop] at hfsm
      exact absurd hfsm (by simp [Regs.idle])
    | newPush hfree hq hpush hpop =>
      rw [hfol.step_newPush hfree hq hpush hpop] at htree ⊢
      refine hnew i hi _ ?_
      rw [Rpu.announcement, if_pos hpush, ← htree]
      exact List.mem_singleton_self _
    | newPop hfree hq hpush hpop =>
      rw [hfol.step_newPop hfree hq hpush hpop] at hfsm
      exact absurd hfsm (by simp)
    | inheritPush hfree hh hpush hpop =>
      rw [hfol.step_inheritPush hfree hh hpush hpop] at hfsm htree ⊢
      cases hdn : (run pu ins c).pushDn (prev P.LEVEL i) with
      | false =>
        rw [hdn] at hfsm
        exact absurd hfsm (by simp [Regs.idle])
      | true =>
        rw [hdn] at htree
        rw [if_pos rfl]
        rw [pushDn, oPush] at hdn
        split at hdn
        · -- the unit in front pushes and sends a value down
          rw [PifoSram.push] at hdn
          show Q (PifoSram.pushData P _ _)
          rw [pushData]
          cases hf : ((run pu ins c).pifo (prev P.LEVEL i)).fsm with
          | push =>
            rw [hf] at hdn
            obtain ⟨x, hx⟩ := Option.isSome_iff_exists.mp hdn
            have hval := (h.rdata _ (prev_lt hi) (by rw [hf]; simp) htree).sent
              (h.latch _ (prev_lt hi) hf htree) hx
            show Q ((pushNode ((run pu ins c).sram (prev P.LEVEL i)).rdata
              ((run pu ins c).pifo (prev P.LEVEL i)).ipushdLatch).2.getD Val.zero)
            rw [hx]
            exact hval
          | idle | pop | wb =>
            rw [hf] at hdn
            exact absurd hdn (by simp)
        · exact absurd hdn (by simp)
    | inheritPop hfree hh hpush hpop =>
      rw [hfol.step_inheritPop hfree hh hpush hpop] at hfsm
      exact absurd hfsm (by simp)
    | writeBack hpop =>
      rw [hfol.step_writeBack hpop] at hfsm
      exact absurd hfsm (by simp)
  rdata i hi hact htree := by
    by_cases hread : ((run pu ins (c + 1)).pifo i).fsm = .push ∨
        ((run pu ins (c + 1)).pifo i).fsm = .pop
    · -- the unit has just read its word
      have hword := hhome.hasWord hi hact
      have hbank := (hhome.atHome hi hact).bank
      rw [rdata_eq_ram pu ins (c + 1) i hread, ← oTreeId, htree]
      rw [← oTreeId, htree] at hword hbank
      have hvals := h.words_succ h3 hhome hones ht hword.level hword.addr (fun hwb => by
        rw [Rewritten, hbank] at hwb
        rcases hread with hf | hf <;> exact absurd (hf.symm.trans hwb.1) (by simp))
      rwa [hbank] at hvals
    · -- it writes back what it has read before
      rw [not_or] at hread
      have hstate : ((run pu ins c).pifo i).fsm = .pop := by
        by_contra hfree
        have hacc : (run pu ins (c + 1)).pifo i = Regs.accept ((run pu ins c).command i) :=
          step_eq_accept _ hfree
        rw [hacc] at hread hact
        rcases accept_fsm ((run pu ins c).command i) with hf | hf | hf
        · exact hact hf
        · exact hread.1 hf
        · exact hread.2 hf
      have hwb := wb_of_fsm_pop c i hstate
      rw [oTreeId, hwb] at htree
      rw [rdata_of_pop c i hstate]
      exact h.rdata i hi (by rw [hstate]; simp) htree

end Step

/-! ## Answers -/

/-- A value that has been presented for tree `t` before cycle `c`, or the one that stands for an
empty slot. -/
def GivenTo (ins : ℕ → ℕ → Entry P.toWidths) (t c : ℕ) (v : Val P.toWidths) : Prop :=
  v = Val.ones ∨ ∃ k < c, (t, Task.push v) ∈ (ins k (t % P.LEVEL)).tasks

theorem keeps_run (h3 : 3 ≤ P.LEVEL) (hhome : Homed pu ins) (ht : t < 2 ^ P.treeNumBits) (c : ℕ) :
    Keeps (run pu ins c) t (GivenTo ins t c) := by
  induction c with
  | zero => exact keeps_reset (.inl rfl)
  | succ c ih =>
    refine (ih.succ h3 hhome (.inl rfl) ht fun i hi v hv => .inr ?_).mono fun v hv => ?_
    · have hport : t % P.LEVEL = i := (hhome c i hi _ hv).2
      rw [hport]
      exact presented_of_announcement hv
    · exact hv.imp_right fun ⟨k, hk, hmem⟩ => ⟨k, Nat.lt_succ_of_lt hk, hmem⟩

/-- **A tree answers what it was given**, or all ones. -/
theorem oPopData_givenTo (h3 : 3 ≤ P.LEVEL) (hhome : Homed pu ins) (hi : i < P.LEVEL)
    (hpop : (run pu ins c).oIsLevel0Pop i = true) :
    GivenTo ins ((run pu ins c).oTreeId i) c ((run pu ins c).oPopData i) := by
  have hfsm := ((oIsLevel0Pop_eq_true _ i).mp hpop).2
  have hact : ((run pu ins c).pifo i).fsm ≠ .idle := by rw [hfsm]; simp
  have hkeeps := keeps_run (t := (run pu ins c).oTreeId i) h3 hhome (hhome.atHome hi hact).tree c
  rw [PifoSramTop.oPopData, PifoSram.oPopData, hfsm]
  exact hkeeps.rdata i hi hact rfl _

end PifoSramTop

end VPifo
