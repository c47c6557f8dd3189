import VPifo.Hardware.Pipeline
import VPifo.Hardware.Routing

/-!
# A pop of the empty root

An empty node answers a pop with all ones.  For the engine that is harmless: a slot whose
counter is zero is left alone, so the pop goes down the tree and every unit writes back the
word it has read.  `TASK_GENERATOR` does not look at the answer, however.  It takes the upper
bits of all ones for a tree identifier, `2^TREE_NUM_BITS - 1`, and makes a pop of that tree.
Nothing comes of it only if the identifier leads to the root's own port, which the loop over
the ports leaves out.

So a pop of the empty root is harmless if and only if `LEVEL` divides `2^TREE_NUM_BITS - 1`
(`harmless_iff`).  With the default parameters it does not: the pop becomes a pop of tree 3,
which loses a packet if it has one.

The engine's part is `EmptyFrom.succ`.  What makes a tree stay empty below a pop is that
tasks descend one level per cycle and never overtake: a push that comes after the pop is
above it all the way down.
-/

namespace VPifo

open Cyclic TaskDistribute PifoSram

section Rule

variable {o : Order} {W : Widths}

/-- A pop leaves an empty node as it is, whatever comes from below. -/
theorem popNode_initValue (v : Val W) : popNode (initValue o W) v = initValue o W := rfl

end Rule

namespace PifoSramTop

variable {P : Params} {pu : PowerUp P} {ins : ℕ → ℕ → Entry P.toWidths} {c i t j : ℕ}

/-! ## A pop on its way down -/

/-- The level a unit works on exists. -/
theorem curLevel_lt (hi : i < P.LEVEL) (hact : ((run pu ins c).pifo i).fsm ≠ .idle) :
    ((run pu ins c).pifo i).curLevel < P.LEVEL := by
  have ht := tracks_run pu ins c i hi
  have hlt := (ring_shadow pu ins (c - 1)).level_lt i hi
  cases hd : (shadow pu ins (c - 1) i).rpuState with
  | idle => rw [ht.idle hd] at hact; exact absurd rfl hact
  | push =>
    rcases ht.push hd with hr | hr
    · rw [hr] at hact; exact absurd rfl hact
    · rw [hr.2]; exact hlt
  | pop => rw [(ht.pop hd).2]; exact hlt
  | wb => rw [(ht.wb hd).2]; exact hlt

/-- A pop shown on level 0 is on level `l`, `l` units on, `l` cycles later. -/
theorem pop_travels (hi : i < P.LEVEL) (hpop : (run pu ins c).oIsLevel0Pop i = true) (l : ℕ)
    (hl : l < P.LEVEL) :
    ((run pu ins (c + l)).pifo ((i + l) % P.LEVEL)).fsm = .pop ∧
      ((run pu ins (c + l)).pifo ((i + l) % P.LEVEL)).curLevel = l ∧
      ((run pu ins (c + l)).pifo ((i + l) % P.LEVEL)).curTreeId = (run pu ins c).oTreeId i := by
  induction l with
  | zero =>
    rw [oIsLevel0Pop_eq_true] at hpop
    rw [Nat.add_zero, Nat.add_zero, Nat.mod_eq_of_lt hi]
    exact ⟨hpop.2, hpop.1, rfl⟩
  | succ l ih =>
    obtain ⟨hfsm, hlevel, htree⟩ := ih (Nat.lt_of_succ_lt hl)
    have hi' : (i + (l + 1)) % P.LEVEL < P.LEVEL := Nat.mod_lt _ P.LEVEL_pos
    have hprev : prev P.LEVEL ((i + (l + 1)) % P.LEVEL) = (i + l) % P.LEVEL :=
      prev_mod_add_one P.LEVEL_pos (i + l)
    have ht := tracks_run pu ins (c + l) _ (Nat.mod_lt (i + l) P.LEVEL_pos)
    have hstate := ht.fsm_eq_pop hfsm
    have hhands : HandsPop P (shadow pu ins (c + l - 1))
        (prev P.LEVEL ((i + (l + 1)) % P.LEVEL)) := by
      rw [hprev]
      exact ⟨hstate, by rw [← (ht.pop hstate).2, hlevel]; exact hl⟩
    have hfol := follows_run pu ins (c + l) hi'
    cases shadow_move pu ins (c + l) hi' with
    | inheritPop hfree hh hpush hpop' =>
      have hreg : (run pu ins (c + (l + 1))).pifo ((i + (l + 1)) % P.LEVEL) = _ :=
        hfol.step_inheritPop hfree hh hpush hpop'
      rw [hreg]
      refine ⟨rfl, ?_, ?_⟩
      · show oLevel P ((run pu ins (c + l)).pifo (prev P.LEVEL ((i + (l + 1)) % P.LEVEL))) = l + 1
        rw [hprev, oLevel_eq (by rw [hlevel]; exact hl), hlevel]
      · show (run pu ins (c + l)).oTreeId (prev P.LEVEL ((i + (l + 1)) % P.LEVEL)) = _
        rw [hprev, oTreeId, htree]
    | inheritPush _ hh => exact absurd (hh.1.symm.trans hhands.1) (by simp)
    | idle _ hq | newPush _ hq | newPop _ hq | writeBack _ hq => exact absurd hhands hq.noPop

/-- The cycle after, the same unit writes the word back. -/
theorem wb_of_fsm_pop (c i : ℕ) (h : ((run pu ins c).pifo i).fsm = .pop) :
    (run pu ins (c + 1)).pifo i = { (run pu ins c).pifo i with fsm := .wb } := by
  show ((run pu ins c).pifo i).step ((run pu ins c).command i) = _
  rw [Regs.step, h]

/-! ## An empty tree stays empty below a pop -/

/-- Level `j` and what is below it is empty in tree `t`: the words are, and the units at
work there pop a word that is. -/
structure EmptyFrom (S : PifoSramTop P) (t j : ℕ) : Prop where
  words : ∀ l < P.LEVEL, j ≤ l → ∀ a < P.order.D ^ l,
    (S.sram (bank P t l)).ram (readAddr P t l a) = initValue _ _
  atWork : ∀ i < P.LEVEL, (S.pifo i).fsm ≠ .idle → S.oTreeId i = t → j ≤ (S.pifo i).curLevel →
    (S.pifo i).fsm ≠ .push ∧ (S.sram i).rdata = initValue _ _

instance (S : PifoSramTop P) (t j : ℕ) : Decidable (EmptyFrom S t j) :=
  decidable_of_iff ((∀ l < P.LEVEL, j ≤ l → ∀ a < P.order.D ^ l,
      (S.sram (bank P t l)).ram (readAddr P t l a) = initValue _ _) ∧
    ∀ i < P.LEVEL, ((S.pifo i).fsm ≠ .idle ∧ S.oTreeId i = t ∧ j ≤ (S.pifo i).curLevel) →
      (S.pifo i).fsm ≠ .push ∧ (S.sram i).rdata = initValue _ _)
    ⟨fun h => ⟨h.1, fun i hi hact htree hlevel => h.2 i hi ⟨hact, htree, hlevel⟩⟩,
      fun h => ⟨h.words, fun i hi hw => h.atWork i hi hw.1 hw.2.1 hw.2.2⟩⟩

/-- A unit that pops an empty word writes it back as it is. -/
theorem oWriteData_of_empty {r : Regs P.toWidths} {w : Node P.order P.toWidths}
    (hact : r.fsm ≠ .idle) (hpush : r.fsm ≠ .push) (hw : w = initValue _ _)
    (v : Val P.toWidths) : oWriteData P r w v = initValue _ _ := by
  subst hw
  rw [oWriteData]
  cases hf : r.fsm with
  | idle => exact absurd hf hact
  | push => exact absurd hf hpush
  | pop | wb => exact popNode_initValue v

/-- What the announcements of a run have to be like: tree identifiers that fit their wires,
on the port of their tree. -/
def Homed (pu : PowerUp P) (ins : ℕ → ℕ → Entry P.toWidths) : Prop :=
  ∀ k, ∀ i < P.LEVEL, ∀ y ∈ (shadow pu ins k i).announcement,
    y.1 < 2 ^ P.treeNumBits ∧ y.1 % P.LEVEL = i

theorem Homed.atHome (h : Homed pu ins) (hi : i < P.LEVEL)
    (hact : ((run pu ins c).pifo i).fsm ≠ .idle) :
    AtHome P (· < 2 ^ P.treeNumBits) i ((run pu ins c).pifo i) :=
  atHome_of_announced (fun k _ => h k) hi hact

theorem Homed.hasWord (h : Homed pu ins) (hi : i < P.LEVEL)
    (hact : ((run pu ins c).pifo i).fsm ≠ .idle) :
    HasWord P ((run pu ins c).pifo i).curTreeId ((run pu ins c).pifo i).curLevel
      ((run pu ins c).pifo i).myAddr :=
  ⟨(h.atHome hi hact).tree, curLevel_lt hi hact, (h.atHome hi hact).addr⟩

/-- The words of an empty level are not written, or written back as they are. -/
theorem EmptyFrom.words_succ (hhome : Homed pu ins) (ht : t < 2 ^ P.treeNumBits)
    (h : EmptyFrom (run pu ins c) t j) {l : ℕ} (hl : l < P.LEVEL) (hjl : j ≤ l) {a : ℕ}
    (ha : a < P.order.D ^ l) :
    ((run pu ins (c + 1)).sram (bank P t l)).ram (readAddr P t l a) = initValue _ _ := by
  rw [ram_succ]
  split
  · next hact =>
    have hbank := (hhome.atHome (bank_lt P t l) hact).bank
    by_cases haddr : readAddr P t l a = writeAddr P
        ((run pu ins c).pifo (bank P t l)).curTreeId ((run pu ins c).pifo (bank P t l)).curLevel
        ((run pu ins c).pifo (bank P t l)).myAddr
    · -- the unit works on this very word
      obtain ⟨htree, hlevel, -⟩ := readAddr_injective ⟨ht, hl, ha⟩
        (hhome.hasWord (bank_lt P t l) hact) hbank.symm haddr
      obtain ⟨hpush, hdata⟩ := h.atWork _ (bank_lt P t l) hact htree.symm (hlevel ▸ hjl)
      rw [haddr, Function.update_self]
      exact oWriteData_of_empty hact hpush hdata _
    · rw [Function.update_of_ne haddr]
      exact h.words l hl hjl a ha
  · exact h.words l hl hjl a ha

/-- **One cycle and one level on, the tree is still empty.** -/
theorem EmptyFrom.succ (hhome : Homed pu ins) (ht : t < 2 ^ P.treeNumBits)
    (h : EmptyFrom (run pu ins c) t j) : EmptyFrom (run pu ins (c + 1)) t (j + 1) where
  words l hl hjl a ha := h.words_succ hhome ht hl (Nat.le_of_succ_le hjl) ha
  atWork i hi hact htree hlevel := by
    have hfol := follows_run pu ins c hi
    have hreg : (run pu ins (c + 1)).pifo i =
        ((run pu ins c).pifo i).step ((run pu ins c).command i) := rfl
    -- a pop has read the word, and the word is empty
    have hread : ((run pu ins (c + 1)).pifo i).fsm = .pop →
        ((run pu ins (c + 1)).pifo i).fsm ≠ .push ∧
          ((run pu ins (c + 1)).sram i).rdata = initValue _ _ := by
      intro hpop
      have hword := hhome.hasWord hi hact
      have hbank := (hhome.atHome hi hact).bank
      rw [← oTreeId, htree] at hword hbank
      refine ⟨by rw [hpop]; simp, ?_⟩
      rw [rdata_eq_ram pu ins (c + 1) i (.inr hpop), ← oTreeId, htree]
      have hempty := h.words_succ hhome ht hword.level (Nat.le_of_succ_le hlevel) hword.addr
      rw [hbank] at hempty
      exact hempty
    rw [hreg] at hact hlevel
    have hnew : ((run pu ins c).pifo i).step ((run pu ins c).command i) ≠ Regs.idle :=
      fun hidle => hact (by rw [hidle]; rfl)
    cases shadow_move pu ins c hi with
    | idle hfree hq hpush hpop => exact absurd (hfol.step_idle hfree hq hpush hpop) hnew
    | newPush hfree hq hpush hpop =>
      rw [hfol.step_newPush hfree hq hpush hpop] at hlevel
      exact absurd hlevel (Nat.not_succ_le_zero j)
    | newPop hfree hq hpush hpop =>
      rw [hfol.step_newPop hfree hq hpush hpop] at hlevel
      exact absurd hlevel (Nat.not_succ_le_zero j)
    | inheritPush hfree hh hpush hpop =>
      -- the unit in front would be pushing in the empty part
      exfalso
      rw [oTreeId, hreg] at htree
      rw [hfol.step_inheritPush hfree hh hpush hpop] at hnew htree hlevel
      cases hdn : (run pu ins c).pushDn (prev P.LEVEL i) with
      | false => rw [hdn] at hnew; exact hnew rfl
      | true =>
        rw [hdn] at htree hlevel
        rcases hfol.before.push hh.1 with hp | hp
        · rw [PifoSramTop.pushDn, hp, oPush] at hdn
          simp [PifoSram.push, Regs.idle] at hdn
        · have hlv : j + 1 ≤ oLevel P ((run pu ins c).pifo (prev P.LEVEL i)) := hlevel
          rw [oLevel_eq (by rw [hp.2]; exact hh.2)] at hlv
          exact (h.atWork _ (prev_lt hi) (by rw [hp.1]; simp) htree (Nat.le_of_succ_le_succ hlv)).1
            hp.1
    | inheritPop hfree hh hpush hpop =>
      exact hread (by rw [hreg, hfol.step_inheritPop hfree hh hpush hpop])
    | writeBack hpop =>
      have hfsm := (hfol.self.pop hpop).1
      have hstep := hfol.step_writeBack hpop
      rw [oTreeId, hreg, hstep] at htree
      rw [hstep] at hlevel
      rw [hreg, hstep, rdata_of_pop c i hfsm]
      exact ⟨by simp, (h.atWork i hi (by rw [hfsm]; simp) htree (Nat.le_of_succ_le hlevel)).2⟩

theorem EmptyFrom.add (hhome : Homed pu ins) (ht : t < 2 ^ P.treeNumBits)
    (h : EmptyFrom (run pu ins c) t 0) (l : ℕ) : EmptyFrom (run pu ins (c + l)) t l := by
  induction l with
  | zero => exact h
  | succ l ih => exact ih.succ hhome ht

/-- A write of the word that is there changes no word. -/
theorem ram_succ_of_empty (hact : ((run pu ins c).pifo i).fsm ≠ .idle)
    (hpush : ((run pu ins c).pifo i).fsm ≠ .push)
    (hdata : ((run pu ins c).sram i).rdata = initValue _ _)
    (hword : ((run pu ins c).sram i).ram (writeAddr P ((run pu ins c).pifo i).curTreeId
      ((run pu ins c).pifo i).curLevel ((run pu ins c).pifo i).myAddr) = initValue _ _) :
    ((run pu ins (c + 1)).sram i).ram = ((run pu ins c).sram i).ram := by
  rw [ram_succ, if_pos hact, oWriteData_of_empty hact hpush hdata, ← hword,
    Function.update_eq_self]

/-- **A pop of an empty tree changes no word**, neither when it reads a word nor when it
writes it back. -/
theorem EmptyFrom.pop_keeps_ram (hhome : Homed pu ins) (hi : i < P.LEVEL)
    (hpop : (run pu ins c).oIsLevel0Pop i = true)
    (h : EmptyFrom (run pu ins c) ((run pu ins c).oTreeId i) 0) {l : ℕ} (hl : l < P.LEVEL) :
    ((run pu ins (c + l + 1)).sram ((i + l) % P.LEVEL)).ram =
        ((run pu ins (c + l)).sram ((i + l) % P.LEVEL)).ram ∧
      ((run pu ins (c + l + 2)).sram ((i + l) % P.LEVEL)).ram =
        ((run pu ins (c + l + 1)).sram ((i + l) % P.LEVEL)).ram := by
  have hu : (i + l) % P.LEVEL < P.LEVEL := Nat.mod_lt _ P.LEVEL_pos
  obtain ⟨hfsm, hlevel, htree⟩ := pop_travels hi hpop l hl
  have hact : ((run pu ins (c + l)).pifo ((i + l) % P.LEVEL)).fsm ≠ .idle := by rw [hfsm]; simp
  have hword := hhome.hasWord hu hact
  have hbank := (hhome.atHome hu hact).bank
  rw [hlevel, htree] at hword hbank
  have hempty := h.add hhome hword.tree l
  obtain ⟨hpush, hdata⟩ := hempty.atWork _ hu hact htree hlevel.ge
  have hram := hempty.words l hl le_rfl _ hword.addr
  rw [hbank] at hram
  have hread := ram_succ_of_empty hact hpush hdata (by rw [hlevel, htree]; exact hram)
  refine ⟨hread, ?_⟩
  -- the write-back: the same unit, the same word
  have hwb := wb_of_fsm_pop (c + l) _ hfsm
  refine ram_succ_of_empty (by rw [hwb]; simp) (by rw [hwb]; simp) ?_ ?_
  · rw [rdata_of_pop _ _ hfsm, hdata]
  · rw [hwb, hread]
    show _ = _
    rw [hlevel, htree]
    exact hram

end PifoSramTop

namespace TaskGenerator

open PifoSramTop

variable {P : GenParams} {pu : PowerUp P.toParams} {xs : ℕ → GenIn P} {c : ℕ}

/-! ## What the scheduler makes of the answer -/

/-- The root tree is empty: no word of it, in an SRAM or in the hands of a unit, has an
entry, and no push is on its way down. -/
def RootEmpty (S : PifoSramTop P.toParams) : Prop := EmptyFrom S 0 0

instance (S : PifoSramTop P.toParams) : Decidable (RootEmpty S) :=
  inferInstanceAs (Decidable (EmptyFrom S 0 0))

/-- The pop that the root shows in cycle `c` has no effect: it makes no pop of a sub-tree,
its units write no word that is not there, and it raises no output. -/
structure Harmless (pu : PowerUp P.toParams) (xs : ℕ → GenIn P) (c : ℕ) : Prop where
  noPop : ∀ i < P.LEVEL, i ≠ 0 → (ports (run pu xs c) (xs c) i).popBit = false
  /-- Unit `l` works on the pop in cycles `c + l` and `c + l + 1` (`pop_travels`). -/
  keeps : ∀ l < P.LEVEL,
    ((run pu xs (c + l + 1)).sram l).ram = ((run pu xs (c + l)).sram l).ram ∧
      ((run pu xs (c + l + 2)).sram l).ram = ((run pu xs (c + l + 1)).sram l).ram
  noOutput : ∀ l < P.LEVEL, l ≠ 0 → (run pu xs (c + l)).oIsLevel0Pop l = false ∧
    (run pu xs (c + l + 1)).oIsLevel0Pop l = false

theorem homed_engineIns (pu : PowerUp P.toParams) (xs : ℕ → GenIn P) :
    Homed pu (engineIns pu xs) := by
  intro k i _ y hy
  obtain ⟨k', -, hy'⟩ := presented_of_announcement hy
  exact ⟨(tasks_ports hy').1.lt, (tasks_ports hy').2⟩

/-- All ones, read as a token. -/
theorem tokenTree_ones (P : GenParams) :
    tokenTree (Val.ones : Val P.toWidths) = 2 ^ P.treeNumBits - 1 := by
  have hpow : 2 ^ P.MTW = 2 ^ P.treeNumBits * 2 ^ (P.MTW - P.treeNumBits) := by
    rw [← Nat.pow_add, Nat.add_sub_cancel' P.treeNumBits_le_MTW]
  have hpos := Nat.two_pow_pos (P.MTW - P.treeNumBits)
  have hpos' := Nat.two_pow_pos P.treeNumBits
  have hsucc : 2 ^ P.treeNumBits - 1 + 1 = 2 ^ P.treeNumBits := by omega
  rw [tokenTree, Val.ones, BitVec.toNat_allOnes]
  refine Nat.div_eq_of_lt_le ?_ ?_
  · rw [Nat.sub_one_mul, ← hpow]
    omega
  · rw [hsucc, ← hpow]
    exact Nat.sub_one_lt (Nat.two_pow_pos P.MTW).ne'

section

variable (hpop : (run pu xs c).oIsLevel0Pop 0 = true) (hempty : RootEmpty (run pu xs c))

include hpop

theorem oTreeId_root : (run pu xs c).oTreeId 0 = 0 := by
  obtain ⟨hport, hmod⟩ := oTreeId_of_level0Pop pu xs c P.LEVEL_pos hpop
  exact hport.root hmod

include hempty

/-- The empty root names the last tree identifier. -/
theorem popTreeId_of_rootEmpty : popTreeId (run pu xs c) = 2 ^ P.treeNumBits - 1 := by
  have hfsm := ((oIsLevel0Pop_eq_true _ 0).mp hpop).2
  have hdata := (hempty.atWork 0 P.LEVEL_pos (by rw [hfsm]; simp) (oTreeId_root hpop)
    (Nat.zero_le _)).2
  have hanswer : (run pu xs c).oPopData 0 = Val.ones := by
    rw [PifoSramTop.oPopData, PifoSram.oPopData, hfsm, hdata]
    rfl
  rw [popTreeId, if_pos hpop, hanswer, tokenTree_ones]

/-- The answer makes no pop if and only if its tree identifier leads to port 0. -/
theorem noPop_iff : (∀ i < P.LEVEL, i ≠ 0 → (ports (run pu xs c) (xs c) i).popBit = false) ↔
    (2 ^ P.treeNumBits - 1) % P.LEVEL = 0 := by
  have hrpu : popRpuId (run pu xs c) = (2 ^ P.treeNumBits - 1) % P.LEVEL := by
    rw [popRpuId, popTreeId_of_rootEmpty hpop hempty]
  constructor
  · intro hno
    by_contra h0
    have hbit := hno _ (Nat.mod_lt _ P.LEVEL_pos) h0
    rw [(ports_popBit _ (xs c) h0).mpr hrpu.symm] at hbit
    exact absurd hbit (by simp)
  · intro hroot i _ h0
    rw [← Bool.not_eq_true, ports_popBit _ (xs c) h0, hrpu, hroot]
    exact h0

end

/-- **When a pop of the empty root is harmless.**  For every number of levels and of trees, in
every cycle of every run in which the root shows a pop and finds its tree empty: the pop
makes no pop of a sub-tree, changes no word of an SRAM and raises no output, if and only if
`LEVEL` divides `2^TREE_NUM_BITS - 1`. -/
theorem harmless_iff (P : GenParams) (pu : PowerUp P.toParams) (xs : ℕ → GenIn P) (c : ℕ)
    (hpop : (run pu xs c).oIsLevel0Pop 0 = true) (hempty : RootEmpty (run pu xs c)) :
    Harmless pu xs c ↔ (2 ^ P.treeNumBits - 1) % P.LEVEL = 0 := by
  refine ⟨fun h => (noPop_iff hpop hempty).mp h.noPop, fun hroot => ?_⟩
  have htree := oTreeId_root hpop
  have hengine := run_eq_engine pu xs
  have hunit : ∀ l, l < P.LEVEL → (0 + l) % P.LEVEL = l := fun l hl => by
    rw [Nat.zero_add, Nat.mod_eq_of_lt hl]
  have hfrom : EmptyFrom (run pu xs c) ((run pu xs c).oTreeId 0) 0 := by
    rw [htree]
    exact hempty
  refine ⟨(noPop_iff hpop hempty).mpr hroot, fun l hl => ?_, fun l hl h0 => ?_⟩
  · rw [hengine] at hpop hfrom
    have hkeep := hfrom.pop_keeps_ram (homed_engineIns pu xs) P.LEVEL_pos hpop hl
    rw [hunit l hl, ← hengine, ← hengine, ← hengine] at hkeep
    exact hkeep
  · rw [hengine] at hpop
    obtain ⟨hfsm, hlevel, -⟩ := pop_travels P.LEVEL_pos hpop l hl
    rw [hunit l hl] at hfsm hlevel
    have hwb := wb_of_fsm_pop _ _ hfsm
    rw [hengine, hengine, ← Bool.not_eq_true, ← Bool.not_eq_true, oIsLevel0Pop_eq_true,
      oIsLevel0Pop_eq_true, hwb, hlevel]
    exact ⟨fun h => h0 h.1, fun h => h0 h.1⟩

/-- One pop in the first cycle, and nothing else. -/
def onePop (P : GenParams) (c : ℕ) : GenIn P := ⟨false, 0, 0, Val.zero, c == 0⟩

/-- Three levels and four trees. -/
def threeLevels : GenParams where
  PTW := 16
  MTW := 2
  CTW := 10
  order := .two
  arbiter := .vPIFO
  LEVEL := 3
  TREE_NUM := 4
  FIFO_WIDTH := 3
  two_le_LEVEL := PifoSramTop.threeLevels.two_le_LEVEL
  two_le_TREE_NUM := Params.defaults.two_le_TREE_NUM
  one_le_FIFO_WIDTH := Params.defaults.one_le_FIFO_WIDTH
  treeNumBits_le_MTW := by decide

/-- With three levels identifier 3 leads to port 0. -/
theorem harmless_iff_threeLevels : Harmless (PowerUp.blank threeLevels.toParams)
    (onePop threeLevels) 4 :=
  (harmless_iff threeLevels _ _ 4 (by decide +kernel) (by decide +kernel)).mpr (by decide)

/-- **With the default parameters the pop goes on to tree 3.**  The first pop after reset is
shown by the root in cycle 4 and finds the tree empty; in the same cycle port 3 is told to
pop tree 3. -/
theorem empty_pop_pops_tree_three :
    RootEmpty (run (PowerUp.blank defaults.toParams) (onePop defaults) 4) ∧
      (run (PowerUp.blank defaults.toParams) (onePop defaults) 4).oIsLevel0Pop 0 = true ∧
      ports (run (PowerUp.blank defaults.toParams) (onePop defaults) 4) (onePop defaults 4) 3 =
        ⟨false, true, 0, 3, Val.ones⟩ ∧
      ¬Harmless (PowerUp.blank defaults.toParams) (onePop defaults) 4 := by
  have hport : ports (run (PowerUp.blank defaults.toParams) (onePop defaults) 4)
      (onePop defaults 4) 3 = ⟨false, true, 0, 3, Val.ones⟩ := by decide +kernel
  refine ⟨by decide +kernel, by decide +kernel, hport, fun h => ?_⟩
  have hbit := h.noPop 3 (by decide) (by decide)
  rw [hport] at hbit
  exact absurd hbit (by decide)

end TaskGenerator

end VPifo
