import VPifo.Hardware.DispatchOrder
import VPifo.Hardware.TaskGenerator

/-!
# Which tenants are served

`TASK_GENERATOR` sends the tasks of tree `t` to port `t % LEVEL`, and so does everything
below it: `PIFO_SRAM` places the levels of a tree from SRAM `t % LEVEL` on, in groups of
`LEVEL` trees, and any number of groups fits.  The two loops that drive the ports start at
port 1, though.  Port 0 is driven by assignments of its own, for the root, so a tree whose
identifier is a multiple of `LEVEL` has no port: its token enters the root and its packet
goes nowhere, and when the token comes back no pop is made of it.

Two more things can go wrong for a tree that has a port.  The FIFO of the port, or the
root's, may be full, and a later RPU may cover the output.  The main result says that there
is nothing else: in every cycle of every run a tree is routed if and only if none of the
three happens to it (`routed_iff_unhindered`).

What makes the last part go through is `atHome_run`: whatever the FIFOs drop, a unit only
works on trees that have the unit's port, so two pops on the outputs are pops of two trees.
-/

namespace VPifo

namespace TaskGenerator

open PifoSramTop

variable {P : GenParams}

/-! ## Every task is at the port of its tree -/

/-- A tree identifier that a port is driven with. -/
structure HasPort (P : GenParams) (t : ℕ) : Prop where
  lt : t < 2 ^ P.treeNumBits
  root : t % P.LEVEL = 0 → t = 0

theorem hasPort_zero (P : GenParams) : HasPort P 0 := ⟨Nat.two_pow_pos _, fun _ => rfl⟩

theorem mem_tasks {W : Widths} {e : Entry W} {y : ℕ × Task W} (hy : y ∈ e.tasks) :
    e.pushBit = true ∧ y.1 = e.pushTreeId ∨ e.popBit = true ∧ y.1 = e.popTreeId := by
  rcases List.mem_append.mp hy with hy | hy
  · cases hbit : e.pushBit with
    | true => exact .inl ⟨rfl, by simpa [hbit] using congrArg Prod.fst (by simpa [hbit] using hy)⟩
    | false => simp [hbit] at hy
  · cases hbit : e.popBit with
    | true => exact .inr ⟨rfl, by simpa [hbit] using congrArg Prod.fst (by simpa [hbit] using hy)⟩
    | false => simp [hbit] at hy

/-- What is presented on a port belongs there. -/
theorem tasks_ports {S : PifoSramTop P.toParams} {x : GenIn P} {i : ℕ}
    {y : ℕ × Task P.toWidths} (hy : y ∈ (ports S x i).tasks) :
    HasPort P y.1 ∧ y.1 % P.LEVEL = i := by
  by_cases h0 : i = 0
  · have htree : y.1 = 0 := by
      subst h0
      rcases mem_tasks hy with ⟨-, h⟩ | ⟨-, h⟩ <;> exact h
    rw [htree, h0]
    exact ⟨hasPort_zero P, Nat.zero_mod _⟩
  · have htree : y.1 < 2 ^ P.treeNumBits ∧ y.1 % P.LEVEL = i := by
      rcases mem_tasks hy with ⟨hbit, h⟩ | ⟨hbit, h⟩
      · rw [h, (ports_push S x h0 hbit).1]
        exact ⟨x.iPushTreeId.isLt, ((ports_pushBit S x h0).mp hbit).1.symm⟩
      · rw [h, ports_pop S x h0 hbit]
        exact ⟨popTreeId_lt S, ((ports_popBit S x h0).mp hbit).symm⟩
    exact ⟨⟨htree.1, fun hroot => absurd (htree.2.symm.trans hroot) h0⟩, htree.2⟩

/-- **Units work on trees that have their port**, in every run of the scheduler. -/
theorem atHome_run (pu : PowerUp P.toParams) (xs : ℕ → GenIn P) (c : ℕ) {i : ℕ}
    (hi : i < P.LEVEL) (hf : ((run pu xs c).pifo i).fsm ≠ .idle) :
    AtHome P.toParams (HasPort P) i ((run pu xs c).pifo i) := by
  rw [run_eq_engine] at hf ⊢
  refine atHome_of_announced (fun k _ j _ y hy => ?_) hi hf
  obtain ⟨k', -, hy'⟩ := presented_of_announcement hy
  exact tasks_ports hy'

/-- A tree shows its pops at its own RPU. -/
theorem oTreeId_of_level0Pop (pu : PowerUp P.toParams) (xs : ℕ → GenIn P) (c : ℕ) {i : ℕ}
    (hi : i < P.LEVEL) (hpop : (run pu xs c).oIsLevel0Pop i = true) :
    HasPort P ((run pu xs c).oTreeId i) ∧ (run pu xs c).oTreeId i % P.LEVEL = i := by
  rw [oIsLevel0Pop_eq_true] at hpop
  have hhome := atHome_run pu xs c hi (by rw [hpop.2]; simp)
  have hbank := hhome.bank
  rw [hpop.1, PifoSram.bank, Nat.add_zero] at hbank
  exact ⟨hhome.tree, hbank⟩

/-! ## What the FIFOs are written -/

/-- The tree and the value of the push that FIFO `i` takes in this cycle. -/
def pushWritten (S : PifoSramTop P.toParams) (x : GenIn P) (i : ℕ) : Option (ℕ × Val P.toWidths) :=
  if S.Accepts (ports S x) i ∧ (ports S x i).pushBit = true then
    some ((ports S x i).pushTreeId, (ports S x i).pushData)
  else none

/-- The tree of the pop that FIFO `i` takes in this cycle. -/
def popWritten (S : PifoSramTop P.toParams) (x : GenIn P) (i : ℕ) : Option ℕ :=
  if S.Accepts (ports S x) i ∧ (ports S x i).popBit = true then some (ports S x i).popTreeId
  else none

/-- A FIFO that is full and not read takes nothing. -/
def Stuck (S : PifoSramTop P.toParams) (i : ℕ) : Prop :=
  S.oTaskFifoFull i = true ∧ S.popTaskFIFO i = false

instance (S : PifoSramTop P.toParams) (i : ℕ) : Decidable (Stuck S i) :=
  inferInstanceAs (Decidable (_ ∧ _))

theorem accepts_iff (S : PifoSramTop P.toParams) (x : GenIn P) (i : ℕ) :
    S.Accepts (ports S x) i ↔ pushTaskFIFO (ports S x i) = true ∧ ¬Stuck S i := by
  rw [Accepts, TaskFIFO.Drops, Stuck, PifoSramTop.oTaskFifoFull]
  tauto

theorem pushWritten_eq_some (S : PifoSramTop P.toParams) (x : GenIn P) (i : ℕ)
    (y : ℕ × Val P.toWidths) : pushWritten S x i = some y ↔
      ¬Stuck S i ∧ (ports S x i).pushBit = true ∧ (ports S x i).pushTreeId = y.1 ∧
        (ports S x i).pushData = y.2 := by
  simp only [pushWritten, accepts_iff, pushTaskFIFO]
  cases hbit : (ports S x i).pushBit <;> simp [Prod.ext_iff]

theorem popWritten_eq_some (S : PifoSramTop P.toParams) (x : GenIn P) (i t : ℕ) :
    popWritten S x i = some t ↔
      ¬Stuck S i ∧ (ports S x i).popBit = true ∧ (ports S x i).popTreeId = t := by
  simp only [popWritten, accepts_iff, pushTaskFIFO]
  cases hbit : (ports S x i).popBit <;> simp

section

variable {S : PifoSramTop P.toParams} {x : GenIn P} {i : ℕ}

theorem pushWritten_zero (hpush : x.iPush = true) (hstuck : ¬Stuck S 0) :
    pushWritten S x 0 = some (0, token x) := by
  refine (pushWritten_eq_some S x 0 _).mpr ⟨hstuck, hpush, rfl, ?_⟩
  simp [ports, hpush]

/-- A push entry at a port other than the root's. -/
theorem pushWritten_port (h0 : i ≠ 0) (y : ℕ × Val P.toWidths) : pushWritten S x i = some y ↔
    ¬Stuck S i ∧ (i = pushRpuId x ∧ x.iPush = true) ∧ (x.iPushTreeId.toNat, x.iPushData) = y := by
  rw [pushWritten_eq_some, ← ports_pushBit S x h0]
  refine and_congr_right fun _ => and_congr_right fun hbit => ?_
  rw [(ports_push S x h0 hbit).1, (ports_push S x h0 hbit).2, Prod.ext_iff]

/-- A pop entry at a port other than the root's. -/
theorem popWritten_port (h0 : i ≠ 0) (t : ℕ) : popWritten S x i = some t ↔
    ¬Stuck S i ∧ i = popRpuId S ∧ popTreeId S = t := by
  rw [popWritten_eq_some, ports_popBit S x h0]
  refine and_congr_right fun _ => and_congr_right fun hport => ?_
  rw [ports_pop S x h0 ((ports_popBit S x h0).mpr hport)]

end

/-! ## Routing -/

/-- What the scheduler does for tree `t` in one cycle. -/
structure Routed (S : PifoSramTop P.toParams) (x : GenIn P) (t : ℕ) : Prop where
  /-- The token goes to FIFO 0 and the packet to FIFO `t % LEVEL`, and to no other. -/
  push : x.iPush = true → x.iPushTreeId.toNat = t →
    (∃ v, pushWritten S x 0 = some (0, v) ∧
      v.metadata.toNat = t * 2 ^ (P.MTW - P.treeNumBits) ∧ v.priority = x.iPushPriority) ∧
    pushWritten S x (t % P.LEVEL) = some (t, x.iPushData) ∧
    ∀ i < P.LEVEL, i ≠ 0 → i ≠ t % P.LEVEL → pushWritten S x i = none
  /-- A token makes one pop, in FIFO `t % LEVEL`. -/
  pop : S.oIsLevel0Pop 0 = true → tokenTree (S.oPopData 0) = t →
    popWritten S x (t % P.LEVEL) = some t ∧
    ∀ i < P.LEVEL, i ≠ 0 → i ≠ t % P.LEVEL → popWritten S x i = none
  /-- A packet popped from the tree is on the outputs. -/
  shown : ∀ i < P.LEVEL, S.oIsLevel0Pop i = true → S.oTreeId i = t → S.oPopData i ≠ Val.ones →
    out S = ⟨true, t, S.oPopData i⟩

/-- Nothing is in the way of tree `t` in this cycle: a tree with work to do has a port, the
FIFOs it needs take a word, and no later RPU covers its output. -/
structure Unhindered (S : PifoSramTop P.toParams) (x : GenIn P) (t : ℕ) : Prop where
  push : x.iPush = true → x.iPushTreeId.toNat = t →
    t % P.LEVEL ≠ 0 ∧ ¬Stuck S 0 ∧ ¬Stuck S (t % P.LEVEL)
  pop : S.oIsLevel0Pop 0 = true → tokenTree (S.oPopData 0) = t →
    t % P.LEVEL ≠ 0 ∧ ¬Stuck S (t % P.LEVEL)
  shown : S.oIsLevel0Pop (t % P.LEVEL) = true → S.oTreeId (t % P.LEVEL) = t →
    S.oPopData (t % P.LEVEL) ≠ Val.ones →
    ∀ j < P.LEVEL, t % P.LEVEL < j → S.oIsLevel0Pop j = false

section

variable {S : PifoSramTop P.toParams} {x : GenIn P} {t : ℕ}

/-- The entries of the cycle's push. -/
theorem push_routed_iff (ht0 : 0 < t) (hpush : x.iPush = true) (hid : x.iPushTreeId.toNat = t) :
    ((∃ v, pushWritten S x 0 = some (0, v) ∧
      v.metadata.toNat = t * 2 ^ (P.MTW - P.treeNumBits) ∧ v.priority = x.iPushPriority) ∧
    pushWritten S x (t % P.LEVEL) = some (t, x.iPushData) ∧
    ∀ i < P.LEVEL, i ≠ 0 → i ≠ t % P.LEVEL → pushWritten S x i = none) ↔
      t % P.LEVEL ≠ 0 ∧ ¬Stuck S 0 ∧ ¬Stuck S (t % P.LEVEL) := by
  have hrpu : pushRpuId x = t % P.LEVEL := by rw [pushRpuId, hid]
  constructor
  · rintro ⟨⟨v, hroot, -⟩, hpacket, -⟩
    have hstuck := ((pushWritten_eq_some S x 0 _).mp hroot).1
    refine ⟨fun h0 => ?_, hstuck, ((pushWritten_eq_some S x _ _).mp hpacket).1⟩
    -- port 0 only carries tasks of the root
    rw [h0, hroot] at hpacket
    exact ht0.ne (Prod.mk.inj (Option.some.inj hpacket)).1
  · rintro ⟨h0, hstuck, hstuck'⟩
    refine ⟨⟨token x, pushWritten_zero hpush hstuck, by rw [token_metadata, hid], rfl⟩, ?_, ?_⟩
    · exact (pushWritten_port h0 _).mpr ⟨hstuck', ⟨hrpu.symm, hpush⟩, by rw [hid]⟩
    · intro i _ hi0 hne
      refine Option.eq_none_iff_forall_not_mem.mpr fun y hy => hne ?_
      exact ((pushWritten_port hi0 y).mp hy).2.1.1.trans hrpu

/-- The entries of the token's pop. -/
theorem pop_routed_iff (ht0 : 0 < t) (htree : popTreeId S = t) :
    (popWritten S x (t % P.LEVEL) = some t ∧
      ∀ i < P.LEVEL, i ≠ 0 → i ≠ t % P.LEVEL → popWritten S x i = none) ↔
      t % P.LEVEL ≠ 0 ∧ ¬Stuck S (t % P.LEVEL) := by
  have hrpu : popRpuId S = t % P.LEVEL := by rw [popRpuId, htree]
  constructor
  · rintro ⟨hpop, -⟩
    obtain ⟨hstuck, -, hid⟩ := (popWritten_eq_some S x _ _).mp hpop
    refine ⟨fun h0 => ?_, hstuck⟩
    rw [h0] at hid
    exact ht0.ne hid
  · rintro ⟨h0, hstuck⟩
    refine ⟨(popWritten_port h0 t).mpr ⟨hstuck, hrpu.symm, htree⟩, fun i _ hi0 hne => ?_⟩
    refine Option.eq_none_iff_forall_not_mem.mpr fun y hy => hne ?_
    exact ((popWritten_port hi0 y).mp hy).2.1.trans hrpu

end

/-- If an RPU after `i` pops, such an RPU is shown. -/
theorem outLoop_of_later {S : PifoSramTop P.toParams} {i j : ℕ} (n : ℕ) (hij : i < j) (hj : j ≤ n)
    (hpop : S.oIsLevel0Pop j = true) : ∃ m, i < m ∧ m ≤ n ∧ S.oIsLevel0Pop m = true ∧
      outLoop S n = ⟨true, S.oTreeId m, S.oPopData m⟩ := by
  induction n with
  | zero => omega
  | succ n ih =>
    by_cases hlast : S.oIsLevel0Pop (n + 1) = true
    · exact ⟨n + 1, by omega, le_rfl, hlast, by rw [outLoop, if_pos hlast]⟩
    · have hne : j ≠ n + 1 := fun h => hlast (h ▸ hpop)
      obtain ⟨m, him, hm, hpopm, hout⟩ := ih (by omega)
      exact ⟨m, him, Nat.le_succ_of_le hm, hpopm, by rw [outLoop, if_neg hlast, hout]⟩

/-- The outputs show the packet unless a later RPU pops as well. -/
theorem shown_iff (pu : PowerUp P.toParams) (xs : ℕ → GenIn P) (c : ℕ) {t : ℕ} (ht0 : 0 < t) :
    (∀ i < P.LEVEL, (run pu xs c).oIsLevel0Pop i = true → (run pu xs c).oTreeId i = t →
      (run pu xs c).oPopData i ≠ Val.ones →
        out (run pu xs c) = ⟨true, t, (run pu xs c).oPopData i⟩) ↔
    ((run pu xs c).oIsLevel0Pop (t % P.LEVEL) = true →
      (run pu xs c).oTreeId (t % P.LEVEL) = t →
      (run pu xs c).oPopData (t % P.LEVEL) ≠ Val.ones →
        ∀ j < P.LEVEL, t % P.LEVEL < j → (run pu xs c).oIsLevel0Pop j = false) := by
  constructor
  · intro hout hpop htree hdata j hj hlt
    have hshown := hout _ (Nat.mod_lt t P.LEVEL_pos) hpop htree hdata
    rw [← Bool.not_eq_true]
    intro hpopj
    obtain ⟨m, hm, hle, hpopm, hlast⟩ := outLoop_of_later (P.LEVEL - 1) hlt (by omega) hpopj
    -- what is shown is a pop of another tree
    have hid : (run pu xs c).oTreeId m = t :=
      congrArg GenOut.oPopTreeId (hlast.symm.trans hshown)
    have hmod := (oTreeId_of_level0Pop pu xs c (by omega) hpopm).2
    rw [hid] at hmod
    omega
  · intro hlast i hi hpop htree hdata
    obtain ⟨hport, hmod⟩ := oTreeId_of_level0Pop pu xs c hi hpop
    rw [htree] at hport hmod
    subst hmod
    have h0 : t % P.LEVEL ≠ 0 := fun h => ht0.ne' (hport.root h)
    rw [out, outLoop_of_last _ h0 (by omega) hpop fun j hij hj =>
      hlast hpop htree hdata j (by omega) hij, htree]

/-- **When a tenant is served.**  For every number of levels and of trees, in every cycle of
every run, tree `t` is routed if and only if nothing is in its way: if it has work to do,
`t` is no multiple of `LEVEL` and the FIFOs it needs are not full; and no later RPU shows a
pop in the cycle in which it shows a packet. -/
theorem routed_iff_unhindered (P : GenParams) (pu : PowerUp P.toParams) (xs : ℕ → GenIn P)
    (c t : ℕ) (ht0 : 0 < t) :
    Routed (run pu xs c) (xs c) t ↔ Unhindered (run pu xs c) (xs c) t := by
  have hpopTree : (run pu xs c).oIsLevel0Pop 0 = true →
      tokenTree ((run pu xs c).oPopData 0) = t → popTreeId (run pu xs c) = t := by
    intro hpop htree
    rw [popTreeId, if_pos hpop, htree]
  constructor
  · intro h
    exact {
      push := fun hpush hid => (push_routed_iff ht0 hpush hid).mp (h.push hpush hid)
      pop := fun hpop htree => (pop_routed_iff ht0 (hpopTree hpop htree)).mp (h.pop hpop htree)
      shown := (shown_iff pu xs c ht0).mp h.shown }
  · intro h
    exact {
      push := fun hpush hid => (push_routed_iff ht0 hpush hid).mpr (h.push hpush hid)
      pop := fun hpop htree => (pop_routed_iff ht0 (hpopTree hpop htree)).mpr (h.pop hpop htree)
      shown := (shown_iff pu xs c ht0).mpr h.shown }

/-- Tree 3 is served from its push in cycle 1 over its token in cycle 10 to its packet on the
outputs in cycle 15, in which tree 1 is not. -/
theorem routed_iff_unhindered_twoPops :
    (∀ c < 16, Routed (run (PowerUp.blank defaults.toParams) twoPops c) (twoPops c) 3) ∧
      ¬Routed (run (PowerUp.blank defaults.toParams) twoPops 15) (twoPops 15) 1 := by
  constructor
  · intro c hc
    refine (routed_iff_unhindered defaults _ twoPops c 3 (Nat.succ_pos 2)).mpr
      { push := ?_
        pop := ?_
        shown := fun _ _ _ j hj hlast => absurd hj (Nat.not_lt.mpr hlast) }
    all_goals
      revert c
      decide +kernel
  · intro h
    exact absurd ((routed_iff_unhindered defaults _ twoPops 15 1 Nat.one_pos).mp h).shown
      (by decide +kernel)

/-- Four levels and eight trees. -/
def eightTrees : GenParams where
  toParams := { Params.defaults with
    MTW := 3
    TREE_NUM := 8
    two_le_TREE_NUM := by decide }
  treeNumBits_le_MTW := by decide

/-- A packet for tree 4, and nothing else. -/
def pushFour (_ : ℕ) : GenIn eightTrees := ⟨true, 4, 5, ⟨4, 5⟩, false⟩

/-- **Tree 4 of eight is not served.**  Its token is written to FIFO 0 and its packet to no
FIFO at all. -/
theorem tree_four_unserved :
    ¬Routed (run (PowerUp.blank eightTrees.toParams) pushFour 0) (pushFour 0) 4 ∧
      (∀ i < 4, i ≠ 0 →
        pushWritten (run (PowerUp.blank eightTrees.toParams) pushFour 0) (pushFour 0) i =
          none) := by
  have hwritten : pushWritten (run (PowerUp.blank eightTrees.toParams) pushFour 0) (pushFour 0) 0 ≠
      some (4, ⟨4, 5⟩) ∧ ∀ i < 4, i ≠ 0 →
        pushWritten (run (PowerUp.blank eightTrees.toParams) pushFour 0) (pushFour 0) i = none := by
    decide
  exact ⟨fun h => hwritten.1 (h.push rfl rfl).2.1, hwritten.2⟩

end TaskGenerator

end VPifo
