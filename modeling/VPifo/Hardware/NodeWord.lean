import VPifo.Hardware.NodeArms
import VPifo.Hardware.PifoSramTop

/-!
# The node step, bit by bit

`Node` states the rule of `PIFO_SRAM` on a function from slots to fields.  The module itself
works on one word, which it takes apart and puts together by part-selects.  `comb` is that
block: it runs the two chains of comparisons over the part-selects of the word, takes the arm
they choose and assigns what the arm says.

A word is read as `D` slots (`slot`), each of a `counter` above a `value`, and a value is its
metadata above its `priority`.  `PushStep` and `PopStep` say what the block should do in these
terms, and `node_step_bits` that it does, for every width and every word.

`decode` turns a word into the slots of `Node`.  `agrees_comb` is the refinement that the rest
of the development rests on: on every word and in every state the block assigns what
`PifoSram` puts out on the decoded word, so that `pushNode` and `popNode` are what the
hardware computes.
-/

namespace VPifo.NodeWord

open BitSlices Bits

/-- A node word as it stands in the SRAM. -/
abbrev Word (o : Order) (W : Widths) : Type := BitVec (o.D * (W.CTW + W.MTW + W.PTW))

/-- `{metadata, priority}` as it stands in a slot. -/
abbrev ValWord (W : Widths) : Type := BitVec (W.MTW + W.PTW)

/-- What the block assigns. -/
structure Comb (o : Order) (W : Widths) (ADW : ℕ) where
  push : Bool
  pushData : ValWord W
  pop : Bool
  popData : ValWord W
  write : Bool
  wdata : Word o W
  childAddr : BitVec ADW

variable {o : Order} {W : Widths} {ADW : ℕ}

/-! ## The block -/

/-- An arm of `ST_PUSH`. -/
def PushArm.comb (arm : PushArm) (latch : Bits) : Comb o W ADW :=
  if arm.occupied.toNat ≠ 2 ^ W.PTW - 1 then
    if (latch.sel (W.PTW - 1) 0).toNat < arm.rank.toNat then
      { push := true, pushData := arm.sent.assign _, pop := false, popData := BitVec.allOnes _
        write := true, wdata := arm.taken.assign _, childAddr := BitVec.ofNat _ arm.childAddr }
    else
      { push := true, pushData := latch.assign _, pop := false, popData := BitVec.allOnes _
        write := true, wdata := arm.kept.assign _, childAddr := BitVec.ofNat _ arm.childAddr }
  else
    { push := false, pushData := 0, pop := false, popData := BitVec.allOnes _
      write := true, wdata := arm.filled.assign _, childAddr := BitVec.ofNat _ arm.childAddr }

/-- An arm of `ST_POP` and `ST_WB`. -/
def PopArm.comb (arm : PopArm) : Comb o W ADW :=
  { push := false
    pushData := 0
    pop := true
    popData := arm.popData.assign _
    write := true
    wdata := if arm.counter.toNat ≠ 0 then arm.replaced.assign _ else arm.untouched.assign _
    childAddr := BitVec.ofNat _ arm.childAddr }

/-- `min_sub_tree`. -/
def minSubTree (iReadData : Word o W) : Fin o.D :=
  firstMin fun k : Fin o.D => (subTreeSize W.CTW W.MTW W.PTW ⟨_, iReadData⟩ k).toNat

/-- `min_data_port`. -/
def minDataPort (iReadData : Word o W) : Fin o.D :=
  firstMin fun k : Fin o.D => (dataPriority W.CTW W.MTW W.PTW ⟨_, iReadData⟩ k).toNat

/-- The combinational block. -/
def comb (fsm : Fsm) (iReadData : Word o W) (ipushdLatch iPopData : ValWord W)
    (myAddr : BitVec ADW) : Comb o W ADW :=
  match fsm with
  | .push => (pushArm W.CTW W.MTW W.PTW o ⟨_, iReadData⟩ ⟨_, ipushdLatch⟩ myAddr.toNat
      (minSubTree iReadData)).comb ⟨_, ipushdLatch⟩
  | .pop => (popArm W.CTW W.MTW W.PTW o ⟨_, iReadData⟩ ⟨_, iPopData⟩ myAddr.toNat
      (minDataPort iReadData)).comb
  | .wb => (popArm W.CTW W.MTW W.PTW o ⟨_, iReadData⟩ ⟨_, iPopData⟩ myAddr.toNat
      (minDataPort iReadData)).comb
  | .idle =>
    { push := false, pushData := 0, pop := false, popData := BitVec.allOnes _
      write := false, wdata := 0, childAddr := BitVec.allOnes _ }

/-! ## A word as slots -/

/-- Slot `k`: `{sub_tree_size, pifo_val}`. -/
def slot (x : Word o W) (k : Fin o.D) : BitVec (W.CTW + W.MTW + W.PTW) :=
  x.extractLsb' (k * (W.CTW + W.MTW + W.PTW)) _

/-- `sub_tree_size` of slot `k`. -/
def counter (x : Word o W) (k : Fin o.D) : BitVec W.CTW :=
  x.extractLsb' (k * (W.CTW + W.MTW + W.PTW) + (W.MTW + W.PTW)) _

/-- `pifo_val` of slot `k`. -/
def value (x : Word o W) (k : Fin o.D) : ValWord W :=
  x.extractLsb' (k * (W.CTW + W.MTW + W.PTW)) _

/-- The priority of a value. -/
def priority (v : ValWord W) : BitVec W.PTW := v.extractLsb' 0 _

/-- The metadata of a value. -/
def metadata (v : ValWord W) : BitVec W.MTW := v.extractLsb' W.PTW _

/-- `x` with another counter and value in slot `k`. -/
def setSlot (x : Word o W) (k : Fin o.D) (c : BitVec W.CTW) (v : ValWord W) : Word o W :=
  (Bits.put ⟨_, x⟩ (k * (W.CTW + W.MTW + W.PTW)) (Bits.append ⟨_, c⟩ ⟨_, v⟩)).assign _

section Slots

variable (x : Word o W) (k : Fin o.D) (c : BitVec W.CTW) (v : ValWord W)

/-- A slot is inside the word. -/
theorem slot_end_le : k * (W.CTW + W.MTW + W.PTW) + (W.CTW + (W.MTW + W.PTW)) ≤
    o.D * (W.CTW + W.MTW + W.PTW) := by
  calc k * (W.CTW + W.MTW + W.PTW) + (W.CTW + (W.MTW + W.PTW))
      = (k + 1) * (W.CTW + W.MTW + W.PTW) := by rw [Nat.succ_mul, Nat.add_assoc W.CTW]
    _ ≤ o.D * (W.CTW + W.MTW + W.PTW) := Nat.mul_le_mul_right _ k.isLt

/-- Two slots do not overlap. -/
theorem slot_disjoint {j : Fin o.D} (hj : j ≠ k) :
    j * (W.CTW + W.MTW + W.PTW) + (W.CTW + W.MTW + W.PTW) ≤ k * (W.CTW + W.MTW + W.PTW) ∨
      k * (W.CTW + W.MTW + W.PTW) + (W.CTW + (W.MTW + W.PTW)) ≤
        j * (W.CTW + W.MTW + W.PTW) := by
  rw [← Nat.succ_mul, ← Nat.add_assoc W.CTW, ← Nat.succ_mul]
  rcases lt_or_gt_of_ne hj with h | h
  · exact .inl (Nat.mul_le_mul_right _ h)
  · exact .inr (Nat.mul_le_mul_right _ h)

theorem extractLsb'_setSlot (n len : ℕ) : (setSlot x k c v).extractLsb' n len =
    ((Bits.put ⟨_, x⟩ (k * (W.CTW + W.MTW + W.PTW)) (Bits.append ⟨_, c⟩ ⟨_, v⟩)).field
      n len).assign len :=
  extractLsb'_assign (width_put (slot_end_le k))

theorem slot_setSlot_of_ne {j : Fin o.D} (hj : j ≠ k) : slot (setSlot x k c v) j = slot x j := by
  rw [slot, extractLsb'_setSlot,
    field_put_outside (slot_end_le k) (slot_disjoint k hj), assign_field]
  rfl

@[simp] theorem counter_setSlot : counter (setSlot x k c v) k = c := by
  rw [counter, extractLsb'_setSlot,
    field_put_inside (slot_end_le k) (Nat.le_of_eq (Nat.add_comm _ _)), field_append_high rfl rfl]
  exact BitVec.setWidth_eq _

@[simp] theorem value_setSlot : value (setSlot x k c v) k = v := by
  rw [value, extractLsb'_setSlot, field_put_start (slot_end_le k) (Nat.le_add_left _ _),
    field_append_low rfl]
  exact BitVec.setWidth_eq _

theorem priority_value :
    priority (value x k) = x.extractLsb' (k * (W.CTW + W.MTW + W.PTW)) W.PTW :=
  extractLsb'_extractLsb' x (by omega)

/-- The counter is the upper part of the slot. -/
theorem counter_eq_slot : counter x k = (slot x k).extractLsb' (W.MTW + W.PTW) _ := by
  rw [slot, extractLsb'_extractLsb' x (by omega)]
  rfl

/-- The value is the lower part of the slot. -/
theorem value_eq_slot : value x k = (slot x k).extractLsb' 0 _ := by
  rw [slot, extractLsb'_extractLsb' x (by omega)]
  rfl

theorem counter_add_one (hC : 1 ≤ W.CTW) :
    (Bits.mk _ x).field (k * (W.CTW + W.MTW + W.PTW) + (W.MTW + W.PTW)) W.CTW + one W.CTW =
      ⟨_, counter x k + 1⟩ :=
  mk_add_one _ hC

theorem counter_sub_one (hC : 1 ≤ W.CTW) :
    (Bits.mk _ x).field (k * (W.CTW + W.MTW + W.PTW) + (W.MTW + W.PTW)) W.CTW - one W.CTW =
      ⟨_, counter x k - 1⟩ :=
  mk_sub_one _ hC

theorem field_value : (Bits.mk _ x).field (k * (W.CTW + W.MTW + W.PTW)) (W.MTW + W.PTW) =
    ⟨_, value x k⟩ :=
  rfl

theorem assign_put : (Bits.put ⟨_, x⟩ (k * (W.CTW + W.MTW + W.PTW))
    (Bits.append ⟨_, c⟩ ⟨_, v⟩)).assign _ = setSlot x k c v :=
  rfl

theorem toNat_priority :
    ((Bits.mk _ x).field (k * (W.CTW + W.MTW + W.PTW)) W.PTW).toNat =
      (priority (value x k)).toNat :=
  congrArg BitVec.toNat (priority_value x k).symm

theorem toNat_latch (hP : 1 ≤ W.PTW) :
    ((Bits.mk _ v).sel (W.PTW - 1) 0).toNat = (priority v).toNat := by
  have hsel : (Bits.mk _ v).sel (W.PTW - 1) 0 = (Bits.mk _ v).field 0 W.PTW :=
    sel_eq_field rfl (by omega)
  rw [hsel]
  rfl

theorem toNat_ne_ones {n : ℕ} (p : BitVec n) : p.toNat ≠ 2 ^ n - 1 ↔ p ≠ BitVec.allOnes n := by
  rw [← BitVec.toNat_allOnes, ne_eq, BitVec.toNat_inj]

theorem toNat_counter :
    ((Bits.mk _ x).field (k * (W.CTW + W.MTW + W.PTW) + (W.MTW + W.PTW)) W.CTW).toNat ≠ 0 ↔
      counter x k ≠ 0 := by
  rw [← BitVec.toNat_inj.ne]
  rfl

end Slots

/-! ## What the block computes -/

section Computes

variable (hC : 1 ≤ W.CTW) (hP : 1 ≤ W.PTW) (x : Word o W) (latch popIn : ValWord W)
  (myAddr : BitVec ADW)

theorem minSubTree_eq (hC : 1 ≤ W.CTW) :
    minSubTree x = firstMin fun k => (counter x k).toNat := by
  refine congrArg firstMin (funext fun k => ?_)
  rw [subTreeSize_eq hC (k.isLt.trans_le o.D_le_eight)]
  rfl

theorem minDataPort_eq (hP : 1 ≤ W.PTW) :
    minDataPort x = firstMin fun k => (priority (value x k)).toNat := by
  refine congrArg firstMin (funext fun k => ?_)
  rw [dataPriority_eq hP (k.isLt.trans_le o.D_le_eight), toNat_priority]

include hC hP

theorem comb_push : comb .push x latch popIn myAddr =
    { push := decide (priority (value x (minSubTree x)) ≠ BitVec.allOnes _)
      pushData :=
        if priority (value x (minSubTree x)) = BitVec.allOnes _ then 0
        else if priority latch < priority (value x (minSubTree x)) then value x (minSubTree x)
        else latch
      pop := false
      popData := BitVec.allOnes _
      write := true
      wdata := setSlot x (minSubTree x) (counter x (minSubTree x) + 1)
        (if priority (value x (minSubTree x)) = BitVec.allOnes _ ∨
          priority latch < priority (value x (minSubTree x)) then latch
        else value x (minSubTree x))
      childAddr := BitVec.ofNat ADW (o.D * myAddr.toNat + minSubTree x) } := by
  rw [comb, pushArm_eq hC hP rfl rfl (Fin.isLt _), PushArm.comb]
  simp only [slotPush, counter_add_one x _ hC, toNat_priority, toNat_latch _ hP, toNat_ne_ones,
    ← BitVec.lt_def, field_value, assign_put, assign_mk]
  by_cases hempty : priority (value x (minSubTree x)) = BitVec.allOnes _
  · simp [hempty]
  · by_cases hlt : priority latch < priority (value x (minSubTree x))
    · simp [hempty, hlt]
    · simp [hempty, hlt]

/-- `ST_WB` is the same. -/
theorem comb_pop : comb .pop x latch popIn myAddr =
    { push := false
      pushData := 0
      pop := true
      popData := value x (minDataPort x)
      write := true
      wdata := if counter x (minDataPort x) ≠ 0 then
          setSlot x (minDataPort x) (counter x (minDataPort x) - 1) popIn else x
      childAddr := BitVec.ofNat ADW (o.D * myAddr.toNat + minDataPort x) } := by
  rw [comb, popArm_eq hC hP rfl rfl (Fin.isLt _), PopArm.comb]
  simp only [slotPop, counter_sub_one x _ hC, toNat_counter, field_value, assign_put, assign_mk]

omit hC hP in
theorem comb_wb : comb .wb x latch popIn myAddr = comb .pop x latch popIn myAddr := rfl

end Computes

/-! ## The node step -/

/-- `out` is what `ST_PUSH` should do: a push of `latch` into slot `k` of `x`. -/
structure PushStep (x : Word o W) (latch : ValWord W) (myAddr : BitVec ADW) (k : Fin o.D)
    (out : Comb o W ADW) : Prop where
  least : ∀ j, counter x k ≤ counter x j
  /-- It is the first one with the smallest counter. -/
  first : ∀ j < k, counter x k < counter x j
  write : out.write = true
  others : ∀ j, j ≠ k → slot out.wdata j = slot x j
  size : counter out.wdata k = counter x k + 1
  /-- The new value takes a slot that is empty or holds a larger one. -/
  val : value out.wdata k = if priority (value x k) = BitVec.allOnes _ ∨
    priority latch < priority (value x k) then latch else value x k
  push : out.push = true ↔ priority (value x k) ≠ BitVec.allOnes _
  /-- The larger of the two goes down. -/
  pushData : priority (value x k) ≠ BitVec.allOnes _ →
    out.pushData = if priority latch < priority (value x k) then value x k else latch
  childAddr : out.childAddr = BitVec.ofNat ADW (o.D * myAddr.toNat + k)

/-- `out` is what `ST_POP` and `ST_WB` should do: a pop from slot `k` of `x`. -/
structure PopStep (x : Word o W) (popIn : ValWord W) (myAddr : BitVec ADW) (k : Fin o.D)
    (out : Comb o W ADW) : Prop where
  least : ∀ j, priority (value x k) ≤ priority (value x j)
  /-- It is the first one with the smallest priority. -/
  first : ∀ j < k, priority (value x k) < priority (value x j)
  pop : out.pop = true
  popData : out.popData = value x k
  write : out.write = true
  others : ∀ j, j ≠ k → slot out.wdata j = slot x j
  size : counter out.wdata k = if counter x k ≠ 0 then counter x k - 1 else counter x k
  /-- The child's value takes the slot unless the sub-tree was empty. -/
  val : value out.wdata k = if counter x k ≠ 0 then popIn else value x k
  childAddr : out.childAddr = BitVec.ofNat ADW (o.D * myAddr.toNat + k)

section Step

variable (hC : 1 ≤ W.CTW) (hP : 1 ≤ W.PTW) (x : Word o W) (latch popIn : ValWord W)
  (myAddr : BitVec ADW)

include hC hP

theorem pushStep_comb :
    PushStep x latch myAddr (minSubTree x) (comb .push x latch popIn myAddr) := by
  have hmin := minSubTree_eq x hC
  rw [comb_push hC hP]
  exact
    { least := fun j => by
        rw [hmin]
        exact firstMin_le (fun k => (counter x k).toNat) j
      first := fun j hj => by
        rw [hmin] at hj ⊢
        exact firstMin_lt (fun k => (counter x k).toNat) hj
      write := rfl
      others := fun j hj => slot_setSlot_of_ne x _ _ _ hj
      size := counter_setSlot x _ _ _
      val := value_setSlot x _ _ _
      push := decide_eq_true_iff
      pushData := fun hne => if_neg hne
      childAddr := rfl }

theorem popStep_comb :
    PopStep x popIn myAddr (minDataPort x) (comb .pop x latch popIn myAddr) := by
  have hmin := minDataPort_eq x hP
  rw [comb_pop hC hP]
  exact
    { least := fun j => by
        rw [hmin]
        exact firstMin_le (fun k => (priority (value x k)).toNat) j
      first := fun j hj => by
        rw [hmin] at hj ⊢
        exact firstMin_lt (fun k => (priority (value x k)).toNat) hj
      pop := rfl
      popData := rfl
      write := rfl
      others := fun j hj => by
        dsimp only
        split_ifs
        · exact slot_setSlot_of_ne x _ _ _ hj
        · rfl
      size := by
        dsimp only
        split_ifs
        · exact counter_setSlot x _ _ _
        · rfl
      val := by
        dsimp only
        split_ifs
        · exact value_setSlot x _ _ _
        · rfl
      childAddr := rfl }

/-- **The block does the node step**, for two, four and eight slots, all widths and every word. -/
theorem node_step_bits :
    (∃ k, PushStep x latch myAddr k (comb .push x latch popIn myAddr)) ∧
      ∀ fsm, fsm = .pop ∨ fsm = .wb →
        ∃ k, PopStep x popIn myAddr k (comb fsm x latch popIn myAddr) := by
  refine ⟨⟨_, pushStep_comb hC hP x latch popIn myAddr⟩, fun fsm h => ⟨minDataPort x, ?_⟩⟩
  rcases h with rfl | rfl
  · exact popStep_comb hC hP x latch popIn myAddr
  · rw [comb_wb]
    exact popStep_comb hC hP x latch popIn myAddr

end Step

/-- Four slots of a two-bit counter, one bit of metadata and a two-bit priority; from the top,
`{2, 0, 1}`, `{0, 1, 2}`, `{0, 1, 1}` and `{1, 1, 3}`. -/
def fourSlots : Word .four ⟨2, 1, 2⟩ := BitVec.ofNat _ 0b10001_00110_00101_01111

/-- A push takes slot 1, the first of the two with counter 0, and a pop takes it too, the first
of the two with priority 1. -/
theorem node_step_bits_fourSlots :
    (1 ≤ 2 ∧ 1 ≤ 2) ∧
      (∃ k, PushStep fourSlots 0b100#3 (3#4) k (comb .push fourSlots 0b100#3 0b111#3 (3#4))) ∧
      ∀ fsm, fsm = .pop ∨ fsm = .wb →
        ∃ k, PopStep fourSlots 0b111#3 (3#4) k (comb fsm fourSlots 0b100#3 0b111#3 (3#4)) :=
  ⟨⟨by decide, by decide⟩, node_step_bits (W := ⟨2, 1, 2⟩) (by decide) (by decide) fourSlots
    0b100#3 0b111#3 (3#4)⟩

example : (comb .push fourSlots 0b100#3 0b111#3 (3#4)).wdata =
    BitVec.ofNat _ 0b10001_00110_01100_01111 := by decide

/-! ## The slots of `Node` -/

/-- A value as `Node` has it. -/
def decodeVal (v : ValWord W) : Val W := ⟨metadata v, priority v⟩

/-- A word as `Node` has it. -/
def decode (x : Word o W) : Node o W := fun k => ⟨counter x k, decodeVal (value x k)⟩

theorem decodeVal_zero : decodeVal (0 : ValWord W) = Val.zero := by
  simp [decodeVal, metadata, priority, Val.zero]

theorem decodeVal_ones : decodeVal (BitVec.allOnes _ : ValWord W) = Val.ones := by
  refine Val.ext (BitVec.eq_of_getLsbD_eq fun i hi => ?_) (BitVec.eq_of_getLsbD_eq fun i hi => ?_)
  · simp [decodeVal, metadata, Val.ones, hi, show W.PTW + i < W.MTW + W.PTW by omega]
  · simp [decodeVal, priority, Val.ones, hi, show i < W.MTW + W.PTW by omega]

theorem decode_zero : decode (0 : Word o W) = fun _ => ⟨0, Val.zero⟩ := by
  funext k
  rw [← decodeVal_zero]
  simp [decode, counter, value]

theorem decode_setSlot (x : Word o W) (k : Fin o.D) (c : BitVec W.CTW) (v : ValWord W) :
    decode (setSlot x k c v) = Function.update (decode x) k ⟨c, decodeVal v⟩ := by
  funext j
  by_cases hj : j = k
  · subst hj
    simp [decode]
  · rw [Function.update_of_ne hj, decode, counter_eq_slot, value_eq_slot,
      slot_setSlot_of_ne x k c v hj, ← counter_eq_slot, ← value_eq_slot]
    rfl

section Decode

variable (hC : 1 ≤ W.CTW) (hP : 1 ≤ W.PTW) (x : Word o W) (latch popIn : ValWord W)
  (myAddr : BitVec ADW)

theorem minSubTree_decode (hC : 1 ≤ W.CTW) : VPifo.minSubTree (decode x) = minSubTree x :=
  (minSubTree_eq x hC).symm

theorem minDataPort_decode (hP : 1 ≤ W.PTW) : VPifo.minDataPort (decode x) = minDataPort x :=
  (minDataPort_eq x hP).symm

include hC hP

/-- The push of the block is `pushNode`. -/
theorem decode_comb_push :
    (decode (comb .push x latch popIn myAddr).wdata,
      if (comb .push x latch popIn myAddr).push then
        some (decodeVal (comb .push x latch popIn myAddr).pushData) else none) =
      pushNode (decode x) (decodeVal latch) := by
  rw [comb_push hC hP, pushNode, minSubTree_decode x hC]
  dsimp only
  rw [decode_setSlot]
  by_cases hempty : priority (value x (minSubTree x)) = BitVec.allOnes _
  · simp [decode, decodeVal, hempty]
  · by_cases hlt : priority latch < priority (value x (minSubTree x))
    · simp [decode, decodeVal, hempty, hlt]
    · simp [decode, decodeVal, hempty, hlt]

/-- The pop of the block is `popNode` and `popData`. -/
theorem decode_comb_pop :
    decode (comb .pop x latch popIn myAddr).wdata = popNode (decode x) (decodeVal popIn) ∧
      decodeVal (comb .pop x latch popIn myAddr).popData = popData (decode x) := by
  rw [comb_pop hC hP, popNode, popData, minDataPort_decode x hP]
  refine ⟨?_, rfl⟩
  by_cases hsize : counter x (minDataPort x) = 0
  · simp [decode, hsize]
  · simp only [ne_eq, hsize, not_false_eq_true, if_true]
    rw [decode_setSlot, if_pos (show (decode x (minDataPort x)).subTreeSize ≠ 0 from hsize)]
    rfl

/-- Nothing is sent down from a slot that was empty. -/
theorem pushData_of_not_push (h : (comb .push x latch popIn myAddr).push = false) :
    decodeVal (comb .push x latch popIn myAddr).pushData = Val.zero := by
  rw [comb_push hC hP] at h ⊢
  have hempty : priority (value x (minSubTree x)) = BitVec.allOnes _ := by simpa using h
  simp only [hempty, if_true]
  exact decodeVal_zero

theorem childAddr_comb_push : (comb .push x latch popIn myAddr).childAddr.toNat =
    pushChild (decode x) myAddr.toNat % 2 ^ ADW := by
  rw [comb_push hC hP, pushChild, minSubTree_decode x hC]
  exact BitVec.toNat_ofNat _ _

theorem childAddr_comb_pop : (comb .pop x latch popIn myAddr).childAddr.toNat =
    popChild (decode x) myAddr.toNat % 2 ^ ADW := by
  rw [comb_pop hC hP, popChild, minDataPort_decode x hP]
  exact BitVec.toNat_ofNat _ _

end Decode

/-! ## The block of a unit -/

open PifoSram

/-- What the block assigns is what the unit with registers `r` puts out. -/
structure Agrees (P : Params) (r : Regs P.toWidths) (w : Node P.order P.toWidths)
    (iPopData : Val P.toWidths) (c : Comb P.order P.toWidths P.adw) : Prop where
  push : c.push = PifoSram.push P r w
  pushData : decodeVal c.pushData = PifoSram.pushData P r w
  pop : c.pop = PifoSram.pop P r
  popData : decodeVal c.popData = oPopData P r w
  write : c.write = oWrite P r
  wdata : decode c.wdata = oWriteData P r w iPopData
  childAddr : c.childAddr.toNat = oChildAddr P r w

/-- **The block refines the unit**: on every word and in every state it assigns what the unit
of `PifoSramTop` puts out on the slots of that word. -/
theorem agrees_comb {P : Params} (hC : 1 ≤ P.CTW) (hP : 1 ≤ P.PTW) {r : Regs P.toWidths}
    {latch : ValWord P.toWidths} {myAddr : BitVec P.adw} (hlatch : decodeVal latch = r.ipushdLatch)
    (haddr : myAddr.toNat = r.myAddr) (x : Word P.order P.toWidths) (popIn : ValWord P.toWidths) :
    Agrees P r (decode x) (decodeVal popIn) (comb r.fsm x latch popIn myAddr) := by
  obtain ⟨fsm, ipushdLatch, a, l, t⟩ := r
  obtain rfl : decodeVal latch = ipushdLatch := hlatch
  obtain rfl : myAddr.toNat = a := haddr
  obtain ⟨hpop, hdata⟩ := decode_comb_pop hC hP x latch popIn myAddr
  cases fsm with
  | idle =>
    exact ⟨rfl, decodeVal_zero, rfl, decodeVal_ones, rfl, decode_zero, BitVec.toNat_allOnes⟩
  | push =>
    obtain ⟨hword, hsent⟩ := Prod.ext_iff.mp (decode_comb_push hC hP x latch popIn myAddr)
    refine ⟨?_, ?_, ?_, ?_, ?_, hword, childAddr_comb_push hC hP x latch popIn myAddr⟩
    · rw [PifoSram.push, ← hsent]
      cases h : (comb .push x latch popIn myAddr).push <;> simp
    · rw [PifoSram.pushData, ← hsent]
      cases h : (comb .push x latch popIn myAddr).push with
      | false => exact pushData_of_not_push hC hP x latch popIn myAddr h
      | true => rfl
    · exact congrArg Comb.pop (comb_push hC hP x latch popIn myAddr)
    · exact (congrArg (decodeVal ∘ Comb.popData) (comb_push hC hP x latch popIn myAddr)).trans
        decodeVal_ones
    · exact congrArg Comb.write (comb_push hC hP x latch popIn myAddr)
  | pop =>
    exact ⟨rfl, decodeVal_zero, rfl, hdata, rfl, hpop,
      childAddr_comb_pop hC hP x latch popIn myAddr⟩
  | wb =>
    exact ⟨rfl, decodeVal_zero, rfl, hdata, rfl, hpop,
      childAddr_comb_pop hC hP x latch popIn myAddr⟩

end VPifo.NodeWord
