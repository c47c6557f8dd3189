import VPifo.Hardware.Address
import VPifo.Hardware.Node
import VPifo.Hardware.TaskDistribute

/-!
# The engine

`PIFO_SRAM_TOP` closes a ring of `LEVEL` units.  Unit `i` takes its command from the
dispatcher if it announces one, and from unit `i - 1` otherwise; it reads and writes
SRAM `i`; and a pop in unit `i` takes the replacement from unit `i + 1`.

A unit is the sequential block of `PIFO_SRAM` (`PifoSram.Regs` and `PifoSram.Regs.step`)
and the combinational one, which is the node rule of `VPifo.Hardware.Node` on the word
the SRAM holds out.  The SRAM is `INFER_SDPRAM` in the mode the engine instantiates: a
read in the cycle of a write to the same word returns the new word, and without a
read enable the output stays as it was.

The registers that no reset reaches are part of the initial state: `PowerUp` is what
they happen to hold.  The SRAM words themselves start at `INIT_VALUE`.
-/

namespace VPifo

open Cyclic

namespace PifoSram

/-! ## One unit -/

/-- The registers of `PIFO_SRAM`. -/
@[ext] structure Regs (W : Widths) where
  fsm : Fsm
  ipushdLatch : Val W
  myAddr : ℕ
  curLevel : ℕ
  curTreeId : ℕ
  deriving DecidableEq

/-- What a unit is told in one cycle. -/
structure Command (W : Widths) where
  /-- `i_push`. -/
  iPush : Bool
  /-- `i_push_data`. -/
  iPushData : Val W
  /-- `i_pop`. -/
  iPop : Bool
  /-- `i_my_addr`. -/
  iMyAddr : ℕ
  /-- `i_tree_id`. -/
  iTreeId : ℕ
  /-- `i_level`. -/
  iLevel : ℕ

namespace Regs

variable {W : Widths}

/-- A unit that does nothing, which is also a unit after reset. -/
def idle : Regs W := ⟨.idle, Val.zero, 0, 0, 0⟩

/-- The `case` on `{i_push, i_pop}` that follows `ST_IDLE`, `ST_PUSH` and `ST_WB`. -/
def accept (x : Command W) : Regs W :=
  match x.iPush, x.iPop with
  | false, true => ⟨.pop, Val.zero, x.iMyAddr, x.iLevel, x.iTreeId⟩
  | true, false => ⟨.push, x.iPushData, x.iMyAddr, x.iLevel, x.iTreeId⟩
  | _, _ => idle

/-- One clock edge of a unit. -/
def step (r : Regs W) (x : Command W) : Regs W :=
  match r.fsm with
  | .pop => { r with fsm := .wb }
  | _ => accept x

end Regs

variable (P : Params) (r : Regs P.toWidths) (w : Node P.order P.toWidths)

/-- `push`, before it is gated by the level. -/
def push : Bool :=
  match r.fsm with
  | .push => (pushNode w r.ipushdLatch).2.isSome
  | _ => false

/-- `push_data`, which is also `o_push_data`. -/
def pushData : Val P.toWidths :=
  match r.fsm with
  | .push => (pushNode w r.ipushdLatch).2.getD Val.zero
  | _ => Val.zero

/-- `pop`, before it is gated by the level. -/
def pop : Bool :=
  match r.fsm with
  | .pop => true
  | .wb => true
  | _ => false

/-- `o_push`. -/
def oPush : Bool := if r.curLevel < P.LEVEL - 1 then push P r w else false

/-- `o_pop`. -/
def oPop : Bool := if r.curLevel < P.LEVEL - 1 then pop P r else false

/-- `o_pop_data`. -/
def oPopData : Val P.toWidths :=
  match r.fsm with
  | .pop => popData w
  | .wb => popData w
  | _ => Val.ones

/-- `o_child_addr`, in `ADW` bits. -/
def oChildAddr : ℕ :=
  match r.fsm with
  | .pop => popChild w r.myAddr % 2 ^ P.adw
  | .wb => popChild w r.myAddr % 2 ^ P.adw
  | .push => pushChild w r.myAddr % 2 ^ P.adw
  | .idle => 2 ^ P.adw - 1

/-- `o_level`. -/
def oLevel : ℕ := (r.curLevel + 1) % 2 ^ P.levelBits

/-- `o_is_level0_pop`. -/
def oIsLevel0Pop : Bool := decide (r.curLevel = 0) && decide (r.fsm = .pop)

/-- `o_write`. -/
def oWrite : Bool := decide (r.fsm ≠ .idle)

/-- `o_write_data`. -/
def oWriteData (iPopData : Val P.toWidths) : Node P.order P.toWidths :=
  match r.fsm with
  | .pop => popNode w iPopData
  | .wb => popNode w iPopData
  | .push => (pushNode w r.ipushdLatch).1
  | .idle => fun _ => ⟨0, Val.zero⟩

/-- `o_read`. -/
def oRead (x : Command P.toWidths) : Bool := (x.iPush || x.iPop) && decide (r.fsm ≠ .pop)

end PifoSram

/-! ## The SRAM -/

/-- `INFER_SDPRAM`: the words and the output register. -/
structure Sram (P : Params) where
  ram : ℕ → Node P.order P.toWidths
  rdata : Node P.order P.toWidths

/-- One clock edge with `ARCH = 0` and `RDW_MODE = 1`: the write comes first. -/
def Sram.step {P : Params} (m : Sram P) (we : Bool) (waddr : ℕ) (wdata : Node P.order P.toWidths)
    (re : Bool) (raddr : ℕ) : Sram P :=
  let ram := if we then Function.update m.ram waddr wdata else m.ram
  { ram := ram
    rdata := if re then ram raddr else m.rdata }

/-! ## The ring -/

/-- The registers of `PIFO_SRAM_TOP`. -/
structure PifoSramTop (P : Params) where
  fifo : ℕ → TaskFIFO P.toWidths
  td : TaskDistribute P.toWidths
  pifo : ℕ → PifoSram.Regs P.toWidths
  levelWb : ℕ → ℕ
  sram : ℕ → Sram P

/-- What the registers without a reset hold when the engine starts. -/
structure PowerUp (P : Params) where
  bufMem : ℕ → ℕ → Entry P.toWidths
  wrEnLast : ℕ → Bool
  rdata : ℕ → Node P.order P.toWidths

/-- Every unreset register holds zeros, and every SRAM shows an empty node. -/
def PowerUp.blank (P : Params) : PowerUp P where
  bufMem _ _ := Entry.zero
  wrEnLast _ := false
  rdata _ := initValue _ _

namespace PifoSramTop

variable {P : Params} (S : PifoSramTop P)

/-- `push_dn`. -/
def pushDn (i : ℕ) : Bool := PifoSram.oPush P (S.pifo i) (S.sram i).rdata

/-- `pop_dn`. -/
def popDn (i : ℕ) : Bool := PifoSram.oPop P (S.pifo i)

/-- `pop_data_up`, which is also `o_pop_data`. -/
def oPopData (i : ℕ) : Val P.toWidths := PifoSram.oPopData P (S.pifo i) (S.sram i).rdata

/-- `o_tree_id`. -/
def oTreeId (i : ℕ) : ℕ := (S.pifo i).curTreeId

/-- `o_is_level0_pop`. -/
def oIsLevel0Pop (i : ℕ) : Bool := PifoSram.oIsLevel0Pop P (S.pifo i)

/-- `o_task_fifo_full`. -/
def oTaskFifoFull (i : ℕ) : Bool := (S.fifo i).bufFull P.FIFO_WIDTH

/-- `pop_data_dn`: the replacement comes from the next unit, except on the last
level. -/
def popDataDn (i : ℕ) : Val P.toWidths :=
  if S.levelWb i = P.LEVEL - 1 then Val.ones else S.oPopData ((i + 1) % P.LEVEL)

/-- `level_up`. -/
def levelUp (i : ℕ) : ℕ :=
  if (S.td i).rpuPushNew || (S.td i).rpuPopNew then 0
  else PifoSram.oLevel P (S.pifo (prev P.LEVEL i))

/-- What unit `i` is told: the dispatcher goes before the unit in front. -/
def command (i : ℕ) : PifoSram.Command P.toWidths where
  iPush := if (S.td i).rpuPushNew then true else S.pushDn (prev P.LEVEL i)
  iPushData := if (S.td i).rpuPushNew then (S.td i).rpuPushData
    else PifoSram.pushData P (S.pifo (prev P.LEVEL i)) (S.sram (prev P.LEVEL i)).rdata
  iPop := if (S.td i).rpuPopNew then true else S.popDn (prev P.LEVEL i)
  iMyAddr := if (S.td i).rpuPushNew || (S.td i).rpuPopNew then 0
    else PifoSram.oChildAddr P (S.pifo (prev P.LEVEL i)) (S.sram (prev P.LEVEL i)).rdata
  iTreeId := if (S.td i).rpuPushNew || (S.td i).rpuPopNew then (S.td i).rpuTreeId
    else S.oTreeId (prev P.LEVEL i)
  iLevel := S.levelUp i

/-- What the dispatcher sees of the FIFOs. -/
def view : FifoView P.toWidths where
  data i := (S.fifo i).bufOut
  empty i := (S.fifo i).bufEmpty

/-- `pop_TaskFIFO`. -/
def popTaskFIFO (i : ℕ) : Bool := TaskDistribute.popTaskFIFO P S.td S.view i

/-- `push_TaskFIFO`; the word of port `i` is what is presented there. -/
def pushTaskFIFO (x : Entry P.toWidths) : Bool := x.pushBit || x.popBit

/-- SRAM `i` after the clock edge. -/
def sramNxt (i : ℕ) : Sram P :=
  let r := S.pifo i
  let x := S.command i
  (S.sram i).step (PifoSram.oWrite P r) (PifoSram.writeAddr P r.curTreeId r.curLevel r.myAddr)
    (PifoSram.oWriteData P r (S.sram i).rdata (S.popDataDn i)) (PifoSram.oRead P r x)
    (PifoSram.readAddr P x.iTreeId x.iLevel x.iMyAddr)

/-- One clock edge, with `x i` presented on port `i`. -/
def step (x : ℕ → Entry P.toWidths) : PifoSramTop P where
  fifo i := (S.fifo i).step P.FIFO_WIDTH (pushTaskFIFO (x i)) (S.popTaskFIFO i) (x i)
  td := TaskDistribute.step P S.td S.view
  pifo i := (S.pifo i).step (S.command i)
  levelWb i := S.levelUp i
  sram i := S.sramNxt i

/-- The engine after reset. -/
def reset (pu : PowerUp P) : PifoSramTop P where
  fifo i := TaskFIFO.reset (pu.bufMem i) (pu.wrEnLast i)
  td := TaskDistribute.reset
  pifo _ := PifoSram.Regs.idle
  levelWb _ := 0
  sram i := ⟨fun _ => initValue _ _, pu.rdata i⟩

/-- The state at the beginning of cycle `c`, when `ins c i` is presented on port `i` in
cycle `c`. -/
def run (pu : PowerUp P) (ins : ℕ → ℕ → Entry P.toWidths) : ℕ → PifoSramTop P
  | 0 => reset pu
  | c + 1 => (run pu ins c).step (ins c)

/-- No FIFO drops a word in this cycle. -/
def NoOverflow (x : ℕ → Entry P.toWidths) : Prop :=
  ∀ i < P.LEVEL, ¬(S.fifo i).Drops P.FIFO_WIDTH (pushTaskFIFO (x i)) (S.popTaskFIFO i)

instance (x : ℕ → Entry P.toWidths) : Decidable (S.NoOverflow x) :=
  inferInstanceAs (Decidable (∀ i < P.LEVEL, _))

end PifoSramTop

end VPifo
