import VPifo.Hardware.Params
import VPifo.Lib.BitSlices

/-!
# The arms of the node step, as they are spelled out

The combinational block of `PIFO_SRAM` works on the node word as it stands in the SRAM.  It
compares part-selects of the word, and in every arm of its two `case` statements it puts the
new word together from part-selects, with all bounds written out in terms of `CTW`, `MTW`
and `PTW` (`PIFO_SRAM.sv`, lines 273-372; lines 273-464 and 275-728 of the versions for
four and eight slots).  This file has these expressions one by one.

An arm of `min_sub_tree` is a `PushArm` and an arm of `min_data_port` a `PopArm`: the
part-selects it compares, and what it assigns in each of its branches.  `subTreeSize` and
`dataPriority` are what the two chains of comparisons look at; the text for a slot is the same
wherever it occurs, and the versions for two and four slots use the first two and four of them.

The result is that all arms are instances of two: `pushArm_eq` and `popArm_eq`.
-/

namespace VPifo.NodeWord

open BitSlices Bits

/-- An arm of `case (min_sub_tree)`. -/
structure PushArm where
  /-- `child_addr`, before it is cut to `ADW` bits. -/
  childAddr : ℕ
  /-- What is compared with `{PTW{1'b1}}`. -/
  occupied : Bits
  /-- What the priority of `ipushd_latch` is compared with. -/
  rank : Bits
  /-- `push_data` if the new value takes the slot. -/
  sent : Bits
  /-- `wdata` if the new value takes the slot of another one. -/
  taken : Bits
  /-- `wdata` if the slot keeps its value. -/
  kept : Bits
  /-- `wdata` if the slot was empty. -/
  filled : Bits

/-- An arm of `case (min_data_port)`. -/
structure PopArm where
  /-- `child_addr`, before it is cut to `ADW` bits. -/
  childAddr : ℕ
  /-- `pop_data`. -/
  popData : Bits
  /-- What is compared with 0. -/
  counter : Bits
  /-- `wdata` if it is not 0. -/
  replaced : Bits
  /-- `wdata` if it is 0. -/
  untouched : Bits

section Source

variable (CTW MTW PTW : ℕ)

/-- The arms of `case (min_data_port)` with two slots. -/
def popArmTwo (x iPopData : Bits) (myAddr : ℕ) : ℕ → PopArm
  | 0 =>
    { childAddr := 2 * myAddr + 0
      popData := x.sel ((MTW + PTW) - 1) 0
      counter := x.sel ((MTW + PTW + CTW) - 1) (MTW + PTW)
      replaced := cat [x.sel (2 * (CTW + MTW + PTW) - 1) (CTW + MTW + PTW),
        x.sel ((CTW + MTW + PTW) - 1) (MTW + PTW) - one CTW, iPopData]
      untouched := x.sel (2 * (CTW + MTW + PTW) - 1) 0 }
  | _ =>
    { childAddr := 2 * myAddr + 1
      popData := x.sel (2 * (MTW + PTW) + CTW - 1) (CTW + MTW + PTW)
      counter := x.sel (2 * (MTW + PTW + CTW) - 1) (2 * (MTW + PTW) + CTW)
      replaced := cat [x.sel (2 * (CTW + MTW + PTW) - 1) (2 * (MTW + PTW) + CTW) - one CTW,
        iPopData, x.sel ((MTW + PTW + CTW) - 1) 0]
      untouched := x.sel (2 * (CTW + MTW + PTW) - 1) 0 }

/-- The arms of `case (min_sub_tree)` with two slots. -/
def pushArmTwo (x latch : Bits) (myAddr : ℕ) : ℕ → PushArm
  | 0 =>
    { childAddr := 2 * myAddr
      occupied := x.sel (PTW - 1) 0
      rank := x.sel (PTW - 1) 0
      sent := x.sel ((MTW + PTW) - 1) 0
      taken := cat [x.sel (2 * (MTW + PTW + CTW) - 1) (MTW + PTW + CTW),
        x.sel ((MTW + PTW + CTW) - 1) (MTW + PTW) + one CTW, latch]
      kept := cat [x.sel (2 * (MTW + PTW + CTW) - 1) (MTW + PTW + CTW),
        x.sel ((MTW + PTW + CTW) - 1) (MTW + PTW) + one CTW, x.sel ((MTW + PTW) - 1) 0]
      filled := cat [x.sel (2 * (MTW + PTW + CTW) - 1) (MTW + PTW + CTW),
        x.sel ((MTW + PTW + CTW) - 1) (MTW + PTW) + one CTW, latch] }
  | _ =>
    { childAddr := 2 * myAddr + 1
      occupied := x.sel (2 * PTW + (MTW + CTW) - 1) (MTW + PTW + CTW)
      rank := x.sel (2 * PTW + MTW + CTW - 1) (MTW + PTW + CTW)
      sent := x.sel ((2 * (MTW + PTW) + CTW) - 1) (CTW + MTW + PTW)
      taken := cat [x.sel (2 * (CTW + MTW + PTW) - 1) (2 * (MTW + PTW) + CTW) + one CTW, latch,
        x.sel ((CTW + MTW + PTW) - 1) 0]
      kept := cat [x.sel (2 * (CTW + MTW + PTW) - 1) (2 * (MTW + PTW) + CTW) + one CTW,
        x.sel (2 * (MTW + PTW) + CTW - 1) 0]
      filled := cat [x.sel (2 * (CTW + MTW + PTW) - 1) (2 * (MTW + PTW) + CTW) + one CTW, latch,
        x.sel ((CTW + MTW + PTW) - 1) 0] }

/-- The arms of `case (min_data_port)` with four slots. -/
def popArmFour (x iPopData : Bits) (myAddr : ℕ) : ℕ → PopArm
  | 0 =>
    { childAddr := 4 * myAddr + 0
      popData := x.sel ((MTW + PTW) - 1) 0
      counter := x.sel ((MTW + PTW + CTW) - 1) (MTW + PTW)
      replaced := cat [x.sel (4 * (CTW + MTW + PTW) - 1) (CTW + MTW + PTW),
        x.sel ((CTW + MTW + PTW) - 1) (MTW + PTW) - one CTW, iPopData]
      untouched := x.sel (4 * (CTW + MTW + PTW) - 1) 0 }
  | 1 =>
    { childAddr := 4 * myAddr + 1
      popData := x.sel (2 * (MTW + PTW) + CTW - 1) (CTW + MTW + PTW)
      counter := x.sel (2 * (MTW + PTW + CTW) - 1) (2 * (MTW + PTW) + CTW)
      replaced := cat [x.sel (4 * (CTW + MTW + PTW) - 1) (2 * (CTW + MTW + PTW)),
        x.sel (2 * (CTW + MTW + PTW) - 1) (2 * (MTW + PTW) + CTW) - one CTW, iPopData,
        x.sel ((MTW + PTW + CTW) - 1) 0]
      untouched := x.sel (4 * (CTW + MTW + PTW) - 1) 0 }
  | 2 =>
    { childAddr := 4 * myAddr + 2
      popData := x.sel (3 * (MTW + PTW) + 2 * CTW - 1) (2 * (CTW + MTW + PTW))
      counter := x.sel (3 * (MTW + PTW + CTW) - 1) (3 * (MTW + PTW) + 2 * CTW)
      replaced := cat [x.sel (4 * (CTW + MTW + PTW) - 1) (3 * (CTW + MTW + PTW)),
        x.sel (3 * (CTW + MTW + PTW) - 1) (3 * (MTW + PTW) + 2 * CTW) - one CTW, iPopData,
        x.sel (2 * (MTW + PTW + CTW) - 1) 0]
      untouched := x.sel (4 * (CTW + MTW + PTW) - 1) 0 }
  | _ =>
    { childAddr := 4 * myAddr + 3
      popData := x.sel (4 * (MTW + PTW) + 3 * CTW - 1) (3 * (CTW + MTW + PTW))
      counter := x.sel (4 * (MTW + PTW + CTW) - 1) (4 * (MTW + PTW) + 3 * CTW)
      replaced := cat [x.sel (4 * (CTW + MTW + PTW) - 1) (4 * (MTW + PTW) + 3 * CTW) - one CTW,
        iPopData, x.sel (3 * (MTW + PTW + CTW) - 1) 0]
      untouched := x.sel (4 * (CTW + MTW + PTW) - 1) 0 }

/-- The arms of `case (min_sub_tree)` with four slots. -/
def pushArmFour (x latch : Bits) (myAddr : ℕ) : ℕ → PushArm
  | 0 =>
    { childAddr := 4 * myAddr
      occupied := x.sel (PTW - 1) 0
      rank := x.sel (PTW - 1) 0
      sent := x.sel ((MTW + PTW) - 1) 0
      taken := cat [x.sel (4 * (MTW + PTW + CTW) - 1) (MTW + PTW + CTW),
        x.sel ((MTW + PTW + CTW) - 1) (MTW + PTW) + one CTW, latch]
      kept := cat [x.sel (4 * (MTW + PTW + CTW) - 1) (MTW + PTW + CTW),
        x.sel ((MTW + PTW + CTW) - 1) (MTW + PTW) + one CTW, x.sel ((MTW + PTW) - 1) 0]
      filled := cat [x.sel (4 * (MTW + PTW + CTW) - 1) (MTW + PTW + CTW),
        x.sel ((MTW + PTW + CTW) - 1) (MTW + PTW) + one CTW, latch] }
  | 1 =>
    { childAddr := 4 * myAddr + 1
      occupied := x.sel (2 * PTW + (MTW + CTW) - 1) (MTW + PTW + CTW)
      rank := x.sel (2 * PTW + MTW + CTW - 1) (MTW + PTW + CTW)
      sent := x.sel ((2 * (MTW + PTW) + CTW) - 1) (CTW + MTW + PTW)
      taken := cat [x.sel (4 * (CTW + MTW + PTW) - 1) (2 * (CTW + MTW + PTW)),
        x.sel (2 * (CTW + MTW + PTW) - 1) (2 * (MTW + PTW) + CTW) + one CTW, latch,
        x.sel ((CTW + MTW + PTW) - 1) 0]
      kept := cat [x.sel (4 * (CTW + MTW + PTW) - 1) (2 * (CTW + MTW + PTW)),
        x.sel (2 * (CTW + MTW + PTW) - 1) (2 * (MTW + PTW) + CTW) + one CTW,
        x.sel (2 * (MTW + PTW) + CTW - 1) 0]
      filled := cat [x.sel (4 * (CTW + MTW + PTW) - 1) (2 * (CTW + MTW + PTW)),
        x.sel (2 * (CTW + MTW + PTW) - 1) (2 * (MTW + PTW) + CTW) + one CTW, latch,
        x.sel ((CTW + MTW + PTW) - 1) 0] }
  | 2 =>
    { childAddr := 4 * myAddr + 2
      occupied := x.sel ((3 * PTW + 2 * (MTW + CTW)) - 1) (2 * (MTW + PTW + CTW))
      rank := x.sel ((3 * PTW + 2 * (MTW + CTW)) - 1) (2 * (MTW + PTW + CTW))
      sent := x.sel ((3 * (MTW + PTW) + 2 * CTW) - 1) (2 * (CTW + MTW + PTW))
      taken := cat [x.sel (4 * (CTW + MTW + PTW) - 1) (3 * (CTW + MTW + PTW)),
        x.sel (3 * (CTW + MTW + PTW) - 1) (3 * (MTW + PTW) + 2 * CTW) + one CTW, latch,
        x.sel (2 * (CTW + MTW + PTW) - 1) 0]
      kept := cat [x.sel (4 * (CTW + MTW + PTW) - 1) (3 * (CTW + MTW + PTW)),
        x.sel (3 * (CTW + MTW + PTW) - 1) (3 * (MTW + PTW) + 2 * CTW) + one CTW,
        x.sel (3 * (MTW + PTW) + 2 * CTW - 1) 0]
      filled := cat [x.sel (4 * (CTW + MTW + PTW) - 1) (3 * (CTW + MTW + PTW)),
        x.sel (3 * (CTW + MTW + PTW) - 1) (3 * (MTW + PTW) + 2 * CTW) + one CTW, latch,
        x.sel (2 * (CTW + MTW + PTW) - 1) 0] }
  | _ =>
    { childAddr := 4 * myAddr + 3
      occupied := x.sel ((4 * PTW + 3 * (MTW + CTW)) - 1) (3 * (MTW + PTW + CTW))
      rank := x.sel ((4 * PTW + 3 * (MTW + CTW)) - 1) (3 * (MTW + PTW + CTW))
      sent := x.sel ((4 * (MTW + PTW) + 3 * CTW) - 1) (3 * (CTW + MTW + PTW))
      taken := cat [x.sel (4 * (CTW + MTW + PTW) - 1) (4 * (MTW + PTW) + 3 * CTW) + one CTW,
        latch, x.sel (3 * (CTW + MTW + PTW) - 1) 0]
      kept := cat [x.sel (4 * (CTW + MTW + PTW) - 1) (4 * (MTW + PTW) + 3 * CTW) + one CTW,
        x.sel (4 * (MTW + PTW) + 3 * CTW - 1) 0]
      filled := cat [x.sel (4 * (CTW + MTW + PTW) - 1) (4 * (MTW + PTW) + 3 * CTW) + one CTW,
        latch, x.sel (3 * (CTW + MTW + PTW) - 1) 0] }

/-- The arms of `case (min_data_port)` with eight slots. -/
def popArmEight (x iPopData : Bits) (myAddr : ℕ) : ℕ → PopArm
  | 0 =>
    { childAddr := 8 * myAddr + 0
      popData := x.sel ((MTW + PTW) - 1) 0
      counter := x.sel ((MTW + PTW + CTW) - 1) (MTW + PTW)
      replaced := cat [x.sel (8 * (CTW + MTW + PTW) - 1) (CTW + MTW + PTW),
        x.sel ((CTW + MTW + PTW) - 1) (MTW + PTW) - one CTW, iPopData]
      untouched := x.sel (8 * (CTW + MTW + PTW) - 1) 0 }
  | 1 =>
    { childAddr := 8 * myAddr + 1
      popData := x.sel (2 * (MTW + PTW) + CTW - 1) (CTW + MTW + PTW)
      counter := x.sel (2 * (MTW + PTW + CTW) - 1) (2 * (MTW + PTW) + CTW)
      replaced := cat [x.sel (8 * (CTW + MTW + PTW) - 1) (2 * (CTW + MTW + PTW)),
        x.sel (2 * (CTW + MTW + PTW) - 1) (2 * (MTW + PTW) + CTW) - one CTW, iPopData,
        x.sel ((MTW + PTW + CTW) - 1) 0]
      untouched := x.sel (8 * (CTW + MTW + PTW) - 1) 0 }
  | 2 =>
    { childAddr := 8 * myAddr + 2
      popData := x.sel (3 * (PTW + MTW) + 2 * CTW - 1) (2 * ((PTW + MTW) + CTW))
      counter := x.sel (3 * ((PTW + MTW) + CTW) - 1) (3 * (PTW + MTW) + 2 * CTW)
      replaced := cat [x.sel (8 * ((PTW + MTW) + CTW) - 1) (3 * ((PTW + MTW) + CTW)),
        x.sel (3 * ((PTW + MTW) + CTW) - 1) (3 * (PTW + MTW) + 2 * CTW) - one CTW, iPopData,
        x.sel (2 * ((PTW + MTW) + CTW) - 1) 0]
      untouched := x.sel (8 * ((PTW + MTW) + CTW) - 1) 0 }
  | 3 =>
    { childAddr := 8 * myAddr + 3
      popData := x.sel (4 * (PTW + MTW) + 3 * CTW - 1) (3 * ((PTW + MTW) + CTW))
      counter := x.sel (4 * ((PTW + MTW) + CTW) - 1) (4 * (PTW + MTW) + 3 * CTW)
      replaced := cat [x.sel (8 * ((PTW + MTW) + CTW) - 1) (4 * ((PTW + MTW) + CTW)),
        x.sel (4 * ((PTW + MTW) + CTW) - 1) (4 * (PTW + MTW) + 3 * CTW) - one CTW, iPopData,
        x.sel (3 * ((PTW + MTW) + CTW) - 1) 0]
      untouched := x.sel (8 * ((PTW + MTW) + CTW) - 1) 0 }
  | 4 =>
    { childAddr := 8 * myAddr + 4
      popData := x.sel (5 * (PTW + MTW) + 4 * CTW - 1) (4 * ((PTW + MTW) + CTW))
      counter := x.sel (5 * ((PTW + MTW) + CTW) - 1) (5 * (PTW + MTW) + 4 * CTW)
      replaced := cat [x.sel (8 * ((PTW + MTW) + CTW) - 1) (5 * ((PTW + MTW) + CTW)),
        x.sel (5 * ((PTW + MTW) + CTW) - 1) (5 * (PTW + MTW) + 4 * CTW) - one CTW, iPopData,
        x.sel (4 * ((PTW + MTW) + CTW) - 1) 0]
      untouched := x.sel (8 * ((PTW + MTW) + CTW) - 1) 0 }
  | 5 =>
    { childAddr := 8 * myAddr + 5
      popData := x.sel (6 * (PTW + MTW) + 5 * CTW - 1) (5 * ((PTW + MTW) + CTW))
      counter := x.sel (6 * ((PTW + MTW) + CTW) - 1) (6 * (PTW + MTW) + 5 * CTW)
      replaced := cat [x.sel (8 * ((PTW + MTW) + CTW) - 1) (6 * ((PTW + MTW) + CTW)),
        x.sel (6 * ((PTW + MTW) + CTW) - 1) (6 * (PTW + MTW) + 5 * CTW) - one CTW, iPopData,
        x.sel (5 * ((PTW + MTW) + CTW) - 1) 0]
      untouched := x.sel (8 * ((PTW + MTW) + CTW) - 1) 0 }
  | 6 =>
    { childAddr := 8 * myAddr + 6
      popData := x.sel (7 * (PTW + MTW) + 6 * CTW - 1) (6 * ((PTW + MTW) + CTW))
      counter := x.sel (7 * ((PTW + MTW) + CTW) - 1) (7 * (PTW + MTW) + 6 * CTW)
      replaced := cat [x.sel (8 * ((PTW + MTW) + CTW) - 1) (7 * ((PTW + MTW) + CTW)),
        x.sel (7 * ((PTW + MTW) + CTW) - 1) (7 * (PTW + MTW) + 6 * CTW) - one CTW, iPopData,
        x.sel (6 * ((PTW + MTW) + CTW) - 1) 0]
      untouched := x.sel (8 * ((PTW + MTW) + CTW) - 1) 0 }
  | _ =>
    { childAddr := 8 * myAddr + 7
      popData := x.sel (8 * (PTW + MTW) + 7 * CTW - 1) (7 * (CTW + MTW + PTW))
      counter := x.sel (8 * (MTW + PTW + CTW) - 1) (8 * (MTW + PTW) + 7 * CTW)
      replaced := cat [x.sel (8 * (CTW + MTW + PTW) - 1) (8 * (MTW + PTW) + 7 * CTW) - one CTW,
        iPopData, x.sel (7 * (MTW + PTW + CTW) - 1) 0]
      untouched := x.sel (8 * (CTW + MTW + PTW) - 1) 0 }

/-- The arms of `case (min_sub_tree)` with eight slots. -/
def pushArmEight (x latch : Bits) (myAddr : ℕ) : ℕ → PushArm
  | 0 =>
    { childAddr := 8 * myAddr
      occupied := x.sel (PTW - 1) 0
      rank := x.sel (PTW - 1) 0
      sent := x.sel ((MTW + PTW) - 1) 0
      taken := cat [x.sel (8 * (MTW + PTW + CTW) - 1) (MTW + PTW + CTW),
        x.sel ((MTW + PTW + CTW) - 1) (MTW + PTW) + one CTW, latch]
      kept := cat [x.sel (8 * (MTW + PTW + CTW) - 1) (MTW + PTW + CTW),
        x.sel ((MTW + PTW + CTW) - 1) (MTW + PTW) + one CTW, x.sel ((MTW + PTW) - 1) 0]
      filled := cat [x.sel (8 * (MTW + PTW + CTW) - 1) (MTW + PTW + CTW),
        x.sel ((MTW + PTW + CTW) - 1) (MTW + PTW) + one CTW, latch] }
  | 1 =>
    { childAddr := 8 * myAddr + 1
      occupied := x.sel (2 * PTW + (MTW + CTW) - 1) (PTW + (CTW + MTW))
      rank := x.sel ((2 * PTW + (CTW + MTW)) - 1) (PTW + (CTW + MTW))
      sent := x.sel ((2 * (MTW + PTW) + CTW) - 1) (PTW + (CTW + MTW))
      taken := cat [x.sel (8 * (CTW + MTW + PTW) - 1) (2 * (CTW + MTW + PTW)),
        x.sel (2 * (CTW + MTW + PTW) - 1) (2 * (MTW + PTW) + CTW) + one CTW, latch,
        x.sel ((CTW + MTW + PTW) - 1) 0]
      kept := cat [x.sel (8 * (CTW + MTW + PTW) - 1) (2 * (CTW + MTW + PTW)),
        x.sel (2 * (CTW + MTW + PTW) - 1) (2 * (MTW + PTW) + CTW) + one CTW,
        x.sel (2 * (MTW + PTW) + CTW - 1) 0]
      filled := cat [x.sel (8 * (CTW + MTW + PTW) - 1) (2 * (CTW + MTW + PTW)),
        x.sel (2 * (CTW + MTW + PTW) - 1) (2 * (MTW + PTW) + CTW) + one CTW, latch,
        x.sel ((CTW + MTW + PTW) - 1) 0] }
  | 2 =>
    { childAddr := 8 * myAddr + 2
      occupied := x.sel ((3 * PTW + 2 * (MTW + CTW)) - 1) (2 * (MTW + PTW + CTW))
      rank := x.sel ((3 * PTW + 2 * (CTW + MTW)) - 1) (2 * (MTW + PTW + CTW))
      sent := x.sel ((3 * (MTW + PTW) + 2 * CTW) - 1) (2 * (MTW + PTW + CTW))
      taken := cat [x.sel (8 * (CTW + MTW + PTW) - 1) (3 * (CTW + MTW + PTW)),
        x.sel (3 * (CTW + MTW + PTW) - 1) (3 * (MTW + PTW) + 2 * CTW) + one CTW, latch,
        x.sel (2 * (CTW + MTW + PTW) - 1) 0]
      kept := cat [x.sel (8 * (CTW + MTW + PTW) - 1) (3 * (CTW + MTW + PTW)),
        x.sel (3 * (CTW + MTW + PTW) - 1) (3 * (MTW + PTW) + 2 * CTW) + one CTW,
        x.sel (3 * (MTW + PTW) + 2 * CTW - 1) 0]
      filled := cat [x.sel (8 * (CTW + MTW + PTW) - 1) (3 * (CTW + MTW + PTW)),
        x.sel (3 * (CTW + MTW + PTW) - 1) (3 * (MTW + PTW) + 2 * CTW) + one CTW, latch,
        x.sel (2 * (CTW + MTW + PTW) - 1) 0] }
  | 3 =>
    { childAddr := 8 * myAddr + 3
      occupied := x.sel ((4 * PTW + 3 * (MTW + CTW)) - 1) (3 * (MTW + PTW + CTW))
      rank := x.sel ((4 * PTW + 3 * (CTW + MTW)) - 1) (3 * (MTW + PTW + CTW))
      sent := x.sel ((4 * (MTW + PTW) + 3 * CTW) - 1) (3 * (MTW + PTW + CTW))
      taken := cat [x.sel (8 * (CTW + MTW + PTW) - 1) (4 * (CTW + MTW + PTW)),
        x.sel (4 * (CTW + MTW + PTW) - 1) (4 * (MTW + PTW) + 3 * CTW) + one CTW, latch,
        x.sel (3 * (CTW + MTW + PTW) - 1) 0]
      kept := cat [x.sel (8 * (CTW + MTW + PTW) - 1) (4 * (CTW + MTW + PTW)),
        x.sel (4 * (CTW + MTW + PTW) - 1) (4 * (MTW + PTW) + 3 * CTW) + one CTW,
        x.sel (4 * (MTW + PTW) + 3 * CTW - 1) 0]
      filled := cat [x.sel (8 * (CTW + MTW + PTW) - 1) (4 * (CTW + MTW + PTW)),
        x.sel (4 * (CTW + MTW + PTW) - 1) (4 * (MTW + PTW) + 3 * CTW) + one CTW, latch,
        x.sel (3 * (CTW + MTW + PTW) - 1) 0] }
  | 4 =>
    { childAddr := 8 * myAddr + 4
      occupied := x.sel ((5 * PTW + 4 * (MTW + CTW)) - 1) (4 * (MTW + PTW + CTW))
      rank := x.sel ((5 * PTW + 4 * (CTW + MTW)) - 1) (4 * (MTW + PTW + CTW))
      sent := x.sel ((5 * (MTW + PTW) + 4 * CTW) - 1) (4 * (MTW + PTW + CTW))
      taken := cat [x.sel (8 * (CTW + MTW + PTW) - 1) (5 * (CTW + MTW + PTW)),
        x.sel (5 * (CTW + MTW + PTW) - 1) (5 * (MTW + PTW) + 4 * CTW) + one CTW, latch,
        x.sel (4 * (CTW + MTW + PTW) - 1) 0]
      kept := cat [x.sel (8 * (CTW + MTW + PTW) - 1) (5 * (CTW + MTW + PTW)),
        x.sel (5 * (CTW + MTW + PTW) - 1) (5 * (MTW + PTW) + 4 * CTW) + one CTW,
        x.sel (5 * (MTW + PTW) + 4 * CTW - 1) 0]
      filled := cat [x.sel (8 * (CTW + MTW + PTW) - 1) (5 * (CTW + MTW + PTW)),
        x.sel (5 * (CTW + MTW + PTW) - 1) (5 * (MTW + PTW) + 4 * CTW) + one CTW, latch,
        x.sel (4 * (CTW + MTW + PTW) - 1) 0] }
  | 5 =>
    { childAddr := 8 * myAddr + 5
      occupied := x.sel ((6 * PTW + 5 * (MTW + CTW)) - 1) (5 * (MTW + PTW + CTW))
      rank := x.sel ((6 * PTW + 5 * (CTW + MTW)) - 1) (5 * (MTW + PTW + CTW))
      sent := x.sel ((6 * (MTW + PTW) + 5 * CTW) - 1) (5 * (MTW + PTW + CTW))
      taken := cat [x.sel (8 * (CTW + MTW + PTW) - 1) (6 * (CTW + MTW + PTW)),
        x.sel (6 * (CTW + MTW + PTW) - 1) (6 * (MTW + PTW) + 5 * CTW) + one CTW, latch,
        x.sel (5 * (CTW + MTW + PTW) - 1) 0]
      kept := cat [x.sel (8 * (CTW + MTW + PTW) - 1) (6 * (CTW + MTW + PTW)),
        x.sel (6 * (CTW + MTW + PTW) - 1) (6 * (MTW + PTW) + 5 * CTW) + one CTW,
        x.sel (6 * (MTW + PTW) + 5 * CTW - 1) 0]
      filled := cat [x.sel (8 * (CTW + MTW + PTW) - 1) (6 * (CTW + MTW + PTW)),
        x.sel (6 * (CTW + MTW + PTW) - 1) (6 * (MTW + PTW) + 5 * CTW) + one CTW, latch,
        x.sel (5 * (CTW + MTW + PTW) - 1) 0] }
  | 6 =>
    { childAddr := 8 * myAddr + 6
      occupied := x.sel ((7 * PTW + 6 * (MTW + CTW)) - 1) (6 * (MTW + PTW + CTW))
      rank := x.sel ((7 * PTW + 6 * (CTW + MTW)) - 1) (6 * (MTW + PTW + CTW))
      sent := x.sel ((7 * (MTW + PTW) + 6 * CTW) - 1) (6 * (MTW + PTW + CTW))
      taken := cat [x.sel (8 * (CTW + MTW + PTW) - 1) (7 * (CTW + MTW + PTW)),
        x.sel (7 * (CTW + MTW + PTW) - 1) (7 * (MTW + PTW) + 6 * CTW) + one CTW, latch,
        x.sel (6 * (CTW + MTW + PTW) - 1) 0]
      kept := cat [x.sel (8 * (CTW + MTW + PTW) - 1) (7 * (CTW + MTW + PTW)),
        x.sel (7 * (CTW + MTW + PTW) - 1) (7 * (MTW + PTW) + 6 * CTW) + one CTW,
        x.sel (7 * (MTW + PTW) + 6 * CTW - 1) 0]
      filled := cat [x.sel (8 * (CTW + MTW + PTW) - 1) (7 * (CTW + MTW + PTW)),
        x.sel (7 * (CTW + MTW + PTW) - 1) (7 * (MTW + PTW) + 6 * CTW) + one CTW, latch,
        x.sel (6 * (CTW + MTW + PTW) - 1) 0] }
  | _ =>
    { childAddr := 8 * myAddr + 7
      occupied := x.sel ((8 * PTW + 7 * (MTW + CTW)) - 1) (7 * (MTW + PTW + CTW))
      rank := x.sel ((8 * PTW + 7 * (MTW + CTW)) - 1) (7 * (MTW + PTW + CTW))
      sent := x.sel ((8 * (MTW + PTW) + 7 * CTW) - 1) (7 * (CTW + MTW + PTW))
      taken := cat [x.sel (8 * (CTW + MTW + PTW) - 1) (8 * (MTW + PTW) + 7 * CTW) + one CTW,
        latch, x.sel (7 * (CTW + MTW + PTW) - 1) 0]
      kept := cat [x.sel (8 * (CTW + MTW + PTW) - 1) (8 * (MTW + PTW) + 7 * CTW) + one CTW,
        x.sel (8 * (MTW + PTW) + 7 * CTW - 1) 0]
      filled := cat [x.sel (8 * (CTW + MTW + PTW) - 1) (8 * (MTW + PTW) + 7 * CTW) + one CTW,
        latch, x.sel (7 * (CTW + MTW + PTW) - 1) 0] }

/-- The sub-tree sizes that the chain of `min_sub_tree` compares. -/
def subTreeSize (x : Bits) : ℕ → Bits
  | 0 => x.sel ((CTW + MTW + PTW) - 1) (MTW + PTW)
  | 1 => x.sel (2 * (CTW + MTW + PTW) - 1) (2 * (MTW + PTW) + CTW)
  | 2 => x.sel (3 * (CTW + MTW + PTW) - 1) (3 * (MTW + PTW) + 2 * CTW)
  | 3 => x.sel (4 * (CTW + MTW + PTW) - 1) (4 * (MTW + PTW) + 3 * CTW)
  | 4 => x.sel (5 * (CTW + MTW + PTW) - 1) (5 * (MTW + PTW) + 4 * CTW)
  | 5 => x.sel (6 * (CTW + MTW + PTW) - 1) (6 * (MTW + PTW) + 5 * CTW)
  | 6 => x.sel (7 * (CTW + MTW + PTW) - 1) (7 * (MTW + PTW) + 6 * CTW)
  | _ => x.sel (8 * (CTW + MTW + PTW) - 1) (8 * (MTW + PTW) + 7 * CTW)

/-- The priorities that the chain of `min_data_port` compares. -/
def dataPriority (x : Bits) : ℕ → Bits
  | 0 => x.sel (PTW - 1) 0
  | 1 => x.sel (2 * PTW + (CTW + MTW) - 1) (CTW + MTW + PTW)
  | 2 => x.sel (3 * PTW + 2 * (CTW + MTW) - 1) (2 * (CTW + MTW + PTW))
  | 3 => x.sel (4 * PTW + 3 * (CTW + MTW) - 1) (3 * (CTW + MTW + PTW))
  | 4 => x.sel (5 * PTW + 4 * (CTW + MTW) - 1) (4 * (CTW + MTW + PTW))
  | 5 => x.sel (6 * PTW + 5 * (CTW + MTW) - 1) (5 * (CTW + MTW + PTW))
  | 6 => x.sel (7 * PTW + 6 * (CTW + MTW) - 1) (6 * (CTW + MTW + PTW))
  | _ => x.sel (8 * PTW + 7 * (CTW + MTW) - 1) (7 * (CTW + MTW + PTW))

/-- The arms of `case (min_sub_tree)`. -/
def pushArm (o : Order) (x latch : Bits) (myAddr k : ℕ) : PushArm :=
  match o with
  | .two => pushArmTwo CTW MTW PTW x latch myAddr k
  | .four => pushArmFour CTW MTW PTW x latch myAddr k
  | .eight => pushArmEight CTW MTW PTW x latch myAddr k

/-- The arms of `case (min_data_port)`. -/
def popArm (o : Order) (x iPopData : Bits) (myAddr k : ℕ) : PopArm :=
  match o with
  | .two => popArmTwo CTW MTW PTW x iPopData myAddr k
  | .four => popArmFour CTW MTW PTW x iPopData myAddr k
  | .eight => popArmEight CTW MTW PTW x iPopData myAddr k

/-! ## The rule behind the arms

Slot `k` begins at bit `k * (CTW + MTW + PTW)`: the value first, then the counter. -/

/-- The arm of slot `k` of `D` for a push. -/
def slotPush (D : ℕ) (x latch : Bits) (myAddr k : ℕ) : PushArm :=
  let base := k * (CTW + MTW + PTW)
  let size := x.field (base + (MTW + PTW)) CTW + one CTW
  { childAddr := D * myAddr + k
    occupied := x.field base PTW
    rank := x.field base PTW
    sent := x.field base (MTW + PTW)
    taken := x.put base (size.append latch)
    kept := x.put base (size.append (x.field base (MTW + PTW)))
    filled := x.put base (size.append latch) }

/-- The arm of slot `k` of `D` for a pop. -/
def slotPop (D : ℕ) (x iPopData : Bits) (myAddr k : ℕ) : PopArm :=
  let base := k * (CTW + MTW + PTW)
  { childAddr := D * myAddr + k
    popData := x.field base (MTW + PTW)
    counter := x.field (base + (MTW + PTW)) CTW
    replaced := x.put base ((x.field (base + (MTW + PTW)) CTW - one CTW).append iPopData)
    untouched := x }

end Source

variable {C M P D k a : ℕ} {x y : Bits}

section Positions

/-! ### One slot, by where it stands

The top slot has nothing above it and the bottom slot nothing below, so there are three
shapes of a concatenation. -/

variable {o₁ o₀ r₁ r₀ v₁ v₀ h l s t u n w : ℕ}

theorem pushArm_middle (hC : 1 ≤ C) (hy : y.width = M + P)
    (hb : (o₀ = k * (C + M + P) ∧ o₁ + 1 - o₀ = P) ∧ (r₀ = k * (C + M + P) ∧ r₁ + 1 - r₀ = P) ∧
      (v₀ = k * (C + M + P) ∧ v₁ + 1 - v₀ = M + P) ∧
      (h + 1 = x.width ∧ l = k * (C + M + P) + (C + (M + P)) ∧
        t = k * (C + M + P) + (M + P) ∧ s + 1 - t = C ∧ u + 1 = k * (C + M + P)) ∧
      n + 1 = k * (C + M + P) + (M + P) ∧ k * (C + M + P) + (M + P) + C ≤ x.width) :
    (⟨D * a + k, x.sel o₁ o₀, x.sel r₁ r₀, x.sel v₁ v₀,
      cat [x.sel h l, x.sel s t + one C, y, x.sel u 0],
      cat [x.sel h l, x.sel s t + one C, x.sel n 0],
      cat [x.sel h l, x.sel s t + one C, y, x.sel u 0]⟩ : PushArm) =
      slotPush C M P D x y a k := by
  obtain ⟨⟨ho, ho'⟩, ⟨hr, hr'⟩, ⟨hv, hv'⟩, hword, hn, hle⟩ := hb
  have hsize : (x.field (k * (C + M + P) + (M + P)) C + one C).width = C :=
    width_add_one rfl hC
  have htaken := cat_eq_put (f := (· + one C)) (congrArg₂ (· + ·) hsize hy) hword
  rw [slotPush, PushArm.mk.injEq]
  exact ⟨rfl, sel_eq_field ho ho', sel_eq_field hr hr', sel_eq_field hv hv', htaken,
    cat_eq_put_keep (f := (· + one C)) hsize (by omega), htaken⟩

theorem pushArm_bottom (hC : 1 ≤ C) (hy : y.width = M + P)
    (hb : (o₀ = 0 ∧ o₁ + 1 - o₀ = P) ∧ (r₀ = 0 ∧ r₁ + 1 - r₀ = P) ∧
      (v₀ = 0 ∧ v₁ + 1 - v₀ = M + P) ∧
      (h + 1 = x.width ∧ l = C + (M + P) ∧ t = M + P ∧ s + 1 - t = C) ∧ n + 1 = M + P) :
    (⟨D * a, x.sel o₁ o₀, x.sel r₁ r₀, x.sel v₁ v₀,
      cat [x.sel h l, x.sel s t + one C, y],
      cat [x.sel h l, x.sel s t + one C, x.sel n 0],
      cat [x.sel h l, x.sel s t + one C, y]⟩ : PushArm) = slotPush C M P D x y a 0 := by
  obtain ⟨⟨ho, ho'⟩, ⟨hr, hr'⟩, ⟨hv, hv'⟩, hword, hn⟩ := hb
  have hsize : (x.field (M + P) C + one C).width = C := width_add_one rfl hC
  have htaken := cat_eq_put_zero (f := (· + one C)) (congrArg₂ (· + ·) hsize hy) hword
  have hkept := cat_eq_put_zero (f := (· + one C)) (v := x.sel n 0)
    (congrArg₂ (· + ·) hsize hn) hword
  rw [slotPush, PushArm.mk.injEq, Nat.zero_mul, Nat.zero_add]
  exact ⟨rfl, sel_eq_field ho ho', sel_eq_field hr hr', sel_eq_field hv hv', htaken,
    hkept.trans (by rw [sel_eq_field rfl hn]), htaken⟩

theorem pushArm_top (hC : 1 ≤ C) (hy : y.width = M + P)
    (hb : (o₀ = k * (C + M + P) ∧ o₁ + 1 - o₀ = P) ∧ (r₀ = k * (C + M + P) ∧ r₁ + 1 - r₀ = P) ∧
      (v₀ = k * (C + M + P) ∧ v₁ + 1 - v₀ = M + P) ∧
      (k * (C + M + P) + (C + (M + P)) = x.width ∧ t = k * (C + M + P) + (M + P) ∧
        s + 1 - t = C ∧ u + 1 = k * (C + M + P)) ∧
      n + 1 = k * (C + M + P) + (M + P)) :
    (⟨D * a + k, x.sel o₁ o₀, x.sel r₁ r₀, x.sel v₁ v₀,
      cat [x.sel s t + one C, y, x.sel u 0], cat [x.sel s t + one C, x.sel n 0],
      cat [x.sel s t + one C, y, x.sel u 0]⟩ : PushArm) = slotPush C M P D x y a k := by
  obtain ⟨⟨ho, ho'⟩, ⟨hr, hr'⟩, ⟨hv, hv'⟩, hword, hn⟩ := hb
  have hsize : (x.field (k * (C + M + P) + (M + P)) C + one C).width = C :=
    width_add_one rfl hC
  have htaken := cat_eq_put_top (f := (· + one C)) (congrArg₂ (· + ·) hsize hy) hword
  rw [slotPush, PushArm.mk.injEq]
  exact ⟨rfl, sel_eq_field ho ho', sel_eq_field hr hr', sel_eq_field hv hv', htaken,
    cat_eq_put_keep_top (f := (· + one C)) hsize (by omega), htaken⟩

theorem popArm_middle (hC : 1 ≤ C) (hy : y.width = M + P)
    (hb : (v₀ = k * (C + M + P) ∧ v₁ + 1 - v₀ = M + P) ∧
      (r₀ = k * (C + M + P) + (M + P) ∧ r₁ + 1 - r₀ = C) ∧
      (h + 1 = x.width ∧ l = k * (C + M + P) + (C + (M + P)) ∧
        t = k * (C + M + P) + (M + P) ∧ s + 1 - t = C ∧ u + 1 = k * (C + M + P)) ∧
      w + 1 = x.width) :
    (⟨D * a + k, x.sel v₁ v₀, x.sel r₁ r₀, cat [x.sel h l, x.sel s t - one C, y, x.sel u 0],
      x.sel w 0⟩ : PopArm) = slotPop C M P D x y a k := by
  obtain ⟨⟨hv, hv'⟩, ⟨hr, hr'⟩, hword, hw⟩ := hb
  have hsize : (x.field (k * (C + M + P) + (M + P)) C - one C).width = C :=
    width_sub_one rfl hC
  rw [slotPop, PopArm.mk.injEq]
  exact ⟨rfl, sel_eq_field hv hv', sel_eq_field hr hr',
    cat_eq_put (f := (· - one C)) (congrArg₂ (· + ·) hsize hy) hword, sel_eq_self hw⟩

theorem popArm_bottom (hC : 1 ≤ C) (hy : y.width = M + P)
    (hb : (v₀ = 0 ∧ v₁ + 1 - v₀ = M + P) ∧ (r₀ = M + P ∧ r₁ + 1 - r₀ = C) ∧
      (h + 1 = x.width ∧ l = C + (M + P) ∧ t = M + P ∧ s + 1 - t = C) ∧ w + 1 = x.width) :
    (⟨D * a + 0, x.sel v₁ v₀, x.sel r₁ r₀, cat [x.sel h l, x.sel s t - one C, y],
      x.sel w 0⟩ : PopArm) = slotPop C M P D x y a 0 := by
  obtain ⟨⟨hv, hv'⟩, ⟨hr, hr'⟩, hword, hw⟩ := hb
  have hsize : (x.field (M + P) C - one C).width = C := width_sub_one rfl hC
  rw [slotPop, PopArm.mk.injEq, Nat.zero_mul, Nat.zero_add]
  exact ⟨rfl, sel_eq_field hv hv', sel_eq_field hr hr',
    cat_eq_put_zero (f := (· - one C)) (congrArg₂ (· + ·) hsize hy) hword, sel_eq_self hw⟩

theorem popArm_top (hC : 1 ≤ C) (hy : y.width = M + P)
    (hb : (v₀ = k * (C + M + P) ∧ v₁ + 1 - v₀ = M + P) ∧
      (r₀ = k * (C + M + P) + (M + P) ∧ r₁ + 1 - r₀ = C) ∧
      (k * (C + M + P) + (C + (M + P)) = x.width ∧ t = k * (C + M + P) + (M + P) ∧
        s + 1 - t = C ∧ u + 1 = k * (C + M + P)) ∧ w + 1 = x.width) :
    (⟨D * a + k, x.sel v₁ v₀, x.sel r₁ r₀, cat [x.sel s t - one C, y, x.sel u 0],
      x.sel w 0⟩ : PopArm) = slotPop C M P D x y a k := by
  obtain ⟨⟨hv, hv'⟩, ⟨hr, hr'⟩, hword, hw⟩ := hb
  have hsize : (x.field (k * (C + M + P) + (M + P)) C - one C).width = C :=
    width_sub_one rfl hC
  rw [slotPop, PopArm.mk.injEq]
  exact ⟨rfl, sel_eq_field hv hv', sel_eq_field hr hr',
    cat_eq_put_top (f := (· - one C)) (congrArg₂ (· + ·) hsize hy) hword, sel_eq_self hw⟩

end Positions

/-! ### All arms -/

variable (hC : 1 ≤ C) (hP : 1 ≤ P) (hy : y.width = M + P)

include hC hP hy

theorem pushArmTwo_eq (hx : x.width = 2 * (C + M + P)) (hk : k < 2) :
    pushArmTwo C M P x y a k = slotPush C M P 2 x y a k := by
  match k, hk with
  | 0, _ => exact pushArm_bottom hC hy (by omega)
  | 1, _ => exact pushArm_top hC hy (by omega)

theorem pushArmFour_eq (hx : x.width = 4 * (C + M + P)) (hk : k < 4) :
    pushArmFour C M P x y a k = slotPush C M P 4 x y a k := by
  match k, hk with
  | 0, _ => exact pushArm_bottom hC hy (by omega)
  | 1, _ | 2, _ => exact pushArm_middle hC hy (by omega)
  | 3, _ => exact pushArm_top hC hy (by omega)

theorem pushArmEight_eq (hx : x.width = 8 * (C + M + P)) (hk : k < 8) :
    pushArmEight C M P x y a k = slotPush C M P 8 x y a k := by
  match k, hk with
  | 0, _ => exact pushArm_bottom hC hy (by omega)
  | 1, _ | 2, _ | 3, _ | 4, _ | 5, _ | 6, _ => exact pushArm_middle hC hy (by omega)
  | 7, _ => exact pushArm_top hC hy (by omega)

/-- Every arm of `min_sub_tree`, in every version, is the arm of its slot. -/
theorem pushArm_eq {o : Order} (hx : x.width = o.D * (C + M + P)) (hk : k < o.D) :
    pushArm C M P o x y a k = slotPush C M P o.D x y a k := by
  cases o with
  | two => exact pushArmTwo_eq hC hP hy hx hk
  | four => exact pushArmFour_eq hC hP hy hx hk
  | eight => exact pushArmEight_eq hC hP hy hx hk

theorem popArmTwo_eq (hx : x.width = 2 * (C + M + P)) (hk : k < 2) :
    popArmTwo C M P x y a k = slotPop C M P 2 x y a k := by
  match k, hk with
  | 0, _ => exact popArm_bottom hC hy (by omega)
  | 1, _ => exact popArm_top hC hy (by omega)

theorem popArmFour_eq (hx : x.width = 4 * (C + M + P)) (hk : k < 4) :
    popArmFour C M P x y a k = slotPop C M P 4 x y a k := by
  match k, hk with
  | 0, _ => exact popArm_bottom hC hy (by omega)
  | 1, _ | 2, _ => exact popArm_middle hC hy (by omega)
  | 3, _ => exact popArm_top hC hy (by omega)

theorem popArmEight_eq (hx : x.width = 8 * (C + M + P)) (hk : k < 8) :
    popArmEight C M P x y a k = slotPop C M P 8 x y a k := by
  match k, hk with
  | 0, _ => exact popArm_bottom hC hy (by omega)
  | 1, _ | 2, _ | 3, _ | 4, _ | 5, _ | 6, _ => exact popArm_middle hC hy (by omega)
  | 7, _ => exact popArm_top hC hy (by omega)

/-- Every arm of `min_data_port`, in every version, is the arm of its slot. -/
theorem popArm_eq {o : Order} (hx : x.width = o.D * (C + M + P)) (hk : k < o.D) :
    popArm C M P o x y a k = slotPop C M P o.D x y a k := by
  cases o with
  | two => exact popArmTwo_eq hC hP hy hx hk
  | four => exact popArmFour_eq hC hP hy hx hk
  | eight => exact popArmEight_eq hC hP hy hx hk

omit hC hP hy

/-! ### What the two chains compare -/

theorem subTreeSize_eq (hC : 1 ≤ C) (hk : k < 8) :
    subTreeSize C M P x k = x.field (k * (C + M + P) + (M + P)) C := by
  match k, hk with
  | 0, _ | 1, _ | 2, _ | 3, _ | 4, _ | 5, _ | 6, _ | 7, _ =>
    exact sel_eq_field (by omega) (by omega)

theorem dataPriority_eq (hP : 1 ≤ P) (hk : k < 8) :
    dataPriority C M P x k = x.field (k * (C + M + P)) P := by
  match k, hk with
  | 0, _ | 1, _ | 2, _ | 3, _ | 4, _ | 5, _ | 6, _ | 7, _ =>
    exact sel_eq_field (by omega) (by omega)

end VPifo.NodeWord
