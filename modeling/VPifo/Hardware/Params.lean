import Mathlib.Algebra.Order.Ring.Nat
import Mathlib.Data.Nat.Log

/-!
# Parameters and data of the PIFO engine

The engine exists four times under `hardware/`: `BMW_PIFO_SRAM_vPIFO` and its
`_2` copy hold nodes of two slots, `_4` nodes of four and `_8` nodes of eight, and
the arbiter of the first directory differs from the one the other three share.
`Order` and `Arbiter` name these choices and `Params` collects everything a
top-level instance fixes, so that one model covers all four directories.

## What is a bit vector and what is a number

A node word is `D` slots, each a counter (`CTW` bits) above a value, and a value
is metadata (`MTW` bits) above a priority (`PTW` bits).  These fields are compared,
counted up and down and reset to all-ones, so they are bit vectors of their own
width.  Tree identifiers, levels, RPU indices and addresses are numbers; where the
source assigns one to a register it can overflow, the model takes the remainder
by the power of two of that register's width.

`FIFO_SIZE` is a power of two in every instance of the repository, and the FIFO's
pointers only wrap at its size when it is.  The model therefore takes
`FIFO_WIDTH = $clog2(FIFO_SIZE)` as the parameter.
-/

namespace VPifo

/-- The number of slots of a node: the three versions of `PIFO_SRAM`. -/
inductive Order where
  | two
  | four
  | eight
  deriving DecidableEq, Repr

namespace Order

/-- Slots per node. -/
def D : Order → ℕ
  | two => 2
  | four => 4
  | eight => 8

/-- Address bits a level adds to the one above it. -/
def bits : Order → ℕ
  | two => 1
  | four => 2
  | eight => 3

theorem D_eq (o : Order) : o.D = 2 ^ o.bits := by
  cases o <;> rfl

theorem two_le_D (o : Order) : 2 ≤ o.D := by
  cases o <;> decide

theorem D_le_eight (o : Order) : o.D ≤ 8 := by
  cases o <;> decide

theorem D_pos (o : Order) : 0 < o.D := by
  cases o <;> decide

instance (o : Order) : NeZero o.D := ⟨o.D_pos.ne'⟩

/-- `TREE_SIZE_BITS`, as each version declares it. -/
def treeSizeBits : Order → ℕ → ℕ
  | two, LEVEL => LEVEL
  | four, LEVEL => 2 * LEVEL - 1
  | eight, LEVEL => 3 * LEVEL - 2

/-- `ADW`, the address width inside one level, as each version declares it. -/
def adw : Order → ℕ → ℕ
  | two, LEVEL => LEVEL - 1
  | four, LEVEL => 2 * (LEVEL - 1)
  | eight, LEVEL => 3 * (LEVEL - 1)

theorem adw_eq (o : Order) (LEVEL : ℕ) : o.adw LEVEL = o.bits * (LEVEL - 1) := by
  cases o <;> simp [adw, bits]

theorem treeSizeBits_eq (o : Order) {LEVEL : ℕ} (hL : 1 ≤ LEVEL) :
    o.treeSizeBits LEVEL = o.bits * (LEVEL - 1) + 1 := by
  cases o <;> simp only [treeSizeBits, bits] <;> omega

/-- The children of a node are nodes of the next level. -/
theorem child_lt (o : Order) {l a k : ℕ} (ha : a < o.D ^ l) (hk : k < o.D) :
    o.D * a + k < o.D ^ (l + 1) := by
  calc o.D * a + k < o.D * a + o.D := by omega
    _ = o.D * (a + 1) := by rw [Nat.mul_succ]
    _ ≤ o.D * o.D ^ l := Nat.mul_le_mul_left _ ha
    _ = o.D ^ (l + 1) := by rw [Nat.pow_succ, Nat.mul_comm]

theorem D_pow (o : Order) (l : ℕ) : o.D ^ l = 2 ^ (o.bits * l) := by
  rw [o.D_eq, ← Nat.pow_mul]

end Order

/-- The two versions of `TaskDistribute`. -/
inductive Arbiter where
  /-- `BMW_PIFO_SRAM_vPIFO/TaskDistribute.sv`, whose ring is broken at RPU 0. -/
  | vPIFO
  /-- The version shared by `_2`, `_4` and `_8`, whose ring is broken at RPU 1. -/
  | vPIFO2
  deriving DecidableEq, Repr

/-- Field widths of a slot. -/
structure Widths where
  /-- Width of the priority. -/
  PTW : ℕ
  /-- Width of the metadata. -/
  MTW : ℕ
  /-- Width of the sub-tree counter. -/
  CTW : ℕ

/-- A value of the queue: `{metadata, priority}`. -/
@[ext] structure Val (W : Widths) where
  metadata : BitVec W.MTW
  priority : BitVec W.PTW
  deriving DecidableEq

namespace Val

variable {W : Widths}

/-- `{(MTW+PTW){1'b1}}`, the value of an empty slot. -/
def ones : Val W := ⟨BitVec.allOnes _, BitVec.allOnes _⟩

/-- `'d0`. -/
def zero : Val W := ⟨0, 0⟩

/-- A value whose priority is all-ones stands for nothing. -/
def IsEmpty (v : Val W) : Prop := v.priority = BitVec.allOnes _

instance (v : Val W) : Decidable v.IsEmpty :=
  inferInstanceAs (Decidable (v.priority = BitVec.allOnes _))

theorem isEmpty_ones : (ones : Val W).IsEmpty := rfl

end Val

/-- One slot of a node word: `{sub_tree_size, pifo_val}`. -/
@[ext] structure Slot (W : Widths) where
  subTreeSize : BitVec W.CTW
  pifoVal : Val W
  deriving DecidableEq

/-- A node word, slot by slot. -/
abbrev Node (o : Order) (W : Widths) := Fin o.D → Slot W

/-- `INIT_VALUE`: every counter zero, every value all-ones. -/
def initValue (o : Order) (W : Widths) : Node o W := fun _ => ⟨0, Val.ones⟩

/-- States of a unit, `ST_IDLE`, `ST_PUSH`, `ST_POP` and `ST_WB`. -/
inductive Fsm where
  | idle
  | push
  | pop
  | wb
  deriving DecidableEq, Repr

/-- The parameters of one `PIFO_SRAM_TOP`. -/
structure Params extends Widths where
  order : Order
  arbiter : Arbiter
  /-- Levels of a tree; also the number of RPUs and of SRAMs. -/
  LEVEL : ℕ
  /-- Number of trees. -/
  TREE_NUM : ℕ
  /-- `$clog2(FIFO_SIZE)`. -/
  FIFO_WIDTH : ℕ
  two_le_LEVEL : 2 ≤ LEVEL
  two_le_TREE_NUM : 2 ≤ TREE_NUM
  one_le_FIFO_WIDTH : 1 ≤ FIFO_WIDTH

namespace Params

variable (P : Params)

/-- `LEVEL_BITS`. -/
def levelBits : ℕ := Nat.clog 2 P.LEVEL

/-- `TREE_NUM_BITS`. -/
def treeNumBits : ℕ := Nat.clog 2 P.TREE_NUM

/-- `TREE_SIZE_BITS`. -/
def treeSizeBits : ℕ := P.order.treeSizeBits P.LEVEL

/-- `SRAM_ADW_HI_BITS = $clog2(TREE_NUM+LEVEL-1/LEVEL)`, with the source's own
precedence: the division comes first. -/
def sramAdwHiBits : ℕ := Nat.clog 2 (P.TREE_NUM + P.LEVEL - 1 / P.LEVEL)

/-- `SRAM_ADW`. -/
def sramAdw : ℕ := P.sramAdwHiBits + P.treeSizeBits

/-- `ADW`. -/
def adw : ℕ := P.order.adw P.LEVEL

/-- `TREE_SIZE = {TREE_SIZE_BITS{1'b1}}`. -/
def treeSize : ℕ := 2 ^ P.treeSizeBits - 1

/-- `FIFO_SIZE`. -/
def fifoSize : ℕ := 2 ^ P.FIFO_WIDTH

/-- What `TASK_GENERATOR` declares, the metadata as wide as a tree identifier. -/
def defaults : Params where
  PTW := 16
  MTW := 2
  CTW := 10
  order := .two
  arbiter := .vPIFO
  LEVEL := 4
  TREE_NUM := 4
  FIFO_WIDTH := 3
  two_le_LEVEL := by decide
  two_le_TREE_NUM := by decide
  one_le_FIFO_WIDTH := by decide

theorem LEVEL_pos : 0 < P.LEVEL := lt_of_lt_of_le Nat.zero_lt_two P.two_le_LEVEL

theorem LEVEL_le_two_pow : P.LEVEL ≤ 2 ^ P.levelBits := Nat.le_pow_clog Nat.one_lt_two _

end Params

end VPifo
