import VPifo.Compiler.SramLayout
import VPifo.Hardware.Dispatch

/-!
# The compiler's table and the engine's addresses

The data placement script runs an allocation loop; the engine computes an address from
the tree identifier and the level, with a division, a remainder and an OR of one-hot
sizes.  Both are the rotated layout of `VPifo.Cyclic`: the loop because every tree of full
height puts one level into every SRAM, the closed form because a group of `LEVEL` trees
fills `TREE_SIZE` words of every SRAM when the nodes have two slots.
-/

namespace VPifo.GenSramLayout

open Cyclic PifoSram PifoSramTop

/-- For nodes of two slots one tree takes exactly `TREE_SIZE` words. -/
theorem sum_levels_eq_treeSize {P : Params} (horder : P.order = .two) :
    ∑ l ∈ Finset.range P.LEVEL, DEGREE ^ l = P.treeSize := by
  have hgeom := Nat.geomSum_eq (m := DEGREE) le_rfl P.LEVEL
  rw [hgeom, DEGREE, Nat.div_one, Params.treeSize, Params.treeSizeBits, horder]
  rfl

/-- The start address of the rotated packing is the engine's offset. -/
theorem start_eq_readOffset {P : Params} (horder : P.order = .two) {t i : ℕ}
    (ht : t < P.TREE_NUM) (hi : i < P.LEVEL) :
    start P.LEVEL (fun l => DEGREE ^ l) (bank P t i) t = readOffset P t i := by
  have hbits : (fun l => 2 ^ (P.order.bits * l)) = fun l => DEGREE ^ l := by
    funext l
    rw [horder, Order.bits, Nat.one_mul, DEGREE]
  rw [readOffset, offset_eq (lt_two_pow_treeNumBits ht) hi, lo_eq_start, hbits,
    start_period (s := bank P t i) _ (Nat.mod_lt _ P.LEVEL_pos), sum_levels_eq_treeSize horder]

/-- **The generated table and the engine describe one placement.**  For nodes of two
slots and trees `0 … n-1` of full height, in whatever order the file lists them, the
script assigns to level `i` of tree `t` the SRAM `(t + i) % LEVEL` and the offset the
engine reads and writes with; and in every legal run of the engine the unit that works on
level `i` of tree `t` is the one of that SRAM. -/
theorem layout_eq_hardware (P : Params) (horder : P.order = .two) (n : ℕ)
    (hn : n ≤ P.TREE_NUM) (treeData : List TreeData)
    (hfile : treeData.Perm (uniformTrees n P.LEVEL)) :
    (∀ t < n, ∀ i < P.LEVEL,
      (genLayout P.LEVEL treeData).startAddrDict (t, i) =
        some ((t + i) % P.LEVEL, readOffset P t i) ∧
      writeOffset P t i = readOffset P t i) ∧
    (∀ (pu : PowerUp P) (ins : ℕ → ℕ → Entry P.toWidths) (c : ℕ), Legal pu ins c →
      ∀ j < P.LEVEL, ((run pu ins c).pifo j).fsm ≠ .idle →
        (((run pu ins c).pifo j).curTreeId + ((run pu ins c).pifo j).curLevel) % P.LEVEL = j) := by
  refine ⟨fun t ht i hi => ⟨?_, rfl⟩, fun pu ins c hlegal j hj hf => hlegal.bank_eq hj hf⟩
  rw [genLayout_dict_uniform hfile ht hi]
  exact congrArg (fun x => some (_, x)) (start_eq_readOffset horder (lt_of_lt_of_le ht hn) hi)

/-- Four levels and five trees: one whole group and one tree of the next. -/
def fourLevels : Params where
  PTW := 4
  MTW := 3
  CTW := 5
  order := .two
  arbiter := .vPIFO
  LEVEL := 4
  TREE_NUM := 5
  FIFO_WIDTH := 2
  two_le_LEVEL := Params.defaults.two_le_LEVEL
  two_le_TREE_NUM := by decide
  one_le_FIFO_WIDTH := by decide

theorem layout_eq_hardware_five :
    (genLayout 4 [(4, 4), (3, 4), (2, 4), (1, 4), (0, 4)]).startAddrDict (3, 2) = some (1, 11) ∧
      (genLayout 4 [(4, 4), (3, 4), (2, 4), (1, 4), (0, 4)]).startAddrDict (4, 1) =
        some (1, 15) := by
  obtain ⟨htable, -⟩ := layout_eq_hardware fourLevels rfl 5 (by decide)
    [(4, 4), (3, 4), (2, 4), (1, 4), (0, 4)] (by decide)
  exact ⟨(htable 3 (by decide) 2 (by decide)).1.trans (by decide),
    (htable 4 (by decide) 1 (by decide)).1.trans (by decide)⟩

end VPifo.GenSramLayout
