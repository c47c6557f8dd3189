import VPifo.Lib.CyclicLayout
import VPifo.Hardware.Params
import Mathlib.Algebra.Order.Ring.GeomSum

/-!
# Where a node lives

`PIFO_SRAM` computes the SRAM address of a node from the tree identifier, the
level and the index of the node inside its level (`PIFO_SRAM.sv`, lines 242-271).
The trees are taken in groups of `LEVEL`; a group is given `TREE_SIZE` words in
every SRAM, and inside the group the words of the earlier trees are skipped by an
OR of one-hot level sizes.

The definitions keep every truncation of the source: `hi`, `lo` and the offset are
registers of a fixed width.  What is proved is that none of the truncations ever
cuts anything off, that the address is in range, and that distinct nodes of
distinct trees never share a word: the placement is the rotated layout of
`VPifo.Cyclic`, with a group stride that is exact for nodes of two slots and padded
for four and eight.
-/

namespace VPifo.PifoSram

open Cyclic

variable (P : Params)

/-- `read_hi = i_tree_id / LEVEL` and `write_hi = cur_tree_id / LEVEL`. -/
def hi (treeId : ℕ) : ℕ := treeId / P.LEVEL % 2 ^ P.sramAdwHiBits

/-- The loop of the `always_comb` block, after `n` rounds. -/
def loLoop (treeId level : ℕ) : ℕ → ℕ
  | 0 => 0
  | n + 1 =>
    if n < treeId % P.LEVEL then
      ((1 <<< (P.order.bits * ((n + level + 1) % P.LEVEL))) ||| loLoop treeId level n) %
        2 ^ P.treeSizeBits
    else loLoop treeId level n

/-- `read_lo` and `write_lo`. -/
def lo (treeId level : ℕ) : ℕ := loLoop P treeId level (P.LEVEL - 1)

/-- `hi * TREE_SIZE + lo`, in `SRAM_ADW` bits. -/
def offset (treeId level : ℕ) : ℕ :=
  (hi P treeId * P.treeSize + lo P treeId level) % 2 ^ P.sramAdw

/-- `read_offset`, from the incoming task. -/
def readOffset (iTreeId iLevel : ℕ) : ℕ := offset P iTreeId iLevel

/-- `write_offset`, from the task the unit is working on. -/
def writeOffset (curTreeId curLevel : ℕ) : ℕ := offset P curTreeId curLevel

/-- `o_read_addr`. -/
def readAddr (iTreeId iLevel iMyAddr : ℕ) : ℕ :=
  (readOffset P iTreeId iLevel + iMyAddr) % 2 ^ P.sramAdw

/-- `o_write_addr`. -/
def writeAddr (curTreeId curLevel myAddr : ℕ) : ℕ :=
  (writeOffset P curTreeId curLevel + myAddr) % 2 ^ P.sramAdw

/-- The SRAM, and RPU, that holds level `level` of a tree. -/
def bank (treeId level : ℕ) : ℕ := (treeId + level) % P.LEVEL

/-- Node `a` of level `l` of tree `t` exists. -/
structure IsNode (t l a : ℕ) : Prop where
  tree : t < P.TREE_NUM
  level : l < P.LEVEL
  addr : a < P.order.D ^ l

/-- There is a word for node `a` of level `l` of the tree with identifier `t`.  Every
identifier that fits its wires has words, also one from `TREE_NUM` on. -/
structure HasWord (t l a : ℕ) : Prop where
  tree : t < 2 ^ P.treeNumBits
  level : l < P.LEVEL
  addr : a < P.order.D ^ l

theorem lt_two_pow_treeNumBits {P : Params} {t : ℕ} (ht : t < P.TREE_NUM) :
    t < 2 ^ P.treeNumBits :=
  lt_of_lt_of_le ht (Nat.le_pow_clog Nat.one_lt_two _)

theorem IsNode.hasWord {P : Params} {t l a : ℕ} (h : IsNode P t l a) : HasWord P t l a :=
  ⟨lt_two_pow_treeNumBits h.tree, h.level, h.addr⟩

variable {P} {t l a : ℕ}

/-! ## Nothing is cut off -/

theorem bits_pos (o : Order) : 0 < o.bits := by
  cases o <;> decide

theorem treeSizeBits_eq : P.treeSizeBits = P.order.bits * (P.LEVEL - 1) + 1 :=
  P.order.treeSizeBits_eq P.LEVEL_pos

/-- One level of every kind takes at most `TREE_SIZE` words. -/
theorem sum_levels_le_treeSize :
    ∑ l ∈ Finset.range P.LEVEL, 2 ^ (P.order.bits * l) ≤ P.treeSize := by
  obtain ⟨n, hn⟩ : ∃ n, P.LEVEL = n + 1 := ⟨P.LEVEL - 1, by have := P.LEVEL_pos; omega⟩
  have hgeom : ∑ l ∈ Finset.range n, P.order.D ^ l < P.order.D ^ n :=
    Nat.geomSum_lt P.order.two_le_D fun k hk => Finset.mem_range.mp hk
  have hsum : ∑ l ∈ Finset.range n, 2 ^ (P.order.bits * l) = ∑ l ∈ Finset.range n, P.order.D ^ l :=
    Finset.sum_congr rfl fun l _ => (P.order.D_pow l).symm
  have hpow : 2 ^ P.treeSizeBits = 2 * P.order.D ^ n := by
    rw [treeSizeBits_eq, hn, Nat.add_sub_cancel, Nat.pow_succ, P.order.D_pow, Nat.mul_comm]
  rw [hn, Finset.sum_range_succ, hsum, ← P.order.D_pow n, Params.treeSize, hpow]
  omega

theorem rotatedBits_lt (r level n : ℕ) :
    rotatedBits P.LEVEL P.order.bits r level n < 2 ^ P.treeSizeBits := by
  refine Nat.lt_pow_two_of_testBit _ fun p hp => ?_
  rw [← Bool.not_eq_true, testBit_rotatedBits]
  rintro ⟨i, -, -, rfl⟩
  have hmod := Nat.mod_lt (i + level + 1) P.LEVEL_pos
  have hle : P.order.bits * ((i + level + 1) % P.LEVEL) ≤ P.order.bits * (P.LEVEL - 1) :=
    Nat.mul_le_mul_left _ (by omega)
  rw [treeSizeBits_eq] at hp
  omega

/-- The loop never loses a bit to the width of `read_lo`. -/
theorem loLoop_eq (treeId level n : ℕ) :
    loLoop P treeId level n =
      rotatedBits P.LEVEL P.order.bits (treeId % P.LEVEL) level n := by
  induction n with
  | zero => rfl
  | succ n ih =>
    have hlt := rotatedBits_lt (P := P) (treeId % P.LEVEL) level (n + 1)
    unfold loLoop
    rw [rotatedBits] at hlt ⊢
    by_cases hn : n < treeId % P.LEVEL
    · rw [if_pos hn] at hlt
      rw [if_pos hn, if_pos hn, ih, Nat.mod_eq_of_lt hlt]
    · rw [if_neg hn, if_neg hn, ih]

/-- **The OR is the space of the earlier trees of the group.** -/
theorem lo_eq_start (treeId level : ℕ) :
    lo P treeId level =
      start P.LEVEL (fun l => 2 ^ (P.order.bits * l)) (bank P treeId level)
        (treeId % P.LEVEL) := by
  rw [lo, loLoop_eq, rotatedBits_eq_start (bits_pos _) P.LEVEL_pos, bank]

theorem sramAdwHiBits_eq : P.sramAdwHiBits = Nat.clog 2 (P.TREE_NUM + P.LEVEL) := by
  have hdiv : 1 / P.LEVEL = 0 := Nat.div_eq_of_lt P.two_le_LEVEL
  rw [Params.sramAdwHiBits, hdiv, Nat.sub_zero]

theorem group_lt (ht : t < 2 ^ P.treeNumBits) : t / P.LEVEL + 1 ≤ 2 ^ P.sramAdwHiBits := by
  rw [sramAdwHiBits_eq]
  refine le_trans ?_ (Nat.pow_le_pow_right Nat.two_pos
    (Nat.clog_mono_right 2 (Nat.le_add_right P.TREE_NUM P.LEVEL)))
  have hdiv := Nat.div_le_self t P.LEVEL
  rw [Params.treeNumBits] at ht
  omega

theorem hi_eq (ht : t < 2 ^ P.treeNumBits) : hi P t = t / P.LEVEL :=
  Nat.mod_eq_of_lt (group_lt ht)

/-- The words of a level end inside the group's space. -/
theorem lo_add_le (hl : l < P.LEVEL) : lo P t l + P.order.D ^ l ≤ P.treeSize := by
  have hbank : bank P t l < P.LEVEL := Nat.mod_lt _ P.LEVEL_pos
  have hstep := start_lt_of_lt (L := P.LEVEL) (fun l => 2 ^ (P.order.bits * l)) hl
    (Nat.mod_lt t P.LEVEL_pos)
  rw [Nat.mod_add_mod, start_group _ (Nat.mod_lt _ P.LEVEL_pos), ← P.order.D_pow] at hstep
  rw [lo_eq_start, bank]
  exact hstep.trans sum_levels_le_treeSize

theorem group_mul_le (ht : t < 2 ^ P.treeNumBits) :
    t / P.LEVEL * P.treeSize + P.treeSize < 2 ^ P.sramAdw := by
  have hgroup := group_lt ht
  have hsize : P.treeSize + 1 = 2 ^ P.treeSizeBits := by
    have := Nat.two_pow_pos P.treeSizeBits
    rw [Params.treeSize]
    omega
  calc t / P.LEVEL * P.treeSize + P.treeSize
      = (t / P.LEVEL + 1) * P.treeSize := by rw [Nat.succ_mul]
    _ ≤ 2 ^ P.sramAdwHiBits * P.treeSize := Nat.mul_le_mul_right _ hgroup
    _ < 2 ^ P.sramAdwHiBits * 2 ^ P.treeSizeBits := by
        refine Nat.mul_lt_mul_of_pos_left ?_ (Nat.two_pow_pos _)
        omega
    _ = 2 ^ P.sramAdw := by rw [Params.sramAdw, Nat.pow_add]

theorem offset_eq (ht : t < 2 ^ P.treeNumBits) (hl : l < P.LEVEL) :
    offset P t l = t / P.LEVEL * P.treeSize + lo P t l := by
  have hgroup := group_mul_le ht
  have hlo := lo_add_le (t := t) hl
  rw [offset, hi_eq ht, Nat.mod_eq_of_lt (by omega)]

theorem readAddr_eq (h : HasWord P t l a) :
    readAddr P t l a = t / P.LEVEL * P.treeSize + lo P t l + a := by
  have hgroup := group_mul_le h.tree
  have hlo := lo_add_le (t := t) h.level
  have ha := h.addr
  rw [readAddr, readOffset, offset_eq h.tree h.level, Nat.mod_eq_of_lt (by omega)]

/-- Reading and writing use one address. -/
theorem writeAddr_eq_readAddr (t l a : ℕ) : writeAddr P t l a = readAddr P t l a := rfl

theorem readAddr_lt (t l a : ℕ) : readAddr P t l a < 2 ^ P.sramAdw :=
  Nat.mod_lt _ (Nat.two_pow_pos _)

theorem two_pow_adw : 2 ^ P.adw = P.order.D ^ (P.LEVEL - 1) := by
  rw [Params.adw, P.order.adw_eq, P.order.D_pow]

/-- A node index fits the address width of a level. -/
theorem addr_lt_two_pow_adw (hl : l < P.LEVEL) (ha : a < P.order.D ^ l) : a < 2 ^ P.adw := by
  rw [two_pow_adw]
  exact lt_of_lt_of_le ha (Nat.pow_le_pow_right P.order.D_pos (by omega))

/-! ## Distinct nodes, distinct words -/

/-- In one SRAM, a tree with a smaller identifier lies before one with a larger
identifier. -/
theorem readAddr_lt_of_lt {t' l' a' : ℕ} (h : HasWord P t l a) (h' : HasWord P t' l' a')
    (hbank : bank P t l = bank P t' l') (htt : t < t') :
    readAddr P t l a < readAddr P t' l' a' := by
  have hlo := lo_add_le (t := t) h.level
  have ha := h.addr
  rw [readAddr_eq h, readAddr_eq h']
  rcases Nat.lt_or_ge (t / P.LEVEL) (t' / P.LEVEL) with hg | hg
  · -- an earlier group: the whole group of `t` ends where the next one starts
    have hmul : (t / P.LEVEL + 1) * P.treeSize ≤ t' / P.LEVEL * P.treeSize :=
      Nat.mul_le_mul_right _ hg
    rw [Nat.succ_mul] at hmul
    omega
  · -- the same group: the start of `t'` leaves room for the level of `t`
    have hge : t / P.LEVEL = t' / P.LEVEL := le_antisymm (Nat.div_le_div_right htt.le) hg
    have hmod : t % P.LEVEL < t' % P.LEVEL := by
      have h1 := Nat.div_add_mod t P.LEVEL
      have h2 := Nat.div_add_mod t' P.LEVEL
      rw [hge] at h1
      omega
    have hstep := start_lt_of_lt (L := P.LEVEL) (fun l => 2 ^ (P.order.bits * l)) h.level hmod
    rw [Nat.mod_add_mod, ← P.order.D_pow] at hstep
    have hb' : bank P t' l' = (t + l) % P.LEVEL := hbank.symm
    rw [lo_eq_start t l, lo_eq_start t' l', hb', bank, hge]
    omega

/-- **The placement is injective.** -/
theorem readAddr_injective {t' l' a' : ℕ} (h : HasWord P t l a) (h' : HasWord P t' l' a')
    (hbank : bank P t l = bank P t' l') (haddr : readAddr P t l a = readAddr P t' l' a') :
    t = t' ∧ l = l' ∧ a = a' := by
  rcases Nat.lt_trichotomy t t' with htt | rfl | htt
  · exact absurd haddr (readAddr_lt_of_lt h h' hbank htt).ne
  · have hll : l = l' := add_mod_left_cancel h.level h'.level hbank
    subst hll
    rw [readAddr_eq h, readAddr_eq h'] at haddr
    exact ⟨rfl, rfl, by omega⟩
  · exact absurd haddr (readAddr_lt_of_lt h' h hbank.symm htt).ne'

/-- **SRAM placement is injective and in range.**  For every order, every `LEVEL`
and every `TREE_NUM`, none of the truncations of the address computation of a node
takes effect and the address is below `2^SRAM_ADW`; distinct nodes have distinct
pairs of SRAM and address; and the index of a child fits `ADW` bits as long as the
node is not on the last level. -/
theorem sram_placement (P : Params) :
    (∀ t l a, IsNode P t l a →
      hi P t = t / P.LEVEL ∧
      lo P t l = rotatedBits P.LEVEL P.order.bits (t % P.LEVEL) l (P.LEVEL - 1) ∧
      offset P t l = hi P t * P.treeSize + lo P t l ∧
      readAddr P t l a = offset P t l + a ∧
      writeAddr P t l a = readAddr P t l a ∧
      readAddr P t l a < 2 ^ P.sramAdw ∧
      a < 2 ^ P.adw) ∧
    (∀ t l a t' l' a', IsNode P t l a → IsNode P t' l' a' →
      (bank P t l, readAddr P t l a) = (bank P t' l', readAddr P t' l' a') →
      (t, l, a) = (t', l', a')) ∧
    (∀ t l a k, IsNode P t l a → l < P.LEVEL - 1 → k < P.order.D →
      P.order.D * a + k < 2 ^ P.adw) := by
  refine ⟨fun t l a h => ?_, fun t l a t' l' a' h h' heq => ?_, fun t l a k h hl hk => ?_⟩
  · have hoff := offset_eq h.hasWord.tree h.level
    have haddr := readAddr_eq h.hasWord
    refine ⟨hi_eq h.hasWord.tree, loLoop_eq t l _, ?_, ?_, writeAddr_eq_readAddr t l a,
      readAddr_lt t l a, addr_lt_two_pow_adw h.level h.addr⟩
    · rw [hoff, hi_eq h.hasWord.tree]
    · rw [haddr, hoff]
  · obtain ⟨hbank, haddr⟩ := Prod.mk.inj heq
    obtain ⟨rfl, rfl, rfl⟩ := readAddr_injective h.hasWord h'.hasWord hbank haddr
    rfl
  · exact addr_lt_two_pow_adw (l := l + 1) (by omega) (P.order.child_lt h.addr hk)

end VPifo.PifoSram
