import VPifo.Hardware.Dispatch

/-!
# The two-level scheduler

`TASK_GENERATOR` drives the engine as a two-level hierarchy.  Tree 0 is the root and
holds tokens, the other trees hold packets.  A push goes to two ports in the same cycle:
the token, with the tree identifier in the upper bits of its metadata, to port 0 and the
packet to the port of its tree.  A pop goes to port 0 only; when the root answers it, in
whatever cycle that happens, the token it answers makes a pop for its tree in that very
cycle.

The module has no registers of its own: the ports of a cycle are a function of the
engine's state and of the inputs, `ports`, so a run of the scheduler is a run of the
engine (`run_eq_engine`).

Two of its comments are about the engine.  One says that the root's FIFO "will be full
first", which is why its flag is the only one that is exported; the other that "only one
`is_level0_pop` will be 1 per cycle", which is why the outputs of the trees are merged
without any arbitration.  Neither holds for every input; `VPifo.Hardware.Backlog` says for
which inputs they do.
-/

namespace VPifo

open Cyclic TaskDistribute

/-- Parameters of `TASK_GENERATOR`: the metadata has room for a tree identifier. -/
structure GenParams extends Params where
  treeNumBits_le_MTW : toParams.treeNumBits ≤ toParams.MTW

/-- The inputs of one cycle. -/
structure GenIn (P : GenParams) where
  iPush : Bool
  iPushTreeId : BitVec P.treeNumBits
  iPushPriority : BitVec P.PTW
  iPushData : Val P.toWidths
  iPop : Bool

namespace TaskGenerator

variable {P : GenParams}

/-- `{i_push_tree_id, {MTW-TREE_NUM_BITS{1'b0}}, i_push_priority}`. -/
def token (x : GenIn P) : Val P.toWidths :=
  ⟨BitVec.ofNat _ (x.iPushTreeId.toNat * 2 ^ (P.MTW - P.treeNumBits)), x.iPushPriority⟩

/-- The upper `TREE_NUM_BITS` bits of a value. -/
def tokenTree (v : Val P.toWidths) : ℕ := v.metadata.toNat / 2 ^ (P.MTW - P.treeNumBits)

/-- `pop_tree_id`. -/
def popTreeId (S : PifoSramTop P.toParams) : ℕ :=
  if S.oIsLevel0Pop 0 then tokenTree (S.oPopData 0) else 0

/-- `push_rpu_id`. -/
def pushRpuId (x : GenIn P) : ℕ := x.iPushTreeId.toNat % P.LEVEL

/-- `pop_rpu_id`. -/
def popRpuId (S : PifoSramTop P.toParams) : ℕ := popTreeId S % P.LEVEL

/-- What is presented on the ports of the engine. -/
def ports (S : PifoSramTop P.toParams) (x : GenIn P) : ℕ → Entry P.toWidths
  | 0 => ⟨x.iPush, x.iPop, 0, 0, if x.iPush then token x else Val.ones⟩
  | i + 1 =>
    { pushBit := if i + 1 = pushRpuId x then x.iPush else false
      popBit := decide (i + 1 = popRpuId S)
      pushTreeId := if i + 1 = pushRpuId x then x.iPushTreeId.toNat else 0
      popTreeId := if i + 1 = popRpuId S then popTreeId S else 0
      pushData := if i + 1 = pushRpuId x ∧ x.iPush = true then x.iPushData else Val.ones }

/-- `o_pop_out`, `o_pop_tree_id` and `o_pop_data`. -/
structure GenOut (W : Widths) where
  oPopOut : Bool
  oPopTreeId : ℕ
  oPopData : Val W
  deriving DecidableEq

/-- The loop of the output multiplexer, after `n` rounds; a later RPU overwrites an
earlier one. -/
def outLoop (S : PifoSramTop P.toParams) : ℕ → GenOut P.toWidths
  | 0 => ⟨false, 0, Val.ones⟩
  | n + 1 => if S.oIsLevel0Pop (n + 1) then ⟨true, S.oTreeId (n + 1), S.oPopData (n + 1)⟩
      else outLoop S n

/-- The outputs of a cycle. -/
def out (S : PifoSramTop P.toParams) : GenOut P.toWidths := outLoop S (P.LEVEL - 1)

/-- `o_task_fifo_full`. -/
def oTaskFifoFull (S : PifoSramTop P.toParams) : Bool := S.oTaskFifoFull 0

/-- The state at the beginning of cycle `c`. -/
def run (pu : PowerUp P.toParams) (xs : ℕ → GenIn P) : ℕ → PifoSramTop P.toParams
  | 0 => PifoSramTop.reset pu
  | c + 1 => (run pu xs c).step (ports (run pu xs c) (xs c))

/-- What the engine is presented with in a run of the scheduler. -/
def engineIns (pu : PowerUp P.toParams) (xs : ℕ → GenIn P) (c : ℕ) : ℕ → Entry P.toWidths :=
  ports (run pu xs c) (xs c)

/-- A run of the scheduler is a run of the engine. -/
theorem run_eq_engine (pu : PowerUp P.toParams) (xs : ℕ → GenIn P) (c : ℕ) :
    run pu xs c = PifoSramTop.run pu (engineIns pu xs) c := by
  induction c with
  | zero => rfl
  | succ c ih =>
    rw [PifoSramTop.run, ← ih]
    rfl

/-! ## Ports -/

section Ports

variable (S : PifoSramTop P.toParams) (x : GenIn P) {i : ℕ}

theorem ports_pushBit (h0 : i ≠ 0) :
    (ports S x i).pushBit = true ↔ i = pushRpuId x ∧ x.iPush = true := by
  obtain ⟨i, rfl⟩ := Nat.exists_eq_succ_of_ne_zero h0
  rw [ports]
  by_cases h : i + 1 = pushRpuId x <;> simp [h]

theorem ports_popBit (h0 : i ≠ 0) : (ports S x i).popBit = true ↔ i = popRpuId S := by
  obtain ⟨i, rfl⟩ := Nat.exists_eq_succ_of_ne_zero h0
  rw [ports]
  exact decide_eq_true_iff

/-- The push a port carries is the push of the cycle. -/
theorem ports_push (h0 : i ≠ 0) (hbit : (ports S x i).pushBit = true) :
    (ports S x i).pushTreeId = x.iPushTreeId.toNat ∧ (ports S x i).pushData = x.iPushData := by
  obtain ⟨hport, hpush⟩ := (ports_pushBit S x h0).mp hbit
  obtain ⟨i, rfl⟩ := Nat.exists_eq_succ_of_ne_zero h0
  simp only [ports]
  exact ⟨if_pos hport, if_pos ⟨hport, hpush⟩⟩

/-- The pop a port carries is the pop of the token. -/
theorem ports_pop (h0 : i ≠ 0) (hbit : (ports S x i).popBit = true) :
    (ports S x i).popTreeId = popTreeId S := by
  have hport := (ports_popBit S x h0).mp hbit
  obtain ⟨i, rfl⟩ := Nat.exists_eq_succ_of_ne_zero h0
  exact if_pos hport

end Ports

/-! ## Tokens -/

/-- The metadata of a token is its tree, in the upper bits. -/
theorem token_metadata (x : GenIn P) :
    (token x).metadata.toNat = x.iPushTreeId.toNat * 2 ^ (P.MTW - P.treeNumBits) := by
  have hlt : x.iPushTreeId.toNat * 2 ^ (P.MTW - P.treeNumBits) < 2 ^ P.MTW := by
    calc x.iPushTreeId.toNat * 2 ^ (P.MTW - P.treeNumBits)
        < 2 ^ P.treeNumBits * 2 ^ (P.MTW - P.treeNumBits) :=
          Nat.mul_lt_mul_of_pos_right x.iPushTreeId.isLt (Nat.two_pow_pos _)
      _ = 2 ^ P.MTW := by rw [← Nat.pow_add, Nat.add_sub_cancel' P.treeNumBits_le_MTW]
  rw [token, BitVec.toNat_ofNat, Nat.mod_eq_of_lt hlt]

/-- A token names the tree it was pushed for. -/
theorem tokenTree_token (x : GenIn P) : tokenTree (token x) = x.iPushTreeId.toNat := by
  rw [tokenTree, token_metadata, Nat.mul_div_cancel _ (Nat.two_pow_pos _)]

theorem tokenTree_lt (v : Val P.toWidths) : tokenTree v < 2 ^ P.treeNumBits := by
  rw [tokenTree, Nat.div_lt_iff_lt_mul (Nat.two_pow_pos _), ← Nat.pow_add,
    Nat.add_sub_cancel' P.treeNumBits_le_MTW]
  exact v.metadata.isLt

theorem popTreeId_lt (S : PifoSramTop P.toParams) : popTreeId S < 2 ^ P.treeNumBits := by
  rw [popTreeId]
  split
  · exact tokenTree_lt _
  · exact Nat.two_pow_pos _

/-! ## The merged outputs -/

/-- At most one tree other than the root shows a pop. -/
def OneSubPop (S : PifoSramTop P.toParams) : Prop :=
  ∀ i < P.LEVEL, ∀ j < P.LEVEL, i ≠ 0 → j ≠ 0 → S.oIsLevel0Pop i = true →
    S.oIsLevel0Pop j = true → i = j

/-- At most one RPU other than the root's is granted a pop. -/
def OneSubGrant (S : PifoSramTop P.toParams) : Prop :=
  ∀ i < P.LEVEL, ∀ j < P.LEVEL, i ≠ 0 → j ≠ 0 → (newNxt P.toParams S.td S.view i).pop = true →
    (newNxt P.toParams S.td S.view j).pop = true → i = j

/-- Every pop of a tree other than the root is on the outputs, and nothing else is. -/
structure Shown (S : PifoSramTop P.toParams) : Prop where
  pop : ∀ i < P.LEVEL, i ≠ 0 → S.oIsLevel0Pop i = true →
    out S = ⟨true, S.oTreeId i, S.oPopData i⟩
  noPop : (∀ i < P.LEVEL, i ≠ 0 → S.oIsLevel0Pop i = false) → (out S).oPopOut = false

theorem outLoop_of_none {S : PifoSramTop P.toParams} (n : ℕ)
    (h : ∀ j, j ≠ 0 → j ≤ n → S.oIsLevel0Pop j = false) : outLoop S n = ⟨false, 0, Val.ones⟩ := by
  induction n with
  | zero => rfl
  | succ n ih =>
    rw [outLoop, h (n + 1) (Nat.succ_ne_zero n) le_rfl]
    exact ih fun j hj hle => h j hj (Nat.le_succ_of_le hle)

/-- The multiplexer shows the last RPU that pops. -/
theorem outLoop_of_last {S : PifoSramTop P.toParams} {i : ℕ} (n : ℕ) (h0 : i ≠ 0) (hi : i ≤ n)
    (hpop : S.oIsLevel0Pop i = true) (hlast : ∀ j, i < j → j ≤ n → S.oIsLevel0Pop j = false) :
    outLoop S n = ⟨true, S.oTreeId i, S.oPopData i⟩ := by
  induction n with
  | zero => exact absurd (Nat.le_zero.mp hi) h0
  | succ n ih =>
    rw [outLoop]
    rcases Nat.lt_or_ge i (n + 1) with hlt | hge
    · rw [hlast (n + 1) hlt le_rfl]
      exact ih (by omega) fun j hij hj => hlast j hij (by omega)
    · obtain rfl : i = n + 1 := by omega
      rw [if_pos hpop]

theorem OneSubPop.shown {S : PifoSramTop P.toParams} (h : OneSubPop S) : Shown S where
  pop i hi h0 hpop := by
    refine outLoop_of_last _ h0 (by omega) hpop fun j hij hj => ?_
    rw [← Bool.not_eq_true]
    intro hpopj
    exact absurd (h i hi j (by omega) h0 (by omega) hpop hpopj) (by omega)
  noPop hnone := by
    rw [out, outLoop_of_none _ fun j h0 hj => hnone j (by have := P.LEVEL_pos; omega) h0]

/-- A pop granted in one cycle shows two cycles later, and nothing else does. -/
theorem oIsLevel0Pop_iff_grant (pu : PowerUp P.toParams) (xs : ℕ → GenIn P) (c : ℕ) {i : ℕ}
    (hi : i < P.LEVEL) : (run pu xs (c + 2)).oIsLevel0Pop i = true ↔
      (newNxt P.toParams (run pu xs c).td (run pu xs c).view i).pop = true := by
  rw [run_eq_engine, PifoSramTop.oIsLevel0Pop_iff pu _ (c + 1) hi, run_eq_engine]
  rfl

theorem oneSubPop_iff_grant (pu : PowerUp P.toParams) (xs : ℕ → GenIn P) (c : ℕ) :
    OneSubPop (run pu xs (c + 2)) ↔ OneSubGrant (run pu xs c) := by
  refine forall₂_congr fun i hi => forall₂_congr fun j hj => ?_
  rw [oIsLevel0Pop_iff_grant pu xs c hi, oIsLevel0Pop_iff_grant pu xs c hj]

/-- Nothing shows in the first two cycles. -/
theorem oneSubPop_early (pu : PowerUp P.toParams) (xs : ℕ → GenIn P) {c : ℕ} (hc : c < 2) :
    OneSubPop (run pu xs c) := by
  intro i hi j _ _ _ hpop _
  exfalso
  rw [run_eq_engine] at hpop
  cases c with
  | zero => exact absurd hpop (by simp [PifoSramTop.run, PifoSramTop.reset,
      PifoSramTop.oIsLevel0Pop, PifoSram.oIsLevel0Pop, PifoSram.Regs.idle])
  | succ c =>
    obtain rfl : c = 0 := by omega
    rw [PifoSramTop.oIsLevel0Pop_iff pu _ 0 hi] at hpop
    exact absurd hpop (by simp [PifoSramTop.shadow, PifoSramTop.run, PifoSramTop.reset,
      TaskDistribute.reset, Rpu.reset])

/-- Two neighbouring RPUs are never granted a pop in one cycle. -/
theorem not_newNxt_pop_succ {S : PifoSramTop P.toParams} {i : ℕ}
    (hi : (newNxt P.toParams S.td S.view i).pop = true) :
    (newNxt P.toParams S.td S.view (i + 1)).pop = false := by
  rw [← Bool.not_eq_true]
  intro hsucc
  have hbefore := (newNxt_pop hsucc).before
  rw [prev_succ] at hbefore
  rw [hbefore] at hi
  exact absurd hi (by simp)

/-- So if no two RPUs that are further apart are granted a pop, only one is. -/
theorem oneSubGrant_of_near {S : PifoSramTop P.toParams}
    (h : ∀ i < P.LEVEL, ∀ j < P.LEVEL, i ≠ 0 → j ≠ 0 →
      (newNxt P.toParams S.td S.view i).pop = true →
      (newNxt P.toParams S.td S.view j).pop = true → j ≤ i + 1) : OneSubGrant S := by
  have hle : ∀ i < P.LEVEL, ∀ j < P.LEVEL, i ≠ 0 → j ≠ 0 →
      (newNxt P.toParams S.td S.view i).pop = true →
      (newNxt P.toParams S.td S.view j).pop = true → j ≤ i := by
    intro i hi j hj h0 h0' hpi hpj
    by_contra hlt
    have hnear := h i hi j hj h0 h0' hpi hpj
    obtain rfl : j = i + 1 := by omega
    exact absurd (hpj.symm.trans (not_newNxt_pop_succ hpi)) (by simp)
  exact fun i hi j hj h0 h0' hpi hpj =>
    le_antisymm (hle j hj i hi h0' h0 hpj hpi) (hle i hi j hj h0 h0' hpi hpj)

/-! ## Two runs -/

/-- The default parameters of the module. -/
def defaults : GenParams where
  toParams := Params.defaults
  treeNumBits_le_MTW := by decide

/-- One packet for tree 1 in every cycle. -/
def steadyPush (_ : ℕ) : GenIn defaults := ⟨true, 1, 5, ⟨0, 5⟩, false⟩

/-- Two packets for different trees, and a pop for each. -/
def twoPops (c : ℕ) : GenIn defaults :=
  if c = 0 then ⟨true, 1, 0, ⟨0, 7⟩, true⟩
  else if c = 1 then ⟨true, 3, 10, ⟨2, 9⟩, false⟩
  else if c = 6 then ⟨false, 0, 0, Val.zero, true⟩
  else ⟨false, 0, 0, Val.zero, false⟩

end TaskGenerator

end VPifo
