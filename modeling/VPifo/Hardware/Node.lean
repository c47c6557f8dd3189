import VPifo.Hardware.Params
import Mathlib.Data.Fintype.EquivFin
import Mathlib.Data.Fintype.Lattice
import Mathlib.Data.List.FinRange
import Mathlib.Logic.Function.Basic

/-!
# The node rule of `PIFO_SRAM`

The combinational block of `PIFO_SRAM` reads one node word and computes the word to
write back, the value to send to the child, and the child to send it to
(`PIFO_SRAM.sv`, lines 273-372; lines 273-464 and 275-728 of the versions for four
and eight slots).  The three versions spell the same rule out for two, four and
eight slots, so the rule is written once over the slots of an `Order`:

* `minSubTree` and `minDataPort` are the two chains of comparisons, which select
  the *first* slot whose counter, respectively priority, is no larger than any
  other one;
* `pushNode` is the branch of `ST_PUSH`;
* `popData` and `popNode` are the branch of `ST_POP` and `ST_WB`.
-/

namespace VPifo

/-- The chain `if (f 0 ≤ all) 0 else if (f 1 ≤ all) 1 … else n-1`. -/
def firstMin {n : ℕ} [NeZero n] (f : Fin n → ℕ) : Fin n :=
  ((List.finRange n).find? fun k => decide (∀ j, f k ≤ f j)).getD
    ⟨n - 1, Nat.sub_lt (Nat.pos_of_ne_zero (NeZero.ne n)) Nat.one_pos⟩

/-- A least value exists, so the chain always stops. -/
theorem find?_eq_firstMin {n : ℕ} [NeZero n] (f : Fin n → ℕ) :
    ((List.finRange n).find? fun k => decide (∀ j, f k ≤ f j)) = some (firstMin f) := by
  unfold firstMin
  cases h : (List.finRange n).find? fun k => decide (∀ j, f k ≤ f j) with
  | some k => rfl
  | none =>
    exfalso
    have : Nonempty (Fin n) := ⟨0⟩
    obtain ⟨k, hk⟩ := Finite.exists_min f
    have := List.find?_eq_none.mp h k (List.mem_finRange k)
    rw [decide_eq_true_iff] at this
    exact this hk

theorem firstMin_le {n : ℕ} [NeZero n] (f : Fin n → ℕ) (j : Fin n) : f (firstMin f) ≤ f j := by
  have hk := List.find?_some (find?_eq_firstMin f)
  rw [decide_eq_true_iff] at hk
  exact hk j

/-- The slots before the chosen one are larger. -/
theorem firstMin_lt {n : ℕ} [NeZero n] (f : Fin n → ℕ) {j : Fin n} (hj : j < firstMin f) :
    f (firstMin f) < f j := by
  obtain ⟨-, as, bs, heq, has⟩ := List.find?_eq_some_iff_append.mp (find?_eq_firstMin f)
  -- the slots are in order, so `j` was tried before
  have hsorted := List.pairwise_lt_finRange n
  rw [heq] at hsorted
  have hafter := (List.pairwise_cons.mp (List.pairwise_append.mp hsorted).2.1).1
  have hmem : j ∈ as := by
    have := List.mem_finRange j
    rw [heq, List.mem_append, List.mem_cons] at this
    rcases this with h | rfl | h
    · exact h
    · exact absurd hj (lt_irrefl _)
    · exact absurd hj (hafter j h).asymm
  obtain ⟨i, hi⟩ : ∃ i, f i < f j := by simpa using has j hmem
  exact (firstMin_le f i).trans_lt hi

section Rule

variable {o : Order} {W : Widths}

/-- `min_sub_tree`: the first slot with the smallest counter. -/
def minSubTree (w : Node o W) : Fin o.D := firstMin fun k => (w k).subTreeSize.toNat

/-- `min_data_port`: the first slot with the smallest priority. -/
def minDataPort (w : Node o W) : Fin o.D := firstMin fun k => (w k).pifoVal.priority.toNat

theorem minSubTree_le (w : Node o W) (k : Fin o.D) :
    (w (minSubTree w)).subTreeSize.toNat ≤ (w k).subTreeSize.toNat :=
  firstMin_le (fun k => (w k).subTreeSize.toNat) k

theorem minDataPort_le (w : Node o W) (k : Fin o.D) :
    (w (minDataPort w)).pifoVal.priority.toNat ≤ (w k).pifoVal.priority.toNat :=
  firstMin_le (fun k => (w k).pifoVal.priority.toNat) k

/-- `ST_PUSH`: the word to write back, and the value to send down if there is one.
The chosen slot's counter goes up by one; an empty slot takes the new value, and an
occupied one keeps the smaller value and sends the other one down. -/
def pushNode (w : Node o W) (ipushdLatch : Val W) : Node o W × Option (Val W) :=
  let k := minSubTree w
  let size := (w k).subTreeSize + 1
  if (w k).pifoVal.priority ≠ BitVec.allOnes _ then
    if ipushdLatch.priority < (w k).pifoVal.priority then
      (Function.update w k ⟨size, ipushdLatch⟩, some (w k).pifoVal)
    else
      (Function.update w k ⟨size, (w k).pifoVal⟩, some ipushdLatch)
  else
    (Function.update w k ⟨size, ipushdLatch⟩, none)

/-- `ST_POP` and `ST_WB`: the value of the least slot. -/
def popData (w : Node o W) : Val W := (w (minDataPort w)).pifoVal

/-- `ST_POP` and `ST_WB`: the word to write back.  A slot whose counter is zero is
left alone; otherwise the counter goes down by one and the value is replaced. -/
def popNode (w : Node o W) (iPopData : Val W) : Node o W :=
  let k := minDataPort w
  if (w k).subTreeSize ≠ 0 then
    Function.update w k ⟨(w k).subTreeSize - 1, iPopData⟩
  else w

/-- `child_addr` of a push. -/
def pushChild (w : Node o W) (myAddr : ℕ) : ℕ := o.D * myAddr + minSubTree w

/-- `child_addr` of a pop. -/
def popChild (w : Node o W) (myAddr : ℕ) : ℕ := o.D * myAddr + minDataPort w

end Rule

end VPifo
