import VPifo.Hardware.Params
import VPifo.Lib.BoundedQueue
import Mathlib.Data.Nat.ModEq

/-!
# The task FIFO

Every port of the engine has a FIFO of task words.  A word can carry a push and a
pop at once, each with a tree identifier of its own (`PIFO_SRAM_TOP.sv`, line 330),
and the push is meant to go first.

`TaskFIFO` is the module of `TaskFIFO.sv`, register by register.  Its memory is not
reset and its output is registered: the word read in one cycle is on `buf_out` in
the next one, and only then.  What the rest of the engine needs to know about all
this is one list, `contents`: a read takes the first word of the list and a write
appends one (`contents_step`), as long as a write to a full FIFO comes with a read.

All this needs a memory of at least two words.  With one word, `BUF_WIDTH` is 0 and the
pointers are `reg[-1:0]`: two bits, which count on outside of the memory.
-/

namespace VPifo

/-- A task word, `{push, pop, push_tree_id, pop_tree_id, push_data}`. -/
@[ext] structure Entry (W : Widths) where
  pushBit : Bool
  popBit : Bool
  pushTreeId : ℕ
  popTreeId : ℕ
  pushData : Val W
  deriving DecidableEq

/-- The word `0`. -/
def Entry.zero {W : Widths} : Entry W := ⟨false, false, 0, 0, Val.zero⟩

/-- The registers of a `TaskFIFO`.  `fifo_counter` never leaves `0 … BUF_SIZE`, so
its width plays no part. -/
structure TaskFIFO (W : Widths) where
  fifoCounter : ℕ
  rdPtr : ℕ
  wrPtr : ℕ
  bufMem : ℕ → Entry W
  bufRd : Entry W
  rdEnLast : Bool
  wrEnLast : Bool
  bufEmptyLast : Bool

namespace TaskFIFO

variable {W : Widths}

/-- `buf_empty`. -/
def bufEmpty (f : TaskFIFO W) : Bool := f.fifoCounter == 0

/-- `buf_full`, for `BUF_SIZE = 2^BUF_WIDTH`. -/
def bufFull (BUF_WIDTH : ℕ) (f : TaskFIFO W) : Bool := f.fifoCounter == 2 ^ BUF_WIDTH

/-- `buf_out`. -/
def bufOut (f : TaskFIFO W) : Entry W :=
  if f.rdEnLast && (!f.bufEmptyLast || f.wrEnLast) then f.bufRd else Entry.zero

/-- The bits of a pointer, `reg[BUF_WIDTH-1:0]`. -/
def ptrBits (BUF_WIDTH : ℕ) : ℕ := if BUF_WIDTH = 0 then 2 else BUF_WIDTH

theorem ptrBits_of_pos {BUF_WIDTH : ℕ} (h : 1 ≤ BUF_WIDTH) : ptrBits BUF_WIDTH = BUF_WIDTH :=
  if_neg (by omega)

/-- One clock edge.  A write outside of the memory is lost; what a read outside of it shows
is not defined, and the model shows what `bufMem` holds there since power-up. -/
def step (BUF_WIDTH : ℕ) (f : TaskFIFO W) (wrEn rdEn : Bool) (bufIn : Entry W) : TaskFIFO W where
  fifoCounter :=
    if wrEn && rdEn then f.fifoCounter
    else if !f.bufFull BUF_WIDTH && wrEn then f.fifoCounter + 1
    else if !f.bufEmpty && rdEn then f.fifoCounter - 1
    else f.fifoCounter
  rdPtr :=
    if rdEn && (!f.bufEmpty || wrEn) then (f.rdPtr + 1) % 2 ^ ptrBits BUF_WIDTH else f.rdPtr
  wrPtr :=
    if wrEn && (!f.bufFull BUF_WIDTH || rdEn) then (f.wrPtr + 1) % 2 ^ ptrBits BUF_WIDTH
    else f.wrPtr
  bufMem :=
    if wrEn && (!f.bufFull BUF_WIDTH || rdEn) then
      if f.wrPtr < 2 ^ BUF_WIDTH then Function.update f.bufMem f.wrPtr bufIn else f.bufMem
    else f.bufMem
  bufRd := f.bufMem f.rdPtr
  rdEnLast := rdEn
  wrEnLast := wrEn
  bufEmptyLast := f.bufEmpty

/-- The state after reset; the memory and `wr_en_last` are not reset. -/
def reset (bufMem : ℕ → Entry W) (wrEnLast : Bool) : TaskFIFO W where
  fifoCounter := 0
  rdPtr := 0
  wrPtr := 0
  bufMem := bufMem
  bufRd := Entry.zero
  rdEnLast := false
  wrEnLast := wrEnLast
  bufEmptyLast := true

/-- A write is lost: `wr_en` on a full FIFO that is not read. -/
def Drops (BUF_WIDTH : ℕ) (f : TaskFIFO W) (wrEn rdEn : Bool) : Prop :=
  wrEn = true ∧ f.bufFull BUF_WIDTH = true ∧ rdEn = false

instance (BUF_WIDTH : ℕ) (f : TaskFIFO W) (wrEn rdEn : Bool) :
    Decidable (f.Drops BUF_WIDTH wrEn rdEn) :=
  inferInstanceAs (Decidable (_ ∧ _ ∧ _))

/-! ## The queue behind the registers -/

variable {B : ℕ}

/-- The words in the FIFO, oldest first. -/
def contents (B : ℕ) (f : TaskFIFO W) : List (Entry W) :=
  (List.range f.fifoCounter).map fun k => f.bufMem ((f.rdPtr + k) % 2 ^ B)

/-- The pointers and the counter agree, and the pointers stay in the memory. -/
structure Wf (B : ℕ) (f : TaskFIFO W) : Prop where
  one_le : 1 ≤ B
  counter_le : f.fifoCounter ≤ 2 ^ B
  rdPtr_lt : f.rdPtr < 2 ^ B
  wrPtr_eq : f.wrPtr = (f.rdPtr + f.fifoCounter) % 2 ^ B

theorem wf_reset (hB : 1 ≤ B) (mem : ℕ → Entry W) (w : Bool) : (reset mem w).Wf B where
  one_le := hB
  counter_le := Nat.zero_le _
  rdPtr_lt := Nat.two_pow_pos _
  wrPtr_eq := (Nat.zero_mod _).symm

@[simp] theorem contents_reset (mem : ℕ → Entry W) (w : Bool) : (reset mem w).contents B = [] := rfl

theorem Wf.wrPtr_lt {f : TaskFIFO W} (hf : f.Wf B) : f.wrPtr < 2 ^ B := by
  rw [hf.wrPtr_eq]
  exact Nat.mod_lt _ (Nat.two_pow_pos B)

/-- The clock edge while the pointers are in the memory. -/
theorem Wf.step_eq {f : TaskFIFO W} (hf : f.Wf B) (wrEn rdEn : Bool) (e : Entry W) :
    f.step B wrEn rdEn e =
      { fifoCounter :=
          if wrEn && rdEn then f.fifoCounter
          else if !f.bufFull B && wrEn then f.fifoCounter + 1
          else if !f.bufEmpty && rdEn then f.fifoCounter - 1
          else f.fifoCounter
        rdPtr := if rdEn && (!f.bufEmpty || wrEn) then (f.rdPtr + 1) % 2 ^ B else f.rdPtr
        wrPtr := if wrEn && (!f.bufFull B || rdEn) then (f.wrPtr + 1) % 2 ^ B else f.wrPtr
        bufMem :=
          if wrEn && (!f.bufFull B || rdEn) then Function.update f.bufMem f.wrPtr e else f.bufMem
        bufRd := f.bufMem f.rdPtr
        rdEnLast := rdEn
        wrEnLast := wrEn
        bufEmptyLast := f.bufEmpty } := by
  rw [step, ptrBits_of_pos hf.one_le, if_pos hf.wrPtr_lt]

/-- Two places of the ring that are less than a turn apart are different. -/
theorem place_ne {n r j m : ℕ} (hjm : j < m) (hmn : m < j + n) : (r + j) % n ≠ (r + m) % n := by
  intro h
  have hmod : j ≡ m [MOD n] := Nat.ModEq.add_left_cancel' r h
  have hdvd : n ∣ m - j := (Nat.modEq_iff_dvd' hjm.le).mp hmod
  exact absurd (Nat.le_of_dvd (by omega) hdvd) (by omega)

/-- **A read takes the oldest word and a write appends one.** -/
theorem contents_step {f : TaskFIFO W} (hf : f.Wf B) {wrEn rdEn : Bool} (e : Entry W)
    (hrd : rdEn = true → f.bufEmpty = false) (hwr : ¬f.Drops B wrEn rdEn) :
    (f.step B wrEn rdEn e).contents B =
      (if rdEn then (f.contents B).tail else f.contents B) ++ (if wrEn then [e] else []) := by
  have hle := hf.counter_le
  have hwp := hf.wrPtr_eq
  -- a word that stays is not overwritten
  have hkeep : ∀ k, k < f.fifoCounter → (k = 0 → f.fifoCounter < 2 ^ B) →
      Function.update f.bufMem f.wrPtr e ((f.rdPtr + k) % 2 ^ B) =
        f.bufMem ((f.rdPtr + k) % 2 ^ B) := by
    intro k hk hk0
    refine Function.update_of_ne ?_ _ _
    rw [hwp]
    exact place_ne hk (by omega)
  have hnext : ∀ k, ((f.rdPtr + 1) % 2 ^ B + k) % 2 ^ B = (f.rdPtr + (k + 1)) % 2 ^ B := by
    intro k
    rw [Nat.mod_add_mod, show f.rdPtr + 1 + k = f.rdPtr + (k + 1) by omega]
  cases rdEn <;> cases wrEn
  · simp [contents, hf.step_eq]
  · have hfull : f.fifoCounter ≠ 2 ^ B := by simpa [Drops, bufFull] using hwr
    have hlt : f.fifoCounter < 2 ^ B := lt_of_le_of_ne hle hfull
    simp only [contents, hf.step_eq, bufFull, beq_eq_false_iff_ne.mpr hfull, Bool.and_false,
      Bool.false_eq_true, if_false, Bool.not_false, Bool.true_and, Bool.true_or, if_true,
      Bool.false_and, List.range_succ, List.map_append, List.map_cons, List.map_nil]
    rw [← hwp, Function.update_self]
    congr 1
    refine List.map_congr_left fun k hk => ?_
    exact hkeep k (List.mem_range.mp hk) fun _ => hlt
  · have hne : f.fifoCounter ≠ 0 := by simpa [bufEmpty] using hrd rfl
    obtain ⟨n, hn⟩ : ∃ n, f.fifoCounter = n + 1 := ⟨f.fifoCounter - 1, by omega⟩
    simp only [contents, hf.step_eq, bufEmpty, hn, Bool.false_and, Bool.and_false,
      Bool.false_eq_true, if_false, Bool.and_true, beq_eq_false_iff_ne.mpr (Nat.succ_ne_zero n),
      Bool.not_false, Bool.true_or, if_true, Nat.add_sub_cancel, List.append_nil,
      List.range_succ_eq_map, List.map_cons, List.tail_cons, List.map_map]
    refine List.map_congr_left fun k _ => ?_
    rw [hnext]
    rfl
  · have hne : f.fifoCounter ≠ 0 := by simpa [bufEmpty] using hrd rfl
    obtain ⟨n, hn⟩ : ∃ n, f.fifoCounter = n + 1 := ⟨f.fifoCounter - 1, by omega⟩
    have hlast : ((f.rdPtr + 1) % 2 ^ B + n) % 2 ^ B = f.wrPtr := by rw [hnext, hwp, hn]
    simp only [contents, hf.step_eq, bufEmpty, Bool.and_self, if_true, Bool.or_true,
      Bool.and_true, hn]
    rw [List.range_succ, List.map_append, List.map_cons, List.map_nil, hlast, Function.update_self,
      ← List.range_succ, List.range_succ_eq_map, List.map_cons, List.tail_cons, List.map_map]
    congr 1
    refine List.map_congr_left fun k hk => ?_
    have hk' : k < n := List.mem_range.mp hk
    rw [hnext]
    exact hkeep (k + 1) (by omega) (by omega)

/-- A word that is not accepted leaves the queue as it is. -/
theorem contents_step_of_drops {f : TaskFIFO W} {wrEn rdEn : Bool} (h : f.Drops B wrEn rdEn)
    (e : Entry W) : (f.step B wrEn rdEn e).contents B = f.contents B := by
  obtain ⟨hwr, hfull, hrd⟩ := h
  have hne : f.fifoCounter = 2 ^ B := by simpa [bufFull] using hfull
  simp [contents, step, bufFull, hwr, hrd, hne]

theorem Wf.step {f : TaskFIFO W} (hf : f.Wf B) {wrEn rdEn : Bool} (e : Entry W)
    (hrd : rdEn = true → f.bufEmpty = false) : (f.step B wrEn rdEn e).Wf B := by
  have hpos : 0 < 2 ^ B := Nat.two_pow_pos B
  have hle := hf.counter_le
  have hlt := hf.rdPtr_lt
  have hwp := hf.wrPtr_eq
  have hmod : ∀ a, (a % 2 ^ B + 1) % 2 ^ B = (a + 1) % 2 ^ B := fun a => Nat.mod_add_mod _ _ _
  cases rdEn <;> cases wrEn
  · exact ⟨hf.one_le, by simpa [hf.step_eq] using hle, by simpa [hf.step_eq] using hlt,
      by simpa [hf.step_eq] using hwp⟩
  · by_cases hfull : f.fifoCounter = 2 ^ B
    · exact ⟨hf.one_le, by simp [hf.step_eq, bufFull, hfull], by simpa [hf.step_eq] using hlt,
        by simpa [hf.step_eq, bufFull, hfull] using hwp⟩
    · refine ⟨hf.one_le, ?_, by simpa [hf.step_eq] using hlt, ?_⟩
      · simp only [hf.step_eq, bufFull, beq_eq_false_iff_ne.mpr hfull]
        simp only [Bool.and_false, Bool.false_eq_true, if_false, Bool.not_false, Bool.and_self,
          if_true]
        omega
      · simp only [hf.step_eq, bufFull, beq_eq_false_iff_ne.mpr hfull, Bool.and_false,
          Bool.false_eq_true, if_false, Bool.not_false, Bool.and_self, if_true, Bool.true_or,
          Bool.false_and, hwp, hmod]
        rfl
  · have hne : f.fifoCounter ≠ 0 := by simpa [bufEmpty] using hrd rfl
    refine ⟨hf.one_le, ?_, ?_, ?_⟩
    · simp only [hf.step_eq, bufEmpty, Bool.false_and, Bool.false_eq_true, if_false,
        Bool.and_false, Bool.and_true]
      split <;> omega
    · simpa [hf.step_eq, bufEmpty, hne] using Nat.mod_lt _ hpos
    · simp only [hf.step_eq, bufEmpty, beq_eq_false_iff_ne.mpr hne, Bool.false_and,
        Bool.false_eq_true, if_false, Bool.and_false, Bool.not_false, Bool.and_self, if_true,
        Bool.true_or]
      rw [hwp, Nat.mod_add_mod, show f.rdPtr + 1 + (f.fifoCounter - 1) =
        f.rdPtr + f.fifoCounter by omega]
  · refine ⟨hf.one_le, by simpa [hf.step_eq] using hle, ?_, ?_⟩
    · simpa [hf.step_eq] using Nat.mod_lt _ hpos
    · simp only [hf.step_eq, Bool.and_self, if_true, Bool.or_true]
      rw [hwp, hmod, Nat.mod_add_mod, Nat.add_right_comm]

/-- A word that is read is on `buf_out` in the next cycle. -/
theorem bufOut_step {f : TaskFIFO W} (hf : f.Wf B) (wrEn : Bool) (e : Entry W)
    (hempty : f.bufEmpty = false) :
    f.contents B = (f.step B wrEn true e).bufOut :: (f.contents B).tail := by
  have hne : f.fifoCounter ≠ 0 := by simpa [bufEmpty] using hempty
  obtain ⟨n, hn⟩ : ∃ n, f.fifoCounter = n + 1 := ⟨f.fifoCounter - 1, by omega⟩
  have hout : (f.step B wrEn true e).bufOut = f.bufMem f.rdPtr := by
    simp [bufOut, step, hempty]
  rw [hout, contents, hn, List.range_succ_eq_map, List.map_cons, List.tail_cons, Nat.add_zero,
    Nat.mod_eq_of_lt hf.rdPtr_lt]

@[simp] theorem length_contents (f : TaskFIFO W) : (f.contents B).length = f.fifoCounter := by
  simp [contents]

/-! ## The FIFO as a bounded queue -/

open BoundedQueue

section Run

variable (B) (mem : ℕ → Entry W) (w : Bool) (xs : ℕ → Request (Entry W))

/-- The state at the beginning of cycle `c`, when `xs c` is on `wr_en`, `rd_en` and `buf_in`
in cycle `c`. -/
def run : ℕ → TaskFIFO W
  | 0 => reset mem w
  | c + 1 => (run c).step B (xs c).write (xs c).read (xs c).word

/-- `rd_en` is 1 only when `buf_empty` is 0. -/
def Driven : Prop := ∀ c, (xs c).read = true → (run B mem w xs c).bufEmpty = false

/-- The words on `buf_out` one cycle after each `rd_en`. -/
def shown : ℕ → List (Entry W)
  | 0 => []
  | c + 1 => shown c ++ if (xs c).read then [(run B mem w xs (c + 1)).bufOut] else []

/-- One run is that of a queue of `BUF_SIZE` words. -/
structure QueueRun : Prop where
  /-- `fifo_counter` is the number of accepted but unread words. -/
  counter : ∀ c, (run B mem w xs c).fifoCounter + reads xs c = (accepted (2 ^ B) xs c).length
  counter_le : ∀ c, (run B mem w xs c).fifoCounter ≤ 2 ^ B
  /-- What is shown are the accepted words, in order. -/
  inOrder : ∀ c, shown B mem w xs c = (accepted (2 ^ B) xs c).take (reads xs c)
  /-- A write is rejected exactly by a full FIFO that is not read. -/
  rejects_iff : ∀ c, (xs c).write = true →
    (accepts (2 ^ B) (queue (2 ^ B) xs c) (xs c) = false ↔
      (run B mem w xs c).bufFull B = true ∧ (xs c).read = false)
  /-- And then the write pointer stays where it is. -/
  wrPtr_iff : ∀ c, (xs c).write = true →
    ((run B mem w xs (c + 1)).wrPtr = (run B mem w xs c).wrPtr ↔
      (run B mem w xs c).bufFull B = true ∧ (xs c).read = false)
  /-- A word that is read is the oldest one, whatever is written in the same cycle. -/
  intact : ∀ c, (xs c).read = true →
    (accepted (2 ^ B) xs c)[reads xs c]? = some (run B mem w xs (c + 1)).bufOut

end Run

/-- `TaskFIFO` with `BUF_SIZE = 2^B` is a FIFO: every run from reset in which it is never
read empty is that of a queue. -/
def IsFifo (W : Widths) (B : ℕ) : Prop :=
  ∀ (mem : ℕ → Entry W) (w : Bool) (xs : ℕ → Request (Entry W)),
    Driven B mem w xs → QueueRun B mem w xs

section Sim

variable {mem : ℕ → Entry W} {w : Bool} {xs : ℕ → Request (Entry W)}

theorem accepts_contents {f : TaskFIFO W} (hf : f.Wf B) (x : Request (Entry W)) :
    accepts (2 ^ B) (f.contents B) x = true ↔ x.write = true ∧ ¬f.Drops B x.write x.read := by
  have hle := hf.counter_le
  rw [accepts, length_contents, Drops, bufFull]
  cases x.write <;> cases x.read <;> simp
  omega

/-- **One clock edge is one cycle of the queue.** -/
theorem contents_step_eq_next {f : TaskFIFO W} (hf : f.Wf B) {x : Request (Entry W)}
    (hrd : x.read = true → f.bufEmpty = false) :
    (f.step B x.write x.read x.word).contents B = next (2 ^ B) (f.contents B) x := by
  have hacc := accepts_contents hf x
  by_cases hd : f.Drops B x.write x.read
  · have hno : accepts (2 ^ B) (f.contents B) x = false := by
      rw [← Bool.not_eq_true, hacc]
      exact fun h => h.2 hd
    rw [contents_step_of_drops hd, next, hno, hd.2.2]
    simp
  · rw [contents_step hf x.word hrd hd, next]
    congr 1
    cases hw : x.write with
    | true => rw [if_pos rfl, if_pos (hacc.mpr ⟨hw, hd⟩)]
    | false => simp [accepts, hw]

/-- **The FIFO simulates the queue.** -/
theorem run_sim (hB : 1 ≤ B) (hdriven : Driven B mem w xs) (c : ℕ) :
    (run B mem w xs c).Wf B ∧ (run B mem w xs c).contents B = queue (2 ^ B) xs c := by
  induction c with
  | zero => exact ⟨wf_reset hB mem w, rfl⟩
  | succ c ih =>
    refine ⟨ih.1.step _ (hdriven c), ?_⟩
    rw [run, contents_step_eq_next ih.1 (hdriven c), ih.2, queue]

/-- The queue is never read empty. -/
theorem neverReadEmpty_of_driven (hB : 1 ≤ B) (hdriven : Driven B mem w xs) :
    NeverReadEmpty (2 ^ B) xs := by
  intro c hr hnil
  have hempty := hdriven c hr
  rw [← (run_sim hB hdriven c).2, ← List.length_eq_zero_iff, length_contents] at hnil
  simp [bufEmpty, hnil] at hempty

/-- What a read shows is the head of the queue. -/
theorem head?_queue (hB : 1 ≤ B) (hdriven : Driven B mem w xs) {c : ℕ} (hr : (xs c).read = true) :
    (queue (2 ^ B) xs c).head? = some (run B mem w xs (c + 1)).bufOut := by
  obtain ⟨hf, hq⟩ := run_sim hB hdriven c
  rw [← hq, bufOut_step hf (xs c).write (xs c).word (hdriven c hr), List.head?_cons, run, hr]

theorem shown_eq_given (hB : 1 ≤ B) (hdriven : Driven B mem w xs) (c : ℕ) :
    shown B mem w xs c = given (2 ^ B) xs c := by
  induction c with
  | zero => rfl
  | succ c ih =>
    rw [shown, given, ih]
    cases hr : (xs c).read with
    | true => rw [head?_queue hB hdriven hr]; rfl
    | false => rfl

theorem queueRun_of_driven (hB : 1 ≤ B) (hdriven : Driven B mem w xs) : QueueRun B mem w xs := by
  have hne := neverReadEmpty_of_driven hB hdriven
  have hlen : ∀ c, (run B mem w xs c).fifoCounter = (queue (2 ^ B) xs c).length := by
    intro c
    rw [← (run_sim hB hdriven c).2, length_contents]
  have hfull : ∀ c, (run B mem w xs c).bufFull B = true ↔
      (queue (2 ^ B) xs c).length = 2 ^ B := by
    intro c
    rw [bufFull, beq_iff_eq, hlen]
  have hrejects : ∀ c, (xs c).write = true →
      (accepts (2 ^ B) (queue (2 ^ B) xs c) (xs c) = false ↔
        (run B mem w xs c).bufFull B = true ∧ (xs c).read = false) := by
    intro c hw
    rw [accepts_eq_false_iff hw (length_queue_le hne c), hfull]
  refine ⟨fun c => ?_, fun c => (run_sim hB hdriven c).1.counter_le, fun c => ?_, hrejects,
    fun c hw => ?_, fun c hr => ?_⟩
  · rw [length_accepted hne, hlen, Nat.add_comm]
  · rw [shown_eq_given hB hdriven, given_eq_take hne]
  · obtain ⟨hf, -⟩ := run_sim hB hdriven c
    have hlt := hf.wrPtr_lt
    have hmove : ((run B mem w xs c).wrPtr + 1) % 2 ^ B ≠ (run B mem w xs c).wrPtr := by
      have h2 : 2 ≤ 2 ^ B := Nat.pow_le_pow_right Nat.two_pos hB
      intro h
      rcases Nat.eq_or_lt_of_le (Nat.succ_le_of_lt hlt) with heq | hlt'
      · rw [← Nat.succ_eq_add_one, heq, Nat.mod_self] at h
        omega
      · rw [Nat.mod_eq_of_lt hlt'] at h
        omega
    rw [run, hf.step_eq, hw]
    cases (run B mem w xs c).bufFull B <;> cases (xs c).read <;> simp [hmove]
  · have htake := head?_queue hB hdriven hr
    rw [← given_append_queue hne, ← length_given hne, List.getElem?_append_right le_rfl,
      Nat.sub_self, ← List.head?_eq_getElem?, htake]

end Sim

/-! ### A memory of one word -/

/-- Two words, each written and then read. -/
def writeReadTwice (a b : Entry W) : ℕ → Request (Entry W)
  | 0 => ⟨true, false, a⟩
  | 1 => ⟨false, true, Entry.zero⟩
  | 2 => ⟨true, false, b⟩
  | 3 => ⟨false, true, Entry.zero⟩
  | _ + 4 => ⟨false, false, Entry.zero⟩

theorem driven_writeReadTwice (a b : Entry W) :
    Driven 0 (fun _ => Entry.zero) false (writeReadTwice a b) := by
  intro c hr
  match c with
  | 0 | 2 | _ + 4 => exact absurd hr (by simp [writeReadTwice])
  | 1 | 3 => rfl

/-- A push for tree 0. -/
def pushWord (W : Widths) : Entry W := ⟨true, false, 0, 0, Val.zero⟩

/-- The second word goes outside of the memory, and the second read shows what is there. -/
theorem shown_writeReadTwice (W : Widths) :
    shown 0 (fun _ => Entry.zero) false (writeReadTwice (pushWord W) (pushWord W)) 4 =
      [pushWord W, Entry.zero] := rfl

theorem accepted_writeReadTwice (W : Widths) :
    accepted 1 (writeReadTwice (pushWord W) (pushWord W)) 4 = [pushWord W, pushWord W] := rfl

theorem not_isFifo_zero (W : Widths) : ¬IsFifo W 0 := by
  intro h
  have hrun := (h _ _ _ (driven_writeReadTwice (pushWord W) (pushWord W))).inOrder 4
  rw [shown_writeReadTwice, show 2 ^ 0 = 1 from rfl, accepted_writeReadTwice] at hrun
  have hword : Entry.zero = pushWord W := List.head_eq_of_cons_eq (List.tail_eq_of_cons_eq hrun)
  exact absurd (congrArg Entry.pushBit hword) (by simp [Entry.zero, pushWord])

/-- **When `TaskFIFO` is a FIFO.**  For every data width and every `BUF_SIZE = 2^B`, all runs
that are never read empty are those of a queue exactly if the memory has at least two
words. -/
theorem taskFIFO_isFifo_iff (W : Widths) (B : ℕ) : IsFifo W B ↔ 1 ≤ B := by
  constructor
  · intro h
    by_contra hB
    obtain rfl : B = 0 := by omega
    exact not_isFifo_zero W h
  · exact fun hB _ _ _ hdriven => queueRun_of_driven hB hdriven

/-- With `BUF_SIZE = 1` and the default widths, two pushes are accepted, and the second read
shows no word. -/
theorem taskFIFO_isFifo_fails :
    shown 0 (fun _ => Entry.zero) false (writeReadTwice (pushWord ⟨16, 16, 16⟩)
        (pushWord ⟨16, 16, 16⟩)) 4 = [pushWord ⟨16, 16, 16⟩, Entry.zero] ∧
      accepted 1 (writeReadTwice (pushWord ⟨16, 16, 16⟩) (pushWord ⟨16, 16, 16⟩)) 4 =
        [pushWord ⟨16, 16, 16⟩, pushWord ⟨16, 16, 16⟩] ∧
      ¬IsFifo ⟨16, 16, 16⟩ 0 :=
  ⟨shown_writeReadTwice _, accepted_writeReadTwice _, not_isFifo_zero _⟩

end TaskFIFO

end VPifo
