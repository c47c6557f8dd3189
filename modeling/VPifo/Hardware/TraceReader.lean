import VPifo.Compiler.TraceFormat
import VPifo.Hardware.Params

/-!
# `TRACE_READER` and `TRACE_ROM`

The reader drives the engine from a ROM of trace records.  In a cycle in which its idle
counter is zero it reads the word at `read_addr`: a push or a pop appears on the outputs
one cycle later, and the low bits of any word that is no push are loaded into the counter.
While the counter runs the ROM is not enabled and answers with zeros, and it is these
zeros that keep the outputs quiet.

`word` is the value of the ROM word of a record, for any widths, and `decodes_word` says
that the reader's slices take it apart again; `bitsValue_eq_word` says that it is the word
`trace2mem.py` writes.  Records last one cycle, or one more than their idle count, so the
record at position `a` is read in cycle `start a`.  `run_start` and `run_within` describe
the registers in that cycle and in the cycles up to the next record, also after `read_addr`
has wrapped; everything about the outputs is read off there.
-/

namespace VPifo.Trace

open Numerals

/-- The parameters of the reader.  `[W-1:0]` is a register of `W` bits for a positive `W`,
so no width is zero. -/
structure ReaderParams extends TraceWidths where
  ROM_WIDTH : ℕ
  PTW_pos : 1 ≤ PTW
  MTW_pos : 1 ≤ MTW
  TREE_NUM_BITS_pos : 1 ≤ TREE_NUM_BITS
  IDLECYCLE_BITS_pos : 1 ≤ IDLECYCLE_BITS

/-- `ROM_SIZE`, a power of two. -/
def ReaderParams.ROM_SIZE (P : ReaderParams) : ℕ := 2 ^ P.ROM_WIDTH

/-- `o_trace_data` of `TRACE_ROM`, out of reset. -/
def oTraceData (mem : ℕ → ℕ) (iReadEn : Bool) (iAddr : ℕ) : ℕ := if iReadEn then mem iAddr else 0

/-- The registers of `TRACE_READER`. -/
structure Reader where
  idleCycleCounter : ℕ
  push : Bool
  pop : Bool
  pushPriority : ℕ
  pushTreeId : ℕ
  pushData : ℕ
  readAddr : ℕ

/-- What the outputs for the engine show. -/
@[ext] structure Shown where
  oPush : Bool
  oPop : Bool
  oPushPriority : ℕ
  oPushTreeId : ℕ
  oPushData : ℕ
  deriving DecidableEq, Repr

section Reader

variable (P : ReaderParams) (mem : ℕ → ℕ)

/-- The registers after reset. -/
def Reader.reset : Reader where
  idleCycleCounter := 0
  push := false
  pop := false
  pushPriority := 2 ^ P.PTW - 1
  pushTreeId := 0
  pushData := 2 ^ (P.MTW + P.PTW) - 1
  readAddr := 0

/-- `read`, which is `o_read`. -/
def Reader.read (s : Reader) : Bool := s.idleCycleCounter == 0

/-- `i_trace_data`, with the ROM connected. -/
def Reader.iTraceData (s : Reader) : ℕ := oTraceData mem s.read s.readAddr

/-- One clock edge. -/
def Reader.step (s : Reader) : Reader :=
  let iTraceData := s.iTraceData mem
  let iPush : Bool := iPush P.toTraceWidths iTraceData == 1
  { push := iPush
    pop := iPop P.toTraceWidths iTraceData == 1
    pushPriority := if iPush then iPushPriority P.toTraceWidths iTraceData else 2 ^ P.PTW - 1
    pushTreeId := if iPush then iPushTreeId P.toTraceWidths iTraceData else 0
    pushData :=
      if iPush then iPushData P.toTraceWidths iTraceData else 2 ^ (P.MTW + P.PTW) - 1
    idleCycleCounter :=
      if !iPush && s.read then iIdleCycleCounter P.toTraceWidths iTraceData
      else if s.idleCycleCounter = 0 then 0 else s.idleCycleCounter - 1
    readAddr := if s.read then (s.readAddr + 1) % 2 ^ P.ROM_WIDTH else s.readAddr }

/-- `o_push` to `o_pop`. -/
def Reader.shown (s : Reader) : Shown :=
  ⟨s.push, s.pop, s.pushPriority, s.pushTreeId, s.pushData⟩

/-- `o_finish`. -/
def Reader.oFinish (s : Reader) : Bool :=
  s.read && iIdleCycleCounter P.toTraceWidths (s.iTraceData mem) == 2 ^ P.IDLECYCLE_BITS - 1

/-- The registers in cycle `n` after reset. -/
def readerRun : ℕ → Reader
  | 0 => Reader.reset P
  | n + 1 => (readerRun n).step P mem

end Reader

/-! ## The words of the records -/

section Word

variable (w : TraceWidths)

/-- The word of a record: the two type bits on top, the fields of a push or the idle count
at the bottom. -/
def word : Record → ℕ
  | .idle idleCycle => idleCycle.toNat
  | .push treeId pktMeta [priority0, priority1] =>
      2 ^ (traceDataBits w - 2) +
        (((treeId.toNat * 2 ^ w.MTW + pktMeta.toNat) * 2 ^ w.PTW + priority0.toNat) * 2 ^ w.PTW +
          priority1.toNat)
  | .push _ _ _ => 0
  | .pop => 2 ^ (traceDataBits w - 1)

variable {w}

/-- A slice of a sum of fields: what stands above and below it is left out. -/
theorem slice_eq {hi lo k x : ℕ} (a : ℕ) {b c : ℕ} (hk : hi + 1 - lo = k)
    (hx : x = (a * 2 ^ k + b) * 2 ^ lo + c) (hb : b < 2 ^ k) (hc : c < 2 ^ lo) :
    slice hi lo x = b := by
  have hdiv : x / 2 ^ lo = a * 2 ^ k + b := by
    rw [hx, Nat.add_comm, Nat.add_mul_div_right _ _ (Nat.two_pow_pos lo), Nat.div_eq_of_lt hc,
      Nat.zero_add]
  rw [slice, hk, hdiv, Nat.add_comm, Nat.add_mul_mod_self_right, Nat.mod_eq_of_lt hb]

theorem slice_of_lt {hi lo x : ℕ} (hx : x < 2 ^ lo) : slice hi lo x = 0 := by
  rw [slice, Nat.div_eq_of_lt hx, Nat.zero_mod]

/-- A field and the fields below it are bounded together. -/
theorem mul_pow_add_lt {x y a b : ℕ} (hx : x < 2 ^ a) (hy : y < 2 ^ b) :
    x * 2 ^ b + y < 2 ^ (a + b) := by
  have hle : (x + 1) * 2 ^ b ≤ 2 ^ a * 2 ^ b := Nat.mul_le_mul_right _ hx
  rw [pow_add]
  linarith

theorem InRange.toNat_lt {k : ℕ} {v : ℤ} (h : InRange k v) : v.toNat < 2 ^ k := by
  have hcast : ((v.toNat : ℕ) : ℤ) < ((2 ^ k : ℕ) : ℤ) := by
    rw [Int.toNat_of_nonneg h.1]
    push_cast
    exact h.2
  exact_mod_cast hcast

/-- The fields of a push and the idle count lie below the type bits. -/
theorem le_traceDataBits (w : TraceWidths) :
    w.IDLECYCLE_BITS + 2 ≤ traceDataBits w ∧
      w.PTW + w.TREE_NUM_BITS + w.MTW + w.PTW + 2 ≤ traceDataBits w := by
  unfold traceDataBits
  split_ifs with h <;> omega

/-- The four fields of a push, under a type bit at any position above them. -/
theorem decodes_fields {t m p₀ p₁ K : ℕ} (ht : t < 2 ^ w.TREE_NUM_BITS) (hm : m < 2 ^ w.MTW)
    (hp₀ : p₀ < 2 ^ w.PTW) (hp₁ : p₁ < 2 ^ w.PTW) (hPTW : 1 ≤ w.PTW)
    (hK : w.PTW + w.TREE_NUM_BITS + w.MTW + w.PTW ≤ K) :
    let x := 2 ^ K + (((t * 2 ^ w.MTW + m) * 2 ^ w.PTW + p₀) * 2 ^ w.PTW + p₁)
    iPushTreeId w x = t ∧ iPushData w x = m * 2 ^ w.PTW + p₀ ∧ iPushPriority w x = p₁ := by
  have hdata : m * 2 ^ w.PTW + p₀ < 2 ^ (w.MTW + w.PTW) := mul_pow_add_lt hm hp₀
  have hpow : ∀ a b, a + b = K → (2 : ℕ) ^ K = 2 ^ a * 2 ^ b := by
    rintro a b rfl
    exact pow_add 2 a b
  refine ⟨?_, ?_, ?_⟩
  · have htop := hpow (K - (w.TREE_NUM_BITS + (w.MTW + w.PTW + w.PTW)))
      (w.TREE_NUM_BITS + (w.MTW + w.PTW + w.PTW)) (by omega)
    refine slice_eq (2 ^ (K - (w.TREE_NUM_BITS + (w.MTW + w.PTW + w.PTW))))
      (c := (m * 2 ^ w.PTW + p₀) * 2 ^ w.PTW + p₁) (by omega) ?_ ht (mul_pow_add_lt hdata hp₁)
    rw [htop, pow_add 2 w.TREE_NUM_BITS, pow_add 2 (w.MTW + w.PTW), pow_add 2 w.MTW]
    ring
  · have htop := hpow (K - (w.MTW + w.PTW + w.PTW)) (w.MTW + w.PTW + w.PTW) (by omega)
    refine slice_eq (2 ^ (K - (w.MTW + w.PTW + w.PTW)) + t) (c := p₁) (by omega) ?_ hdata hp₁
    rw [htop, pow_add 2 (w.MTW + w.PTW), pow_add 2 w.MTW]
    ring
  · have htop := hpow (K - w.PTW) w.PTW (by omega)
    refine slice_eq (2 ^ (K - w.PTW) + ((t * 2 ^ w.MTW + m) * 2 ^ w.PTW + p₀)) (c := 0)
      (by omega) ?_ hp₁ (by simp)
    rw [htop]
    ring

/-- An idle count, below both type bits. -/
theorem decodes_idle (P : ReaderParams) {n : ℤ} (hr : (Record.idle n).Fits P.toTraceWidths) :
    Decodes P.toTraceWidths (.idle n) (word P.toTraceWidths (.idle n)) := by
  have hidleBits := (le_traceDataBits P.toTraceWidths).1
  have hIDLE := P.IDLECYCLE_BITS_pos
  obtain ⟨K, hK⟩ : ∃ K, traceDataBits P.toTraceWidths = K + 2 :=
    ⟨traceDataBits P.toTraceWidths - 2, by omega⟩
  have hlt : n.toNat < 2 ^ P.IDLECYCLE_BITS := InRange.toNat_lt hr
  have hK' : n.toNat < 2 ^ K := lt_of_lt_of_le hlt (Nat.pow_le_pow_right two_pos (by omega))
  have hK'' : n.toNat < 2 ^ (K + 1) :=
    lt_of_lt_of_le hK' (Nat.pow_le_pow_right two_pos (Nat.le_succ K))
  refine ⟨?_, ?_, ?_⟩
  · rw [word, iPush, hK, Nat.add_sub_cancel, slice_of_lt hK']
    simp [Record.type]
  · rw [word, iPop, hK, show K + 2 - 1 = K + 1 from rfl, slice_of_lt hK'']
    simp [Record.type]
  · have hslice : iIdleCycleCounter P.toTraceWidths n.toNat = n.toNat :=
      slice_eq 0 (c := 0) (by omega) (by ring) hlt (by simp)
    rw [FieldsDecode, word, hslice]
    exact Int.toNat_of_nonneg hr.1

/-- A push, under its own type bit. -/
theorem decodes_push (P : ReaderParams) {t m : ℤ} {ps : List ℤ}
    (hr : (Record.push t m ps).Fits P.toTraceWidths) :
    Decodes P.toTraceWidths (.push t m ps) (word P.toTraceWidths (.push t m ps)) := by
  have hpushBits := (le_traceDataBits P.toTraceWidths).2
  have hPTW := P.PTW_pos
  obtain ⟨K, hK⟩ : ∃ K, traceDataBits P.toTraceWidths = K + 2 :=
    ⟨traceDataBits P.toTraceWidths - 2, by omega⟩
  obtain ⟨p₀, p₁, rfl, -⟩ := exists_priorities_of_fits hr
  obtain ⟨ht, hm, hp₀, hp₁⟩ := hr
  have hbody : ((t.toNat * 2 ^ P.MTW + m.toNat) * 2 ^ P.PTW + p₀.toNat) * 2 ^ P.PTW + p₁.toNat <
      2 ^ K := by
    refine lt_of_lt_of_le (mul_pow_add_lt (mul_pow_add_lt (mul_pow_add_lt ht.toNat_lt hm.toNat_lt)
      hp₀.toNat_lt) hp₁.toNat_lt) (Nat.pow_le_pow_right two_pos ?_)
    omega
  obtain ⟨htree, hdata, hprio⟩ := decodes_fields ht.toNat_lt hm.toNat_lt hp₀.toNat_lt
    hp₁.toNat_lt hPTW (show _ ≤ K by omega)
  refine ⟨?_, ?_, ?_, ?_, ?_⟩
  · have hpush : slice K K (2 ^ K + (((t.toNat * 2 ^ P.MTW + m.toNat) * 2 ^ P.PTW +
        p₀.toNat) * 2 ^ P.PTW + p₁.toNat)) = 1 :=
      slice_eq 0 (k := 1) (by omega) (by ring) (by decide) hbody
    rw [word, iPush, hK, Nat.add_sub_cancel, hpush]
    simp [Record.type]
  · rw [word, iPop, hK, Nat.add_sub_cancel, show K + 2 - 1 = K + 1 from rfl, slice_of_lt]
    · simp [Record.type]
    · rw [pow_succ]
      omega
  · rw [word, hK, Nat.add_sub_cancel, htree]
    exact Int.toNat_of_nonneg ht.1
  · rw [word, hK, Nat.add_sub_cancel, hdata]
    push_cast
    rw [Int.toNat_of_nonneg hm.1, Int.toNat_of_nonneg hp₀.1]
  · rw [word, hK, Nat.add_sub_cancel, hprio]
    exact Int.toNat_of_nonneg hp₁.1

/-- A pop is its type bit alone. -/
theorem decodes_pop (P : ReaderParams) :
    Decodes P.toTraceWidths .pop (word P.toTraceWidths .pop) := by
  have hidleBits := (le_traceDataBits P.toTraceWidths).1
  have hIDLE := P.IDLECYCLE_BITS_pos
  obtain ⟨K, hK⟩ : ∃ K, traceDataBits P.toTraceWidths = K + 2 :=
    ⟨traceDataBits P.toTraceWidths - 2, by omega⟩
  refine ⟨?_, ?_, ?_⟩
  · have hpush : slice K K (2 ^ (K + 1)) = 0 :=
      slice_eq 1 (k := 1) (b := 0) (c := 0) (by omega) (by ring) (by decide) (Nat.two_pow_pos K)
    rw [word, iPush, hK, Nat.add_sub_cancel, show K + 2 - 1 = K + 1 from rfl, hpush]
    simp [Record.type]
  · have hpop : slice (K + 1) (K + 1) (2 ^ (K + 1)) = 1 :=
      slice_eq 0 (k := 1) (c := 0) (by omega) (by ring) (by decide) (Nat.two_pow_pos _)
    rw [word, iPop, hK, show K + 2 - 1 = K + 1 from rfl, hpop]
    simp [Record.type]
  · rw [FieldsDecode, word, hK, show K + 2 - 1 = K + 1 from rfl]
    refine slice_eq (2 ^ (K + 1 - P.IDLECYCLE_BITS)) (k := P.IDLECYCLE_BITS) (c := 0)
      (by omega) ?_ (Nat.two_pow_pos _) (by simp)
    rw [Nat.add_zero, pow_zero, Nat.mul_one, Nat.add_zero, ← pow_add]
    congr 1
    omega

/-- **The reader takes the word of a record apart again**, for any widths. -/
theorem decodes_word (P : ReaderParams) {r : Record} (hr : r.Fits P.toTraceWidths) :
    Decodes P.toTraceWidths r (word P.toTraceWidths r) := by
  cases r with
  | idle n => exact decodes_idle P hr
  | push t m ps => exact decodes_push P hr
  | pop => exact decodes_pop P

theorem bitsValue_formatBin_toNat (width : ℕ) {v : ℤ} (hv : 0 ≤ v) :
    bitsValue (formatBin width v) = v.toNat := by
  have hcast := bitsValue_formatBin width hv
  omega

/-- The line that the script writes for a record that fits has the value `word`. -/
theorem bitsValue_eq_word (hw : w.Ok) {r : Record} (hr : r.Fits w) {line : List Char}
    (henc : encodeLine w r.text = some line) : bitsValue line = word w r := by
  have htotal : totalWidth w = traceDataBits w := totalWidth_eq w
  cases r with
  | idle n =>
    rw [encodeLine_idle w hw] at henc
    obtain rfl := Option.some.inj henc
    have hzeros : bitsValue (formatBin (paddingBits w) 0) = 0 := bitsValue_formatBin_toNat _ le_rfl
    have hcons : ∀ s, bitsValue ('0' :: '0' :: s) = bitsValue s := by
      intro s
      have happ := bitsValue_append ['0', '0'] s
      rwa [show bitsValue ['0', '0'] = 0 from rfl, Nat.zero_mul, Nat.zero_add] at happ
    rw [hcons, bitsValue_append, hzeros, Nat.zero_mul, Nat.zero_add,
      bitsValue_formatBin_toNat _ hr.1, word]
  | push t m ps =>
    obtain ⟨p₀, p₁, rfl, -⟩ := exists_priorities_of_fits hr
    obtain ⟨ht, hm, hp₀, hp₁⟩ := hr
    rw [encodeLine_push w hw] at henc
    obtain rfl := Option.some.inj henc
    have hcons : ∀ s, bitsValue ('0' :: '1' :: s) = 2 ^ s.length + bitsValue s := by
      intro s
      have happ := bitsValue_append ['0', '1'] s
      rwa [show bitsValue ['0', '1'] = 1 from rfl, Nat.one_mul] at happ
    have hlen : traceDataBits w - 2 = w.TREE_NUM_BITS + (w.MTW + (w.PTW + w.PTW)) := by
      rw [← htotal, hw.totalWidth_eq]
      omega
    rw [hcons, bitsValue_append, bitsValue_append, bitsValue_append, word, hlen,
      bitsValue_formatBin_toNat _ ht.1, bitsValue_formatBin_toNat _ hm.1,
      bitsValue_formatBin_toNat _ hp₀.1, bitsValue_formatBin_toNat _ hp₁.1]
    simp only [List.length_append, ht.length hw.TREE_NUM_BITS_pos, hm.length hw.MTW_pos,
      hp₀.length hw.PTW_pos, hp₁.length hw.PTW_pos, pow_add]
    ring
  | pop =>
    rw [encodeLine_pop] at henc
    obtain rfl := Option.some.inj henc
    have hpos : 1 ≤ totalWidth w - 2 := by
      have hPTW := hw.PTW_pos
      have hwidth := hw.totalWidth_eq
      omega
    have happ := bitsValue_append ['1', '0'] (formatBin (totalWidth w - 2) 0)
    have hzeros : bitsValue (formatBin (totalWidth w - 2) 0) = 0 :=
      bitsValue_formatBin_toNat _ le_rfl
    rw [(InRange.zero _).length hpos, hzeros, Nat.add_zero] at happ
    change bitsValue (['1', '0'] ++ formatBin (totalWidth w - 2) 0) = _
    rw [happ, word, show bitsValue ['1', '0'] = 2 from rfl, ← pow_succ']
    congr 1
    omega

end Word

/-! ## The run -/

/-- The outputs when nothing is passed on. -/
def quiet (P : ReaderParams) : Shown where
  oPush := false
  oPop := false
  oPushPriority := 2 ^ P.PTW - 1
  oPushTreeId := 0
  oPushData := 2 ^ (P.MTW + P.PTW) - 1

/-- The outputs in the cycle after a record is read. -/
def outputs (P : ReaderParams) : Record → Shown
  | .push treeId pktMeta [priority0, priority1] =>
      ⟨true, false, priority1.toNat, treeId.toNat,
        pktMeta.toNat * 2 ^ P.PTW + priority0.toNat⟩
  | .pop => { quiet P with oPop := true }
  | _ => quiet P

/-- The cycles a record takes. -/
def duration : Record → ℕ
  | .idle idleCycle => 1 + idleCycle.toNat
  | _ => 1

/-- The cycle in which the record at position `a` is read. -/
def start (records : ℕ → Record) : ℕ → ℕ
  | 0 => 0
  | a + 1 => start records a + duration (records a)

theorem duration_pos (r : Record) : 1 ≤ duration r := by
  cases r <;> simp [duration]

theorem start_lt_start (records : ℕ → Record) {a b : ℕ} (hab : a < b) :
    start records a < start records b := by
  induction b with
  | zero => exact absurd hab (Nat.not_lt_zero a)
  | succ b ih =>
    have hpos := duration_pos (records b)
    rw [start]
    rcases Nat.lt_succ_iff_lt_or_eq.1 hab with hlt | rfl
    · have hb := ih hlt
      omega
    · omega

/-- Every cycle belongs to one of the records. -/
theorem exists_start (records : ℕ → Record) (c : ℕ) :
    ∃ a, start records a ≤ c ∧ c < start records (a + 1) := by
  induction c with
  | zero => exact ⟨0, le_rfl, start_lt_start records (Nat.lt_succ_self 0)⟩
  | succ c ih =>
    obtain ⟨a, hle, hlt⟩ := ih
    by_cases hnext : c + 1 < start records (a + 1)
    · exact ⟨a, by omega, hnext⟩
    · have hstep := start_lt_start records (show a + 1 < a + 1 + 1 by omega)
      exact ⟨a + 1, by omega, by omega⟩

theorem start_le_start (records : ℕ → Record) {a b : ℕ} (hab : a ≤ b) :
    start records a ≤ start records b := by
  rcases Nat.lt_or_eq_of_le hab with hlt | rfl
  · exact (start_lt_start records hlt).le
  · exact le_rfl

/-- The cycles up to a position depend on the records before it only. -/
theorem start_congr {records records' : ℕ → Record} {a : ℕ}
    (hsame : ∀ b < a, records b = records' b) : start records a = start records' a := by
  induction a with
  | zero => rfl
  | succ a ih =>
    rw [start, start, ih fun b hb => hsame b (by omega), hsame a (Nat.lt_succ_self a)]

section Run

variable {P : ReaderParams} {mem : ℕ → ℕ} {r : Record}

variable (mem) in
/-- A ROM that is not enabled leaves the outputs quiet. -/
theorem shown_step_of_idle {s : Reader} (hidle : s.idleCycleCounter ≠ 0) :
    (s.step P mem).shown = quiet P ∧
      (s.step P mem).idleCycleCounter = s.idleCycleCounter - 1 ∧
      (s.step P mem).readAddr = s.readAddr := by
  have hread : s.read = false := by simp [Reader.read, hidle]
  have hdata : s.iTraceData mem = 0 := by rw [Reader.iTraceData, hread]; rfl
  have hpush : iPush P.toTraceWidths 0 = 0 := slice_of_lt (Nat.two_pow_pos _)
  have hpop : iPop P.toTraceWidths 0 = 0 := slice_of_lt (Nat.two_pow_pos _)
  refine ⟨?_, ?_, ?_⟩
  · simp [Reader.shown, Reader.step, quiet, hdata, hpush, hpop]
  · simp [Reader.step, hread, hidle]
  · simp [Reader.step, hread]

/-- The word that is read. -/
theorem iTraceData_of_read {s : Reader} (hread : s.idleCycleCounter = 0)
    (hmem : mem s.readAddr = word P.toTraceWidths r) :
    s.iTraceData mem = word P.toTraceWidths r := by
  have hen : s.read = true := by simp [Reader.read, hread]
  rw [Reader.iTraceData, hen]
  exact hmem

/-- What a record shows. -/
theorem shown_of_read {s : Reader} (hread : s.idleCycleCounter = 0) (hr : r.Fits P.toTraceWidths)
    (hmem : mem s.readAddr = word P.toTraceWidths r) : (s.step P mem).shown = outputs P r := by
  have hdata := iTraceData_of_read hread hmem
  obtain ⟨hpush, hpop, hfields⟩ := decodes_word P hr
  cases r with
  | idle n =>
    have hpush' : ¬iPush P.toTraceWidths (word P.toTraceWidths (.idle n)) = 1 := by
      simp [hpush, Record.type]
    have hpop' : ¬iPop P.toTraceWidths (word P.toTraceWidths (.idle n)) = 1 := by
      simp [hpop, Record.type]
    simp [Reader.shown, Reader.step, hdata, hpush', hpop', outputs, quiet]
  | push t m ps =>
    obtain ⟨p₀, p₁, rfl, -⟩ := exists_priorities_of_fits hr
    have hpush' := hpush.2 rfl
    have hpop' : ¬iPop P.toTraceWidths (word P.toTraceWidths (.push t m [p₀, p₁])) = 1 := by
      simp [hpop, Record.type]
    obtain ⟨htree, hvalue, hprio⟩ := hfields
    have htree' := congrArg Int.toNat htree
    have hvalue' := congrArg Int.toNat hvalue
    have hprio' := congrArg Int.toNat hprio
    have hsum : (m * 2 ^ P.PTW + p₀).toNat = m.toNat * 2 ^ P.PTW + p₀.toNat := by
      obtain ⟨m, rfl⟩ := Int.eq_ofNat_of_zero_le hr.2.1.1
      obtain ⟨p₀, rfl⟩ := Int.eq_ofNat_of_zero_le hr.2.2.1.1
      exact_mod_cast rfl
    rw [hsum] at hvalue'
    rw [Int.toNat_natCast] at htree' hvalue' hprio'
    simp [Reader.shown, Reader.step, hdata, hpush', hpop', outputs, htree', hvalue', hprio']
  | pop =>
    have hpush' : ¬iPush P.toTraceWidths (word P.toTraceWidths .pop) = 1 := by
      simp [hpush, Record.type]
    have hpop' := hpop.2 rfl
    simp [Reader.shown, Reader.step, hdata, hpush', hpop', outputs, quiet]

/-- How long it is shown. -/
theorem counter_of_read {s : Reader} (hread : s.idleCycleCounter = 0)
    (hr : r.Fits P.toTraceWidths) (hmem : mem s.readAddr = word P.toTraceWidths r) :
    (s.step P mem).idleCycleCounter = duration r - 1 := by
  have hen : s.read = true := by simp [Reader.read, hread]
  have hdata := iTraceData_of_read hread hmem
  obtain ⟨hpush, -, hfields⟩ := decodes_word P hr
  cases r with
  | idle n =>
    have hpush' : ¬iPush P.toTraceWidths (word P.toTraceWidths (.idle n)) = 1 := by
      simp [hpush, Record.type]
    have hcount : iIdleCycleCounter P.toTraceWidths (word P.toTraceWidths (.idle n)) =
        n.toNat := by
      have hcast : ((iIdleCycleCounter P.toTraceWidths
          (word P.toTraceWidths (.idle n)) : ℕ) : ℤ) = n := hfields
      omega
    simp [Reader.step, hdata, hpush', hen, hcount, duration]
  | push t m ps =>
    have hpush' := hpush.2 rfl
    simp [Reader.step, hdata, hpush', hread, duration]
  | pop =>
    have hpush' : ¬iPush P.toTraceWidths (word P.toTraceWidths .pop) = 1 := by
      simp [hpush, Record.type]
    have hcount : iIdleCycleCounter P.toTraceWidths (word P.toTraceWidths .pop) = 0 := hfields
    simp [Reader.step, hdata, hpush', hen, hcount, duration]

/-- Reading a record. -/
theorem step_of_read {s : Reader} (hread : s.idleCycleCounter = 0) (hr : r.Fits P.toTraceWidths)
    (hmem : mem s.readAddr = word P.toTraceWidths r) :
    (s.step P mem).shown = outputs P r ∧
      (s.step P mem).idleCycleCounter = duration r - 1 ∧
      (s.step P mem).readAddr = (s.readAddr + 1) % 2 ^ P.ROM_WIDTH := by
  have hen : s.read = true := by simp [Reader.read, hread]
  exact ⟨shown_of_read hread hr hmem, counter_of_read hread hr hmem, by simp [Reader.step, hen]⟩

variable (P) (records : ℕ → Record)

/-- The ROM with these records. -/
def romOf (a : ℕ) : ℕ := word P.toTraceWidths (records a)

/-- The records as they are read: after the last address comes the first again. -/
def played (a : ℕ) : Record := records (a % P.ROM_SIZE)

variable {P records}

theorem ROM_SIZE_pos (P : ReaderParams) : 0 < P.ROM_SIZE := Nat.two_pow_pos _

/-- Between two reads: the cycle after the first shows its record, the cycles after that
are quiet, and the counter runs down. -/
theorem run_within_of_start (hfits : ∀ a < P.ROM_SIZE, (records a).Fits P.toTraceWidths) {a : ℕ}
    (hread : (readerRun P (romOf P records) (start (played P records) a)).idleCycleCounter = 0)
    (haddr : (readerRun P (romOf P records) (start (played P records) a)).readAddr =
      a % P.ROM_SIZE) {j : ℕ} (hj : j + 1 ≤ duration (played P records a)) :
    let s := readerRun P (romOf P records) (start (played P records) a + (j + 1))
    s.shown = (if j = 0 then outputs P (played P records a) else quiet P) ∧
      s.idleCycleCounter = duration (played P records a) - (j + 1) ∧
      s.readAddr = (a + 1) % P.ROM_SIZE := by
  induction j with
  | zero =>
    have hr := hfits (a % P.ROM_SIZE) (Nat.mod_lt _ (ROM_SIZE_pos P))
    have hmem : romOf P records
        (readerRun P (romOf P records) (start (played P records) a)).readAddr =
          word P.toTraceWidths (played P records a) := by
      rw [haddr]
      rfl
    obtain ⟨hshown, hcounter, hnext⟩ := step_of_read hread hr hmem
    refine ⟨hshown, hcounter, hnext.trans ?_⟩
    rw [haddr]
    exact Nat.mod_add_mod a P.ROM_SIZE 1
  | succ j ih =>
    obtain ⟨-, hcounter, hnext⟩ := ih (by omega)
    have hidle : (readerRun P (romOf P records)
        (start (played P records) a + (j + 1))).idleCycleCounter ≠ 0 := by omega
    obtain ⟨hshown, hcounter', hnext'⟩ := shown_step_of_idle (romOf P records) hidle
    refine ⟨by rw [if_neg (Nat.succ_ne_zero j)]; exact hshown, ?_, hnext'.trans hnext⟩
    exact hcounter'.trans (by omega)

/-- **When a record is read.**  In cycle `start a` the counter is zero and the address is
the `a`-th. -/
theorem run_start (hfits : ∀ a < P.ROM_SIZE, (records a).Fits P.toTraceWidths) (a : ℕ) :
    (readerRun P (romOf P records) (start (played P records) a)).idleCycleCounter = 0 ∧
      (readerRun P (romOf P records) (start (played P records) a)).readAddr = a % P.ROM_SIZE := by
  induction a with
  | zero => exact ⟨rfl, (Nat.zero_mod _).symm⟩
  | succ a ih =>
    have hpos := duration_pos (played P records a)
    obtain ⟨-, hcounter, haddr⟩ := run_within_of_start hfits ih.1 ih.2
      (j := duration (played P records a) - 1) (by omega)
    rw [show start (played P records) a + (duration (played P records a) - 1 + 1) =
      start (played P records) (a + 1) by rw [start]; omega] at hcounter haddr
    exact ⟨hcounter.trans (by omega), haddr⟩

/-- **What is shown after a read**, until the cycle after the next one. -/
theorem run_within (hfits : ∀ a < P.ROM_SIZE, (records a).Fits P.toTraceWidths) {a j : ℕ}
    (hj : j < duration (played P records a)) :
    (readerRun P (romOf P records) (start (played P records) a + j + 1)).shown =
      if j = 0 then outputs P (played P records a) else quiet P := by
  obtain ⟨hread, haddr⟩ := run_start hfits a
  exact (run_within_of_start hfits hread haddr hj).1

/-- The reader reads in the first cycle of a record only. -/
theorem read_iff (hfits : ∀ a < P.ROM_SIZE, (records a).Fits P.toTraceWidths) {a j : ℕ}
    (hj : j < duration (played P records a)) :
    (readerRun P (romOf P records) (start (played P records) a + j)).read = true ↔ j = 0 := by
  obtain ⟨hread, haddr⟩ := run_start hfits a
  cases j with
  | zero => simpa [Reader.read] using hread
  | succ j =>
    obtain ⟨-, hcounter, -⟩ := run_within_of_start hfits hread haddr hj.le
    have hne : (readerRun P (romOf P records)
        (start (played P records) a + (j + 1))).idleCycleCounter ≠ 0 := by omega
    simp [Reader.read, hne]

/-- **The reader replays the ROM.**  For all widths, a ROM of a power of two words and any
records that fit in it, from reset until `read_addr` wraps: nothing is shown in the first
cycle; the record at an address is read in exactly one cycle, `start a`, so that the
records come in the order of their addresses, a push or a pop takes one cycle and an idle
record one more than its count; and the cycle after a read shows the push or the pop with
its fields, all other cycles are quiet. -/
theorem reader_replays (P : ReaderParams) (records : ℕ → Record)
    (hfits : ∀ a < P.ROM_SIZE, (records a).Fits P.toTraceWidths) :
    (readerRun P (romOf P records) 0).shown = quiet P ∧
      (∀ c < start records P.ROM_SIZE, ∀ a < P.ROM_SIZE,
        ((readerRun P (romOf P records) c).read = true ∧
          (readerRun P (romOf P records) c).readAddr = a) ↔ c = start records a) ∧
      (∀ a < P.ROM_SIZE, ∀ c, start records a ≤ c → c < start records (a + 1) →
        (readerRun P (romOf P records) (c + 1)).shown =
          if c = start records a then outputs P (records a) else quiet P) ∧
      ∀ c < start records P.ROM_SIZE, ∃ a < P.ROM_SIZE,
        start records a ≤ c ∧ c < start records (a + 1) := by
  have hplayed : ∀ a < P.ROM_SIZE, played P records a = records a := by
    intro a ha
    rw [played, Nat.mod_eq_of_lt ha]
  have hstart : ∀ a ≤ P.ROM_SIZE, start (played P records) a = start records a :=
    fun a ha => start_congr fun b hb => hplayed b (lt_of_lt_of_le hb ha)
  -- the record to which a cycle belongs
  have hbelongs : ∀ c < start records P.ROM_SIZE, ∃ a < P.ROM_SIZE,
      start records a ≤ c ∧ c < start records (a + 1) := by
    intro c hc
    obtain ⟨a, hle, hlt⟩ := exists_start records c
    refine ⟨a, ?_, hle, hlt⟩
    by_contra hge
    have hmono := start_le_start records (Nat.le_of_not_lt hge)
    omega
  refine ⟨rfl, ?_, ?_, hbelongs⟩
  · intro c hc a ha
    constructor
    · rintro ⟨hread, haddr⟩
      obtain ⟨b, hb, hle, hlt⟩ := hbelongs c hc
      have hj : c - start records b < duration (played P records b) := by
        rw [hplayed b hb]
        rw [start] at hlt
        omega
      have hc' : start (played P records) b + (c - start records b) = c := by
        rw [hstart b hb.le]
        omega
      have hzero := (read_iff hfits hj).1 (by rwa [hc'])
      obtain rfl : c = start records b := by omega
      have haddr' := (run_start hfits b).2
      rw [hstart b hb.le, haddr, Nat.mod_eq_of_lt hb] at haddr'
      rw [haddr']
    · rintro rfl
      have hrun := run_start hfits a
      rw [hstart a ha.le, Nat.mod_eq_of_lt ha] at hrun
      exact ⟨by simpa [Reader.read] using hrun.1, hrun.2⟩
  · intro a ha c hle hlt
    have hj : c - start records a < duration (played P records a) := by
      rw [hplayed a ha]
      rw [start] at hlt
      omega
    have hshown := run_within hfits hj
    rw [hstart a ha.le, show start records a + (c - start records a) + 1 = c + 1 by omega,
      hplayed a ha] at hshown
    rw [hshown]
    refine if_congr ?_ rfl rfl
    omega

end Run

/-- Fields of one, two and three bits, and a ROM of two words. -/
def smallReader : ReaderParams where
  PTW := 3
  MTW := 2
  TREE_NUM_BITS := 2
  IDLECYCLE_BITS := 1
  ROM_WIDTH := 1
  PTW_pos := Nat.succ_pos 2
  MTW_pos := Nat.two_pos
  TREE_NUM_BITS_pos := Nat.two_pos
  IDLECYCLE_BITS_pos := Nat.one_pos

/-- A push in the first word, an idle record in the second. -/
def smallRecords (a : ℕ) : Record := if a = 0 then .push 1 3 [5, 6] else .idle 1

/-- The push is shown in cycle 1, and the idle record takes the cycles 1 and 2. -/
theorem reader_replays_small :
    (readerRun smallReader (romOf smallReader smallRecords) 1).shown = ⟨true, false, 6, 1, 29⟩ ∧
      start smallRecords 2 = 3 := by
  have hfits : ∀ a < smallReader.ROM_SIZE, (smallRecords a).Fits smallReader.toTraceWidths := by
    intro a ha
    have ha' : a < 2 := ha
    interval_cases a
    · exact ⟨by decide, by decide, by decide, by decide⟩
    · exact (by decide : InRange 1 1)
  obtain ⟨-, -, hshown, -⟩ := reader_replays smallReader smallRecords hfits
  exact ⟨hshown 0 (by decide) 0 le_rfl (by decide), rfl⟩

end VPifo.Trace
