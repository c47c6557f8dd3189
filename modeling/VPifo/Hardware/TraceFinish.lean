import VPifo.Hardware.TraceReader
import VPifo.Compiler.TraceFits
import Mathlib.Data.List.GetD

/-!
# `o_finish`

The compiler ends every trace with an idle record of the largest count, the script fills
the ROM up with zeros behind it, and `TRACE_READER` raises `o_finish` when the low bits of
the word being read are all ones.  Two things are missing for `o_finish` to mean the end
of the trace.

The counter is reloaded from a word that is no push, `o_finish` looks at any word: the low
bits of a push are those of its priority at the root, and a priority that is 255 modulo
256 raises `o_finish` in the middle of the trace (`finishIsLate_iff`).  And nothing stops
`read_addr`: it runs through the zeros, wraps and plays the trace again, so that the first
push after the wrap comes after an `o_finish` (`finish_marks_the_end_iff`).

Both are read off `oFinish_iff` and `call_iff`, which say of any cycle whether `o_finish`,
`o_push` or `o_pop` is up by the record that is read in it or in the one before.
-/

namespace VPifo.Trace

open Numerals Sdl

/-- The memory that `$readmemb` fills from the lines of the script. -/
def memOf (image : List (List Char)) (a : ℕ) : ℕ := bitsValue (image.getD a [])

/-- The records in the ROM: those of the trace, then zeros. -/
def romRecords (trace : List Record) (a : ℕ) : Record := trace.getD a (.idle 0)

section Finish

variable (P : ReaderParams)

/-- The low bits of the record's word are all ones. -/
def LooksFinal (r : Record) : Prop :=
  iIdleCycleCounter P.toTraceWidths (word P.toTraceWidths r) = 2 ^ P.IDLECYCLE_BITS - 1

instance (r : Record) : Decidable (LooksFinal P r) := inferInstanceAs (Decidable (_ = _))

/-- `o_finish` comes only when the word at address `last` is being read or has been. -/
def FinishIsLate (mem : ℕ → ℕ) (last : ℕ) : Prop :=
  ∀ c, (readerRun P mem c).oFinish P mem = true →
    ∃ c' ≤ c, (readerRun P mem c').read = true ∧ (readerRun P mem c').readAddr = last

/-- There is no push and no pop after an `o_finish`. -/
def QuietAfterFinish (mem : ℕ → ℕ) : Prop :=
  ∀ c, (readerRun P mem c).oFinish P mem = true → ∀ c' > c,
    (readerRun P mem c').push = false ∧ (readerRun P mem c').pop = false

/-- The same up to a cycle. -/
def QuietAfterFinishUpTo (mem : ℕ → ℕ) (cycle : ℕ) : Prop :=
  ∀ c, (readerRun P mem c).oFinish P mem = true → ∀ c' > c, c' ≤ cycle →
    (readerRun P mem c').push = false ∧ (readerRun P mem c').pop = false

variable {P} {records : ℕ → Record}

/-! ## What a cycle shows -/

variable (P records) in
/-- Every cycle is some cycle of a record. -/
theorem exists_start_add (c : ℕ) :
    ∃ a j, c = start (played P records) a + j ∧ j < duration (played P records a) := by
  obtain ⟨a, hle, hlt⟩ := exists_start (played P records) c
  rw [start] at hlt
  exact ⟨a, c - start (played P records) a, by omega, by omega⟩

/-- A cycle in which a record is read is the first cycle of the record. -/
theorem exists_of_read (hfits : ∀ a < P.ROM_SIZE, (records a).Fits P.toTraceWidths) {c : ℕ}
    (hread : (readerRun P (romOf P records) c).read = true) :
    ∃ a, c = start (played P records) a := by
  obtain ⟨a, j, rfl, hj⟩ := exists_start_add P records c
  exact ⟨a, by rw [(read_iff hfits hj).1 hread, Nat.add_zero]⟩

/-- `o_finish` is up when a record is read whose low bits are all ones. -/
theorem oFinish_iff (hfits : ∀ a < P.ROM_SIZE, (records a).Fits P.toTraceWidths) (c : ℕ) :
    (readerRun P (romOf P records) c).oFinish P (romOf P records) = true ↔
      ∃ a, c = start (played P records) a ∧ LooksFinal P (played P records a) := by
  have hword : ∀ a, (readerRun P (romOf P records)
      (start (played P records) a)).iTraceData (romOf P records) =
        word P.toTraceWidths (played P records a) := by
    intro a
    obtain ⟨hread, haddr⟩ := run_start hfits a
    rw [Reader.iTraceData, haddr]
    simp [Reader.read, hread, oTraceData, romOf, played]
  constructor
  · intro hfinish
    obtain ⟨hread, hlow⟩ := Bool.and_eq_true_iff.1 hfinish
    obtain ⟨a, rfl⟩ := exists_of_read hfits hread
    rw [hword] at hlow
    exact ⟨a, rfl, beq_iff_eq.1 hlow⟩
  · rintro ⟨a, rfl, hfinal⟩
    refine Bool.and_eq_true_iff.2 ⟨?_, ?_⟩
    · simpa [Reader.read] using (run_start hfits a).1
    · rw [hword]
      exact beq_iff_eq.2 hfinal

theorem outputs_iff {r : Record} (hr : r.Fits P.toTraceWidths) :
    ((outputs P r).oPush = true ∨ (outputs P r).oPop = true) ↔ r.type ≠ 0 := by
  cases r with
  | idle n => simp [outputs, quiet, Record.type]
  | push t m ps =>
    obtain ⟨p₀, p₁, rfl, -⟩ := exists_priorities_of_fits hr
    simp [outputs, Record.type]
  | pop => simp [outputs, Record.type]

/-- `o_push` or `o_pop` is up in the cycle after a push or a pop is read. -/
theorem call_iff (hfits : ∀ a < P.ROM_SIZE, (records a).Fits P.toTraceWidths) (c : ℕ) :
    ((readerRun P (romOf P records) (c + 1)).push = true ∨
        (readerRun P (romOf P records) (c + 1)).pop = true) ↔
      ∃ a, c = start (played P records) a ∧ (played P records a).type ≠ 0 := by
  have hr : ∀ a, (played P records a).Fits P.toTraceWidths :=
    fun a => hfits (a % P.ROM_SIZE) (Nat.mod_lt _ (ROM_SIZE_pos P))
  have hshown : ∀ a j, j < duration (played P records a) →
      (((readerRun P (romOf P records) (start (played P records) a + j + 1)).push = true ∨
        (readerRun P (romOf P records) (start (played P records) a + j + 1)).pop = true) ↔
          j = 0 ∧ (played P records a).type ≠ 0) := by
    intro a j hj
    have hrun := run_within hfits hj
    have hpush := congrArg Shown.oPush hrun
    have hpop := congrArg Shown.oPop hrun
    by_cases hzero : j = 0
    · rw [if_pos hzero] at hpush hpop
      rw [← outputs_iff (hr a), ← hpush, ← hpop]
      simp [hzero, Reader.shown]
    · rw [if_neg hzero] at hpush hpop
      have hpush' : (readerRun P (romOf P records)
          (start (played P records) a + j + 1)).push = false := hpush
      have hpop' : (readerRun P (romOf P records)
          (start (played P records) a + j + 1)).pop = false := hpop
      simp [hzero, hpush', hpop']
  constructor
  · intro hcall
    obtain ⟨a, j, rfl, hj⟩ := exists_start_add P records c
    obtain ⟨rfl, htype⟩ := (hshown a j hj).1 hcall
    exact ⟨a, rfl, htype⟩
  · rintro ⟨a, rfl, htype⟩
    exact (hshown a 0 (duration_pos _)).2 ⟨rfl, htype⟩

theorem quiet_iff (c : ℕ) (mem : ℕ → ℕ) :
    ((readerRun P mem c).push = false ∧ (readerRun P mem c).pop = false) ↔
      ¬((readerRun P mem c).push = true ∨ (readerRun P mem c).pop = true) := by
  rw [not_or, Bool.not_eq_true, Bool.not_eq_true]

/-! ## The trace of a list of packets -/

/-- The script encodes every line of a trace that fits, each as the word of its record. -/
theorem mapM_encodeLine_of_fits (hw : P.toTraceWidths.Ok) {trace : List Record}
    (hfits : ∀ r ∈ trace, r.Fits P.toTraceWidths) :
    ∃ mem, (trace.map Record.text).mapM (encodeLine P.toTraceWidths) = some mem ∧
      mem.map bitsValue = trace.map (word P.toTraceWidths) := by
  induction trace with
  | nil => exact ⟨[], rfl, rfl⟩
  | cons r trace ih =>
    have hr := hfits r List.mem_cons_self
    obtain ⟨line, henc, -⟩ := wellFormed_of_fits hw hr
    obtain ⟨mem, hmem, hvalues⟩ := ih fun r' hr' => hfits r' (List.mem_cons_of_mem r hr')
    refine ⟨line :: mem, ?_, ?_⟩
    · rw [List.map_cons, List.mapM_cons, henc, hmem]
      rfl
    · rw [List.map_cons, List.map_cons, hvalues, bitsValue_eq_word hw hr henc]

/-- The memory of a trace that fits holds the words of its records, then zeros. -/
theorem memOf_image (hw : P.toTraceWidths.Ok) (romSize : ℕ) {trace : List Record}
    (hfits : ∀ r ∈ trace, r.Fits P.toTraceWidths) :
    ∃ image, trace2mem P.toTraceWidths romSize (trace.map Record.text) = some image ∧
      memOf image = romOf P (romRecords trace) := by
  obtain ⟨mem, hmem, hvalues⟩ := mapM_encodeLine_of_fits hw hfits
  refine ⟨_, by rw [trace2mem, hmem]; rfl, ?_⟩
  have hzero : bitsValue (formatBin (totalWidth P.toTraceWidths) 0) = 0 :=
    bitsValue_formatBin_toNat _ le_rfl
  funext a
  have hget : memOf (mem ++ List.replicate (romSize - (trace.map Record.text).length)
      (formatBin (totalWidth P.toTraceWidths) 0)) a =
        (trace.map (word P.toTraceWidths) ++
          List.replicate (romSize - (trace.map Record.text).length) 0).getD a 0 := by
    have hpad : List.replicate (romSize - (trace.map Record.text).length) 0 =
        (List.replicate (romSize - (trace.map Record.text).length)
          (formatBin (totalWidth P.toTraceWidths) 0)).map bitsValue := by
      rw [List.map_replicate, hzero]
    rw [← hvalues, hpad, ← List.map_append]
    exact (List.getD_map _ [] bitsValue).symm
  have hword : romOf P (romRecords trace) a = (trace.map (word P.toTraceWidths)).getD a 0 :=
    (List.getD_map trace (Record.idle 0) (word P.toTraceWidths)).symm
  rw [hget, hword]
  by_cases ha : a < (trace.map (word P.toTraceWidths)).length
  · exact List.getD_append _ _ _ _ ha
  · rw [List.getD_append_right _ _ _ _ (Nat.le_of_not_lt ha),
      List.getD_eq_default _ _ (Nat.le_of_not_lt ha)]
    simp

variable {F : Type} {D : Doubles F} {h : Heap F} {sizes : String → Option ℤ}

/-- The idle records before the last have a count that is not the largest. -/
theorem idle_le_of_printed {q : Queues F} {pktId : ℤ} {ts : List Tagged} {out : List Record}
    (hprinted : Printed D h sizes q pktId ts out) {n : ℤ} (hn : Record.idle n ∈ out) :
    n ≤ MAX_INTERVAL_IDLECYCLE := by
  induction hprinted with
  | nil q pktId => simp at hn
  | @cons q q' pktId t ts leafNode priorityVec out leaf ranks rest ih =>
    simp only [List.mem_append, List.mem_cons, reduceCtorEq, false_or] at hn
    rcases hn with hgap | hn
    · unfold gapRecord at hgap
      split_ifs at hgap
      · obtain rfl := Record.idle.inj (List.mem_singleton.1 hgap)
        exact min_le_right _ _
      · obtain rfl := Record.idle.inj (List.mem_singleton.1 hgap)
        decide
      · simp at hgap
    · exact ih hn

/-- The packets that are tagged are those of the attached flows. -/
theorem taggedFrom_eq_nil_iff (packets : List Packet) :
    taggedFrom D h 0 0 packets = [] ↔ ∀ p ∈ packets, h.flowNodeMap p.flowId = none := by
  induction packets with
  | nil => simp [taggedFrom]
  | cons p ps ih =>
    rw [taggedFrom, if_neg (by decide), List.forall_mem_cons, ← ih]
    cases hflow : h.flowNodeMap p.flowId <;> simp

/-- Something is printed exactly for a packet of an attached flow, and it is a push. -/
theorem exists_push_iff {packets : List Packet} {hasPFabric : Bool} {trace : List Record}
    (htag : tagPriority D h packets hasPFabric = some trace) :
    (∃ r ∈ trace, r.type ≠ 0) ↔ ∃ p ∈ packets, (h.flowNodeMap p.flowId).isSome := by
  obtain ⟨out, hloop, rfl⟩ := Option.map_eq_some_iff.1 htag
  have hprinted := printed_of_tagLoop hloop
  have hout : (∃ r ∈ out ++ [Record.idle MAX_IDLECYCLE], r.type ≠ 0) ↔
      taggedFrom D h 0 0 packets ≠ [] := by
    cases hts : taggedFrom D h 0 0 packets with
    | nil =>
      rw [hts] at hprinted
      cases hprinted
      simp [Record.type]
    | cons t ts =>
      rw [hts] at hprinted
      cases hprinted
      simp only [ne_eq, reduceCtorEq, not_false_eq_true, iff_true]
      refine ⟨.pop, ?_, by decide⟩
      simp
  rw [hout, Ne, taggedFrom_eq_nil_iff]
  push Not
  simp only [Option.isSome_iff_ne_none]

theorem fits_romRecords {trace : List Record} (hfits : ∀ r ∈ trace, r.Fits P.toTraceWidths)
    (a : ℕ) : (romRecords trace a).Fits P.toTraceWidths := by
  rw [romRecords]
  rcases Nat.lt_or_ge a trace.length with ha | ha
  · rw [List.getD_eq_getElem _ _ ha]
    exact hfits _ (List.getElem_mem ha)
  · rw [List.getD_eq_default _ _ ha]
    exact InRange.zero _

/-- The last record of a trace and the zeros behind it are idle. -/
theorem type_romRecords {out : List Record} {n : ℤ} {a : ℕ} (ha : out.length ≤ a) :
    (romRecords (out ++ [.idle n]) a).type = 0 := by
  rw [romRecords, List.getD_append_right _ _ _ _ ha]
  cases a - out.length <;> rfl

/-- Which records besides the pushes have all ones at the bottom. -/
theorem looksFinal_iff {r : Record} (hr : r.Fits P.toTraceWidths) (hpush : r.type ≠ 1) :
    LooksFinal P r ↔ r = .idle (2 ^ P.IDLECYCLE_BITS - 1) := by
  have hpos : 1 ≤ 2 ^ P.IDLECYCLE_BITS := Nat.one_le_two_pow
  have htwo : 2 ≤ 2 ^ P.IDLECYCLE_BITS :=
    le_trans (by decide) (Nat.pow_le_pow_right two_pos P.IDLECYCLE_BITS_pos)
  cases r with
  | idle n =>
    have hfields : ((iIdleCycleCounter P.toTraceWidths
        (word P.toTraceWidths (.idle n)) : ℕ) : ℤ) = n := (decodes_word P hr).fields
    have hcast : ((2 ^ P.IDLECYCLE_BITS - 1 : ℕ) : ℤ) = 2 ^ P.IDLECYCLE_BITS - 1 := by
      rw [Nat.cast_sub hpos]
      push_cast
      rfl
    rw [Record.idle.injEq, LooksFinal, ← Int.natCast_inj, hfields, hcast]
  | push t m ps => exact absurd rfl hpush
  | pop =>
    have hfields : iIdleCycleCounter P.toTraceWidths (word P.toTraceWidths .pop) = 0 :=
      (decodes_word P hr).fields
    rw [LooksFinal, hfields]
    simp only [reduceCtorEq, iff_false]
    omega

/-- With no push that looks final, only the last record of the trace does. -/
theorem looksFinal_romRecords {out : List Record}
    (hfits : ∀ r ∈ out ++ [Record.idle MAX_IDLECYCLE], r.Fits P.toTraceWidths)
    (hidle : P.IDLECYCLE_BITS = 8) (hcounts : ∀ n, Record.idle n ∈ out → n ≤ MAX_INTERVAL_IDLECYCLE)
    (hpush : ∀ r ∈ out, r.type = 1 → ¬LooksFinal P r) {a : ℕ}
    (ha : LooksFinal P (romRecords (out ++ [.idle MAX_IDLECYCLE]) a)) : a = out.length := by
  have hr := fits_romRecords hfits a
  have hlarge : (2 : ℤ) ^ P.IDLECYCLE_BITS - 1 = 255 := by rw [hidle]; norm_num
  rcases Nat.lt_trichotomy a out.length with hlt | heq | hgt
  · have hmem : romRecords (out ++ [.idle MAX_IDLECYCLE]) a ∈ out := by
      rw [romRecords, List.getD_append _ _ _ _ hlt, List.getD_eq_getElem _ _ hlt]
      exact List.getElem_mem hlt
    by_cases htype : (romRecords (out ++ [.idle MAX_IDLECYCLE]) a).type = 1
    · exact absurd ha (hpush _ hmem htype)
    · rw [(looksFinal_iff hr htype).1 ha, hlarge] at hmem
      exact absurd (hcounts 255 hmem) (by decide)
  · exact heq
  · have hzero : romRecords (out ++ [.idle MAX_IDLECYCLE]) a = .idle 0 := by
      rw [romRecords, List.getD_eq_default]
      rw [List.length_append, List.length_singleton]
      omega
    rw [hzero] at ha hr
    have hfinal := (looksFinal_iff hr (by decide)).1 ha
    rw [hlarge] at hfinal
    exact absurd hfinal (by decide)

theorem looksFinal_last {n : ℤ} (hn : (Record.idle n).Fits P.toTraceWidths)
    (hlarge : n = 2 ^ P.IDLECYCLE_BITS - 1) (out : List Record) :
    LooksFinal P (romRecords (out ++ [.idle n]) out.length) := by
  have hlast : romRecords (out ++ [.idle n]) out.length = .idle n := by
    rw [romRecords, List.getD_append_right _ _ _ _ le_rfl, Nat.sub_self]
    rfl
  rw [hlast]
  exact (looksFinal_iff hn (by simp [Record.type])).2 (by rw [hlarge])

/-- The record at an address is played again and again. -/
theorem played_add (a k : ℕ) : played P records (a + k * P.ROM_SIZE) = played P records a := by
  rw [played, played, Nat.add_mul_mod_self_right]

theorem played_of_lt {a : ℕ} (ha : a < P.ROM_SIZE) : played P records a = records a := by
  rw [played, Nat.mod_eq_of_lt ha]

/-- A ROM of idle records passes nothing on. -/
theorem quietAfterFinish_of_idle (hfits : ∀ a < P.ROM_SIZE, (records a).Fits P.toTraceWidths)
    (hidle : ∀ a, (records a).type = 0) : QuietAfterFinish P (romOf P records) := by
  intro c _ c' hc'
  obtain ⟨c, rfl⟩ : ∃ d, c' = d + 1 := ⟨c' - 1, by omega⟩
  rw [quiet_iff, call_iff hfits]
  rintro ⟨b, -, htype⟩
  exact htype (hidle _)

/-- The reader does not stop: what is quiet after a record that looks final has nothing
but idle records, since each of the others is played again after the wrap. -/
theorem QuietAfterFinish.type_eq_zero
    (hfits : ∀ a < P.ROM_SIZE, (records a).Fits P.toTraceWidths)
    (hquiet : QuietAfterFinish P (romOf P records)) {a i : ℕ} (ha : a < P.ROM_SIZE)
    (hfinal : LooksFinal P (records a)) (hi : i < P.ROM_SIZE) : (records i).type = 0 := by
  by_contra htype
  have hfinish := (oFinish_iff hfits _).2 ⟨a, rfl, by rwa [played_of_lt ha]⟩
  have hcall := (call_iff hfits _).2 ⟨i + 1 * P.ROM_SIZE, rfl, by
    rwa [played_add, played_of_lt hi]⟩
  have hlt := start_lt_start (played P records) (show a < i + 1 * P.ROM_SIZE by omega)
  exact (quiet_iff _ _).1 (hquiet _ hfinish _ (by omega)) hcall

/-- **When `o_finish` waits for the end of the trace**: when no push of the trace looks
final.  Until the address wraps nothing is passed on after it then. -/
theorem finishIsLate_iff {out : List Record}
    (hfits : ∀ r ∈ out ++ [Record.idle MAX_IDLECYCLE], r.Fits P.toTraceWidths)
    (hidle : P.IDLECYCLE_BITS = 8) (hcounts : ∀ n, Record.idle n ∈ out → n ≤ MAX_INTERVAL_IDLECYCLE)
    (hsize : out.length < P.ROM_SIZE) :
    (FinishIsLate P (romOf P (romRecords (out ++ [.idle MAX_IDLECYCLE]))) out.length ↔
        ∀ r ∈ out, r.type = 1 → ¬LooksFinal P r) ∧
      ((∀ r ∈ out, r.type = 1 → ¬LooksFinal P r) →
        QuietAfterFinishUpTo P (romOf P (romRecords (out ++ [.idle MAX_IDLECYCLE])))
          (start (romRecords (out ++ [.idle MAX_IDLECYCLE])) P.ROM_SIZE)) := by
  have hfits' : ∀ a < P.ROM_SIZE,
      (romRecords (out ++ [.idle MAX_IDLECYCLE]) a).Fits P.toTraceWidths :=
    fun a _ => fits_romRecords hfits a
  generalize hrecords : romRecords (out ++ [Record.idle MAX_IDLECYCLE]) = records at hfits' ⊢
  -- a record that looks final is the last one
  have hfinal : (∀ r ∈ out, r.type = 1 → ¬LooksFinal P r) → ∀ a,
      LooksFinal P (played P records a) → a % P.ROM_SIZE = out.length := by
    intro hpush a ha
    rw [played, ← hrecords] at ha
    exact looksFinal_romRecords hfits hidle hcounts hpush ha
  refine ⟨⟨?_, ?_⟩, ?_⟩
  · intro hlate r hr _ hlooks
    obtain ⟨i, hi, rfl⟩ := List.getElem_of_mem hr
    have hrecord : played P records i = out[i] := by
      rw [played_of_lt (by omega), ← hrecords, romRecords, List.getD_append _ _ _ _ hi,
        List.getD_eq_getElem _ _ hi]
    obtain ⟨c', hle, hread, haddr⟩ := hlate (start (played P records) i)
      ((oFinish_iff hfits' _).2 ⟨i, rfl, by rwa [hrecord]⟩)
    obtain ⟨b, rfl⟩ := exists_of_read hfits' hread
    rw [(run_start hfits' b).2] at haddr
    have hb : b ≤ i := by
      by_contra hgt
      have hlt := start_lt_start (played P records) (Nat.lt_of_not_le hgt)
      omega
    rw [Nat.mod_eq_of_lt (by omega)] at haddr
    omega
  · intro hpush c hfinish
    obtain ⟨a, rfl, hlooks⟩ := (oFinish_iff hfits' c).1 hfinish
    obtain ⟨hread, haddr⟩ := run_start hfits' a
    exact ⟨_, le_rfl, by simpa [Reader.read] using hread, haddr.trans (hfinal hpush a hlooks)⟩
  · intro hpush c hfinish c' hlt hle
    obtain ⟨a, rfl, hlooks⟩ := (oFinish_iff hfits' c).1 hfinish
    have ha := hfinal hpush a hlooks
    obtain ⟨c, rfl⟩ : ∃ c, c' = c + 1 := ⟨c' - 1, by omega⟩
    rw [quiet_iff, call_iff hfits']
    rintro ⟨b, rfl, htype⟩
    have hstart : start (played P records) P.ROM_SIZE = start records P.ROM_SIZE :=
      start_congr fun b hb => played_of_lt hb
    -- the record is at or after the last one and before the wrap
    have hb : b < P.ROM_SIZE := by
      by_contra hge
      have hmono := start_le_start (played P records) (Nat.le_of_not_lt hge)
      omega
    have hab : a ≤ b := by
      by_contra hgt
      have hmono := start_lt_start (played P records) (Nat.lt_of_not_le hgt)
      omega
    have hmod : a % P.ROM_SIZE ≤ a := Nat.mod_le _ _
    rw [played_of_lt hb, ← hrecords, type_romRecords (by omega)] at htype
    exact htype rfl

/-- **When `o_finish` marks the end of the trace.**  For every heap and list of packets the
tagger accepts, and every reader and ROM in which the trace fits, with the eight bits for
an idle count that make the count of the last record all ones: `o_finish` waits for the
last record and nothing is passed on after it exactly when there is no packet of an attached
flow, since the reader does not stop and plays the trace again.  Up to the cycle in which it
does, this holds exactly when the low bits of no push are all ones. -/
theorem finish_marks_the_end_iff (hw : P.toTraceWidths.Ok) (hidle : P.IDLECYCLE_BITS = 8)
    (packets : List Packet) (hasPFabric : Bool) (trace : List Record)
    (htag : tagPriority D h packets hasPFabric = some trace)
    (hfits : ∀ r ∈ trace, r.Fits P.toTraceWidths) (hsize : trace.length ≤ P.ROM_SIZE)
    (image : List (List Char))
    (hmem : trace2mem P.toTraceWidths P.ROM_SIZE (trace.map Record.text) = some image) :
    (FinishIsLate P (memOf image) (trace.length - 1) ∧ QuietAfterFinish P (memOf image) ↔
        ∀ p ∈ packets, h.flowNodeMap p.flowId = none) ∧
      (FinishIsLate P (memOf image) (trace.length - 1) ∧
          QuietAfterFinishUpTo P (memOf image) (start (romRecords trace) P.ROM_SIZE) ↔
        ∀ r ∈ trace, r.type = 1 → ¬LooksFinal P r) := by
  obtain ⟨image', himage, hrom⟩ := memOf_image hw P.ROM_SIZE hfits
  obtain rfl := Option.some.inj (hmem.symm.trans himage)
  rw [hrom]
  have hpackets := exists_push_iff htag
  obtain ⟨out, hloop, rfl⟩ := Option.map_eq_some_iff.1 htag
  have hcounts : ∀ n, Record.idle n ∈ out → n ≤ MAX_INTERVAL_IDLECYCLE :=
    fun n hn => idle_le_of_printed (printed_of_tagLoop hloop) hn
  have hlength : (out ++ [Record.idle MAX_IDLECYCLE]).length = out.length + 1 := by simp
  rw [hlength] at hsize ⊢
  rw [Nat.add_sub_cancel]
  obtain ⟨hlate, hquiet⟩ := finishIsLate_iff hfits hidle hcounts hsize
  have hpushes : (∀ r ∈ out ++ [Record.idle MAX_IDLECYCLE], r.type = 1 → ¬LooksFinal P r) ↔
      ∀ r ∈ out, r.type = 1 → ¬LooksFinal P r := by
    rw [List.forall_mem_append, List.forall_mem_singleton]
    exact and_iff_left fun hone => absurd hone (by decide)
  refine ⟨?_, ?_⟩
  · have hnone : (∀ p ∈ packets, h.flowNodeMap p.flowId = none) ↔
        ∀ r ∈ out ++ [Record.idle MAX_IDLECYCLE], r.type = 0 := by
      have hcontra := not_congr hpackets
      push Not at hcontra
      rw [hcontra]
      simp
    rw [hnone]
    have hfits' : ∀ a < P.ROM_SIZE,
        (romRecords (out ++ [.idle MAX_IDLECYCLE]) a).Fits P.toTraceWidths :=
      fun a _ => fits_romRecords hfits a
    constructor
    · rintro ⟨-, hquiet⟩ r hr
      obtain ⟨i, hi, rfl⟩ := List.getElem_of_mem hr
      -- the last record raises `o_finish`
      have hlast : LooksFinal P (romRecords (out ++ [.idle MAX_IDLECYCLE]) out.length) :=
        looksFinal_last (hfits _ (by simp)) (by rw [hidle]; rfl) out
      have htype := hquiet.type_eq_zero hfits' hsize hlast (show i < P.ROM_SIZE by omega)
      rwa [romRecords, List.getD_eq_getElem _ _ hi] at htype
    · intro hall
      have hzero : ∀ a, (romRecords (out ++ [.idle MAX_IDLECYCLE]) a).type = 0 := by
        intro a
        rcases Nat.lt_or_ge a out.length with ha | ha
        · rw [romRecords, List.getD_append _ _ _ _ ha, List.getD_eq_getElem _ _ ha]
          exact hall _ (List.mem_append_left _ (List.getElem_mem ha))
        · exact type_romRecords ha
      refine ⟨hlate.2 fun r hr hone => ?_, quietAfterFinish_of_idle hfits' hzero⟩
      exact absurd (hall r (List.mem_append_left _ hr)) (by rw [hone]; decide)
  · rw [hpushes, ← hlate]
    exact ⟨fun hboth => hboth.1, fun hfirst => ⟨hfirst, hquiet (hlate.1 hfirst)⟩⟩

end Finish

/-! ## A priority of 255 at the root -/

/-- The widths of `trace2mem.py` and a ROM of four words. -/
def sdlReader : ReaderParams where
  toTraceWidths := sdlWidths
  ROM_WIDTH := 2
  PTW_pos := sdlWidths_ok.PTW_pos
  MTW_pos := sdlWidths_ok.MTW_pos
  TREE_NUM_BITS_pos := sdlWidths_ok.TREE_NUM_BITS_pos
  IDLECYCLE_BITS_pos := sdlWidths_ok.IDLECYCLE_BITS_pos

/-- The tree of `leafFirstProgram` with priority 255 for the leaf. -/
def lowBitsProgram : List (Call ℚ) :=
  [.createTreeNode (.sp 1), .createTreeRoot (.sp 0), .attachNode 0 (some 1) (.priority 255),
    .attachFlow "f" (some 0) (.priority 1)]

/-- What the tagger prints for one packet. -/
def lowBitsTrace : List Record := [.idle 10, .push 0 0 [1, 255], .pop, .idle 255]

theorem fits_lowBitsTrace : ∀ r ∈ lowBitsTrace, r.Fits sdlReader.toTraceWidths := by
  intro r hr
  simp only [lowBitsTrace, List.mem_cons, List.not_mem_nil, or_false] at hr
  rcases hr with rfl | rfl | rfl | rfl
  · exact (by decide : InRange 8 10)
  · exact ⟨by decide, by decide, by decide, by decide⟩
  · trivial
  · exact (by decide : InRange 8 255)

/-- **`o_finish` in the middle of a trace.**  The push is read in cycle 11, its low bits are
all ones, and the last record has not been read by then. -/
theorem finish_before_the_end :
    ∃ h, build Doubles.rat lowBitsProgram = some h ∧
      tagPriority Doubles.rat h spPackets false = some lowBitsTrace ∧
      (∀ r ∈ lowBitsTrace, r.Fits sdlReader.toTraceWidths) ∧
      lowBitsTrace.length ≤ sdlReader.ROM_SIZE ∧
      ∃ image, trace2mem sdlReader.toTraceWidths sdlReader.ROM_SIZE
          (lowBitsTrace.map Record.text) = some image ∧
        ¬(FinishIsLate sdlReader (memOf image) (lowBitsTrace.length - 1) ∧
          QuietAfterFinish sdlReader (memOf image)) := by
  refine ⟨_, rfl, by decide +kernel, fits_lowBitsTrace, by decide, ?_⟩
  obtain ⟨image, himage, hrom⟩ := memOf_image (P := sdlReader) sdlWidths_ok
    sdlReader.ROM_SIZE fits_lowBitsTrace
  refine ⟨image, himage, ?_⟩
  rintro ⟨hlate, -⟩
  rw [hrom] at hlate
  obtain ⟨c, hc, hread, haddr⟩ := hlate 11 (by decide +kernel)
  have hbefore : ∀ c ≤ 11, (readerRun sdlReader (romOf sdlReader (romRecords lowBitsTrace))
      c).readAddr ≠ lowBitsTrace.length - 1 := by decide +kernel
  exact hbefore c hc haddr

/-- The two equivalences for the trace of one packet: with priority 1 at the root `o_finish`
waits for the last record, and the trace is played again. -/
theorem finish_marks_the_end_iff_leafFirst :
    ∃ image, trace2mem sdlReader.toTraceWidths sdlReader.ROM_SIZE
        (leafFirstTrace.map Record.text) = some image ∧
      FinishIsLate sdlReader (memOf image) 3 ∧ ¬QuietAfterFinish sdlReader (memOf image) := by
  obtain ⟨h, hbuild, htag, hflow⟩ : ∃ h, build Doubles.rat leafFirstProgram = some h ∧
      tagPriority Doubles.rat h spPackets false = some leafFirstTrace ∧
        h.flowNodeMap "f" ≠ none := ⟨_, rfl, by decide +kernel, by decide⟩
  have hfits : ∀ r ∈ leafFirstTrace, r.Fits sdlReader.toTraceWidths := by
    intro r hr
    simp only [leafFirstTrace, List.mem_cons, List.not_mem_nil, or_false] at hr
    rcases hr with rfl | rfl | rfl | rfl
    · exact (by decide : InRange 8 10)
    · exact ⟨by decide, by decide, by decide, by decide⟩
    · trivial
    · exact (by decide : InRange 8 255)
  obtain ⟨image, himage, -⟩ := memOf_image (P := sdlReader) sdlWidths_ok
    sdlReader.ROM_SIZE hfits
  obtain ⟨hrun, hwrap⟩ := finish_marks_the_end_iff sdlWidths_ok rfl spPackets false
    leafFirstTrace htag hfits (by decide) image himage
  have hlate := (hwrap.2 (by decide +kernel)).1
  exact ⟨image, himage, hlate, fun hquiet => hflow (hrun.1 ⟨hlate, hquiet⟩ ⟨"f", 0, 5, 100⟩
    (by simp [spPackets]))⟩

end VPifo.Trace
