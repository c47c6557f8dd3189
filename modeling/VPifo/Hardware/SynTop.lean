import VPifo.Hardware.Drain
import VPifo.Hardware.OrdersAgree
import VPifo.Hardware.Hierarchy
import VPifo.Hardware.TraceTiming

/-!
# `SYN_TOP`

The design that is put on the board has no inputs: `TRACE_READER` reads `TRACE_ROM`, and its
outputs are the inputs of `TASK_GENERATOR`.  So a run is determined by the records in the ROM,
and this file says how.  The reader shows the timeline of the records, whatever the idle counts
are, so the root of the scheduler is asked for what the records ask for in their order
(`arrivals_records`), and a sub-tree gets its packets in their order
(`Playable.packets_records`).  When the records have been read the inputs are quiet, and a fixed
number of cycles later nothing is left to do (`drained_of_read`).  What has come out by then
depends on the records alone (`synTop_outcome`).
-/

namespace VPifo

open Trace TaskGenerator PifoSramTop

/-- The parameters that the modules of `SYN_TOP` share. -/
structure SynParams extends GenParams where
  IDLECYCLE_BITS : ℕ
  ROM_WIDTH : ℕ
  PTW_pos : 1 ≤ PTW
  IDLECYCLE_BITS_pos : 1 ≤ IDLECYCLE_BITS

theorem treeNumBits_pos (P : Params) : 1 ≤ P.treeNumBits :=
  Nat.clog_pos Nat.one_lt_two P.two_le_TREE_NUM

/-- The parameters of the reader. -/
def SynParams.reader (P : SynParams) : ReaderParams where
  PTW := P.PTW
  MTW := P.MTW
  TREE_NUM_BITS := P.treeNumBits
  IDLECYCLE_BITS := P.IDLECYCLE_BITS
  ROM_WIDTH := P.ROM_WIDTH
  PTW_pos := P.PTW_pos
  MTW_pos := (treeNumBits_pos P.toParams).trans P.treeNumBits_le_MTW
  TREE_NUM_BITS_pos := treeNumBits_pos P.toParams
  IDLECYCLE_BITS_pos := P.IDLECYCLE_BITS_pos

namespace SynTop

variable (P : SynParams)

/-- The wires from the reader to the generator. -/
def wires (s : Shown) : GenIn P.toGenParams where
  iPush := s.oPush
  iPushTreeId := BitVec.ofNat _ s.oPushTreeId
  iPushPriority := BitVec.ofNat _ s.oPushPriority
  iPushData := ⟨BitVec.ofNat _ (s.oPushData / 2 ^ P.PTW), BitVec.ofNat _ s.oPushData⟩
  iPop := s.oPop

/-- The registers of the reader and of the scheduler. -/
structure State (P : SynParams) where
  reader : Reader
  engine : PifoSramTop P.toParams

/-- One clock edge. -/
def State.step (mem : ℕ → ℕ) (s : State P) : State P where
  reader := s.reader.step P.reader mem
  engine := s.engine.step (ports s.engine (wires P s.reader.shown))

/-- The state at the beginning of cycle `c`, for the words `mem` in the ROM. -/
def run (pu : PowerUp P.toParams) (mem : ℕ → ℕ) : ℕ → State P
  | 0 => ⟨Reader.reset P.reader, PifoSramTop.reset pu⟩
  | c + 1 => (run pu mem c).step P mem

/-- What the generator is presented with. -/
def inputs (mem : ℕ → ℕ) (c : ℕ) : GenIn P.toGenParams := wires P (readerRun P.reader mem c).shown

variable {P}

theorem run_eq (pu : PowerUp P.toParams) (mem : ℕ → ℕ) (c : ℕ) :
    run P pu mem c = ⟨readerRun P.reader mem c, TaskGenerator.run pu (inputs P mem) c⟩ := by
  induction c with
  | zero => rfl
  | succ c ih =>
    rw [run, ih]
    rfl

/-! ## What the records ask for -/

variable (P) in
/-- What a record asks of the root. -/
def rootTasks : Record → List (Task P.toWidths)
  | .push treeId _ [_, priority1] =>
      [.push ⟨BitVec.ofNat _ (treeId.toNat * 2 ^ (P.MTW - P.treeNumBits)),
        BitVec.ofNat _ priority1.toNat⟩]
  | .pop => [.pop]
  | _ => []

variable (P) in
/-- The packet of a record, if it is for tree `t`. -/
def packets (t : ℕ) : Record → List (Val P.toWidths)
  | .push treeId pktMeta [priority0, _] =>
      if treeId = t then [⟨BitVec.ofNat _ pktMeta.toNat, BitVec.ofNat _ priority0.toNat⟩] else []
  | _ => []

/-- The lower of two fields. -/
theorem ofNat_mul_add (w m p : ℕ) : BitVec.ofNat w (m * 2 ^ w + p) = BitVec.ofNat w p := by
  refine BitVec.eq_of_toNat_eq ?_
  rw [BitVec.toNat_ofNat, BitVec.toNat_ofNat, Nat.mul_add_mod_self_right]

/-- The push of a record that fits reaches the scheduler with its fields. -/
theorem wires_push {t m p₀ p₁ : ℤ}
    (hr : (Record.push t m [p₀, p₁]).Fits P.reader.toTraceWidths) :
    arrival (wires P (outputs P.reader (.push t m [p₀, p₁]))) =
        rootTasks P (.push t m [p₀, p₁]) ∧
      ∀ u : ℕ, pushed (packet u (wires P (outputs P.reader (.push t m [p₀, p₁])))) =
        packets P u (.push t m [p₀, p₁]) := by
  obtain ⟨ht, hm, hp₀, hp₁⟩ := hr
  have htree : (BitVec.ofNat P.treeNumBits t.toNat).toNat = t.toNat := by
    rw [BitVec.toNat_ofNat]
    exact Nat.mod_eq_of_lt ht.toNat_lt
  have hmeta : (m.toNat * 2 ^ P.PTW + p₀.toNat) / 2 ^ P.PTW = m.toNat := by
    have hlt : p₀.toNat < 2 ^ P.PTW := hp₀.toNat_lt
    rw [Nat.add_comm, Nat.add_mul_div_right _ _ (Nat.two_pow_pos _), Nat.div_eq_of_lt hlt,
      Nat.zero_add]
  have hown : ∀ u : ℕ, t.toNat = u ↔ t = u := by
    have hnonneg := ht.1
    intro u
    omega
  constructor
  · have harrival : arrival (wires P (outputs P.reader (.push t m [p₀, p₁]))) =
        [.push (token (wires P (outputs P.reader (.push t m [p₀, p₁]))))] := rfl
    rw [harrival, token, rootTasks]
    simp only [wires, outputs, htree]
  · intro u
    simp only [packet, packets, wires, outputs, htree, true_and, hown, SynParams.reader, hmeta,
      ofNat_mul_add]
    split <;> rfl

theorem arrival_wires {r : Record} (hr : r.Fits P.reader.toTraceWidths) :
    arrival (wires P (outputs P.reader r)) = rootTasks P r := by
  cases r with
  | idle n => rfl
  | push t m ps =>
    obtain ⟨p₀, p₁, rfl, -⟩ := exists_priorities_of_fits hr
    exact (wires_push hr).1
  | pop => rfl

theorem packet_wires {r : Record} (hr : r.Fits P.reader.toTraceWidths) (u : ℕ) :
    pushed (packet u (wires P (outputs P.reader r))) = packets P u r := by
  cases r with
  | idle n => simp [packet, packets, wires, outputs, quiet]
  | push t m ps =>
    obtain ⟨p₀, p₁, rfl, -⟩ := exists_priorities_of_fits hr
    exact (wires_push hr).2 u
  | pop => simp [packet, packets, wires, outputs, quiet]

/-! ## From the ROM to the inputs -/

section Inputs

variable {trace : List Record} {α : Type} {f : GenIn P.toGenParams → List α}

/-- The zeros behind the trace take a cycle each. -/
theorem start_romRecords {a : ℕ} (ha : trace.length ≤ a) :
    start (romRecords trace) a = (timeline P.reader trace).length + (a - trace.length) := by
  induction a, ha using Nat.le_induction with
  | base => rw [length_timeline, Nat.sub_self, Nat.add_zero]
  | succ a ha ih =>
    have hzero : romRecords trace a = .idle 0 := List.getD_eq_default _ _ ha
    have hone : duration (.idle 0) = 1 := rfl
    rw [start, ih, hzero, hone]
    omega

/-- What is collected from the cycles of a timeline is what is collected from its records. -/
theorem flatMap_timeline (hnone : f (wires P (quiet P.reader)) = []) (trace : List Record) :
    (timeline P.reader trace).flatMap (fun s => f (wires P s)) =
      trace.flatMap fun r => f (wires P (outputs P.reader r)) := by
  induction trace with
  | nil => rfl
  | cons r trace ih =>
    have hquiet : ∀ n, (List.replicate n (quiet P.reader)).flatMap (fun s => f (wires P s)) =
        [] := by
      intro n
      rw [List.flatMap_eq_nil_iff]
      intro s hs
      rw [List.eq_of_mem_replicate hs, hnone]
    rw [timeline_cons, List.flatMap_cons, List.flatMap_append, hquiet, List.nil_append, ih,
      List.flatMap_cons]

theorem inputs_succ (hfits : ∀ r ∈ trace, r.Fits P.reader.toTraceWidths) {c : ℕ}
    (hc : c < start (romRecords trace) P.reader.ROM_SIZE) :
    inputs P (romOf P.reader (romRecords trace)) (c + 1) =
      wires P ((timeline P.reader trace).getD c (quiet P.reader)) :=
  congrArg (wires P) (shown_eq_timeline hfits hc)

/-- What is collected cycle by cycle until the address wraps. -/
theorem collected (hnone : f (wires P (quiet P.reader)) = [])
    (hfits : ∀ r ∈ trace, r.Fits P.reader.toTraceWidths) {g : ℕ → List α} (hzero : g 0 = [])
    {c : ℕ} (hc : c ≤ start (romRecords trace) P.reader.ROM_SIZE)
    (hsucc : ∀ k ≤ c, g (k + 1) = g k ++ f (inputs P (romOf P.reader (romRecords trace)) k)) :
    g (c + 1) = ((timeline P.reader trace).take c).flatMap fun s => f (wires P s) := by
  induction c with
  | zero =>
    have hfirst : inputs P (romOf P.reader (romRecords trace)) 0 = wires P (quiet P.reader) := rfl
    rw [hsucc 0 le_rfl, hzero, hfirst, hnone]
    rfl
  | succ c ih =>
    rw [hsucc (c + 1) le_rfl, ih (by omega) fun k hk => hsucc k (Nat.le_succ_of_le hk),
      inputs_succ hfits hc, List.take_add_one, List.flatMap_append]
    congr 1
    rcases Nat.lt_or_ge c (timeline P.reader trace).length with hlt | hge
    · rw [List.getD_eq_getElem _ _ hlt, List.getElem?_eq_getElem hlt, Option.toList_some,
        List.flatMap_singleton]
    · rw [List.getD_eq_default _ _ hge, List.getElem?_eq_none hge, hnone]
      rfl

/-- What is collected is what the records say as far as they have come, and all of it once the
last record has been read. -/
theorem collected_records (hnone : f (wires P (quiet P.reader)) = [])
    (hfits : ∀ r ∈ trace, r.Fits P.reader.toTraceWidths) {g : ℕ → List α} (hzero : g 0 = [])
    {c : ℕ} (hc : c ≤ start (romRecords trace) P.reader.ROM_SIZE)
    (hsucc : ∀ k ≤ c, g (k + 1) = g k ++ f (inputs P (romOf P.reader (romRecords trace)) k)) :
    g (c + 1) <+: trace.flatMap (fun r => f (wires P (outputs P.reader r))) ∧
      ((timeline P.reader trace).length ≤ c →
        g (c + 1) = trace.flatMap fun r => f (wires P (outputs P.reader r))) := by
  rw [collected hnone hfits hzero hc hsucc, ← flatMap_timeline hnone]
  refine ⟨(List.take_prefix _ _).flatMap _, fun hend => ?_⟩
  rw [List.take_of_length_le hend]

end Inputs

/-! ## Traces that can be played -/

/-- A trace that fits the widths and the ROM, with pushes for the sub-trees that exist and no
priority of all ones, in which the pops never outnumber the pushes; and an engine with at least
three levels, no more trees than levels and wide enough counters. -/
structure Playable (P : SynParams) (trace : List Record) : Prop where
  three_le_LEVEL : 3 ≤ P.LEVEL
  TREE_NUM_le : P.TREE_NUM ≤ P.LEVEL
  counters : 1 + capacity P.order (P.LEVEL - 1) < 2 ^ P.CTW
  fits : ∀ r ∈ trace, r.Fits P.reader.toTraceWidths
  size : trace.length ≤ P.reader.ROM_SIZE
  push : ∀ t m p₀ p₁, Record.push t m [p₀, p₁] ∈ trace →
    0 < t ∧ t < P.TREE_NUM ∧ p₀ ≠ 2 ^ P.PTW - 1 ∧ p₁ ≠ 2 ^ P.PTW - 1
  balanced : Balanced (trace.flatMap (rootTasks P))

/-- In the run up to cycle `c` no FIFO overflows and no tree is overloaded. -/
structure Unhindered (pu : PowerUp P.toParams) (mem : ℕ → ℕ) (c : ℕ) : Prop where
  noOverflow : NoOverflowBefore pu (engineIns pu (inputs P mem)) c
  load_le : ∀ t < P.TREE_NUM, ∀ pre, pre <+: entered (engineIns pu (inputs P mem)) t c →
    VPifo.load pre ≤ capacity P.order P.LEVEL

section Playable

variable {trace : List Record} {pu : PowerUp P.toParams} {c : ℕ}

/-- An input is none, or what a record asks for. -/
theorem inputs_cases (hfits : ∀ r ∈ trace, r.Fits P.reader.toTraceWidths) {k : ℕ}
    (hk : k ≤ start (romRecords trace) P.reader.ROM_SIZE) :
    inputs P (romOf P.reader (romRecords trace)) k = wires P (quiet P.reader) ∨
      ∃ r ∈ trace, inputs P (romOf P.reader (romRecords trace)) k =
        wires P (outputs P.reader r) := by
  cases k with
  | zero => exact .inl rfl
  | succ k =>
    rw [inputs_succ hfits hk]
    rcases Nat.lt_or_ge k (timeline P.reader trace).length with hlt | hge
    · rw [List.getD_eq_getElem _ _ hlt]
      obtain ⟨r, hr, hmem⟩ := List.mem_flatMap.1 (List.getElem_mem hlt)
      rcases List.mem_cons.1 hmem with heq | hmem
      · exact .inr ⟨r, hr, by rw [heq]⟩
      · exact .inl (by rw [List.eq_of_mem_replicate hmem])
    · rw [List.getD_eq_default _ _ hge]
      exact .inl rfl

/-- A push on the inputs is one of the trace. -/
theorem exists_push_of_inputs (hfits : ∀ r ∈ trace, r.Fits P.reader.toTraceWidths) {k : ℕ}
    (hk : k ≤ start (romRecords trace) P.reader.ROM_SIZE)
    (hpush : (inputs P (romOf P.reader (romRecords trace)) k).iPush = true) :
    ∃ t m p₀ p₁, Record.push t m [p₀, p₁] ∈ trace ∧
      inputs P (romOf P.reader (romRecords trace)) k =
        wires P (outputs P.reader (.push t m [p₀, p₁])) := by
  rcases inputs_cases hfits hk with hnone | ⟨r, hr, hsame⟩
  · rw [hnone] at hpush
    exact absurd hpush Bool.false_ne_true
  · rw [hsame] at hpush
    cases r with
    | idle n => exact absurd hpush Bool.false_ne_true
    | push t m ps =>
      obtain ⟨p₀, p₁, rfl, -⟩ := exists_priorities_of_fits (hfits _ hr)
      exact ⟨t, m, p₀, p₁, hr, hsame⟩
    | pop => exact absurd hpush Bool.false_ne_true

/-- A number below the largest of a width is not all ones. -/
theorem ofNat_ne_allOnes {w : ℕ} {p : ℤ} (hp : InRange w p) (hne : p ≠ 2 ^ w - 1) :
    BitVec.ofNat w p.toNat ≠ BitVec.allOnes w := by
  intro heq
  have hnat := congrArg BitVec.toNat heq
  rw [BitVec.toNat_ofNat, Nat.mod_eq_of_lt hp.toNat_lt, BitVec.toNat_allOnes] at hnat
  have hpos : 1 ≤ 2 ^ w := Nat.one_le_two_pow
  have hcast : ((p.toNat : ℕ) : ℤ) = ((2 ^ w - 1 : ℕ) : ℤ) := congrArg _ hnat
  rw [Int.toNat_of_nonneg hp.1, Nat.cast_sub hpos] at hcast
  push_cast at hcast
  exact hne hcast

/-- What the root has been asked for is what the records ask for. -/
theorem arrivals_records (hfits : ∀ r ∈ trace, r.Fits P.reader.toTraceWidths)
    (hc : c ≤ start (romRecords trace) P.reader.ROM_SIZE) :
    arrivals (inputs P (romOf P.reader (romRecords trace))) (c + 1) <+:
        trace.flatMap (rootTasks P) ∧
      ((timeline P.reader trace).length ≤ c →
        arrivals (inputs P (romOf P.reader (romRecords trace))) (c + 1) =
          trace.flatMap (rootTasks P)) := by
  have hrecords : trace.flatMap (rootTasks P) =
      trace.flatMap fun r => arrival (wires P (outputs P.reader r)) :=
    List.flatMap_congr fun r hr => (arrival_wires (hfits r hr)).symm
  rw [hrecords]
  exact collected_records rfl hfits rfl hc fun k _ => rfl

/-- A trace that can be played is scheduled. -/
theorem Playable.scheduled (h : Playable P trace)
    (hc : c ≤ start (romRecords trace) P.reader.ROM_SIZE)
    (hrun : Unhindered pu (romOf P.reader (romRecords trace)) (c + 1)) :
    Scheduled pu (inputs P (romOf P.reader (romRecords trace))) (c + 1) := by
  have hpush : ∀ k < c + 1, (inputs P (romOf P.reader (romRecords trace)) k).iPush = true →
      ∃ t m p₀ p₁, Record.push t m [p₀, p₁] ∈ trace ∧
        inputs P (romOf P.reader (romRecords trace)) k =
          wires P (outputs P.reader (.push t m [p₀, p₁])) :=
    fun k hk => exists_push_of_inputs h.fits (by omega)
  have hid : ∀ k < c + 1, (inputs P (romOf P.reader (romRecords trace)) k).iPush = true →
      0 < (inputs P (romOf P.reader (romRecords trace)) k).iPushTreeId.toNat ∧
        (inputs P (romOf P.reader (romRecords trace)) k).iPushTreeId.toNat < P.TREE_NUM := by
    intro k hk hk'
    obtain ⟨t, m, p₀, p₁, hmem, hsame⟩ := hpush k hk hk'
    obtain ⟨hpos, hlt, -⟩ := h.push t m p₀ p₁ hmem
    have hwidth : t.toNat < 2 ^ P.treeNumBits := (h.fits _ hmem).1.toNat_lt
    have htree : (wires P (outputs P.reader (.push t m [p₀, p₁]))).iPushTreeId.toNat =
        t.toNat := Nat.mod_eq_of_lt hwidth
    rw [hsame, htree]
    omega
  obtain ⟨n, hn⟩ : ∃ n, P.LEVEL = n + 1 := ⟨P.LEVEL - 1, by have := P.LEVEL_pos; omega⟩
  have hcounters := h.counters
  rw [hn, Nat.add_sub_cancel] at hcounters
  exact
    { three_le_LEVEL := h.three_le_LEVEL
      TREE_NUM_le := h.TREE_NUM_le
      id_ne := fun k hk hk' => (hid k hk hk').1.ne'
      balanced := h.balanced.of_isPrefix (arrivals_records h.fits hc).1
      noOverflow := hrun.noOverflow
      load_le := hrun.load_le
      counters := fun t _ pre _ k => by
        rw [hn]
        exact lt_of_le_of_lt (slotCount_le _ n 0 0 k) hcounters
      id_lt := fun k hk hk' => (hid k hk hk').2
      prio := fun k hk hk' => by
        obtain ⟨t, m, p₀, p₁, hmem, hsame⟩ := hpush k hk hk'
        obtain ⟨-, -, hp₀, hp₁⟩ := h.push t m p₀ p₁ hmem
        obtain ⟨-, -, hfit₀, hfit₁⟩ := h.fits _ hmem
        rw [hsame]
        refine ⟨ofNat_ne_allOnes hfit₁ hp₁, ?_⟩
        have hlow : (wires P (outputs P.reader (.push t m [p₀, p₁]))).iPushData.priority =
            BitVec.ofNat P.PTW p₀.toNat := ofNat_mul_add P.PTW m.toNat p₀.toNat
        rw [Val.IsEmpty, hlow]
        exact ofNat_ne_allOnes hfit₀ hp₀ }

/-- The packets that enter a sub-tree are those of the records. -/
theorem Playable.packets_records (h : Playable P trace)
    (hc : c ≤ start (romRecords trace) P.reader.ROM_SIZE)
    (hrun : Unhindered pu (romOf P.reader (romRecords trace)) (c + 1)) {t : ℕ} (h0 : t ≠ 0)
    (ht : t < P.TREE_NUM) (hend : (timeline P.reader trace).length ≤ c) :
    pushed (entered (engineIns pu (inputs P (romOf P.reader (romRecords trace)))) t (c + 1)) =
      trace.flatMap (packets P t) := by
  have hrecords : trace.flatMap (packets P t) =
      trace.flatMap fun r => pushed (packet t (wires P (outputs P.reader r))) :=
    List.flatMap_congr fun r hr => (packet_wires (h.fits r hr) t).symm
  have hnone : pushed (packet t (wires P (quiet P.reader))) = [] := by
    simp [packet, wires, quiet]
  have hsched := h.scheduled hc hrun
  rw [hrecords]
  refine (collected_records (f := fun x => pushed (packet t x)) hnone h.fits
    (g := fun k => pushed (entered (engineIns pu (inputs P (romOf P.reader
      (romRecords trace)))) t k)) rfl hc fun k hk => ?_).2 hend
  simp only [(hsched.mono (show k + 1 ≤ c + 1 by omega)).entered_succ h0 ht, pushed_append,
    pushed_release, List.append_nil]

/-! ## The end of the run -/

/-- A run depends on the inputs before it only. -/
theorem run_congr {Q : GenParams} (pu : PowerUp Q.toParams) {xs ys : ℕ → GenIn Q} {c : ℕ}
    (hsame : ∀ k < c, xs k = ys k) : TaskGenerator.run pu xs c = TaskGenerator.run pu ys c := by
  induction c with
  | zero => rfl
  | succ c ih =>
    rw [TaskGenerator.run, TaskGenerator.run, ih fun k hk => hsame k (Nat.lt_succ_of_lt hk),
      hsame c (Nat.lt_succ_self c)]

/-- How long the scheduler needs to run empty: 670 cycles at the sizes of `SYN_TOP`.  A ROM of 16
words, its default, wraps before that; one of 16384, as `trace2mem.py` fills it, does not. -/
def drainTime (P : GenParams) : ℕ := (P.LEVEL + 4) * maxWork P + P.LEVEL + 2

/-- The inputs up to cycle `c`, and nothing after it. -/
def oneRound (P : SynParams) (trace : List Record) (c k : ℕ) : GenIn P.toGenParams :=
  if k ≤ c then inputs P (romOf P.reader (romRecords trace)) k else wires P (quiet P.reader)

/-- Once the last record has been read, the scheduler runs empty. -/
theorem drained_of_read (hfits : ∀ r ∈ trace, r.Fits P.reader.toTraceWidths)
    (hc : c ≤ start (romRecords trace) P.reader.ROM_SIZE)
    (hend : (timeline P.reader trace).length + drainTime P.toGenParams ≤ c) :
    (TaskGenerator.run pu (inputs P (romOf P.reader (romRecords trace))) (c + 1)).Drained := by
  -- the second round of the trace comes too late to matter
  have hsame : ∀ k < c + 1,
      inputs P (romOf P.reader (romRecords trace)) k = oneRound P trace c k :=
    fun k hk => (if_pos (Nat.lt_succ_iff.1 hk)).symm
  rw [run_congr pu hsame]
  refine (drained_within pu (c := (timeline P.reader trace).length + 1) (fun k hk => ?_) ?_).2
  · have hquiet : oneRound P trace c k = wires P (quiet P.reader) := by
      by_cases hkc : k ≤ c
      · obtain ⟨k, rfl⟩ : ∃ j, k = j + 1 := ⟨k - 1, by omega⟩
        rw [← hsame (k + 1) (Nat.lt_succ_of_le hkc), inputs_succ hfits (by omega),
          List.getD_eq_default _ _ (by omega)]
      · exact if_neg hkc
    rw [hquiet]
    exact ⟨rfl, rfl⟩
  · rw [drainTime] at hend
    omega

/-- An engine that was drained a cycle ago as well has executed all that has entered. -/
theorem executed_of_drained {Q : GenParams} {pu : PowerUp Q.toParams} {xs : ℕ → GenIn Q}
    (h : Scheduled pu xs (c + 1)) (hbefore : (TaskGenerator.run pu xs c).Drained)
    (hnow : (TaskGenerator.run pu xs (c + 1)).Drained) (t : ℕ) :
    executed pu xs t (c + 1) = entered (engineIns pu xs) t (c + 1) := by
  rw [run_eq_engine] at hbefore hnow
  have hall := started_eq_entered hnow h.noOverflow t
  rw [started_succ, taskAt_of_quiet hbefore, Option.toList_none, List.append_nil] at hall
  exact hall

/-- Values that are as many as those of a list they are taken from are all of them. -/
theorem eq_of_add_of_card {α : Type} {s u : Multiset α} {l : List α}
    (hsum : (l : Multiset α) = s + u) (hcard : u.card = l.length) : u = l := by
  have hcards := congrArg Multiset.card hsum
  rw [Multiset.coe_card, Multiset.card_add] at hcards
  have hzero : s = 0 := Multiset.card_eq_zero.1 (by omega)
  rw [hsum, hzero, zero_add]

/-- **What `SYN_TOP` does with a trace.**  Take a trace that can be played (`Playable`: the engine
has three levels or more, no more trees than levels and wide enough counters, the packets are for
sub-trees that exist and no priority is all ones), its image in the ROM, and a run in which no
FIFO overflows and no tree is overloaded.  From `drainTime` after the last record, and until the
address wraps, the design is at rest.  The tokens the root has given out
have the ranks that a queue of ranks answers to the records, in their order, whatever the idle
counts are, so that they do not depend on any timing.  Every sub-tree has given out as many
packets as the root has given out tokens of it, each a packet of the trace and none twice, and
holds the others.  If the trace pops as often as it pushes, every packet has come out. -/
theorem synTop_outcome (P : SynParams) (pu : PowerUp P.toParams)
    (hw : P.reader.toTraceWidths.Ok) {trace : List Record} (h : Playable P trace)
    {image : List (List Char)}
    (hmem : trace2mem P.reader.toTraceWidths P.reader.ROM_SIZE (trace.map Record.text) =
      some image) {n : ℕ}
    (hread : (timeline P.reader trace).length + drainTime P.toGenParams + 2 ≤ n)
    (hwrap : n ≤ (timeline P.reader trace).length + (P.reader.ROM_SIZE - trace.length))
    (hrun : Unhindered pu (memOf image) n) :
    let xs := inputs P (memOf image)
    let out := fun t => popOutputs pu (engineIns pu xs) t n
    (run P pu (memOf image) n).engine.Drained ∧
      (out 0).map key = RankQueue.answers ((trace.flatMap (rootTasks P)).map Task.op) ∧
      ∀ t < P.TREE_NUM, t ≠ 0 →
        (out t).length = tokens P.toGenParams t (out 0) ∧
          (trace.flatMap (packets P t) : Multiset (Val P.toWidths)) =
            elements pu xs t n + out t ∧
          (pops (trace.flatMap (rootTasks P)) = (pushed (trace.flatMap (rootTasks P))).length →
            (out t : Multiset (Val P.toWidths)) = trace.flatMap (packets P t)) := by
  obtain ⟨image', himage, hrom⟩ := memOf_image hw P.reader.ROM_SIZE h.fits
  obtain rfl := Option.some.inj (hmem.symm.trans himage)
  rw [hrom] at hrun ⊢
  intro xs out
  obtain ⟨c, rfl⟩ : ∃ c, n = c + 2 := ⟨n - 2, by omega⟩
  have hcycles := start_romRecords (P := P) h.size
  have hbefore : (TaskGenerator.run pu xs (c + 1)).Drained :=
    drained_of_read h.fits (by omega) (by omega)
  have hnow : (TaskGenerator.run pu xs (c + 2)).Drained :=
    drained_of_read h.fits (by omega) (by omega)
  have hsched : Scheduled pu xs (c + 2) := h.scheduled (by omega) hrun
  have hexecuted := executed_of_drained hsched hbefore hnow
  have hroot : entered (engineIns pu xs) 0 (c + 2) = trace.flatMap (rootTasks P) := by
    rw [entered_root]
    exact (arrivals_records h.fits (by omega)).2 (by omega)
  have hpushes : ∀ t, t < P.TREE_NUM →
      (pushed (entered (engineIns pu xs) t (c + 2)) : Multiset (Val P.toWidths)) =
        elements pu xs t (c + 2) + out t := by
    intro t ht
    rw [← hexecuted t]
    exact hsched.pushed_executed ht (hsched.balanced_entered ht)
  -- as many come out of a tree as pops have entered it
  have hlength : ∀ t, t < P.TREE_NUM →
      (out t).length = pops (entered (engineIns pu xs) t (c + 2)) := by
    intro t ht
    have hcard : (elements pu xs t (c + 2)).card =
        VPifo.load (entered (engineIns pu xs) t (c + 2)) := by
      rw [← hexecuted t]
      exact (hsched.fits_executed ht).treeInv.2
    have hload := (hsched.balanced_entered ht).load_eq
    have hsum := congrArg Multiset.card (hpushes t ht)
    rw [Multiset.coe_card, Multiset.card_add, Multiset.coe_card] at hsum
    omega
  have hpackets : ∀ t, t ≠ 0 → t < P.TREE_NUM →
      pushed (entered (engineIns pu xs) t (c + 2)) = trace.flatMap (packets P t) :=
    fun t h0 ht => h.packets_records (by omega) hrun h0 ht (by omega)
  refine ⟨by rw [run_eq]; exact hnow, ?_, fun t ht h0 => ?_⟩
  · have hfits := hsched.fits (zero_lt_TREE_NUM _)
    have hbal := hsched.balanced_entered (zero_lt_TREE_NUM _)
    show (popOutputs pu (engineIns pu xs) 0 (c + 2)).map key = _
    rw [hsched.popOutputs_executed (zero_lt_TREE_NUM _), hexecuted 0, (hfits.ranks hbal).2, hroot]
  · refine ⟨?_, ?_, fun hall => ?_⟩
    · rw [hlength t ht, hsched.pops_entered h0 ht]
    · rw [← hpackets t h0 ht]
      exact hpushes t ht
    · rw [← hpackets t h0 ht]
      refine eq_of_add_of_card (hpushes t ht) ?_
      have hrootAll : (out 0 : Multiset (Val P.toWidths)) =
          pushed (entered (engineIns pu xs) 0 (c + 2)) := by
        refine eq_of_add_of_card (hpushes 0 (zero_lt_TREE_NUM _)) ?_
        rw [Multiset.coe_card, hlength 0 (zero_lt_TREE_NUM _), hroot, hall]
      rw [Multiset.coe_card, hlength t ht, hsched.pops_entered h0 ht,
        hsched.pushed_entered h0 ht, ← entered_root pu, ← hrootAll]

/-- Where there is nothing left to do and no input comes, the ports are presented with nothing. -/
theorem tasks_ports_of_work {Q : GenParams} {S : PifoSramTop Q.toParams} {x : GenIn Q}
    (hwork : work S = 0) (hx : Quiet x) {i : ℕ} (hi : i < Q.LEVEL) :
    (ports S x i).tasks = [] := by
  have hroot : (S.oIsLevel0Pop 0).toNat = 0 := by
    rw [work] at hwork
    omega
  have hsum : ∑ i ∈ Finset.range Q.LEVEL, (ports S x i).tasks.length ≤ 0 := by
    refine (sum_tasks_le S x).trans ?_
    rw [hx.1, hx.2, hroot]
    rfl
  rw [Nat.le_zero, Finset.sum_eq_zero_iff] at hsum
  exact List.length_eq_zero_iff.1 (hsum i (Finset.mem_range.2 hi))

/-- **A run that has come to rest stays unhindered** as long as the inputs are quiet. -/
theorem Unhindered.extend {mem : ℕ → ℕ} (h : Unhindered pu mem c)
    (hwork : work (TaskGenerator.run pu (inputs P mem) c) = 0) {n : ℕ} (hcn : c ≤ n)
    (hquiet : ∀ k, c ≤ k → k < n → Quiet (inputs P mem k)) : Unhindered pu mem n := by
  suffices hrest : Unhindered pu mem n ∧ work (TaskGenerator.run pu (inputs P mem) n) = 0 from
    hrest.1
  induction n, hcn using Nat.le_induction with
  | base => exact ⟨h, hwork⟩
  | succ n hcn ih =>
    obtain ⟨hun, hzero⟩ := ih fun k hk hkn => hquiet k hk (Nat.lt_succ_of_lt hkn)
    have hx := hquiet n hcn (Nat.lt_succ_self n)
    have hnone : ∀ i < P.LEVEL, (engineIns pu (inputs P mem) n i).tasks = [] :=
      fun i hi => tasks_ports_of_work hzero hx hi
    refine ⟨⟨fun k hk => ?_, fun t ht pre hpre => ?_⟩, ?_⟩
    · rcases Nat.lt_succ_iff_lt_or_eq.1 hk with hk | rfl
      · exact hun.noOverflow k hk
      · rintro i hi ⟨hwrite, -⟩
        have hempty := hnone i hi
        rw [Entry.tasks, List.append_eq_nil_iff] at hempty
        rw [pushTaskFIFO, Bool.or_eq_true] at hwrite
        rcases hwrite with hpush | hpop
        · simp [hpush] at hempty
        · simp [hpop] at hempty
    · have hsame : entered (engineIns pu (inputs P mem)) t (n + 1) =
          entered (engineIns pu (inputs P mem)) t n := by
        rw [entered, presented, hnone _ (Nat.mod_lt t P.LEVEL_pos), List.append_nil, entered]
      exact hun.load_le t ht pre (hsame ▸ hpre)
    · exact Nat.le_zero.1 (hzero ▸ work_succ_le hx)

end Playable

/-- The parameters of `small`, eight bits for an idle count and a ROM of 512 words. -/
def smallTop : SynParams where
  toGenParams := small
  IDLECYCLE_BITS := 8
  ROM_WIDTH := 9
  PTW_pos := Nat.succ_pos 3
  IDLECYCLE_BITS_pos := Nat.succ_pos 7

/-- A packet for each sub-tree, and two pops. -/
def twoPushes : List Record := [.push 1 1 [3, 5], .push 2 0 [1, 4], .pop, .pop]

theorem fits_twoPushes : ∀ r ∈ twoPushes, r.Fits smallTop.reader.toTraceWidths := by
  intro r hr
  simp only [twoPushes, List.mem_cons, List.not_mem_nil, or_false] at hr
  rcases hr with rfl | rfl | rfl | rfl
  · exact (⟨by decide, by decide, by decide, by decide⟩ :
      InRange 2 1 ∧ InRange 2 1 ∧ InRange 4 3 ∧ InRange 4 5)
  · exact (⟨by decide, by decide, by decide, by decide⟩ :
      InRange 2 2 ∧ InRange 2 0 ∧ InRange 4 1 ∧ InRange 4 4)
  · trivial
  · trivial

theorem playable_twoPushes : Playable smallTop twoPushes where
  three_le_LEVEL := by decide
  TREE_NUM_le := by decide
  counters := by decide
  fits := fits_twoPushes
  size := by decide
  push t m p₀ p₁ hmem := by
    simp only [twoPushes, List.mem_cons, Record.push.injEq, List.cons.injEq, reduceCtorEq,
      List.not_mem_nil, or_false] at hmem
    rcases hmem with ⟨rfl, -, rfl, rfl, -⟩ | ⟨rfl, -, rfl, rfl, -⟩ <;> decide
  balanced := by decide +kernel

theorem unhindered_twoPushes : Unhindered (PowerUp.blank smallTop.toParams)
    (romOf smallTop.reader (romRecords twoPushes)) 300 := by
  refine Unhindered.extend (c := 20) ⟨by decide +kernel, by decide +kernel⟩ (by decide +kernel)
    (by decide) fun k hk hk' => ?_
  obtain ⟨k, rfl⟩ : ∃ j, k = j + 1 := ⟨k - 1, by omega⟩
  have hcycles := start_romRecords (P := smallTop) playable_twoPushes.size
  have hlen : (timeline smallTop.reader twoPushes).length = 4 := rfl
  have hsize : smallTop.reader.ROM_SIZE = 512 := rfl
  have htrace : twoPushes.length = 4 := rfl
  rw [inputs_succ fits_twoPushes (by omega), List.getD_eq_default _ _ (by omega)]
  exact ⟨rfl, rfl⟩

/-- The tokens come out by their ranks, and each packet behind its token. -/
theorem synTop_outcome_twoPushes :
    ∃ image, trace2mem smallTop.reader.toTraceWidths smallTop.reader.ROM_SIZE
        (twoPushes.map Record.text) = some image ∧
      (popOutputs (PowerUp.blank smallTop.toParams) (engineIns (PowerUp.blank smallTop.toParams)
        (inputs smallTop (memOf image))) 0 300).map key = [4, 5] ∧
      (popOutputs (PowerUp.blank smallTop.toParams) (engineIns (PowerUp.blank smallTop.toParams)
        (inputs smallTop (memOf image))) 1 300 : Multiset (Val smallTop.toWidths)) =
          ([⟨1, 3⟩] : List (Val smallTop.toWidths)) := by
  have hw : smallTop.reader.toTraceWidths.Ok :=
    ⟨by decide, by decide, by decide, by decide, by decide⟩
  obtain ⟨image, himage, hrom⟩ := memOf_image (P := smallTop.reader) hw
    smallTop.reader.ROM_SIZE fits_twoPushes
  have hrun := unhindered_twoPushes
  rw [← hrom] at hrun
  obtain ⟨-, hroot, hsub⟩ := synTop_outcome smallTop (PowerUp.blank smallTop.toParams) hw
    playable_twoPushes himage (n := 300) (by decide) (by decide) hrun
  exact ⟨image, himage, hroot.trans (by decide +kernel),
    ((hsub 1 (by decide) (by decide)).2.2 (by decide)).trans (by decide +kernel)⟩

end SynTop

end VPifo
