import VPifo.Hardware.TraceFinish
import Mathlib.Algebra.BigOperators.Group.List.Basic
import Mathlib.Order.Interval.Finset.Nat

/-!
# When a packet is replayed

Between the time stamp of a packet in the capture file and the cycle in which the engine is
asked to push it lie the tagger, which turns the time since the packet before into an idle
record, the script, and the reader, which takes one cycle for a record and one more for every
cycle it counts down.  This file says in which cycle a packet arrives after all that.

The outputs of the reader in consecutive cycles are a list, `timeline`, which is put together
from the records one by one (`shown_eq_timeline`).  For the trace of a list of packets each of
them contributes a number of quiet cycles, `waitCycles`, and then its push and its pop
(`timeline_of_printed`).  So packet `i` is pushed in cycle `pushCycle i`
(`replay_schedule`).

Not much of the time stamps is left in these cycles.  The stamps count microseconds, one
microsecond is 200 cycles, and an interval record counts to 107: every gap is cut to the same
length, and only whether the stamp changes makes a difference (`replay_distance`).
-/

namespace VPifo.Trace

open Sdl

section Timeline

variable (P : ReaderParams)

/-- What the outputs show in consecutive cycles, from the cycle after the first read. -/
def timeline (trace : List Record) : List Shown :=
  trace.flatMap fun r => outputs P r :: List.replicate (duration r - 1) (quiet P)

/-- The outputs in the cycle after a pop is read. -/
def popped : Shown := outputs P .pop

variable {P}

theorem timeline_cons (r : Record) (trace : List Record) :
    timeline P (r :: trace) =
      outputs P r :: (List.replicate (duration r - 1) (quiet P) ++ timeline P trace) := rfl

theorem timeline_append (xs ys : List Record) :
    timeline P (xs ++ ys) = timeline P xs ++ timeline P ys := List.flatMap_append

/-- An idle record is quiet for as long as it takes. -/
theorem timeline_idle (n : ℤ) :
    timeline P [.idle n] = List.replicate (1 + n.toNat) (quiet P) := by
  have hcount : 1 + n.toNat - 1 = n.toNat := Nat.add_sub_cancel_left 1 _
  rw [timeline_cons, duration, hcount, Nat.add_comm, List.replicate_succ]
  exact congrArg _ (List.append_nil _)

/-- The first record moves the others back. -/
theorem start_cons (r : Record) (trace : List Record) (a : ℕ) :
    start (romRecords (r :: trace)) (a + 1) = duration r + start (romRecords trace) a := by
  induction a with
  | zero => simp [start, romRecords]
  | succ a ih =>
    rw [start, ih, start, Nat.add_assoc]
    rfl

/-- The place of a record in the timeline. -/
theorem timeline_getD {trace : List Record} {a j : ℕ}
    (hj : j < duration (romRecords trace a)) :
    (timeline P trace).getD (start (romRecords trace) a + j) (quiet P) =
      if j = 0 then outputs P (romRecords trace a) else quiet P := by
  induction trace generalizing a with
  | nil =>
    have hidle : romRecords [] a = .idle 0 := rfl
    rw [hidle]
    split <;> rfl
  | cons r trace ih =>
    have hlen : (outputs P r :: List.replicate (duration r - 1) (quiet P)).length =
        duration r := by
      have hpos := duration_pos r
      simp
      omega
    cases a with
    | zero =>
      have hr : romRecords (r :: trace) 0 = r := rfl
      rw [hr] at hj ⊢
      rw [timeline_cons, ← List.cons_append, start, Nat.zero_add,
        List.getD_append _ _ _ _ (by omega)]
      cases j with
      | zero => rfl
      | succ j =>
        rw [List.getD_cons_succ, if_neg (Nat.succ_ne_zero j)]
        exact List.getD_replicate _ (by omega)
    | succ a =>
      have hr : romRecords (r :: trace) (a + 1) = romRecords trace a := rfl
      rw [hr] at hj ⊢
      rw [start_cons, timeline_cons, ← List.cons_append,
        List.getD_append_right _ _ _ _ (by omega), hlen,
        show duration r + start (romRecords trace) a + j - duration r =
          start (romRecords trace) a + j by omega]
      exact ih hj

/-- **The reader shows the timeline** of a trace that is in its ROM, then nothing until the
address wraps. -/
theorem shown_eq_timeline {trace : List Record}
    (hfits : ∀ r ∈ trace, r.Fits P.toTraceWidths) {c : ℕ}
    (hc : c < start (romRecords trace) P.ROM_SIZE) :
    (readerRun P (romOf P (romRecords trace)) (c + 1)).shown =
      (timeline P trace).getD c (quiet P) := by
  obtain ⟨a, hle, hlt⟩ := exists_start (romRecords trace) c
  obtain ⟨j, rfl⟩ := Nat.exists_eq_add_of_le hle
  have ha : a < P.ROM_SIZE := by
    by_contra hge
    have hmono := start_le_start (romRecords trace) (Nat.le_of_not_lt hge)
    omega
  have hplayed : played P (romRecords trace) a = romRecords trace a := played_of_lt ha
  have hstart : start (played P (romRecords trace)) a = start (romRecords trace) a :=
    start_congr fun b hb => played_of_lt (hb.trans ha)
  have hj : j < duration (romRecords trace a) := by
    rw [start] at hlt
    omega
  have hrun := run_within (fun a _ => fits_romRecords hfits a) (hplayed ▸ hj)
  rw [hstart, hplayed] at hrun
  rw [hrun, timeline_getD hj]

end Timeline

/-! ## The timeline of the tagger -/

/-- The cycles in which nothing happens before a packet, for the cycles of the packet before it
and of the packet itself. -/
def waitCycles (curCycle thisPacketCycle : ℤ) : ℕ :=
  if thisPacketCycle - curCycle > 1 then
    if curCycle ≠ 0 then (min (thisPacketCycle - curCycle) (MAX_INTERVAL_IDLECYCLE + 1)).toNat
    else 11
  else 0

section Tagger

variable {P : ReaderParams} {F : Type} {D : Doubles F} {h : Heap F} {sizes : String → Option ℤ}

/-- An idle record takes the cycles of the gap. -/
theorem timeline_gapRecord (curCycle thisPacketCycle : ℤ) :
    timeline P (gapRecord curCycle thisPacketCycle) =
      List.replicate (waitCycles curCycle thisPacketCycle) (quiet P) := by
  unfold gapRecord waitCycles
  split_ifs with hgap hcur
  · rw [timeline_idle]
    congr 1
    unfold MAX_INTERVAL_IDLECYCLE
    omega
  · exact timeline_idle 10
  · rfl

/-! ### Where the calls are -/

/-- A quiet stretch for each push, then the push and its pop. -/
def beats (P : ReaderParams) (waits : List ℕ) (pushes : List Record) : List Shown :=
  (List.zipWith (fun n r => List.replicate n (quiet P) ++ [outputs P r, popped P]) waits
    pushes).flatten

/-- Where push `i` is in the beats. -/
def place (waits : List ℕ) (i : ℕ) : ℕ := 2 * i + (waits.take (i + 1)).sum

theorem place_zero (n : ℕ) (waits : List ℕ) : place (n :: waits) 0 = n := by simp [place]

theorem place_succ (n : ℕ) (waits : List ℕ) (i : ℕ) :
    place (n :: waits) (i + 1) = n + 2 + place waits i := by
  rw [place, place, List.take_succ_cons, List.sum_cons]
  omega

theorem place_step {waits : List ℕ} {i : ℕ} (hi : i + 1 < waits.length) :
    place waits (i + 1) = place waits i + 2 + waits[i + 1] := by
  rw [place, place, List.sum_take_succ waits (i + 1) hi]
  omega

theorem place_le (waits : List ℕ) (i : ℕ) : place waits i ≤ 2 * i + waits.sum := by
  have hsum := List.sum_take_add_sum_drop waits (i + 1)
  rw [place]
  omega

theorem beats_cons (n : ℕ) (waits : List ℕ) (r : Record) (pushes : List Record) :
    beats P (n :: waits) (r :: pushes) =
      List.replicate n (quiet P) ++ outputs P r :: popped P :: beats P waits pushes := by
  simp [beats]

/-- The beats show the pushes and pops at their places. -/
theorem beats_getD {waits : List ℕ} {pushes : List Record} {i : ℕ} (hi : i < waits.length)
    (hi' : i < pushes.length) :
    (beats P waits pushes).getD (place waits i) (quiet P) = outputs P pushes[i] ∧
      (beats P waits pushes).getD (place waits i + 1) (quiet P) = popped P := by
  induction waits generalizing pushes i with
  | nil => simp at hi
  | cons n waits ih =>
    obtain ⟨r, pushes, rfl⟩ :=
      List.exists_cons_of_ne_nil (List.ne_nil_of_length_pos (Nat.zero_lt_of_lt hi'))
    have hskip : ∀ k, (beats P (n :: waits) (r :: pushes)).getD (n + k) (quiet P) =
        (outputs P r :: popped P :: beats P waits pushes).getD k (quiet P) := by
      intro k
      rw [beats_cons, List.getD_append_right _ _ _ _ (by simp), List.length_replicate,
        Nat.add_sub_cancel_left]
    cases i with
    | zero =>
      rw [place_zero]
      exact ⟨hskip 0, hskip 1⟩
    | succ i =>
      rw [place_succ, Nat.add_assoc, Nat.add_assoc, hskip, hskip, Nat.add_comm 2, Nat.add_assoc,
        Nat.add_comm 2]
      exact ih (by simpa using hi) (by simpa using hi')

theorem place_lt_length {waits : List ℕ} {pushes : List Record} {i : ℕ} (hi : i < waits.length)
    (hi' : i < pushes.length) : place waits i + 1 < (beats P waits pushes).length := by
  by_contra hge
  have hpop := (beats_getD (P := P) hi hi').2
  rw [List.getD_eq_default _ _ (not_lt.mp hge)] at hpop
  exact absurd (congrArg Shown.oPop hpop) Bool.false_ne_true

/-- Everywhere else the beats are quiet. -/
theorem exists_place {waits : List ℕ} {pushes : List Record} {k : ℕ}
    (hk : (beats P waits pushes).getD k (quiet P) ≠ quiet P) :
    ∃ i < waits.length, i < pushes.length ∧ (k = place waits i ∨ k = place waits i + 1) := by
  induction waits generalizing pushes k with
  | nil => exact absurd rfl hk
  | cons n waits ih =>
    cases pushes with
    | nil => exact absurd rfl hk
    | cons r pushes =>
      rw [beats_cons] at hk
      have hlen : (List.replicate n (quiet P)).length = n := List.length_replicate
      rcases Nat.lt_or_ge k n with hlt | hge
      · rw [List.getD_append _ _ _ _ (by omega), List.getD_replicate _ hlt] at hk
        exact absurd rfl hk
      · obtain ⟨k, rfl⟩ := Nat.exists_eq_add_of_le hge
        rw [List.getD_append_right _ _ _ _ (by omega), hlen, Nat.add_sub_cancel_left] at hk
        match k with
        | 0 => exact ⟨0, by simp, by simp, .inl (place_zero n waits).symm⟩
        | 1 => exact ⟨0, by simp, by simp, .inr (congrArg (· + 1) (place_zero n waits).symm)⟩
        | k + 2 =>
          obtain ⟨i, hi, hi', hplace⟩ := ih hk
          refine ⟨i + 1, by simpa using hi, by simpa using hi', ?_⟩
          rw [place_succ]
          omega

/-! ### The beats of a trace -/

/-- The pushes of a trace. -/
def pushRecords (trace : List Record) : List Record := trace.filter fun r => r.type = 1

variable (D) in
/-- The quiet cycles before each of the packets. -/
def waits (ts : List Tagged) : List ℕ :=
  ts.map fun t => waitCycles t.curCycle (tsToCycle D t.packet)

theorem pushRecords_append (xs ys : List Record) :
    pushRecords (xs ++ ys) = pushRecords xs ++ pushRecords ys := List.filter_append ..

theorem pushRecords_gapRecord (curCycle thisPacketCycle : ℤ) :
    pushRecords (gapRecord curCycle thisPacketCycle) = [] := by
  unfold gapRecord
  split_ifs <;> rfl

/-- What is printed for the tagged packets has one push for each, and its timeline is their
beats. -/
theorem timeline_of_printed {q : Queues F} {pktId : ℤ} {ts : List Tagged} {out : List Record}
    (hprinted : Printed D h sizes q pktId ts out) :
    (pushRecords out).length = ts.length ∧
      timeline P out = beats P (waits D ts) (pushRecords out) := by
  induction hprinted with
  | nil q pktId => exact ⟨rfl, rfl⟩
  | @cons q q' pktId t ts leafNode priorityVec out leaf ranks rest ih =>
    obtain ⟨hlen, hbeats⟩ := ih
    have hpushes : pushRecords (gapRecord t.curCycle (tsToCycle D t.packet) ++
        (.push leafNode.nodeId pktId priorityVec :: .pop :: out)) =
          .push leafNode.nodeId pktId priorityVec :: pushRecords out := by
      rw [pushRecords_append, pushRecords_gapRecord]
      rfl
    rw [hpushes]
    refine ⟨by rw [List.length_cons, hlen, List.length_cons], ?_⟩
    rw [waits, List.map_cons, beats_cons, timeline_append, timeline_gapRecord, ← waits, ← hbeats]
    rfl

end Tagger

/-! ## The schedule of the replay -/

section Schedule

variable {P : ReaderParams} {F : Type} {D : Doubles F} {h : Heap F}

theorem length_timeline (trace : List Record) :
    (timeline P trace).length = start (romRecords trace) trace.length := by
  induction trace with
  | nil => rfl
  | cons r trace ih =>
    have hpos := duration_pos r
    rw [List.length_cons, start_cons, ← ih, timeline_cons]
    simp only [List.length_cons, List.length_append, List.length_replicate]
    omega

variable (D) in
/-- The cycle in which packet `i` is pushed: its place in the beats, one cycle after it is
read. -/
def pushCycle (ts : List Tagged) (i : ℕ) : ℕ := place (waits D ts) i + 1

/-- The timeline of a trace: the beats of its packets, and then nothing. -/
theorem timeline_of_tagPriority {packets : List Packet} {hasPFabric : Bool} {trace : List Record}
    (htag : tagPriority D h packets hasPFabric = some trace) :
    (pushRecords trace).length = (taggedFrom D h 0 0 packets).length ∧
      timeline P trace =
        beats P (waits D (taggedFrom D h 0 0 packets)) (pushRecords trace) ++
          List.replicate (1 + MAX_IDLECYCLE.toNat) (quiet P) := by
  obtain ⟨out, hloop, rfl⟩ := Option.map_eq_some_iff.1 htag
  obtain ⟨hlen, hbeats⟩ := timeline_of_printed (P := P) (printed_of_tagLoop hloop)
  have hlast : pushRecords [Record.idle MAX_IDLECYCLE] = [] := rfl
  rw [pushRecords_append, hlast, List.append_nil, timeline_append, hbeats, timeline_idle]
  exact ⟨hlen, rfl⟩

/-- A trace shows its beats. -/
theorem shown_of_tagPriority {packets : List Packet} {hasPFabric : Bool} {trace : List Record}
    (htag : tagPriority D h packets hasPFabric = some trace)
    (hfits : ∀ r ∈ trace, r.Fits P.toTraceWidths) {c : ℕ}
    (hc : c < start (romRecords trace) P.ROM_SIZE) :
    (readerRun P (romOf P (romRecords trace)) (c + 1)).shown =
      (beats P (waits D (taggedFrom D h 0 0 packets)) (pushRecords trace)).getD c (quiet P) := by
  rw [shown_eq_timeline hfits hc, (timeline_of_tagPriority htag).2]
  rcases Nat.lt_or_ge c (beats P (waits D (taggedFrom D h 0 0 packets))
    (pushRecords trace)).length with hlt | hge
  · exact List.getD_append _ _ _ _ hlt
  · rw [List.getD_append_right _ _ _ _ hge, List.getD_eq_default _ _ hge,
      List.getD_eq_getElem?_getD]
    exact List.getElem?_getD_replicate_default_eq _ _ _

/-- The beats of a trace end before the address wraps. -/
theorem place_lt_start {packets : List Packet} {hasPFabric : Bool} {trace : List Record}
    (htag : tagPriority D h packets hasPFabric = some trace) (hsize : trace.length ≤ P.ROM_SIZE)
    {i : ℕ} (hi : i < (taggedFrom D h 0 0 packets).length) :
    place (waits D (taggedFrom D h 0 0 packets)) i + 1 < start (romRecords trace) P.ROM_SIZE := by
  obtain ⟨hlen, htimeline⟩ := timeline_of_tagPriority (P := P) htag
  have hwrap := start_le_start (romRecords trace) hsize
  have hi' : i < (waits D (taggedFrom D h 0 0 packets)).length := by rwa [waits, List.length_map]
  have hplace := place_lt_length (P := P) hi' (hi.trans_eq hlen.symm)
  rw [← length_timeline (P := P), htimeline, List.length_append] at hwrap
  omega

/-- The cycles of the packets, in their order, do not go back. -/
def stamps (D : Doubles F) (ts : List Tagged) : List ℤ := ts.map fun t => tsToCycle D t.packet

/-- The quiet cycles before a packet depend on its cycle and the one before. -/
theorem waits_eq (cur cnt : ℤ) (packets : List Packet) :
    waits D (taggedFrom D h cur cnt packets) =
      List.zipWith waitCycles (cur :: stamps D (taggedFrom D h cur cnt packets))
        (stamps D (taggedFrom D h cur cnt packets)) := by
  induction packets generalizing cur cnt with
  | nil => rfl
  | cons p ps ih =>
    rw [taggedFrom]
    split_ifs with hgaps
    · rfl
    · cases h.flowNodeMap p.flowId with
      | none => exact ih cur cnt
      | some leaf =>
        dsimp only
        rw [waits, stamps, List.map_cons, List.map_cons, ← waits, ← stamps, List.zipWith_cons_cons,
          ih]

/-- What one packet of a list that is tagged does: nothing once there were five gaps or when its
flow is not attached, and otherwise it is printed and its cycle is the one to compare with. -/
theorem tagLoop_cons_cases {sizes : String → Option ℤ} {p : Packet} {ps : List Packet}
    {s : TagState F} {out : List Record} (hloop : tagLoop D h sizes (p :: ps) s = some out) :
    taggedFrom D h s.curCycle s.idleCycleCnt (p :: ps) = [] ∨
      (tagLoop D h sizes ps s = some out ∧
        taggedFrom D h s.curCycle s.idleCycleCnt (p :: ps) =
          taggedFrom D h s.curCycle s.idleCycleCnt ps) ∨
      ∃ leaf s₁ out', tagLoop D h sizes ps s₁ = some out' ∧ s.idleCycleCnt ≤ 4 ∧
        s.curCycle ≤ tsToCycle D p ∧ s₁.curCycle = tsToCycle D p ∧
        s₁.idleCycleCnt = nextIdleCycleCnt s.curCycle (tsToCycle D p) s.idleCycleCnt ∧
        taggedFrom D h s.curCycle s.idleCycleCnt (p :: ps) =
          ⟨s.curCycle, leaf, p⟩ :: taggedFrom D h s₁.curCycle s₁.idleCycleCnt ps := by
  by_cases hgaps : s.idleCycleCnt > 4
  · exact .inl (by rw [taggedFrom, if_pos hgaps])
  · obtain ⟨⟨s₁, printed⟩, hhandler, hrest⟩ := Option.bind_eq_some_iff.1 hloop
    obtain ⟨out', hout', rfl⟩ := Option.map_eq_some_iff.1 hrest
    rw [tagPriorityHandler, if_neg hgaps] at hhandler
    rw [taggedFrom, if_neg hgaps]
    cases hflow : h.flowNodeMap p.flowId with
    | none =>
      rw [hflow] at hhandler
      obtain ⟨rfl, rfl⟩ := Prod.mk.inj (Option.some.inj hhandler)
      exact .inr (.inl ⟨hout', rfl⟩)
    | some leaf =>
      rw [hflow] at hhandler
      dsimp only at hhandler
      split at hhandler
      · exact absurd hhandler (by simp)
      · obtain ⟨r, -, hhandler⟩ := Option.bind_eq_some_iff.1 hhandler
        simp only [Option.ite_none_right_eq_some, Option.some.injEq, Prod.mk.injEq] at hhandler
        obtain ⟨hle, rfl, -⟩ := hhandler
        exact .inr (.inr ⟨leaf, _, out', hout', not_lt.mp hgaps, hle, rfl, rfl, rfl⟩)

theorem isChain_stamps {sizes : String → Option ℤ} {packets : List Packet} {s : TagState F}
    {out : List Record} (hloop : tagLoop D h sizes packets s = some out) :
    (s.curCycle :: stamps D (taggedFrom D h s.curCycle s.idleCycleCnt packets)).IsChain (· ≤ ·) := by
  induction packets generalizing s out with
  | nil => exact .singleton _
  | cons p ps ih =>
    rcases tagLoop_cons_cases hloop with hnil | ⟨hrest, hskip⟩ |
      ⟨leaf, s₁, out', hrest, -, hle, hcur, -, htagged⟩
    · rw [hnil]
      exact .singleton _
    · rw [hskip]
      exact ih hrest
    · rw [htagged, stamps, List.map_cons, ← stamps, List.isChain_cons_cons, ← hcur]
      exact ⟨hcur ▸ hle, ih hrest⟩

/-! ### Five gaps at most -/

/-- A gap is counted or follows a packet of cycle zero. -/
theorem waitCycles_add_le {curCycle thisPacketCycle : ℤ} (hcur : 0 ≤ curCycle)
    (hle : curCycle ≤ thisPacketCycle) (idleCycleCnt : ℤ) :
    (waitCycles curCycle thisPacketCycle : ℤ) + (if thisPacketCycle = 0 then 11 else 0) ≤
      108 * (nextIdleCycleCnt curCycle thisPacketCycle idleCycleCnt - idleCycleCnt) +
        if curCycle = 0 then 11 else 0 := by
  unfold waitCycles nextIdleCycleCnt MAX_INTERVAL_IDLECYCLE
  push_cast
  split_ifs <;> omega

/-- Each of the gaps that are left takes 108 cycles at most, and the packets before the first
time stamp above zero take eleven more. -/
theorem sum_waits_le_of_tagLoop {sizes : String → Option ℤ} {packets : List Packet}
    {s : TagState F} {out : List Record} (hloop : tagLoop D h sizes packets s = some out)
    (hcur : 0 ≤ s.curCycle) (hcnt : s.idleCycleCnt ≤ 5) :
    ((waits D (taggedFrom D h s.curCycle s.idleCycleCnt packets)).sum : ℤ) ≤
      108 * (5 - s.idleCycleCnt) + if s.curCycle = 0 then 11 else 0 := by
  induction packets generalizing s out with
  | nil =>
    rw [taggedFrom, waits, List.map_nil, List.sum_nil]
    split <;> push_cast <;> omega
  | cons p ps ih =>
    rcases tagLoop_cons_cases hloop with hnil | ⟨hrest, hskip⟩ |
      ⟨leaf, s₁, out', hrest, hfew, hle, hcur₁, hcnt₁, htagged⟩
    · rw [hnil, waits, List.map_nil, List.sum_nil]
      split <;> push_cast <;> omega
    · rw [hskip]
      exact ih hrest hcur hcnt
    · rw [htagged, waits, List.map_cons, List.sum_cons, ← waits]
      have hcnt₁' : s₁.idleCycleCnt ≤ 5 := by
        rw [hcnt₁, nextIdleCycleCnt]
        split <;> omega
      have hrec := ih hrest (by omega) hcnt₁'
      have hwait := waitCycles_add_le hcur hle s.idleCycleCnt
      rw [← hcnt₁, ← hcur₁] at hwait
      rw [← hcur₁, Nat.cast_add]
      linarith

theorem sum_waits_le {packets : List Packet} {hasPFabric : Bool} {trace : List Record}
    (htag : tagPriority D h packets hasPFabric = some trace) :
    (waits D (taggedFrom D h 0 0 packets)).sum ≤ 551 := by
  obtain ⟨out, hloop, -⟩ := Option.map_eq_some_iff.1 htag
  have hle := sum_waits_le_of_tagLoop hloop le_rfl (by norm_num)
  simp only [if_true] at hle
  omega

/-- **When the packets are replayed.**  Take a heap and packets that are tagged, and a reader and
a ROM in which the trace fits.  Packet `i` of those that are printed is pushed in cycle
`pushCycle i`, with the fields of its record, and popped in the next one; in all other cycles up
to the wrap of the address the outputs are quiet.  The last of `n` packets is pushed in cycle
`2 * n + 550` at the latest, since nothing is printed after the fifth gap. -/
theorem replay_schedule (hw : P.toTraceWidths.Ok) {packets : List Packet} {hasPFabric : Bool}
    {trace : List Record} (htag : tagPriority D h packets hasPFabric = some trace)
    (hfits : ∀ r ∈ trace, r.Fits P.toTraceWidths) (hsize : trace.length ≤ P.ROM_SIZE)
    {image : List (List Char)}
    (hmem : trace2mem P.toTraceWidths P.ROM_SIZE (trace.map Record.text) = some image) :
    (pushRecords trace).length = (taggedFrom D h 0 0 packets).length ∧
      (∀ i r, (pushRecords trace)[i]? = some r →
        let c := pushCycle D (taggedFrom D h 0 0 packets) i
        (readerRun P (memOf image) c).shown = outputs P r ∧
          (readerRun P (memOf image) (c + 1)).shown = popped P ∧
          c + 1 ≤ start (romRecords trace) P.ROM_SIZE ∧ c ≤ 2 * i + 552) ∧
      ∀ c ≤ start (romRecords trace) P.ROM_SIZE,
        (readerRun P (memOf image) c).shown ≠ quiet P →
          ∃ i < (taggedFrom D h 0 0 packets).length,
            c = pushCycle D (taggedFrom D h 0 0 packets) i ∨
              c = pushCycle D (taggedFrom D h 0 0 packets) i + 1 := by
  obtain ⟨image', himage, hrom⟩ := memOf_image hw P.ROM_SIZE hfits
  obtain rfl := Option.some.inj (hmem.symm.trans himage)
  obtain ⟨hlen, -⟩ := timeline_of_tagPriority (P := P) htag
  have hwaits : (waits D (taggedFrom D h 0 0 packets)).length =
      (taggedFrom D h 0 0 packets).length := List.length_map _
  rw [hrom]
  refine ⟨hlen, fun i r hr => ?_, fun c hc hshown => ?_⟩
  · obtain ⟨hi, rfl⟩ := List.getElem?_eq_some_iff.1 hr
    have hplace := place_lt_start htag hsize (i := i) (by rwa [← hlen])
    have hi' : i < (waits D (taggedFrom D h 0 0 packets)).length := by rwa [hwaits, ← hlen]
    obtain ⟨hpush, hpop⟩ := beats_getD (P := P) hi' hi
    refine ⟨?_, ?_, hplace, ?_⟩
    · rw [pushCycle, shown_of_tagPriority htag hfits (by omega), hpush]
    · rw [pushCycle, shown_of_tagPriority htag hfits hplace, hpop]
    · have hle := place_le (waits D (taggedFrom D h 0 0 packets)) i
      have hsum := sum_waits_le htag
      rw [pushCycle]
      omega
  · cases c with
    | zero => exact absurd rfl hshown
    | succ c =>
      rw [shown_of_tagPriority htag hfits hc] at hshown
      obtain ⟨i, hi, -, hplace⟩ := exists_place hshown
      refine ⟨i, by rwa [← hwaits], ?_⟩
      rw [pushCycle]
      omega

/-! ### The drift -/

/-- The cycle of the time stamp of packet `k`. -/
def stamp (D : Doubles F) (ts : List Tagged) (k : ℕ) : ℤ := (stamps D ts).getD k 0

theorem length_stamps (ts : List Tagged) : (stamps D ts).length = ts.length := List.length_map _

theorem length_waits (ts : List Tagged) : (waits D ts).length = ts.length := List.length_map _

theorem stamp_eq {ts : List Tagged} {k : ℕ} (hk : k < (stamps D ts).length) :
    stamp D ts k = (stamps D ts)[k] := List.getD_eq_getElem _ _ _

/-- The next packet is pushed two cycles later, and the quiet cycles of the gap. -/
theorem pushCycle_succ {packets : List Packet} {k : ℕ}
    (hk : k + 1 < (taggedFrom D h 0 0 packets).length) :
    pushCycle D (taggedFrom D h 0 0 packets) (k + 1) =
      pushCycle D (taggedFrom D h 0 0 packets) k + 2 +
        waitCycles (stamp D (taggedFrom D h 0 0 packets) k)
          (stamp D (taggedFrom D h 0 0 packets) (k + 1)) := by
  have hlen := length_stamps (D := D) (taggedFrom D h 0 0 packets)
  have hk' : k + 1 < (waits D (taggedFrom D h 0 0 packets)).length := by rwa [length_waits]
  have hwait : (waits D (taggedFrom D h 0 0 packets))[k + 1] =
      waitCycles (stamp D (taggedFrom D h 0 0 packets) k)
        (stamp D (taggedFrom D h 0 0 packets) (k + 1)) := by
    rw [stamp_eq (by omega), stamp_eq (by omega)]
    simp only [waits_eq, List.getElem_zipWith, List.getElem_cons_succ]
  rw [pushCycle, pushCycle, place_step hk', hwait]
  omega

/-- The stamps do not go back. -/
theorem stamp_le_stamp {packets : List Packet} {hasPFabric : Bool} {trace : List Record}
    (htag : tagPriority D h packets hasPFabric = some trace) {i j : ℕ} (hij : i ≤ j)
    (hj : j < (taggedFrom D h 0 0 packets).length) :
    stamp D (taggedFrom D h 0 0 packets) i ≤ stamp D (taggedFrom D h 0 0 packets) j := by
  obtain ⟨out, hloop, -⟩ := Option.map_eq_some_iff.1 htag
  have hsorted : (stamps D (taggedFrom D h 0 0 packets)).Pairwise (· ≤ ·) :=
    (List.isChain_iff_pairwise.1 (isChain_stamps hloop)).of_cons
  have hlen := length_stamps (D := D) (taggedFrom D h 0 0 packets)
  rw [stamp_eq (by omega), stamp_eq (by omega)]
  rcases Nat.lt_or_eq_of_le hij with hlt | rfl
  · exact List.pairwise_iff_getElem.1 hsorted i j _ _ hlt
  · exact le_rfl

/-- A microsecond is 200 cycles. -/
theorem tsToCycle_rat (p : Packet) :
    tsToCycle Doubles.rat p = 200 * (1000000 * p.tvSec + p.tvUsec) := by
  have hrat : (p.tvSec : ℚ) * ((200000000 : ℤ) : ℚ) +
      (p.tvUsec : ℚ) * (((200000000 : ℤ) : ℚ) / ((1000000 : ℤ) : ℚ)) =
        ((200 * (1000000 * p.tvSec + p.tvUsec) : ℤ) : ℚ) := by
    push_cast
    ring
  simp only [tsToCycle, Doubles.rat, hrat, Rat.num_intCast, Rat.den_intCast, Nat.cast_one,
    Int.tdiv_one]

/-- Two time stamps that differ are further apart than an interval record says. -/
theorem waitCycles_of_dvd {a b : ℤ} (ha : 0 < a) (hab : a ≤ b) (hda : 200 ∣ a) (hdb : 200 ∣ b) :
    waitCycles a b = if a = b then 0 else 108 := by
  unfold waitCycles MAX_INTERVAL_IDLECYCLE
  split_ifs <;> omega

/-- How often the time stamp changes from packet `i` to packet `j`. -/
def changes (D : Doubles F) (ts : List Tagged) (i j : ℕ) : ℕ :=
  ((Finset.Ico i j).filter fun k => stamp D ts k ≠ stamp D ts (k + 1)).card

theorem changes_succ {ts : List Tagged} {i j : ℕ} (hij : i ≤ j) :
    changes D ts i (j + 1) =
      changes D ts i j + if stamp D ts j = stamp D ts (j + 1) then 0 else 1 := by
  have hnot : j ∉ (Finset.Ico i j).filter fun k => stamp D ts k ≠ stamp D ts (k + 1) := by simp
  rw [changes, changes, Nat.Ico_succ_right_eq_insert_Ico hij, Finset.filter_insert]
  by_cases hsame : stamp D ts j = stamp D ts (j + 1)
  · rw [if_neg (not_not.2 hsame), if_pos hsame, Nat.add_zero]
  · rw [if_pos hsame, if_neg hsame, Finset.card_insert_of_notMem hnot]

/-- **What the replay keeps of the time stamps.**  At `FREQUENCY` a microsecond is 200 cycles, more
than an interval record can say.  So between two packets, the first of them after cycle zero, the
replay takes two cycles for each packet and 108 for each change of the time stamp, whatever the
times are, and the stamp changes at most five times after cycle zero. -/
theorem replay_distance {h : Heap ℚ} {packets : List Packet} {hasPFabric : Bool}
    {trace : List Record} (htag : tagPriority Doubles.rat h packets hasPFabric = some trace)
    {i j : ℕ} (hij : i ≤ j) (hj : j < (taggedFrom Doubles.rat h 0 0 packets).length)
    (hpos : 0 < stamp Doubles.rat (taggedFrom Doubles.rat h 0 0 packets) i) :
    pushCycle Doubles.rat (taggedFrom Doubles.rat h 0 0 packets) j =
        pushCycle Doubles.rat (taggedFrom Doubles.rat h 0 0 packets) i + 2 * (j - i) +
          108 * changes Doubles.rat (taggedFrom Doubles.rat h 0 0 packets) i j ∧
      changes Doubles.rat (taggedFrom Doubles.rat h 0 0 packets) i j ≤ 5 := by
  have hdvd : ∀ k, 200 ∣ stamp Doubles.rat (taggedFrom Doubles.rat h 0 0 packets) k := by
    intro k
    rcases Nat.lt_or_ge k (stamps Doubles.rat (taggedFrom Doubles.rat h 0 0 packets)).length
      with hk | hk
    · rw [stamp_eq hk]
      simp only [stamps, List.getElem_map, tsToCycle_rat]
      exact dvd_mul_right _ _
    · rw [stamp, List.getD_eq_default _ _ hk]
      exact dvd_zero _
  have hdistance : pushCycle Doubles.rat (taggedFrom Doubles.rat h 0 0 packets) j =
      pushCycle Doubles.rat (taggedFrom Doubles.rat h 0 0 packets) i + 2 * (j - i) +
        108 * changes Doubles.rat (taggedFrom Doubles.rat h 0 0 packets) i j := by
    induction j, hij using Nat.le_induction with
    | base => simp [changes]
    | succ j hij ih =>
      have hjpos := lt_of_lt_of_le hpos (stamp_le_stamp htag hij (by omega))
      have hwait := waitCycles_of_dvd hjpos (stamp_le_stamp htag (Nat.le_succ j) hj)
        (hdvd j) (hdvd (j + 1))
      have hbefore := ih (by omega)
      rw [pushCycle_succ hj, hwait, hbefore, changes_succ hij]
      split_ifs <;> omega
  refine ⟨hdistance, ?_⟩
  have hle := place_le (waits Doubles.rat (taggedFrom Doubles.rat h 0 0 packets)) j
  have hsum := sum_waits_le htag
  have hfirst : 2 * i ≤ place (waits Doubles.rat (taggedFrom Doubles.rat h 0 0 packets)) i :=
    Nat.le_add_right _ _
  rw [pushCycle, pushCycle] at hdistance
  omega

end Schedule

/-- Three packets of the flow `f`: two at the same time, and one a second later. -/
def threePackets : List Packet := [⟨"f", 0, 5, 100⟩, ⟨"f", 0, 5, 100⟩, ⟨"f", 1, 5, 100⟩]

/-- What the tagger prints for them. -/
def threeTrace : List Record :=
  [.idle 10, .push 0 0 [1, 1], .pop, .push 0 1 [1, 1], .pop, .idle 107, .push 0 2 [1, 1], .pop,
    .idle 255]

/-- The widths of `trace2mem.py` and a ROM of sixteen words. -/
def wideReader : ReaderParams := { sdlReader with ROM_WIDTH := 4 }

theorem fits_threeTrace : ∀ r ∈ threeTrace, r.Fits wideReader.toTraceWidths := by
  have hpush : ∀ n : ℤ, InRange 13 n → (Record.push 0 n [1, 1]).Fits wideReader.toTraceWidths :=
    fun n hn => ⟨by decide, hn, by decide, by decide⟩
  intro r hr
  simp only [threeTrace, List.mem_cons, List.not_mem_nil, or_false] at hr
  rcases hr with rfl | rfl | rfl | rfl | rfl | rfl | rfl | rfl | rfl
  · exact (by decide : InRange 8 10)
  · exact hpush 0 (by decide)
  · trivial
  · exact hpush 1 (by decide)
  · trivial
  · exact (by decide : InRange 8 107)
  · exact hpush 2 (by decide)
  · trivial
  · exact (by decide : InRange 8 255)

theorem threePackets_tagged : ∃ h, build Doubles.rat leafFirstProgram = some h ∧
    tagPriority Doubles.rat h threePackets false = some threeTrace ∧
      stamps Doubles.rat (taggedFrom Doubles.rat h 0 0 threePackets) = [1000, 1000, 200001000] ∧
        waits Doubles.rat (taggedFrom Doubles.rat h 0 0 threePackets) = [11, 0, 108] :=
  ⟨_, rfl, by decide +kernel, by decide +kernel, by decide +kernel⟩

/-- The three packets are pushed in the cycles 12, 14 and 124. -/
theorem replay_schedule_three :
    ∃ image, trace2mem wideReader.toTraceWidths wideReader.ROM_SIZE
        (threeTrace.map Record.text) = some image ∧
      ∀ i < 3, (readerRun wideReader (memOf image) ([12, 14, 124].getD i 0)).shown =
        outputs wideReader (.push 0 i [1, 1]) := by
  obtain ⟨h, -, htag, -, hwaits⟩ := threePackets_tagged
  obtain ⟨image, himage, -⟩ := memOf_image (P := wideReader) sdlWidths_ok
    wideReader.ROM_SIZE fits_threeTrace
  obtain ⟨-, hpush, -⟩ := replay_schedule (P := wideReader) sdlWidths_ok htag fits_threeTrace
    (by decide) himage
  have hplaces : ∀ i < 3, place [11, 0, 108] i + 1 = [12, 14, 124].getD i 0 := by decide
  have hrecords : ∀ i < 3, (pushRecords threeTrace)[i]? = some (.push 0 i [1, 1]) := by decide
  refine ⟨image, himage, fun i hi => ?_⟩
  have hcycle : pushCycle Doubles.rat (taggedFrom Doubles.rat h 0 0 threePackets) i =
      [12, 14, 124].getD i 0 := by
    rw [pushCycle, hwaits]
    exact hplaces i hi
  rw [← hcycle]
  exact (hpush i _ (hrecords i hi)).1

/-- The third packet is a second behind the second one, and 110 cycles in the replay. -/
theorem replay_distance_three : ∃ h, build Doubles.rat leafFirstProgram = some h ∧
    pushCycle Doubles.rat (taggedFrom Doubles.rat h 0 0 threePackets) 2 =
      pushCycle Doubles.rat (taggedFrom Doubles.rat h 0 0 threePackets) 1 + 2 * (2 - 1) +
        108 * changes Doubles.rat (taggedFrom Doubles.rat h 0 0 threePackets) 1 2 := by
  obtain ⟨h, hbuild, htag, hstamps, -⟩ := threePackets_tagged
  have hlen : (taggedFrom Doubles.rat h 0 0 threePackets).length = 3 := by
    rw [← length_stamps (D := Doubles.rat), hstamps]
    rfl
  refine ⟨h, hbuild, (replay_distance htag (i := 1) (j := 2) (by decide) ?_ ?_).1⟩
  · rw [hlen]
    decide
  · rw [stamp, hstamps]
    decide

end VPifo.Trace
