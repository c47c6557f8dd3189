import VPifo.Lib.Numerals

/-!
# The trace: printed by the compiler, encoded by `trace2mem.py`, read by `TRACE_READER`

The compiler prints its trace as text, one record a line.  `trace2mem.py` turns every
line into a string of binary digits, a word of the trace ROM, and `TRACE_READER` cuts
that word into fields.  The three are in three languages, and nothing in the repository
compares them.

* `Record.text` is what `tagPriorityHandler` and `tagPriority` send to `std::cout`.
* `encodeLine` is the loop body of `trace2mem.py`: split the line at its commas, every
  item at its colon, look the name up in `width_dict`, and append the padded binary
  numeral of the value, with the filling zeros after the `type` item.
* `iPop` to `iIdleCycleCounter` are the slices of `TRACE_READER`.

A numeral is never cut and never checked by the encoder, so the format holds as long as
every field fits its width (`Record.Fits`), and no further: `wellFormed_iff_fits` says
that a line is a word of the right length, decoded to what was printed, exactly for the
records that fit.
-/

namespace VPifo.Trace

open Numerals

/-! ## The records and their text -/

/-- The characters of a literal.  It is kept folded in proofs, where only a few facts
about each literal are used. -/
@[irreducible] def chars (s : String) : List Char := s.toList

/-- A line of the readable trace. -/
inductive Record
  | idle (idleCycle : ℤ)
  | push (treeId pktMeta : ℤ) (priorityVec : List ℤ)
  | pop
  deriving DecidableEq, Repr

/-- The number after `type:`. -/
def Record.type : Record → ℤ
  | .idle _ => 0
  | .push .. => 1
  | .pop => 2

/-- `for(size_t i=0; i<priorityVec.size(); i++) cout << ", priority" << i << ":" << …`,
from index `i` on. -/
def printPriorities : ℕ → List ℤ → List Char
  | _, [] => []
  | i, p :: ps =>
      chars ", priority" ++ Nat.toDigits 10 i ++ chars ":" ++ decimal p ++
        printPriorities (i + 1) ps

/-- What the compiler prints for a record, with the end of the line. -/
def Record.text : Record → List Char
  | .idle idleCycle => chars "type:0, idle_cycle:" ++ decimal idleCycle ++ ['\n']
  | .push treeId pktMeta priorityVec =>
      chars "type:1, tree_id:" ++ decimal treeId ++ chars ", meta:" ++ decimal pktMeta ++
        printPriorities 0 priorityVec ++ ['\n']
  | .pop => chars "type:2\n"

/-! ## `trace2mem.py` -/

/-- The four widths, set at the top of `trace2mem.py` and as parameters of
`TRACE_READER`. -/
structure TraceWidths where
  PTW : ℕ
  MTW : ℕ
  TREE_NUM_BITS : ℕ
  IDLECYCLE_BITS : ℕ

/-- The widths the two sides are written for: none is zero, and an idle count is
shorter than a push. -/
structure TraceWidths.Ok (w : TraceWidths) : Prop where
  PTW_pos : 1 ≤ w.PTW
  MTW_pos : 1 ≤ w.MTW
  TREE_NUM_BITS_pos : 1 ≤ w.TREE_NUM_BITS
  IDLECYCLE_BITS_pos : 1 ≤ w.IDLECYCLE_BITS
  idle_lt : w.IDLECYCLE_BITS < w.PTW + w.TREE_NUM_BITS + w.MTW + w.PTW

section Encoder

variable (w : TraceWidths)

/-- `TOTAL_WIDTH`. -/
def totalWidth : ℕ :=
  max w.IDLECYCLE_BITS (w.PTW + w.TREE_NUM_BITS + w.MTW + w.PTW) + 2

/-- `idlecycle_padding`. -/
def idlecyclePadding : Bool :=
  decide (w.IDLECYCLE_BITS < w.PTW + w.TREE_NUM_BITS + w.MTW + w.PTW)

/-- `padding_bits`. -/
def paddingBits : ℕ :=
  ((w.IDLECYCLE_BITS : ℤ) - (w.PTW + w.TREE_NUM_BITS + w.MTW + w.PTW : ℕ)).natAbs

/-- `width_dict`; `none` where the assertion `name in width_dict` fails. -/
def widthDict (name : List Char) : Option ℕ :=
  if name = chars "type" then some 2
  else if name = chars "priority1" then some w.PTW
  else if name = chars "tree_id" then some w.TREE_NUM_BITS
  else if name = chars "meta" then some w.MTW
  else if name = chars "priority0" then some w.PTW
  else if name = chars "idle_cycle" then some w.IDLECYCLE_BITS
  else none

/-- `parts = item.split(':')`, then `parts[0].strip()` and `int(parts[1].strip())`. -/
def readItem (item : List Char) : Option (List Char × ℤ) :=
  match item.splitOn ':' with
  | name :: value :: _ => (pyInt (strip value)).map fun v => (strip name, v)
  | _ => none

/-- What one named value appends to `binary_result`. -/
def encodeField (name : List Char) (value : ℤ) : Option (List Char) :=
  (widthDict w name).map fun width =>
    formatBin width value ++
      (if name = chars "type" ∧
          ((idlecyclePadding w = true ∧ value = 0) ∨ (idlecyclePadding w = false ∧ value = 1)) then
        formatBin (paddingBits w) 0 else []) ++
      (if name = chars "type" ∧ value = 2 then formatBin (totalWidth w - 2) 0 else [])

/-- One round of the inner loop. -/
def encodeItem (item : List Char) : Option (List Char) :=
  (readItem item).bind fun field => encodeField w field.1 field.2

/-- The line of the memory file written for a line of the trace. -/
def encodeLine (line : List Char) : Option (List Char) :=
  ((line.splitOn ',').mapM (encodeItem w)).map List.flatten

/-- The whole script: one line for each line read, then zeros up to `ROM_SIZE`. -/
def trace2mem (romSize : ℕ) (lines : List (List Char)) : Option (List (List Char)) :=
  (lines.mapM (encodeLine w)).map fun mem =>
    mem ++ List.replicate (romSize - lines.length) (formatBin (totalWidth w) 0)

end Encoder

/-! ## `TRACE_READER` -/

section Reader

variable (w : TraceWidths)

/-- `TRACE_DATA_BITS`. -/
def traceDataBits : ℕ :=
  (if w.IDLECYCLE_BITS > w.PTW + w.TREE_NUM_BITS + w.MTW + w.PTW then w.IDLECYCLE_BITS
    else w.PTW + w.TREE_NUM_BITS + w.MTW + w.PTW) + 2

/-- `i_pop`. -/
def iPop (iTraceData : ℕ) : ℕ := slice (traceDataBits w - 1) (traceDataBits w - 1) iTraceData

/-- `i_push`. -/
def iPush (iTraceData : ℕ) : ℕ := slice (traceDataBits w - 2) (traceDataBits w - 2) iTraceData

/-- `i_push_tree_id`. -/
def iPushTreeId (iTraceData : ℕ) : ℕ :=
  slice ((w.MTW + w.PTW) + w.TREE_NUM_BITS + w.PTW - 1) ((w.MTW + w.PTW) + w.PTW) iTraceData

/-- `i_push_data`. -/
def iPushData (iTraceData : ℕ) : ℕ := slice ((w.MTW + w.PTW) + w.PTW - 1) w.PTW iTraceData

/-- `i_push_priority`. -/
def iPushPriority (iTraceData : ℕ) : ℕ := slice (w.PTW - 1) 0 iTraceData

/-- `i_idle_cycle_counter`. -/
def iIdleCycleCounter (iTraceData : ℕ) : ℕ := slice (w.IDLECYCLE_BITS - 1) 0 iTraceData

end Reader

/-! ## What the script reads is what the compiler printed

A record is a list of named values (`Record.fields`), printed with a comma and a blank
between two of them.  Splitting at the commas leaves the blank in front of every item
but the first and the end of the line behind the last, and `strip` takes both off. -/

/-- `priority0`, `priority1`, …, from index `i` on, with their values. -/
def priorityFields : ℕ → List ℤ → List (List Char × ℤ)
  | _, [] => []
  | i, p :: ps => (chars "priority" ++ Nat.toDigits 10 i, p) :: priorityFields (i + 1) ps

/-- The named values of a record after its type. -/
def Record.body : Record → List (List Char × ℤ)
  | .idle idleCycle => [(chars "idle_cycle", idleCycle)]
  | .push treeId pktMeta priorityVec =>
      (chars "tree_id", treeId) :: (chars "meta", pktMeta) :: priorityFields 0 priorityVec
  | .pop => []

/-- The named values of a record, in the order they are printed. -/
def Record.fields (r : Record) : List (List Char × ℤ) := (chars "type", r.type) :: r.body

/-- One named value as it is printed. -/
def itemText (f : List Char × ℤ) : List Char := f.1 ++ ':' :: decimal f.2

/-- The items of a printed line: `pre` in front of the first, a blank in front of the
others, the end of the line behind the last. -/
def itemsFrom : List Char → List Char × ℤ → List (List Char × ℤ) → List (List Char)
  | pre, f, [] => [pre ++ (itemText f ++ ['\n'])]
  | pre, f, g :: fs => (pre ++ itemText f) :: itemsFrom [' '] g fs

/-- A name that the script finds again: not empty, and free of blanks, colons and
commas. -/
structure NameOk (name : List Char) : Prop where
  ne_nil : name ≠ []
  not_isSpace : ∀ c ∈ name, isSpace c = false
  not_colon : ':' ∉ name
  not_comma : ',' ∉ name

theorem NameOk.append_digits {name : List Char} (h : NameOk name) (i : ℕ) :
    NameOk (name ++ Nat.toDigits 10 i) := by
  have hdigit : ∀ c ∈ Nat.toDigits 10 i, c.isDigit = true :=
    fun c hc => isDigit_of_mem_toDigits_ten hc
  refine ⟨by simp [h.ne_nil], ?_, ?_, ?_⟩
  · intro c hc
    rcases List.mem_append.1 hc with hc | hc
    · exact h.not_isSpace c hc
    · exact not_isSpace_of_isDigit (hdigit c hc)
  · intro hc
    rcases List.mem_append.1 hc with hc | hc
    · exact h.not_colon hc
    · exact absurd (hdigit _ hc) (by decide)
  · intro hc
    rcases List.mem_append.1 hc with hc | hc
    · exact h.not_comma hc
    · exact absurd (hdigit _ hc) (by decide)

/-- An item, with blanks around it, is read as its name and its value. -/
theorem readItem_itemText {pre post : List Char} {f : List Char × ℤ}
    (hpre : ∀ c ∈ pre, isSpace c = true) (hpost : ∀ c ∈ post, isSpace c = true)
    (hf : NameOk f.1) : readItem (pre ++ (itemText f ++ post)) = some f := by
  have hblank : ∀ l : List Char, (∀ c ∈ l, isSpace c = true) → ':' ∉ l := by
    intro l hl hc
    exact absurd (hl ':' hc) (by decide)
  have hvalue : ':' ∉ decimal f.2 := not_mem_decimal (by decide) (by decide)
  have hsplit : (pre ++ (itemText f ++ post)).splitOn ':' =
      [pre ++ f.1, decimal f.2 ++ post] := by
    have h := @splitOn_append_cons ':' (pre ++ f.1) (decimal f.2 ++ post)
      (by simp [hblank pre hpre, hf.not_colon]) (by simp [hblank post hpost, hvalue])
    simpa [itemText] using h
  have hname : strip (pre ++ f.1) = f.1 := by
    have h := @strip_append pre f.1 [] hpre hf.not_isSpace (by simp) hf.ne_nil
    simpa using h
  have hdec : strip (decimal f.2 ++ post) = decimal f.2 := by
    have h := @strip_append [] (decimal f.2) post (by simp)
      (fun c hc => not_isSpace_of_mem_decimal hc) hpost (decimal_ne_nil f.2)
    simpa using h
  rw [readItem, hsplit]
  simp [hname, hdec, pyInt_decimal]

/-- The items of a line are read as the named values that were printed. -/
theorem mapM_encodeItem_itemsFrom (w : TraceWidths) {pre : List Char} {f : List Char × ℤ}
    {fs : List (List Char × ℤ)} (hpre : ∀ c ∈ pre, isSpace c = true)
    (hf : NameOk f.1) (hfs : ∀ g ∈ fs, NameOk g.1) :
    (itemsFrom pre f fs).mapM (encodeItem w) =
      (f :: fs).mapM fun g => encodeField w g.1 g.2 := by
  induction fs generalizing pre f with
  | nil =>
    have hread := readItem_itemText hpre (by simp [isSpace] : ∀ c ∈ ['\n'], isSpace c = true) hf
    simp [itemsFrom, encodeItem, hread]
  | cons g fs ih =>
    have hread : readItem (pre ++ itemText f) = some f := by
      have h := @readItem_itemText pre [] f hpre (by simp) hf
      simpa using h
    have htail := ih (by simp [isSpace] : ∀ c ∈ [' '], isSpace c = true) (hfs g List.mem_cons_self)
      fun g' hg' => hfs g' (List.mem_cons_of_mem g hg')
    rw [itemsFrom, List.mapM_cons, htail, List.mapM_cons (l := g :: fs)]
    simp [encodeItem, hread]

/-- No item of a line holds a comma. -/
theorem not_comma_of_mem_itemsFrom {pre : List Char} {f : List Char × ℤ}
    {fs : List (List Char × ℤ)} (hpre : ',' ∉ pre) (hf : NameOk f.1)
    (hfs : ∀ g ∈ fs, NameOk g.1) : ∀ item ∈ itemsFrom pre f fs, ',' ∉ item := by
  have hitem : ∀ g : List Char × ℤ, NameOk g.1 → ',' ∉ itemText g := by
    intro g hg
    have hvalue : ',' ∉ decimal g.2 := not_mem_decimal (by decide) (by decide)
    simp [itemText, hg.not_comma, hvalue]
  induction fs generalizing pre f with
  | nil =>
    intro item hmem
    rw [itemsFrom, List.mem_singleton] at hmem
    subst hmem
    simp [hpre, hitem f hf]
  | cons g fs ih =>
    intro item hmem
    rcases List.mem_cons.1 hmem with rfl | hmem
    · simp [hpre, hitem f hf]
    · exact ih (by decide) (hfs g List.mem_cons_self)
        (fun g' hg' => hfs g' (List.mem_cons_of_mem g hg')) item hmem

/-- The line that has these items. -/
theorem intercalate_itemsFrom (pre : List Char) (f : List Char × ℤ)
    (fs : List (List Char × ℤ)) :
    [','].intercalate (itemsFrom pre f fs) =
      pre ++ itemText f ++ (fs.map fun g => ',' :: ' ' :: itemText g).flatten ++ ['\n'] := by
  induction fs generalizing pre f with
  | nil => simp [itemsFrom, List.intercalate]
  | cons g fs ih =>
    have hcons : ∀ l, [','].intercalate ((pre ++ itemText f) :: itemsFrom [' '] g l) =
        pre ++ itemText f ++ ',' :: [','].intercalate (itemsFrom [' '] g l) := by
      intro l
      cases l <;> simp [itemsFrom, List.intercalate]
    rw [itemsFrom, hcons, ih]
    simp

theorem printPriorities_eq (i : ℕ) (ps : List ℤ) :
    printPriorities i ps =
      ((priorityFields i ps).map fun g => ',' :: ' ' :: itemText g).flatten := by
  have hname : chars ", priority" = ',' :: ' ' :: chars "priority" := by simp [chars]
  have hcolon : chars ":" = [':'] := by simp [chars]
  induction ps generalizing i with
  | nil => rfl
  | cons p ps ih =>
    rw [printPriorities, ih, priorityFields, hname, hcolon]
    simp [itemText]

/-- The text of a record is its named values with a comma and a blank between them. -/
theorem Record.text_eq (r : Record) :
    r.text = [','].intercalate (itemsFrom [] (chars "type", r.type) r.body) := by
  rw [intercalate_itemsFrom]
  cases r with
  | idle n =>
    have hlit : chars "type:0, idle_cycle:" =
        chars "type" ++ [':', '0', ',', ' '] ++ chars "idle_cycle" ++ [':'] := by simp [chars]
    have htype : decimal 0 = ['0'] := by decide
    simp [Record.text, Record.type, Record.body, itemText, hlit, htype]
  | push t m ps =>
    have hlit : chars "type:1, tree_id:" =
        chars "type" ++ [':', '1', ',', ' '] ++ chars "tree_id" ++ [':'] := by simp [chars]
    have hmeta : chars ", meta:" = [',', ' '] ++ chars "meta" ++ [':'] := by simp [chars]
    have htype : decimal 1 = ['1'] := by decide
    simp [Record.text, Record.type, Record.body, itemText, printPriorities_eq, hlit, hmeta, htype]
  | pop =>
    have hlit : chars "type:2\n" = chars "type" ++ [':', '2', '\n'] := by simp [chars]
    have htype : decimal 2 = ['2'] := by decide
    simp [Record.text, Record.type, Record.body, itemText, hlit, htype]

theorem nameOk_type : NameOk (chars "type") := by
  unfold chars
  exact ⟨by simp, by simp [isSpace], by decide, by decide⟩

theorem nameOk_priorityFields (i : ℕ) (ps : List ℤ) :
    ∀ g ∈ priorityFields i ps, NameOk g.1 := by
  have hname : NameOk (chars "priority") := by
    unfold chars
    exact ⟨by simp, by simp [isSpace], by decide, by decide⟩
  induction ps generalizing i with
  | nil => simp [priorityFields]
  | cons p ps ih =>
    intro g hg
    rcases List.mem_cons.1 hg with rfl | hg
    · exact hname.append_digits i
    · exact ih (i + 1) g hg

theorem Record.nameOk_body (r : Record) : ∀ g ∈ r.body, NameOk g.1 := by
  have hidle : NameOk (chars "idle_cycle") := by
    unfold chars
    exact ⟨by simp, by simp [isSpace], by decide, by decide⟩
  have htree : NameOk (chars "tree_id") := by
    unfold chars
    exact ⟨by simp, by simp [isSpace], by decide, by decide⟩
  have hmeta : NameOk (chars "meta") := by
    unfold chars
    exact ⟨by simp, by simp [isSpace], by decide, by decide⟩
  intro g hg
  cases r with
  | idle n =>
    rw [List.mem_singleton.1 hg]
    exact hidle
  | push t m ps =>
    simp only [Record.body, List.mem_cons] at hg
    rcases hg with rfl | rfl | hg
    · exact htree
    · exact hmeta
    · exact nameOk_priorityFields 0 ps g hg
  | pop => simp [Record.body] at hg

/-- **The script works on the values the compiler printed.**  Encoding the text of a
record is encoding its named values in order. -/
theorem encodeLine_text (w : TraceWidths) (r : Record) :
    encodeLine w r.text =
      (r.fields.mapM fun g => encodeField w g.1 g.2).map List.flatten := by
  have hsplit : r.text.splitOn ',' = itemsFrom [] (chars "type", r.type) r.body := by
    rw [r.text_eq]
    refine List.splitOn_intercalate ',' ?_ ?_
    · exact not_comma_of_mem_itemsFrom (by simp) nameOk_type r.nameOk_body
    · cases r.body <;> simp [itemsFrom]
  rw [encodeLine, hsplit, mapM_encodeItem_itemsFrom w (by simp) nameOk_type r.nameOk_body,
    Record.fields]

/-! ## The three kinds of words -/

section Words

variable (w : TraceWidths)

theorem widthDict_type : widthDict w (chars "type") = some 2 := by simp [widthDict]

theorem widthDict_tree_id : widthDict w (chars "tree_id") = some w.TREE_NUM_BITS := by
  simp [widthDict, chars]

theorem widthDict_meta : widthDict w (chars "meta") = some w.MTW := by
  simp [widthDict, chars]

theorem widthDict_idle_cycle : widthDict w (chars "idle_cycle") = some w.IDLECYCLE_BITS := by
  simp [widthDict, chars]

theorem widthDict_priority0 :
    widthDict w (chars "priority" ++ Nat.toDigits 10 0) = some w.PTW := by
  simp [widthDict, chars]

theorem widthDict_priority1 :
    widthDict w (chars "priority" ++ Nat.toDigits 10 1) = some w.PTW := by
  have hone : Nat.toDigits 10 1 = ['1'] := by decide
  simp [widthDict, chars, hone]

/-- A value that is not the type is written as its numeral and nothing else. -/
theorem encodeField_of_ne {name : List Char} (hname : name ≠ chars "type") (v : ℤ) :
    encodeField w name v = (widthDict w name).map fun width => formatBin width v := by
  simp [encodeField, hname]

/-- The word of an idle record: the type, zeros, the count. -/
theorem encodeLine_idle (hw : w.Ok) (n : ℤ) :
    encodeLine w (Record.idle n).text =
      some ('0' :: '0' :: (formatBin (paddingBits w) 0 ++ formatBin w.IDLECYCLE_BITS n)) := by
  have hpad : idlecyclePadding w = true := decide_eq_true hw.idle_lt
  have htype : formatBin 2 0 = ['0', '0'] := by decide
  have hne : chars "idle_cycle" ≠ chars "type" := by simp [chars]
  rw [encodeLine_text]
  simp only [Record.fields, Record.type, Record.body, List.mapM_cons, List.mapM_nil,
    encodeField_of_ne w hne, widthDict_idle_cycle]
  simp [encodeField, widthDict_type, hpad, htype]

/-- The word of a push: the type and the five fields, in the order they are printed. -/
theorem encodeLine_push (hw : w.Ok) (t m p₀ p₁ : ℤ) :
    encodeLine w (Record.push t m [p₀, p₁]).text =
      some ('0' :: '1' :: (formatBin w.TREE_NUM_BITS t ++ (formatBin w.MTW m ++
        (formatBin w.PTW p₀ ++ formatBin w.PTW p₁)))) := by
  have hpad : idlecyclePadding w = true := decide_eq_true hw.idle_lt
  have htype : formatBin 2 1 = ['0', '1'] := by decide
  have htree : chars "tree_id" ≠ chars "type" := by simp [chars]
  have hmeta : chars "meta" ≠ chars "type" := by simp [chars]
  have hprio : ∀ i, chars "priority" ++ Nat.toDigits 10 i ≠ chars "type" := by simp [chars]
  rw [encodeLine_text]
  simp only [Record.fields, Record.type, Record.body, priorityFields, List.mapM_cons,
    List.mapM_nil, encodeField_of_ne w htree, encodeField_of_ne w hmeta,
    encodeField_of_ne w (hprio _), widthDict_tree_id, widthDict_meta, widthDict_priority0,
    widthDict_priority1, Nat.zero_add]
  simp [encodeField, widthDict_type, hpad, htype]

/-- The word of a pop: the type and zeros. -/
theorem encodeLine_pop :
    encodeLine w Record.pop.text = some ('1' :: '0' :: formatBin (totalWidth w - 2) 0) := by
  have htype : formatBin 2 2 = ['1', '0'] := by decide
  rw [encodeLine_text]
  simp [Record.fields, Record.type, Record.body, encodeField, widthDict_type, htype]

end Words

/-! ## The format -/

/-- A value that a field of `width` bits can hold. -/
def InRange (width : ℕ) (v : ℤ) : Prop := 0 ≤ v ∧ v < 2 ^ width

instance (width : ℕ) (v : ℤ) : Decidable (InRange width v) :=
  inferInstanceAs (Decidable (_ ∧ _))

/-- Every field of the record can be held by its width.  The format has two priorities. -/
def Record.Fits (w : TraceWidths) : Record → Prop
  | .idle idleCycle => InRange w.IDLECYCLE_BITS idleCycle
  | .push treeId pktMeta [priority0, priority1] =>
      InRange w.TREE_NUM_BITS treeId ∧ InRange w.MTW pktMeta ∧
        InRange w.PTW priority0 ∧ InRange w.PTW priority1
  | .push _ _ _ => False
  | .pop => True

/-- The slices that the reader uses for a record of this type hold its fields. -/
def FieldsDecode (w : TraceWidths) (r : Record) (iTraceData : ℕ) : Prop :=
  match r with
  | .idle idleCycle => (iIdleCycleCounter w iTraceData : ℤ) = idleCycle
  | .push treeId pktMeta [priority0, priority1] =>
      (iPushTreeId w iTraceData : ℤ) = treeId ∧
        (iPushData w iTraceData : ℤ) = pktMeta * 2 ^ w.PTW + priority0 ∧
        (iPushPriority w iTraceData : ℤ) = priority1
  | .push _ _ _ => False
  | .pop => iIdleCycleCounter w iTraceData = 0

/-- `TRACE_READER` gets the record back from the word: the two type bits, and the fields
that it uses for that type. -/
structure Decodes (w : TraceWidths) (r : Record) (iTraceData : ℕ) : Prop where
  push_iff : iPush w iTraceData = 1 ↔ r.type = 1
  pop_iff : iPop w iTraceData = 1 ↔ r.type = 2
  fields : FieldsDecode w r iTraceData

/-- The line written for the record is a word of the ROM, and the reader gets the record
back from it. -/
def WellFormed (w : TraceWidths) (r : Record) : Prop :=
  ∃ line, encodeLine w r.text = some line ∧ line.length = totalWidth w ∧ IsBits line ∧
    Decodes w r (bitsValue line)

section Format

variable {w : TraceWidths}

theorem totalWidth_eq (w : TraceWidths) : totalWidth w = traceDataBits w := by
  unfold totalWidth traceDataBits
  split_ifs with h <;> omega

theorem TraceWidths.Ok.totalWidth_eq (hw : w.Ok) :
    totalWidth w = w.PTW + w.TREE_NUM_BITS + w.MTW + w.PTW + 2 := by
  have h := hw.idle_lt
  unfold totalWidth
  omega

theorem TraceWidths.Ok.paddingBits_add (hw : w.Ok) :
    paddingBits w + w.IDLECYCLE_BITS + 2 = totalWidth w := by
  have h := hw.idle_lt
  rw [hw.totalWidth_eq]
  unfold paddingBits
  omega

/-- The two type bits are the first two digits. -/
theorem iPop_iPush_bitsValue {a b : Char} {rest : List Char} (ha : IsBits [a]) (hb : IsBits [b])
    (hrest : IsBits rest) (hlen : rest.length + 2 = totalWidth w) :
    iPop w (bitsValue (a :: b :: rest)) = bitsValue [a] ∧
      iPush w (bitsValue (a :: b :: rest)) = bitsValue [b] := by
  rw [totalWidth_eq] at hlen
  have hbrest : IsBits (b :: rest) := isBits_append.2 ⟨hb, hrest⟩
  have hpop := slice_bitsValue [] ha hbrest
    (show traceDataBits w - 1 = (b :: rest).length by rw [List.length_cons]; omega)
    (show traceDataBits w - 1 + 1 = [a].length + (b :: rest).length by
      rw [List.length_singleton, List.length_cons]; omega)
  have hpush := slice_bitsValue [a] hb hrest
    (show traceDataBits w - 2 = rest.length by omega)
    (show traceDataBits w - 2 + 1 = [b].length + rest.length by
      rw [List.length_singleton]; omega)
  exact ⟨hpop, hpush⟩

theorem InRange.isBits {k : ℕ} {v : ℤ} (h : InRange k v) : IsBits (formatBin k v) :=
  (isBits_formatBin_iff k v).2 h.1

theorem InRange.length {k : ℕ} {v : ℤ} (h : InRange k v) (hk : 1 ≤ k) :
    (formatBin k v).length = k := (length_formatBin_iff hk h.1).2 h.2

theorem InRange.zero (k : ℕ) : InRange k 0 := ⟨le_refl 0, by positivity⟩

/-- The word of an idle record that fits. -/
theorem wellFormed_idle (hw : w.Ok) {n : ℤ} (hn : InRange w.IDLECYCLE_BITS n) :
    WellFormed w (.idle n) := by
  have hpad := hw.paddingBits_add
  have hpos : 1 ≤ paddingBits w := by
    have h := hw.idle_lt
    have htotal := hw.totalWidth_eq
    omega
  have hzero := InRange.zero (paddingBits w)
  have hbits : IsBits (formatBin (paddingBits w) 0 ++ formatBin w.IDLECYCLE_BITS n) :=
    isBits_append.2 ⟨hzero.isBits, hn.isBits⟩
  have hlen : (formatBin (paddingBits w) 0 ++ formatBin w.IDLECYCLE_BITS n).length + 2 =
      totalWidth w := by
    rw [List.length_append, hzero.length hpos, hn.length hw.IDLECYCLE_BITS_pos, hpad]
  obtain ⟨hpop, hpush⟩ := iPop_iPush_bitsValue (by decide : IsBits ['0']) (by decide : IsBits ['0'])
    hbits hlen
  have hidle := slice_bitsValue ('0' :: '0' :: formatBin (paddingBits w) 0) hn.isBits
    (by decide : IsBits []) (show 0 = [].length from rfl)
    (show w.IDLECYCLE_BITS - 1 + 1 = (formatBin w.IDLECYCLE_BITS n).length + 0 by
      rw [hn.length hw.IDLECYCLE_BITS_pos]
      have h := hw.IDLECYCLE_BITS_pos
      omega)
  refine ⟨_, encodeLine_idle w hw n, hlen, isBits_append.2 ⟨(by decide : IsBits ['0', '0']), hbits⟩,
    ?_, ?_, ?_⟩
  · rw [hpush]
    exact (by decide : bitsValue ['0'] = 1 ↔ (0 : ℤ) = 1)
  · rw [hpop]
    exact (by decide : bitsValue ['0'] = 1 ↔ (0 : ℤ) = 2)
  · rw [List.append_nil] at hidle
    exact (congrArg Nat.cast hidle).trans (bitsValue_formatBin _ hn.1)

/-- The word of a pop. -/
theorem wellFormed_pop (hw : w.Ok) : WellFormed w .pop := by
  have hpos : 1 ≤ totalWidth w - 2 := by
    have h := hw.PTW_pos
    have htotal := hw.totalWidth_eq
    omega
  have hidle : w.IDLECYCLE_BITS ≤ totalWidth w - 2 := by
    have h := hw.paddingBits_add
    omega
  have hzero := InRange.zero (totalWidth w - 2)
  have hlen : (formatBin (totalWidth w - 2) 0).length + 2 = totalWidth w := by
    rw [hzero.length hpos]
    omega
  obtain ⟨hpop, hpush⟩ := iPop_iPush_bitsValue (by decide : IsBits ['1']) (by decide : IsBits ['0'])
    hzero.isBits hlen
  refine ⟨_, encodeLine_pop w, hlen,
    isBits_append.2 ⟨(by decide : IsBits ['1', '0']), hzero.isBits⟩, ?_, ?_, ?_⟩
  · rw [hpush]
    decide
  · rw [hpop]
    decide
  · -- all digits after the type are zero, and the count is cut out of them
    have hvalue : bitsValue (formatBin (totalWidth w - 2) 0) = 0 :=
      Int.natCast_inj.1 (bitsValue_formatBin _ (le_refl 0))
    have hword : bitsValue ('1' :: '0' :: formatBin (totalWidth w - 2) 0) =
        2 * 2 ^ (totalWidth w - 2) := by
      have h := bitsValue_append ['1', '0'] (formatBin (totalWidth w - 2) 0)
      rw [hvalue, hzero.length hpos] at h
      exact h
    change slice (w.IDLECYCLE_BITS - 1) 0 (bitsValue _) = 0
    have hbits := hw.IDLECYCLE_BITS_pos
    rw [hword, slice, pow_zero, Nat.div_one, Nat.sub_zero, Nat.sub_add_cancel hbits]
    exact Nat.mod_eq_zero_of_dvd ((pow_dvd_pow 2 hidle).mul_left 2)

/-- The word of a push that fits. -/
theorem wellFormed_push (hw : w.Ok) {t m p₀ p₁ : ℤ} (ht : InRange w.TREE_NUM_BITS t)
    (hm : InRange w.MTW m) (hp₀ : InRange w.PTW p₀) (hp₁ : InRange w.PTW p₁) :
    WellFormed w (.push t m [p₀, p₁]) := by
  have hlt := ht.length hw.TREE_NUM_BITS_pos
  have hlm := hm.length hw.MTW_pos
  have hlp₀ := hp₀.length hw.PTW_pos
  have hlp₁ := hp₁.length hw.PTW_pos
  have hpos₁ := hw.PTW_pos
  have hpos₂ := hw.TREE_NUM_BITS_pos
  have hdata : IsBits (formatBin w.MTW m ++ formatBin w.PTW p₀) :=
    isBits_append.2 ⟨hm.isBits, hp₀.isBits⟩
  have htail : IsBits (formatBin w.MTW m ++ (formatBin w.PTW p₀ ++ formatBin w.PTW p₁)) :=
    isBits_append.2 ⟨hm.isBits, isBits_append.2 ⟨hp₀.isBits, hp₁.isBits⟩⟩
  have hbits := isBits_append.2 ⟨ht.isBits, htail⟩
  have hlen : (formatBin w.TREE_NUM_BITS t ++ (formatBin w.MTW m ++
      (formatBin w.PTW p₀ ++ formatBin w.PTW p₁))).length + 2 = totalWidth w := by
    simp only [List.length_append, hlt, hlm, hlp₀, hlp₁, hw.totalWidth_eq]
    omega
  obtain ⟨hpop, hpush⟩ := iPop_iPush_bitsValue (by decide : IsBits ['0']) (by decide : IsBits ['1'])
    hbits hlen
  have htree := slice_bitsValue ['0', '1'] ht.isBits htail
    (show (w.MTW + w.PTW) + w.PTW = _ by simp only [List.length_append, hlm, hlp₀, hlp₁]; omega)
    (show (w.MTW + w.PTW) + w.TREE_NUM_BITS + w.PTW - 1 + 1 = _ by
      simp only [List.length_append, hlt, hlm, hlp₀, hlp₁]; omega)
  have hpushData := slice_bitsValue ('0' :: '1' :: formatBin w.TREE_NUM_BITS t) hdata hp₁.isBits
    (show w.PTW = _ from hlp₁.symm)
    (show (w.MTW + w.PTW) + w.PTW - 1 + 1 = _ by
      simp only [List.length_append, hlm, hlp₀, hlp₁]; omega)
  have hprio := slice_bitsValue ('0' :: '1' :: (formatBin w.TREE_NUM_BITS t ++
      (formatBin w.MTW m ++ formatBin w.PTW p₀))) hp₁.isBits (by decide : IsBits [])
    (show 0 = [].length from rfl)
    (show w.PTW - 1 + 1 = (formatBin w.PTW p₁).length + 0 by rw [hlp₁]; omega)
  simp only [List.cons_append, List.nil_append, List.append_nil, List.append_assoc]
    at htree hpushData hprio
  refine ⟨_, encodeLine_push w hw t m p₀ p₁, hlen,
    isBits_append.2 ⟨(by decide : IsBits ['0', '1']), hbits⟩, ?_, ?_, ?_, ?_, ?_⟩
  · rw [hpush]
    exact (by decide : bitsValue ['1'] = 1 ↔ (1 : ℤ) = 1)
  · rw [hpop]
    exact (by decide : bitsValue ['0'] = 1 ↔ (1 : ℤ) = 2)
  · exact (congrArg Nat.cast htree).trans (bitsValue_formatBin _ ht.1)
  · rw [iPushData, hpushData, bitsValue_append, hlp₀]
    push_cast
    rw [bitsValue_formatBin _ hm.1, bitsValue_formatBin _ hp₀.1]
  · exact (congrArg Nat.cast hprio).trans (bitsValue_formatBin _ hp₁.1)

/-- A record that fits gets a word of the right length that decodes to it. -/
theorem wellFormed_of_fits (hw : w.Ok) {r : Record} (hr : r.Fits w) : WellFormed w r := by
  match r, hr with
  | .idle _, hn => exact wellFormed_idle hw hn
  | .pop, _ => exact wellFormed_pop hw
  | .push _ _ [_, _], ⟨ht, hm, hp₀, hp₁⟩ => exact wellFormed_push hw ht hm hp₀ hp₁

/-- A numeral of digits that is not longer than its width is that of a value in range. -/
theorem inRange_of_length_le {k : ℕ} {v : ℤ} (hk : 1 ≤ k) (hbits : IsBits (formatBin k v))
    (hlen : (formatBin k v).length ≤ k) : InRange k v := by
  have hv : 0 ≤ v := (isBits_formatBin_iff k v).1 hbits
  exact ⟨hv, (length_formatBin_iff hk hv).1 (le_antisymm hlen (le_length_formatBin k v))⟩

/-- A record whose line is a word of the ROM fits: every numeral is at least as long as
its width, so the line has the right length only when none is longer. -/
theorem fits_of_wellFormed (hw : w.Ok) {r : Record} (hr : WellFormed w r) : r.Fits w := by
  obtain ⟨line, henc, hlen, hbits, hdec⟩ := hr
  have hfields := hdec.fields
  clear hdec
  match r, henc, hfields with
  | .pop, _, _ => trivial
  | .idle n, henc, _ =>
    rw [encodeLine_idle w hw] at henc
    obtain rfl := Option.some.inj henc
    have hpad := hw.paddingBits_add
    have hle := le_length_formatBin (paddingBits w) 0
    simp only [List.length_cons, List.length_append] at hlen
    rw [← List.cons_append, ← List.cons_append, isBits_append] at hbits
    exact inRange_of_length_le hw.IDLECYCLE_BITS_pos hbits.2 (by omega)
  | .push t m [p₀, p₁], henc, _ =>
    rw [encodeLine_push w hw] at henc
    obtain rfl := Option.some.inj henc
    have htotal := hw.totalWidth_eq
    have hlt := le_length_formatBin w.TREE_NUM_BITS t
    have hlm := le_length_formatBin w.MTW m
    have hlp₀ := le_length_formatBin w.PTW p₀
    have hlp₁ := le_length_formatBin w.PTW p₁
    simp only [List.length_cons, List.length_append] at hlen
    rw [← List.cons_append, ← List.cons_append, isBits_append] at hbits
    obtain ⟨hbt, hbm, hbp₀, hbp₁⟩ :
        IsBits (formatBin w.TREE_NUM_BITS t) ∧ IsBits (formatBin w.MTW m) ∧
          IsBits (formatBin w.PTW p₀) ∧ IsBits (formatBin w.PTW p₁) := by
      have ht : IsBits (['0', '1'] ++ formatBin w.TREE_NUM_BITS t) := hbits.1
      exact ⟨(isBits_append.1 ht).2, by simpa using hbits.2⟩
    exact ⟨inRange_of_length_le hw.TREE_NUM_BITS_pos hbt (by omega),
      inRange_of_length_le hw.MTW_pos hbm (by omega),
      inRange_of_length_le hw.PTW_pos hbp₀ (by omega),
      inRange_of_length_le hw.PTW_pos hbp₁ (by omega)⟩

/-- **What the format can hold.**  The line of a record is a word of the ROM that decodes
to the record exactly when every field fits its width. -/
theorem wellFormed_iff_fits (hw : w.Ok) (r : Record) : WellFormed w r ↔ r.Fits w :=
  ⟨fits_of_wellFormed hw, wellFormed_of_fits hw⟩

/-- A push that fits has two priorities. -/
theorem exists_priorities_of_fits {t m : ℤ} {ps : List ℤ} (h : (Record.push t m ps).Fits w) :
    ∃ p₀ p₁, ps = [p₀, p₁] ∧ InRange w.PTW p₀ := by
  rcases ps with _ | ⟨p₀, _ | ⟨p₁, _ | ⟨p₂, ps⟩⟩⟩
  · exact h.elim
  · exact h.elim
  · exact ⟨p₀, p₁, rfl, h.2.2.1⟩
  · exact h.elim

/-- The two values in the data of a push are the quotient and the remainder. -/
theorem data_unique {k : ℕ} {m m' p p' : ℤ} (hp : InRange k p) (hp' : InRange k p')
    (hdata : m * 2 ^ k + p = m' * 2 ^ k + p') : m = m' ∧ p = p' := by
  have hpow : (2 : ℤ) ^ k ≠ 0 := by positivity
  have hm : m = m' := by
    have hdiv := congrArg (· / (2 : ℤ) ^ k) hdata
    simpa [Int.add_comm _ p, Int.add_comm _ p', Int.add_mul_ediv_right _ _ hpow,
      Int.ediv_eq_zero_of_lt hp.1 hp.2, Int.ediv_eq_zero_of_lt hp'.1 hp'.2] using hdiv
  rw [hm] at hdata
  exact ⟨hm, Int.add_left_cancel hdata⟩

/-- Two records that fit and are decoded from the same word are the same. -/
theorem Decodes.unique {r r' : Record} {word : ℕ} (h : Decodes w r word)
    (h' : Decodes w r' word) (hr : r.Fits w) (hr' : r'.Fits w) : r = r' := by
  have hpush := h.push_iff.symm.trans h'.push_iff
  have hpop := h.pop_iff.symm.trans h'.pop_iff
  cases r with
  | idle n =>
    cases r' with
    | idle n' =>
      have hn : (iIdleCycleCounter w word : ℤ) = n := h.fields
      have hn' : (iIdleCycleCounter w word : ℤ) = n' := h'.fields
      rw [← hn, hn']
    | push t' m' ps' => simp [Record.type] at hpush
    | pop => simp [Record.type] at hpop
  | pop =>
    cases r' with
    | idle n' => simp [Record.type] at hpop
    | push t' m' ps' => simp [Record.type] at hpush
    | pop => rfl
  | push t m ps =>
    cases r' with
    | idle n' => simp [Record.type] at hpush
    | pop => simp [Record.type] at hpush
    | push t' m' ps' =>
      obtain ⟨p₀, p₁, rfl, hp₀⟩ := exists_priorities_of_fits hr
      obtain ⟨p₀', p₁', rfl, hp₀'⟩ := exists_priorities_of_fits hr'
      obtain ⟨ht, hdata, hp₁⟩ := h.fields
      obtain ⟨ht', hdata', hp₁'⟩ := h'.fields
      obtain ⟨rfl, rfl⟩ := data_unique hp₀ hp₀' (hdata.symm.trans hdata')
      rw [← ht, ← hp₁, ht', hp₁']

/-- **The trace round trip.**  For all widths of the two sides and every record whose
fields fit, the line `trace2mem.py` writes for the printed text has `TOTAL_WIDTH`, that is
`TRACE_DATA_BITS`, binary digits; the slices of `TRACE_READER` give the type, the fields
of a push, the count of an idle record and a zero count for a pop; and a different record
that fits gets a different word. -/
theorem trace_round_trip (w : TraceWidths) (hw : w.Ok) (r : Record) (hr : r.Fits w) :
    totalWidth w = traceDataBits w ∧
      ∃ line, encodeLine w r.text = some line ∧ line.length = totalWidth w ∧ IsBits line ∧
        Decodes w r (bitsValue line) ∧
        ∀ r' : Record, r'.Fits w → r' ≠ r → ∀ line', encodeLine w r'.text = some line' →
          bitsValue line' ≠ bitsValue line := by
  obtain ⟨line, henc, hlen, hbits, hdec⟩ := wellFormed_of_fits hw hr
  refine ⟨totalWidth_eq w, line, henc, hlen, hbits, hdec, ?_⟩
  intro r' hr' hne line' henc' heq
  obtain ⟨line₂, henc₂, -, -, hdec₂⟩ := wellFormed_of_fits hw hr'
  obtain rfl := Option.some.inj (henc'.symm.trans henc₂)
  rw [heq] at hdec₂
  exact hne (hdec₂.unique hdec hr' hr)

/-- The round trip at widths of one, two and three bits. -/
theorem trace_round_trip_small :
    (⟨3, 2, 2, 1⟩ : TraceWidths).Ok ∧ (Record.push 1 3 [5, 6]).Fits ⟨3, 2, 2, 1⟩ ∧
      ∃ line, encodeLine ⟨3, 2, 2, 1⟩ (Record.push 1 3 [5, 6]).text = some line ∧
        line.length = 12 := by
  have hw : (⟨3, 2, 2, 1⟩ : TraceWidths).Ok := by constructor <;> decide
  have hr : (Record.push 1 3 [5, 6]).Fits ⟨3, 2, 2, 1⟩ := by
    refine ⟨?_, ?_, ?_, ?_⟩ <;> decide
  obtain ⟨-, line, henc, hlen, -⟩ := trace_round_trip ⟨3, 2, 2, 1⟩ hw _ hr
  exact ⟨hw, hr, line, henc, hlen⟩

end Format

end VPifo.Trace
