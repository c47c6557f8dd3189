import VPifo.Compiler.PFMap
import VPifo.Lib.Words
import VPifo.Simulator.TraceLoop

/-!
# `vPIFO_trace.cpp`: reading the trace

The reference simulator reads the printed trace from its standard input, and the packet-flow
map from a file.  Both readers know little of the format.  `read_line` takes strings off the
stream, one for the type and four more for a push, and collects the digits of each, after
the one digit of a name where there is one (`getNumber`); it sees no line ends, and signs are
no digits.  `readPFMap` takes lines apart at the commas and the colons.

Signed arithmetic wraps here, as it does on the machines.  A failing assertion, an exception
of `stoi` and an index outside the vectors of the flows are `none`.

`getNumber_eq` is the specification of the one function on numbers, `readPFMap_eq` that of
the other file.  For `read_line` there is one lemma for each type of line that it reads in
full, and `words_readLine_push` for a push of any number of ranks, which says only how many
words go.  `readsBack_iff` puts them together: the whole trace is read back exactly when
every record of it is `Readable`.  On such a trace the reader of the text fills the queues
that `Simulator.readAll` fills, which is handed the records themselves
(`readAll_of_readsBack`), and so the results about the main loop are results about the text.
-/

namespace VPifo.ReadLine

open Numerals Trace Words
open Sdl (toInt32 PFLine)
open Simulator (Config)

/-! ## `get_number` -/

/-- One round of the loop: `ret`, and the number of digits that are still skipped. -/
def addDigit (st : ℤ × ℕ) (c : Char) : ℤ × ℕ :=
  if c.isDigit then
    if st.2 ≠ 0 then (st.1, st.2 - 1) else (toInt32 (st.1 * 10 + (c.toNat - '0'.toNat : ℤ)), 0)
  else st

/-- `get_number`. -/
def getNumber (s : List Char) (skipNum : ℕ) : ℤ := (s.foldl addDigit (0, skipNum)).1

theorem toInt32_toInt32_mul_add (a d : ℤ) :
    toInt32 (toInt32 a * 10 + d) = toInt32 (a * 10 + d) := by
  unfold toInt32
  rw [← Int.bmod_add_bmod, Int.bmod_mul_bmod, Int.bmod_add_bmod]

/-- When no digit is skipped, the loop continues a number. -/
theorem foldl_addDigit_zero (s : List Char) (n : ℕ) :
    (s.foldl addDigit (toInt32 n, 0)).1 =
      toInt32 (Nat.ofDigitChars 10 (s.filter Char.isDigit) n : ℕ) := by
  induction s generalizing n with
  | nil => rw [List.filter_nil, Nat.ofDigitChars_nil, List.foldl_nil]
  | cons c s ih =>
    cases hc : c.isDigit with
    | false => simpa [addDigit, hc] using ih n
    | true =>
      have hle : '0'.toNat ≤ c.toNat := by
        have h := (Char.isDigit_iff_toNat.mp hc).1
        exact h
      have hvalue : toInt32 (toInt32 n * 10 + (c.toNat - '0'.toNat : ℤ)) =
          toInt32 ((10 * n + (c.toNat - '0'.toNat) : ℕ) : ℤ) := by
        rw [toInt32_toInt32_mul_add]
        congr 1
        omega
      rw [List.foldl_cons, addDigit, if_pos hc, if_neg (by simp), hvalue, ih,
        List.filter_cons_of_pos hc, Nat.ofDigitChars_cons]

/-- **What `get_number` returns.**  The digits of the string, without the first ones, are
read as one number. -/
theorem getNumber_eq (s : List Char) (skipNum : ℕ) :
    getNumber s skipNum =
      toInt32 (Nat.ofDigitChars 10 ((s.filter Char.isDigit).drop skipNum) 0 : ℕ) := by
  unfold getNumber
  induction s generalizing skipNum with
  | nil => simp [toInt32]
  | cons c s ih =>
    cases hc : c.isDigit with
    | false => simpa [addDigit, hc] using ih skipNum
    | true =>
      cases skipNum with
      | zero => exact foldl_addDigit_zero (c :: s) 0
      | succ k => simpa [addDigit, hc] using ih k

/-- The digits of a decimal numeral are those of the absolute value. -/
theorem filter_isDigit_decimal (v : ℤ) :
    (decimal v).filter Char.isDigit = Nat.toDigits 10 v.natAbs := by
  have hdigits : ∀ n : ℕ, (Nat.toDigits 10 n).filter Char.isDigit = Nat.toDigits 10 n := by
    intro n
    exact List.filter_eq_self.2 fun c hc => isDigit_of_mem_toDigits_ten hc
  cases v with
  | ofNat n => exact hdigits n
  | negSucc n => exact hdigits (n + 1)

/-- **The sign is lost.**  From a named value, with the digits of the name skipped,
`get_number` reads the absolute value of what was printed. -/
theorem getNumber_itemText {name : List Char} {k : ℕ} (post : List Char) (v : ℤ)
    (hname : (name.filter Char.isDigit).length = k) (hpost : post.filter Char.isDigit = []) :
    getNumber (itemText (name, v) ++ post) k = toInt32 (v.natAbs : ℤ) := by
  have hcolon : (':' : Char).isDigit = false := by decide
  have hdigits : (itemText (name, v) ++ post).filter Char.isDigit =
      name.filter Char.isDigit ++ Nat.toDigits 10 v.natAbs := by
    rw [itemText, List.filter_append, List.filter_append, hpost, List.append_nil,
      List.filter_cons_of_neg (by simp [hcolon]), filter_isDigit_decimal]
  rw [getNumber_eq, hdigits, List.drop_left' hname, Nat.ofDigitChars_ten_toDigits]

/-- The digits of `v`, collected in an `int`, are `v` again. -/
def Recovered (v : ℤ) : Prop := toInt32 (v.natAbs : ℤ) = v

instance (v : ℤ) : Decidable (Recovered v) := inferInstanceAs (Decidable (_ = _))

theorem Recovered.eq {v : ℤ} (hv : Recovered v) : toInt32 (v.natAbs : ℤ) = v := hv

/-- A value comes back exactly when it is an `int` that is not negative, or the least `int`,
whose absolute value wraps. -/
theorem recovered_iff (v : ℤ) : Recovered v ↔ (0 ≤ v ∧ v < 2 ^ 31) ∨ v = -2 ^ 31 := by
  unfold Recovered toInt32
  rw [Int.bmod_def]
  constructor
  · intro h
    split_ifs at h <;> omega
  · intro h
    split_ifs <;> omega

/-! ## `readPFMap` -/

/-- The digits of `std::stoi`, after the sign; `none` where it throws. -/
def stoiDigits (sign : ℤ) (s : List Char) : Option ℤ :=
  let digits := s.takeWhile Char.isDigit
  let value := sign * (Nat.ofDigitChars 10 digits 0 : ℕ)
  if digits = [] ∨ value < -2 ^ 31 ∨ 2 ^ 31 ≤ value then none else some value

/-- `std::stoi`. -/
def stoi (s : List Char) : Option ℤ :=
  match skip isSpace s with
  | '-' :: t => stoiDigits (-1) t
  | '+' :: t => stoiDigits 1 t
  | t => stoiDigits 1 t

/-- The value of a part, zero if the part has no colon. -/
def partValue (part : List Char) : Option ℤ :=
  match part.dropWhile (· != ':') with
  | [] => some 0
  | _ :: valueStr => stoi valueStr

/-- The two parts that are read of a line; at the end of the line `part` keeps its value. -/
def pfParts (line : List Char) : List Char × List Char :=
  match line.dropWhile (· != ',') with
  | [] => (line, line)
  | _ :: rest => (line.takeWhile (· != ','), rest.takeWhile (· != ','))

/-- The body of the loop: `meta` and `flowId`. -/
def readPFLine (line : List Char) : Option (ℤ × ℤ) :=
  (partValue (pfParts line).1).bind fun pktMeta =>
    (partValue (pfParts line).2).map fun flowId => (pktMeta, flowId)

/-- The lines that `std::getline` gets out of a file. -/
def getLines : List Char → List (List Char)
  | [] => []
  | c :: s =>
    if c = '\n' then [] :: getLines s
    else
      match getLines s with
      | [] => [[c]]
      | l :: ls => (c :: l) :: ls

/-- `readPFMap`. -/
def readPFMap (file : List Char) : Option (ℤ → Option ℤ) :=
  (getLines file).foldlM
    (fun pfmap line => (readPFLine line).map fun r => Function.update pfmap r.1 (some r.2))
    fun _ => none

/-- The value fits an `int`. -/
def IsInt (v : ℤ) : Prop := -2 ^ 31 ≤ v ∧ v < 2 ^ 31

instance (v : ℤ) : Decidable (IsInt v) := inferInstanceAs (Decidable (_ ∧ _))

theorem stoiDigits_toDigits (sign : ℤ) (n : ℕ) :
    stoiDigits sign (Nat.toDigits 10 n) = if IsInt (sign * n) then some (sign * n) else none := by
  have hdigits : (Nat.toDigits 10 n).takeWhile Char.isDigit = Nat.toDigits 10 n :=
    List.takeWhile_eq_self_iff.2 fun c hc => isDigit_of_mem_toDigits_ten hc
  have hrange : (sign * (n : ℤ) < -2 ^ 31 ∨ 2 ^ 31 ≤ sign * (n : ℤ)) ↔ ¬IsInt (sign * n) := by
    unfold IsInt
    omega
  simp only [stoiDigits, hdigits, Nat.ofDigitChars_ten_toDigits, Nat.toDigits_ne_nil, false_or,
    hrange, ite_not]

/-- What is printed as a decimal numeral is read back if it is an `int`. -/
theorem stoi_decimal (v : ℤ) : stoi (decimal v) = if IsInt v then some v else none := by
  have hskip : skip isSpace (decimal v) = decimal v := by
    have h := IsWord.skip_append
      ⟨decimal_ne_nil v, fun c hc => not_isSpace_of_mem_decimal hc⟩ ([] : List Char)
    rwa [List.append_nil] at h
  rw [stoi, hskip]
  cases v with
  | negSucc n =>
    have hneg : -1 * ((n + 1 : ℕ) : ℤ) = Int.negSucc n := by omega
    have hread := stoiDigits_toDigits (-1) (n + 1)
    rw [hneg] at hread
    exact hread
  | ofNat n =>
    have hread := stoiDigits_toDigits 1 n
    rw [one_mul] at hread
    change (match Nat.toDigits 10 n with
      | '-' :: t => stoiDigits (-1) t
      | '+' :: t => stoiDigits 1 t
      | t => stoiDigits 1 t) = _
    split
    · rename_i t ht
      exact absurd (isDigit_of_mem_toDigits_ten (n := n) (c := '-') (by simp [ht])) (by decide)
    · rename_i t ht
      exact absurd (isDigit_of_mem_toDigits_ten (n := n) (c := '+') (by simp [ht])) (by decide)
    · exact hread

/-- The part up to a separator, and what stands behind it. -/
theorem takeWhile_dropWhile_sep {sep : Char} {s : List Char} (hs : sep ∉ s) (t : List Char) :
    (s ++ sep :: t).takeWhile (· != sep) = s ∧
      (s ++ sep :: t).dropWhile (· != sep) = sep :: t := by
  have hall : ∀ c ∈ s, (c != sep) = true := by
    intro c hc
    rw [bne_iff_ne]
    rintro rfl
    exact hs hc
  rw [List.takeWhile_append_of_pos hall, List.dropWhile_append_of_pos hall]
  simp

/-- A line of the map without its end. -/
def lineText (l : PFLine) : List Char :=
  chars "meta:" ++ decimal l.pktMeta ++ chars ", flow:" ++ decimal l.flow

theorem readPFLine_lineText (l : PFLine) :
    readPFLine (lineText l) =
      if IsInt l.pktMeta ∧ IsInt l.flow then some (l.pktMeta, l.flow) else none := by
  have hcolon : ∀ v : ℤ, ':' ∉ decimal v := fun v => not_mem_decimal (by decide) (by decide)
  have hcomma : ∀ v : ℤ, ',' ∉ decimal v := fun v => not_mem_decimal (by decide) (by decide)
  have hmeta : chars "meta:" = chars "meta" ++ [':'] := by simp [chars]
  have hflow : chars ", flow:" = ',' :: (chars " flow" ++ [':']) := by simp [chars]
  have hnames : ':' ∉ chars "meta" ∧ ',' ∉ chars "meta" ∧ ':' ∉ chars " flow" ∧
      ',' ∉ chars " flow" := by
    unfold chars
    decide
  have hvalue : ∀ (name : List Char) (v : ℤ), ':' ∉ name →
      partValue (name ++ ':' :: decimal v) = if IsInt v then some v else none := by
    intro name v hname
    rw [partValue, (takeWhile_dropWhile_sep hname _).2]
    exact stoi_decimal v
  have hparts : pfParts (lineText l) =
      (chars "meta" ++ ':' :: decimal l.pktMeta, chars " flow" ++ ':' :: decimal l.flow) := by
    have htext : lineText l = (chars "meta" ++ ':' :: decimal l.pktMeta) ++
        ',' :: (chars " flow" ++ ':' :: decimal l.flow) := by
      simp [lineText, hmeta, hflow]
    have hfirst : ',' ∉ chars "meta" ++ ':' :: decimal l.pktMeta := by
      simp [hnames.2.1, hcomma]
    obtain ⟨htake, hdrop⟩ :=
      takeWhile_dropWhile_sep hfirst (chars " flow" ++ ':' :: decimal l.flow)
    have hrest : (chars " flow" ++ ':' :: decimal l.flow).takeWhile (· != ',') =
        chars " flow" ++ ':' :: decimal l.flow := by
      rw [List.takeWhile_eq_self_iff]
      intro c hc
      rw [bne_iff_ne]
      rintro rfl
      simp [hnames.2.2.2, hcomma] at hc
    rw [pfParts, htext, hdrop, htake]
    exact congrArg (Prod.mk _) hrest
  rw [readPFLine, hparts, hvalue _ _ hnames.1, hvalue _ _ hnames.2.2.1]
  by_cases hm : IsInt l.pktMeta <;> by_cases hf : IsInt l.flow <;> simp [hm, hf]

/-- A line is read up to its end. -/
theorem getLines_append {l : List Char} (hl : '\n' ∉ l) (s : List Char) :
    getLines (l ++ '\n' :: s) = l :: getLines s := by
  induction l with
  | nil => simp [getLines]
  | cons c l ih =>
    have hc : c ≠ '\n' := by
      rintro rfl
      exact hl List.mem_cons_self
    rw [List.cons_append, getLines, if_neg hc, ih fun h => hl (List.mem_cons_of_mem c h)]

theorem getLines_text (ls : List PFLine) :
    getLines (ls.flatMap PFLine.text) = ls.map lineText := by
  induction ls with
  | nil => rfl
  | cons l ls ih =>
    have hend : '\n' ∉ lineText l := by
      have hdec : ∀ v : ℤ, '\n' ∉ decimal v := fun v => not_mem_decimal (by decide) (by decide)
      have hnames : '\n' ∉ chars "meta:" ∧ '\n' ∉ chars ", flow:" := by
        unfold chars
        decide
      simp [lineText, hdec, hnames]
    have htext : l.text = lineText l ++ ['\n'] := by simp [PFLine.text, lineText]
    rw [List.flatMap_cons, htext, List.append_assoc, List.singleton_append,
      getLines_append hend, ih, List.map_cons]

/-- The map with the lines of a file entered one after the other. -/
def enter (pfmap : ℤ → Option ℤ) (ls : List PFLine) : ℤ → Option ℤ :=
  ls.foldl (fun pfmap l => Function.update pfmap l.pktMeta (some l.flow)) pfmap

/-- **What `readPFMap` returns** for a printed map: it enters every line, unless a number is
none that `stoi` reads. -/
theorem readPFMap_eq (ls : List PFLine) :
    readPFMap (ls.flatMap PFLine.text) =
      if ∀ l ∈ ls, IsInt l.pktMeta ∧ IsInt l.flow then some (enter (fun _ => none) ls)
      else none := by
  rw [readPFMap, getLines_text]
  generalize (fun _ => none : ℤ → Option ℤ) = pfmap
  induction ls generalizing pfmap with
  | nil => simp [enter]
  | cons l ls ih =>
    rw [List.map_cons, List.foldlM_cons, readPFLine_lineText]
    by_cases hl : IsInt l.pktMeta ∧ IsInt l.flow
    · rw [if_pos hl]
      exact (ih _).trans (by simp [hl, enter])
    · rw [if_neg hl, if_neg fun hall => hl (hall l List.mem_cons_self)]
      rfl

/-- A line entered before others with other metas stays. -/
theorem enter_of_not_mem {pfmap : ℤ → Option ℤ} {ls : List PFLine} {m : ℤ}
    (hm : ∀ l ∈ ls, l.pktMeta ≠ m) : enter pfmap ls m = pfmap m := by
  induction ls generalizing pfmap with
  | nil => rfl
  | cons l ls ih =>
    have hl : m ≠ l.pktMeta := (hm l List.mem_cons_self).symm
    exact (ih fun l' hl' => hm l' (List.mem_cons_of_mem l hl')).trans
      (Function.update_of_ne hl _ _)

/-! ## The words of a printed record -/

/-- Named values as words: a comma follows each but the last. -/
def wordsFrom : List Char × ℤ → List (List Char × ℤ) → List (List Char)
  | f, [] => [itemText f]
  | f, g :: fs => (itemText f ++ [',']) :: wordsFrom g fs

/-- The words of the line of a record. -/
def recordWords (r : Record) : List (List Char) := wordsFrom (chars "type", r.type) r.body

theorem isWord_itemText {name : List Char} (hf : NameOk name) (v : ℤ) :
    IsWord isSpace (itemText (name, v)) := by
  refine ⟨by simp [itemText], ?_⟩
  intro c hc
  rcases List.mem_append.1 hc with hc | hc
  · exact hf.not_isSpace c hc
  · rcases List.mem_cons.1 hc with rfl | hc
    · rfl
    · exact not_isSpace_of_mem_decimal hc

theorem isWord_itemText_comma {name : List Char} (hf : NameOk name) (v : ℤ) :
    IsWord isSpace (itemText (name, v) ++ [',']) := by
  obtain ⟨hne, hblank⟩ := isWord_itemText hf v
  refine ⟨by simp [hne], ?_⟩
  intro c hc
  rcases List.mem_append.1 hc with hc | hc
  · exact hblank c hc
  · obtain rfl := List.mem_singleton.1 hc
    rfl

theorem isWord_of_mem_wordsFrom {f : List Char × ℤ} {fs : List (List Char × ℤ)}
    (hf : NameOk f.1) (hfs : ∀ g ∈ fs, NameOk g.1) :
    ∀ w ∈ wordsFrom f fs, IsWord isSpace w := by
  induction fs generalizing f with
  | nil =>
    intro w hw
    obtain rfl := List.mem_singleton.1 hw
    exact isWord_itemText hf f.2
  | cons g fs ih =>
    intro w hw
    rcases List.mem_cons.1 hw with rfl | hw
    · exact isWord_itemText_comma hf f.2
    · exact ih (hfs g List.mem_cons_self) (fun g' hg' => hfs g' (List.mem_cons_of_mem g hg')) w hw

theorem isWord_of_mem_recordWords (r : Record) : ∀ w ∈ recordWords r, IsWord isSpace w :=
  isWord_of_mem_wordsFrom nameOk_type r.nameOk_body

/-- The printed text of a record is a line of its words. -/
theorem text_eq_line (r : Record) : r.text = line ' ' '\n' (recordWords r) := by
  have hline : ∀ (f : List Char × ℤ) (fs : List (List Char × ℤ)),
      line ' ' '\n' (wordsFrom f fs) =
        itemText f ++ (fs.map fun g => ',' :: ' ' :: itemText g).flatten ++ ['\n'] := by
    intro f fs
    induction fs generalizing f with
    | nil => simp [wordsFrom, line]
    | cons g fs ih =>
      have hcons : ∀ (w : List Char) l,
          line ' ' '\n' (w :: wordsFrom g l) = w ++ ' ' :: line ' ' '\n' (wordsFrom g l) := by
        intro w l
        cases l <;> rfl
      rw [wordsFrom, hcons, ih]
      simp
  rw [r.text_eq, intercalate_itemsFrom, recordWords, hline, List.nil_append]

theorem words_text_append (r : Record) (rest : List Char) :
    words isSpace (r.text ++ rest) = recordWords r ++ words isSpace rest := by
  rw [text_eq_line]
  exact words_line rfl rfl (isWord_of_mem_recordWords r) rest

theorem length_recordWords (r : Record) : (recordWords r).length = r.body.length + 1 := by
  have hlen : ∀ (f : List Char × ℤ) (fs : List (List Char × ℤ)),
      (wordsFrom f fs).length = fs.length + 1 := by
    intro f fs
    induction fs generalizing f with
    | nil => rfl
    | cons g fs ih => rw [wordsFrom, List.length_cons, ih, List.length_cons]
  exact hlen _ _

/-! ## `read_line` -/

/-- `struct A_Push`. -/
structure APush where
  treeid : ℤ
  pktMeta : ℤ
  p0 : ℤ
  p1 : ℤ

/-- What `cin` has not read yet, and the global variables that `read_line` uses. -/
structure Globals where
  input : List Char
  skippingFlag : ℤ
  cycle : ℤ
  type : ℤ
  treeid : ℤ
  pktMeta : ℤ
  p0 : ℤ
  p1 : ℤ
  typeS : List Char
  idleS : List Char
  treeidS : List Char
  metaS : List Char
  p0S : List Char
  p1S : List Char
  perFlowPushQueue : ℤ → List APush
  perFlowPopQueue : ℤ → ℤ

/-- Before the first call. -/
def Globals.start (input : List Char) : Globals :=
  ⟨input, 0, 1, 0, 0, 0, 0, 0, [], [], [], [], [], [], fun _ => [], fun _ => 0⟩

section ReadLine

variable (c : Config) (pfMap : ℤ → Option ℤ)

/-- `PFMap[meta]`, after the assertion that there is one, as an index of the vectors. -/
def flowOf (pktMeta : ℤ) : Option ℤ :=
  match pfMap pktMeta with
  | none => none
  | some f => if 0 ≤ f ∧ f < c.FLOW_NUM then some f else none

/-- `cin >> treeid_s >> meta_s >> p0_s >> p1_s`, and the four numbers. -/
def Globals.readPush (g : Globals) : Globals :=
  let treeid := next isSpace g.treeidS g.input
  let pktMeta := next isSpace g.metaS treeid.2
  let p0 := next isSpace g.p0S pktMeta.2
  let p1 := next isSpace g.p1S p0.2
  { g with
    input := p1.2
    treeidS := treeid.1
    metaS := pktMeta.1
    p0S := p0.1
    p1S := p1.1
    treeid := getNumber treeid.1 0
    pktMeta := getNumber pktMeta.1 0
    p0 := getNumber p0.1 1
    p1 := getNumber p1.1 1 }

/-- `cin >> idle_s`, and `skipping_flag`. -/
def Globals.readIdle (g : Globals) : Globals :=
  let idle := next isSpace g.idleS g.input
  { g with
    input := idle.2
    idleS := idle.1
    skippingFlag := g.cycle + getNumber idle.1 0 }

/-- `perFlowPopQueue[f]++`. -/
def Globals.popFlow (g : Globals) (f : ℤ) : Globals :=
  { g with perFlowPopQueue := Function.update g.perFlowPopQueue f (g.perFlowPopQueue f + 1) }

/-- `perFlowPushQueue[f].push(A_Push(treeid, meta, p0, p1))`. -/
def Globals.pushFlow (g : Globals) (f : ℤ) : Globals :=
  { g with
    perFlowPushQueue := Function.update g.perFlowPushQueue f
      (g.perFlowPushQueue f ++ [⟨g.treeid, g.pktMeta, g.p0, g.p1⟩]) }

/-- What is done for a type. -/
def Globals.dispatch (g : Globals) : Option Globals :=
  if g.type = 2 then (flowOf c pfMap g.pktMeta).map g.popFlow
  else if g.type = 1 then (flowOf c pfMap g.readPush.pktMeta).map g.readPush.pushFlow
  else if g.type = 0 then some g.readIdle
  else some g

/-- `read_line`, with what it returns. -/
def Globals.readLine (g : Globals) : Option (Globals × Bool) :=
  match extract isSpace g.input with
  | none => some ({ g with input := [] }, false)
  | some (typeS, input) =>
    (Globals.dispatch c pfMap
      { g with typeS := typeS, input := input, type := getNumber typeS 0 }).map fun g => (g, true)

variable {c pfMap} {g : Globals}

theorem next_blank_word (b b' : Char) {w : List Char} (hw : IsWord isSpace w)
    (hb : isSpace b = true) (hb' : isSpace b' = true) (old t : List Char) :
    next isSpace old (b :: (w ++ b' :: t)) = (w, b' :: t) := by
  rw [next, extract_blank_word hw hb hb']
  rfl

/-- A call on a text that starts with a word takes it for the type. -/
theorem readLine_of_skip {w t : List Char} {b : Char} (hw : IsWord isSpace w)
    (hb : isSpace b = true) (hin : skip isSpace g.input = w ++ b :: t) :
    g.readLine c pfMap =
      (Globals.dispatch c pfMap
        { g with typeS := w, input := b :: t, type := getNumber w 0 }).map fun g => (g, true) := by
  have hextract : extract isSpace g.input = some (w, b :: t) := by
    rw [← extract_skip, hin]
    exact extract_append hw (by simpa using hb)
  rw [Globals.readLine, hextract]

/-- What is read for the type. -/
theorem getNumber_type (r : Record) (post : List Char) (hpost : post.filter Char.isDigit = []) :
    getNumber (itemText (chars "type", r.type) ++ post) 0 = r.type := by
  have hname : ((chars "type").filter Char.isDigit).length = 0 := by
    unfold chars
    decide
  rw [getNumber_itemText _ _ hname hpost]
  cases r with
  | idle n => exact (by decide : toInt32 0 = 0)
  | push t m ps => exact (by decide : toInt32 1 = 1)
  | pop => exact (by decide : toInt32 2 = 2)

theorem dispatch_of_idle (htype : g.type = 0) : g.dispatch c pfMap = some g.readIdle := by
  simp [Globals.dispatch, htype]

theorem dispatch_of_push (htype : g.type = 1) :
    g.dispatch c pfMap = (flowOf c pfMap g.readPush.pktMeta).map g.readPush.pushFlow := by
  simp [Globals.dispatch, htype]

theorem dispatch_of_pop (htype : g.type = 2) :
    g.dispatch c pfMap = (flowOf c pfMap g.pktMeta).map g.popFlow := by
  simp [Globals.dispatch, htype]

/-- The call on a text that starts with a printed record: it reads the type, and goes on
behind it. -/
theorem readLine_of_text (r : Record) {f : List Char × ℤ} {fs : List (List Char × ℤ)}
    (hbody : r.body = f :: fs) {rest : List Char}
    (hin : skip isSpace g.input = r.text ++ rest) :
    g.readLine c pfMap =
      (Globals.dispatch c pfMap
        { g with
          typeS := itemText (chars "type", r.type) ++ [',']
          input := ' ' :: (line ' ' '\n' (wordsFrom f fs) ++ rest)
          type := r.type }).map fun g => (g, true) := by
  have hline : line ' ' '\n' (recordWords r) =
      (itemText (chars "type", r.type) ++ [',']) ++ ' ' :: line ' ' '\n' (wordsFrom f fs) := by
    rw [recordWords, hbody, wordsFrom]
    cases fs <;> rfl
  have hword := isWord_itemText_comma nameOk_type r.type
  rw [text_eq_line, hline, List.append_assoc, List.cons_append] at hin
  rw [readLine_of_skip hword rfl hin, getNumber_type r _ rfl]

/-- The queues of the flows are the same. -/
def SameQueues (g g' : Globals) : Prop :=
  g'.perFlowPushQueue = g.perFlowPushQueue ∧ g'.perFlowPopQueue = g.perFlowPopQueue

variable (c pfMap) in
/-- A call on an idle line. -/
theorem readLine_idle {n : ℤ} {rest : List Char}
    (hin : skip isSpace g.input = (Record.idle n).text ++ rest) :
    ∃ g', g.readLine c pfMap = some (g', true) ∧ g'.input = '\n' :: rest ∧ g'.type = 0 ∧
      g'.skippingFlag = g'.cycle + toInt32 n.natAbs ∧ g'.pktMeta = g.pktMeta ∧
      SameQueues g g' := by
  have hname : ((chars "idle_cycle").filter Char.isDigit).length = 0 := by
    unfold chars
    decide
  have hvalue : getNumber (itemText (chars "idle_cycle", n)) 0 = toInt32 n.natAbs := by
    simpa using getNumber_itemText [] n hname rfl
  have hword : IsWord isSpace (itemText (chars "idle_cycle", n)) :=
    isWord_itemText (Record.nameOk_body (.idle n) _ List.mem_cons_self) n
  have hnext := next_blank_word ' ' '\n' hword rfl rfl g.idleS rest
  rw [readLine_of_text (.idle n) rfl hin, dispatch_of_idle rfl, Option.map_some]
  refine ⟨_, rfl, ?_, rfl, ?_, rfl, rfl, rfl⟩
  · simp [Globals.readIdle, wordsFrom, line, hnext]
  · simp [Globals.readIdle, wordsFrom, line, hnext, hvalue]

variable (c pfMap) in
/-- A call on a pop line: the pop belongs to the flow of the last meta. -/
theorem readLine_pop {rest : List Char}
    (hin : skip isSpace g.input = Record.pop.text ++ rest) :
    ∃ g', (g'.input = '\n' :: rest ∧ g'.type = 2 ∧ g'.pktMeta = g.pktMeta ∧ SameQueues g g') ∧
      g.readLine c pfMap = (flowOf c pfMap g.pktMeta).map fun f => (g'.popFlow f, true) := by
  have hword := isWord_itemText nameOk_type 2
  have htype : getNumber (itemText (chars "type", 2)) 0 = 2 := by
    have h := getNumber_type .pop [] rfl
    rwa [List.append_nil] at h
  have hline : line ' ' '\n' (recordWords .pop) ++ rest =
      itemText (chars "type", 2) ++ '\n' :: rest := by
    simp [recordWords, Record.type, Record.body, wordsFrom, line]
  rw [text_eq_line, hline] at hin
  rw [readLine_of_skip hword rfl hin, dispatch_of_pop htype, Option.map_map]
  refine ⟨_, ?_, rfl⟩
  exact ⟨rfl, htype, rfl, rfl, rfl⟩

/-- The four values of a push line with two ranks. -/
theorem readPush_of_input {t m p₀ p₁ : ℤ} {rest : List Char}
    (hin : g.input = ' ' :: (line ' ' '\n'
      (wordsFrom (chars "tree_id", t) ((chars "meta", m) :: priorityFields 0 [p₀, p₁])) ++ rest)) :
    g.readPush.input = '\n' :: rest ∧ g.readPush.treeid = toInt32 t.natAbs ∧
      g.readPush.pktMeta = toInt32 m.natAbs ∧ g.readPush.p0 = toInt32 p₀.natAbs ∧
      g.readPush.p1 = toInt32 p₁.natAbs ∧ g.readPush.type = g.type := by
  have hok := Record.nameOk_body (.push t m [p₀, p₁])
  simp only [Record.body, priorityFields, List.forall_mem_cons] at hok
  obtain ⟨htree, hmeta, hp₀, hp₁, -⟩ := hok
  have hdigits : ((chars "tree_id").filter Char.isDigit).length = 0 ∧
      ((chars "meta").filter Char.isDigit).length = 0 ∧
      ((chars "priority" ++ Nat.toDigits 10 0).filter Char.isDigit).length = 1 ∧
      ((chars "priority" ++ Nat.toDigits 10 1).filter Char.isDigit).length = 1 := by
    unfold chars
    decide
  have htext : g.input = ' ' :: ((itemText (chars "tree_id", t) ++ [',']) ++
      ' ' :: ((itemText (chars "meta", m) ++ [',']) ++
      ' ' :: ((itemText (chars "priority" ++ Nat.toDigits 10 0, p₀) ++ [',']) ++
      ' ' :: (itemText (chars "priority" ++ Nat.toDigits 10 1, p₁) ++ '\n' :: rest)))) := by
    simp [hin, wordsFrom, priorityFields, line]
  have h₁ := next_blank_word ' ' ' ' (isWord_itemText_comma htree t) rfl rfl
  have h₂ := next_blank_word ' ' ' ' (isWord_itemText_comma hmeta m) rfl rfl
  have h₃ := next_blank_word ' ' ' ' (isWord_itemText_comma hp₀ p₀) rfl rfl
  have h₄ := next_blank_word ' ' '\n' (isWord_itemText hp₁ p₁) rfl rfl
  have hv₁ := getNumber_itemText [','] t hdigits.1 rfl
  have hv₂ := getNumber_itemText [','] m hdigits.2.1 rfl
  have hv₃ := getNumber_itemText [','] p₀ hdigits.2.2.1 rfl
  have hv₄ := getNumber_itemText [] p₁ hdigits.2.2.2 rfl
  rw [List.append_nil] at hv₄
  simp only [Globals.readPush, htext, h₁, h₂, h₃, h₄, hv₁, hv₂, hv₃, hv₄, and_self]

variable (c pfMap) in
/-- A call on a push line with two ranks. -/
theorem readLine_push {t m p₀ p₁ : ℤ} {rest : List Char}
    (hin : skip isSpace g.input = (Record.push t m [p₀, p₁]).text ++ rest) :
    ∃ g', (g'.input = '\n' :: rest ∧ g'.type = 1 ∧ g'.treeid = toInt32 t.natAbs ∧
        g'.pktMeta = toInt32 m.natAbs ∧ g'.p0 = toInt32 p₀.natAbs ∧
        g'.p1 = toInt32 p₁.natAbs ∧ SameQueues g g') ∧
      g.readLine c pfMap =
        (flowOf c pfMap (toInt32 m.natAbs)).map fun f => (g'.pushFlow f, true) := by
  rw [readLine_of_text _ rfl hin, dispatch_of_push rfl, Option.map_map]
  obtain ⟨hinput, htree, hmeta, hp₀, hp₁, htype⟩ := readPush_of_input (g :=
    { g with
      typeS := itemText (chars "type", (Record.push t m [p₀, p₁]).type) ++ [',']
      input := ' ' :: (line ' ' '\n' (wordsFrom (chars "tree_id", t)
        ((chars "meta", m) :: priorityFields 0 [p₀, p₁])) ++ rest)
      type := (Record.push t m [p₀, p₁]).type }) rfl
  rw [hmeta]
  refine ⟨_, ?_, rfl⟩
  exact ⟨hinput, htype, htree, hmeta, hp₀, hp₁, rfl, rfl⟩

/-- The four strings of a push. -/
theorem words_readPush (g : Globals) :
    words isSpace g.readPush.input = (words isSpace g.input).drop 4 := by
  simp only [Globals.readPush, words_next, ← List.drop_one, List.drop_drop]

theorem length_priorityFields (i : ℕ) (ps : List ℤ) :
    (priorityFields i ps).length = ps.length := by
  induction ps generalizing i with
  | nil => rfl
  | cons p ps ih => rw [priorityFields, List.length_cons, ih, List.length_cons]

/-- **A push line takes five words**, whatever the number of ranks. -/
theorem words_readLine_push {t m : ℤ} {ps : List ℤ} {rest : List Char} {g' : Globals} {b : Bool}
    (hin : skip isSpace g.input = (Record.push t m ps).text ++ rest)
    (hcall : g.readLine c pfMap = some (g', b)) :
    words isSpace g'.input =
      (recordWords (.push t m ps) ++ words isSpace rest).drop 5 := by
  rw [readLine_of_text _ rfl hin, dispatch_of_push rfl, Option.map_map] at hcall
  obtain ⟨f, -, hf⟩ := Option.map_eq_some_iff.1 hcall
  obtain ⟨rfl, rfl⟩ := Prod.mk.inj hf
  have hok := Record.nameOk_body (.push t m ps)
  have hwords := words_line (b := ' ') (e := '\n') rfl rfl
    (isWord_of_mem_wordsFrom (hok _ List.mem_cons_self)
      fun f hf => hok f (List.mem_cons_of_mem _ hf)) rest
  refine (words_readPush _).trans ?_
  rw [words_cons_blank rfl, hwords]
  rfl

/-! ## Reading a trace back -/

/-- The values that are printed for a record are those read: the type, the fields of a push
with the rank of the leaf and the rank at the root, the idle count. -/
def HasRead (g : Globals) : Record → Prop
  | .idle n => g.type = 0 ∧ g.skippingFlag = g.cycle + n
  | .push t m priorityVec =>
      g.type = 1 ∧ g.treeid = t ∧ g.pktMeta = m ∧ priorityVec.head? = some g.p0 ∧
        priorityVec.getLast? = some g.p1
  | .pop => g.type = 2

variable (c pfMap) in
/-- Call after call reads the next record: each returns 1, leaves the text of the records
after it, up to blanks, and has read the values printed.  After the last record the next call
returns 0. -/
def ReadsBack (g : Globals) : List Record → Prop
  | [] => ∃ g', g.readLine c pfMap = some (g', false)
  | r :: rs => ∃ g', g.readLine c pfMap = some (g', true) ∧
      skip isSpace g'.input = rs.flatMap Record.text ∧ HasRead g' r ∧ ReadsBack g' rs

variable (c pfMap) in
/-- What a record needs to be read back, when `lastMeta` is the meta read last: two ranks,
values that come back, and a flow for the meta. -/
def RecordOk (lastMeta : ℤ) : Record → Prop
  | .idle n => Recovered n
  | .push t m priorityVec =>
      priorityVec.length = 2 ∧ Recovered t ∧ Recovered m ∧ (∀ p ∈ priorityVec, Recovered p) ∧
        ∃ f, flowOf c pfMap m = some f
  | .pop => ∃ f, flowOf c pfMap lastMeta = some f

/-- The meta that is the last one read after a record. -/
def lastMetaAfter (lastMeta : ℤ) : Record → ℤ
  | .push _ m _ => m
  | _ => lastMeta

variable (c pfMap) in
/-- Every record of a trace can be read back. -/
def Readable : ℤ → List Record → Prop
  | _, [] => True
  | lastMeta, r :: rs => RecordOk c pfMap lastMeta r ∧ Readable (lastMetaAfter lastMeta r) rs

/-- The text of records starts with no blank. -/
theorem skip_text (rs : List Record) :
    skip isSpace (rs.flatMap Record.text) = rs.flatMap Record.text := by
  cases rs with
  | nil => rfl
  | cons r rs =>
    obtain ⟨w, u, htext, hword⟩ : ∃ w u, r.text = w ++ u ∧ IsWord isSpace w := by
      rw [text_eq_line, recordWords]
      cases r.body with
      | nil => exact ⟨_, _, rfl, isWord_itemText nameOk_type r.type⟩
      | cons f fs =>
        refine ⟨_, ' ' :: line ' ' '\n' (wordsFrom f fs), ?_,
          isWord_itemText_comma nameOk_type r.type⟩
        cases fs <;> rfl
    rw [List.flatMap_cons, htext, List.append_assoc]
    exact hword.skip_append _

theorem words_text_ne_nil (r : Record) (rest : List Char) :
    words isSpace (r.text ++ rest) ≠ [] := by
  intro h
  have hlen := congrArg List.length h
  rw [words_text_append, List.length_append, length_recordWords, List.length_nil] at hlen
  omega

variable (c pfMap) in
/-- **One record.**  A call on the text of a record reads it back exactly when the record
allows it.  A push may not be the last record. -/
theorem readsRecord_iff {r : Record} {rest : List Char} (hrest : skip isSpace rest = rest)
    (hlast : words isSpace rest ≠ [] ∨ ∀ t m ps, r ≠ .push t m ps)
    (hin : skip isSpace g.input = r.text ++ rest) :
    (∃ g', g.readLine c pfMap = some (g', true) ∧ skip isSpace g'.input = rest ∧
      HasRead g' r) ↔ RecordOk c pfMap g.pktMeta r := by
  have hblank : skip isSpace ('\n' :: rest) = rest := by
    rw [skip, List.dropWhile_cons_of_pos rfl]
    exact hrest
  cases r with
  | idle n =>
    obtain ⟨g', hcall, hinput, htype, hflag, -, -⟩ := readLine_idle c pfMap hin
    constructor
    · rintro ⟨g₁, hg₁, -, -, hflag₁⟩
      obtain ⟨rfl, -⟩ := Prod.mk.inj (Option.some.inj (hcall.symm.trans hg₁))
      exact Int.add_left_cancel (hflag.symm.trans hflag₁)
    · intro hn
      exact ⟨g', hcall, by rw [hinput, hblank], htype, by rw [hflag, Recovered.eq hn]⟩
  | pop =>
    obtain ⟨g', ⟨hinput, htype, -, -⟩, hcall⟩ := readLine_pop c pfMap hin
    constructor
    · rintro ⟨g₁, hg₁, -⟩
      obtain ⟨f, hf, -⟩ := Option.map_eq_some_iff.1 (hcall.symm.trans hg₁)
      exact ⟨f, hf⟩
    · rintro ⟨f, hf⟩
      refine ⟨g'.popFlow f, by rw [hcall, hf, Option.map_some], ?_, htype⟩
      exact (congrArg (skip isSpace) hinput).trans hblank
  | push t m ps =>
    constructor
    · rintro ⟨g₁, hg₁, hskip, -, htree₁, hmeta₁, hhead₁, hlast₁⟩
      -- five words go, and the line has three and one for each rank
      have hlen : ps.length = 2 := by
        have hwords := congrArg List.length (words_readLine_push hin hg₁)
        rw [← words_skip, hskip, List.length_drop, List.length_append, length_recordWords,
          Record.body, List.length_cons, List.length_cons, length_priorityFields] at hwords
        have hpos := List.length_pos_iff.2 (hlast.resolve_right fun h => h t m ps rfl)
        omega
      obtain ⟨p₀, p₁, rfl⟩ := List.length_eq_two.1 hlen
      obtain ⟨g', ⟨-, -, htree, hmeta, hp₀, hp₁, -⟩, hcall⟩ := readLine_push c pfMap hin
      obtain ⟨f, hf, heq⟩ := Option.map_eq_some_iff.1 (hcall.symm.trans hg₁)
      obtain ⟨rfl, -⟩ := Prod.mk.inj heq
      have hm : Recovered m := hmeta.symm.trans hmeta₁
      have hrank₀ : Recovered p₀ := hp₀.symm.trans (Option.some.inj hhead₁).symm
      have hrank₁ : Recovered p₁ := hp₁.symm.trans (Option.some.inj hlast₁).symm
      refine ⟨rfl, htree.symm.trans htree₁, hm, ?_, f, ?_⟩
      · simpa using ⟨hrank₀, hrank₁⟩
      · rw [hm.eq] at hf
        exact hf
    · rintro ⟨hlen, ht, hm, hps, f, hf⟩
      obtain ⟨p₀, p₁, rfl⟩ := List.length_eq_two.1 hlen
      obtain ⟨g', ⟨hinput, htype, htree, hmeta, hp₀, hp₁, -⟩, hcall⟩ := readLine_push c pfMap hin
      have hread₀ : p₀ = g'.p0 := (hp₀.trans (hps p₀ List.mem_cons_self)).symm
      have hread₁ : p₁ = g'.p1 :=
        (hp₁.trans (hps p₁ (List.mem_cons_of_mem _ List.mem_cons_self))).symm
      refine ⟨g'.pushFlow f, ?_, ?_, htype, htree.trans ht, hmeta.trans hm,
        congrArg some hread₀, congrArg some hread₁⟩
      · rw [hcall, hm.eq, hf, Option.map_some]
      · exact (congrArg (skip isSpace) hinput).trans hblank

/-- The meta read last, after a call. -/
theorem pktMeta_of_readLine {r : Record} {rest : List Char} {g' : Globals} {b : Bool}
    (hin : skip isSpace g.input = r.text ++ rest)
    (hcall : g.readLine c pfMap = some (g', b)) (hread : HasRead g' r) :
    g'.pktMeta = lastMetaAfter g.pktMeta r := by
  cases r with
  | idle n =>
    obtain ⟨g₁, hcall₁, -, -, -, hmeta, -⟩ := readLine_idle c pfMap hin
    obtain ⟨rfl, -⟩ := Prod.mk.inj (Option.some.inj (hcall₁.symm.trans hcall))
    exact hmeta
  | push t m ps => exact hread.2.2.1
  | pop =>
    obtain ⟨g₁, ⟨-, -, hmeta, -⟩, hcall₁⟩ := readLine_pop c pfMap hin
    obtain ⟨f, -, hf⟩ := Option.map_eq_some_iff.1 (hcall₁.symm.trans hcall)
    obtain ⟨rfl, -⟩ := Prod.mk.inj hf
    exact hmeta

/-- One record more. -/
theorem readsBack_cons_iff {r : Record} {rs : List Record}
    (hlast : rs ≠ [] ∨ ∀ t m ps, r ≠ .push t m ps)
    (hrest : ∀ g' : Globals, skip isSpace g'.input = rs.flatMap Record.text →
      (ReadsBack c pfMap g' rs ↔ Readable c pfMap g'.pktMeta rs))
    (hin : skip isSpace g.input = (r :: rs).flatMap Record.text) :
    ReadsBack c pfMap g (r :: rs) ↔ Readable c pfMap g.pktMeta (r :: rs) := by
  rw [List.flatMap_cons] at hin
  have hwords : words isSpace (rs.flatMap Record.text) ≠ [] ∨ ∀ t m ps, r ≠ .push t m ps := by
    refine hlast.imp_left fun hne => ?_
    obtain ⟨r', rs', rfl⟩ := List.exists_cons_of_ne_nil hne
    exact words_text_ne_nil r' _
  have hone := readsRecord_iff c pfMap (skip_text rs) hwords hin
  constructor
  · rintro ⟨g', hcall, hskip, hread, hback⟩
    refine ⟨hone.1 ⟨g', hcall, hskip, hread⟩, ?_⟩
    rw [← pktMeta_of_readLine hin hcall hread]
    exact (hrest g' hskip).1 hback
  · rintro ⟨hok, hreadable⟩
    obtain ⟨g', hcall, hskip, hread⟩ := hone.2 hok
    rw [← pktMeta_of_readLine hin hcall hread] at hreadable
    exact ⟨g', hcall, hskip, hread, (hrest g' hskip).2 hreadable⟩

/-- **The whole trace.**  A trace that ends with an idle record is read back exactly when
every record of it can be. -/
theorem readsBack_iff (out : List Record) (n : ℤ)
    (hin : skip isSpace g.input = (out ++ [Record.idle n]).flatMap Record.text) :
    ReadsBack c pfMap g (out ++ [.idle n]) ↔ Readable c pfMap g.pktMeta (out ++ [.idle n]) := by
  induction out generalizing g with
  | nil =>
    refine readsBack_cons_iff (.inr (by simp)) ?_ hin
    -- at the end of the text the call returns 0
    intro g' hg'
    refine ⟨fun _ => trivial, fun _ => ⟨{ g' with input := [] }, ?_⟩⟩
    rw [Globals.readLine, ← extract_skip, hg']
    rfl
  | cons r out ih => exact readsBack_cons_iff (.inl (by simp)) (fun g' hg' => ih hg') hin

/-! ## The queues

The main loop is modelled with a reader that is handed the records themselves.  On a trace
that is read back, this reader and the one on the text fill the same queues. -/

/-- The record that a printed one is for the reader of records. -/
def toSimulator : Record → Simulator.Record
  | .idle n => .idle n.toNat
  | .push t m priorityVec => .push t.toNat m (priorityVec.headD 0) (priorityVec.getLastD 0)
  | .pop => .pop

/-- The last meta and the queues, as the reader of records has them. -/
structure SameInput (g : Globals) (s : Simulator.Input) : Prop where
  pktMeta : s.pktMeta = g.pktMeta
  pushes : ∀ f : ℕ, s.perFlowPushQueue f =
    (g.perFlowPushQueue f).map fun a => ⟨a.treeid.toNat, a.pktMeta, a.p0, a.p1⟩
  pops : ∀ f : ℕ, (s.perFlowPopQueue f : ℤ) = g.perFlowPopQueue f

/-- The map of the flows, as the reader of records has it. -/
def flowsOf (pfMap : ℤ → Option ℤ) : Simulator.PFMap := fun m => (pfMap m).map Int.toNat

variable (c pfMap) in
/-- `while(read_line());`, for at most `fuel` calls. -/
def readAll : ℕ → Globals → Option Globals
  | 0, _ => none
  | fuel + 1, g =>
    match g.readLine c pfMap with
    | none => none
    | some (g', true) => readAll fuel g'
    | some (g', false) => some g'

theorem pfMap_of_flowOf {m f : ℤ} (hf : flowOf c pfMap m = some f) :
    pfMap m = some f ∧ 0 ≤ f := by
  unfold flowOf at hf
  split at hf
  · exact absurd hf (by simp)
  · rename_i f' hf'
    split_ifs at hf with hrange
    obtain rfl := Option.some.inj hf
    exact ⟨hf', hrange.1⟩

theorem SameInput.of_sameQueues {g' : Globals} {s : Simulator.Input} (hs : SameInput g s)
    (hsame : SameQueues g g') (hmeta : g'.pktMeta = g.pktMeta) : SameInput g' s := by
  refine ⟨hs.pktMeta.trans hmeta.symm, ?_, ?_⟩
  · rw [hsame.1]
    exact hs.pushes
  · rw [hsame.2]
    exact hs.pops

/-- One record in the two readers. -/
theorem sameInput_of_readLine {r : Record} {rest : List Char} {g' : Globals}
    {s : Simulator.Input} (hin : skip isSpace g.input = r.text ++ rest)
    (hcall : g.readLine c pfMap = some (g', true)) (hread : HasRead g' r) (hs : SameInput g s) :
    ∃ s', Simulator.readLine (flowsOf pfMap) s (toSimulator r) = some s' ∧ SameInput g' s' := by
  have hindex : ∀ {f : ℤ} (k : ℕ), 0 ≤ f → ((k : ℤ) = f ↔ k = f.toNat) := by
    intro f k hf
    omega
  cases r with
  | idle n =>
    obtain ⟨g₁, hcall₁, -, -, -, hmeta, hsame⟩ := readLine_idle c pfMap hin
    obtain ⟨rfl, -⟩ := Prod.mk.inj (Option.some.inj (hcall₁.symm.trans hcall))
    exact ⟨s, rfl, hs.of_sameQueues hsame hmeta⟩
  | pop =>
    obtain ⟨g₁, ⟨-, -, hmeta, hsame⟩, hcall₁⟩ := readLine_pop c pfMap hin
    obtain ⟨f, hf, heq⟩ := Option.map_eq_some_iff.1 (hcall₁.symm.trans hcall)
    obtain ⟨rfl, -⟩ := Prod.mk.inj heq
    obtain ⟨hmap, hpos⟩ := pfMap_of_flowOf hf
    have hs₁ := hs.of_sameQueues hsame hmeta
    refine ⟨_, by rw [toSimulator, Simulator.readLine, hs.pktMeta, flowsOf, hmap]; rfl, ?_⟩
    refine ⟨hmeta.symm, hs₁.pushes, ?_⟩
    intro k
    simp only [Globals.popFlow, Function.update_apply, hindex k hpos]
    split_ifs with hk
    · rw [Nat.cast_add, Nat.cast_one, hs₁.pops, (hindex k hpos).2 hk]
    · exact hs₁.pops k
  | push t m ps =>
    rw [readLine_of_text _ rfl hin, dispatch_of_push rfl, Option.map_map] at hcall
    obtain ⟨f, hf, heq⟩ := Option.map_eq_some_iff.1 hcall
    obtain ⟨hg', -⟩ := Prod.mk.inj heq
    obtain ⟨-, htree, hmeta, hhead, hlast⟩ := hread
    obtain ⟨hqueue, hpops, hflow⟩ : g'.perFlowPushQueue = Function.update g.perFlowPushQueue f
          (g.perFlowPushQueue f ++ [⟨g'.treeid, g'.pktMeta, g'.p0, g'.p1⟩]) ∧
        g'.perFlowPopQueue = g.perFlowPopQueue ∧ flowOf c pfMap g'.pktMeta = some f := by
      subst hg'
      exact ⟨rfl, rfl, hf⟩
    obtain ⟨hmap, hpos⟩ := pfMap_of_flowOf hflow
    rw [hmeta] at hmap
    refine ⟨_, by rw [toSimulator, Simulator.readLine, flowsOf, hmap]; rfl, hmeta.symm, ?_, ?_⟩
    · intro k
      simp only [hqueue, Function.update_apply, hindex k hpos]
      split_ifs with hk
      · rw [← (hindex k hpos).2 hk, List.map_append, ← hs.pushes, htree, hmeta,
          List.headD_eq_head?_getD, hhead, List.getLastD_eq_getLast?, hlast]
        rfl
      · exact hs.pushes k
    · rw [hpops]
      exact hs.pops

/-- **The reader of the text fills the queues of the reader of the records.** -/
theorem readAll_of_readsBack {trace : List Record} {s : Simulator.Input}
    (hin : skip isSpace g.input = trace.flatMap Record.text)
    (hback : ReadsBack c pfMap g trace) (hs : SameInput g s) :
    ∃ g' s', readAll c pfMap (trace.length + 1) g = some g' ∧
      (trace.map toSimulator).foldlM (Simulator.readLine (flowsOf pfMap)) s = some s' ∧
      SameInput g' s' := by
  induction trace generalizing g s with
  | nil =>
    have hend : g.readLine c pfMap = some ({ g with input := [] }, false) := by
      rw [Globals.readLine, ← extract_skip, hin]
      rfl
    exact ⟨{ g with input := [] }, s, by rw [List.length_nil, readAll, hend], rfl,
      ⟨hs.pktMeta, hs.pushes, hs.pops⟩⟩
  | cons r rs ih =>
    obtain ⟨g₁, hcall, hskip, hread, hback₁⟩ := hback
    rw [List.flatMap_cons] at hin
    obtain ⟨s₁, hs₁, hsame⟩ := sameInput_of_readLine hin hcall hread hs
    obtain ⟨g', s', hall, hfold, hsame'⟩ := ih hskip hback₁ hsame
    refine ⟨g', s', ?_, ?_, hsame'⟩
    · rw [List.length_cons, readAll, hcall]
      exact hall
    · rw [List.map_cons, List.foldlM_cons, hs₁]
      exact hfold

end ReadLine

end VPifo.ReadLine
