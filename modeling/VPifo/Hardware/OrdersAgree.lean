import VPifo.Lib.RankQueue
import VPifo.Hardware.Ideal
import VPifo.Hardware.Pipeline

/-!
# The answers do not depend on the engine

There are four directories of the engine: two with nodes of two slots that differ in the arbiter,
one with four slots and one with eight.  Which of them runs, with how many levels from three on and
how many trees, how wide its fields are, how large its FIFOs are and in which cycles the tasks come:
all this decides when a pop is answered, and which of several elements of the same rank it gets.  The
ranks of the answers it does not decide.  They are those of the queue of ranks
(`VPifo.Lib.RankQueue`) on the ranks of the tasks of the tree, in the order in which they entered
(`WellUsed.givenOut_isPrefix`), which is the same queue for every engine (`engines_agree`).
-/

namespace VPifo

open RankQueue

section Ranks

variable {o : Order} {W : Widths} {L : ℕ} {ts us : List (Task W)}

/-- What a task asks of a queue of ranks. -/
def Task.op : Task W → Op ℕ
  | .push v => .push (key v)
  | .pop => .pop

/-- **A tree answers the ranks of the queue of ranks.** -/
theorem Fits.ranks (h : Fits o L ts) (hbal : Balanced ts) :
    Holds key (stored L (seqMem L o ts)) (store (ts.map Task.op)) ∧
      (seqOutputs L o ts).map key = answers (ts.map Task.op) := by
  induction ts using List.reverseRecOn with
  | nil =>
    refine ⟨?_, rfl⟩
    rw [seqMem_nil, stored, elems_init]
    exact Holds.nil key
  | append_singleton ts t ih =>
    have hpre : ts <+: ts ++ [t] := List.prefix_append _ _
    have hfits := h.of_isPrefix hpre
    obtain ⟨hholds, hanswers⟩ := ih hfits (hbal.of_isPrefix hpre)
    obtain ⟨hinv, hcard⟩ := hfits.treeInv
    rw [seqMem_append_singleton, List.map_append, List.map_singleton, store_append_singleton]
    cases t with
    | push v =>
      have hle := h.load_le _ (List.prefix_refl _)
      rw [load_push] at hle
      obtain ⟨-, hstored, -⟩ := hinv.push (h.prio v (by simp)) (by omega)
      refine ⟨?_, ?_⟩
      · rw [hstored]
        exact hholds.push v
      · rw [seqOutputs_push, hanswers]
        exact (answers_push _ _).symm
    | pop =>
      obtain ⟨hmem, hmin, herase⟩ := hinv.pop_of_ne_zero (stored_ne_zero hfits hbal)
      obtain ⟨hhead, hnext⟩ := hholds.pop hmem hmin
      refine ⟨?_, ?_⟩
      · rw [herase]
        exact hnext
      · rw [seqOutputs_pop, List.map_append, hanswers, List.map_singleton]
        exact ((answers_pop _).trans (by rw [hhead]; rfl)).symm

end Ranks

namespace PifoSramTop

/-- What tree `t` has been asked before cycle `c`, as far as a queue of ranks goes. -/
def asked {P : Params} (ins : ℕ → ℕ → Entry P.toWidths) (t c : ℕ) : List (Op ℕ) :=
  (entered ins t c).map Task.op

/-- The ranks tree `t` has given out before cycle `c`. -/
def givenOut {P : Params} (pu : PowerUp P) (ins : ℕ → ℕ → Entry P.toWidths) (t c : ℕ) : List ℕ :=
  (popOutputs pu ins t c).map key

/-- A tree that is used within its bounds up to cycle `c`, in a run that is. -/
structure WellUsed {P : Params} (pu : PowerUp P) (ins : ℕ → ℕ → Entry P.toWidths) (t c : ℕ) :
    Prop where
  three_le_LEVEL : 3 ≤ P.LEVEL
  tree : t < P.TREE_NUM
  legal : Legal pu ins c
  fits : Fits P.order P.LEVEL (entered ins t c)
  balanced : Balanced (entered ins t c)

variable {P Q : Params} {pu : PowerUp P} {qu : PowerUp Q} {ins : ℕ → ℕ → Entry P.toWidths}
  {jns : ℕ → ℕ → Entry Q.toWidths} {t u c d : ℕ}

/-- **What a tree gives out is what the queue of ranks answers**, as far as it has come; and it
has come to the end when the engine has drained. -/
theorem WellUsed.givenOut_isPrefix (h : WellUsed pu ins t c) :
    givenOut pu ins t (c + 1) <+: answers (asked ins t c) ∧
      ((run pu ins c).Drained → givenOut pu ins t (c + 1) = answers (asked ins t c)) := by
  have hout := popOutputs_eq h.three_le_LEVEL h.tree h.legal
  have hpre := (started_isPrefix t c).trans (started_prefix_entered h.legal.noOverflow t)
  have hranks := ((h.fits.of_isPrefix hpre).ranks (h.balanced.of_isPrefix hpre)).2
  rw [givenOut, hout, hranks]
  refine ⟨answers_isPrefix (hpre.map Task.op), fun hd => ?_⟩
  rw [started_eq_entered hd h.legal.noOverflow, asked]

/-- **Two engines give out the same ranks.**  Take any two engines of at least three levels, of any
order and arbiter and with any field widths and FIFO sizes, and a tree of each that has been asked
for the same ranks in the same order and is used within its bounds, whatever came in which cycle and
whatever the other trees were asked.  Then one of the trees may be ahead of the other, but they give
out the same sequence of ranks; and when both engines have drained they have given out the same. -/
theorem engines_agree (hP : WellUsed pu ins t c) (hQ : WellUsed qu jns u d)
    (hsame : asked ins t c = asked jns u d) :
    (givenOut pu ins t (c + 1) <+: givenOut qu jns u (d + 1) ∨
      givenOut qu jns u (d + 1) <+: givenOut pu ins t (c + 1)) ∧
    ((run pu ins c).Drained → (run qu jns d).Drained →
      givenOut pu ins t (c + 1) = givenOut qu jns u (d + 1)) := by
  obtain ⟨hpre, hend⟩ := hP.givenOut_isPrefix
  obtain ⟨hpre', hend'⟩ := hQ.givenOut_isPrefix
  rw [← hsame] at hpre' hend'
  exact ⟨List.prefix_or_prefix_of_prefix hpre hpre', fun hd hd' =>
    (hend hd).trans (hend' hd').symm⟩

/-- Four levels and four trees of eight-slot nodes, with wider fields. -/
def fourLevels : Params where
  PTW := 6
  MTW := 3
  CTW := 12
  order := .eight
  arbiter := .vPIFO2
  LEVEL := 4
  TREE_NUM := 4
  FIFO_WIDTH := 2
  two_le_LEVEL := Params.defaults.two_le_LEVEL
  two_le_TREE_NUM := Params.defaults.two_le_TREE_NUM
  one_le_FIFO_WIDTH := one_le_two

/-- What tree 0 is asked in `shortRun`, for tree 2, one word in every other cycle. -/
def slowRun (c i : ℕ) : Entry fourLevels.toWidths :=
  if c = 0 ∧ i = 2 then ⟨true, false, 2, 0, ⟨1, 5⟩⟩
  else if c = 2 ∧ i = 2 then ⟨true, false, 2, 0, ⟨2, 3⟩⟩
  else if c = 4 ∧ i = 2 then ⟨false, true, 0, 2, ⟨0, 0⟩⟩
  else if c = 6 ∧ i = 2 then ⟨false, true, 0, 2, ⟨0, 0⟩⟩
  else Entry.zero

/-- Tasks that are evaluated fit a tree whose counters cannot overflow. -/
theorem fits_of_eval {o : Order} {W : Widths} {n : ℕ} {ts : List (Task W)}
    (hwidth : 1 + capacity o n < 2 ^ W.CTW) (hprio : ∀ v ∈ pushed ts, ¬v.IsEmpty)
    (hload : ∀ pre ∈ ts.inits, load pre ≤ capacity o (n + 1)) : Fits o (n + 1) ts :=
  Fits.of_width hwidth (fun v hv => hprio v (mem_pushed.mpr hv))
    fun pre h => hload pre ((List.mem_inits _ _).mpr h)

theorem wellUsed_shortRun : WellUsed (PowerUp.blank threeLevels) shortRun 0 15 where
  three_le_LEVEL := by decide
  tree := by decide
  legal := ⟨by decide +kernel, by decide +kernel⟩
  fits := fits_of_eval (n := 2) (by decide) (by decide +kernel) (by decide +kernel)
  balanced := by decide +kernel

theorem wellUsed_slowRun : WellUsed (PowerUp.blank fourLevels) slowRun 2 20 where
  three_le_LEVEL := by decide
  tree := by decide
  legal := ⟨by decide +kernel, by decide +kernel⟩
  fits := fits_of_eval (n := 3) (by decide) (by decide +kernel) (by decide +kernel)
  balanced := by decide +kernel

theorem engines_agree_shortRun :
    givenOut (PowerUp.blank threeLevels) shortRun 0 16 = [3, 5] ∧
      givenOut (PowerUp.blank threeLevels) shortRun 0 16 =
        givenOut (PowerUp.blank fourLevels) slowRun 2 21 := by
  refine ⟨by decide +kernel, (engines_agree wellUsed_shortRun wellUsed_slowRun ?_).2 ?_ ?_⟩
  · decide +kernel
  · exact ⟨by decide +kernel, by decide +kernel, by decide +kernel⟩
  · exact ⟨by decide +kernel, by decide +kernel, by decide +kernel⟩

end PifoSramTop

end VPifo
