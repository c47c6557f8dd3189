import VPifo.Hardware.TreeQueue
import Mathlib.Data.List.MinMax

/-!
# The ideal queue

The ideal priority queue keeps a list of values and answers a pop with one of least
priority.  For tasks that fit a tree, and in which no pop finds the queue empty, the
sequential tree answers the same values as long as the priorities are distinct
(`seqOutputs_eq_idealAnswers`); and whatever the priorities are, what has been pushed is
what is stored together with what has been answered (`Fits.pushed_eq`).
-/

namespace VPifo

section Ideal

variable {o : Order} {W : Widths} {L : ℕ}

/-! ## Counting tasks -/

/-- The values pushed by a list of tasks. -/
def pushed (ts : List (Task W)) : List (Val W) :=
  ts.filterMap fun t => match t with | .push v => some v | .pop => none

/-- The number of pops in a list of tasks. -/
def pops (ts : List (Task W)) : ℕ := ts.countP fun t => decide (t = .pop)

@[simp] theorem pushed_nil : pushed ([] : List (Task W)) = [] := rfl

@[simp] theorem pops_nil : pops ([] : List (Task W)) = 0 := rfl

@[simp] theorem pushed_append (ts us : List (Task W)) :
    pushed (ts ++ us) = pushed ts ++ pushed us := List.filterMap_append

@[simp] theorem pops_append (ts us : List (Task W)) : pops (ts ++ us) = pops ts + pops us :=
  List.countP_append

@[simp] theorem pushed_push (v : Val W) : pushed [Task.push v] = [v] := rfl

@[simp] theorem pushed_pop : pushed [(Task.pop : Task W)] = [] := rfl

@[simp] theorem pops_push (v : Val W) : pops [Task.push v] = 0 := by simp [pops]

@[simp] theorem pops_pop : pops [(Task.pop : Task W)] = 1 := by simp [pops]

theorem mem_pushed {ts : List (Task W)} {v : Val W} : v ∈ pushed ts ↔ Task.push v ∈ ts := by
  rw [pushed, List.mem_filterMap]
  constructor
  · rintro ⟨t, ht, hv⟩
    cases t with
    | push u => exact (Option.some.inj hv) ▸ ht
    | pop => exact absurd hv (by simp)
  · exact fun h => ⟨_, h, rfl⟩

/-- What holds of all prefixes can be checked. -/
instance decidableForallPrefix {α : Type} (l : List α) (p : List α → Prop) [DecidablePred p] :
    Decidable (∀ pre, pre <+: l → p pre) :=
  decidable_of_iff (∀ pre ∈ l.inits, p pre)
    (forall_congr' fun pre => imp_congr_left (List.mem_inits pre l))

/-- Pops never outnumber pushes. -/
def Balanced (ts : List (Task W)) : Prop := ∀ pre, pre <+: ts → pops pre ≤ (pushed pre).length

instance (ts : List (Task W)) : Decidable (Balanced ts) :=
  inferInstanceAs (Decidable (∀ pre, pre <+: ts → pops pre ≤ (pushed pre).length))

theorem Balanced.of_isPrefix {ts us : List (Task W)} (h : Balanced us) (hpre : ts <+: us) :
    Balanced ts := fun pre hp => h pre (hp.trans hpre)

theorem balanced_nil : Balanced ([] : List (Task W)) := by
  intro pre hpre
  rw [List.prefix_nil.mp hpre]
  rfl

theorem prefix_append_singleton {ts pre : List (Task W)} {t : Task W} (h : pre <+: ts ++ [t]) :
    pre <+: ts ∨ pre = ts ++ [t] := by
  rw [List.prefix_concat_iff] at h
  exact h.symm

theorem Balanced.push {ts : List (Task W)} (h : Balanced ts) (v : Val W) :
    Balanced (ts ++ [.push v]) := by
  intro pre hpre
  rcases prefix_append_singleton hpre with hp | rfl
  · exact h pre hp
  · have := h ts (List.prefix_refl ts)
    rw [pops_append, pushed_append, List.length_append, pops_push, pushed_push]
    exact Nat.le_succ_of_le this

theorem Balanced.pop {ts : List (Task W)} (h : Balanced ts) (hlt : pops ts < (pushed ts).length) :
    Balanced (ts ++ [.pop]) := by
  intro pre hpre
  rcases prefix_append_singleton hpre with hp | rfl
  · exact h pre hp
  · rw [pops_append, pushed_append, List.length_append, pops_pop, pushed_pop]
    exact hlt

/-- Without a pop of an empty queue, the load is what has been pushed and not popped. -/
theorem Balanced.load_eq {ts : List (Task W)} (h : Balanced ts) :
    load ts + pops ts = (pushed ts).length := by
  induction ts using List.reverseRecOn with
  | nil => rfl
  | append_singleton ts t ih =>
    have ih' := ih (h.of_isPrefix (List.prefix_append _ _))
    cases t with
    | push v =>
      rw [load_push, pops_append, pushed_append, List.length_append, pops_push, pushed_push, ← ih']
      simp only [List.length_cons, List.length_nil]
      omega
    | pop =>
      have hle := h _ (List.prefix_refl _)
      rw [pops_append, pushed_append, List.length_append, pops_pop, pushed_pop] at hle
      rw [load_pop, pops_append, pushed_append, List.length_append, pops_pop, pushed_pop, ← ih']
      simp only [List.length_nil] at hle ⊢
      omega

/-- A pop of a balanced list finds an element. -/
theorem stored_ne_zero {ts : List (Task W)} (hfits : Fits o L ts)
    (hbal : Balanced (ts ++ [.pop])) : stored L (seqMem L o ts) ≠ 0 := by
  intro hzero
  have hload := (hbal.of_isPrefix (List.prefix_append ts _)).load_eq
  have hcard := hfits.treeInv.2
  have hle := hbal _ (List.prefix_refl _)
  rw [hzero, Multiset.card_zero] at hcard
  rw [pops_append, pushed_append, List.length_append, pops_pop, pushed_pop, List.length_nil] at hle
  omega

/-- **Nothing is lost and nothing appears.**  What was pushed is what is stored and what
was answered. -/
theorem Fits.pushed_eq {ts : List (Task W)} (h : Fits o L ts) (hbal : Balanced ts) :
    (pushed ts : Multiset (Val W)) = stored L (seqMem L o ts) + seqOutputs L o ts := by
  induction ts using List.reverseRecOn with
  | nil => rw [seqMem_nil, stored, elems_init]; rfl
  | append_singleton ts t ih =>
    have hpre : ts <+: ts ++ [t] := List.prefix_append _ _
    have hfits := h.of_isPrefix hpre
    have ih' := ih hfits (hbal.of_isPrefix hpre)
    obtain ⟨hinv, hcard⟩ := hfits.treeInv
    rw [seqMem_append_singleton, pushed_append, ← Multiset.coe_add, ih']
    cases t with
    | push v =>
      have hle := h.load_le _ (List.prefix_refl _)
      rw [load_push] at hle
      obtain ⟨-, hstored, -⟩ := hinv.push (h.prio v (by simp)) (by omega)
      rw [hstored, seqOutputs_push, pushed_push, Multiset.coe_singleton, ← Multiset.singleton_add v]
      abel
    | pop =>
      obtain ⟨hmem, -, herase⟩ := hinv.pop_of_ne_zero (stored_ne_zero hfits hbal)
      have hcons := Multiset.cons_erase hmem
      rw [herase, seqOutputs_pop, pushed_pop, ← Multiset.coe_add, Multiset.coe_singleton,
        Multiset.coe_nil, add_zero]
      conv_lhs => rw [← hcons, ← Multiset.singleton_add]
      abel

/-- A pop answers something that was pushed. -/
theorem Fits.popData_mem_pushed {ts : List (Task W)} (h : Fits o L ts)
    (hbal : Balanced (ts ++ [.pop])) : seqPopData L (seqMem L o ts) ∈ pushed ts := by
  have hmem := (h.treeInv.1.pop_of_ne_zero (stored_ne_zero h hbal)).1
  rw [← Multiset.mem_coe, h.pushed_eq (hbal.of_isPrefix (List.prefix_append _ _))]
  exact Multiset.mem_add.mpr (.inl hmem)

/-! ## The ideal queue -/

/-- What the ideal queue holds after a task. -/
def idealStep (q : List (Val W)) : Task W → List (Val W)
  | .push v => v :: q
  | .pop =>
    match q.argmin key with
    | none => q
    | some v => q.erase v

/-- What the ideal queue holds after a list of tasks. -/
def idealStore (ts : List (Task W)) : List (Val W) := ts.foldl idealStep []

/-- What the ideal queue answers to the next pop. -/
def idealPop (q : List (Val W)) : Val W := (q.argmin key).getD Val.ones

/-- The answers of the ideal queue, starting from a given one. -/
def idealAnswersFrom (q : List (Val W)) : List (Task W) → List (Val W)
  | [] => []
  | .push v :: ts => idealAnswersFrom (idealStep q (.push v)) ts
  | .pop :: ts => idealPop q :: idealAnswersFrom (idealStep q .pop) ts

/-- The answers of the ideal queue to a list of tasks. -/
def idealAnswers (ts : List (Task W)) : List (Val W) := idealAnswersFrom [] ts

theorem idealStore_append_singleton (ts : List (Task W)) (t : Task W) :
    idealStore (ts ++ [t]) = idealStep (idealStore ts) t := by
  simp [idealStore]

theorem idealAnswersFrom_append (q : List (Val W)) (ts us : List (Task W)) :
    idealAnswersFrom q (ts ++ us) =
      idealAnswersFrom q ts ++ idealAnswersFrom (ts.foldl idealStep q) us := by
  induction ts generalizing q with
  | nil => rfl
  | cons t ts ih =>
    cases t with
    | push v => exact ih _
    | pop => exact congrArg (List.cons _) (ih _)

theorem idealAnswers_push (ts : List (Task W)) (v : Val W) :
    idealAnswers (ts ++ [.push v]) = idealAnswers ts := by
  rw [idealAnswers, idealAnswersFrom_append]
  exact List.append_nil _

theorem idealAnswers_pop (ts : List (Task W)) :
    idealAnswers (ts ++ [.pop]) = idealAnswers ts ++ [idealPop (idealStore ts)] := by
  rw [idealAnswers, idealAnswersFrom_append]
  rfl

/-- The priorities pushed by a list of tasks are distinct. -/
def DistinctRanks (ts : List (Task W)) : Prop := ((pushed ts).map key).Nodup

theorem DistinctRanks.of_isPrefix {ts us : List (Task W)} (h : DistinctRanks us)
    (hpre : ts <+: us) :
    DistinctRanks ts := by
  obtain ⟨vs, rfl⟩ := hpre
  rw [DistinctRanks, pushed_append, List.map_append] at h
  exact h.of_append_left

/-- With distinct priorities an answer of the tree is the ideal one. -/
theorem idealPop_eq {ts : List (Task W)} {v : Val W} (hdistinct : DistinctRanks ts)
    (hstore : ∀ u ∈ idealStore ts, u ∈ pushed ts) (hmem : v ∈ idealStore ts)
    (hle : ∀ u ∈ idealStore ts, key v ≤ key u) : (idealStore ts).argmin key = some v := by
  cases hmin : (idealStore ts).argmin key with
  | none => rw [List.argmin_eq_none.mp hmin] at hmem; exact absurd hmem (by simp)
  | some u =>
    have hu := List.argmin_mem hmin
    have huv : key u ≤ key v := List.le_of_mem_argmin hmem hmin
    have hkey : key u = key v := le_antisymm huv (hle u hu)
    rw [List.inj_on_of_nodup_map hdistinct (hstore u hu) (hstore v hmem) hkey]

/-- **The tree answers as the ideal queue does**, when the priorities are distinct. -/
theorem seqOutputs_eq_idealAnswers {ts : List (Task W)} (h : Fits o L ts) (hbal : Balanced ts)
    (hdistinct : DistinctRanks ts) :
    stored L (seqMem L o ts) = idealStore ts ∧ seqOutputs L o ts = idealAnswers ts := by
  induction ts using List.reverseRecOn with
  | nil => exact ⟨by rw [seqMem_nil, stored, elems_init]; rfl, rfl⟩
  | append_singleton ts t ih =>
    have hpre : ts <+: ts ++ [t] := List.prefix_append _ _
    have hfits := h.of_isPrefix hpre
    obtain ⟨hst, hans⟩ := ih hfits (hbal.of_isPrefix hpre) (hdistinct.of_isPrefix hpre)
    obtain ⟨hinv, hcard⟩ := hfits.treeInv
    rw [seqMem_append_singleton, idealStore_append_singleton]
    cases t with
    | push v =>
      have hle := h.load_le _ (List.prefix_refl _)
      rw [load_push] at hle
      obtain ⟨-, hstored, -⟩ := hinv.push (h.prio v (by simp)) (by omega)
      exact ⟨by rw [hstored, hst]; rfl, by rw [seqOutputs_push, idealAnswers_push, hans]⟩
    | pop =>
      obtain ⟨hmem, hmin, herase⟩ := hinv.pop_of_ne_zero (stored_ne_zero hfits hbal)
      have hsub : ∀ u ∈ idealStore ts, u ∈ pushed ts := by
        intro u hu
        have := hfits.pushed_eq (hbal.of_isPrefix hpre)
        rw [← Multiset.mem_coe, this, hst]
        exact Multiset.mem_add.mpr (.inl hu)
      rw [hst] at hmem hmin herase
      have harg := idealPop_eq (hdistinct.of_isPrefix hpre) hsub hmem hmin
      refine ⟨?_, ?_⟩
      · rw [herase, idealStep, harg]
        rfl
      · rw [seqOutputs_pop, idealAnswers_pop, hans, idealPop, harg]
        rfl

end Ideal

end VPifo
