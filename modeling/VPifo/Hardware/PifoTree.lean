import VPifo.Hardware.Ideal

/-!
# The ideal PIFO tree

A PIFO tree of two levels is a root that orders tokens and one ideal queue for each
sub-tree.  A push puts a token into the root and a packet into a sub-tree.  A pop takes a
least token out of the root, which chooses a sub-tree, and a least packet out of that.

The second half of a pop is an event of its own here, `release`.  An *atomic* tree
releases each pop at once.  In the hardware the token has to come out of the root first,
so other events come between the two halves of a pop.  Where they do not matter is a
question about this machine alone: `settle` carries out all releases that are due, and a
push commutes with it unless a release of the same sub-tree is due (`settle_push`).
-/

namespace VPifo

/-- The events of a two-level PIFO tree. -/
inductive PifoEvent (W : Widths) where
  | push (t : ℕ) (token packet : Val W)
  | pop
  | release

/-- A two-level PIFO tree of ideal queues. -/
@[ext] structure PifoTree (W : Widths) where
  root : List (Val W)
  sub : ℕ → List (Val W)
  /-- The sub-trees that have been chosen and not yet been popped. -/
  chosen : List ℕ
  /-- The packets that have come out, with their sub-trees. -/
  packets : List (ℕ × Val W)

namespace PifoTree

variable {W : Widths} (treeOf : Val W → ℕ)

/-- The empty tree. -/
def init : PifoTree W := ⟨[], fun _ => [], [], []⟩

/-- One event. -/
def step (s : PifoTree W) : PifoEvent W → PifoTree W
  | .push t token packet =>
    { s with
      root := idealStep s.root (.push token)
      sub := Function.update s.sub t (idealStep (s.sub t) (.push packet)) }
  | .pop =>
    { s with
      root := idealStep s.root .pop
      chosen := s.chosen ++ [treeOf (idealPop s.root)] }
  | .release =>
    match s.chosen with
    | [] => s
    | t :: ts =>
      { s with
        sub := Function.update s.sub t (idealStep (s.sub t) .pop)
        chosen := ts
        packets := s.packets ++ [(t, idealPop (s.sub t))] }

/-- The tree after a list of events. -/
def run (s : PifoTree W) (es : List (PifoEvent W)) : PifoTree W := es.foldl (step treeOf) s

@[simp] theorem run_nil (s : PifoTree W) : run treeOf s [] = s := rfl

@[simp] theorem run_cons (s : PifoTree W) (e : PifoEvent W) (es : List (PifoEvent W)) :
    run treeOf s (e :: es) = run treeOf (step treeOf s e) es := rfl

theorem run_append (s : PifoTree W) (es fs : List (PifoEvent W)) :
    run treeOf s (es ++ fs) = run treeOf (run treeOf s es) fs := List.foldl_append

theorem step_release_nil {s : PifoTree W} (h : s.chosen = []) : step treeOf s .release = s := by
  rw [step, h]

theorem step_release_cons {s : PifoTree W} {t : ℕ} {ts : List ℕ} (h : s.chosen = t :: ts) :
    step treeOf s .release =
      { s with
        sub := Function.update s.sub t (idealStep (s.sub t) .pop)
        chosen := ts
        packets := s.packets ++ [(t, idealPop (s.sub t))] } := by
  rw [step, h]

/-! ## Carrying out what is due -/

/-- All releases that are due. -/
def settle (s : PifoTree W) : PifoTree W := (fun s => step treeOf s .release)^[s.chosen.length] s

theorem settle_of_nil {s : PifoTree W} (h : s.chosen = []) : settle treeOf s = s := by
  rw [settle, h]
  rfl

theorem settle_of_cons {s : PifoTree W} {t : ℕ} {ts : List ℕ} (h : s.chosen = t :: ts) :
    settle treeOf s = settle treeOf (step treeOf s .release) := by
  have hnext : (step treeOf s .release).chosen = ts := by rw [step_release_cons treeOf h]
  rw [settle, settle, hnext, h, List.length_cons, Function.iterate_succ_apply]

theorem settle_release (s : PifoTree W) :
    settle treeOf (step treeOf s .release) = settle treeOf s := by
  cases h : s.chosen with
  | nil => rw [step_release_nil treeOf h]
  | cons t ts => rw [settle_of_cons treeOf h]

theorem packets_prefix_settle (ts : List ℕ) : ∀ {s : PifoTree W}, s.chosen = ts →
    s.packets <+: (settle treeOf s).packets := by
  induction ts with
  | nil =>
    intro s h
    rw [settle_of_nil treeOf h]
  | cons t ts ih =>
    intro s h
    rw [settle_of_cons treeOf h]
    refine List.IsPrefix.trans ?_ (ih (by rw [step_release_cons treeOf h]))
    rw [step_release_cons treeOf h]
    exact List.prefix_append _ _

/-- A push does not meet a release of another sub-tree. -/
theorem release_push_comm {s : PifoTree W} {u : ℕ} {us : List ℕ} (h : s.chosen = u :: us) {t : ℕ}
    (htu : t ≠ u) (a v : Val W) :
    step treeOf (step treeOf s (.push t a v)) .release =
      step treeOf (step treeOf s .release) (.push t a v) := by
  have hpush : (step treeOf s (.push t a v)).chosen = u :: us := h
  have hsub : (step treeOf s (.push t a v)).sub u = s.sub u := Function.update_of_ne htu.symm _ _
  have hsub' : Function.update s.sub u (idealStep (s.sub u) .pop) t = s.sub t :=
    Function.update_of_ne htu _ _
  rw [step_release_cons treeOf h, step_release_cons treeOf hpush, hsub]
  ext1
  · rfl
  · simp only [step, hsub']
    exact Function.update_comm htu _ _ _
  · rfl
  · rfl

/-- **A push may go before the releases that are due**, if none of them is of its
sub-tree. -/
theorem settle_push (ts : List ℕ) : ∀ {s : PifoTree W}, s.chosen = ts → ∀ {t : ℕ}, t ∉ ts →
    ∀ a v, settle treeOf (step treeOf s (.push t a v)) =
      step treeOf (settle treeOf s) (.push t a v) := by
  induction ts with
  | nil =>
    intro s h t _ a v
    have hpush : (step treeOf s (.push t a v)).chosen = [] := h
    rw [settle_of_nil treeOf h, settle_of_nil treeOf hpush]
  | cons u us ih =>
    intro s h t ht a v
    have hpush : (step treeOf s (.push t a v)).chosen = u :: us := h
    rw [List.mem_cons, not_or] at ht
    rw [settle_of_cons treeOf h, settle_of_cons treeOf hpush, release_push_comm treeOf h ht.1]
    exact ih (by rw [step_release_cons treeOf h]) ht.2 a v

/-- A pop of the root comes after the releases that are due. -/
theorem settle_pop (ts : List ℕ) : ∀ {s : PifoTree W}, s.chosen = ts →
    settle treeOf (step treeOf s .pop) =
      step treeOf (step treeOf (settle treeOf s) .pop) .release := by
  induction ts with
  | nil =>
    intro s h
    have hpop : (step treeOf s .pop).chosen = [treeOf (idealPop s.root)] := by
      show s.chosen ++ _ = _
      rw [h]
      rfl
    rw [settle_of_nil treeOf h, settle_of_cons treeOf hpop]
    exact settle_of_nil treeOf (by rw [step_release_cons treeOf hpop])
  | cons u us ih =>
    intro s h
    have hpop : (step treeOf s .pop).chosen = u :: (us ++ [treeOf (idealPop s.root)]) := by
      show s.chosen ++ _ = _
      rw [h]
      rfl
    have hcomm : step treeOf (step treeOf s .pop) .release =
        step treeOf (step treeOf s .release) .pop := by
      rw [step_release_cons treeOf hpop, step_release_cons treeOf h]
      rfl
    rw [settle_of_cons treeOf h, settle_of_cons treeOf hpop, hcomm]
    exact ih (by rw [step_release_cons treeOf h])

end PifoTree

/-! ## Packets in the order of their causes -/

section InOrder

variable {α : Type}

/-- The first element of the queue of each cause; causes with the same queue get its
elements one after the other, as far as they go. -/
def inOrder : List ℕ → (ℕ → List α) → List (ℕ × Option α)
  | [], _ => []
  | t :: ts, q => (t, (q t).head?) :: inOrder ts (Function.update q t (q t).tail)

/-- What has come out for cause `t`. -/
def outOf (t : ℕ) (ps : List (ℕ × α)) : List α := (ps.filter fun p => p.1 == t).map Prod.snd

@[simp] theorem outOf_nil (t : ℕ) : outOf t ([] : List (ℕ × α)) = [] := rfl

theorem outOf_cons_self (p : ℕ × α) (ps : List (ℕ × α)) :
    outOf p.1 (p :: ps) = p.2 :: outOf p.1 ps := by
  simp [outOf]

theorem outOf_cons_of_ne {p : ℕ × α} {t : ℕ} (h : p.1 ≠ t) (ps : List (ℕ × α)) :
    outOf t (p :: ps) = outOf t ps := by
  simp [outOf, h]

theorem outOf_append (t : ℕ) (ps qs : List (ℕ × α)) :
    outOf t (ps ++ qs) = outOf t ps ++ outOf t qs := by
  simp [outOf]

/-- **Queues that agree with `ps` as far as they go give out `ps` as far as they go.** -/
theorem inOrder_of_isPrefix (ps : List (ℕ × α)) : ∀ {q : ℕ → List α},
    (∀ p ∈ ps, q p.1 <+: outOf p.1 ps) →
    List.Forall₂ (fun x p => x.1 = p.1 ∧ ∀ v, x.2 = some v → v = p.2)
      (inOrder (ps.map Prod.fst) q) ps := by
  induction ps with
  | nil => exact fun _ => List.Forall₂.nil
  | cons p ps ih =>
    intro q h
    have hp := h p List.mem_cons_self
    rw [outOf_cons_self] at hp
    have hhead : ∀ v, (q p.1).head? = some v → v = p.2 := by
      intro v hv
      obtain ⟨vs, hq⟩ := List.head?_eq_some_iff.mp hv
      rw [hq, List.cons_prefix_cons] at hp
      exact hp.1
    refine List.Forall₂.cons ⟨rfl, hhead⟩ (ih fun p' hp' => ?_)
    by_cases hne : p'.1 = p.1
    · rw [hne, Function.update_self]
      cases hq : q p.1 with
      | nil => exact List.nil_prefix
      | cons v vs =>
        rw [hq, List.cons_prefix_cons] at hp
        exact hp.2
    · have hmem := h p' (List.mem_cons_of_mem _ hp')
      rw [outOf_cons_of_ne (Ne.symm hne)] at hmem
      rwa [Function.update_of_ne hne]

/-- Queues that are those of `ps` give out `ps`. -/
theorem inOrder_of_eq (ps : List (ℕ × α)) : ∀ {q : ℕ → List α},
    (∀ p ∈ ps, q p.1 = outOf p.1 ps) →
    inOrder (ps.map Prod.fst) q = ps.map fun p => (p.1, some p.2) := by
  induction ps with
  | nil => exact fun _ => rfl
  | cons p ps ih =>
    intro q h
    have hp := h p List.mem_cons_self
    rw [outOf_cons_self] at hp
    rw [List.map_cons, List.map_cons, inOrder, hp, List.head?_cons, List.tail_cons]
    refine congrArg (List.cons _) (ih fun p' hp' => ?_)
    by_cases hne : p'.1 = p.1
    · rw [hne, Function.update_self]
    · have hmem := h p' (List.mem_cons_of_mem _ hp')
      rw [outOf_cons_of_ne (Ne.symm hne)] at hmem
      rwa [Function.update_of_ne hne]

end InOrder

end VPifo
