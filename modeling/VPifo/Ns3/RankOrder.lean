import VPifo.Ns3.Prefetch

/-!
# Ranks and the order of service

A rank is a `long long` where the queue disc computes it, an `int` in an `Operation`, and a
negated `int` in the tree.  The tree serves its elements in the order of these last numbers,
so what the pipeline does with two ranks depends on whether the two conversions keep them
apart and in order.

A pipeline does not remember the rank it was given.  `Traced` is a pipeline beside its
history: the calls of `AddPush` whose operation still waits in a list, those whose element is
in a tree, and what every pop has taken.  The history never changes what the pipeline does
(`run_pipe`), and `Matches` says that it tells the truth: list by list the operations are
those of the calls that wait, and tree by tree the elements are those of the calls that are
held.  Every round of the code keeps it.
-/

namespace VPifo

namespace Ns3

open Cyclic Reference Simulator

/-! ## The history of a pipeline -/

/-- The operation that a call of `AddPush` leaves in its list. -/
def PushCall.operation (p : PushCall) : Simulator.Task := ⟨.push, p.user, N, toInt p.rank, p.token⟩

/-- The element that a call of `AddPush` puts into its tree. -/
def PushCall.element (p : PushCall) : Pair := entryOf p.operation

/-- The number a tree compares for a rank: the rank is converted to `int` for the operation,
and its opposite is an `int` again. -/
def treeKey (rank : ℤ) : ℤ := toInt (-toInt rank)

/-- A pop that has been executed: the calls whose elements were in its tree, and the call
whose element it took. -/
structure Popped where
  user : ℕ
  held : List PushCall
  taken : Option PushCall

/-- No element of a smaller rank was left behind. -/
def Popped.InOrder (p : Popped) : Prop := ∀ y ∈ p.taken, ∀ x ∈ p.held, ¬x.rank < y.rank

/-- A pipeline and its history. -/
structure Traced where
  pipe : Pipeline
  /-- For each user, the calls of `AddPush` whose operation is in a list, in their order. -/
  waiting : ℕ → List PushCall
  /-- For each user, the calls of `AddPush` whose element is in the tree. -/
  held : ℕ → List PushCall
  log : List Popped

namespace Traced

/-- The constructor. -/
def init : Traced := ⟨Pipeline.init, fun _ => [], fun _ => [], []⟩

variable (g : Traced)

/-- `AddPush`. -/
def addPush (p : PushCall) : Traced :=
  { g with
    pipe := g.pipe.addPush p.user p.rank p.token
    waiting := fun u => if u = p.user then g.waiting u ++ [p] else g.waiting u }

/-- The call whose element a pop of this tree takes. -/
def taken (u : ℕ) : Option PushCall :=
  (g.held u).find? fun p => decide (some p.element = (g.pipe.tree u).max?)

/-- A pop of this tree is executed, which leaves the pipeline as `s`. -/
def pop (u : ℕ) (s : Pipeline) : Traced :=
  { g with
    pipe := s
    held := fun v => if v = u then
      (g.held u).eraseP fun p => decide (some p.element = (g.pipe.tree u).max?) else g.held v
    log := g.log ++ [⟨u, g.held u, g.taken u⟩] }

/-- The statistics of `WakeUp` for RPU `i`. -/
def execAt (i : ℕ) : Option Traced :=
  (g.pipe.execAt i).map fun s =>
    if (g.pipe.rpu i).Ready N then g.pop (g.pipe.rpu i).root s else { g with pipe := s }

/-- The first call that waits for user `u` is executed. -/
def sendFirst (u : ℕ) : Traced :=
  match g.waiting u with
  | [] => g
  | p :: rest => { g with
      waiting := fun v => if v = u then rest else g.waiting v
      held := fun v => if v = u then p :: g.held v else g.held v }

/-- An operation is sent. -/
def sendOp (x : ℕ × Simulator.Task) : Traced :=
  if x.2.type = .push then g.sendFirst x.2.root else g

/-- *Pass down* and *send new operation*. -/
def advance (locked : ℕ → Bool) : Traced :=
  (ringStep N locked g.pipe.lists g.pipe.rpu).sent.foldl sendOp
    { g with pipe := g.pipe.advance locked }

/-- `WakeUp`. -/
def wakeUp (locked : ℕ → Bool) : Option Traced :=
  ((List.range N).foldlM execAt { g with pipe := g.pipe.startPop }).map fun g => g.advance locked

/-- One call. -/
def step : Call → Option Traced
  | .addPush p => some (g.addPush p)
  | .getToken => g.pipe.getToken.map fun r => { g with pipe := r.2 }
  | .wakeUp locked => g.wakeUp locked

/-- The pipeline and its history after the calls `cs`. -/
def run (cs : List Call) : Option Traced := cs.foldlM step init

end Traced

/-- The ranks that the calls give to `AddPush` are in `R`. -/
def RanksIn (R : Set ℤ) (cs : List Call) : Prop := ∀ p, Call.addPush p ∈ cs → p.rank ∈ R

/-- Every pop of a run takes an element of the smallest rank in its tree. -/
def ServesInOrder (cs : List Call) : Prop := ∀ g, Traced.run cs = some g → ∀ p ∈ g.log, p.InOrder

/-! ## The history does not matter to the pipeline -/

section Pipe

variable {g : Traced}

@[simp] theorem Traced.sendFirst_pipe (u : ℕ) : (g.sendFirst u).pipe = g.pipe := by
  rw [sendFirst]
  split <;> rfl

@[simp] theorem Traced.sendOp_pipe (x : ℕ × Simulator.Task) : (g.sendOp x).pipe = g.pipe := by
  rw [sendOp]
  split
  · exact sendFirst_pipe _
  · rfl

theorem Traced.foldl_sendOp_pipe (sent : List (ℕ × Simulator.Task)) :
    ∀ g : Traced, (sent.foldl sendOp g).pipe = g.pipe := by
  induction sent with
  | nil => exact fun g => rfl
  | cons x sent ih =>
    intro g
    rw [List.foldl_cons, ih, sendOp_pipe]

theorem Traced.execAt_pipe (i : ℕ) : (g.execAt i).map pipe = g.pipe.execAt i := by
  rw [execAt, Option.map_map]
  have hpipe : (pipe ∘ fun s => if (g.pipe.rpu i).Ready N then g.pop (g.pipe.rpu i).root s
      else { g with pipe := s }) = id := by
    funext s
    rw [Function.comp_apply]
    split <;> rfl
  rw [hpipe, Option.map_id]
  rfl

theorem Traced.step_pipe (g : Traced) (c : Call) : (g.step c).map pipe = g.pipe.step c := by
  cases c with
  | addPush p => rfl
  | getToken => rw [step, Pipeline.step, Option.map_map]; rfl
  | wakeUp locked =>
    have hexec := Runs.map_foldlM (fun g i => execAt_pipe (g := g) i) (List.range N)
      { g with pipe := g.pipe.startPop }
    have hadvance : (pipe ∘ fun g' => g'.advance locked) =
        (fun s : Pipeline => s.advance locked) ∘ pipe := by
      funext g'
      exact foldl_sendOp_pipe _ _
    rw [step, Pipeline.step, wakeUp, Pipeline.wakeUp, ← hexec, Option.map_map, Option.map_map,
      hadvance]

/-- **A run with its history is a run.** -/
theorem Traced.run_pipe (cs : List Call) : (Traced.run cs).map pipe = Pipeline.run cs :=
  Runs.map_foldlM step_pipe cs init

end Pipe

/-! ## The history tells the truth -/

/-- The pushes of user `u` in a list. -/
def pushesOf (u : ℕ) (l : List Simulator.Task) : List Simulator.Task :=
  l.filter fun t => decide (t.type = .push ∧ t.root = u)

/-- The calls that wait are the pushes in the lists, and the calls that are held are the elements
in the trees. -/
structure Matches (map : ℕ → Option ℕ) (lists : ℕ → List Simulator.Task) (tree : ℕ → List Pair)
    (waiting held : ℕ → List PushCall) : Prop where
  homed : ∀ i, ∀ t ∈ lists i, map t.root = some i
  waiting : ∀ u, (waiting u).map PushCall.operation = pushesOf u (lists ((map u).getD 0))
  held : ∀ u, ((held u).map PushCall.element).Perm (tree u)

/-- What the history of a pipeline has to be. -/
def Traced.Truthful (g : Traced) : Prop :=
  Matches g.pipe.listMap g.pipe.lists g.pipe.tree g.waiting g.held

section Matches

variable {map : ℕ → Option ℕ} {lists : ℕ → List Simulator.Task} {tree : ℕ → List Pair}
  {waiting held : ℕ → List PushCall} {t : Simulator.Task} {u i : ℕ}

theorem pushesOf_cons (u : ℕ) (t : Simulator.Task) (l : List Simulator.Task) :
    pushesOf u (t :: l) =
      if t.type = .push ∧ t.root = u then t :: pushesOf u l else pushesOf u l := by
  rw [pushesOf, List.filter_cons]
  simp only [decide_eq_true_eq]
  rfl

theorem pushesOf_append (u : ℕ) (l : List Simulator.Task) (t : Simulator.Task) :
    pushesOf u (l ++ [t]) =
      if t.type = .push ∧ t.root = u then pushesOf u l ++ [t] else pushesOf u l := by
  rw [pushesOf, List.filter_append]
  by_cases h : t.type = .push ∧ t.root = u
  · rw [if_pos h, List.filter_cons_of_pos (by simpa using h)]
    rfl
  · rw [if_neg h, List.filter_cons_of_neg (by simpa using h)]
    exact List.append_nil _

/-- Nobody has pushed for a user without a list. -/
theorem Matches.pushesOf_eq_nil (h : Matches map lists tree waiting held) (hu : map u = none)
    (i : ℕ) : pushesOf u (lists i) = [] := by
  refine List.filter_eq_nil_iff.mpr fun t ht => ?_
  simp only [decide_eq_true_eq, not_and]
  rintro - rfl
  rw [h.homed i t ht] at hu
  exact absurd hu (by simp)

/-- A user gets a list. -/
theorem Matches.assign (h : Matches map lists tree waiting held) (hu : map u = none) (i : ℕ) :
    Matches (fun v => if v = u then some i else map v) lists tree waiting held := by
  refine ⟨fun k t ht => ?_, fun v => ?_, h.held⟩
  · have hne : t.root ≠ u := by
      rintro rfl
      rw [h.homed k t ht] at hu
      exact absurd hu (by simp)
    rw [if_neg hne]
    exact h.homed k t ht
  · by_cases hv : v = u
    · rw [if_pos hv, h.waiting v, hv, h.pushesOf_eq_nil hu, h.pushesOf_eq_nil hu]
    · rw [if_neg hv]
      exact h.waiting v

/-- **An operation joins its list.** -/
theorem Matches.append (h : Matches map lists tree waiting held) (hi : map t.root = some i)
    {waiting' : ℕ → List PushCall} (hpop : t.type ≠ .push → waiting' = waiting)
    (hpush : t.type = .push → ∃ p : PushCall, p.operation = t ∧
      waiting' = fun u => if u = t.root then waiting u ++ [p] else waiting u) :
    Matches map (fun k => if k = i then lists k ++ [t] else lists k) tree waiting' held := by
  refine ⟨fun k x hx => ?_, fun u => ?_, h.held⟩
  · split at hx
    · next hk =>
      rcases List.mem_append.mp hx with hx | hx
      · exact h.homed k x hx
      · rw [List.mem_singleton.mp hx, hk]
        exact hi
    · exact h.homed k x hx
  · have hlist : pushesOf u (if (map u).getD 0 = i then lists ((map u).getD 0) ++ [t]
        else lists ((map u).getD 0)) =
        if t.type = .push ∧ t.root = u then pushesOf u (lists ((map u).getD 0)) ++ [t]
        else pushesOf u (lists ((map u).getD 0)) := by
      split
      · exact pushesOf_append u _ t
      · next hhome =>
        refine (if_neg ?_).symm
        rintro ⟨-, rfl⟩
        rw [hi] at hhome
        exact hhome rfl
    rw [hlist, ← h.waiting u]
    by_cases ht : t.type = .push
    · obtain ⟨p, hp, hw⟩ := hpush ht
      rw [hw]
      dsimp only
      by_cases hu : u = t.root
      · rw [if_pos hu, if_pos ⟨ht, hu.symm⟩, List.map_append, List.map_singleton, hp]
      · rw [if_neg hu, if_neg fun h' => hu h'.2.symm]
    · rw [hpop ht, if_neg fun h' => ht h'.1]

/-- **An operation leaves its list**, and a push is executed. -/
theorem Matches.take (h : Matches map lists tree waiting held) {rest : List Simulator.Task}
    (hlist : lists i = t :: rest) :
    (t.type ≠ .push → Matches map (fun k => if k = i then rest else lists k) tree waiting held) ∧
    (t.type = .push → ∃ p ps, waiting t.root = p :: ps ∧
      Matches map (fun k => if k = i then rest else lists k)
        (fun u => if u = t.root then entryOf t :: tree u else tree u)
        (fun u => if u = t.root then ps else waiting u)
        (fun u => if u = t.root then p :: held u else held u)) := by
  have hroot := h.homed i t (by rw [hlist]; exact List.mem_cons_self)
  have hhomed : ∀ k, ∀ x ∈ (if k = i then rest else lists k), map x.root = some k := by
    intro k x hx
    split at hx
    · next hk =>
      rw [hk]
      exact h.homed i x (by rw [hlist]; exact List.mem_cons_of_mem _ hx)
    · exact h.homed k x hx
  have hpushes : ∀ u, pushesOf u (lists ((map u).getD 0)) =
      if t.type = .push ∧ t.root = u then
        t :: pushesOf u (if (map u).getD 0 = i then rest else lists ((map u).getD 0))
      else pushesOf u (if (map u).getD 0 = i then rest else lists ((map u).getD 0)) := by
    intro u
    by_cases hhome : (map u).getD 0 = i
    · rw [if_pos hhome, hhome, hlist, pushesOf_cons]
    · rw [if_neg hhome]
      refine (if_neg ?_).symm
      rintro ⟨-, rfl⟩
      rw [hroot] at hhome
      exact hhome rfl
  refine ⟨fun ht => ⟨hhomed, fun u => ?_, h.held⟩, fun ht => ?_⟩
  · rw [h.waiting u, hpushes u, if_neg fun h' => ht h'.1]
  · have hfirst := h.waiting t.root
    rw [hpushes, if_pos ⟨ht, rfl⟩] at hfirst
    obtain ⟨p, ps, hw, hp, hps⟩ := List.map_eq_cons_iff.mp hfirst
    refine ⟨p, ps, hw, hhomed, fun u => ?_, fun u => ?_⟩
    · by_cases hu : u = t.root
      · rw [if_pos hu, hu]
        exact hps
      · rw [if_neg hu, h.waiting u, hpushes u, if_neg fun h' => hu h'.2.symm]
    · by_cases hu : u = t.root
      · rw [if_pos hu, if_pos hu, List.map_cons, PushCall.element, hp]
        exact (h.held u).cons _
      · rw [if_neg hu, if_neg hu]
        exact h.held u

end Matches

/-! ## The operations of the pipeline -/

/-- A pop took an element that is the greatest of its tree. -/
def Popped.Greatest (p : Popped) : Prop :=
  ∃ y, p.taken = some y ∧ y ∈ p.held ∧ ∀ x ∈ p.held, x.element ≤ y.element

/-- The invariant of a traced run with ranks in `R`. -/
structure Recorded (R : Set ℤ) (g : Traced) : Prop where
  truthful : g.Truthful
  waiting : ∀ u, ∀ p ∈ g.waiting u, p.rank ∈ R
  held : ∀ u, ∀ p ∈ g.held u, p.rank ∈ R
  log : ∀ q ∈ g.log, q.Greatest ∧ ∀ p ∈ q.held, p.rank ∈ R

section Steps

variable {s : Pipeline} {g : Traced} {R : Set ℤ} {waiting held : ℕ → List PushCall}

theorem Matches.getListId (h : Matches s.listMap s.lists s.tree waiting held) (u : ℕ) :
    Matches (s.getListId u).2.listMap (s.getListId u).2.lists (s.getListId u).2.tree waiting held ∧
      (s.getListId u).2.listMap u = some (s.getListId u).1 := by
  cases hu : s.listMap u with
  | some j =>
    rw [Pipeline.getListId, hu]
    exact ⟨h, hu⟩
  | none =>
    rw [Pipeline.getListId, hu]
    exact ⟨h.assign hu s.listCnt, if_pos rfl⟩

theorem Matches.addOperation (h : Matches s.listMap s.lists s.tree waiting held)
    {t : Simulator.Task} {waiting' : ℕ → List PushCall} (hpop : t.type ≠ .push → waiting' = waiting)
    (hpush : t.type = .push → ∃ p : PushCall, p.operation = t ∧
      waiting' = fun u => if u = t.root then waiting u ++ [p] else waiting u) :
    Matches (s.addOperation t).listMap (s.addOperation t).lists (s.addOperation t).tree
      waiting' held := by
  obtain ⟨hm, hu⟩ := h.getListId t.root
  exact hm.append hu hpop hpush

theorem Matches.addPop (h : Matches s.listMap s.lists s.tree waiting held) (u : ℕ) :
    Matches (s.addPop u).listMap (s.addPop u).lists (s.addPop u).tree waiting held := by
  have hno : OpType.pop ≠ OpType.push := OpType.noConfusion
  rw [Pipeline.addPop]
  split
  · exact Matches.addOperation
      (s := { s with rootNum := s.rootNum - 1, startNum := s.startNum + 1 }) h (fun _ => rfl)
      fun hp => absurd hp hno
  · exact h.addOperation (fun _ => rfl) fun hp => absurd hp hno

/-- **`AddPush`.** -/
theorem Recorded.addPush (h : Recorded R g) {p : PushCall} (hp : p.rank ∈ R) :
    Recorded R (g.addPush p) := by
  refine ⟨?_, fun u q hq => ?_, h.held, h.log⟩
  · have hm := h.truthful
    rw [Traced.Truthful, Traced.addPush, Pipeline.addPush]
    split
    · exact Matches.addOperation (s := { g.pipe with rootNum := g.pipe.rootNum + 1 }) hm
        (fun hno => absurd rfl hno) fun _ => ⟨p, rfl, rfl⟩
    · exact hm.addOperation (fun hno => absurd rfl hno) fun _ => ⟨p, rfl, rfl⟩
  · rw [Traced.addPush] at hq
    dsimp only at hq
    split at hq
    · rcases List.mem_append.mp hq with hq | hq
      · exact h.waiting u q hq
      · rw [List.mem_singleton.mp hq]
        exact hp
    · exact h.waiting u q hq

/-- The invariant is about the lists and the trees of the pipeline only. -/
theorem Recorded.congr (h : Recorded R g) {s : Pipeline} (hmap : s.listMap = g.pipe.listMap)
    (hlists : s.lists = g.pipe.lists) (htree : s.tree = g.pipe.tree) :
    Recorded R { g with pipe := s } := by
  refine ⟨?_, h.waiting, h.held, h.log⟩
  rw [Traced.Truthful, hmap, hlists, htree]
  exact h.truthful

theorem Recorded.startPop (h : Recorded R g) : Recorded R { g with pipe := g.pipe.startPop } := by
  rw [Pipeline.startPop]
  split
  · exact ⟨h.truthful.addPop ROOT, h.waiting, h.held, h.log⟩
  · exact h

/-- The call whose element is the greatest. -/
theorem Matches.taken (h : g.Truthful) {u : ℕ} {e : Pair} (hmax : (g.pipe.tree u).max? = some e) :
    ∃ y, g.taken u = some y ∧ y ∈ g.held u ∧ y.element = e ∧
      ∀ x ∈ g.held u, x.element ≤ y.element := by
  have hmem := List.max?_mem hmax
  rw [← (h.held u).mem_iff, List.mem_map] at hmem
  obtain ⟨z, hz, hze⟩ := hmem
  cases htaken : g.taken u with
  | none =>
    have hno := List.find?_eq_none.mp htaken z hz
    rw [hmax, hze, decide_eq_true rfl] at hno
    exact absurd rfl hno
  | some y =>
    have hy := List.find?_some htaken
    rw [hmax, decide_eq_true_eq, Option.some.injEq] at hy
    refine ⟨y, rfl, List.mem_of_find?_eq_some htaken, hy, fun x hx => ?_⟩
    rw [hy]
    exact (List.max?_le_iff hmax).mp le_rfl _ ((h.held u).mem_iff.mp (List.mem_map_of_mem hx))

/-- The element of the call that is taken leaves the tree. -/
theorem Matches.pop (h : g.Truthful) {u : ℕ} {e : Pair} (hmax : (g.pipe.tree u).max? = some e) :
    Matches g.pipe.listMap g.pipe.lists (g.pipe.popTree u e).tree g.waiting
      (fun v => if v = u then
        (g.held u).eraseP fun p => decide (some p.element = (g.pipe.tree u).max?)
        else g.held v) := by
  refine ⟨h.homed, h.waiting, fun v => ?_⟩
  rw [Pipeline.popTree]
  dsimp only
  by_cases hv : v = u
  · have hsame : (fun p : PushCall => decide (some p.element = (g.pipe.tree u).max?)) =
        (fun x => e == x) ∘ PushCall.element := by
      funext p
      rw [hmax, Function.comp_apply, Bool.eq_iff_iff, decide_eq_true_eq, beq_iff_eq,
        Option.some.injEq, eq_comm]
    rw [if_pos hv, if_pos hv, hv, hsame, ← List.eraseP_map, ← List.erase_eq_eraseP]
    exact (h.held u).erase e
  · rw [if_neg hv, if_neg hv]
    exact h.held v

/-- **The statistics** for one RPU: a pop takes the greatest element of its tree. -/
theorem Recorded.execAt (h : Recorded R g) {i : ℕ} {g' : Traced} (hexec : g.execAt i = some g') :
    Recorded R g' := by
  rw [Traced.execAt, Option.map_eq_some_iff] at hexec
  obtain ⟨s, hs, rfl⟩ := hexec
  rw [Pipeline.execAt] at hs
  split at hs
  · next hready =>
    rw [if_pos hready]
    obtain ⟨e, hmax, rfl⟩ := Option.map_eq_some_iff.mp hs
    obtain ⟨y, htaken, hy, -, hgreatest⟩ := Matches.taken h.truthful hmax
    have hpop := Matches.pop h.truthful hmax
    have hpop' : Matches (g.pipe.popTree (g.pipe.rpu i).root e).listMap
        (g.pipe.popTree (g.pipe.rpu i).root e).lists (g.pipe.popTree (g.pipe.rpu i).root e).tree
        g.waiting _ := hpop
    refine ⟨?_, h.waiting, fun u p hp => ?_, fun q hq => ?_⟩
    · rw [Traced.Truthful, Traced.pop]
      dsimp only
      split
      · exact hpop'
      · exact hpop'.addPop _
    · rw [Traced.pop] at hp
      dsimp only at hp
      split at hp
      · exact h.held _ p (List.mem_of_mem_eraseP hp)
      · exact h.held u p hp
    · rcases List.mem_append.mp hq with hq | hq
      · exact h.log q hq
      · rw [List.mem_singleton.mp hq]
        exact ⟨⟨y, htaken, hy, hgreatest⟩, h.held _⟩
  · next hready =>
    rw [if_neg hready, ← Option.some.inj hs]
    exact h

/-- The history of what is sent does not depend on the pipeline. -/
theorem Traced.sendOp_with (s : Pipeline) (g : Traced) (x : ℕ × Simulator.Task) :
    ({ g with pipe := s } : Traced).sendOp x = { g.sendOp x with pipe := s } := by
  rw [sendOp, sendOp]
  split
  · rw [sendFirst, sendFirst]
    dsimp only
    split <;> rfl
  · rfl

theorem Traced.foldl_sendOp_with (s : Pipeline) (sent : List (ℕ × Simulator.Task)) :
    ∀ g : Traced, sent.foldl sendOp { g with pipe := s } =
      { sent.foldl sendOp g with pipe := s } := by
  induction sent with
  | nil => exact fun g => rfl
  | cons x sent ih =>
    intro g
    rw [List.foldl_cons, List.foldl_cons, sendOp_with, ih]

/-- **An operation is sent.** -/
theorem Recorded.sendOp (h : Recorded R g) {i : ℕ} {t : Simulator.Task}
    {rest : List Simulator.Task} (hlist : g.pipe.lists i = t :: rest)
    (hmap : s.listMap = g.pipe.listMap)
    (hlists : s.lists = fun k => if k = i then rest else g.pipe.lists k)
    (htree : s.tree = Pipeline.pushSent [(i, t)] g.pipe.tree) :
    Recorded R { g.sendOp (i, t) with pipe := s } := by
  obtain ⟨hother, hpush⟩ := Matches.take h.truthful hlist
  rw [Traced.sendOp]
  by_cases ht : t.type = .push
  · have htree' : s.tree = fun u => if u = t.root then entryOf t :: g.pipe.tree u
        else g.pipe.tree u := htree.trans (if_pos ht)
    obtain ⟨p, ps, hw, hm⟩ := hpush ht
    have hp : p ∈ g.waiting t.root := by rw [hw]; exact List.mem_cons_self
    rw [if_pos ht, Traced.sendFirst, hw]
    refine ⟨?_, fun u q hq => ?_, fun u q hq => ?_, h.log⟩
    · rw [Traced.Truthful, hmap, hlists, htree']
      exact hm
    · dsimp only at hq
      split at hq
      · exact h.waiting t.root q (by rw [hw]; exact List.mem_cons_of_mem _ hq)
      · exact h.waiting u q hq
    · dsimp only at hq
      split at hq
      · rcases List.mem_cons.mp hq with rfl | hq
        · exact h.waiting t.root q hp
        · exact h.held u q hq
      · exact h.held u q hq
  · have htree' : s.tree = g.pipe.tree := htree.trans (if_neg ht)
    rw [if_neg ht]
    refine ⟨?_, h.waiting, h.held, h.log⟩
    rw [Traced.Truthful, hmap, hlists, htree']
    exact hother ht

/-- The record agrees with the pipeline in which the rounds of *send* have led to `r`. -/
def RecordedUpTo (R : Set ℤ) (g : Traced) (r : Sending) : Prop :=
  ∀ s : Pipeline, s.listMap = g.pipe.listMap → s.lists = r.lists →
    s.tree = Pipeline.pushSent r.sent g.pipe.tree →
      Recorded R (r.sent.foldl Traced.sendOp { g with pipe := s })

/-- One round of *send*. -/
theorem RecordedUpTo.sendAt {r : Sending} (ih : RecordedUpTo R g r) (locked : ℕ → Bool) (i : ℕ) :
    RecordedUpTo R g (Simulator.sendAt N locked r i) := by
  intro s hmap hlists htree
  rcases sendAt_cases N locked r i with hnone | ⟨t, rest, hlist, -, hlists', hsent, -⟩
  · rw [hnone] at hlists htree ⊢
    exact ih s hmap hlists htree
  · -- the state before the operation is taken from its list
    have ih := ih { s with
      lists := r.lists
      tree := Pipeline.pushSent r.sent g.pipe.tree } hmap rfl rfl
    rw [hsent, List.foldl_append, List.foldl_cons, List.foldl_nil,
      Traced.foldl_sendOp_with, Traced.sendOp_with]
    rw [Traced.foldl_sendOp_with] at ih
    have hsend := ih.sendOp (s := s) hlist rfl (hlists.trans hlists') (htree.trans ?_)
    · rw [Traced.sendOp_with] at hsend
      exact hsend
    · rw [hsent, Pipeline.pushSent, List.foldl_append]
      rfl

/-- **Pass down and send.** -/
theorem Recorded.advance (h : Recorded R g) (locked : ℕ → Bool) :
    Recorded R (g.advance locked) := by
  have hsent : RecordedUpTo R g (ringStep N locked g.pipe.lists g.pipe.rpu) :=
    Runs.foldl_range_keeps (P := fun _ r => RecordedUpTo R g r)
      (fun _ hmap hlists htree => h.congr hmap hlists htree) fun m _ _ ih => ih.sendAt locked m
  have hstep : g.pipe.advance locked = { g.pipe with
      lists := (ringStep N locked g.pipe.lists g.pipe.rpu).lists
      rpu := (ringStep N locked g.pipe.lists g.pipe.rpu).rpu
      tree := Pipeline.pushSent (ringStep N locked g.pipe.lists g.pipe.rpu).sent g.pipe.tree } :=
    rfl
  rw [Traced.advance, hstep]
  generalize ringStep N locked g.pipe.lists g.pipe.rpu = r at hsent ⊢
  exact hsent _ rfl rfl rfl

/-- **`WakeUp`.** -/
theorem Recorded.wakeUp (h : Recorded R g) {locked : ℕ → Bool} {g' : Traced}
    (hwake : g.wakeUp locked = some g') : Recorded R g' := by
  obtain ⟨g₁, hrun, rfl⟩ := Option.map_eq_some_iff.mp hwake
  have hexec : Recorded R g₁ :=
    Runs.foldlM_keeps (fun i _ _ _ hg hexec => hg.execAt hexec) h.startPop hrun
  exact hexec.advance locked

/-- Every call keeps the invariant. -/
theorem Recorded.step (h : Recorded R g) {c : Call} (hc : ∀ p, c = .addPush p → p.rank ∈ R)
    {g' : Traced} (hstep : g.step c = some g') : Recorded R g' := by
  cases c with
  | addPush p =>
    rw [← Option.some.inj hstep]
    exact h.addPush (hc p rfl)
  | getToken =>
    obtain ⟨r, hr, rfl⟩ := Option.map_eq_some_iff.mp hstep
    rw [Pipeline.getToken] at hr
    split at hr
    · rw [← Option.some.inj hr]
      exact h
    · split at hr
      · exact absurd hr (by simp)
      · rw [← Option.some.inj hr]
        exact h.congr rfl rfl rfl
  | wakeUp locked => exact h.wakeUp hstep

theorem recorded_init (R : Set ℤ) : Recorded R Traced.init :=
  ⟨⟨fun _ _ ht => absurd ht List.not_mem_nil, fun _ => rfl, fun _ => List.Perm.nil⟩,
    fun _ _ hp => absurd hp List.not_mem_nil, fun _ _ hp => absurd hp List.not_mem_nil,
    fun _ hq => absurd hq List.not_mem_nil⟩

/-- **The history is true after every run**, and every pop took the greatest element. -/
theorem recorded_run {cs : List Call} (hcs : RanksIn R cs) {g : Traced}
    (hrun : Traced.run cs = some g) : Recorded R g := by
  refine Runs.foldlM_keeps (fun c hc _ _ hg hstep => hg.step ?_ hstep) (recorded_init R) hrun
  rintro p rfl
  exact hcs p hc

end Steps

/-! ## Which ranks are served in order -/

/-- The place of a rank in its window of `2 ^ 32` ranks.  The windows start after `-2 ^ 31`. -/
def place (rank : ℤ) : ℤ := (rank + (2 ^ 31 - 1)) % 2 ^ 32

theorem treeKey_eq (rank : ℤ) : treeKey rank = 2 ^ 31 - 1 - place rank := by
  simp only [treeKey, toInt, place, Int.bmod_def]
  norm_num
  split <;> split <;> omega

/-- In the window around 0 the place says everything. -/
theorem place_lt_place {r r' : ℤ} (hr : -2 ^ 31 < r) (hlt : r < r') (hr' : r' < 2 ^ 31) :
    place r < place r' := by
  rw [place, place]
  norm_num at *
  omega

/-- A pop that took the greatest element is in order, if the trees compare the ranks as they
are. -/
theorem Popped.Greatest.inOrder {q : Popped} (h : q.Greatest) {R : Set ℤ}
    (hheld : ∀ p ∈ q.held, p.rank ∈ R)
    (hR : ∀ r ∈ R, ∀ r' ∈ R, r < r' → place r < place r') : q.InOrder := by
  obtain ⟨y, htaken, hy, hgreatest⟩ := h
  intro z hz x hx hlt
  rw [htaken, Option.mem_some] at hz
  subst hz
  have hplace := hR _ (hheld x hx) _ (hheld y hy) hlt
  have hkey : x.element.first ≤ y.element.first := by
    rcases Pair.le_iff.mp (hgreatest x hx) with hlt | ⟨heq, -⟩
    · exact hlt.le
    · exact heq.le
  have hx' : x.element.first = treeKey x.rank := rfl
  have hy' : y.element.first = treeKey y.rank := rfl
  rw [hx', hy', treeKey_eq, treeKey_eq] at hkey
  omega

/-! ## Two ranks that change places -/

section OutOfOrder

variable {g : Traced} {l rest : List Simulator.Task} {ring : ℕ → Simulator.Task}
  {t : Simulator.Task} {w held : List PushCall} {p : PushCall} {a b : ℤ}

/-- Nobody but the root has operations, and they are in list 0.  No pop is in the ring. -/
structure OnlyRoot (l : List Simulator.Task) (ring : ℕ → Simulator.Task) (w held : List PushCall)
    (a b : ℤ) (g : Traced) : Prop where
  map : g.pipe.listMap ROOT = some 0
  first : g.pipe.lists 0 = l
  others : ∀ k, k ≠ 0 → g.pipe.lists k = []
  rpu : ∀ k < N, g.pipe.rpu k = ring k
  noPop : ∀ k < N, (ring k).type ≠ .pop
  waiting : g.waiting ROOT = w
  held : g.held ROOT = held
  rootNum : g.pipe.rootNum = a
  startNum : g.pipe.startNum = b

/-- The pop of the root that `WakeUp` starts. -/
def rootPop : Simulator.Task := ⟨.pop, ROOT, N, 0, 0⟩

theorem addOperation_known {s : Pipeline} {i : ℕ} (h : s.listMap t.root = some i) :
    s.addOperation t =
      { s with lists := fun k => if k = i then s.lists k ++ [t] else s.lists k } := by
  rw [Pipeline.addOperation, Pipeline.getListId, h]

theorem OnlyRoot.startPop (h : OnlyRoot l ring w held a b g) (ha : 0 < a) (hb : b < BUFFER_SIZE) :
    OnlyRoot (l ++ [rootPop]) ring w held (a - 1) (b + 1) { g with pipe := g.pipe.startPop } := by
  have hstart : g.pipe.startPop = { g.pipe with
      lists := fun k => if k = 0 then g.pipe.lists k ++ [rootPop] else g.pipe.lists k
      rootNum := g.pipe.rootNum - 1
      startNum := g.pipe.startNum + 1 } := by
    have hpos : 0 < g.pipe.rootNum ∧ g.pipe.startNum < BUFFER_SIZE := by
      rw [h.rootNum, h.startNum]
      exact ⟨ha, hb⟩
    rw [Pipeline.startPop, if_pos hpos, Pipeline.addPop, if_pos rfl]
    exact addOperation_known (s := { g.pipe with
      rootNum := g.pipe.rootNum - 1
      startNum := g.pipe.startNum + 1 }) (t := rootPop) h.map
  rw [hstart]
  exact ⟨h.map, congrArg (· ++ [rootPop]) h.first, fun k hk => (if_neg hk).trans (h.others k hk),
    h.rpu, h.noPop, h.waiting, h.held, congrArg (· - 1) h.rootNum, congrArg (· + 1) h.startNum⟩

theorem startPop_rpu (s : Pipeline) : s.startPop.rpu = s.rpu := by
  rw [Pipeline.startPop, Pipeline.addPop]
  split
  · split
    · exact (addOperation_same _ _).1
    · exact (addOperation_same _ _).1
  · rfl

theorem OnlyRoot.no_startPop (h : OnlyRoot l ring w held a b g) (ha : a ≤ 0) :
    { g with pipe := g.pipe.startPop } = g := by
  rw [Pipeline.startPop, h.rootNum, if_neg fun hpos => absurd hpos.1 (not_lt.mpr ha)]

/-- Nothing is executed where no pop is in its first cycle. -/
theorem foldlM_execAt_idle (g : Traced) (is : List ℕ) (h : ∀ i ∈ is, ¬(g.pipe.rpu i).Ready N) :
    is.foldlM Traced.execAt g = some g := by
  refine Runs.foldlM_of_idle fun i hi => ?_
  rw [Traced.execAt, Pipeline.execAt, if_neg (h i hi), Option.map_some, if_neg (h i hi)]

/-- Only RPU 0 takes an operation. -/
theorem ringStep_first {locked : ℕ → Bool} {lists : ℕ → List Simulator.Task}
    (rpu : ℕ → Simulator.Task) (h : ∀ k, k ≠ 0 → lists k = []) :
    ringStep N locked lists rpu = sendAt N locked ⟨passDown N rpu, lists, []⟩ 0 := by
  have hrange : List.range N = 0 :: [1, 2, 3, 4] := rfl
  rw [ringStep, sendNew, hrange, List.foldl_cons]
  refine Runs.foldl_of_idle fun i hi => ?_
  have hi0 : i ≠ 0 := by
    rintro rfl
    exact absurd hi (by decide)
  -- the list of RPU `i` is still empty after the round of RPU 0
  have hempty : (sendAt N locked ⟨passDown N rpu, lists, []⟩ 0).lists i = [] := by
    rcases sendAt_cases N locked ⟨passDown N rpu, lists, []⟩ 0 with
      hnone | ⟨t, rest, -, -, hlists, -⟩
    · rw [hnone]
      exact h i hi0
    · rw [hlists]
      exact (if_neg hi0).trans (h i hi0)
  rcases sendAt_cases N locked (sendAt N locked ⟨passDown N rpu, lists, []⟩ 0) i with
    hnone | ⟨t, rest, hlist, -⟩
  · exact hnone
  · rw [hempty] at hlist
    exact absurd hlist (by simp)

/-- *Pass down* makes no pop. -/
theorem passed_ne_pop {before own : Simulator.Task} (hbefore : before.type ≠ .pop)
    (hown : own.type ≠ .pop) : (passed before own).type ≠ .pop := by
  rw [passed, if_neg hown]
  split
  · exact hbefore
  · exact OpType.noConfusion

/-- A push of the root is sent. -/
theorem OnlyRoot.sendPush (h : OnlyRoot (p.operation :: rest) ring (p :: w) held a b g)
    (hp : p.user = ROOT) (hfree : (passed (ring 4) (ring 0)).type = .empty) :
    ∃ g', ((List.range N).foldlM Traced.execAt g).map (·.advance fun _ => false) = some g' ∧
      OnlyRoot rest (fun k => if k = 0 then p.operation else passed (ring (prev N k)) (ring k))
        w (p :: held) a b g' := by
  have hexec := foldlM_execAt_idle g (List.range N) fun i hi hready => by
    rw [h.rpu i (List.mem_range.mp hi)] at hready
    exact h.noPop i (List.mem_range.mp hi) hready.2
  have hpass : ∀ k < N, passDown N g.pipe.rpu k = passed (ring (prev N k)) (ring k) := by
    intro k hk
    rw [passDown_eq _ hk, h.rpu k hk, h.rpu _ (prev_lt hk)]
  have hsend : ringStep N (fun _ => false) g.pipe.lists g.pipe.rpu =
      ⟨fun k => if k = 0 then p.operation else passDown N g.pipe.rpu k,
        fun k => if k = 0 then rest else g.pipe.lists k, [(0, p.operation)]⟩ := by
    have hfree' : (passDown N g.pipe.rpu 0).type = .empty := by
      rw [hpass 0 (by decide)]
      exact hfree
    rw [ringStep_first _ h.others, sendAt, if_pos ⟨hfree', rfl⟩]
    dsimp only
    rw [h.first]
    exact if_pos rfl
  refine ⟨g.advance fun _ => false, by rw [hexec]; rfl, ?_⟩
  have hroot : p.operation.root = ROOT := hp
  have hpush : p.operation.type = .push := rfl
  rw [Traced.advance, Pipeline.advance, hsend, List.foldl_cons, List.foldl_nil, Traced.sendOp]
  dsimp only
  rw [if_pos hpush, hroot, Traced.sendFirst]
  dsimp only
  rw [h.waiting]
  dsimp only
  refine ⟨h.map, ?_, fun k hk => (if_neg hk).trans (h.others k hk), fun k hk => ?_,
    fun k hk => ?_, ?_, ?_, h.rootNum, h.startNum⟩
  · dsimp only
    rw [if_pos rfl]
  · dsimp only
    rw [hpass k hk]
  · split
    · exact OpType.noConfusion
    · exact passed_ne_pop (h.noPop _ (prev_lt hk)) (h.noPop k hk)
  · dsimp only
    rw [if_pos rfl]
  · dsimp only
    rw [if_pos rfl, h.held]

/-- The pop of the root is sent. -/
theorem OnlyRoot.sendPop (h : OnlyRoot (rootPop :: rest) ring w held a b g)
    (hfree : (passed (ring 4) (ring 0)).type = .empty)
    (hlast : (passed (ring 3) (ring 4)).TTL ≤ 1) :
    ∃ g', ((List.range N).foldlM Traced.execAt g).map (·.advance fun _ => false) = some g' ∧
      g'.pipe.rpu 0 = rootPop ∧ (∀ k < N, k ≠ 0 → (g'.pipe.rpu k).type ≠ .pop) ∧
      g'.held ROOT = held := by
  have hexec := foldlM_execAt_idle g (List.range N) fun i hi hready => by
    rw [h.rpu i (List.mem_range.mp hi)] at hready
    exact h.noPop i (List.mem_range.mp hi) hready.2
  have hpass : ∀ k < N, passDown N g.pipe.rpu k = passed (ring (prev N k)) (ring k) := by
    intro k hk
    rw [passDown_eq _ hk, h.rpu k hk, h.rpu _ (prev_lt hk)]
  have hno : ∀ k < N, (passDown N g.pipe.rpu k).type ≠ .pop := by
    intro k hk
    rw [hpass k hk]
    exact passed_ne_pop (h.noPop _ (prev_lt hk)) (h.noPop k hk)
  have hfree' : (passDown N g.pipe.rpu 0).type = .empty := by
    rw [hpass 0 (by decide)]
    exact hfree
  have hlast' : (passDown N g.pipe.rpu 4).TTL ≤ 1 := by
    rw [hpass 4 (by decide)]
    exact hlast
  refine ⟨g.advance fun _ => false, by rw [hexec]; rfl, ?_⟩
  have hsend : ringStep N (fun _ => false) g.pipe.lists g.pipe.rpu =
      ⟨fun k => if k = 4 then { passDown N g.pipe.rpu 4 with
          type := if (passDown N g.pipe.rpu 4).type = .empty then .locked
            else (passDown N g.pipe.rpu 4).type
          TTL := 1 }
        else if k = 0 then rootPop else passDown N g.pipe.rpu k,
        fun k => if k = 0 then rest else g.pipe.lists k, [(0, rootPop)]⟩ := by
    rw [ringStep_first _ h.others, sendAt, if_pos ⟨hfree', rfl⟩]
    dsimp only
    rw [h.first]
    dsimp only
    rw [if_neg OpType.noConfusion]
    exact if_pos hlast'
  rw [Traced.advance, Pipeline.advance, hsend, List.foldl_cons, List.foldl_nil, Traced.sendOp,
    if_neg OpType.noConfusion]
  refine ⟨rfl, fun k hk hk0 => ?_, h.held⟩
  dsimp only
  by_cases hk4 : k = 4
  · rw [if_pos hk4]
    dsimp only
    split
    · exact OpType.noConfusion
    · exact hno 4 (by decide)
  · rw [if_neg hk4, if_neg hk0]
    exact hno k hk

/-- What has been popped stays in the log. -/
theorem Traced.foldl_sendOp_log (sent : List (ℕ × Simulator.Task)) :
    ∀ g : Traced, (sent.foldl sendOp g).log = g.log := by
  induction sent with
  | nil => exact fun g => rfl
  | cons x sent ih =>
    intro g
    have hlog : (g.sendOp x).log = g.log := by
      rw [sendOp, sendFirst]
      split
      · split <;> rfl
      · rfl
    rw [List.foldl_cons, ih, hlog]

/-- **The smaller key is left behind.**  The root holds two elements when its pop is executed,
and the one that was given the larger rank is compared as the smaller one. -/
theorem pop_out_of_order {r r' : ℤ} (hg : g.Truthful) (hready : g.pipe.rpu 0 = rootPop)
    (hidle : ∀ k < N, k ≠ 0 → (g.pipe.rpu k).type ≠ .pop)
    (hheld : g.held ROOT = [⟨ROOT, r', 1001⟩, ⟨ROOT, r, 1000⟩]) (hlt : r < r')
    (hplace : place r' ≤ place r) :
    ∃ g', ((List.range N).foldlM Traced.execAt g).map (·.advance fun _ => false) = some g' ∧
      ∃ q ∈ g'.log, ¬q.InOrder := by
  have hperm := hg.held ROOT
  rw [hheld] at hperm
  have hne : g.pipe.tree ROOT ≠ [] := fun hnil => by
    rw [hnil] at hperm
    exact absurd hperm.length_eq (by simp)
  obtain ⟨e, -, hmax⟩ := exists_max hne
  obtain ⟨y, htaken, hy, hye, hgreatest⟩ := Matches.taken hg hmax
  have hy' : y = ⟨ROOT, r', 1001⟩ := by
    rw [hheld] at hy hgreatest
    rcases List.mem_pair.mp hy with rfl | rfl
    · rfl
    · have hle := Pair.le_iff.mp (hgreatest ⟨ROOT, r', 1001⟩ List.mem_cons_self)
      have hkey : treeKey r' < treeKey r ∨ treeKey r' = treeKey r ∧ (1001 : ℤ) ≤ 1000 := hle
      rw [treeKey_eq, treeKey_eq] at hkey
      omega
  have hroot : (g.pipe.rpu 0).root = ROOT := congrArg Task.root hready
  have hr : (g.pipe.rpu 0).Ready N := by
    rw [hready]
    exact ⟨rfl, rfl⟩
  have hreal : checkRealQueue e.second = true := by
    rw [← hye, hy']
    rfl
  have hexec : g.execAt 0 = some (g.pop ROOT ((g.pipe.popTree ROOT e).pushBuffer e.second)) := by
    rw [Traced.execAt, Pipeline.execAt, if_pos hr, hroot, hmax, Option.map_some, Option.map_some,
      if_pos hr, if_pos hreal]
  have hbound : ∀ i ∈ [1, 2, 3, 4], i < N ∧ i ≠ 0 := by decide
  have hrest := foldlM_execAt_idle
    (g.pop ROOT ((g.pipe.popTree ROOT e).pushBuffer e.second)) [1, 2, 3, 4] fun i hi hi' =>
      hidle i (hbound i hi).1 (hbound i hi).2 hi'.2
  have hrange : List.range N = 0 :: [1, 2, 3, 4] := rfl
  refine ⟨(g.pop ROOT ((g.pipe.popTree ROOT e).pushBuffer e.second)).advance fun _ => false, ?_,
    ⟨ROOT, g.held ROOT, g.taken ROOT⟩, ?_, fun hin => ?_⟩
  · rw [hrange, List.foldlM_cons, hexec]
    exact congrArg (Option.map _) hrest
  · rw [Traced.advance, Traced.foldl_sendOp_log]
    exact List.mem_append_right _ (List.mem_singleton_self _)
  · refine hin y (by rw [htaken]; rfl) ⟨ROOT, r, 1000⟩ ?_ ?_
    · show _ ∈ g.held ROOT
      rw [hheld]
      exact List.mem_cons_of_mem _ List.mem_cons_self
    · rw [hy']
      exact hlt

/-- Two calls of `AddPush` for the root, and four cycles. -/
def twoPushes (r r' : ℤ) : List Call :=
  [.addPush ⟨ROOT, r, 1000⟩, .addPush ⟨ROOT, r', 1001⟩, .wakeUp fun _ => false,
    .wakeUp fun _ => false, .wakeUp fun _ => false, .wakeUp fun _ => false]

/-- The first of the two calls. -/
def firstPush (r : ℤ) : PushCall := ⟨ROOT, r, 1000⟩

/-- The second of them. -/
def secondPush (r' : ℤ) : PushCall := ⟨ROOT, r', 1001⟩

/-- The pipeline after the two calls. -/
theorem onlyRoot_twoPushes (r r' : ℤ) :
    OnlyRoot [(firstPush r).operation, (secondPush r').operation] (fun _ => Task.blank)
      [firstPush r, secondPush r'] [] 2 0
      ((Traced.init.addPush (firstPush r)).addPush (secondPush r')) := by
  refine ⟨rfl, rfl, fun k hk => ?_, fun _ _ => rfl, fun _ _ => OpType.noConfusion, rfl, rfl, rfl,
    rfl⟩
  show (if k = 0 then (if k = 0 then [] ++ [(firstPush r).operation] else []) ++
      [(secondPush r').operation]
    else if k = 0 then [] ++ [(firstPush r).operation] else []) = []
  rw [if_neg hk, if_neg hk]

/-- The four cycles: the two pushes and a pop are sent, and the pop is executed. -/
theorem not_servesInOrder_twoPushes {r r' : ℤ} (hlt : r < r') (hplace : place r' ≤ place r) :
    ¬ServesInOrder (twoPushes r r') := by
  have h₀ := onlyRoot_twoPushes r r'
  -- the first push is sent, then the second, then a pop
  obtain ⟨g₁, hrun₁, h₁⟩ := (h₀.startPop (by decide) (by decide)).sendPush rfl rfl
  obtain ⟨g₂, hrun₂, h₂⟩ := (h₁.startPop (by decide) (by decide)).sendPush rfl rfl
  have hstart₂ := h₂.no_startPop le_rfl
  obtain ⟨g₃, hrun₃, hpop, hidle, hheld⟩ := h₂.sendPop rfl (by show (0 : ℤ) ≤ 1; decide)
  rw [← hstart₂] at hrun₃
  have hrun : Traced.run ((twoPushes r r').take 5) = some g₃ := by
    have hw₁ : ((Traced.init.addPush (firstPush r)).addPush (secondPush r')).wakeUp
        (fun _ => false) = some g₁ := hrun₁
    have hw₂ : g₁.wakeUp (fun _ => false) = some g₂ := hrun₂
    have hw₃ : g₂.wakeUp (fun _ => false) = some g₃ := hrun₃
    rw [firstPush, secondPush] at hw₁
    simp only [twoPushes, List.take, Traced.run, List.foldlM_cons, List.foldlM_nil, Traced.step,
      Option.bind_eq_bind, Option.bind_some, hw₁, hw₂, hw₃]
    rfl
  have hrec : Recorded Set.univ g₃ := recorded_run (fun _ _ => Set.mem_univ _) hrun
  have hrpu := startPop_rpu g₃.pipe
  obtain ⟨g₄, hrun₄, q, hq, hno⟩ := pop_out_of_order (g := { g₃ with pipe := g₃.pipe.startPop })
    hrec.startPop.truthful ((congrFun hrpu 0).trans hpop)
    (fun k hk hk0 => by rw [hrpu]; exact hidle k hk hk0) hheld hlt hplace
  have hw₄ : g₃.wakeUp (fun _ => false) = some g₄ := hrun₄
  intro hserve
  refine hno (hserve g₄ ?_ q hq)
  have hsplit : twoPushes r r' = (twoPushes r r').take 5 ++ [.wakeUp fun _ => false] := rfl
  rw [Traced.run] at hrun
  rw [hsplit, Traced.run, List.foldlM_append, hrun]
  simp only [List.foldlM_cons, List.foldlM_nil, Traced.step, Option.bind_eq_bind,
    Option.bind_some, hw₄]
  rfl

end OutOfOrder

/-- Ranks whose places are in order are served in order. -/
theorem servesInOrder_of_place {R : Set ℤ} (hR : ∀ r ∈ R, ∀ r' ∈ R, r < r' → place r < place r')
    {cs : List Call} (hcs : RanksIn R cs) : ServesInOrder cs := by
  intro g hrun q hq
  obtain ⟨hgreatest, hheld⟩ := (recorded_run hcs hrun).log q hq
  exact hgreatest.inOrder hheld hR

/-- In particular those whose opposites an `int` can hold, too. -/
theorem servesInOrder_of_int {cs : List Call} (hcs : RanksIn {r | -2 ^ 31 < r ∧ r < 2 ^ 31} cs) :
    ServesInOrder cs :=
  servesInOrder_of_place (fun _ hr _ hr' hlt => place_lt_place hr.1 hlt hr'.2) hcs

/-- **The pipeline serves ranks in order if and only if their places are in order.**  In every
run with ranks in `R` every pop leaves no smaller rank behind, when of two different ranks in
`R` the smaller one always has the smaller place; and otherwise there is a run in which a pop
does. -/
theorem servesInOrder_iff (R : Set ℤ) : (∀ cs, RanksIn R cs → ServesInOrder cs) ↔
    ∀ r ∈ R, ∀ r' ∈ R, r < r' → place r < place r' := by
  constructor
  · intro h r hr r' hr' hlt
    by_contra hplace
    refine not_servesInOrder_twoPushes hlt (not_lt.mp hplace) (h _ fun p hp => ?_)
    simp only [twoPushes, List.mem_cons, Call.addPush.injEq, reduceCtorEq, List.not_mem_nil,
      or_false] at hp
    rcases hp with rfl | rfl
    · exact hr
    · exact hr'
  · exact fun hR _ hcs => servesInOrder_of_place hR hcs

/-- A rank that has left the range of an `int` is served before a small one. -/
theorem servesInOrder_fails :
    RanksIn {r | -2 ^ 63 ≤ r ∧ r < 2 ^ 63} (twoPushes 1 (2 ^ 31 + 5)) ∧
    ¬ServesInOrder (twoPushes 1 (2 ^ 31 + 5)) := by
  refine ⟨fun p hp => ?_, not_servesInOrder_twoPushes (by norm_num) (by decide)⟩
  simp only [twoPushes, List.mem_cons, Call.addPush.injEq, reduceCtorEq, List.not_mem_nil,
    or_false] at hp
  rcases hp with rfl | rfl
  · exact ⟨by decide, by decide⟩
  · exact ⟨by decide, by decide⟩

end Ns3

end VPifo
