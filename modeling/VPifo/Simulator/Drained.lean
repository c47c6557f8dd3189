import VPifo.Simulator.Throughput

/-!
# Lists that run empty

The waiting time of a list goes on counting while the list is empty.  Only a number far below
zero keeps an empty list from being hungry after `S` cycles, and it is for the code that takes the
last task to put it there.  `pop_task` always does; `SendOperation` does so only for a list that
is hungry at that moment.

A run is seen here as a log of its *send* phases.  `Linked` says which logs there are: between two
phases tasks join the lists, in a phase the ring takes some, and after it the mechanism looks for
a beggar.  What is to hold is `Fed`.  After `pop_task` it always does (`Linked.fed_popTask`),
and after `SendOperation` it does if and only if a list that has run empty gets its next task
in time (`Linked.fed_sendOperation_iff`).  The main loop of the algorithm simulators is such a
run (`Algo.Program.linked`).
-/

namespace VPifo

namespace Simulator

/-- The lists, and what the mechanism keeps. -/
structure Queues where
  lists : ℕ → List Task
  waits : Waits

/-- A *send* phase. -/
structure Round where
  before : Queues
  after : Queues

namespace Queues

variable (q : Queues)

/-- *Pass down* and *send*. -/
def send (N : ℕ) (done : Waits → ℕ → List Task → Waits) (rpu : ℕ → Task) : Queues :=
  ⟨(ringStepWaits N done q.waits q.lists rpu).ring.lists,
    (ringStepWaits N done q.waits q.lists rpu).waits⟩

/-- The mechanism. -/
def help (N : ℕ) (rpu : ℕ → Task) (anything : ℕ → Bool) : Queues :=
  ⟨q.lists, q.waits.antiStarvation N q.lists rpu anything⟩

/-- Only a list with a task in it is hungry. -/
def OnlyWaiting (N : ℕ) : Prop := Simulator.OnlyWaiting N q.lists q.waits.waitTime

/-- The front that the mechanism is going to read is there. -/
def FrontThere (N : ℕ) : Prop := ∀ b, q.waits.findBeggar N = some b → q.lists b ≠ []

/-- Tasks have joined. -/
def Joined (q q' : Queues) : Prop :=
  Simulator.Joined q.lists q.waits.waitTime q'.lists q'.waits.waitTime

/-- Tasks have joined, and nobody has been helped. -/
def Joins (q q' : Queues) : Prop := q.Joined q' ∧ q'.waits.beggar = q.waits.beggar

theorem Joins.refl : q.Joins q := ⟨Simulator.Joined.refl _ _, rfl⟩

variable {q} in
theorem Joins.trans {q' q'' : Queues} (h : q.Joins q') (h' : q'.Joins q'') : q.Joins q'' :=
  ⟨Simulator.Joined.trans h.1 h'.1, h'.2.trans h.2⟩

/-- One task joins. -/
theorem joins_join (w : Waits) (lists : ℕ → List Task) (i : ℕ) (t : Task) :
    Joins ⟨lists, w⟩ ⟨fun k => if k = i then lists k ++ [t] else lists k, w.join i (lists i)⟩ :=
  ⟨joined_join w lists i t, join_beggar w i (lists i)⟩

end Queues

/-- The *send* phases of a run, the last one first, and the lists at its end. -/
inductive Linked (N : ℕ) (done : Waits → ℕ → List Task → Waits) : List Round → Queues → Prop where
  | start : Linked N done [] ⟨fun _ => [], Waits.init⟩
  | join {log : List Round} {q q' : Queues} (h : Linked N done log q) (hjoin : q.Joins q') :
      Linked N done log q'
  | round {log : List Round} {q : Queues} (h : Linked N done log q) (rpu rpu' : ℕ → Task)
      (anything : ℕ → Bool) :
      Linked N done (⟨q, q.send N done rpu⟩ :: log) ((q.send N done rpu).help N rpu' anything)

/-- Nothing but a list with a task in it is ever hungry, and no beggar is without a task. -/
structure Fed (N : ℕ) (log : List Round) (q : Queues) : Prop where
  now : q.OnlyWaiting N
  before : ∀ r ∈ log, r.before.OnlyWaiting N
  after : ∀ r ∈ log, r.after.OnlyWaiting N
  front : ∀ r ∈ log, r.after.FrontThere N

/-- In this phase the last task of list `i` is sent, and the list is not hungry. -/
def Round.Drains (r : Round) (i : ℕ) : Prop :=
  r.before.lists i ≠ [] ∧ r.after.lists i = [] ∧ r.before.waits.waitTime i + 1 ≤ S

/-- A list whose last task was sent when it had waited for `w` cycles, `w ≤ S`, is not without a
task for more than the `S - w` cycles that follow. -/
def InTime (N : ℕ) (log : List Round) : Prop :=
  ∀ i < N, ∀ (later idle : List Round) (r : Round) (earlier : List Round),
    log = later ++ (idle ++ r :: earlier) → r.Drains i → (∀ x ∈ idle, x.before.lists i = []) →
      r.before.waits.waitTime i + 1 + idle.length ≤ S

section Linked

variable {N : ℕ} {done : Waits → ℕ → List Task → Waits} {time : ℤ → List Task → ℤ}
  {log : List Round} {q : Queues} {r : Round} {i : ℕ}

/-- What becomes of a list in *send*. -/
theorem listStep_send (h : Done done time) (q : Queues) (rpu : ℕ → Task) (hi : i < N) :
    ListStep time (q.lists i) (q.waits.waitTime i) ((q.send N done rpu).lists i)
      ((q.send N done rpu).waits.waitTime i) :=
  (ringStepWaits_spec h N q.waits q.lists rpu).1 i hi

/-- A list that is empty before a phase is empty after it. -/
theorem listStep_nil {x y : ℤ} {list : List Task}
    (h : ListStep time [] x list y) : list = [] ∧ y = x + 1 := by
  cases h with
  | kept => exact ⟨rfl, rfl⟩
  | sent h => exact absurd h (by simp)

@[simp] theorem help_waitTime (q : Queues) (rpu : ℕ → Task) (anything : ℕ → Bool) :
    (q.help N rpu anything).waits.waitTime = q.waits.waitTime :=
  antiStarvation_waitTime rpu anything

/-- The mechanism does not change who is waiting. -/
theorem onlyWaiting_help {rpu : ℕ → Task} {anything : ℕ → Bool} :
    (q.help N rpu anything).OnlyWaiting N ↔ q.OnlyWaiting N := by
  rw [Queues.OnlyWaiting, help_waitTime]
  rfl

/-- The last phase of a log. -/
theorem Linked.last (h : Linked N done (r :: log) q) : Linked N done log r.before ∧
    (∃ rpu, r.after = r.before.send N done rpu) ∧ r.after.Joined q := by
  generalize hlog : r :: log = log' at h
  induction h with
  | start => exact absurd hlog (by simp)
  | join _ hjoin ih =>
    obtain ⟨hbefore, hafter, hjoin'⟩ := ih hlog
    exact ⟨hbefore, hafter, hjoin'.trans hjoin.1⟩
  | round h rpu rpu' anything ih =>
    obtain ⟨rfl, rfl⟩ := List.cons.inj hlog
    refine ⟨h, ⟨rpu, rfl⟩, ?_⟩
    rw [Queues.Joined, help_waitTime]
    exact Joined.refl _ _

/-- A run goes through all its earlier logs. -/
theorem Linked.earlier {later : List Round} : ∀ {q : Queues},
    Linked N done (later ++ log) q → ∃ q', Linked N done log q' := by
  induction later with
  | nil => exact fun h => ⟨_, h⟩
  | cons x later ih => exact fun h => ih h.last.1

/-- **Everything is fed as long as only waiting lists are hungry.** -/
theorem Linked.fed (hdone : Done done time) {P : List Round → Prop}
    (htail : ∀ r log, P (r :: log) → P log)
    (hwait : ∀ log q, Linked N done log q → P log → q.OnlyWaiting N)
    (h : Linked N done log q) (hP : P log) :
    Fed N log q ∧ BeggarWaits N q.lists q.waits := by
  induction h with
  | start =>
    exact ⟨⟨hwait _ _ .start hP, by simp, by simp, by simp⟩,
      fun b hb => absurd hb (by simp [Waits.init])⟩
  | join h hjoin ih =>
    obtain ⟨hfed, hwaits⟩ := ih hP
    exact ⟨⟨hwait _ _ (h.join hjoin) hP, hfed.before, hfed.after, hfed.front⟩,
      hjoin.1.beggarWaits hwaits rfl hjoin.2⟩
  | @round log q h rpu rpu' anything ih =>
    obtain ⟨hfed, hwaits⟩ := ih (htail _ _ hP)
    have hnow := hwait _ _ (h.round rpu rpu' anything) hP
    have hsent : (q.send N done rpu).OnlyWaiting N := onlyWaiting_help.mp hnow
    have hbeggar := hwaits.ringStepWaits hdone rpu
    refine ⟨⟨hnow, ?_, ?_, ?_⟩, hbeggar.antiStarvation hsent rpu' anything⟩
    · exact List.forall_mem_cons.mpr ⟨hfed.now, hfed.before⟩
    · exact List.forall_mem_cons.mpr ⟨hsent, hfed.after⟩
    · exact List.forall_mem_cons.mpr
        ⟨fun b hb => (findBeggar_waits hsent hbeggar hb).2.2, hfed.front⟩

end Linked

/-- At the start all lists are far below. -/
theorem init_waitTime_le (i : ℕ) : Waits.init.waitTime i ≤ -Reference.inf := by
  show (-1044266559 : ℤ) ≤ -Reference.inf
  decide

/-! ## `pop_task` -/

section PopTask

variable {N : ℕ} {log : List Round} {q : Queues}

/-- An empty list counts from far below. -/
theorem Linked.idle_popTask (h : Linked N Waits.popTask log q) :
    ∀ i < N, q.lists i = [] → q.waits.waitTime i ≤ -Reference.inf + log.length := by
  induction h with
  | start =>
    intro i _ _
    rw [List.length_nil, Nat.cast_zero, add_zero]
    exact init_waitTime_le i
  | join _ hjoin ih =>
    intro i hi hnil
    obtain ⟨hnil', htime⟩ := hjoin.1.of_nil hnil
    rw [htime]
    exact ih i hi hnil'
  | @round log q _ rpu rpu' anything ih =>
    intro i hi hnil
    have hnil' : (q.send N Waits.popTask rpu).lists i = [] := hnil
    have hstep := listStep_send done_popTask q rpu hi
    rw [hnil'] at hstep
    rw [help_waitTime, List.length_cons]
    generalize (q.send N Waits.popTask rpu).waits.waitTime i = x at *
    generalize hlist : q.lists i = list at hstep
    cases hstep with
    | kept =>
      have := ih i hi hlist
      push_cast
      omega
    | sent =>
      have hpop : popTime (q.waits.waitTime i + 1) [] = -Reference.inf := rfl
      rw [hpop]
      omega

/-- **With `pop_task` nothing but a waiting list is hungry**, for all of a billion cycles. -/
theorem Linked.fed_popTask (h : Linked N Waits.popTask log q) (hlen : log.length ≤ 10 ^ 9) :
    Fed N log q := by
  refine (h.fed done_popTask (P := fun log => log.length ≤ 10 ^ 9) (fun r log hP => ?_)
    (fun log q h hP i hi hS hnil => ?_) hlen).1
  · rw [List.length_cons] at hP
    omega
  · have hidle := h.idle_popTask i hi hnil
    rw [Reference.inf] at hidle
    rw [S] at hS
    omega

end PopTask

/-! ## `SendOperation` -/

section SendOperation

variable {N : ℕ} {log : List Round} {q : Queues}

/-- An empty list counts from far below, or from where its last task was sent. -/
theorem Linked.idle_sendOperation (h : Linked N Waits.sendOperation log q) :
    ∀ i < N, q.lists i = [] → q.waits.waitTime i ≤ -Reference.inf + log.length ∨
      ∃ (idle : List Round) (r : Round) (earlier : List Round), log = idle ++ r :: earlier ∧
        r.Drains i ∧ (∀ x ∈ idle, x.before.lists i = []) ∧
        q.waits.waitTime i = r.before.waits.waitTime i + 1 + idle.length := by
  induction h with
  | start =>
    intro i _ _
    rw [List.length_nil, Nat.cast_zero, add_zero]
    exact Or.inl (init_waitTime_le i)
  | join _ hjoin ih =>
    intro i hi hnil
    obtain ⟨hnil', htime⟩ := hjoin.1.of_nil hnil
    rw [htime]
    exact ih i hi hnil'
  | @round log q _ rpu rpu' anything ih =>
    intro i hi hnil
    have hnil' : (q.send N Waits.sendOperation rpu).lists i = [] := hnil
    have hstep := listStep_send done_sendOperation q rpu hi
    rw [help_waitTime, List.length_cons]
    generalize htime : (q.send N Waits.sendOperation rpu).waits.waitTime i = x at *
    rw [hnil'] at hstep
    generalize hlist : q.lists i = list at hstep
    cases hstep with
    | kept =>
      rcases ih i hi hlist with hidle | ⟨idle, r, earlier, rfl, hdrains, hidle, hwait⟩
      · refine Or.inl ?_
        push_cast
        omega
      · refine Or.inr ⟨⟨q, q.send N Waits.sendOperation rpu⟩ :: idle, r, earlier, rfl, hdrains,
          List.forall_mem_cons.mpr ⟨hlist, hidle⟩, ?_⟩
        rw [hwait, List.length_cons]
        push_cast
        ring
    | @sent t rest hsent =>
      rw [sendTime]
      split
      · refine Or.inl ?_
        have hpop : popTime (q.waits.waitTime i + 1) [] = -Reference.inf := rfl
        rw [hpop]
        omega
      · next hS =>
        refine Or.inr ⟨[], ⟨q, q.send N Waits.sendOperation rpu⟩, log, rfl,
          ⟨by rw [hlist, hsent]; simp, hnil', not_lt.mp hS⟩, by simp, by simp⟩

/-- **A list that was not hungry when it ran empty goes on counting.** -/
theorem Linked.drained_time {i : ℕ} (hi : i < N) {r : Round} {earlier : List Round}
    (hdrains : r.Drains i) : ∀ {idle : List Round} {q : Queues},
    Linked N Waits.sendOperation (idle ++ r :: earlier) q →
    (∀ x ∈ idle, x.before.lists i = []) → q.lists i = [] →
      q.waits.waitTime i = r.before.waits.waitTime i + 1 + idle.length := by
  intro idle
  induction idle with
  | nil =>
    intro q h _ hnil
    obtain ⟨-, ⟨rpu, hafter⟩, hjoin⟩ := h.last
    obtain ⟨-, htime⟩ := hjoin.of_nil hnil
    obtain ⟨hne, hnil', hS⟩ := hdrains
    have hstep := listStep_send done_sendOperation r.before rpu hi
    rw [← hafter, hnil'] at hstep
    rw [htime]
    generalize r.after.waits.waitTime i = x at *
    generalize r.before.lists i = list at *
    cases hstep with
    | kept => exact absurd rfl hne
    | sent =>
      rw [sendTime, if_neg (not_lt.mpr hS)]
      simp
  | cons x idle ih =>
    intro q h hidle hnil
    obtain ⟨hbefore, ⟨rpu, hafter⟩, hjoin⟩ := h.last
    obtain ⟨-, htime⟩ := hjoin.of_nil hnil
    have hnil' := hidle x List.mem_cons_self
    have hwait := ih hbefore (fun y hy => hidle y (List.mem_cons_of_mem x hy)) hnil'
    have hstep := listStep_send done_sendOperation x.before rpu hi
    rw [← hafter, hnil'] at hstep
    rw [htime, (listStep_nil hstep).2, hwait, List.length_cons]
    push_cast
    ring

/-- **With `SendOperation` nothing but a waiting list is hungry, if and only if the next tasks
come in time.** -/
theorem Linked.fed_sendOperation_iff (h : Linked N Waits.sendOperation log q)
    (hlen : log.length ≤ 10 ^ 9) : Fed N log q ↔ InTime N log := by
  constructor
  · rintro hfed i hi later idle r earlier rfl hdrains hidle
    cases idle with
    | nil => simpa using hdrains.2.2
    | cons x idle =>
      obtain ⟨q', hq'⟩ := h.earlier
      obtain ⟨hbefore, ⟨rpu, hafter⟩, -⟩ := hq'.last
      have hnil := hidle x List.mem_cons_self
      have hwait := hbefore.drained_time hi hdrains
        (fun y hy => hidle y (List.mem_cons_of_mem x hy)) hnil
      have hstep := listStep_send done_sendOperation x.before rpu hi
      rw [← hafter, hnil] at hstep
      obtain ⟨hnil', htime⟩ := listStep_nil hstep
      have honly := hfed.after x (by simp) i hi
      rw [List.length_cons]
      by_contra hlate
      refine honly ?_ hnil'
      push_cast at hlate
      omega
  · intro hin
    refine (h.fed done_sendOperation (P := fun log => log.length ≤ 10 ^ 9 ∧ InTime N log)
      (fun r log hP => ⟨?_, ?_⟩) (fun log q h hP i hi hS hnil => ?_) ⟨hlen, hin⟩).1
    · have := hP.1
      rw [List.length_cons] at this
      omega
    · rintro i hi later idle x earlier rfl
      exact hP.2 i hi (r :: later) idle x earlier rfl
    · rcases h.idle_sendOperation i hi hnil with hidle | ⟨idle, r, earlier, hlog, hd, hidle, hwait⟩
      · have := hP.1
        rw [Reference.inf] at hidle
        rw [S] at hS
        omega
      · have := hP.2 i hi [] idle r earlier hlog hd hidle
        omega

end SendOperation

/-! ## The main loop of the algorithm simulators -/

namespace Algo

variable {X I : Type} {c : Params} {s s' : State X}

/-- The lists of a state. -/
def State.queues (s : State X) : Queues := ⟨s.lists, s.waits⟩

theorem joins_pushTask (s : State X) (i : ℕ) (t : Task) : s.queues.Joins (s.pushTask i t).queues :=
  Queues.joins_join s.waits s.lists i t

theorem Arrived.joins (h : Arrived c s s') : s.queues.Joins s'.queues := by
  induction h with
  | refl => exact .refl _
  | push _ _ ih => exact ih.trans (joins_pushTask _ _ _)
  | extra _ _ ih => exact ih

/-- The statistics send the pops that follow those of the root. -/
theorem joins_execAt {onPop : X → ℕ → Reference.Pair → X} {i : ℕ}
    (h : s.execAt c onPop i = some s') : s.queues.Joins s'.queues := by
  rw [State.execAt] at h
  split at h
  · split at h
    · exact absurd h (by simp)
    · split at h
      · obtain ⟨r, -, hpopped⟩ := Option.bind_eq_some_iff.mp h
        rw [State.popped] at hpopped
        split at hpopped
        · split at hpopped
          · rw [← Option.some.inj hpopped]
            exact joins_pushTask _ _ _
          · exact absurd hpopped (by simp)
        · rw [← Option.some.inj hpopped]
          exact .refl _
      · split at h
        · rw [← Option.some.inj h]
          exact .refl _
        · rw [← Option.some.inj h]
          exact .refl _
  · rw [← Option.some.inj h]
    exact .refl _

theorem joins_countAt {onPop : X → ℕ → Reference.Pair → X} (is : List ℕ) :
    ∀ {x y : State X × History}, is.foldlM (countAt c onPop) x = some y →
      x.1.queues.Joins y.1.queues := by
  intro x y h
  refine Runs.foldlM_keeps (P := fun z => x.1.queues.Joins z.1.queues) ?_ (.refl _) h
  intro i _ z z' hjoins hround
  obtain ⟨s', hs', rfl⟩ := Option.map_eq_some_iff.mp hround
  exact hjoins.trans (joins_execAt hs')

/-- The phases of a cycle before *send*. -/
theorem Program.joins_count {p : Program X I} (hp : p.Sound c) {input : I}
    {x y : State X × History} (h : p.count c input x = some y) :
    x.1.queues.Joins y.1.queues := by
  obtain ⟨s₁, harrive, hloop⟩ := Option.bind_eq_some_iff.mp h
  exact (hp _ _ _ harrive).joins.trans (joins_countAt _ hloop)

/-- **A run of the main loop**, by its *send* phases. -/
theorem Program.linked {p : Program X I} (hp : p.Sound c) (inputs : ℕ → I)
    (anything : ℕ → ℕ → Bool) (n : ℕ) : ∀ x, p.run c inputs anything n = some x →
    ∃ log, log.length = n ∧ Linked c.N Waits.popTask log x.1.queues := by
  induction n with
  | zero =>
    intro x hx
    rw [← Option.some.inj hx]
    exact ⟨[], rfl, .start⟩
  | succ n ih =>
    intro x hx
    obtain ⟨y, hy, hrest⟩ := Option.bind_eq_some_iff.mp hx
    obtain ⟨z, hz, hcount⟩ := Option.bind_eq_some_iff.mp hy
    obtain ⟨s', hs', rfl⟩ := Option.map_eq_some_iff.mp hrest
    obtain ⟨q, -, rfl⟩ := Option.map_eq_some_iff.mp hs'
    obtain ⟨log, rfl, hlinked⟩ := ih z hz
    exact ⟨_, rfl, (hlinked.join (p.joins_count hp hcount)).round y.1.rpu (y.1.send c).ring.rpu
      (anything _)⟩

/-- **In the main loop nothing but a waiting list is hungry**: before *send*, after it, and when
the front of the beggar's list is read. -/
theorem Program.fed {p : Program X I} (hp : p.Sound c) {inputs : ℕ → I}
    {anything : ℕ → ℕ → Bool} {n : ℕ} (hn : n < 10 ^ 9) {x : State X × History}
    (hx : p.counted c inputs anything n = some x) :
    x.1.queues.OnlyWaiting c.N ∧ (x.1.queues.send c.N Waits.popTask x.1.rpu).OnlyWaiting c.N ∧
      (x.1.queues.send c.N Waits.popTask x.1.rpu).FrontThere c.N := by
  obtain ⟨y, hy, hcount⟩ := Option.bind_eq_some_iff.mp hx
  obtain ⟨log, hlen, hlinked⟩ := p.linked hp inputs anything n y hy
  have hround := (hlinked.join (p.joins_count hp hcount)).round x.1.rpu x.1.rpu fun _ => false
  have hfed := hround.fed_popTask (by rw [List.length_cons]; omega)
  exact ⟨hfed.before _ List.mem_cons_self, hfed.after _ List.mem_cons_self,
    hfed.front _ List.mem_cons_self⟩

end Algo

end Simulator

end VPifo
