import VPifo.Ns3.Prefetch
import VPifo.Simulator.Drained

/-!
# Who is hungry in the ns-3 pipeline

`Waiting` is the pipeline with its anti-starvation logic: the waiting times, the locks and the
beggar.  It is the pipeline of before for the locks that the logic chooses (`Logged.run_pipe`).

Only a list with an operation in it should be hungry.  `SendOperation` lowers the waiting time of
a list that it empties only if the list is hungry at that moment.  Its counterpart `pop_task` in
the algorithm simulators always does.  So the waiting time of an empty list goes on from where it
was, and after `S` cycles without an operation the list is hungry, becomes the beggar, and the
front of an empty queue is read.  One packet and an idle pipeline are enough
(`only_waiting_starve_fails`).
-/

namespace VPifo

namespace Ns3

open Cyclic Reference Simulator

/-! ## The pipeline with its waiting times -/

/-- A `Pipeline` with its anti-starvation logic. -/
structure Waiting where
  pipe : Pipeline
  waits : Waits

namespace Waiting

variable (s : Waiting)

/-- The lists. -/
def queues : Queues := ⟨s.pipe.lists, s.waits⟩

/-- An operation of this user is going to join its list. -/
def joinList (user : ℕ) : Waits :=
  s.waits.join (s.pipe.getListId user).1 (s.pipe.lists (s.pipe.getListId user).1)

/-- `AddPush`. -/
def addPush (p : PushCall) : Waiting := ⟨s.pipe.addPush p.user p.rank p.token, s.joinList p.user⟩

/-- `AddPop`. -/
def addPop (user : ℕ) : Waiting := ⟨s.pipe.addPop user, s.joinList user⟩

/-- `GetToken`. -/
def getToken : Option Waiting := s.pipe.getToken.map fun r => { s with pipe := r.2 }

/-- The statistics of `WakeUp` for RPU `i`. -/
def execAt (i : ℕ) : Option Waiting :=
  if (s.pipe.rpu i).Ready N then
    (s.pipe.tree (s.pipe.rpu i).root).max?.map fun e =>
      let s' : Waiting := { s with pipe := s.pipe.popTree (s.pipe.rpu i).root e }
      if checkRealQueue e.second then { s' with pipe := s'.pipe.pushBuffer e.second }
      else s'.addPop e.second.toNat
  else some s

/-- A root pop is started if the buffer is not going to be full. -/
def startPop : Waiting :=
  if 0 < s.pipe.rootNum ∧ s.pipe.startNum < BUFFER_SIZE then s.addPop ROOT else s

/-- `WakeUp` up to *pass down*. -/
def statistics : Option Waiting := (List.range N).foldlM execAt s.startPop

/-- The rest of `WakeUp`. -/
def advance (anything : ℕ → Bool) : Waiting :=
  let r := ringStepWaits N Waits.sendOperation s.waits s.pipe.lists s.pipe.rpu
  ⟨{ s.pipe with
      lists := r.ring.lists
      rpu := r.ring.rpu
      tree := Pipeline.pushSent r.ring.sent s.pipe.tree },
    r.waits.antiStarvation N r.ring.lists r.ring.rpu anything⟩

end Waiting

/-- A pipeline and its *send* phases. -/
structure Logged where
  state : Waiting
  log : List Round

namespace Logged

/-- The constructor. -/
def init : Logged := ⟨⟨Pipeline.init, Waits.init⟩, []⟩

/-- One call.  Here the argument of `wakeUp` is what the locks are where they are undefined. -/
def step (g : Logged) : Call → Option Logged
  | .addPush p => some ⟨g.state.addPush p, g.log⟩
  | .getToken => g.state.getToken.map fun s => ⟨s, g.log⟩
  | .wakeUp anything => g.state.statistics.map fun s =>
      ⟨s.advance anything, ⟨s.queues, s.queues.send N Waits.sendOperation s.pipe.rpu⟩ :: g.log⟩

/-- The pipeline after the calls `cs`. -/
def run (cs : List Call) : Option Logged := cs.foldlM step init

end Logged

/-! ## The locks are the ones of the logic -/

section Pipe

variable {s : Waiting} {g g' : Logged}

theorem Waiting.startPop_pipe (s : Waiting) : s.startPop.pipe = s.pipe.startPop := by
  rw [startPop, Pipeline.startPop]
  split <;> rfl

theorem Waiting.execAt_pipe (s : Waiting) (i : ℕ) :
    (s.execAt i).map pipe = s.pipe.execAt i := by
  rw [execAt, Pipeline.execAt]
  split
  · rw [Option.map_map]
    refine congrArg (fun f => Option.map f _) (funext fun e => ?_)
    rw [Function.comp_apply]
    dsimp only
    split <;> rfl
  · rfl

theorem Waiting.statistics_pipe (s : Waiting) :
    s.statistics.map pipe = (List.range N).foldlM Pipeline.execAt s.pipe.startPop := by
  rw [statistics, ← startPop_pipe]
  exact Runs.map_foldlM execAt_pipe (List.range N) s.startPop

/-- Two calls that differ in the locks at most. -/
inductive Call.Same : Call → Call → Prop where
  | addPush (p : PushCall) : Same (.addPush p) (.addPush p)
  | getToken : Same .getToken .getToken
  | wakeUp (locked locked' : ℕ → Bool) : Same (.wakeUp locked) (.wakeUp locked')

theorem Logged.step_pipe {c : Call} (h : g.step c = some g') :
    ∃ c', Call.Same c c' ∧ g.state.pipe.step c' = some g'.state.pipe := by
  cases c with
  | addPush p =>
    rw [← Option.some.inj h]
    exact ⟨_, .addPush p, rfl⟩
  | getToken =>
    obtain ⟨s, hs, rfl⟩ := Option.map_eq_some_iff.mp h
    obtain ⟨r, hr, rfl⟩ := Option.map_eq_some_iff.mp hs
    exact ⟨_, .getToken, by rw [Pipeline.step, hr]; rfl⟩
  | wakeUp anything =>
    obtain ⟨s, hs, rfl⟩ := Option.map_eq_some_iff.mp h
    obtain ⟨locked, hlocked⟩ :=
      ringStepWaits_ring N Waits.sendOperation s.waits s.pipe.lists s.pipe.rpu
    have hstat := g.state.statistics_pipe
    rw [hs] at hstat
    refine ⟨_, .wakeUp anything locked, ?_⟩
    rw [Pipeline.step, Pipeline.wakeUp, ← hstat]
    refine congrArg some ?_
    show s.pipe.advance locked = (s.advance anything).pipe
    rw [Pipeline.advance, ← hlocked]
    rfl

/-- **A run with the anti-starvation logic is a run of the pipeline**, with the locks that the
logic chooses. -/
theorem Logged.run_pipe : ∀ (cs : List Call) {g g' : Logged}, cs.foldlM step g = some g' →
    ∃ cs', List.Forall₂ Call.Same cs cs' ∧
      cs'.foldlM Pipeline.step g.state.pipe = some g'.state.pipe := by
  intro cs
  induction cs with
  | nil =>
    intro g g' h
    rw [← Option.some.inj h]
    exact ⟨[], .nil, rfl⟩
  | cons c cs ih =>
    intro g g' h
    obtain ⟨g₁, hg₁, hrest⟩ := Runs.of_foldlM_cons h
    obtain ⟨c', hsame, hstep⟩ := step_pipe hg₁
    obtain ⟨cs', hsames, hrun⟩ := ih hrest
    exact ⟨c' :: cs', .cons hsame hsames, by rw [List.foldlM_cons, hstep]; exact hrun⟩

end Pipe

/-! ## A run by its *send* phases -/

section Linked

variable {s s' : Waiting} {g g' : Logged}

@[simp] theorem getListId_lists (s : Pipeline) (u : ℕ) : (s.getListId u).2.lists = s.lists := by
  rw [Pipeline.getListId]
  split <;> rfl

/-- An operation joins a list whose waiting time is looked after. -/
theorem joins_addOperation {p : Pipeline} {w : Waits} {t : Simulator.Task}
    (hlists : p.lists = s.pipe.lists) (hlist : (p.getListId t.root).1 = (s.pipe.getListId t.root).1)
    (hw : w = s.joinList t.root) :
    s.queues.Joins (Waiting.queues ⟨p.addOperation t, w⟩) := by
  subst hw
  have hjoin := Queues.joins_join s.waits s.pipe.lists (s.pipe.getListId t.root).1 t
  have hadd : (p.addOperation t).lists = fun k =>
      if k = (s.pipe.getListId t.root).1 then s.pipe.lists k ++ [t] else s.pipe.lists k := by
    rw [Pipeline.addOperation]
    dsimp only
    rw [getListId_lists, hlists, hlist]
  rw [Waiting.queues, Waiting.queues]
  dsimp only
  rw [hadd]
  exact hjoin

/-- The counters do not matter to the list of a user. -/
theorem getListId_fst {p p' : Pipeline} (hmap : p'.listMap = p.listMap)
    (hcnt : p'.listCnt = p.listCnt) (u : ℕ) : (p'.getListId u).1 = (p.getListId u).1 := by
  rw [Pipeline.getListId, Pipeline.getListId, hmap, hcnt]
  split <;> rfl

theorem joins_addPush (s : Waiting) (p : PushCall) : s.queues.Joins (s.addPush p).queues := by
  rw [Waiting.addPush, Pipeline.addPush]
  refine joins_addOperation ?_ (getListId_fst ?_ ?_ _) rfl <;> split <;> rfl

theorem joins_addPop (s : Waiting) (user : ℕ) : s.queues.Joins (s.addPop user).queues := by
  rw [Waiting.addPop, Pipeline.addPop]
  refine joins_addOperation ?_ (getListId_fst ?_ ?_ _) rfl <;> split <;> rfl

theorem joins_startPop (s : Waiting) : s.queues.Joins s.startPop.queues := by
  rw [Waiting.startPop]
  split
  · exact joins_addPop s ROOT
  · exact .refl _

theorem joins_execAt {i : ℕ} (h : s.execAt i = some s') : s.queues.Joins s'.queues := by
  rw [Waiting.execAt] at h
  split at h
  · obtain ⟨e, -, rfl⟩ := Option.map_eq_some_iff.mp h
    dsimp only
    split
    · exact .refl _
    · exact joins_addPop _ _
  · rw [← Option.some.inj h]
    exact .refl _

theorem joins_statistics (h : s.statistics = some s') : s.queues.Joins s'.queues := by
  exact Runs.foldlM_keeps (P := fun s' => s.queues.Joins s'.queues)
    (fun i _ _ _ hjoins hexec => hjoins.trans (joins_execAt hexec)) (joins_startPop s) h

theorem queues_advance (s : Waiting) (anything : ℕ → Bool) : (s.advance anything).queues =
    (s.queues.send N Waits.sendOperation s.pipe.rpu).help N
      (ringStepWaits N Waits.sendOperation s.waits s.pipe.lists s.pipe.rpu).ring.rpu anything := by
  rw [Queues.help, Queues.send, Waiting.advance, Waiting.queues, Waiting.queues]

theorem Logged.step_linked {c : Call} (h : g.step c = some g')
    (hg : Linked N Waits.sendOperation g.log g.state.queues) :
    Linked N Waits.sendOperation g'.log g'.state.queues := by
  cases c with
  | addPush p =>
    rw [← Option.some.inj h]
    exact hg.join (joins_addPush g.state p)
  | getToken =>
    obtain ⟨s, hs, rfl⟩ := Option.map_eq_some_iff.mp h
    obtain ⟨r, hr, rfl⟩ := Option.map_eq_some_iff.mp hs
    have hlists : r.2.lists = g.state.pipe.lists := by
      rw [Pipeline.getToken] at hr
      split at hr
      · rw [← Option.some.inj hr]
      · split at hr
        · exact absurd hr (by simp)
        · rw [← Option.some.inj hr]
    rw [Waiting.queues] at hg ⊢
    dsimp only
    rw [hlists]
    exact hg
  | wakeUp anything =>
    obtain ⟨s, hs, rfl⟩ := Option.map_eq_some_iff.mp h
    have hround := (hg.join (joins_statistics hs)).round s.pipe.rpu
      (ringStepWaits N Waits.sendOperation s.waits s.pipe.lists s.pipe.rpu).ring.rpu anything
    rw [← queues_advance] at hround
    exact hround

/-- **A run of the pipeline**, by its *send* phases. -/
theorem Logged.linked (cs : List Call) {g g' : Logged} (h : cs.foldlM step g = some g')
    (hg : Linked N Waits.sendOperation g.log g.state.queues) :
    Linked N Waits.sendOperation g'.log g'.state.queues :=
  Runs.foldlM_keeps (P := fun g => Linked N Waits.sendOperation g.log g.state.queues)
    (fun _ _ _ _ hg hstep => step_linked hstep hg) hg h

end Linked

/-! ## An idle pipeline -/

/-- The pipeline has nothing to do. -/
structure Quiet (s : Waiting) : Prop where
  root : s.pipe.rootNum = 0
  lists : ∀ i < N, s.pipe.lists i = []
  rpu : ∀ i < N, (s.pipe.rpu i).TTL < (N : ℤ)

instance (s : Waiting) : Decidable (Quiet s) :=
  decidable_of_iff (s.pipe.rootNum = 0 ∧ (∀ i < N, s.pipe.lists i = []) ∧
    ∀ i < N, (s.pipe.rpu i).TTL < (N : ℤ)) ⟨fun h => ⟨h.1, h.2.1, h.2.2⟩,
      fun h => ⟨h.root, h.lists, h.rpu⟩⟩

section Idle

variable {s : Waiting} {g : Logged}

/-- With nothing in the lists nothing is sent. -/
theorem ringStep_of_nil {n : ℕ} {locked : ℕ → Bool} {lists : ℕ → List Simulator.Task}
    {rpu : ℕ → Simulator.Task} (h : ∀ i < n, lists i = []) :
    ringStep n locked lists rpu = ⟨passDown n rpu, lists, []⟩ := by
  refine Runs.foldl_of_idle fun m hm => ?_
  rcases sendAt_cases n locked ⟨passDown n rpu, lists, []⟩ m with hnone | ⟨t, rest, hlist, -⟩
  · exact hnone
  · exact absurd (hlist.symm.trans (h m (List.mem_range.mp hm))) (by simp)

/-- No pop is executed. -/
theorem Quiet.statistics (h : Quiet s) : s.statistics = some s := by
  have hstart : s.startPop = s := if_neg fun hroot => by rw [h.root] at hroot; omega
  rw [Waiting.statistics, hstart]
  exact Runs.foldlM_of_idle fun i hi =>
    if_neg fun hready => (h.rpu i (List.mem_range.mp hi)).ne hready.1

/-- What is left of a cycle makes the operations in the ring older. -/
theorem Quiet.advance (h : Quiet s) (anything : ℕ → Bool) : Quiet (s.advance anything) := by
  obtain ⟨locked, hring⟩ :=
    ringStepWaits_ring N Waits.sendOperation s.waits s.pipe.lists s.pipe.rpu
  rw [ringStep_of_nil h.lists] at hring
  rw [Waiting.advance, hring]
  refine ⟨h.root, h.lists, fun i hi => ?_⟩
  dsimp only
  rw [passDown_eq s.pipe.rpu hi, passed]
  have hbefore := h.rpu _ (prev_lt hi)
  split
  · exact h.rpu i hi
  · split
    · dsimp only
      omega
    · exact lt_of_le_of_lt (Int.natCast_nonneg 0) (Int.ofNat_lt.mpr (by decide))

/-- **In an idle pipeline the empty lists are waiting.** -/
theorem Quiet.step (h : Quiet g.state) (anything : ℕ → Bool) : ∃ g',
    g.step (.wakeUp anything) = some g' ∧ Quiet g'.state ∧
      (∀ i < N, g'.state.waits.waitTime i = g.state.waits.waitTime i + 1) ∧
      g'.log.length = g.log.length + 1 := by
  refine ⟨⟨g.state.advance anything,
    ⟨g.state.queues, g.state.queues.send N Waits.sendOperation g.state.pipe.rpu⟩ :: g.log⟩,
    by rw [Logged.step, h.statistics, Option.map_some], h.advance anything, fun i hi => ?_,
    List.length_cons⟩
  have hstep := listStep_send done_sendOperation g.state.queues g.state.pipe.rpu hi
  have hnil : g.state.queues.lists i = [] := h.lists i hi
  rw [hnil] at hstep
  have htime : (g.state.advance anything).waits.waitTime =
      (g.state.queues.send N Waits.sendOperation g.state.pipe.rpu).waits.waitTime := by
    rw [← help_waitTime, ← queues_advance, Waiting.queues]
  rw [htime]
  exact (listStep_nil hstep).2

/-- Several cycles of it. -/
theorem Quiet.steps (anything : ℕ → Bool) (n : ℕ) : ∀ {g : Logged}, Quiet g.state → ∃ g',
    (List.replicate n (Call.wakeUp anything)).foldlM Logged.step g = some g' ∧ Quiet g'.state ∧
      (∀ i < N, g'.state.waits.waitTime i = g.state.waits.waitTime i + n) ∧
      g'.log.length = g.log.length + n := by
  induction n with
  | zero => exact fun h => ⟨_, rfl, h, by simp, rfl⟩
  | succ n ih =>
    intro g h
    obtain ⟨g₁, hg₁, hquiet₁, htime₁, hlen₁⟩ := h.step anything
    obtain ⟨g₂, hg₂, hquiet₂, htime₂, hlen₂⟩ := ih hquiet₁
    refine ⟨g₂, ?_, hquiet₂, fun i hi => ?_, by omega⟩
    · rw [List.replicate_succ, List.foldlM_cons, hg₁]
      exact hg₂
    · rw [htime₂ i hi, htime₁ i hi]
      push_cast
      ring

end Idle

/-! ## The result -/

/-- **Who is hungry.**  In the ns-3 pipeline only a list with an operation in it is hungry, and
the front that is read is there, if and only if every list that runs empty while it is not hungry
gets its next operation in time.  In the main loop of `vPIFO_trace.cpp` this is so in every run. -/
theorem only_waiting_starve (cs : List Call) (g : Logged) (c : Algo.Params)
    (input : List Algo.InputLine) (anything : ℕ → ℕ → Bool) (n : ℕ)
    (x : Algo.State Algo.Trace × Algo.History) :
    (Logged.run cs = some g → g.log.length < 10 ^ 9 →
      (Fed N g.log g.state.queues ↔ InTime N g.log)) ∧
    (n < 10 ^ 9 → (Algo.traceProgram c input).counted c (fun _ => ()) anything n = some x →
      x.1.queues.OnlyWaiting c.N ∧
      (x.1.queues.send c.N Waits.popTask x.1.rpu).OnlyWaiting c.N ∧
      (x.1.queues.send c.N Waits.popTask x.1.rpu).FrontThere c.N) :=
  ⟨fun hrun hlen => (Logged.linked cs hrun .start).fed_sendOperation_iff hlen.le,
    fun hn hx => Algo.Program.fed (Algo.trace_sound c input) hn hx⟩

/-- A packet for `SimplePIFO`, and four cycles, after which its token is in the buffer. -/
def onePacket : List Call :=
  .addPush ⟨ROOT, 7, 1000⟩ :: List.replicate 4 (.wakeUp fun _ => false)

set_option maxRecDepth 10000 in
/-- The run of one packet is quiet in the end, and list 0 was not hungry when it ran empty. -/
theorem onePacket_quiet : ∃ g, Logged.run onePacket = some g ∧ Quiet g.state ∧
    g.state.waits.waitTime 0 = 4 ∧ g.log.length = 4 := by
  have hrun : (Logged.run onePacket).any (fun g => decide (Quiet g.state) &&
      decide (g.state.waits.waitTime 0 = 4 ∧ g.log.length = 4)) = true := by decide +kernel
  obtain ⟨g, hg, hquiet⟩ := (Option.any_eq_true _ _).mp hrun
  rw [Bool.and_eq_true, decide_eq_true_eq, decide_eq_true_eq] at hquiet
  exact ⟨g, hg, hquiet⟩

set_option maxRecDepth 10000 in
/-- The packet is served in time, and so are the two tasks of a line of the other simulator. -/
theorem only_waiting_starve_onePacket :
    (∃ g, Logged.run onePacket = some g ∧ (Fed N g.log g.state.queues ↔ InTime N g.log)) ∧
    ∃ x, (Algo.traceProgram Algo.smallTrace Algo.onePacket).counted Algo.smallTrace (fun _ => ())
        (fun _ _ => false) 2 = some x ∧ x.1.queues.OnlyWaiting 5 := by
  have htrace : ((Algo.traceProgram Algo.smallTrace Algo.onePacket).counted Algo.smallTrace
      (fun _ => ()) (fun _ _ => false) 2).isSome = true := by decide +kernel
  obtain ⟨g, hg, -, -, hlen⟩ := onePacket_quiet
  obtain ⟨x, hx⟩ := Option.isSome_iff_exists.mp htrace
  obtain ⟨hns3, htrace'⟩ := only_waiting_starve onePacket g Algo.smallTrace Algo.onePacket
    (fun _ _ => false) 2 x
  exact ⟨⟨g, hg, hns3 hg (by rw [hlen]; decide)⟩, x, hx, (htrace' (by decide) hx).1⟩

/-- One packet, and 241 cycles: list 0 is empty and hungry, and so the front of an empty queue is
read. -/
theorem only_waiting_starve_fails :
    ∃ g, Logged.run (onePacket ++ List.replicate 237 (.wakeUp fun _ => false)) = some g ∧
      g.log.length = 241 ∧ S < g.state.waits.waitTime 0 ∧ g.state.pipe.lists 0 = [] ∧
      ¬Fed N g.log g.state.queues := by
  obtain ⟨g, hg, hquiet, htime, hlen⟩ := onePacket_quiet
  obtain ⟨g', hg', hquiet', htime', hlen'⟩ := hquiet.steps (fun _ => false) 237
  have hrun : Logged.run (onePacket ++ List.replicate 237 (.wakeUp fun _ => false)) = some g' := by
    rw [Logged.run] at hg
    rw [Logged.run, List.foldlM_append, hg]
    exact hg'
  have hnil : g'.state.pipe.lists 0 = [] := hquiet'.lists 0 (by decide)
  have hS : S < g'.state.waits.waitTime 0 := by
    rw [htime' 0 (by decide), htime]
    decide
  exact ⟨g', hrun, by rw [hlen', hlen], hS, hnil, fun hfed => hfed.now 0 (by decide) hS hnil⟩

end Ns3

end VPifo
