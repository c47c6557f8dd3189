import VPifo.Reference.Tree
import VPifo.Simulator.Ring

/-!
# The main loop of the reference simulator

`vPIFO_trace.cpp` reads a whole trace into queues, one for each flow, and then runs cycle
after cycle.  An iteration of its loop has four parts, each a function here under the name it
has there:

* `tryPushPushTask` takes one packet from each queue and gives its two pushes, one into the
  tree of the packet and one into the root tree, to the task lists;
* `tryPushPopTask` looks at the packet that is on top now and, if the counter of its flow
  allows it, gives a pop of the root tree to the task lists;
* `execAt` executes the pops that are in their first cycle.  A pop of the root tree puts the
  pop of the tree it names into a list, any other prints its packet;
* `advance` moves the ring of RPUs on, sends new tasks to it and executes the pushes.

The result is `none` where the source would use a tree that does not exist or pop one that is
empty.  The starvation logic is a parameter: its only effect is which RPUs it has locked in a
cycle, so the results hold whatever it locks.
-/

namespace VPifo

namespace Simulator

open Reference

/-! ## The input -/

/-- The constants of `vPIFO_trace.cpp`. -/
structure Config where
  L : ℕ
  M : ℕ
  N : ℕ
  FLOW_NUM : ℕ
  two_le_L : 2 ≤ L
  two_le_N : 2 ≤ N
  M_pos : 0 < M

/-- The constants as the source sets them. -/
def Config.source : Config :=
  ⟨8, 40, 40, 6, Nat.le_add_left 2 6, Nat.le_add_left 2 38, Nat.succ_pos 39⟩

/-- A record of the trace. -/
inductive Record where
  | push (treeid : ℕ) (pktMeta p0 p1 : ℤ)
  | pop
  | idle (idleCycle : ℕ)
  deriving DecidableEq

/-- `struct A_Push`. -/
structure APush where
  treeid : ℕ
  pktMeta : ℤ
  p0 : ℤ
  p1 : ℤ
  deriving DecidableEq

/-- `PFMap`. -/
abbrev PFMap := ℤ → Option ℕ

/-- What `read_line` writes: `perFlowPushQueue`, `perFlowPopQueue` and `meta`. -/
structure Input where
  perFlowPushQueue : ℕ → List APush
  perFlowPopQueue : ℕ → ℕ
  pktMeta : ℤ

/-- `read_line`.  A pop belongs to the flow of the last push that was read.  An idle record
sets `skipping_flag`, which is cleared before the main loop. -/
def readLine (pfMap : PFMap) (s : Input) : Record → Option Input
  | .push treeid pktMeta p0 p1 => (pfMap pktMeta).map fun f =>
    { s with
      perFlowPushQueue := fun k =>
        if k = f then s.perFlowPushQueue k ++ [⟨treeid, pktMeta, p0, p1⟩] else s.perFlowPushQueue k
      pktMeta := pktMeta }
  | .pop => (pfMap s.pktMeta).map fun f =>
    { s with perFlowPopQueue := fun k =>
        if k = f then s.perFlowPopQueue k + 1 else s.perFlowPopQueue k }
  | .idle _ => some s

/-- `while(read_line());`. -/
def readAll (pfMap : PFMap) (trace : List Record) : Option Input :=
  trace.foldlM (readLine pfMap) ⟨fun _ => [], fun _ => 0, 0⟩

/-! ## The loop -/

/-- A line of the output. -/
inductive Line where
  | push (pktMeta : ℤ) (cyc : ℕ)
  | pop (pktMeta : ℤ) (cyc : ℕ)
  deriving DecidableEq

/-- The state of the main loop. -/
structure State where
  pool : Pool
  lists : ℕ → List Task
  rpu : ℕ → Task
  perFlowPushQueue : ℕ → List APush
  perFlowPopQueue : ℕ → ℕ
  cycle : ℕ
  taskListEmptyCnt : ℤ
  pushCnt : ℕ
  popCnt : ℕ
  out : List Line

namespace State

variable (c : Config) (pfMap : PFMap) (s : State)

/-- The state in which the loop starts. -/
def start (i : Input) : State where
  pool := Pool.init c.M
  lists _ := []
  rpu _ := Task.blank
  perFlowPushQueue := i.perFlowPushQueue
  perFlowPopQueue := i.perFlowPopQueue
  cycle := 1
  taskListEmptyCnt := 100
  pushCnt := 0
  popCnt := 0
  out := []

/-- `noPop`. -/
def noPop : Bool := (List.range c.FLOW_NUM).all fun f => s.perFlowPopQueue f == 0

/-- `noPush`. -/
def noPush : Bool := (List.range c.FLOW_NUM).all fun f => (s.perFlowPushQueue f).isEmpty

/-- Every task list is empty. -/
def listsEmpty : Bool := (List.range c.N).all fun i => (s.lists i).isEmpty

/-- `check_task_list_empty`. -/
def checkTaskListEmpty : State :=
  if s.listsEmpty c then { s with taskListEmptyCnt := s.taskListEmptyCnt - 1 } else s

/-- `push_task`. -/
def pushTask (i : ℕ) (t : Task) : State :=
  { s with lists := fun k => if k = i then s.lists k ++ [t] else s.lists k }

/-- A push as its constructor makes it. -/
def mkPush (root : ℕ) (rank val : ℤ) : Task := ⟨.push, root, c.L, rank, val⟩

/-- A pop as its constructor makes it. -/
def mkPop (root : ℕ) : Task := ⟨.pop, root, c.L, 0, 0⟩

/-- `write_push_line`. -/
def writePushLine (pktMeta : ℤ) : State :=
  { s with out := s.out ++ [.push pktMeta s.pushCnt], pushCnt := s.pushCnt + 1 }

/-- `write_pop_line`. -/
def writePopLine (pktMeta : ℤ) : State :=
  { s with out := s.out ++ [.pop pktMeta s.popCnt], popCnt := s.popCnt + 1 }

/-- One round of `try_push_push_task`. -/
def pushFlow (cur : ℕ) : State :=
  match s.perFlowPushQueue cur with
  | [] => s
  | a :: rest =>
    let s := { s with perFlowPushQueue := fun k => if k = cur then rest else s.perFlowPushQueue k }
    let s := s.pushTask (a.treeid % c.N) (mkPush c a.treeid a.p0 a.pktMeta)
    let s := s.writePushLine a.pktMeta
    s.pushTask 0 (mkPush c 0 a.p1 a.treeid)

/-- `try_push_push_task`. -/
def tryPushPushTask : State := (List.range c.FLOW_NUM).foldl (pushFlow c) s

/-- The flow that `try_push_pop_task` charges, if it charges one. -/
def chargedFlow : Option ℕ :=
  let first := s.pool.top (treeRoot 0)
  let second := s.pool.top (treeRoot first.second.toNat)
  if first.first ≠ inf ∧ second.first ≠ inf then
    let curFlow := (pfMap second.second).getD 0
    if s.perFlowPopQueue curFlow > 0 then some curFlow else none
  else none

/-- `try_push_pop_task`. -/
def tryPushPopTask : State :=
  match s.chargedFlow pfMap with
  | some f =>
    { s with perFlowPopQueue := fun k => if k = f then s.perFlowPopQueue k - 1
        else s.perFlowPopQueue k }.pushTask 0 (mkPop c 0)
  | none => s

/-- The RPU has a pop that has not been executed. -/
def popReady (i : ℕ) : Bool := decide ((s.rpu i).TTL = c.L) && decide ((s.rpu i).type = .pop)

/-- One round of the statistics: a pop in its first cycle is executed. -/
def execAt (i : ℕ) : Option State :=
  if s.popReady c i then
    (s.pool.pop (s.pool.tot + 1) (treeRoot (s.rpu i).root)).map fun r =>
      let s' := { s with pool := r.2 }
      if (s.rpu i).root = 0 then
        s'.pushTask (r.1.second.toNat % c.N) (mkPop c r.1.second.toNat)
      else s'.writePopLine r.1.second
  else some s

/-- The statistics, up to RPU `n`. -/
def execUpTo (n : ℕ) : Option State := (List.range n).foldlM (execAt c) s

/-- The trees after the tasks that were sent. -/
def pushSent (sent : List (ℕ × Task)) (p : Pool) : Option Pool :=
  sent.foldlM (fun p x =>
    if x.2.type = .push then p.push (p.tot + 1) (treeRoot x.2.root) ⟨x.2.rank, x.2.val⟩
    else some p) p

/-- The ring and the trees after *pass down* and *send new task*. -/
def advance (locked : ℕ → Bool) : Option State :=
  let r := ringStep c.N locked s.lists s.rpu
  (pushSent r.sent s.pool).map fun p => { s with pool := p, lists := r.lists, rpu := r.rpu }

/-- What comes before the statistics. -/
def enqueue : State :=
  let s := (s.checkTaskListEmpty c).tryPushPushTask c
  let s := if s.cycle > 50 then s.tryPushPopTask c pfMap else s
  { s with cycle := s.cycle + 1 }

/-- The loop ends here. -/
def atEnd : Bool := s.noPush c && s.noPop c && decide (s.taskListEmptyCnt ≤ 0)

/-- One iteration of the main loop. -/
def iterate (locked : ℕ → Bool) : Option State :=
  if s.atEnd c then some s
  else ((s.enqueue c pfMap).execUpTo c c.N).bind fun s => s.advance c locked

end State

/-- The state after `n` iterations. -/
def simulate (c : Config) (pfMap : PFMap) (locked : ℕ → ℕ → Bool) (i : Input) : ℕ → Option State
  | 0 => some (State.start c i)
  | n + 1 => (simulate c pfMap locked i n).bind fun s => s.iterate c pfMap (locked n)

end Simulator

end VPifo
