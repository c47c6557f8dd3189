import VPifo.Reference.Forest
import VPifo.Simulator.Network
import VPifo.Simulator.Starvation

/-!
# The main loop of the algorithm simulators

`vPIFO_wfq.cpp` and `vPIFO_trace.cpp` of the algorithm simulation have a main loop in common:
tasks arrive, the statistics execute the pops that are in their first cycle and count, the ring
moves on and takes new tasks, and the anti-starvation mechanism locks RPUs.  They differ in
where the tasks come from, a random generator or a file, in how long a task lives, and in what
they do with the result of a pop.  A `Program` is what they do not share, and `wfq` and
`traceProgram` are the two.

The result is `none` where an index leaves an array of size `M`, and where the loop is left.
`History` is kept beside the state for the sake of the theorems: what has been dispatched and
executed, and whether a pop has run on an empty tree.
-/

namespace VPifo

namespace Simulator

open Reference

namespace Algo

/-! ## What the programs share -/

/-- The constants.  `L` is the `TTL` of a new task. -/
structure Params where
  L : ℕ
  M : ℕ
  N : ℕ
  two_le_L : 2 ≤ L
  two_le_N : 2 ≤ N

/-- The state of the main loop.  `extra` is what only one program has. -/
structure State (X : Type) where
  pool : Pool
  lists : ℕ → List Task
  rpu : ℕ → Task
  waits : Waits
  pushNum : ℕ → ℕ
  popNum : ℕ → ℕ
  pushSum : ℕ
  popSum : ℕ
  extra : X

/-- What the simulators do not share: the tasks that arrive in a cycle, which may depend on an
input, what is done with the result of a pop, and the end of a cycle. -/
structure Program (X I : Type) where
  start : X
  arrive : I → State X → Option (State X)
  onPop : X → ℕ → Pair → X
  finish : (ℕ → Task) → X → X

/-- What has happened, tree by tree. -/
structure History where
  /-- Pushes dispatched in earlier cycles. -/
  dispatched : ℕ → ℕ
  /-- Pops executed in earlier cycles. -/
  executedBefore : ℕ → ℕ
  /-- Pops executed so far. -/
  executed : ℕ → ℕ
  /-- A pop has run on an empty tree. -/
  emptyPop : Bool

section Loop

variable {X I : Type} (c : Params)

/-- The state before the first cycle. -/
def State.init (x : X) : State X where
  pool := Pool.init c.M
  lists _ := []
  rpu _ := Task.blank
  waits := Waits.init
  pushNum _ := 0
  popNum _ := 0
  pushSum := 0
  popSum := 0
  extra := x

/-- `push_task`. -/
def State.pushTask (s : State X) (i : ℕ) (t : Task) : State X :=
  { s with
    lists := fun k => if k = i then s.lists k ++ [t] else s.lists k
    waits := s.waits.join i (s.lists i) }

/-- A push, and a pop, as their constructors make them. -/
def mkPush (root : ℕ) (rank val : ℤ) : Task := ⟨.push, root, c.L, rank, val⟩

def mkPop (root : ℕ) : Task := ⟨.pop, root, c.L, 0, 0⟩

/-- A pop of RPU `i` gave `r`. -/
def State.popped (s : State X) (onPop : X → ℕ → Pair → X) (i : ℕ) (r : Pair × Pool) :
    Option (State X) :=
  let s := { s with pool := r.2, extra := onPop s.extra (s.rpu i).root r.1 }
  -- after a root pop we know which tree to pop
  if (s.rpu i).root = 0 then
    if 0 ≤ r.1.second ∧ r.1.second < c.M then
      some (s.pushTask (r.1.second.toNat % c.N) (mkPop c r.1.second.toNat))
    else none
  else some { s with
    popSum := s.popSum + 1
    popNum := fun u => if u = (s.rpu i).root then s.popNum u + 1 else s.popNum u }

/-- The statistics for RPU `i`. -/
def State.execAt (s : State X) (onPop : X → ℕ → Pair → X) (i : ℕ) : Option (State X) :=
  if (s.rpu i).TTL = c.L then
    if c.M ≤ (s.rpu i).root then none
    else if (s.rpu i).type = .pop then
      (s.pool.pop (s.pool.tot + 1) (treeRoot (s.rpu i).root)).bind (s.popped c onPop i)
    else if (s.rpu i).root ≠ 0 then some { s with
      pushSum := s.pushSum + 1
      pushNum := fun u => if u = (s.rpu i).root then s.pushNum u + 1 else s.pushNum u }
    else some s
  else some s

/-- What the statistics for RPU `i` add to the history. -/
def History.execAt (h : History) (s : State X) (i : ℕ) : History :=
  if (s.rpu i).Ready c.L then
    { h with
      executed := fun u => if u = (s.rpu i).root then h.executed u + 1 else h.executed u
      emptyPop := h.emptyPop || decide (s.pool.top (treeRoot (s.rpu i).root)).IsEmpty }
  else h

/-- One round of the statistics. -/
def countAt (onPop : X → ℕ → Pair → X) (x : State X × History) (i : ℕ) :
    Option (State X × History) :=
  (x.1.execAt c onPop i).map fun s => (s, x.2.execAt c x.1 i)

/-- The trees after the pushes that were sent. -/
def pushSent (sent : List (ℕ × Task)) (p : Pool) : Option Pool :=
  sent.foldlM (fun p x =>
    if x.2.type = .push then
      if c.M ≤ x.2.root then none
      else p.push (p.tot + 1) (treeRoot x.2.root) ⟨x.2.rank, x.2.val⟩
    else some p) p

/-- *Pass down* and *send new task*. -/
def State.send (s : State X) : SendingWaits :=
  ringStepWaits c.N Waits.popTask s.waits s.lists s.rpu

/-- The rest of a cycle, after the statistics. -/
def State.moveOn (s : State X) (finish : (ℕ → Task) → X → X) (anything : ℕ → Bool) :
    Option (State X) :=
  let r := s.send c
  (pushSent c r.ring.sent s.pool).map fun p => { s with
    pool := p
    lists := r.ring.lists
    rpu := r.ring.rpu
    waits := r.waits.antiStarvation c.N r.ring.lists r.ring.rpu anything
    extra := finish r.ring.rpu s.extra }

/-- The history at the end of a cycle. -/
def History.moveOn (h : History) (sent : List (ℕ × Task)) : History :=
  { h with
    dispatched := fun u => h.dispatched u +
      sent.countP fun x => decide (x.2.type = .push ∧ x.2.root = u)
    executedBefore := h.executed }

variable (p : Program X I)

/-- A cycle up to the end of the statistics. -/
def Program.count (input : I) (x : State X × History) : Option (State X × History) :=
  (p.arrive input x.1).bind fun s => (List.range c.N).foldlM (countAt c p.onPop) (s, x.2)

/-- The rest of it. -/
def Program.rest (anything : ℕ → Bool) (x : State X × History) : Option (State X × History) :=
  (x.1.moveOn c p.finish anything).map fun s => (s, x.2.moveOn (x.1.send c).ring.sent)

/-- The state at the end of cycle `n`. -/
def Program.run (inputs : ℕ → I) (anything : ℕ → ℕ → Bool) : ℕ → Option (State X × History)
  | 0 => some (State.init c p.start, ⟨fun _ => 0, fun _ => 0, fun _ => 0, false⟩)
  | n + 1 => ((run inputs anything n).bind (p.count c (inputs n))).bind (p.rest c (anything n))

/-- The state after the statistics phase of the cycle that follows cycle `n`. -/
def Program.counted (inputs : ℕ → I) (anything : ℕ → ℕ → Bool) (n : ℕ) :
    Option (State X × History) :=
  (p.run c inputs anything n).bind (p.count c (inputs n))

end Loop

/-! ## `vPIFO_wfq.cpp` -/

/-- What only this program has. -/
structure Wfq where
  taskNum : ℕ → ℤ
  finishTime : ℕ → ℤ
  virtualTime : ℤ

section Wfq

variable (c : Params)

/-- User `i` sends a push task with this rank and packet size. -/
def wfqPush (s : State Wfq) (i : ℕ) (rank val : ℤ) : State Wfq :=
  let s := s.pushTask (i % c.N) (mkPush c i rank val)
  let finish := max (s.extra.finishTime i) s.extra.virtualTime + val
  let s := { s with extra := { s.extra with
    taskNum := fun u => if u = i then s.extra.taskNum u + 1 else s.extra.taskNum u
    finishTime := fun u => if u = i then finish else s.extra.finishTime u } }
  -- WFQ uses the finish time as rank
  let s := s.pushTask 0 (mkPush c 0 finish i)
  { s with extra := { s.extra with
    taskNum := fun u => if u = 0 then s.extra.taskNum u + 1 else s.extra.taskNum u } }

/-- A pop of the root, if the root has a task for it. -/
def wfqPop (s : State Wfq) : State Wfq :=
  if 0 < s.extra.taskNum 0 then
    let s := s.pushTask 0 (mkPop c 0)
    { s with extra := { s.extra with
      taskNum := fun u => if u = 0 then s.extra.taskNum u - 1 else s.extra.taskNum u } }
  else s

/-- The tasks of a cycle.  The input says which users send, with the random numbers for rank and
packet size. -/
def wfqArrive (input : ℕ → Option (ℤ × ℤ)) (s : State Wfq) : State Wfq :=
  wfqPop c ((List.range' 1 (c.M - 1)).foldl (fun s i =>
    match input i with
    | some (rank, val) => wfqPush c s i rank val
    | none => s) s)

/-- What is done with the result of a pop. -/
def wfqOnPop (x : Wfq) (root : ℕ) (pa : Pair) : Wfq :=
  if root = 0 then
    { x with taskNum := fun u => if u = pa.second.toNat then x.taskNum u - 1 else x.taskNum u }
  else { x with virtualTime := x.virtualTime + pa.second }

/-- `vPIFO_wfq.cpp`. -/
def wfq : Program Wfq (ℕ → Option (ℤ × ℤ)) where
  start := ⟨fun _ => 0, fun _ => 0, 0⟩
  arrive input s := some (wfqArrive c input s)
  onPop := wfqOnPop
  finish _ x := x

end Wfq

/-! ## `vPIFO_trace.cpp` -/

/-- A line of the input, by its `type`. -/
inductive InputLine where
  | idle (cycles : ℕ)
  | push (treeid : ℕ) (pktMeta p0 p1 : ℤ)
  | pop
  | other

/-- What only this program has: the rest of the input, the output, and the clock. -/
structure Trace where
  input : List InputLine
  out : List (ℤ × ℤ)
  cycle : ℤ
  skippingFlag : ℤ

section Trace

variable (c : Params)

/-- `read_line`, which answers nothing at the end of the file. -/
def readLine (s : State Trace) : Option (State Trace) :=
  match s.extra.input with
  | [] => none
  | line :: input =>
    let s := { s with extra := { s.extra with input := input } }
    match line with
    | .pop => some (s.pushTask 0 (mkPop c 0))
    | .push treeid pktMeta p0 p1 =>
      if treeid < c.M then
        some ((s.pushTask (treeid % c.N) (mkPush c treeid p0 pktMeta)).pushTask 0
          (mkPush c 0 p1 treeid))
      else none
    | .idle cycles =>
      some { s with extra := { s.extra with skippingFlag := s.extra.cycle + cycles } }
    | .other => some s

/-- The cycle begins. -/
def Trace.tick (x : Trace) : Trace :=
  { x with
    cycle := x.cycle + 1
    skippingFlag := if x.skippingFlag < x.cycle + 1 then 0 else x.skippingFlag }

/-- The tasks of a cycle.  While a flag is set no line is read. -/
def traceArrive (s : State Trace) : Option (State Trace) :=
  (if s.extra.skippingFlag = 0 then readLine c s else some s).map fun s =>
    { s with extra := s.extra.tick }

/-- `write_line` for a real packet. -/
def traceOnPop (x : Trace) (root : ℕ) (pa : Pair) : Trace :=
  if root = 0 then x else { x with out := x.out ++ [(pa.first, x.cycle)] }

/-- The jump to the skipping flag, when all RPUs are empty. -/
def traceFinish (rpu : ℕ → Task) (x : Trace) : Trace :=
  if x.skippingFlag ≠ 0 ∧ ∀ i < c.N, (rpu i).type = .empty then
    { x with cycle := x.skippingFlag, skippingFlag := 0 }
  else x

/-- `vPIFO_trace.cpp` on this input. -/
def traceProgram (input : List InputLine) : Program Trace Unit where
  start := ⟨input, [], 1, 0⟩
  arrive _ := traceArrive c
  onPop := traceOnPop
  finish := traceFinish c

end Trace

end Algo

end Simulator

end VPifo
