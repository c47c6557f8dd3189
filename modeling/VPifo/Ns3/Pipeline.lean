import VPifo.Reference.Tree
import VPifo.Simulator.Network

/-!
# The pipeline of the ns-3 queue discs

The queue discs `vPIFO` and `SimplePIFO` keep their tokens in a `Pipeline`: one priority queue
for each user, operation lists to which the users are assigned at their first use, a ring of
RPUs as in the reference simulator, and a small buffer of tokens that have already been
popped.  `WakeUp` is a cycle.  It starts a pop of the root while the buffer is not going to be
full, executes the pops that are in their first cycle, follows an element that names another
queue and puts any other into the buffer; `GetToken` takes from the buffer.

A priority queue is the list of its elements, of which `top` is the greatest.  As for the
reference simulator the starvation logic is the parameter `locked`, and the result is `none`
where the source would use the front of an empty queue.
-/

namespace VPifo

namespace Ns3

open Reference Simulator TokenNet

/-! ## The pipeline -/

/-- `N`, the number of RPUs and of operation lists, and the cycles an operation lives. -/
def N : ℕ := 5

/-- `BUFFER_SIZE`. -/
def BUFFER_SIZE : ℤ := 4

/-- `ROOT`, the index of the root. -/
def ROOT : ℕ := 233

/-- `T`, the number of trees. -/
def T : ℕ := 240

/-- The value of a number that is converted to `int`. -/
def toInt (x : ℤ) : ℤ := x.bmod (2 ^ 32)

/-- `CheckRealQueue`. -/
def checkRealQueue (id : ℤ) : Bool :=
  -- a flow token is a real queue
  if 1000 ≤ id then true
  -- a group or type token is not
  else if id < 100 then false
  -- among the tenants only the Hadoop ones are
  else decide ((id - 100) / 10 < (id - 100) % 10)

/-- The element that a push puts into its tree: `make_pair(-t.rank, t.token)`. -/
def entryOf (t : Simulator.Task) : Pair := ⟨toInt (-t.rank), t.val⟩

/-- The state of a `Pipeline`.  The counters for the log are left out, and so is the starvation
logic, whose only effect is what `locked` is in the next cycle. -/
structure Pipeline where
  listMap : ℕ → Option ℕ
  listCnt : ℕ
  lists : ℕ → List Simulator.Task
  rpu : ℕ → Simulator.Task
  tree : ℕ → List Pair
  rootNum : ℤ
  startNum : ℤ
  bufferNum : ℤ
  buffer : List ℤ

namespace Pipeline

/-- The constructor. -/
def init : Pipeline where
  listMap _ := none
  listCnt := 0
  lists _ := []
  rpu _ := Simulator.Task.blank
  tree _ := []
  rootNum := 0
  startNum := 0
  bufferNum := 0
  buffer := []

variable (s : Pipeline)

/-- `GetListId`: at its first use a user gets the next list in turn. -/
def getListId (user : ℕ) : ℕ × Pipeline :=
  match s.listMap user with
  | some j => (j, s)
  | none => (s.listCnt,
    { s with
      listMap := fun u => if u = user then some s.listCnt else s.listMap u
      listCnt := (s.listCnt + 1) % N })

/-- An operation joins the list of its user. -/
def addOperation (t : Simulator.Task) : Pipeline :=
  let r := s.getListId t.root
  { r.2 with lists := fun k => if k = r.1 then r.2.lists k ++ [t] else r.2.lists k }

/-- `AddPush`. -/
def addPush (user : ℕ) (rank token : ℤ) : Pipeline :=
  let s := if user = ROOT then { s with rootNum := s.rootNum + 1 } else s
  s.addOperation ⟨.push, user, N, toInt rank, token⟩

/-- `AddPop`. -/
def addPop (user : ℕ) : Pipeline :=
  let s := if user = ROOT then
    { s with rootNum := s.rootNum - 1, startNum := s.startNum + 1 } else s
  s.addOperation ⟨.pop, user, N, 0, 0⟩

/-- `GetToken`, which answers -1 if there is nothing in the buffer.  There is no result where
`front` is called on an empty queue. -/
def getToken : Option (ℤ × Pipeline) :=
  if s.bufferNum = 0 then some (-1, s)
  else match s.buffer with
    | [] => none
    | tok :: rest => some (tok, { s with
        bufferNum := s.bufferNum - 1
        startNum := s.startNum - 1
        buffer := rest })

/-- `tree[user].pop()`, where `e` is on top. -/
def popTree (user : ℕ) (e : Pair) : Pipeline :=
  { s with tree := fun u => if u = user then (s.tree u).erase e else s.tree u }

/-- `buffer_num++, buffer.push(token)`. -/
def pushBuffer (token : ℤ) : Pipeline :=
  { s with bufferNum := s.bufferNum + 1, buffer := s.buffer ++ [token] }

/-- The statistics of `WakeUp` for RPU `i`: a pop in its first cycle takes the largest element
of its tree.  There is no result where `top` is called on an empty queue. -/
def execAt (i : ℕ) : Option Pipeline :=
  if (s.rpu i).Ready N then
    (s.tree (s.rpu i).root).max?.map fun e =>
      let s' := s.popTree (s.rpu i).root e
      if checkRealQueue e.second then s'.pushBuffer e.second else s'.addPop e.second.toNat
  else some s

/-- The trees after the operations that were sent. -/
def pushSent (sent : List (ℕ × Simulator.Task)) (tree : ℕ → List Pair) : ℕ → List Pair :=
  sent.foldl (fun tree x =>
    if x.2.type = .push then fun u => if u = x.2.root then entryOf x.2 :: tree u else tree u
    else tree) tree

/-- The ring and the trees after *pass down* and *send new operation*. -/
def advance (locked : ℕ → Bool) : Pipeline :=
  let r := ringStep N locked s.lists s.rpu
  { s with lists := r.lists, rpu := r.rpu, tree := pushSent r.sent s.tree }

/-- A root pop is started if the buffer is not going to be full. -/
def startPop : Pipeline :=
  if 0 < s.rootNum ∧ s.startNum < BUFFER_SIZE then s.addPop ROOT else s

/-- `WakeUp`, when the starvation logic has locked the RPUs in `locked`. -/
def wakeUp (locked : ℕ → Bool) : Option Pipeline :=
  ((List.range N).foldlM execAt s.startPop).map fun s => s.advance locked

end Pipeline

/-! ## What the queue discs push -/

/-- `IsHadoop`. -/
def isHadoop (tenant : ℕ) : Bool := decide (tenant / 10 < tenant % 10)

/-- The arguments of a call of `AddPush`. -/
structure PushCall where
  user : ℕ
  rank : ℤ
  token : ℤ

/-- The calls of `AddPush` in `vPIFO::DoEnqueue`, for a packet of this tenant.  The flow is the
one that `flow_map` has for the packet, which a Hadoop tenant does not ask for. -/
def vPIFOPushes (tenant : ℕ) (flowId rk1 rk2 rk3 rk4 : ℤ) : List PushCall :=
  let group := tenant / 10
  let typeId := 10 + group * 2 + (isHadoop tenant).toNat
  let tenantId := 100 + tenant
  [⟨ROOT, rk1, group⟩, ⟨group, rk2, typeId⟩, ⟨typeId, rk3, tenantId⟩] ++
    if isHadoop tenant then [] else [⟨tenantId, rk4, flowId⟩]

/-- The call of `AddPush` in `SimplePIFO::DoEnqueue`. -/
def simplePIFOPushes (tenant : ℕ) (flowId rank : ℤ) : List PushCall :=
  [⟨ROOT, rank, if isHadoop tenant then tenant + 100 else flowId⟩]

/-- Several calls of `AddPush`. -/
def Pipeline.addPushes (s : Pipeline) (ps : List PushCall) : Pipeline :=
  ps.foldl (fun s p => s.addPush p.user p.rank p.token) s

end Ns3

end VPifo
