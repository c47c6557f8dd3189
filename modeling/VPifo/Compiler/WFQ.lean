import Mathlib.Algebra.Order.Ring.Unbundled.Rat
import Mathlib.Logic.Function.Basic
import Mathlib.Tactic.Ring

/-!
# `WFQ.cpp`: the virtual clock of a fair queue

A `StrategyWFQ` object keeps a virtual time that runs at a speed given by the weights of
the packets still in the queue it imagines.  `updateVirTimeTo` moves the clock to a real
time, taking the packets out of the queue whose virtual departure is reached on the way;
`calWFQPriority` gives a packet its start tag, the later of the virtual time and the
finish tag of the packet before it under the same key, and cuts it to an `int`.

The arithmetic is the machine's `double` arithmetic, which is a parameter (`Doubles`):
the definitions are those of the source, operation by operation and conversion by
conversion, over any type of numbers with such operations.  `Doubles.rat` is the exact
reading, with rationals and conversions that cut toward zero.
-/

namespace VPifo.Sdl

/-- The operations on `double` that the compiler uses.  `toLongLong` and `toInt` are the
conversions of an assignment to `long long` and of a cast to `int`. -/
structure Doubles (F : Type) where
  ofInt : ℤ → F
  add : F → F → F
  sub : F → F → F
  mul : F → F → F
  div : F → F → F
  lt : F → F → Bool
  le : F → F → Bool
  toLongLong : F → ℤ
  toInt : F → ℤ

/-- Exact arithmetic: rationals, cut toward zero. -/
def Doubles.rat : Doubles ℚ where
  ofInt n := n
  add := (· + ·)
  sub := (· - ·)
  mul := (· * ·)
  div := (· / ·)
  lt x y := decide (x < y)
  le x y := decide (x ≤ y)
  toLongLong x := x.num.tdiv x.den
  toInt x := x.num.tdiv x.den

/-- `packetOut`. -/
structure PacketOut (F : Type) where
  virDepartTime : F
  flowWeight : F

/-- `StrategyWFQ_`. -/
structure StrategyWFQ (F : Type) where
  weightTable : String → Option F
  curWeightSum : F
  virTime : F
  realTime : ℤ
  lastVirFinishTime : String → Option F
  outQueue : List (PacketOut F)

section Clock

variable {F : Type} (D : Doubles F)

/-- `SchedStrategyWFQ()`: a new object. -/
def StrategyWFQ.new : StrategyWFQ F where
  weightTable _ := none
  curWeightSum := D.ofInt 0
  virTime := D.ofInt 0
  realTime := 0
  lastVirFinishTime _ := none
  outQueue := []

/-- `getNextVirTime`. -/
def getNextVirTime (curRealTime : ℤ) (curVirTime : F) (nextRealTime : ℤ) (curWeightSum : F) : F :=
  D.add curVirTime (D.div (D.ofInt (nextRealTime - curRealTime)) curWeightSum)

/-- `getNextRealTime`; the virtual time arrives as a `long long`. -/
def getNextRealTime (curRealTime : ℤ) (curVirTime : F) (nextVirTime : ℤ) (curWeightSum : F) : F :=
  D.add (D.ofInt curRealTime) (D.mul (D.sub (D.ofInt nextVirTime) curVirTime) curWeightSum)

/-- The packet at the top of the queue, one that departs first, and the packets left when
it is taken out.  The library leaves open which of several that depart together is on top;
here it is the one that came first. -/
def topPop : List (PacketOut F) → Option (PacketOut F × List (PacketOut F))
  | [] => none
  | out :: rest =>
    match topPop rest with
    | none => some (out, [])
    | some (top, rest') =>
      if D.lt top.virDepartTime out.virDepartTime then some (top, out :: rest')
      else some (out, rest)

/-- The loop of `updateVirTimeTo`.  A round takes one packet out, so the length of the
queue is enough rounds. -/
def departLoop (nextRealTime : ℤ) : ℕ → StrategyWFQ F → StrategyWFQ F
  | 0, s => s
  | n + 1, s =>
    match topPop D s.outQueue with
    | none => s
    | some (out, rest) =>
      if D.le out.virDepartTime
          (getNextVirTime D s.realTime s.virTime nextRealTime s.curWeightSum) then
        departLoop nextRealTime n
          { s with
            outQueue := rest
            realTime := D.toLongLong (getNextRealTime D s.realTime s.virTime
              (D.toLongLong out.virDepartTime) s.curWeightSum)
            curWeightSum := D.sub s.curWeightSum out.flowWeight
            virTime := out.virDepartTime }
      else s

/-- `updateVirTimeTo`.  The last line reads the real time that the line before the last
but one has set. -/
def updateVirTimeTo (nextRealTime : ℤ) (newFlowWeight : F) (s : StrategyWFQ F) :
    StrategyWFQ F :=
  let s := departLoop D nextRealTime s.outQueue.length s
  let curWeightSum := D.add s.curWeightSum newFlowWeight
  { s with
    realTime := nextRealTime
    curWeightSum := curWeightSum
    virTime := getNextVirTime D nextRealTime s.virTime nextRealTime curWeightSum }

/-- What a packet brings to the object: the key of its flow or child, its cycle and its
length. -/
structure WFQCall where
  key : String
  cycle : ℤ
  len : ℕ

/-- The body that `calWFQLeafPriority` and `calWFQNonLeafPriority` share, for a key that
the one takes from the flow and the other from the child.  `none` is the failing
assertion that the key has a weight. -/
def calWFQPriority (call : WFQCall) (s : StrategyWFQ F) : Option (ℤ × StrategyWFQ F) :=
  match s.weightTable call.key with
  | none => none
  | some weight =>
    let s := updateVirTimeTo D call.cycle weight s
    let virStartTime :=
      match s.lastVirFinishTime call.key with
      | none => s.virTime
      | some finish => if D.lt s.virTime finish then finish else s.virTime
    let virFinishTime := D.add virStartTime (D.div (D.ofInt call.len) weight)
    some (D.toInt virStartTime,
      { s with
        lastVirFinishTime :=
          Function.update s.lastVirFinishTime call.key (some virFinishTime)
        outQueue := s.outQueue ++ [⟨virFinishTime, weight⟩] })

/-- `calWFQLeafPriority`. -/
def calWFQLeafPriority (flowId : String) (cycle : ℤ) (len : ℕ) (s : StrategyWFQ F) :
    Option (ℤ × StrategyWFQ F) := calWFQPriority D ⟨flowId, cycle, len⟩ s

/-- `calWFQNonLeafPriority`. -/
def calWFQNonLeafPriority (nodeId : ℤ) (cycle : ℤ) (len : ℕ) (s : StrategyWFQ F) :
    Option (ℤ × StrategyWFQ F) := calWFQPriority D ⟨toString nodeId, cycle, len⟩ s

/-- What an object does with a sequence of calls: the start tags, and what becomes of the
object.  `none` if one of the keys has no weight. -/
def serve (s : StrategyWFQ F) : List WFQCall → Option (List ℤ × StrategyWFQ F)
  | [] => some ([], s)
  | call :: calls =>
    (calWFQPriority D call s).bind fun r =>
      (serve r.2 calls).map fun rest => (r.1 :: rest.1, rest.2)

/-- The start tags that an object gives to a sequence of calls. -/
def startTags (s : StrategyWFQ F) (calls : List WFQCall) : List ℤ :=
  ((serve D s calls).map Prod.fst).getD []

variable {D}

/-- One sequence of calls after another. -/
theorem serve_append {s s' s'' : StrategyWFQ F} {xs ys : List WFQCall} {tags tags' : List ℤ}
    (hx : serve D s xs = some (tags, s')) (hy : serve D s' ys = some (tags', s'')) :
    serve D s (xs ++ ys) = some (tags ++ tags', s'') := by
  induction xs generalizing s tags with
  | nil =>
    obtain ⟨rfl, rfl⟩ := Prod.mk.inj (Option.some.inj hx)
    exact hy
  | cons call xs ih =>
    obtain ⟨⟨tag, s₁⟩, hcall, hrest⟩ := Option.bind_eq_some_iff.1 hx
    obtain ⟨⟨tags₁, s₂⟩, hserve, heq⟩ := Option.map_eq_some_iff.1 hrest
    obtain ⟨rfl, rfl⟩ := Prod.mk.inj heq
    rw [List.cons_append, serve, hcall, Option.bind_some, ih hserve]
    rfl

theorem startTags_eq {s s' : StrategyWFQ F} {calls : List WFQCall} {tags : List ℤ}
    (h : serve D s calls = some (tags, s')) : startTags D s calls = tags := by
  rw [startTags, h]
  rfl

end Clock

end VPifo.Sdl
