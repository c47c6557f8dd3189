import VPifo.Compiler.WFQ
import VPifo.Lib.FluidClock

/-!
# `WFQ.cpp`: the account of the virtual clock

With rationals for the doubles, a `StrategyWFQ` object is the account of a fluid server:
`curWeightSum` is the sum of the weights in `outQueue`, and no packet in the queue has a
virtual departure before `virTime` (`Account`).  The loop of `updateVirTimeTo` takes the
packet with the first departure out and keeps the account (`departLoop_account`), the lines
after it take in the weight of the packet that comes, and `calWFQPriority` puts the packet
itself into the queue (`calWFQPriority_account`).  The weight sum that `getNextVirTime`
divides by is zero for an empty queue, and the loop asks for it only when there is a packet.

For one key, the finish tag that is remembered never falls (`serve_account`), so that a
later start tag is not before it.  Nothing here depends on the real clock, which is why
the results hold for any sequence of timestamps.
-/

namespace VPifo.Sdl

open FluidClock

section Departures

variable {F : Type} (D : Doubles F)

/-- A round of the loop of `updateVirTimeTo`. -/
def StrategyWFQ.depart (out : PacketOut F) (rest : List (PacketOut F)) (s : StrategyWFQ F) :
    StrategyWFQ F :=
  { s with
    outQueue := rest
    realTime := D.toLongLong (getNextRealTime D s.realTime s.virTime
      (D.toLongLong out.virDepartTime) s.curWeightSum)
    curWeightSum := D.sub s.curWeightSum out.flowWeight
    virTime := out.virDepartTime }

/-- The states in which the loop calls `getNextVirTime`: those with a packet in the queue. -/
def guardStates (nextRealTime : ℤ) : ℕ → StrategyWFQ F → List (StrategyWFQ F)
  | 0, _ => []
  | n + 1, s =>
    match topPop D s.outQueue with
    | none => []
    | some (out, rest) =>
      s ::
        if D.le out.virDepartTime
            (getNextVirTime D s.realTime s.virTime nextRealTime s.curWeightSum) then
          guardStates nextRealTime n (s.depart D out rest)
        else []

/-- Everything that a call divides by: the weight sum at every test of the loop, the weight
sum in the last line of `updateVirTimeTo`, and the weight. -/
def denominators (call : WFQCall) (weight : F) (s : StrategyWFQ F) : List F :=
  (guardStates D call.cycle s.outQueue.length s).map StrategyWFQ.curWeightSum ++
    [D.add (departLoop D call.cycle s.outQueue.length s).curWeightSum weight, weight]

/-- `virStartTime`, which `calWFQPriority` cuts to the start tag. -/
def virStartTime (call : WFQCall) (weight : F) (s : StrategyWFQ F) : F :=
  let s := updateVirTimeTo D call.cycle weight s
  match s.lastVirFinishTime call.key with
  | none => s.virTime
  | some finish => if D.lt s.virTime finish then finish else s.virTime

variable {D}

theorem topPop_eq_none {q : List (PacketOut F)} (htop : topPop D q = none) : q = [] := by
  cases q with
  | nil => rfl
  | cons out rest =>
    rw [topPop] at htop
    split at htop
    · simp at htop
    · split_ifs at htop

/-- The top of a queue is its first packet, or the top of the others when that departs before. -/
theorem topPop_cons {out top : PacketOut F} {q rest : List (PacketOut F)}
    (htop : topPop D (out :: q) = some (top, rest)) :
    (top = out ∧ rest = q ∧ ∀ top' rest', topPop D q = some (top', rest') →
      ¬D.lt top'.virDepartTime out.virDepartTime) ∨
    ∃ rest', topPop D q = some (top, rest') ∧ rest = out :: rest' ∧
      D.lt top.virDepartTime out.virDepartTime := by
  rw [topPop] at htop
  split at htop
  · next hnone =>
    obtain ⟨rfl, rfl⟩ := Prod.mk.inj (Option.some.inj htop)
    refine .inl ⟨rfl, (topPop_eq_none hnone).symm, fun top' rest' hsome => ?_⟩
    rw [hnone] at hsome
    exact absurd hsome (by simp)
  · next top' rest' hsome =>
    split_ifs at htop with hlt
    · obtain ⟨rfl, rfl⟩ := Prod.mk.inj (Option.some.inj htop)
      exact .inr ⟨rest', hsome, rfl, hlt⟩
    · obtain ⟨rfl, rfl⟩ := Prod.mk.inj (Option.some.inj htop)
      refine .inl ⟨rfl, rfl, fun top'' rest'' hsome' => ?_⟩
      rw [hsome] at hsome'
      obtain ⟨rfl, -⟩ := Prod.mk.inj (Option.some.inj hsome')
      exact hlt

/-- The packet on top and the packets below it are the queue. -/
theorem topPop_perm {q rest : List (PacketOut F)} {top : PacketOut F}
    (htop : topPop D q = some (top, rest)) : q.Perm (top :: rest) := by
  induction q generalizing top rest with
  | nil => simp [topPop] at htop
  | cons out q ih =>
    rcases topPop_cons htop with ⟨rfl, rfl, -⟩ | ⟨rest', hsome, rfl, -⟩
    · exact List.Perm.refl _
    · exact ((ih hsome).cons out).trans (List.Perm.swap top out rest')

/-- The loop leaves the weights and the finish tags alone. -/
theorem departLoop_frame (nextRealTime : ℤ) (n : ℕ) (s : StrategyWFQ F) :
    (departLoop D nextRealTime n s).weightTable = s.weightTable ∧
      (departLoop D nextRealTime n s).lastVirFinishTime = s.lastVirFinishTime := by
  induction n generalizing s with
  | zero => exact ⟨rfl, rfl⟩
  | succ n ih =>
    rw [departLoop]
    split
    · exact ⟨rfl, rfl⟩
    · split_ifs
      · exact ih _
      · exact ⟨rfl, rfl⟩

/-- A call that succeeds: the weight it finds, its start tag, and what it leaves. -/
theorem calWFQPriority_eq_some {call : WFQCall} {s s' : StrategyWFQ F} {tag : ℤ}
    (hcall : calWFQPriority D call s = some (tag, s')) :
    ∃ weight, s.weightTable call.key = some weight ∧ tag = D.toInt (virStartTime D call weight s) ∧
      s' = { updateVirTimeTo D call.cycle weight s with
        lastVirFinishTime :=
          Function.update (updateVirTimeTo D call.cycle weight s).lastVirFinishTime call.key
            (some (D.add (virStartTime D call weight s) (D.div (D.ofInt call.len) weight)))
        outQueue := (updateVirTimeTo D call.cycle weight s).outQueue ++
          [⟨D.add (virStartTime D call weight s) (D.div (D.ofInt call.len) weight), weight⟩] } := by
  rw [calWFQPriority] at hcall
  split at hcall
  · simp at hcall
  · rename_i weight hweight
    obtain ⟨rfl, rfl⟩ := Prod.mk.inj (Option.some.inj hcall)
    exact ⟨weight, hweight, rfl, rfl⟩

end Departures

/-! ## The account, in rationals -/

@[simp] theorem Doubles.rat_lt (x y : ℚ) : Doubles.rat.lt x y = true ↔ x < y := decide_eq_true_iff

@[simp] theorem Doubles.rat_le (x y : ℚ) : Doubles.rat.le x y = true ↔ x ≤ y := decide_eq_true_iff

/-- The first departure is on top. -/
theorem topPop_first {q rest : List (PacketOut ℚ)} {top : PacketOut ℚ}
    (htop : topPop Doubles.rat q = some (top, rest)) :
    ∀ out ∈ q, top.virDepartTime ≤ out.virDepartTime := by
  induction q generalizing top rest with
  | nil => simp
  | cons out q ih =>
    rcases topPop_cons htop with ⟨rfl, rfl, hfirst⟩ | ⟨rest', hsome, rfl, hlt⟩
    · refine List.forall_mem_cons.2 ⟨le_rfl, fun out hout => ?_⟩
      cases hsome : topPop Doubles.rat rest with
      | none =>
        rw [topPop_eq_none hsome] at hout
        exact absurd hout List.not_mem_nil
      | some r =>
        have hle := hfirst r.1 r.2 hsome
        rw [Doubles.rat_lt, not_lt] at hle
        exact hle.trans (ih hsome out hout)
    · exact List.forall_mem_cons.2 ⟨((Doubles.rat_lt _ _).1 hlt).le, ih hsome⟩

/-- The state is the account of a fluid server. -/
def Account (s : StrategyWFQ ℚ) : Prop :=
  Steady PacketOut.virDepartTime PacketOut.flowWeight s.curWeightSum s.virTime s.outQueue

theorem Account.depart {s : StrategyWFQ ℚ} (hs : Account s) {top : PacketOut ℚ}
    {rest : List (PacketOut ℚ)} (htop : topPop Doubles.rat s.outQueue = some (top, rest)) :
    Account (s.depart Doubles.rat top rest) ∧ s.virTime ≤ top.virDepartTime := by
  have hperm := topPop_perm htop
  exact ⟨hs.first hperm (topPop_first htop), hs.le_depart top (hperm.mem_iff.2 List.mem_cons_self)⟩

/-- **The loop keeps the account.**  The virtual time does not fall, and the weight sum is
positive wherever the loop divides by it. -/
theorem departLoop_account (nextRealTime : ℤ) (n : ℕ) {s : StrategyWFQ ℚ} (hs : Account s) :
    Account (departLoop Doubles.rat nextRealTime n s) ∧
      s.virTime ≤ (departLoop Doubles.rat nextRealTime n s).virTime ∧
      ∀ t ∈ guardStates Doubles.rat nextRealTime n s, 0 < t.curWeightSum := by
  induction n generalizing s with
  | zero => exact ⟨hs, le_rfl, by simp [guardStates]⟩
  | succ n ih =>
    rw [departLoop, guardStates]
    cases htop : topPop Doubles.rat s.outQueue with
    | none => exact ⟨hs, le_rfl, by simp⟩
    | some r =>
      obtain ⟨top, rest⟩ := r
      have hne : s.outQueue ≠ [] := by
        intro hempty
        simp [hempty, topPop] at htop
      obtain ⟨hdepart, hle⟩ := hs.depart htop
      obtain ⟨haccount, hmono, hpos⟩ := ih hdepart
      dsimp only
      split_ifs
      · exact ⟨haccount, hle.trans hmono, List.forall_mem_cons.2 ⟨hs.pos hne, hpos⟩⟩
      · exact ⟨hs, le_rfl, List.forall_mem_cons.2 ⟨hs.pos hne, by simp⟩⟩

/-- The last line of `updateVirTimeTo` adds nothing to the virtual time that the loop
leaves: the real time is that of the packet already. -/
theorem updateVirTimeTo_virTime (nextRealTime : ℤ) (weight : ℚ) (s : StrategyWFQ ℚ) :
    (updateVirTimeTo Doubles.rat nextRealTime weight s).virTime =
      (departLoop Doubles.rat nextRealTime s.outQueue.length s).virTime := by
  simp [updateVirTimeTo, getNextVirTime, Doubles.rat]

/-- The start tag is not before the virtual time and not before the finish tag that is
remembered. -/
theorem le_virStartTime (call : WFQCall) (weight : ℚ) (s : StrategyWFQ ℚ) :
    (updateVirTimeTo Doubles.rat call.cycle weight s).virTime ≤
        virStartTime Doubles.rat call weight s ∧
      ∀ finish, s.lastVirFinishTime call.key = some finish →
        finish ≤ virStartTime Doubles.rat call weight s := by
  have hframe : (updateVirTimeTo Doubles.rat call.cycle weight s).lastVirFinishTime =
      s.lastVirFinishTime := (departLoop_frame _ _ s).2
  rw [virStartTime, hframe]
  cases hlast : s.lastVirFinishTime call.key with
  | none => exact ⟨le_rfl, by simp⟩
  | some finish =>
    simp only [Option.some.injEq, forall_eq']
    simp only [Doubles.rat_lt]
    split_ifs with hlt
    · exact ⟨hlt.le, le_rfl⟩
    · exact ⟨le_rfl, not_lt.1 hlt⟩

/-- The weights that the calls look up are positive. -/
def PositiveWeights (weightTable : String → Option ℚ) : Prop :=
  ∀ key weight, weightTable key = some weight → 0 < weight

/-- **One call.**  It keeps the account, divides by nothing but positive numbers, does not
turn the virtual time back, and remembers a finish tag one packet after the start tag. -/
theorem calWFQPriority_account {call : WFQCall} {s s' : StrategyWFQ ℚ} {tag : ℤ} {weight : ℚ}
    (hs : Account s) (hpos : 0 < weight) (hweight : s.weightTable call.key = some weight)
    (hcall : calWFQPriority Doubles.rat call s = some (tag, s')) :
    Account s' ∧ (∀ x ∈ denominators Doubles.rat call weight s, 0 < x) ∧
      s.virTime ≤ s'.virTime ∧ s'.weightTable = s.weightTable ∧
      tag = Doubles.rat.toInt (virStartTime Doubles.rat call weight s) ∧
      s'.lastVirFinishTime = Function.update s.lastVirFinishTime call.key
        (some (virStartTime Doubles.rat call weight s + call.len / weight)) := by
  obtain ⟨weight', hweight', rfl, rfl⟩ := calWFQPriority_eq_some hcall
  obtain rfl := Option.some.inj (hweight.symm.trans hweight')
  obtain ⟨hloop, hmono, hguards⟩ := departLoop_account call.cycle s.outQueue.length hs
  obtain ⟨hframe, hframe'⟩ := departLoop_frame (D := Doubles.rat) call.cycle s.outQueue.length s
  have hvir := updateVirTimeTo_virTime call.cycle weight s
  have hsum : 0 ≤ (departLoop Doubles.rat call.cycle s.outQueue.length s).curWeightSum := by
    rw [hloop.sum_eq]
    refine List.sum_nonneg fun x hx => ?_
    obtain ⟨out, hout, rfl⟩ := List.mem_map.1 hx
    exact (hloop.weight_pos out hout).le
  have hfinish : (updateVirTimeTo Doubles.rat call.cycle weight s).virTime ≤
      virStartTime Doubles.rat call weight s + call.len / weight :=
    (le_virStartTime call weight s).1.trans (le_add_of_nonneg_right (by positivity))
  refine ⟨?_, ?_, hmono.trans hvir.ge, hframe, rfl, ?_⟩
  · rw [hvir] at hfinish
    have harrive := hloop.arrive (i := ⟨virStartTime Doubles.rat call weight s + call.len / weight,
      weight⟩) hpos hfinish
    rw [← hvir] at harrive
    exact harrive
  · rw [denominators, List.forall_mem_append]
    refine ⟨List.forall_mem_map.2 hguards, List.forall_mem_cons.2
      ⟨add_pos_of_nonneg_of_pos hsum hpos, List.forall_mem_singleton.2 hpos⟩⟩
  · exact congrArg (fun m => Function.update m call.key _) hframe'

/-- The first of a sequence of calls. -/
theorem exists_of_serve_cons {F : Type} {D : Doubles F} {s s' : StrategyWFQ F} {call : WFQCall}
    {calls : List WFQCall} {tags : List ℤ} (hserve : serve D s (call :: calls) = some (tags, s')) :
    ∃ tag s₁ tags₁, calWFQPriority D call s = some (tag, s₁) ∧
      serve D s₁ calls = some (tags₁, s') := by
  obtain ⟨⟨tag, s₁⟩, hcall, hmap⟩ := Option.bind_eq_some_iff.1 hserve
  obtain ⟨⟨tags₁, s₂⟩, hcalls, heq⟩ := Option.map_eq_some_iff.1 hmap
  obtain ⟨-, rfl⟩ := Prod.mk.inj heq
  exact ⟨tag, s₁, tags₁, hcall, hcalls⟩

/-- A sequence of calls in two parts. -/
theorem exists_of_serve_append {F : Type} {D : Doubles F} {s s' : StrategyWFQ F}
    {xs ys : List WFQCall} {tags : List ℤ} (hserve : serve D s (xs ++ ys) = some (tags, s')) :
    ∃ s₀ tags₀ tags₁, serve D s xs = some (tags₀, s₀) ∧ serve D s₀ ys = some (tags₁, s') := by
  induction xs generalizing s tags with
  | nil => exact ⟨s, [], tags, rfl, hserve⟩
  | cons call xs ih =>
    obtain ⟨tag, s₁, tags₂, hcall, hcalls⟩ := exists_of_serve_cons hserve
    obtain ⟨s₀, tags₀, tags₁, hxs, hys⟩ := ih hcalls
    refine ⟨s₀, tag :: tags₀, tags₁, ?_, hys⟩
    rw [serve, hcall, Option.bind_some, hxs]
    rfl

/-- **A sequence of calls** keeps the account and the weights, and lets no finish tag
fall. -/
theorem serve_account {calls : List WFQCall} {s s' : StrategyWFQ ℚ} {tags : List ℤ}
    (hpos : PositiveWeights s.weightTable) (hs : Account s)
    (hserve : serve Doubles.rat s calls = some (tags, s')) :
    Account s' ∧ s'.weightTable = s.weightTable ∧
      ∀ key finish, s.lastVirFinishTime key = some finish →
        ∃ finish', s'.lastVirFinishTime key = some finish' ∧ finish ≤ finish' := by
  induction calls generalizing s tags with
  | nil =>
    obtain ⟨-, rfl⟩ := Prod.mk.inj (Option.some.inj hserve)
    exact ⟨hs, rfl, fun key finish hfinish => ⟨finish, hfinish, le_rfl⟩⟩
  | cons call calls ih =>
    obtain ⟨tag, s₁, tags₁, hcall, hcalls⟩ := exists_of_serve_cons hserve
    obtain ⟨weight, hweight, -⟩ := calWFQPriority_eq_some hcall
    have hweightPos := hpos call.key weight hweight
    obtain ⟨hs₁, -, -, htable, -, hlast⟩ := calWFQPriority_account hs hweightPos hweight hcall
    obtain ⟨hs₂, htable', hfinish'⟩ := ih (by rwa [htable]) hs₁ hcalls
    refine ⟨hs₂, htable'.trans htable, fun key finish hfinish => ?_⟩
    -- after the call the tag of this key is no earlier
    obtain ⟨finish₁, hfinish₁, hle⟩ :
        ∃ finish₁, s₁.lastVirFinishTime key = some finish₁ ∧ finish ≤ finish₁ := by
      rw [hlast]
      by_cases hkey : key = call.key
      · subst hkey
        refine ⟨_, Function.update_self _ _ _, ?_⟩
        have hstart := (le_virStartTime call weight s).2 finish hfinish
        exact hstart.trans (le_add_of_nonneg_right (by positivity))
      · exact ⟨finish, by rw [Function.update_of_ne hkey, hfinish], le_rfl⟩
    obtain ⟨finish₂, hfinish₂, hle'⟩ := hfinish' key finish₁ hfinish₁
    exact ⟨finish₂, hfinish₂, hle.trans hle'⟩

/-- A new object with the weights of a program. -/
def newWFQ (weightTable : String → Option ℚ) : StrategyWFQ ℚ :=
  { StrategyWFQ.new Doubles.rat with weightTable := weightTable }

theorem account_newWFQ (weightTable : String → Option ℚ) : Account (newWFQ weightTable) :=
  ⟨rfl, List.forall_mem_nil _, List.forall_mem_nil _⟩

/-- **The bookkeeping of a fair queue.**  With rationals for the doubles, for all positive
weights, every sequence of calls of any keys, cycles and lengths on a new object and every
call after it: the weight sum is the sum of the weights in the queue, everything the call
divides by is positive, the virtual time has not fallen and has passed no departure in the
queue, and the start tag, which is returned cut to an `int`, is at least the start tag of
every earlier packet with this key plus its length over the weight. -/
theorem wfq_bookkeeping (weightTable : String → Option ℚ) (hpos : PositiveWeights weightTable)
    (calls : List WFQCall) (tags : List ℤ) (s : StrategyWFQ ℚ)
    (hserve : serve Doubles.rat (newWFQ weightTable) calls = some (tags, s)) (call : WFQCall)
    (tag : ℤ) (s' : StrategyWFQ ℚ) (hcall : calWFQPriority Doubles.rat call s = some (tag, s')) :
    ∃ weight, weightTable call.key = some weight ∧
      s'.curWeightSum = (s'.outQueue.map PacketOut.flowWeight).sum ∧
      (∀ x ∈ denominators Doubles.rat call weight s, 0 < x) ∧
      s.virTime ≤ s'.virTime ∧ (∀ out ∈ s'.outQueue, s'.virTime ≤ out.virDepartTime) ∧
      tag = Doubles.rat.toInt (virStartTime Doubles.rat call weight s) ∧
      ∀ pre prev mid, calls = pre ++ prev :: mid → prev.key = call.key →
        ∃ tags₀ s₀, serve Doubles.rat (newWFQ weightTable) pre = some (tags₀, s₀) ∧
          virStartTime Doubles.rat prev weight s₀ + prev.len / weight ≤
            virStartTime Doubles.rat call weight s := by
  have hnew := account_newWFQ weightTable
  obtain ⟨hs, htable, -⟩ := serve_account (s := newWFQ weightTable) hpos hnew hserve
  obtain ⟨weight, hweight, -⟩ := calWFQPriority_eq_some hcall
  have hweight' : weightTable call.key = some weight := by rw [← hweight, htable]; rfl
  obtain ⟨hs', hdenominators, hmono, -, htag, -⟩ :=
    calWFQPriority_account hs (hpos call.key weight hweight') hweight hcall
  refine ⟨weight, hweight', hs'.sum_eq, hdenominators, hmono, hs'.le_depart, htag, ?_⟩
  rintro pre prev mid rfl hkey
  obtain ⟨s₀, tags₀, tags₁, hpre, hrest⟩ := exists_of_serve_append hserve
  obtain ⟨hs₀, htable₀, -⟩ := serve_account (s := newWFQ weightTable) hpos hnew hpre
  obtain ⟨tag₁, s₁, tags₂, hprev, hmid⟩ := exists_of_serve_cons hrest
  have hweight₀ : s₀.weightTable prev.key = some weight := by rw [htable₀, hkey]; exact hweight'
  obtain ⟨hs₁, -, -, htable₁, -, hlast⟩ :=
    calWFQPriority_account hs₀ (hpos call.key weight hweight') hweight₀ hprev
  -- the finish tag of the earlier packet is remembered, and has not fallen since
  obtain ⟨-, -, hfinish⟩ := serve_account (by rw [htable₁, htable₀]; exact hpos) hs₁ hmid
  obtain ⟨finish, hfinish, hle⟩ := hfinish call.key
    (virStartTime Doubles.rat prev weight s₀ + prev.len / weight) (by
      rw [hlast, hkey, Function.update_self])
  exact ⟨tags₀, s₀, hpre, hle.trans ((le_virStartTime call weight _).2 finish hfinish)⟩

/-- Two packets of 100 bytes of a flow with weight 2: the second starts 50 later. -/
theorem wfq_bookkeeping_two :
    ∃ tags s, serve Doubles.rat (newWFQ fun _ => some 2) [⟨"f", 5, 100⟩] = some (tags, s) ∧
      50 ≤ virStartTime Doubles.rat ⟨"f", 7, 100⟩ 2 s := by
  have hpos : PositiveWeights fun _ => some 2 := by
    intro key weight hweight
    obtain rfl := Option.some.inj hweight
    exact two_pos
  obtain ⟨⟨tags, s⟩, hserve⟩ := Option.isSome_iff_exists.1
    (rfl : (serve Doubles.rat (newWFQ fun _ => some 2) [⟨"f", 5, 100⟩]).isSome = true)
  have htable : s.weightTable = fun _ => some 2 :=
    (serve_account (s := newWFQ fun _ => some 2) hpos (account_newWFQ _) hserve).2.1
  obtain ⟨⟨tag, s'⟩, hcall⟩ : ∃ r, calWFQPriority Doubles.rat ⟨"f", 7, 100⟩ s = some r := by
    rw [calWFQPriority, htable]
    exact ⟨_, rfl⟩
  obtain ⟨weight, hweight, -, -, -, -, -, hstart⟩ :=
    wfq_bookkeeping (fun _ => some 2) hpos _ _ s hserve ⟨"f", 7, 100⟩ tag s' hcall
  obtain rfl := Option.some.inj hweight
  obtain ⟨tags₀, s₀, hpre, hle⟩ := hstart [] ⟨"f", 5, 100⟩ [] rfl rfl
  obtain ⟨-, rfl⟩ := Prod.mk.inj (Option.some.inj hpre)
  have hzero : virStartTime Doubles.rat ⟨"f", 5, 100⟩ 2 (newWFQ fun _ => some 2) = 0 := by
    decide +kernel
  rw [hzero] at hle
  exact ⟨tags, s, hserve, le_trans (by norm_num) hle⟩

end VPifo.Sdl
