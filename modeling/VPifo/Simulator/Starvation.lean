import VPifo.Reference.Tree
import VPifo.Simulator.Ring

/-!
# The anti-starvation mechanism

A task list whose first task has waited for more than `S` cycles becomes the `beggar`, and the
simulators lock RPUs that stand before the beggar's until the task can be sent.  A push needs
one free RPU, a pop needs the RPU before it as well.  `scan` is the search for the RPUs to
lock: it walks around the ring backwards from the beggar, and is meant to stop where one RPU,
or two neighbours, are locked already or will be free when a task from there gets to the
beggar.

That is not what the test in the loop says.  `||` and `<=` bind tighter than `?:`, so

    locked[j] || RPU[j].TTL <= (j < beggar) ? (beggar - j) : (beggar + N - j)

compares the `TTL` with a truth value and then is true whatever the comparison gives, unless `j`
is the beggar itself.  The scan therefore takes the first RPUs it looks at; and for the beggar 0
the first one is number -1.  `scan_suitable_iff` says what remains.
-/

namespace VPifo

namespace Simulator

open Cyclic

/-! ## The scan -/

/-- The variables of the scan.  The previous index `k` has no value at first. -/
structure Scan where
  j : ℤ
  k : Option ℤ
  flagNt : ℕ

/-- How a round of the scan ends. -/
inductive ScanEnd where
  /-- An index is out of range, or `k` is read and has no value. -/
  | undefined
  /-- These positions are locked, and `need_pos` becomes 0. -/
  | locks (positions : List ℤ)
  /-- The scan has come back to the beggar. -/
  | stops
  | goesOn (s : Scan)

/-- `need_pos` at the beginning: a pop needs two RPUs. -/
def needPos (type : OpType) : ℕ := if type = .pop then 2 else 1

section Scan

variable (N b need : ℕ) (rpu : ℕ → Task) (locked : ℕ → Bool)

/-- The value of the condition for RPU `j`, in the way C++ reads it. -/
def scanValue (j : ℤ) : ℤ :=
  if locked j.toNat = true ∨ (rpu j.toNat).TTL ≤ (if j < b then 1 else 0) then b - j
  else b + N - j

/-- One round of the scan. -/
def scanRound (s : Scan) : ScanEnd :=
  if s.j < 0 ∨ N ≤ s.j then .undefined
  else
    let flagLast := s.flagNt
    let flagNt := if scanValue N b rpu locked s.j ≠ 0 then 1 else 0
    if flagNt + flagLast = need then
      if need = 2 then
        match s.k with
        | none => .undefined
        | some k => .locks [s.j, k]
      else .locks [s.j]
    -- the ns-3 version has a test for `need_pos == 0` here, which is never true
    else if s.j = b then .stops
    else .goesOn ⟨(if s.j = 0 then (N : ℤ) else s.j) - 1, some s.j, flagNt⟩

/-- The scan for at most `n` rounds. -/
def scanFor : ℕ → Scan → Option ScanEnd
  | 0, _ => none
  | n + 1, s =>
    match scanRound N b need rpu locked s with
    | .goesOn s' => scanFor n s'
    | e => some e

/-- Where the scan for the beggar `b` begins. -/
def scanStart : Scan := ⟨b - 1, none, 0⟩

end Scan

/-! ## What it should do -/

/-- How far a task at RPU `j` has to go to the beggar. -/
def distance (N b : ℕ) (j : ℤ) : ℤ := if j < b then b - j else b + N - j

/-- RPU `j` is locked, or free when a task from there gets to the beggar. -/
def Suitable (N b : ℕ) (rpu : ℕ → Task) (locked : ℕ → Bool) (j : ℤ) : Prop :=
  locked j.toNat = true ∨ (rpu j.toNat).TTL ≤ distance N b j

/-- The scan comes to an end inside the arrays, all RPUs it locks are suitable, and for a pop
they are two neighbours. -/
def ScanGood (N b : ℕ) (type : OpType) (rpu : ℕ → Task) (locked : ℕ → Bool) : Prop :=
  ∃ n e, scanFor N b (needPos type) rpu locked n (scanStart b) = some e ∧
    (e = .stops ∨ ∃ positions, e = .locks positions ∧
      (∀ j ∈ positions, 0 ≤ j ∧ j < N ∧ Suitable N b rpu locked j) ∧
      (type = .pop → ∃ j : ℕ, positions = [(j : ℤ), ((j + 1) % N : ℕ)]))

section Rounds

variable {N b : ℕ} {rpu : ℕ → Task} {locked : ℕ → Bool}

/-- **The condition is true** for every RPU but the beggar's own. -/
theorem scanValue_ne_zero {j : ℤ} (hj : j < N) (h : j ≠ b) :
    scanValue N b rpu locked j ≠ 0 := by
  rw [scanValue]
  split <;> omega

/-- For the beggar's own RPU it is true when that is in use and not locked. -/
theorem scanValue_self (hN : 0 < N) : scanValue N b rpu locked b ≠ 0 ↔
    ¬(locked b = true ∨ (rpu b).TTL ≤ 0) := by
  rw [scanValue, Int.toNat_natCast, if_neg (lt_irrefl (b : ℤ))]
  split
  · next h => exact iff_of_false (by omega) (not_not.mpr h)
  · next h => exact iff_of_true (by omega) h

/-- The scan has one end. -/
theorem scanFor_add {need n : ℕ} {s : Scan} {e : ScanEnd}
    (h : scanFor N b need rpu locked n s = some e) (m : ℕ) :
    scanFor N b need rpu locked (n + m) s = some e := by
  induction n generalizing s with
  | zero => exact absurd h (by simp [scanFor])
  | succ n ih =>
    rw [Nat.add_right_comm, scanFor]
    rw [scanFor] at h
    cases hround : scanRound N b need rpu locked s with
    | goesOn s' =>
      rw [hround] at h
      exact ih h
    | undefined | locks | stops =>
      rw [hround] at h
      exact h

/-- Positions are indices, as long as the scan is inside the arrays. -/
theorem cast_prev_prev (hb : b < N) (hb0 : b ≠ 0) :
    (if (b : ℤ) - 1 = 0 then (N : ℤ) else (b : ℤ) - 1) - 1 = (prev N (prev N b) : ℕ) := by
  unfold prev
  split_ifs <;> omega

theorem cast_prev (hb0 : b ≠ 0) : (b : ℤ) - 1 = (prev N b : ℕ) := by
  unfold prev
  rw [if_neg hb0]
  omega

variable (rpu locked) in
/-- The beggar 0 has no RPU before it. -/
theorem scanFor_zero (need n : ℕ) :
    scanFor N 0 need rpu locked (n + 1) (scanStart 0) = some .undefined := by
  have hround : scanRound N 0 need rpu locked (scanStart 0) = .undefined :=
    if_pos (Or.inl (by decide))
  rw [scanFor, hround]

variable (rpu locked) in
/-- The first RPU is taken for a push. -/
theorem scanFor_push (hb : b < N) (hb0 : b ≠ 0) (n : ℕ) :
    scanFor N b 1 rpu locked (n + 1) (scanStart b) = some (.locks [(prev N b : ℕ)]) := by
  have hvalue : scanValue N b rpu locked ((b : ℤ) - 1) ≠ 0 :=
    scanValue_ne_zero (by omega) (by omega)
  have hround : scanRound N b 1 rpu locked (scanStart b) = .locks [(prev N b : ℕ)] := by
    rw [scanRound, scanStart, if_neg (by dsimp only; omega)]
    dsimp only
    rw [if_pos hvalue, if_pos rfl, if_neg (by decide), cast_prev hb0]
  rw [scanFor, hround]

variable (rpu locked) in
/-- For a pop the scan goes on to the RPU before, and takes both, unless that one is the beggar's
own and the condition is false there. -/
theorem scanFor_pop (hb : b < N) (hb0 : b ≠ 0) (n : ℕ) :
    scanFor N b 2 rpu locked (n + 2) (scanStart b) = some
      (if prev N (prev N b) = b ∧ (locked b = true ∨ (rpu b).TTL ≤ 0) then .stops
        else .locks [(prev N (prev N b) : ℕ), (prev N b : ℕ)]) := by
  have hq : prev N (prev N b) < N := prev_lt (prev_lt hb)
  have hvalue : scanValue N b rpu locked ((b : ℤ) - 1) ≠ 0 :=
    scanValue_ne_zero (by omega) (by omega)
  have hfirst : scanRound N b 2 rpu locked (scanStart b) =
      .goesOn ⟨(prev N (prev N b) : ℕ), some (prev N b : ℕ), 1⟩ := by
    rw [scanRound, scanStart, if_neg (by dsimp only; omega)]
    dsimp only
    rw [if_pos hvalue, if_neg (by decide), if_neg (by omega), cast_prev_prev hb hb0, cast_prev hb0]
  have hsecond : scanRound N b 2 rpu locked ⟨(prev N (prev N b) : ℕ), some (prev N b : ℕ), 1⟩ =
      if prev N (prev N b) = b ∧ (locked b = true ∨ (rpu b).TTL ≤ 0) then .stops
        else .locks [(prev N (prev N b) : ℕ), (prev N b : ℕ)] := by
    rw [scanRound, if_neg (by dsimp only; omega)]
    dsimp only
    by_cases hself : prev N (prev N b) = b
    · rw [hself]
      by_cases hfree : locked b = true ∨ (rpu b).TTL ≤ 0
      · rw [if_neg fun h => (scanValue_self (by omega)).mp h hfree, if_neg (by decide),
          if_pos rfl, if_pos ⟨rfl, hfree⟩]
      · rw [if_pos ((scanValue_self (by omega)).mpr hfree), if_pos rfl, if_pos rfl,
          if_neg fun h => hfree h.2]
    · rw [if_pos (scanValue_ne_zero (by omega) (by omega)), if_pos rfl, if_pos rfl,
        if_neg fun h => hself h.1]
  rw [scanFor, hfirst]
  dsimp only
  rw [scanFor, hsecond]
  split_ifs <;> rfl

variable (rpu locked) in
/-- The RPU before the beggar's is one step away. -/
theorem suitable_prev (hb0 : b ≠ 0) : Suitable N b rpu locked (prev N b : ℕ) ↔
    locked (prev N b) = true ∨ (rpu (prev N b)).TTL ≤ 1 := by
  have hd : distance N b (prev N b : ℕ) = 1 := by
    rw [← cast_prev hb0, distance, if_pos (by omega)]
    omega
  rw [Suitable, hd, Int.toNat_natCast]

variable (rpu locked) in
/-- The one before that is two steps away. -/
theorem suitable_prev_prev (hb : b < N) (hb0 : b ≠ 0) :
    Suitable N b rpu locked (prev N (prev N b) : ℕ) ↔
      locked (prev N (prev N b)) = true ∨ (rpu (prev N (prev N b))).TTL ≤ 2 := by
  have hd : distance N b (prev N (prev N b) : ℕ) = 2 := by
    rw [← cast_prev_prev hb hb0, distance]
    split_ifs <;> omega
  rw [Suitable, hd, Int.toNat_natCast]

/-- When the scan stops without a lock, which takes a ring of two RPUs. -/
def Stops (N b : ℕ) (type : OpType) (rpu : ℕ → Task) (locked : ℕ → Bool) : Prop :=
  type = .pop ∧ prev N (prev N b) = b ∧ (locked b = true ∨ (rpu b).TTL ≤ 0)

/-- There is nothing good about the scan for the beggar 0. -/
theorem not_scanGood_zero {type : OpType} : ¬ScanGood N 0 type rpu locked := by
  rintro ⟨n, e, hscan, hend⟩
  have hscan' := scanFor_add hscan 1
  rw [scanFor_zero, Option.some.injEq] at hscan'
  subst hscan'
  rcases hend with hstop | ⟨positions, hlocks, -⟩
  · exact absurd hstop ScanEnd.noConfusion
  · exact absurd hlocks ScanEnd.noConfusion

/-- What is locked for a push. -/
theorem scanGood_push (hb : b < N) (hb0 : b ≠ 0) {type : OpType} (ht : type ≠ .pop) :
    ScanGood N b type rpu locked ↔ locked (prev N b) = true ∨ (rpu (prev N b)).TTL ≤ 1 := by
  have hneed : needPos type = 1 := if_neg ht
  have hprev : prev N b < N := prev_lt hb
  rw [← suitable_prev rpu locked hb0, ScanGood, hneed]
  constructor
  · rintro ⟨n, e, hscan, hend⟩
    have hscan' := scanFor_add hscan 1
    rw [scanFor_push rpu locked hb hb0, Option.some.injEq] at hscan'
    subst hscan'
    rcases hend with hstop | ⟨positions, hlocks, hgood, -⟩
    · exact absurd hstop ScanEnd.noConfusion
    · rw [ScanEnd.locks.injEq] at hlocks
      exact (hgood _ (hlocks ▸ List.mem_singleton_self _)).2.2
  · intro hsuit
    refine ⟨1, _, scanFor_push rpu locked hb hb0 0, Or.inr ⟨_, rfl, fun j hj => ?_,
      fun h => absurd h ht⟩⟩
    rw [List.mem_singleton.mp hj]
    exact ⟨by omega, by omega, hsuit⟩

/-- What is locked for a pop. -/
theorem scanGood_pop (hb : b < N) (hb0 : b ≠ 0) :
    ScanGood N b .pop rpu locked ↔ Stops N b .pop rpu locked ∨
      (locked (prev N b) = true ∨ (rpu (prev N b)).TTL ≤ 1) ∧
      (locked (prev N (prev N b)) = true ∨ (rpu (prev N (prev N b))).TTL ≤ 2) := by
  have hneed : needPos .pop = 2 := rfl
  have hprev : prev N b < N := prev_lt hb
  have hprev' : prev N (prev N b) < N := prev_lt hprev
  rw [← suitable_prev rpu locked hb0, ← suitable_prev_prev rpu locked hb hb0, ScanGood, hneed]
  have hend := scanFor_pop rpu locked hb hb0
  by_cases hstops : Stops N b .pop rpu locked
  · refine iff_of_true ⟨2, .stops, ?_, Or.inl rfl⟩ (Or.inl hstops)
    rw [hend 0, if_pos hstops.2]
  · have hno : ¬(prev N (prev N b) = b ∧ (locked b = true ∨ (rpu b).TTL ≤ 0)) :=
      fun h => hstops ⟨rfl, h⟩
    simp only [if_neg hno] at hend
    constructor
    · rintro ⟨n, e, hscan, hgood⟩
      have hscan' := scanFor_add hscan 2
      rw [hend, Option.some.injEq] at hscan'
      subst hscan'
      rcases hgood with hstop | ⟨positions, hlocks, hgood, -⟩
      · exact absurd hstop ScanEnd.noConfusion
      · rw [ScanEnd.locks.injEq] at hlocks
        subst hlocks
        exact Or.inr ⟨(hgood _ (List.mem_cons_of_mem _ List.mem_cons_self)).2.2,
          (hgood _ List.mem_cons_self).2.2⟩
    · intro h
      obtain ⟨hsuit, hsuit'⟩ := h.resolve_left hstops
      refine ⟨2, _, hend 0, Or.inr ⟨_, rfl, fun j hj => ?_, fun _ => ⟨prev N (prev N b), ?_⟩⟩⟩
      · rcases List.mem_pair.mp hj with rfl | rfl
        · exact ⟨by omega, by omega, hsuit'⟩
        · exact ⟨by omega, by omega, hsuit⟩
      · rw [prev_add_one_mod hprev]

end Rounds

/-- **The scan is good if and only if the first RPUs it looks at are suitable.**  The beggar must
not be 0; and unless the scan stops at once, the RPU before the beggar's has to be locked or in
its last cycle, and for a pop the one before that locked or in one of its last two. -/
theorem scan_suitable_iff (N b : ℕ) (hb : b < N) (type : OpType) (rpu : ℕ → Task)
    (locked : ℕ → Bool) :
    ScanGood N b type rpu locked ↔ b ≠ 0 ∧ (Stops N b type rpu locked ∨
      (locked (prev N b) = true ∨ (rpu (prev N b)).TTL ≤ 1) ∧
      (type = .pop → locked (prev N (prev N b)) = true ∨
        (rpu (prev N (prev N b))).TTL ≤ 2)) := by
  by_cases hb0 : b = 0
  · subst hb0
    exact iff_of_false not_scanGood_zero fun h => h.1 rfl
  · rw [and_iff_right hb0]
    by_cases ht : type = .pop
    · subst ht
      rw [scanGood_pop hb hb0]
      exact or_congr_right (and_congr_right fun _ => ⟨fun h _ => h, fun h => h rfl⟩)
    · rw [scanGood_push hb hb0 ht]
      constructor
      · exact fun h => Or.inr ⟨h, fun h' => absurd h' ht⟩
      · exact fun h => (h.resolve_left fun h' => ht h'.1).1

/-- Every RPU is in use. -/
def busyRing (i : ℕ) : Task :=
  match i with
  | 0 => ⟨.pop, 2, 3, 0, 0⟩
  | 1 => ⟨.push, 1, 2, 9, 4⟩
  | 2 => ⟨.push, 3, 4, 6, 8⟩
  | 3 => ⟨.pop, 1, 5, 0, 0⟩
  | _ => ⟨.push, 4, 1, 7, 5⟩

/-- For the pop of list 3 the scan locks the RPUs 1 and 2: the push in RPU 1 is over when it gets
to RPU 3, and RPU 2 is locked already. -/
theorem scan_suitable_iff_busyRing :
    scanFor 5 3 (needPos .pop) busyRing (fun i => i = 2) 2 (scanStart 3) = some (.locks [1, 2]) ∧
      ScanGood 5 3 .pop busyRing fun i => i = 2 :=
  ⟨rfl, (scan_suitable_iff 5 3 (by decide) .pop busyRing _).mpr
    ⟨by decide, Or.inr ⟨Or.inl (by decide), fun _ => Or.inr (by decide)⟩⟩⟩

/-- A push that has just been sent. -/
def newPush : Task := ⟨.push, 1, 5, 7, 7⟩

/-- The scan for list 0 leaves the arrays, and the scan for list 2 locks RPU 1, which has just
taken a task. -/
theorem scan_suitable_fails :
    ¬ScanGood 5 0 .push (fun _ => Task.blank) (fun _ => false) ∧
    ¬ScanGood 5 2 .push (fun i => if i = 1 then newPush else Task.blank) fun _ => false := by
  refine ⟨not_scanGood_zero, ?_⟩
  rw [scanGood_push (by decide) (by decide) OpType.noConfusion]
  decide

/-! ## The whole mechanism -/

/-- `S`, the threshold. -/
def S : ℤ := 240

/-- A round of *lock the next RPUs anyway*; the second component is `need_pos`. -/
def lockNext (s : (ℕ → Bool) × ℤ) (j : ℕ) : (ℕ → Bool) × ℤ :=
  if s.2 = 0 ∨ s.1 j = true then s else (fun k => if k = j then true else s.1 k, s.2 - 1)

/-- *Lock the next `wait_time - S` RPUs anyway*. -/
def lockAnyway (N b : ℕ) (wait : ℤ) (locked : ℕ → Bool) : ℕ → Bool :=
  ((List.range' (b + 1) (N - (b + 1)) ++ List.range b).foldl lockNext (locked, wait - S)).1

/-- `locked` after list `b`, whose first task is of this type, has been helped.  Where the scan
leaves the arrays, it can be anything. -/
def lockFor (N b : ℕ) (type : OpType) (wait : ℤ) (rpu : ℕ → Task) (locked anything : ℕ → Bool) :
    ℕ → Bool :=
  match scanFor N b (needPos type) rpu locked (N + 1) (scanStart b) with
  | some (.locks positions) => fun i => locked i || decide ((i : ℤ) ∈ positions)
  | some .stops => lockAnyway N b wait locked
  | _ => anything

/-- What the mechanism keeps from cycle to cycle.  The beggar -1 is `none`. -/
structure Waits where
  waitTime : ℕ → ℤ
  locked : ℕ → Bool
  beggar : Option ℕ

namespace Waits

/-- At the start.  Every byte of `wait_time` is `-0x3f`. -/
def init : Waits := ⟨fun _ => -1044266559, fun _ => false, none⟩

variable (w : Waits)

/-- `wait_time[i]` is set. -/
def setWait (i : ℕ) (x : ℤ) : Waits :=
  { w with waitTime := fun k => if k = i then x else w.waitTime k }

/-- A task joins list `i`. -/
def join (i : ℕ) (list : List Task) : Waits := if list.isEmpty then w.setWait i 0 else w

/-- The lock of list `i` is released, if it is the beggar. -/
def release (i : ℕ) : Waits :=
  if w.beggar = some i then { w with beggar := none, locked := fun _ => false } else w

/-- `pop_task` of the algorithm simulators, where `rest` is what is left of the list. -/
def popTask (i : ℕ) (rest : List Task) : Waits :=
  let w' := if S < w.waitTime i then w.release i else w
  if rest.isEmpty then w'.setWait i (-Reference.inf) else w'.setWait i 0

/-- `SendOperation` of the ns-3 pipeline.  Here the waiting time is only set when the list has
been hungry. -/
def sendOperation (i : ℕ) (rest : List Task) : Waits :=
  if S < w.waitTime i then
    let w' := w.release i
    if rest.isEmpty then w'.setWait i (-Reference.inf) else w'.setWait i 0
  else w

/-- The beggar when the mechanism is called: the old one, or the first list that is hungry. -/
def findBeggar (N : ℕ) : Option ℕ :=
  match w.beggar with
  | some b => some b
  | none => (List.range N).find? fun i => decide (S < w.waitTime i)

/-- The anti-starvation mechanism.  Where the front of an empty list is used, `locked` can be
anything, too. -/
def antiStarvation (N : ℕ) (lists : ℕ → List Task) (rpu : ℕ → Task) (anything : ℕ → Bool) :
    Waits :=
  match w.findBeggar N with
  | none => w
  | some b =>
    { w with
      beggar := some b
      locked :=
        match lists b with
        | [] => anything
        | t :: _ => lockFor N b t.type (w.waitTime b) rpu w.locked anything }

end Waits

/-! ## Sending, with the waiting times -/

/-- What *send new task* works on. -/
structure SendingWaits where
  ring : Sending
  waits : Waits

/-- One round.  `done` is `pop_task` or `SendOperation`. -/
def sendWaitAt (N : ℕ) (done : Waits → ℕ → List Task → Waits) (s : SendingWaits) (i : ℕ) :
    SendingWaits :=
  let w := s.waits.setWait i (s.waits.waitTime i + 1)
  let r := sendAt N w.locked s.ring i
  ⟨r, if s.ring.sent.length < r.sent.length then done w i (r.lists i) else w⟩

/-- *Pass down* and *send new task*. -/
def ringStepWaits (N : ℕ) (done : Waits → ℕ → List Task → Waits) (w : Waits)
    (lists : ℕ → List Task) (rpu : ℕ → Task) : SendingWaits :=
  (List.range N).foldl (sendWaitAt N done) ⟨⟨passDown N rpu, lists, []⟩, w⟩

/-- What the two ways to take a task from a list have in common: the waiting time of the list is
set by `time`, and a beggar that had been hungry is released. -/
structure Done (done : Waits → ℕ → List Task → Waits) (time : ℤ → List Task → ℤ) : Prop where
  waitTime : ∀ w i rest k, (done w i rest).waitTime k =
    if k = i then time (w.waitTime i) rest else w.waitTime k
  beggar : ∀ w i rest, (done w i rest).beggar =
    if S < w.waitTime i ∧ w.beggar = some i then none else w.beggar

/-- The waiting time after `pop_task`. -/
def popTime (_ : ℤ) (rest : List Task) : ℤ := if rest.isEmpty then -Reference.inf else 0

/-- The waiting time after `SendOperation`. -/
def sendTime (x : ℤ) (rest : List Task) : ℤ := if S < x then popTime x rest else x

section Sending

variable {N : ℕ} {w : Waits} {i : ℕ} {lists : ℕ → List Task} {rpu : ℕ → Task}
  {done : Waits → ℕ → List Task → Waits} {time : ℤ → List Task → ℤ}

@[simp] theorem release_waitTime : (w.release i).waitTime = w.waitTime := by
  rw [Waits.release]
  split <;> rfl

theorem release_beggar : (w.release i).beggar = if w.beggar = some i then none else w.beggar := by
  rw [Waits.release]
  split <;> rfl

theorem done_popTask : Done Waits.popTask popTime where
  waitTime w i rest k := by
    rw [Waits.popTask, popTime]
    split_ifs <;> simp_all [Waits.setWait]
  beggar w i rest := by
    rw [Waits.popTask]
    by_cases hS : S < w.waitTime i
    · simp only [hS, if_true, true_and]
      rw [← release_beggar]
      split <;> rfl
    · simp only [hS, if_false, false_and]
      split <;> rfl

theorem done_sendOperation : Done Waits.sendOperation sendTime where
  waitTime w i rest k := by
    rw [Waits.sendOperation, sendTime, popTime]
    split_ifs <;> simp_all [Waits.setWait]
  beggar w i rest := by
    rw [Waits.sendOperation]
    by_cases hS : S < w.waitTime i
    · simp only [hS, if_true, true_and]
      rw [← release_beggar]
      split <;> rfl
    · simp only [hS, if_false, false_and]

/-- A round of *send* looks at one lock. -/
theorem sendAt_congr {locked locked' : ℕ → Bool} (h : locked i = locked' i) (s : Sending) :
    sendAt N locked s i = sendAt N locked' s i := by
  rw [sendAt, sendAt, h]

/-- A round with the waiting times is a round of *send*. -/
theorem sendWaitAt_ring (s : SendingWaits) :
    (sendWaitAt N done s i).ring = sendAt N s.waits.locked s.ring i := rfl

/-- The state of *send* before it comes to RPU `m`. -/
def sendingAt (N : ℕ) (done : Waits → ℕ → List Task → Waits) (w : Waits) (lists : ℕ → List Task)
    (rpu : ℕ → Task) (m : ℕ) : SendingWaits :=
  (List.range m).foldl (sendWaitAt N done) ⟨⟨passDown N rpu, lists, []⟩, w⟩

theorem sendingAt_succ (N : ℕ) (done : Waits → ℕ → List Task → Waits) (w : Waits)
    (lists : ℕ → List Task) (rpu : ℕ → Task) (m : ℕ) :
    sendingAt N done w lists rpu (m + 1) =
      sendWaitAt N done (sendingAt N done w lists rpu m) m := by
  rw [sendingAt, List.range_succ, List.foldl_append]
  rfl

/-- **The ring does not see the waiting times**, only the locks. -/
theorem ringStepWaits_ring (N : ℕ) (done : Waits → ℕ → List Task → Waits) (w : Waits)
    (lists : ℕ → List Task) (rpu : ℕ → Task) : ∃ locked,
    (ringStepWaits N done w lists rpu).ring = ringStep N locked lists rpu := by
  -- the lock of RPU `i` when it is visited
  refine ⟨fun i => (sendingAt N done w lists rpu i).waits.locked i, ?_⟩
  have hloop : ∀ m, (sendingAt N done w lists rpu m).ring = (List.range m).foldl
      (sendAt N fun i => (sendingAt N done w lists rpu i).waits.locked i)
      ⟨passDown N rpu, lists, []⟩ := by
    intro m
    induction m with
    | zero => rfl
    | succ m ih =>
      rw [sendingAt_succ, sendWaitAt_ring, List.range_succ, List.foldl_append, ← ih]
      exact sendAt_congr rfl _
  exact hloop N

/-- What has become of list `i` in *send*: nothing was sent, or its first task was. -/
inductive ListStep (time : ℤ → List Task → ℤ) (list : List Task) (x : ℤ) :
    List Task → ℤ → Prop where
  | kept : ListStep time list x list (x + 1)
  | sent {t : Task} {rest : List Task} (h : list = t :: rest) :
      ListStep time list x rest (time (x + 1) rest)

/-- One round changes one list. -/
theorem sendWaitAt_spec (h : Done done time) (s : SendingWaits) :
    ListStep time (s.ring.lists i) (s.waits.waitTime i) ((sendWaitAt N done s i).ring.lists i)
      ((sendWaitAt N done s i).waits.waitTime i) ∧
    (∀ k, k ≠ i → (sendWaitAt N done s i).ring.lists k = s.ring.lists k ∧
      (sendWaitAt N done s i).waits.waitTime k = s.waits.waitTime k) ∧
    ∀ b, (sendWaitAt N done s i).waits.beggar = some b → s.waits.beggar = some b ∧
      (b = i → s.waits.waitTime i + 1 ≤ S ∨
        (sendWaitAt N done s i).ring.lists i = s.ring.lists i ∧
        (sendWaitAt N done s i).waits.waitTime i = s.waits.waitTime i + 1) := by
  rw [sendWaitAt]
  have hself : (s.waits.setWait i (s.waits.waitTime i + 1)).waitTime i =
      s.waits.waitTime i + 1 := if_pos rfl
  have hother : ∀ k, k ≠ i → (s.waits.setWait i (s.waits.waitTime i + 1)).waitTime k =
      s.waits.waitTime k := fun k hk => if_neg hk
  have hbeggar : (s.waits.setWait i (s.waits.waitTime i + 1)).beggar = s.waits.beggar := rfl
  have hlocked : (s.waits.setWait i (s.waits.waitTime i + 1)).locked = s.waits.locked := rfl
  generalize s.waits.setWait i (s.waits.waitTime i + 1) = w at *
  dsimp only
  rcases sendAt_cases N w.locked s.ring i with hnone | ⟨t, rest, hlist, -, hlists, hsent, -⟩
  · rw [hnone, if_neg (lt_irrefl _), hself]
    exact ⟨.kept, fun k hk => ⟨rfl, hother k hk⟩,
      fun b hb => ⟨hbeggar ▸ hb, fun _ => Or.inr ⟨rfl, rfl⟩⟩⟩
  · have hrest : (sendAt N w.locked s.ring i).lists i = rest := by
      rw [hlists]
      exact if_pos rfl
    rw [if_pos (by rw [hsent, List.length_append]; simp), hrest, h.waitTime, if_pos rfl, hself]
    refine ⟨.sent hlist, fun k hk => ⟨?_, ?_⟩, fun b hb => ?_⟩
    · rw [hlists]
      exact if_neg hk
    · rw [h.waitTime, if_neg hk, hother k hk]
    · rw [h.beggar, hself, hbeggar] at hb
      split at hb
      · exact absurd hb (by simp)
      · next hno =>
        refine ⟨hb, fun hbi => Or.inl ?_⟩
        subst hbi
        exact not_lt.mp fun hS => hno ⟨hS, hb⟩

/-- What the first `m` rounds of *send* have done: each list below `m` has had its round, the
others are as they were, and the beggar is still the one there was. -/
structure WaitedUpTo (S : ℤ) (time : ℤ → List Task → ℤ) (w : Waits) (lists : ℕ → List Task)
    (m : ℕ) (s : SendingWaits) : Prop where
  visited : ∀ i < m, ListStep time (lists i) (w.waitTime i) (s.ring.lists i) (s.waits.waitTime i)
  rest : ∀ i, m ≤ i → s.ring.lists i = lists i ∧ s.waits.waitTime i = w.waitTime i
  beggar : ∀ b, s.waits.beggar = some b → w.beggar = some b ∧ (b < m → w.waitTime b + 1 ≤ S ∨
    s.ring.lists b = lists b ∧ s.waits.waitTime b = w.waitTime b + 1)

/-- One round of *send*. -/
theorem WaitedUpTo.sendWaitAt (h : Done done time) {w : Waits} {lists : ℕ → List Task} {m : ℕ}
    {s : SendingWaits} (ih : WaitedUpTo S time w lists m s) :
    WaitedUpTo S time w lists (m + 1) (Simulator.sendWaitAt N done s m) := by
  obtain ⟨hself, hother, hbeggar⟩ := sendWaitAt_spec (N := N) (i := m) h s
  obtain ⟨hlist, htime⟩ := ih.rest m le_rfl
  rw [hlist, htime] at hself hbeggar
  refine ⟨fun i hi => ?_, fun i hi => ?_, fun b hb => ?_⟩
  · by_cases him : i = m
    · rw [him]
      exact hself
    · rw [(hother i him).1, (hother i him).2]
      exact ih.visited i (by omega)
  · rw [(hother i (by omega)).1, (hother i (by omega)).2]
    exact ih.rest i (by omega)
  · obtain ⟨hb', hlast⟩ := hbeggar b hb
    refine ⟨(ih.beggar b hb').1, fun hbm => ?_⟩
    by_cases him : b = m
    · subst him
      exact hlast rfl
    · rw [(hother b him).1, (hother b him).2]
      exact (ih.beggar b hb').2 (by omega)

/-- **Send with the waiting times**: what becomes of every list, and when there is still a
beggar. -/
theorem ringStepWaits_spec (h : Done done time) (N : ℕ) (w : Waits) (lists : ℕ → List Task)
    (rpu : ℕ → Task) :
    (∀ i < N, ListStep time (lists i) (w.waitTime i)
      ((ringStepWaits N done w lists rpu).ring.lists i)
      ((ringStepWaits N done w lists rpu).waits.waitTime i)) ∧
    ∀ b, (ringStepWaits N done w lists rpu).waits.beggar = some b → w.beggar = some b ∧
      (b < N → w.waitTime b + 1 ≤ S ∨
        (ringStepWaits N done w lists rpu).ring.lists b = lists b ∧
        (ringStepWaits N done w lists rpu).waits.waitTime b = w.waitTime b + 1) := by
  have hrun : WaitedUpTo S time w lists N (ringStepWaits N done w lists rpu) :=
    Runs.foldl_range_keeps (P := WaitedUpTo S time w lists)
      ⟨fun i hi => absurd hi (Nat.not_lt_zero i), fun i _ => ⟨rfl, rfl⟩,
        fun b hb => ⟨hb, fun hb' => absurd hb' (Nat.not_lt_zero b)⟩⟩
      fun m _ _ ih => ih.sendWaitAt h
  exact ⟨hrun.visited, hrun.beggar⟩

end Sending

/-! ## Who can be hungry -/

/-- Tasks have joined the lists.  The waiting time of a list that was empty begins anew. -/
def Joined (lists : ℕ → List Task) (time : ℕ → ℤ) (lists' : ℕ → List Task) (time' : ℕ → ℤ) :
    Prop :=
  ∀ i, ∃ extra, lists' i = lists i ++ extra ∧
    time' i = if lists i = [] ∧ extra ≠ [] then 0 else time i

/-- Only a list with a task in it is hungry. -/
def OnlyWaiting (N : ℕ) (lists : ℕ → List Task) (time : ℕ → ℤ) : Prop :=
  ∀ i < N, S < time i → lists i ≠ []

/-- The beggar is a hungry list with a task in it. -/
def BeggarWaits (N : ℕ) (lists : ℕ → List Task) (w : Waits) : Prop :=
  ∀ b, w.beggar = some b → b < N ∧ S < w.waitTime b ∧ lists b ≠ []

section Hungry

variable {N : ℕ} {w : Waits} {lists lists' lists'' : ℕ → List Task} {time time' time'' : ℕ → ℤ}

theorem Joined.refl (lists : ℕ → List Task) (time : ℕ → ℤ) : Joined lists time lists time :=
  fun _ => ⟨[], (List.append_nil _).symm, (if_neg fun h => h.2 rfl).symm⟩

theorem Joined.trans (h : Joined lists time lists' time')
    (h' : Joined lists' time' lists'' time'') : Joined lists time lists'' time'' := by
  intro i
  obtain ⟨extra, hlist, htime⟩ := h i
  obtain ⟨extra', hlist', htime'⟩ := h' i
  refine ⟨extra ++ extra', by rw [hlist', hlist, List.append_assoc], ?_⟩
  rw [htime', htime, hlist]
  by_cases hnil : lists i = []
  · by_cases hextra : extra = []
    · simp [hnil, hextra]
    · simp [hnil, hextra]
  · simp [hnil]

/-- One task joins. -/
theorem joined_join (w : Waits) (lists : ℕ → List Task) (i : ℕ) (t : Task) :
    Joined lists w.waitTime (fun k => if k = i then lists k ++ [t] else lists k)
      (w.join i (lists i)).waitTime := by
  intro k
  rw [Waits.join]
  by_cases hk : k = i
  · subst hk
    refine ⟨[t], if_pos rfl, ?_⟩
    by_cases hnil : lists k = []
    · simp [hnil, Waits.setWait]
    · simp [hnil]
  · have htime : (if (lists i).isEmpty then w.setWait i 0 else w).waitTime k = w.waitTime k := by
      split
      · exact if_neg hk
      · rfl
    exact ⟨[], (if_neg hk).trans (List.append_nil _).symm,
      htime.trans (if_neg fun h => h.2 rfl).symm⟩

@[simp] theorem join_beggar (w : Waits) (i : ℕ) (list : List Task) :
    (w.join i list).beggar = w.beggar := by
  rw [Waits.join]
  split <;> rfl

/-- A list that is empty now was empty before, and has waited as long. -/
theorem Joined.of_nil (h : Joined lists time lists' time') {i : ℕ} (hi : lists' i = []) :
    lists i = [] ∧ time' i = time i := by
  obtain ⟨extra, hlist, htime⟩ := h i
  rw [hi] at hlist
  obtain ⟨hnil, hextra⟩ := List.append_eq_nil_iff.mp hlist.symm
  exact ⟨hnil, by rw [htime, if_neg fun h => h.2 hextra]⟩

theorem Joined.beggarWaits (h : Joined lists w.waitTime lists' time') (hw : BeggarWaits N lists w)
    {w' : Waits} (htime : w'.waitTime = time') (hbeggar : w'.beggar = w.beggar) :
    BeggarWaits N lists' w' := by
  intro b hb
  obtain ⟨hlt, hS, hne⟩ := hw b (hbeggar ▸ hb)
  obtain ⟨extra, hlist, htime'⟩ := h b
  refine ⟨hlt, ?_, ?_⟩
  · rw [htime, htime', if_neg fun h => hne h.1]
    exact hS
  · rw [hlist]
    exact fun hnil => hne (List.append_eq_nil_iff.mp hnil).1

/-- A beggar that has not been served is still waiting. -/
theorem BeggarWaits.ringStepWaits {done : Waits → ℕ → List Task → Waits}
    {next : ℤ → List Task → ℤ} (h : Done done next) (hw : BeggarWaits N lists w)
    (rpu : ℕ → Task) : BeggarWaits N (ringStepWaits N done w lists rpu).ring.lists
      (ringStepWaits N done w lists rpu).waits := by
  intro b hb
  obtain ⟨hb', hkept⟩ := (ringStepWaits_spec h N w lists rpu).2 b hb
  obtain ⟨hlt, hS, hne⟩ := hw b hb'
  obtain ⟨hlist, htime⟩ := (hkept hlt).resolve_left (by omega)
  rw [hlist, htime]
  exact ⟨hlt, by omega, hne⟩

/-- **The front that the mechanism reads is there**, when only waiting lists are hungry. -/
theorem findBeggar_waits (hw : OnlyWaiting N lists w.waitTime) (hbeggar : BeggarWaits N lists w)
    {b : ℕ} (hb : w.findBeggar N = some b) : b < N ∧ S < w.waitTime b ∧ lists b ≠ [] := by
  rw [Waits.findBeggar] at hb
  cases hold : w.beggar with
  | some b' =>
    rw [hold, Option.some.injEq] at hb
    subst hb
    exact hbeggar b' hold
  | none =>
    rw [hold] at hb
    dsimp only at hb
    have hlt := List.mem_range.mp (List.mem_of_find?_eq_some hb)
    have hS := List.find?_some hb
    rw [decide_eq_true_eq] at hS
    exact ⟨hlt, hS, hw b hlt hS⟩

theorem antiStarvation_waitTime (rpu : ℕ → Task) (anything : ℕ → Bool) :
    (w.antiStarvation N lists rpu anything).waitTime = w.waitTime := by
  rw [Waits.antiStarvation]
  split <;> rfl

theorem antiStarvation_beggar (rpu : ℕ → Task) (anything : ℕ → Bool) :
    (w.antiStarvation N lists rpu anything).beggar = w.findBeggar N := by
  rw [Waits.antiStarvation]
  split
  · next hnone =>
    rw [hnone]
    rw [Waits.findBeggar] at hnone
    split at hnone
    · exact absurd hnone (by simp)
    · next hb => exact hb
  · next hb => exact hb.symm

theorem BeggarWaits.antiStarvation (hw : OnlyWaiting N lists w.waitTime)
    (hbeggar : BeggarWaits N lists w) (rpu : ℕ → Task) (anything : ℕ → Bool) :
    BeggarWaits N lists (w.antiStarvation N lists rpu anything) := by
  intro b hb
  rw [antiStarvation_beggar] at hb
  rw [antiStarvation_waitTime]
  exact findBeggar_waits hw hbeggar hb

end Hungry

end Simulator

end VPifo
