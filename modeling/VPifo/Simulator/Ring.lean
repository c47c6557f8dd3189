import VPifo.Lib.Cyclic
import VPifo.Lib.Runs
import Mathlib.Data.List.Basic
import Mathlib.Algebra.Order.Ring.Int

/-!
# The simulated ring of RPUs

Three programs of the repository simulate the ring: `vPIFO_trace.cpp` of the compiler, its
namesake of the algorithm simulation, and `Pipeline::WakeUp` of the ns-3 queue disc.  They
share the two phases of a cycle that move tasks, line by line.

* *Pass down.*  The ring is updated in place, from RPU 0 upwards, with a scrolling buffer
  `nt[2]` that keeps the old content of the RPU before.  A pop stays for one more cycle as a
  write-back; any other RPU takes over the task of the RPU before it, if that has a cycle
  left to live, and is empty otherwise (`passDown_eq`).
* *Send.*  From RPU 0 upwards, an RPU that is empty and not locked takes the first task of
  its list.  A pop is taken only if the RPU before is in its last cycle or empty, and then
  the RPU before is kept from taking another task: its `TTL` becomes 1, and its type, if it
  was empty, `Locked`.

What has to be shown is that nothing is lost: a task that is passed on must not meet a pop,
which does not take it over.  `RingInv` says why it does not.  The RPU before a pop holds
the write-back of this pop or a task in its last cycle; and a write-back that is not in its
last cycle has its pop in front of it, so that it is the write-back which gets lost.
-/

namespace VPifo

namespace Simulator

open Cyclic

/-! ## The code -/

/-- `enum Type`. -/
inductive OpType where
  | push
  | pop
  | writeBack
  | locked
  | empty
  deriving DecidableEq, Repr

/-- `struct Task`, or `struct Operation`. -/
@[ext] structure Task where
  type : OpType
  root : ℕ
  TTL : ℤ
  rank : ℤ
  val : ℤ
  deriving DecidableEq, Repr

/-- A task as its constructor without arguments leaves it. -/
def Task.blank : Task := ⟨.empty, 0, 0, 0, 0⟩

/-- The ring and the scrolling buffer `nt`. -/
structure Scroll where
  nt : ℕ → Task
  rpu : ℕ → Task

/-- One round of *pass down*. -/
def passAt (s : Scroll) (i : ℕ) : Scroll :=
  let j := i % 2
  let nt := fun k => if k = j then { s.rpu i with TTL := (s.rpu i).TTL - 1 } else s.nt k
  let new :=
    if (s.rpu i).type = .pop then { s.rpu i with type := .writeBack }
    else if 0 < (nt (1 - j)).TTL then nt (1 - j)
    else { s.rpu i with type := .empty, TTL := 0 }
  ⟨nt, fun k => if k = i then new else s.rpu k⟩

/-- *Pass down*. -/
def passDown (N : ℕ) (rpu : ℕ → Task) : ℕ → Task :=
  ((List.range N).foldl passAt
    ⟨fun k => if k = 1 then { rpu (N - 1) with TTL := (rpu (N - 1)).TTL - 1 } else Task.blank,
      rpu⟩).rpu

/-- The ring, the task lists, and what has been sent in this cycle. -/
structure Sending where
  rpu : ℕ → Task
  lists : ℕ → List Task
  sent : List (ℕ × Task)

/-- One round of *send new task*.  `locked i` is what `locked[i]` holds when RPU `i` is
visited. -/
def sendAt (N : ℕ) (locked : ℕ → Bool) (s : Sending) (i : ℕ) : Sending :=
  if (s.rpu i).type = .empty ∧ locked i = false then
    match s.lists i with
    | [] => s
    | t :: rest =>
      if t.type = .push then
        ⟨fun k => if k = i then t else s.rpu k, fun k => if k = i then rest else s.lists k,
          s.sent ++ [(i, t)]⟩
      else
        let j := prev N i
        if (s.rpu j).TTL ≤ 1 then
          ⟨fun k =>
            if k = j then
              { s.rpu j with
                type := if (s.rpu j).type = .empty then .locked else (s.rpu j).type
                TTL := 1 }
            else if k = i then t else s.rpu k,
            fun k => if k = i then rest else s.lists k, s.sent ++ [(i, t)]⟩
        else s
  else s

/-- *Send new task*. -/
def sendNew (N : ℕ) (locked : ℕ → Bool) (rpu : ℕ → Task) (lists : ℕ → List Task) : Sending :=
  (List.range N).foldl (sendAt N locked) ⟨rpu, lists, []⟩

/-- The two phases of a cycle. -/
def ringStep (N : ℕ) (locked : ℕ → Bool) (lists : ℕ → List Task) (rpu : ℕ → Task) : Sending :=
  sendNew N locked (passDown N rpu) lists

/-! ## Pass down -/

/-- What an RPU holds after *pass down*. -/
def passed (before own : Task) : Task :=
  if own.type = .pop then { own with type := .writeBack }
  else if 0 < before.TTL - 1 then { before with TTL := before.TTL - 1 }
  else { own with type := .empty, TTL := 0 }

/-- After `m` rounds the RPUs below `m` have changed, and the task that RPU `m` is to get is
in the buffer. -/
structure PassedUpTo (N : ℕ) (rpu : ℕ → Task) (m : ℕ) (s : Scroll) : Prop where
  kept : s.nt (1 - m % 2) = { rpu (prev N m) with TTL := (rpu (prev N m)).TTL - 1 }
  changed : ∀ k, s.rpu k = if k < m then passed (rpu (prev N k)) (rpu k) else rpu k

theorem PassedUpTo.passAt {N m : ℕ} {rpu : ℕ → Task} {s : Scroll} (h : PassedUpTo N rpu m s) :
    PassedUpTo N rpu (m + 1) (Simulator.passAt s m) := by
  have hown : s.rpu m = rpu m := by rw [h.changed, if_neg (lt_irrefl m)]
  have hother : 1 - m % 2 ≠ m % 2 := by omega
  refine ⟨?_, fun k => ?_⟩
  · rw [show 1 - (m + 1) % 2 = m % 2 by omega, prev_succ, Simulator.passAt, hown]
    exact if_pos rfl
  · by_cases hk : k = m
    · rw [hk, if_pos (Nat.lt_succ_self m)]
      simp only [Simulator.passAt, hown, if_neg hother, h.kept, if_true, passed]
    · simp only [Simulator.passAt, if_neg hk]
      rw [h.changed k]
      exact if_congr (by omega) rfl rfl

/-- **Pass down moves every task at once**: the scrolling buffer keeps what the RPU before
held at the beginning of the phase. -/
theorem passDown_eq {N : ℕ} (rpu : ℕ → Task) {i : ℕ} (hi : i < N) :
    passDown N rpu i = passed (rpu (prev N i)) (rpu i) := by
  have hloop : PassedUpTo N rpu N ((List.range N).foldl passAt
      ⟨fun k => if k = 1 then { rpu (N - 1) with TTL := (rpu (N - 1)).TTL - 1 } else Task.blank,
        rpu⟩) :=
    Runs.foldl_range_keeps ⟨rfl, fun k => rfl⟩ fun _ _ _ ih => ih.passAt
  rw [passDown, hloop.changed i, if_pos hi]

/-! ## Send -/

section Send

variable {N L : ℕ} {locked : ℕ → Bool}

/-- A task that has just been made: a push or a pop with `L` cycles to live. -/
structure Task.Fresh (L : ℕ) (t : Task) : Prop where
  type : t.type = .push ∨ t.type = .pop
  TTL : t.TTL = L

/-- The task lists hold fresh tasks only. -/
def Loaded (L : ℕ) (lists : ℕ → List Task) : Prop := ∀ i, ∀ t ∈ lists i, t.Fresh L

/-- What one round of *send* can do: nothing, or take the first task of the list. -/
theorem sendAt_cases (N : ℕ) (locked : ℕ → Bool) (s : Sending) (i : ℕ) :
    sendAt N locked s i = s ∨ ∃ t rest, s.lists i = t :: rest ∧ (s.rpu i).type = .empty ∧
      (sendAt N locked s i).lists = (fun k => if k = i then rest else s.lists k) ∧
      (sendAt N locked s i).sent = s.sent ++ [(i, t)] ∧
      (t.type = .push ∧ (sendAt N locked s i).rpu = (fun k => if k = i then t else s.rpu k) ∨
        t.type ≠ .push ∧ (s.rpu (prev N i)).TTL ≤ 1 ∧ (sendAt N locked s i).rpu = fun k =>
          if k = prev N i then
            { s.rpu (prev N i) with
              type := if (s.rpu (prev N i)).type = .empty then .locked
                else (s.rpu (prev N i)).type
              TTL := 1 }
          else if k = i then t else s.rpu k) := by
  unfold sendAt
  split
  · next hfree =>
    cases hlist : s.lists i with
    | nil => exact Or.inl rfl
    | cons t rest =>
      dsimp only
      split
      · next hpush => exact Or.inr ⟨t, rest, rfl, hfree.1, rfl, rfl, Or.inl ⟨hpush, rfl⟩⟩
      · next hpush =>
        split
        · next hlast => exact Or.inr ⟨t, rest, rfl, hfree.1, rfl, rfl, Or.inr ⟨hpush, hlast, rfl⟩⟩
        · exact Or.inl rfl
  · exact Or.inl rfl

/-- The invariant of the ring. -/
structure RingInv (N L : ℕ) (rpu : ℕ → Task) : Prop where
  le : ∀ x < N, (rpu x).TTL ≤ L
  pos : ∀ x < N, (rpu x).type ≠ .empty → 1 ≤ (rpu x).TTL
  zero : ∀ x < N, (rpu x).type = .empty → (rpu x).TTL = 0
  /-- Nothing is passed on to a pop but its own write-back. -/
  before_pop : ∀ x < N, (rpu x).type = .pop →
    (rpu (prev N x)).type = .writeBack ∨ (rpu (prev N x)).TTL = 1
  /-- A write-back is passed on to its pop, or to nobody. -/
  behind_pop : ∀ x < N, (rpu (prev N x)).type = .writeBack → 2 ≤ (rpu (prev N x)).TTL →
    (rpu x).type = .pop

theorem ringInv_blank : RingInv N L fun _ => Task.blank where
  le _ _ := Int.natCast_nonneg L
  pos _ _ h := absurd rfl h
  zero _ _ _ := rfl
  before_pop _ _ h := absurd h (by simp [Task.blank])
  behind_pop _ _ h := absurd h (by simp [Task.blank])

/-- What RPU `x` holds after *pass down*: its own pop, the task of the RPU before it, or
nothing. -/
theorem passDown_cases (rpu : ℕ → Task) {x : ℕ} (hx : x < N) :
    ((rpu x).type = .pop ∧ passDown N rpu x = { rpu x with type := .writeBack }) ∨
    ((rpu x).type ≠ .pop ∧ 2 ≤ (rpu (prev N x)).TTL ∧
      passDown N rpu x = { rpu (prev N x) with TTL := (rpu (prev N x)).TTL - 1 }) ∨
    ((rpu x).type ≠ .pop ∧ (rpu (prev N x)).TTL ≤ 1 ∧
      passDown N rpu x = { rpu x with type := .empty, TTL := 0 }) := by
  rw [passDown_eq rpu hx, passed]
  by_cases hpop : (rpu x).type = .pop
  · exact Or.inl ⟨hpop, if_pos hpop⟩
  · rw [if_neg hpop]
    by_cases hlive : 0 < (rpu (prev N x)).TTL - 1
    · exact Or.inr (Or.inl ⟨hpop, by omega, if_pos hlive⟩)
    · exact Or.inr (Or.inr ⟨hpop, by omega, if_neg hlive⟩)

theorem passDown_ringInv {rpu : ℕ → Task} (h : RingInv N L rpu) : RingInv N L (passDown N rpu) := by
  refine ⟨fun x hx => ?_, fun x hx hne => ?_, fun x hx he => ?_, fun x hx hp => ?_,
    fun x hx hwb hlive => ?_⟩
  · have hprev := h.le (prev N x) (prev_lt hx)
    rcases passDown_cases rpu hx with ⟨-, hx'⟩ | ⟨-, -, hx'⟩ | ⟨-, -, hx'⟩ <;> rw [hx']
    · exact h.le x hx
    · show (rpu (prev N x)).TTL - 1 ≤ L
      omega
    · exact Int.natCast_nonneg L
  · rcases passDown_cases rpu hx with ⟨hpop, hx'⟩ | ⟨-, hlive, hx'⟩ | ⟨-, -, hx'⟩
    · rw [hx']
      exact h.pos x hx (by rw [hpop]; simp)
    · rw [hx']
      show 1 ≤ (rpu (prev N x)).TTL - 1
      omega
    · rw [hx'] at hne
      exact absurd rfl hne
  · rcases passDown_cases rpu hx with ⟨-, hx'⟩ | ⟨-, hlive, hx'⟩ | ⟨-, -, hx'⟩
    · rw [hx'] at he
      exact absurd he (by simp)
    · rw [hx'] at he
      have := h.zero (prev N x) (prev_lt hx) he
      omega
    · rw [hx']
  · rcases passDown_cases rpu hx with ⟨-, hx'⟩ | ⟨-, -, hx'⟩ | ⟨-, -, hx'⟩
    · rw [hx'] at hp
      exact absurd hp (by simp)
    · -- the pop came from the RPU before, which has become its write-back
      rw [hx'] at hp
      rcases passDown_cases rpu (prev_lt hx) with ⟨-, hb⟩ | ⟨hno, -⟩ | ⟨hno, -⟩
      · rw [hb]
        exact Or.inl rfl
      · exact absurd hp hno
      · exact absurd hp hno
    · rw [hx'] at hp
      exact absurd hp (by simp)
  · rcases passDown_cases rpu (prev_lt hx) with ⟨hpop, hb⟩ | ⟨hno, hb2, hb⟩ | ⟨-, -, hb⟩
    · rw [hb] at hlive
      have hlive' : 2 ≤ (rpu (prev N x)).TTL := hlive
      rcases passDown_cases rpu hx with ⟨hpop', -⟩ | ⟨-, -, hx'⟩ | ⟨-, hlast, -⟩
      · rcases h.before_pop x hx hpop' with hwb' | hone
        · exact absurd (hpop.symm.trans hwb') (by simp)
        · omega
      · rw [hx']
        exact hpop
      · omega
    · -- a write-back is not taken over: its pop stands in the way
      rw [hb] at hwb hlive
      exact absurd (h.behind_pop (prev N x) (prev_lt hx) hwb hb2) hno
    · rw [hb] at hwb
      exact absurd hwb (by simp)

/-- After *pass down* every pop is past its first cycle. -/
theorem passDown_pop_lt {rpu : ℕ → Task} (h : RingInv N L rpu) {x : ℕ} (hx : x < N)
    (hp : (passDown N rpu x).type = .pop) : (passDown N rpu x).TTL < L := by
  rcases passDown_cases rpu hx with ⟨-, hx'⟩ | ⟨-, -, hx'⟩ | ⟨-, -, hx'⟩
  · rw [hx'] at hp
    exact absurd hp (by simp)
  · have := h.le (prev N x) (prev_lt hx)
    rw [hx']
    show (rpu (prev N x)).TTL - 1 < L
    omega
  · rw [hx'] at hp
    exact absurd hp (by simp)

theorem prev_ne_self (hN : 2 ≤ N) (i : ℕ) : prev N i ≠ i := by
  unfold prev
  split <;> omega

section Round

variable {s : Sending} {i : ℕ}

/-- A round of *send* leaves every RPU alone that is not empty. -/
theorem sendAt_kept (h : RingInv N L s.rpu) {x : ℕ} (hx : x < N) (hne : (s.rpu x).type ≠ .empty) :
    (sendAt N locked s i).rpu x = s.rpu x := by
  rcases sendAt_cases N locked s i with hnone | ⟨t, rest, -, hempty, -, -, hrpu⟩
  · rw [hnone]
  have hxi : x ≠ i := fun hxi => hne (hxi ▸ hempty)
  rcases hrpu with ⟨-, hrpu⟩ | ⟨-, hlast, hrpu⟩
  · rw [hrpu]
    exact if_neg hxi
  · rw [hrpu]
    by_cases hxj : x = prev N i
    · subst hxj
      have hpos := h.pos (prev N i) hx hne
      have hone : (s.rpu (prev N i)).TTL = 1 := le_antisymm hlast hpos
      simp only [if_true, if_neg hne]
      exact Task.ext rfl rfl hone.symm rfl rfl
    · simp only [if_neg hxj, if_neg hxi]

/-- An RPU before an empty one holds no pop. -/
theorem RingInv.not_pop_of_empty {rpu : ℕ → Task} (h : RingInv N L rpu) (hi : i < N)
    (hempty : (rpu i).type = .empty) {x : ℕ} (hx : x < N) (hxi : prev N x = i) :
    (rpu x).type ≠ .pop := by
  intro hpop
  rcases h.before_pop x hx hpop with hwb | hone
  · rw [hxi, hempty] at hwb
    exact absurd hwb (by simp)
  · rw [hxi, h.zero i hi hempty] at hone
    exact absurd hone (by simp)

/-- Storing a fresh push in an empty RPU keeps the invariant. -/
theorem RingInv.storePush {rpu r : ℕ → Task} (h : RingInv N L rpu) (hL : 2 ≤ L) (hi : i < N)
    (hempty : (rpu i).type = .empty) (hpush : (r i).type = .push) (httl : (r i).TTL = L)
    (hother : ∀ x, x ≠ i → r x = rpu x) : RingInv N L r := by
  refine ⟨fun x hx => ?_, fun x hx hne => ?_, fun x hx he => ?_, fun x hx hp => ?_,
    fun x hx hwb hlive => ?_⟩
  · by_cases hxi : x = i
    · rw [hxi, httl]
    · rw [hother x hxi]
      exact h.le x hx
  · by_cases hxi : x = i
    · rw [hxi, httl]
      omega
    · rw [hother x hxi] at hne ⊢
      exact h.pos x hx hne
  · by_cases hxi : x = i
    · rw [hxi, hpush] at he
      exact absurd he (by simp)
    · rw [hother x hxi] at he ⊢
      exact h.zero x hx he
  · have hxi : x ≠ i := by
      rintro rfl
      rw [hpush] at hp
      exact absurd hp (by simp)
    rw [hother x hxi] at hp
    rw [hother _ fun hpi => h.not_pop_of_empty hi hempty hx hpi hp]
    exact h.before_pop x hx hp
  · have hpi : prev N x ≠ i := by
      intro hpi
      rw [hpi, hpush] at hwb
      exact absurd hwb (by simp)
    rw [hother _ hpi] at hwb hlive
    have hpop := h.behind_pop x hx hwb hlive
    have hxi : x ≠ i := by
      rintro rfl
      exact absurd (hempty.symm.trans hpop) (by simp)
    rw [hother x hxi]
    exact hpop

/-- Storing a fresh pop in an empty RPU keeps the invariant, when the RPU before it is left
its last cycle and, if it was empty, is locked. -/
theorem RingInv.storePop {rpu r : ℕ → Task} (h : RingInv N L rpu) (hN : 2 ≤ N) (hL : 2 ≤ L)
    (hi : i < N) (hempty : (rpu i).type = .empty) (hpop : (r i).type = .pop)
    (httl : (r i).TTL = L) (hone : (r (prev N i)).TTL = 1)
    (hlock : (r (prev N i)).type =
      if (rpu (prev N i)).type = .empty then .locked else (rpu (prev N i)).type)
    (hother : ∀ x, x ≠ i → x ≠ prev N i → r x = rpu x) : RingInv N L r := by
  have hji := prev_ne_self hN i
  -- the RPU before holds neither an empty task nor a pop that was not there already
  have hlock_ne : (r (prev N i)).type ≠ .empty := by
    rw [hlock]
    split
    · simp
    · next hne => exact hne
  have hlock_pop : (r (prev N i)).type = .pop → (rpu (prev N i)).type = .pop := by
    rw [hlock]
    split
    · exact fun hp => absurd hp (by simp)
    · exact fun hp => hp
  refine ⟨fun x hx => ?_, fun x hx hne => ?_, fun x hx he => ?_, fun x hx hp => ?_,
    fun x hx hwb hlive => ?_⟩
  · by_cases hxi : x = i
    · rw [hxi, httl]
    · by_cases hxj : x = prev N i
      · rw [hxj, hone]
        omega
      · rw [hother x hxi hxj]
        exact h.le x hx
  · by_cases hxi : x = i
    · rw [hxi, httl]
      omega
    · by_cases hxj : x = prev N i
      · rw [hxj, hone]
      · rw [hother x hxi hxj] at hne ⊢
        exact h.pos x hx hne
  · by_cases hxi : x = i
    · rw [hxi, hpop] at he
      exact absurd he (by simp)
    · by_cases hxj : x = prev N i
      · exact absurd (hxj ▸ he) hlock_ne
      · rw [hother x hxi hxj] at he ⊢
        exact h.zero x hx he
  · by_cases hpj : prev N x = prev N i
    · rw [hpj]
      exact Or.inr hone
    · have hxi : x ≠ i := fun hxi => hpj (by rw [hxi])
      have hp' : (rpu x).type = .pop := by
        by_cases hxj : x = prev N i
        · rw [hxj] at hp ⊢
          exact hlock_pop hp
        · rw [← hother x hxi hxj]
          exact hp
      rw [hother _ (fun hpi => h.not_pop_of_empty hi hempty hx hpi hp') hpj]
      exact h.before_pop x hx hp'
  · have hpj : prev N x ≠ prev N i := by
      intro hpj
      rw [hpj, hone] at hlive
      omega
    have hpi : prev N x ≠ i := by
      intro hpi
      rw [hpi, hpop] at hwb
      exact absurd hwb (by simp)
    rw [hother _ hpi hpj] at hwb hlive
    have hxp := h.behind_pop x hx hwb hlive
    have hxi : x ≠ i := by
      rintro rfl
      exact absurd (hempty.symm.trans hxp) (by simp)
    by_cases hxj : x = prev N i
    · rw [hxj] at hxp ⊢
      rw [hlock, if_neg (by rw [hxp]; simp)]
      exact hxp
    · rw [hother x hxi hxj]
      exact hxp

/-- A round of *send* keeps the invariant. -/
theorem sendAt_ringInv (hN : 2 ≤ N) (hL : 2 ≤ L) (hi : i < N) (h : RingInv N L s.rpu)
    (hload : Loaded L s.lists) : RingInv N L (sendAt N locked s i).rpu := by
  rcases sendAt_cases N locked s i with hnone | ⟨t, rest, hlist, hempty, -, -, hrpu⟩
  · rw [hnone]
    exact h
  have hfresh : t.Fresh L := hload i t (by rw [hlist]; exact List.mem_cons_self)
  rcases hrpu with ⟨hpush, hrpu⟩ | ⟨hpush, hlast, hrpu⟩
  · have hself : (sendAt N locked s i).rpu i = t := by
      rw [hrpu]
      exact if_pos rfl
    refine h.storePush hL hi hempty (by rw [hself, hpush]) (by rw [hself, hfresh.TTL])
      fun x hx => ?_
    rw [hrpu]
    exact if_neg hx
  · have hself : (sendAt N locked s i).rpu i = t := by
      rw [hrpu]
      simp only [if_neg (prev_ne_self hN i).symm, if_true]
    have hlock : (sendAt N locked s i).rpu (prev N i) = { s.rpu (prev N i) with
        type := if (s.rpu (prev N i)).type = .empty then .locked else (s.rpu (prev N i)).type
        TTL := 1 } := by
      rw [hrpu]
      exact if_pos rfl
    refine h.storePop hN hL hi hempty (by rw [hself, hfresh.type.resolve_left hpush])
      (by rw [hself, hfresh.TTL]) (by rw [hlock]) (by rw [hlock]) fun x hx hxj => ?_
    rw [hrpu]
    simp only [if_neg hxj, if_neg hx]

/-- What a round of *send* that is not idle does, as the later phases see it: the RPU holds
the first task of its list, and any other RPU with more than one cycle left is as it was. -/
structure Stores (i : ℕ) (s s' : Sending) (t : Task) (rest : List Task) : Prop where
  list : s.lists i = t :: rest
  empty : (s.rpu i).type = .empty
  lists : s'.lists = fun k => if k = i then rest else s.lists k
  sent : s'.sent = s.sent ++ [(i, t)]
  self : s'.rpu i = t
  same : ∀ x, x ≠ i → 2 ≤ (s'.rpu x).TTL → s'.rpu x = s.rpu x

theorem sendAt_stores (hN : 2 ≤ N) (locked : ℕ → Bool) (s : Sending) (i : ℕ) :
    sendAt N locked s i = s ∨ ∃ t rest, Stores i s (sendAt N locked s i) t rest := by
  rcases sendAt_cases N locked s i with hnone | ⟨t, rest, hlist, hempty, hlists, hsent, hrpu⟩
  · exact Or.inl hnone
  refine Or.inr ⟨t, rest, ⟨hlist, hempty, hlists, hsent, ?_, fun x hx hlive => ?_⟩⟩
  · rcases hrpu with ⟨-, hrpu⟩ | ⟨-, -, hrpu⟩
    · rw [hrpu]
      exact if_pos rfl
    · rw [hrpu]
      simp only [if_neg (prev_ne_self hN i).symm, if_true]
  · rcases hrpu with ⟨-, hrpu⟩ | ⟨-, -, hrpu⟩
    · rw [hrpu]
      exact if_neg hx
    · rw [hrpu] at hlive ⊢
      by_cases hxj : x = prev N i
      · simp only [hxj, if_true] at hlive
        omega
      · simp only [if_neg hxj, if_neg hx]

end Round

/-- What holds during *send*, which started with the ring `rpu`. -/
structure SendInv (N L : ℕ) (rpu : ℕ → Task) (s : Sending) : Prop where
  ring : RingInv N L s.rpu
  loaded : Loaded L s.lists
  kept : ∀ x < N, (rpu x).type ≠ .empty → s.rpu x = rpu x
  sent : ∀ p ∈ s.sent, p.1 < N ∧ s.rpu p.1 = p.2 ∧ p.2.Fresh L
  nodup : (s.sent.map Prod.fst).Nodup
  new_pop : ∀ x < N, (s.rpu x).type = .pop → (s.rpu x).TTL = L → (x, s.rpu x) ∈ s.sent

theorem Task.Fresh.ne_empty {t : Task} (h : t.Fresh L) : t.type ≠ .empty := by
  rcases h.type with h | h <;> rw [h] <;> simp

variable (locked) in
theorem SendInv.sendAt {rpu : ℕ → Task} {s : Sending} (h : SendInv N L rpu s) (hN : 2 ≤ N)
    (hL : 2 ≤ L) {i : ℕ} (hi : i < N) : SendInv N L rpu (sendAt N locked s i) := by
  have hring : RingInv N L (Simulator.sendAt N locked s i).rpu :=
    sendAt_ringInv hN hL hi h.ring h.loaded
  have hkept : ∀ x < N, (s.rpu x).type ≠ .empty →
      (Simulator.sendAt N locked s i).rpu x = s.rpu x := fun x hx => sendAt_kept h.ring hx
  rcases sendAt_stores hN locked s i with
    hnone | ⟨t, rest, hlist, hempty, hlists, hsent, hself, hsame⟩
  · rw [hnone]
    exact h
  have hfresh : t.Fresh L := h.loaded i t (by rw [hlist]; exact List.mem_cons_self)
  refine ⟨hring, ?_, fun x hx hne => ?_, ?_, ?_, ?_⟩
  · intro k u hu
    rw [hlists] at hu
    dsimp only at hu
    split at hu
    · exact h.loaded i u (by rw [hlist]; exact List.mem_cons_of_mem _ hu)
    · exact h.loaded k u hu
  · rw [hkept x hx (by rw [h.kept x hx hne]; exact hne)]
    exact h.kept x hx hne
  · intro p hp
    rw [hsent, List.mem_append, List.mem_singleton] at hp
    rcases hp with hp | rfl
    · obtain ⟨hlt, hrpu, hold⟩ := h.sent p hp
      exact ⟨hlt, by rw [hkept _ hlt (by rw [hrpu]; exact hold.ne_empty), hrpu], hold⟩
    · exact ⟨hi, hself, hfresh⟩
  · rw [hsent, List.map_append, List.map_singleton, List.nodup_append]
    refine ⟨h.nodup, List.nodup_singleton _, fun a ha b hb hab => ?_⟩
    obtain ⟨p, hp, rfl⟩ := List.mem_map.mp ha
    obtain ⟨-, hrpu, hold⟩ := h.sent p hp
    rw [List.mem_singleton] at hb
    rw [hab, hb] at hrpu
    exact hold.ne_empty (hrpu ▸ hempty)
  · intro x hx hpop httl
    rw [hsent]
    by_cases hxi : x = i
    · rw [hxi, hself]
      exact List.mem_append_right _ (List.mem_singleton_self _)
    · have hlive : 2 ≤ ((Simulator.sendAt N locked s i).rpu x).TTL := by
        rw [httl]
        exact_mod_cast hL
      rw [hsame x hxi hlive] at hpop httl ⊢
      exact List.mem_append_left _ (h.new_pop x hx hpop httl)

variable (locked) in
/-- **One cycle keeps the invariant.** -/
theorem ringStep_inv (hN : 2 ≤ N) (hL : 2 ≤ L) {rpu : ℕ → Task} {lists : ℕ → List Task}
    (h : RingInv N L rpu) (hload : Loaded L lists) :
    SendInv N L (passDown N rpu) (ringStep N locked lists rpu) := by
  refine Runs.foldl_range_keeps (P := fun _ s => SendInv N L (passDown N rpu) s) ?_
    fun m hm s ih => ih.sendAt locked hN hL hm
  refine ⟨passDown_ringInv h, hload, fun _ _ _ => rfl, fun p hp => absurd hp (by simp),
    List.nodup_nil, fun x hx hpop httl => ?_⟩
  exact absurd httl (ne_of_lt (passDown_pop_lt h hx hpop))

/-- An RPU with all `L` cycles to live at the end of a cycle has just got its task, or it holds the
write-back of a pop that had them at the beginning. -/
theorem ringStep_full (hN : 2 ≤ N) (hL : 2 ≤ L) {rpu : ℕ → Task} (h : RingInv N L rpu)
    (locked : ℕ → Bool) (lists : ℕ → List Task) {x : ℕ} (hx : x < N)
    (hfull : ((ringStep N locked lists rpu).rpu x).TTL = L) :
    (x, (ringStep N locked lists rpu).rpu x) ∈ (ringStep N locked lists rpu).sent ∨
      (rpu x).type = .pop ∧ (rpu x).TTL = L ∧
        (ringStep N locked lists rpu).rpu x = { rpu x with type := .writeBack } := by
  have hloop : ((ringStep N locked lists rpu).rpu x).TTL = L →
      (x, (ringStep N locked lists rpu).rpu x) ∈ (ringStep N locked lists rpu).sent ∨
        (ringStep N locked lists rpu).rpu x = passDown N rpu x := by
    refine Runs.foldl_range_keeps (P := fun _ (s : Sending) => (s.rpu x).TTL = L →
      (x, s.rpu x) ∈ s.sent ∨ s.rpu x = passDown N rpu x) (fun _ => Or.inr rfl)
      fun m _ s ih hfull => ?_
    rcases sendAt_stores hN locked s m with hnone | ⟨t, rest, -, -, -, hsent, hself, hsame⟩
    · rw [hnone] at hfull ⊢
      exact ih hfull
    · by_cases hxm : x = m
      · rw [hxm, hself, hsent]
        exact Or.inl (List.mem_append_right _ (List.mem_singleton_self _))
      · have hkept := hsame x hxm (by rw [hfull]; exact_mod_cast hL)
        rw [hkept] at hfull ⊢
        rw [hsent]
        exact (ih hfull).imp_left (List.mem_append_left _)
  refine (hloop hfull).imp_right fun hpass => ?_
  rw [hpass, passDown_eq rpu hx, passed] at hfull
  rw [hpass, passDown_eq rpu hx, passed]
  have hle := h.le (prev N x) (prev_lt hx)
  split at hfull
  · next hpop => exact ⟨hpop, hfull, if_pos hpop⟩
  · split at hfull
    · have hfull' : (rpu (prev N x)).TTL - 1 = L := hfull
      omega
    · have hfull' : (0 : ℤ) = L := hfull
      omega

end Send

/-! ## Runs -/

section Run

variable {N L : ℕ} {locked : ℕ → ℕ → Bool} {lists : ℕ → ℕ → List Task}

/-- The ring at the end of cycle `c`, and what has been sent in it.  In cycle `c + 1` the
task lists are `lists c` and the locks `locked c`; cycle 0 stands for the start. -/
def ring (N : ℕ) (locked : ℕ → ℕ → Bool) (lists : ℕ → ℕ → List Task) : ℕ → Sending
  | 0 => ⟨fun _ => Task.blank, fun _ => [], []⟩
  | c + 1 => ringStep N (locked c) (lists c) (ring N locked lists c).rpu

variable (locked) in
theorem ring_inv (hN : 2 ≤ N) (hL : 2 ≤ L) (hload : ∀ c, Loaded L (lists c)) (c : ℕ) :
    RingInv N L (ring N locked lists c).rpu := by
  induction c with
  | zero => exact ringInv_blank
  | succ c ih => exact (ringStep_inv (locked c) hN hL ih (hload c)).ring

variable (locked) in
/-- **A task that has a cycle left to live moves on.** -/
theorem ring_move (hN : 2 ≤ N) (hL : 2 ≤ L) (hload : ∀ c, Loaded L (lists c)) {c x : ℕ}
    (hx : x < N) (htype : ((ring N locked lists c).rpu x).type = .push ∨
      ((ring N locked lists c).rpu x).type = .pop)
    (hlive : 2 ≤ ((ring N locked lists c).rpu x).TTL) :
    (ring N locked lists (c + 1)).rpu ((x + 1) % N) =
      { (ring N locked lists c).rpu x with TTL := ((ring N locked lists c).rpu x).TTL - 1 } := by
  have hinv := ring_inv locked hN hL hload c
  have hstep := ringStep_inv (locked c) hN hL hinv (hload c)
  have hN' : 0 < N := by omega
  have hy : (x + 1) % N < N := Nat.mod_lt _ hN'
  have hprev : prev N ((x + 1) % N) = x := by rw [prev_mod_add_one hN', Nat.mod_eq_of_lt hx]
  -- the RPU in front does not hold a pop
  have hfront : ((ring N locked lists c).rpu ((x + 1) % N)).type ≠ .pop := by
    intro hpop
    rcases hinv.before_pop _ hy hpop with hwb | hone
    · rw [hprev] at hwb
      rcases htype with h | h <;> rw [h] at hwb <;> exact absurd hwb (by simp)
    · rw [hprev] at hone
      omega
  have hpass : passDown N (ring N locked lists c).rpu ((x + 1) % N) =
      { (ring N locked lists c).rpu x with TTL := ((ring N locked lists c).rpu x).TTL - 1 } := by
    rw [passDown_eq _ hy, passed, if_neg hfront, hprev, if_pos (by omega)]
  rw [← hpass]
  refine hstep.kept _ hy ?_
  rw [hpass]
  rcases htype with h | h <;> simp [h]

variable (locked) in
/-- **A pop leaves its write-back behind.** -/
theorem ring_writeBack (hN : 2 ≤ N) (hL : 2 ≤ L) (hload : ∀ c, Loaded L (lists c)) {c x : ℕ}
    (hx : x < N) (hpop : ((ring N locked lists c).rpu x).type = .pop) :
    (ring N locked lists (c + 1)).rpu x =
      { (ring N locked lists c).rpu x with type := .writeBack } := by
  have hinv := ring_inv locked hN hL hload c
  have hstep := ringStep_inv (locked c) hN hL hinv (hload c)
  have hpass : passDown N (ring N locked lists c).rpu x =
      { (ring N locked lists c).rpu x with type := .writeBack } := by
    rw [passDown_eq _ hx, passed, if_pos hpop]
  rw [← hpass]
  refine hstep.kept x hx ?_
  rw [hpass]
  simp

/-- A task that was sent in cycle `c` is where its age says. -/
theorem ring_at (hN : 2 ≤ N) (hL : 2 ≤ L) (hload : ∀ c, Loaded L (lists c)) {c i : ℕ} {t : Task}
    (hsent : (i, t) ∈ (ring N locked lists c).sent) {k : ℕ} (hk : k < L) :
    (ring N locked lists (c + k)).rpu ((i + k) % N) = { t with TTL := (L : ℤ) - k } := by
  obtain ⟨hi, hrpu, hfresh⟩ : i < N ∧ (ring N locked lists c).rpu i = t ∧ t.Fresh L := by
    cases c with
    | zero => exact absurd hsent (by simp [ring])
    | succ c =>
      exact (ringStep_inv (locked c) hN hL (ring_inv locked hN hL hload c) (hload c)).sent _
        hsent
  induction k with
  | zero =>
    rw [Nat.add_zero, Nat.add_zero, Nat.mod_eq_of_lt hi, hrpu]
    exact Task.ext rfl rfl (by rw [hfresh.TTL]; simp) rfl rfl
  | succ k ih =>
    have ih := ih (by omega)
    have hx : (i + k) % N < N := Nat.mod_lt _ (by omega)
    have hmove := ring_move locked hN hL hload (c := c + k) hx
      (by rw [ih]; exact hfresh.type) (by rw [ih]; show 2 ≤ (L : ℤ) - k; omega)
    rw [ih, Nat.mod_add_mod] at hmove
    rw [← Nat.add_assoc, ← Nat.add_assoc, hmove]
    refine Task.ext rfl rfl ?_ rfl rfl
    show (L : ℤ) - k - 1 = L - (k + 1 : ℕ)
    push_cast
    ring

/-- **The simulated ring drops no task.**  For every number of RPUs, every depth and every
content of the lists and of `locked` in every cycle, a task sent at RPU `i` in cycle `c` is
found at RPU `(i + k) % N` at the end of cycle `c + k` with `L - k` cycles to live, for every
`k < L`; a pop is followed there by its write-back one cycle later; and the pops that are
seen with all `L` cycles to live at the end of a cycle are those sent in this cycle, one at
most by each RPU, so that each is executed once. -/
theorem ring_drops_no_task (N L : ℕ) (hL : 2 ≤ L) (hLN : L ≤ N) (locked : ℕ → ℕ → Bool)
    (lists : ℕ → ℕ → List Task) (hload : ∀ c, Loaded L (lists c)) :
    (∀ c i t k, (i, t) ∈ (ring N locked lists c).sent → k < L →
      (ring N locked lists (c + k)).rpu ((i + k) % N) = { t with TTL := (L : ℤ) - k } ∧
      (t.type = .pop → (ring N locked lists (c + k + 1)).rpu ((i + k) % N) =
        { t with type := .writeBack, TTL := (L : ℤ) - k })) ∧
    (∀ c, ((ring N locked lists c).sent.map Prod.fst).Nodup ∧
      ∀ x < N, ∀ t, (x, t) ∈ (ring N locked lists c).sent ∧ t.type = .pop ↔
        (ring N locked lists c).rpu x = t ∧ t.type = .pop ∧ t.TTL = L) := by
  have hN : 2 ≤ N := hL.trans hLN
  refine ⟨fun c i t k hsent hk => ?_, fun c => ?_⟩
  · have hat := ring_at hN hL hload hsent hk
    refine ⟨hat, fun hpop => ?_⟩
    have hwb := ring_writeBack locked hN hL hload (c := c + k) (x := (i + k) % N)
      (Nat.mod_lt _ (by omega)) (by rw [hat]; exact hpop)
    rw [hwb, hat]
  · cases c with
    | zero =>
      refine ⟨List.nodup_nil, fun x hx t => ⟨?_, ?_⟩⟩
      · exact fun h => absurd h.1 (by simp [ring])
      · rintro ⟨rfl, hpop, -⟩
        exact absurd hpop (by simp [ring, Task.blank])
    | succ c =>
      have hstep := ringStep_inv (locked c) hN hL
        (ring_inv locked hN hL hload c) (hload c)
      refine ⟨hstep.nodup, fun x hx t => ⟨?_, ?_⟩⟩
      · rintro ⟨hsent, hpop⟩
        obtain ⟨-, hrpu, hfresh⟩ := hstep.sent _ hsent
        exact ⟨hrpu, hpop, hfresh.TTL⟩
      · rintro ⟨rfl, hpop, httl⟩
        exact ⟨hstep.new_pop x hx hpop httl, hpop⟩

/-- A pop in list 1 of a ring of three RPUs, with two cycles to live. -/
def onePop (c i : ℕ) : List Task := if c = 0 ∧ i = 1 then [⟨.pop, 0, 2, 0, 0⟩] else []

theorem ring_drops_no_task_onePop :
    (ring 3 (fun _ _ => false) onePop 2).rpu 2 = ⟨.pop, 0, 1, 0, 0⟩ ∧
      (ring 3 (fun _ _ => false) onePop 3).rpu 2 = ⟨.writeBack, 0, 1, 0, 0⟩ := by
  have hload : ∀ c, Loaded 2 (onePop c) := by
    intro c i t ht
    unfold onePop at ht
    split at ht
    · rw [List.mem_singleton.mp ht]
      exact ⟨Or.inr rfl, rfl⟩
    · exact absurd ht (by simp)
  have hsent : (1, (⟨.pop, 0, 2, 0, 0⟩ : Task)) ∈ (ring 3 (fun _ _ => false) onePop 1).sent := by
    decide +kernel
  obtain ⟨hat, hwb⟩ := (ring_drops_no_task 3 2 (by decide) (by decide) (fun _ _ => false) onePop
    hload).1 1 1 _ 1 hsent (by decide)
  exact ⟨hat, hwb rfl⟩

end Run

end Simulator

end VPifo
