import Mathlib.Algebra.BigOperators.Group.Finset.Piecewise
import Mathlib.Algebra.BigOperators.Group.Finset.Sigma
import Mathlib.Algebra.BigOperators.Group.Multiset.Basic
import Mathlib.Algebra.Order.Group.Multiset
import Mathlib.Data.Multiset.Filter
import Mathlib.Tactic.Abel

/-!
# Queues that are driven by tokens

A hierarchy of priority queues stores a packet as a chain of entries: the root holds a
token that names a queue, this queue holds a token that names another one, and the last
queue of the chain holds the packet.  A pop of the root therefore starts a chain of pops,
each of which is issued when the one before has been executed.  Meanwhile the operations of
a queue wait, in order, and it is far from clear that a pop that is issued now will find
something when its turn comes.

This file proves that it does, for any number of queues, any elements and any order of
execution, from two facts about the state.

* *Balance.*  The elements that a queue holds or is going to hold are as many as the pops
  that wait for it and the tokens that lead to it (`Inv.balanced`).
* *Cover.*  Executed in order, the operations that wait for a queue find an element at every
  pop (`Covered`).

A net is what the queues hold and which operations wait for each of them.  What an element
leads to when it is popped is given by `next : T → V → Option T`: another queue, or nothing
if the element is a packet.  The root is the one queue that is popped from outside; its
*budget* is how many pops it can still take.
-/

namespace VPifo

namespace TokenNet

/-! ## Operations that wait -/

/-- An operation that waits for its queue. -/
inductive Op (V : Type) where
  | push (v : V)
  | pop
  deriving DecidableEq

section Ops

variable {V : Type}

/-- The elements that the operations are going to put into the queue. -/
def pushVals : List (Op V) → Multiset V
  | [] => 0
  | .push v :: ops => v ::ₘ pushVals ops
  | .pop :: ops => pushVals ops

/-- How many pops wait. -/
def popCount : List (Op V) → ℕ
  | [] => 0
  | .push _ :: ops => popCount ops
  | .pop :: ops => popCount ops + 1

@[simp] theorem pushVals_nil : pushVals ([] : List (Op V)) = 0 := rfl

@[simp] theorem pushVals_push (v : V) (ops : List (Op V)) :
    pushVals (.push v :: ops) = v ::ₘ pushVals ops := rfl

@[simp] theorem pushVals_pop (ops : List (Op V)) : pushVals (.pop :: ops) = pushVals ops := rfl

@[simp] theorem popCount_nil : popCount ([] : List (Op V)) = 0 := rfl

@[simp] theorem popCount_push (v : V) (ops : List (Op V)) :
    popCount (.push v :: ops) = popCount ops := rfl

@[simp] theorem popCount_pop (ops : List (Op V)) : popCount (.pop :: ops) = popCount ops + 1 := rfl

@[simp] theorem pushVals_append (ops ops' : List (Op V)) :
    pushVals (ops ++ ops') = pushVals ops + pushVals ops' := by
  induction ops with
  | nil => simp
  | cons op ops ih => cases op <;> simp [ih]

@[simp] theorem popCount_append (ops ops' : List (Op V)) :
    popCount (ops ++ ops') = popCount ops + popCount ops' := by
  induction ops with
  | nil => simp
  | cons op ops ih =>
    cases op with
    | push v => simpa using ih
    | pop =>
      simp only [List.cons_append, popCount_pop, ih]
      omega

/-- Every pop finds an element, when the queue starts with `n` of them. -/
def Covered : ℕ → List (Op V) → Prop
  | _, [] => True
  | n, .push _ :: ops => Covered (n + 1) ops
  | n, .pop :: ops => 0 < n ∧ Covered (n - 1) ops

theorem covered_append_push {ops : List (Op V)} (v : V) : ∀ {n : ℕ}, Covered n ops →
    Covered n (ops ++ [.push v]) := by
  induction ops with
  | nil => exact fun _ => trivial
  | cons op ops ih =>
    intro n h
    cases op with
    | push u => exact ih h
    | pop => exact ⟨h.1, ih h.2⟩

/-- A pop may wait at the end if there are elements left for it. -/
theorem covered_append_pop {ops : List (Op V)} : ∀ {n : ℕ}, Covered n ops →
    popCount ops < n + (pushVals ops).card → Covered n (ops ++ [.pop]) := by
  induction ops with
  | nil =>
    intro n _ hlt
    exact ⟨by simpa using hlt, trivial⟩
  | cons op ops ih =>
    intro n h hlt
    cases op with
    | push u =>
      rw [popCount_push, pushVals_push, Multiset.card_cons] at hlt
      exact ih h (by omega)
    | pop =>
      rw [popCount_pop, pushVals_pop] at hlt
      exact ⟨h.1, ih h.2 (by have := h.1; omega)⟩

end Ops

/-! ## Gathering elements from all queues -/

section Gather

variable {T V : Type} [DecidableEq T]

/-- The elements with a property, over all queues. -/
def gather (trees : Finset T) (P : T → V → Prop) [∀ t, DecidablePred (P t)] (h : T → Multiset V) :
    Multiset V := ∑ t ∈ trees, (h t).filter (P t)

/-- One element more in one queue. -/
theorem gather_cons {trees : Finset T} {P : T → V → Prop} [∀ t, DecidablePred (P t)]
    {h h' : T → Multiset V} {t : T} {v : V} (ht : t ∈ trees) (hself : h' t = v ::ₘ h t)
    (hother : ∀ u, u ≠ t → h' u = h u) :
    gather trees P h' = (if P t v then {v} else 0) + gather trees P h := by
  have hrest : ∑ u ∈ trees.erase t, (h' u).filter (P u) = ∑ u ∈ trees.erase t, (h u).filter (P u) :=
    Finset.sum_congr rfl fun u hu => by rw [hother u (Finset.ne_of_mem_erase hu)]
  rw [gather, gather, ← Finset.add_sum_erase trees (fun u => (h' u).filter (P u)) ht,
    ← Finset.add_sum_erase trees (fun u => (h u).filter (P u)) ht, hrest, hself]
  by_cases hp : P t v
  · rw [if_pos hp, Multiset.filter_cons_of_pos _ hp, ← Multiset.singleton_add]
    abel
  · rw [if_neg hp, Multiset.filter_cons_of_neg _ hp, zero_add]

end Gather

/-! ## Nets -/

/-- What the queues hold, and the operations that wait for each of them. -/
structure Net (T V : Type) where
  store : T → Multiset V
  ops : T → List (Op V)

section Net

variable {T V : Type} [DecidableEq T]

namespace Net

variable (s : Net T V) (t : T) (v : V)

/-- What a queue holds or is going to hold. -/
def held (t : T) : Multiset V := s.store t + pushVals (s.ops t)

/-- An operation joins the ones that wait for queue `t`. -/
def add (op : Op V) : Net T V :=
  { s with ops := fun u => if u = t then s.ops u ++ [op] else s.ops u }

/-- The push that waits first is executed. -/
def doPush : Net T V where
  store u := if u = t then v ::ₘ s.store u else s.store u
  ops u := if u = t then (s.ops u).tail else s.ops u

/-- The pop that waits first is executed, and takes `v`. -/
def doPop [DecidableEq V] : Net T V where
  store u := if u = t then (s.store u).erase v else s.store u
  ops u := if u = t then (s.ops u).tail else s.ops u

/-- The pop that `v` leads to joins the ones that wait. -/
def follow : Option T → Net T V
  | none => s
  | some u => s.add u .pop

end Net

variable {trees : Finset T} {next : T → V → Option T} {root : T} {s : Net T V} {t : T} {v : V}
  {budget : ℕ}

/-- The tokens that lead to queue `u`. -/
def tokens (trees : Finset T) (next : T → V → Option T) (s : Net T V) (u : T) : Multiset V :=
  gather trees (fun t v => next t v = some u) s.held

/-- The packets. -/
def leaves (trees : Finset T) (next : T → V → Option T) (s : Net T V) : Multiset V :=
  gather trees (fun t v => next t v = none) s.held

/-- How many pops wait, over all queues. -/
def underWay (trees : Finset T) (s : Net T V) : ℕ := ∑ t ∈ trees, popCount (s.ops t)

/-- The invariant. -/
structure Inv (trees : Finset T) (next : T → V → Option T) (root : T) (budget : ℕ)
    (s : Net T V) : Prop where
  covered : ∀ t, Covered (s.store t).card (s.ops t)
  closed : ∀ t ∈ trees, ∀ v ∈ s.held t, ∀ u, next t v = some u → u ∈ trees ∧ u ≠ root
  balanced : ∀ u ∈ trees, u ≠ root →
    (s.held u).card = popCount (s.ops u) + (tokens trees next s u).card
  root : (s.held root).card = popCount (s.ops root) + budget

/-! ## The empty net -/

/-- Nothing is held and nothing waits. -/
def Net.empty : Net T V := ⟨fun _ => 0, fun _ => []⟩

omit [DecidableEq T] in
theorem leaves_empty : leaves trees next (Net.empty : Net T V) = 0 :=
  Finset.sum_eq_zero fun _ _ => rfl

omit [DecidableEq T] in
theorem underWay_empty : underWay trees (Net.empty : Net T V) = 0 :=
  Finset.sum_eq_zero fun _ _ => rfl

theorem inv_empty : Inv trees next root 0 (Net.empty : Net T V) where
  covered _ := trivial
  closed _ _ _ hv := absurd hv (Multiset.notMem_zero _)
  balanced u _ _ := by
    have hnone : tokens trees next (Net.empty : Net T V) u = 0 := Finset.sum_eq_zero fun _ _ => rfl
    rw [hnone]
    rfl
  root := rfl

/-! ## What the operations do -/

@[simp] theorem held_add_push (u : T) : (s.add t (.push v)).held u =
    if u = t then v ::ₘ s.held u else s.held u := by
  by_cases hu : u = t
  · simp only [Net.held, Net.add, hu, if_true, pushVals_append, pushVals_push, pushVals_nil]
    rw [Multiset.add_cons, Multiset.add_cons, add_zero]
  · simp [Net.held, Net.add, hu]

@[simp] theorem held_add_pop (u : T) : (s.add t .pop).held u = s.held u := by
  by_cases hu : u = t
  · simp [Net.held, Net.add, hu]
  · simp [Net.held, Net.add, hu]

theorem popCount_add_push (u : T) : popCount ((s.add t (.push v)).ops u) = popCount (s.ops u) := by
  by_cases hu : u = t
  · simp [Net.add, hu]
  · simp [Net.add, hu]

theorem popCount_add_pop (u : T) : popCount ((s.add t .pop).ops u) =
    if u = t then popCount (s.ops u) + 1 else popCount (s.ops u) := by
  by_cases hu : u = t
  · simp [Net.add, hu]
  · simp [Net.add, hu]

theorem held_doPush {rest : List (Op V)} (hops : s.ops t = .push v :: rest) (u : T) :
    (s.doPush t v).held u = s.held u := by
  by_cases hu : u = t
  · simp [Net.held, Net.doPush, hu, hops]
  · simp [Net.held, Net.doPush, hu]

theorem popCount_doPush {rest : List (Op V)} (hops : s.ops t = .push v :: rest) (u : T) :
    popCount ((s.doPush t v).ops u) = popCount (s.ops u) := by
  by_cases hu : u = t
  · simp [Net.doPush, hu, hops]
  · simp [Net.doPush, hu]

theorem held_doPop [DecidableEq V] {rest : List (Op V)} (hops : s.ops t = .pop :: rest)
    (hv : v ∈ s.store t) (u : T) :
    s.held u = if u = t then v ::ₘ (s.doPop t v).held u else (s.doPop t v).held u := by
  by_cases hu : u = t
  · subst hu
    simp only [if_true, Net.held, Net.doPop, hops, List.tail_cons, pushVals_pop]
    rw [← Multiset.cons_add, Multiset.cons_erase hv]
  · simp [Net.held, Net.doPop, hu]

theorem popCount_doPop [DecidableEq V] {rest : List (Op V)} (hops : s.ops t = .pop :: rest)
    (u : T) :
    popCount (s.ops u) =
      if u = t then popCount ((s.doPop t v).ops u) + 1 else popCount ((s.doPop t v).ops u) := by
  by_cases hu : u = t
  · simp [Net.doPop, hu, hops]
  · simp [Net.doPop, hu]

/-- A pop that waits first finds an element. -/
theorem Inv.store_ne_zero (h : Inv trees next root budget s) {rest : List (Op V)}
    (hops : s.ops t = .pop :: rest) : s.store t ≠ 0 := by
  have hcov := h.covered t
  rw [hops] at hcov
  exact fun hz => absurd hcov.1 (by rw [hz]; simp)

theorem underWay_add_pop (ht : t ∈ trees) :
    underWay trees (s.add t .pop) = underWay trees s + 1 := by
  rw [underWay, underWay, ← Finset.add_sum_erase trees _ ht,
    ← Finset.add_sum_erase trees (fun u => popCount (s.ops u)) ht, popCount_add_pop, if_pos rfl,
    Finset.sum_congr rfl fun u hu => by rw [popCount_add_pop, if_neg (Finset.ne_of_mem_erase hu)]]
  omega

theorem underWay_add_push : underWay trees (s.add t (.push v)) = underWay trees s :=
  Finset.sum_congr rfl fun u _ => popCount_add_push u

theorem leaves_add_pop : leaves trees next (s.add t .pop) = leaves trees next s := by
  rw [leaves, leaves, show (s.add t .pop).held = s.held from funext held_add_pop]

/-! ## The invariant is kept -/

/-- The root takes a pop. -/
theorem Inv.add_root_pop (h : Inv trees next root (budget + 1) s) :
    Inv trees next root budget (s.add root .pop) := by
  refine ⟨fun t => ?_, fun t ht v hv => ?_, fun u hu hur => ?_, ?_⟩
  · by_cases ht : t = root
    · have hroot := h.root
      rw [Net.held, Multiset.card_add] at hroot
      simp only [Net.add, ht, if_true]
      exact covered_append_pop (h.covered root) (by omega)
    · simp only [Net.add, if_neg ht]
      exact h.covered t
  · rw [held_add_pop] at hv
    exact h.closed t ht v hv
  · have hheld : (s.add root .pop).held = s.held := funext held_add_pop
    rw [held_add_pop, popCount_add_pop, if_neg hur, h.balanced u hu hur, tokens, tokens, hheld]
  · rw [held_add_pop, popCount_add_pop, if_pos rfl, h.root]
    omega

/-- A push is executed. -/
theorem Inv.doPush (h : Inv trees next root budget s) {rest : List (Op V)}
    (hops : s.ops t = .push v :: rest) : Inv trees next root budget (s.doPush t v) := by
  have hheld : (s.doPush t v).held = s.held := funext (held_doPush hops)
  refine ⟨fun u => ?_, fun u hu x hx => ?_, fun u hu hur => ?_, ?_⟩
  · have hcov := h.covered u
    by_cases hu : u = t
    · subst hu
      rw [hops] at hcov
      simp only [Net.doPush, if_true, hops, List.tail_cons, Multiset.card_cons]
      exact hcov
    · simp only [Net.doPush, if_neg hu]
      exact hcov
  · rw [hheld] at hx
    exact h.closed u hu x hx
  · rw [hheld, popCount_doPush hops, h.balanced u hu hur, tokens, tokens, hheld]
  · rw [hheld, popCount_doPush hops, h.root]

section Pop

variable [DecidableEq V]

theorem gather_doPop {P : T → V → Prop} [∀ t, DecidablePred (P t)] {rest : List (Op V)}
    (ht : t ∈ trees) (hops : s.ops t = .pop :: rest) (hv : v ∈ s.store t) :
    gather trees P s.held = (if P t v then {v} else 0) + gather trees P (s.doPop t v).held := by
  refine gather_cons ht ?_ fun u hu => ?_
  · rw [held_doPop hops hv, if_pos rfl]
  · rw [held_doPop hops hv, if_neg hu]

/-- The invariant in the middle of a pop: a token has left its queue, and the pop it leads to,
of tree `w`, has not joined its own yet. -/
structure Owing (trees : Finset T) (next : T → V → Option T) (root : T) (budget : ℕ)
    (w : Option T) (s : Net T V) : Prop where
  covered : ∀ t, Covered (s.store t).card (s.ops t)
  closed : ∀ t ∈ trees, ∀ v ∈ s.held t, ∀ u, next t v = some u → u ∈ trees ∧ u ≠ root
  balanced : ∀ u ∈ trees, u ≠ root → (s.held u).card =
    popCount (s.ops u) + (tokens trees next s u).card + if w = some u then 1 else 0
  target : ∀ u, w = some u → u ∈ trees ∧ u ≠ root
  root : (s.held root).card = popCount (s.ops root) + budget

/-- A pop that takes `v` owes the one that `v` leads to. -/
theorem Inv.owing (h : Inv trees next root budget s) (ht : t ∈ trees) {rest : List (Op V)}
    (hops : s.ops t = .pop :: rest) (hv : v ∈ s.store t) :
    Owing trees next root budget (next t v) (s.doPop t v) := by
  have hcard : ∀ u, (s.held u).card =
      ((s.doPop t v).held u).card + if u = t then 1 else 0 := by
    intro u
    rw [held_doPop hops hv u]
    split <;> simp
  have hpops : ∀ u, popCount (s.ops u) =
      popCount ((s.doPop t v).ops u) + if u = t then 1 else 0 := by
    intro u
    rw [popCount_doPop (v := v) hops u]
    split <;> rfl
  -- without the token `v`, queue `u` has one pop less than it has elements, if `v` leads to it
  have htok : ∀ u, (tokens trees next s u).card =
      (tokens trees next (s.doPop t v) u).card + if next t v = some u then 1 else 0 := by
    intro u
    rw [tokens, gather_doPop ht hops hv, tokens, Multiset.card_add, Nat.add_comm]
    congr 1
    split <;> simp
  refine ⟨fun u => ?_, fun u hu x hx => ?_, fun u hu hur => ?_,
    h.closed t ht v (Multiset.mem_add.mpr (Or.inl hv)), ?_⟩
  · have hcov := h.covered u
    by_cases hu : u = t
    · subst hu
      rw [hops] at hcov
      simp only [Net.doPop, if_true, hops, List.tail_cons, Multiset.card_erase_of_mem hv]
      exact hcov.2
    · simp only [Net.doPop, if_neg hu]
      exact hcov
  · refine h.closed u hu x ?_
    rw [held_doPop hops hv u]
    split
    · exact Multiset.mem_cons_of_mem hx
    · exact hx
  · have hb := h.balanced u hu hur
    rw [hcard, hpops, htok] at hb
    omega
  · have hr := h.root
    rw [hcard, hpops] at hr
    omega

omit [DecidableEq V] in
/-- The pop that is owed joins its queue. -/
theorem Owing.follow {w : Option T} (h : Owing trees next root budget w s) :
    Inv trees next root budget (s.follow w) := by
  cases w with
  | none => exact ⟨h.covered, h.closed, fun u hu hur => h.balanced u hu hur, h.root⟩
  | some w =>
    obtain ⟨hw, hwr⟩ := h.target w rfl
    have hheld : (s.add w .pop).held = s.held := funext held_add_pop
    refine ⟨fun u => ?_, fun u hu x hx => ?_, fun u hu hur => ?_, ?_⟩
    · by_cases hu : u = w
      · have hb := h.balanced w hw hwr
        rw [if_pos rfl, Net.held, Multiset.card_add] at hb
        simp only [Net.follow, Net.add, hu, if_true]
        exact covered_append_pop (h.covered w) (by omega)
      · simp only [Net.follow, Net.add, if_neg hu]
        exact h.covered u
    · rw [Net.follow, hheld] at hx
      exact h.closed u hu x hx
    · have hb := h.balanced u hu hur
      rw [Net.follow, hheld, popCount_add_pop, tokens, hheld, ← tokens, hb]
      by_cases huw : u = w
      · rw [if_pos huw, if_pos (by rw [huw])]
        omega
      · rw [if_neg huw, if_neg fun heq => huw (Option.some.inj heq).symm]
        rfl
    · rw [Net.follow, hheld, popCount_add_pop, if_neg hwr.symm]
      exact h.root

/-- **A pop is executed**, takes `v`, and the pop that `v` leads to joins its queue. -/
theorem Inv.doPop (h : Inv trees next root budget s) (ht : t ∈ trees) {rest : List (Op V)}
    (hops : s.ops t = .pop :: rest) (hv : v ∈ s.store t) :
    Inv trees next root budget ((s.doPop t v).follow (next t v)) :=
  (h.owing ht hops hv).follow

variable (next) in
theorem leaves_doPop (ht : t ∈ trees) {rest : List (Op V)} (hops : s.ops t = .pop :: rest)
    (hv : v ∈ s.store t) : leaves trees next s =
      (if next t v = none then {v} else 0) +
        leaves trees next ((s.doPop t v).follow (next t v)) := by
  rw [leaves, gather_doPop ht hops hv, leaves]
  congr 1
  cases next t v with
  | none => rfl
  | some w => rw [Net.follow, show ((s.doPop t v).add w .pop).held = (s.doPop t v).held from
      funext held_add_pop]

/-- A pop that is executed is replaced by the one it leads to, if it leads to one. -/
theorem underWay_doPop (h : Inv trees next root budget s) (ht : t ∈ trees) {rest : List (Op V)}
    (hops : s.ops t = .pop :: rest) (hv : v ∈ s.store t) : underWay trees s =
      (if next t v = none then 1 else 0) + underWay trees ((s.doPop t v).follow (next t v)) := by
  have htake : underWay trees s = underWay trees (s.doPop t v) + 1 := by
    rw [underWay, underWay, ← Finset.add_sum_erase trees _ ht,
      ← Finset.add_sum_erase trees (fun u => popCount ((s.doPop t v).ops u)) ht,
      popCount_doPop (v := v) hops t, if_pos rfl, Finset.sum_congr rfl fun u hu => by
        rw [popCount_doPop (v := v) hops u, if_neg (Finset.ne_of_mem_erase hu)]]
    omega
  cases hnext : next t v with
  | none =>
    rw [htake, if_pos rfl, Net.follow]
    omega
  | some w =>
    have hw := (h.closed t ht v (Multiset.mem_add.mpr (Or.inl hv)) w hnext).1
    rw [htake, if_neg (by simp), Net.follow, underWay_add_pop hw, zero_add]

end Pop

/-! ## How many packets there are -/

/-- The elements of a queue, sorted by where they lead. -/
theorem card_eq_sum_next {f : V → Option T} {m : Multiset V}
    (hm : ∀ v ∈ m, ∀ u, f v = some u → u ∈ trees) :
    m.card = (m.filter fun v => f v = none).card +
      ∑ u ∈ trees, (m.filter fun v => f v = some u).card := by
  induction m using Multiset.induction_on with
  | empty => simp
  | cons v m ih =>
    rw [Multiset.card_cons, ih fun x hx => hm x (Multiset.mem_cons_of_mem hx)]
    cases hv : f v with
    | none =>
      have hnone : (v ::ₘ m).filter (fun v => f v = none) = v ::ₘ m.filter fun v => f v = none :=
        Multiset.filter_cons_of_pos m hv
      have hsome : ∀ u, (v ::ₘ m).filter (fun v => f v = some u) = m.filter fun v => f v = some u :=
        fun u => Multiset.filter_cons_of_neg m (by rw [hv]; simp)
      rw [hnone, Multiset.card_cons]
      simp only [hsome]
      omega
    | some w =>
      have hw := hm v (Multiset.mem_cons_self v m) w hv
      have hcons : ∀ u, ((v ::ₘ m).filter fun v => f v = some u).card =
          (m.filter fun v => f v = some u).card + if u = w then 1 else 0 := by
        intro u
        by_cases hu : u = w
        · rw [if_pos hu, Multiset.filter_cons_of_pos _ (by rw [hv, hu]), Multiset.card_cons]
        · rw [if_neg hu, Multiset.filter_cons_of_neg _ (by rw [hv]; simpa using fun h => hu h.symm)]
          rfl
      rw [Multiset.filter_cons_of_neg _ (by rw [hv]; simp), Finset.sum_congr rfl fun u _ => hcons u,
        Finset.sum_add_distrib, Finset.sum_ite_eq', if_pos hw]
      omega

/-- **There are as many packets as pops under way and pops that the root can still take.** -/
theorem Inv.card_leaves (h : Inv trees next root budget s) (hroot : root ∈ trees) :
    (leaves trees next s).card = underWay trees s + budget := by
  have hall : ∑ t ∈ trees, (s.held t).card =
      (leaves trees next s).card + ∑ u ∈ trees, (tokens trees next s u).card := by
    have htok : ∑ u ∈ trees, (tokens trees next s u).card =
        ∑ t ∈ trees, ∑ u ∈ trees, ((s.held t).filter fun v => next t v = some u).card := by
      rw [Finset.sum_comm]
      exact Finset.sum_congr rfl fun u _ => by rw [tokens, gather, Multiset.card_sum]
    rw [leaves, gather, Multiset.card_sum, htok, ← Finset.sum_add_distrib]
    exact Finset.sum_congr rfl fun t ht =>
      card_eq_sum_next fun v hv u hu => (h.closed t ht v hv u hu).1
  have hnone : tokens trees next s root = 0 := by
    refine Finset.sum_eq_zero fun t ht => Multiset.filter_eq_nil.mpr fun v hv hnext => ?_
    exact (h.closed t ht v hv root hnext).2 rfl
  have hrest : ∑ u ∈ trees.erase root, (s.held u).card =
      ∑ u ∈ trees.erase root, popCount (s.ops u) +
        ∑ u ∈ trees.erase root, (tokens trees next s u).card := by
    rw [← Finset.sum_add_distrib]
    exact Finset.sum_congr rfl fun u hu =>
      h.balanced u (Finset.mem_of_mem_erase hu) (Finset.ne_of_mem_erase hu)
  rw [← Finset.add_sum_erase trees _ hroot, ← Finset.add_sum_erase trees (fun u =>
    (tokens trees next s u).card) hroot, hrest, hnone, h.root] at hall
  rw [underWay, ← Finset.add_sum_erase trees _ hroot]
  simp only [Multiset.card_zero] at hall
  omega

/-! ## A packet arrives -/

/-- The pushes of a packet join their queues. -/
def Net.addAll (s : Net T V) (path : List (T × V)) : Net T V :=
  path.foldl (fun s p => s.add p.1 (.push p.2)) s

/-- A push that joins adds its value. -/
theorem gather_add_push {P : T → V → Prop} [∀ t, DecidablePred (P t)] (ht : t ∈ trees) :
    gather trees P (s.add t (.push v)).held =
      (if P t v then {v} else 0) + gather trees P s.held := by
  refine gather_cons ht ?_ fun u hu => ?_
  · rw [held_add_push, if_pos rfl]
  · rw [held_add_push, if_neg hu]

theorem covered_add_push (hcov : ∀ u, Covered (s.store u).card (s.ops u)) (u : T) :
    Covered ((s.add t (.push v)).store u).card ((s.add t (.push v)).ops u) := by
  by_cases hu : u = t
  · simp only [Net.add, if_pos hu]
    exact covered_append_push v (hcov u)
  · simp only [Net.add, if_neg hu]
    exact hcov u

theorem mem_held_add_push {u : T} {x : V} (hx : x ∈ (s.add t (.push v)).held u) :
    x ∈ s.held u ∨ (u, x) = (t, v) := by
  rw [held_add_push] at hx
  split at hx
  · next hu =>
    rcases Multiset.mem_cons.mp hx with rfl | hx
    · exact Or.inr (by rw [hu])
    · exact Or.inl hx
  · exact Or.inl hx

variable (next) in
/-- What a packet that arrives does to the net, for every list of pushes. -/
theorem addAll_spec (path : List (T × V)) : ∀ {s : Net T V}, (∀ p ∈ path, p.1 ∈ trees) →
    (∀ t, Covered (s.store t).card (s.ops t)) →
    (∀ t, Covered ((s.addAll path).store t).card ((s.addAll path).ops t)) ∧
    (∀ u, popCount ((s.addAll path).ops u) = popCount (s.ops u)) ∧
    (∀ u, ∀ x ∈ (s.addAll path).held u, x ∈ s.held u ∨ (u, x) ∈ path) ∧
    (∀ u, ((s.addAll path).held u).card =
      (s.held u).card + path.countP fun p => decide (p.1 = u)) ∧
    (∀ u, (tokens trees next (s.addAll path) u).card =
      (tokens trees next s u).card + path.countP fun p => decide (next p.1 p.2 = some u)) ∧
    leaves trees next (s.addAll path) =
      leaves trees next s + (path.filter fun p => decide (next p.1 p.2 = none)).map Prod.snd := by
  induction path with
  | nil =>
    intro s _ hcov
    exact ⟨hcov, fun _ => rfl, fun _ x hx => Or.inl hx, fun _ => rfl, fun _ => rfl,
      (add_zero _).symm⟩
  | cons p path ih =>
    intro s hmem hcov
    have ht : p.1 ∈ trees := hmem p List.mem_cons_self
    obtain ⟨h1, h2, h3, h4, h5, h6⟩ := ih (s := s.add p.1 (.push p.2))
      (fun q hq => hmem q (List.mem_cons_of_mem _ hq)) (covered_add_push hcov)
    have hstep : s.addAll (p :: path) = (s.add p.1 (.push p.2)).addAll path := rfl
    rw [hstep]
    refine ⟨h1, fun u => ?_, fun u x hx => ?_, fun u => ?_, fun u => ?_, ?_⟩
    · rw [h2, popCount_add_push]
    · rcases h3 u x hx with hx | hx
      · refine (mem_held_add_push hx).imp_right fun hux => ?_
        rw [hux]
        exact List.mem_cons_self
      · exact Or.inr (List.mem_cons_of_mem _ hx)
    · rw [h4, held_add_push, List.countP_cons]
      by_cases hu : u = p.1
      · rw [if_pos hu, Multiset.card_cons, if_pos (by simp [hu])]
        omega
      · rw [if_neg hu, if_neg (by simpa using fun h => hu h.symm)]
        rfl
    · rw [h5, tokens, gather_add_push ht, Multiset.card_add, ← tokens, List.countP_cons]
      by_cases hu : next p.1 p.2 = some u
      · rw [if_pos hu, if_pos (by simpa using hu), Multiset.card_singleton]
        omega
      · rw [if_neg hu, if_neg (by simpa using hu), Multiset.card_zero]
        omega
    · rw [h6, leaves, gather_add_push ht, ← leaves, List.filter_cons]
      by_cases hu : next p.1 p.2 = none
      · rw [if_pos hu, if_pos (by simpa using hu), List.map_cons, ← Multiset.cons_coe,
          ← Multiset.singleton_add]
        abel
      · rw [if_neg hu, if_neg (by simpa using hu), zero_add]

/-- **A packet arrives.**  Its pushes keep the balance if each of its tokens leads to a queue
that gets one of them. -/
theorem Inv.addAll (h : Inv trees next root budget s) {path : List (T × V)}
    (hmem : ∀ p ∈ path, p.1 ∈ trees)
    (hclosed : ∀ p ∈ path, ∀ u, next p.1 p.2 = some u → u ∈ trees ∧ u ≠ root)
    (hpath : ∀ u ∈ trees, u ≠ root → (path.countP fun p => decide (p.1 = u)) =
      path.countP fun p => decide (next p.1 p.2 = some u)) :
    Inv trees next root (budget + path.countP fun p => decide (p.1 = root)) (s.addAll path) := by
  obtain ⟨hcov, hpops, hsub, hcard, htok, -⟩ := addAll_spec next path hmem h.covered
  refine ⟨hcov, fun t ht v hv u hu => ?_, fun u hu hur => ?_, ?_⟩
  · rcases hsub t v hv with hv | hv
    · exact h.closed t ht v hv u hu
    · exact hclosed _ hv u hu
  · rw [hcard, hpops, htok, h.balanced u hu hur, hpath u hu hur]
    omega
  · rw [hcard, hpops, h.root]
    omega

/-- A packet arrives whose tokens lead from the root from queue to queue: the queues that get a
push are the root and the ones that the tokens name. -/
theorem Inv.addPath (h : Inv trees next root budget s) {path : List (T × V)}
    (hmem : ∀ p ∈ path, p.1 ∈ trees)
    (hchain : (path.map Prod.fst).Perm (root :: path.filterMap fun p => next p.1 p.2))
    (hroot : ∀ p ∈ path, next p.1 p.2 ≠ some root) :
    Inv trees next root (budget + 1) (s.addAll path) := by
  have hcount : ∀ u, (path.countP fun p => decide (p.1 = u)) =
      (path.countP fun p => decide (next p.1 p.2 = some u)) + if root = u then 1 else 0 := by
    intro u
    have hperm := hchain.countP_eq fun x => decide (x = u)
    rw [List.countP_map, List.countP_cons, List.countP_filterMap] at hperm
    simp only [decide_eq_true_eq] at hperm
    refine hperm.trans (congrArg (· + _) (List.countP_congr fun p _ => ?_))
    cases next p.1 p.2 <;> simp
  have hclosed : ∀ p ∈ path, ∀ u, next p.1 p.2 = some u → u ∈ trees ∧ u ≠ root := by
    intro p hp u hu
    refine ⟨?_, fun hur => hroot p hp (hur ▸ hu)⟩
    have hmem' : u ∈ path.map Prod.fst :=
      hchain.mem_iff.mpr (List.mem_cons_of_mem _ (List.mem_filterMap.mpr ⟨p, hp, hu⟩))
    obtain ⟨q, hq, rfl⟩ := List.mem_map.mp hmem'
    exact hmem q hq
  have hinv := h.addAll hmem hclosed fun u _ hur => by
    rw [hcount, if_neg fun h => hur h.symm, add_zero]
  have hnone : (path.countP fun p => decide (next p.1 p.2 = some root)) = 0 :=
    List.countP_eq_zero.mpr fun p hp => by simpa using hroot p hp
  rw [hcount, if_pos rfl, hnone, zero_add] at hinv
  exact hinv

theorem leaves_addAll {path : List (T × V)} (hmem : ∀ p ∈ path, p.1 ∈ trees)
    (hcov : ∀ t, Covered (s.store t).card (s.ops t)) : leaves trees next (s.addAll path) =
      leaves trees next s + (path.filter fun p => decide (next p.1 p.2 = none)).map Prod.snd :=
  (addAll_spec next path hmem hcov).2.2.2.2.2

end Net

end TokenNet

end VPifo
