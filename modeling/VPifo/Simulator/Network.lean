import VPifo.Lib.TokenNet
import VPifo.Simulator.Ring

/-!
# The task lists and the ring as a net of queues

A simulator keeps the operations of all trees in `N` task lists, and a pop that has been
sent waits in the ring until the statistics of the next cycle execute it.  This file reads
both as the operations that wait for each tree, which makes them a net in the sense of
`VPifo.Lib.TokenNet`.  All operations of tree `u` go through the list `home u`, so they keep
their order: a pop that was sent is executed before the list is looked at again.

What the simulators do is then one of the operations of a net: to append a task to a list is
`Net.add` (`ops_append`), to execute a pop is `Net.doPop` (`ops_exec`), and in the phases
*pass down* and *send* the pushes that are sent are executed and nothing else happens
(`ops_ringStep`).

`V` is what the trees store, and `elem` how a push says it.
-/

namespace VPifo

namespace Simulator

open Cyclic TokenNet

variable {V : Type}

/-- The operation of a task. -/
def toOp (elem : Task → V) (t : Task) : Op V := if t.type = .push then .push (elem t) else .pop

/-- A pop that has been sent and not been executed. -/
def Task.Ready (L : ℕ) (t : Task) : Prop := t.TTL = L ∧ t.type = .pop

instance (L : ℕ) (t : Task) : Decidable (t.Ready L) := inferInstanceAs (Decidable (_ ∧ _))

section Ops

variable (home : ℕ → ℕ) (L : ℕ) (elem : Task → V)

/-- The operations of tree `u` in its task list. -/
def listOps (lists : ℕ → List Task) (u : ℕ) : List (Op V) :=
  ((lists (home u)).filter fun t => decide (t.root = u)).map (toOp elem)

/-- The pop of tree `u` that waits in the ring, if RPU `k` has not been passed yet. -/
def readyOps (rpu : ℕ → Task) (k u : ℕ) : List (Op V) :=
  if k ≤ home u ∧ (rpu (home u)).Ready L ∧ (rpu (home u)).root = u then [.pop] else []

/-- The operations that wait for tree `u` when the statistics have reached RPU `k`. -/
def opsOf (lists : ℕ → List Task) (rpu : ℕ → Task) (k u : ℕ) : List (Op V) :=
  readyOps home L rpu k u ++ listOps home elem lists u

end Ops

/-- The tasks of list `i` belong there. -/
structure Placed (home : ℕ → ℕ) (L : ℕ) (lists : ℕ → List Task) : Prop where
  home : ∀ i, ∀ t ∈ lists i, home t.root = i
  loaded : Loaded L lists

/-- The pops that wait in the ring are where they were sent. -/
def ReadyPlaced (home : ℕ → ℕ) (N L : ℕ) (rpu : ℕ → Task) : Prop :=
  ∀ i < N, (rpu i).Ready L → home (rpu i).root = i

section Steps

variable {home : ℕ → ℕ} {N L : ℕ} {elem : Task → V} {lists lists' : ℕ → List Task}
  {rpu : ℕ → Task} {t : Task} {i k : ℕ}

variable (home L elem lists rpu k) in
/-- The pushes that wait for tree `u` are the ones in its list. -/
theorem card_pushed_ops (u : ℕ) : (pushVals (opsOf home L elem lists rpu k u)).card =
    (lists (home u)).countP fun t => decide (t.type = .push ∧ t.root = u) := by
  have hready : pushVals (readyOps home L (V := V) rpu k u) = 0 := by
    rw [readyOps]
    split <;> rfl
  have hlist : ∀ l : List Task,
      (pushVals ((l.filter fun t => decide (t.root = u)).map (toOp elem))).card =
        l.countP fun t => decide (t.type = .push ∧ t.root = u) := by
    intro l
    induction l with
    | nil => rfl
    | cons t l ih =>
      rw [List.countP_cons, ← ih]
      by_cases hu : t.root = u
      · by_cases ht : t.type = .push
        · simp [hu, ht, toOp]
        · simp [hu, ht, toOp]
      · simp [hu]
  rw [opsOf, pushVals_append, hready, zero_add]
  exact hlist _

/-- The tasks of a list, sorted by their trees. -/
theorem sum_countP_root {trees : Finset ℕ} {p : Task → Prop} [DecidablePred p] {l : List Task}
    (h : ∀ t ∈ l, p t → t.root ∈ trees) :
    ∑ u ∈ trees, l.countP (fun t => decide (p t ∧ t.root = u)) =
      l.countP fun t => decide (p t) := by
  induction l with
  | nil => exact Finset.sum_eq_zero fun u _ => rfl
  | cons t l ih =>
    simp only [List.countP_cons, Finset.sum_add_distrib]
    rw [ih fun x hx => h x (List.mem_cons_of_mem _ hx)]
    congr 1
    by_cases ht : p t
    · rw [if_pos (by simpa using ht),
        Finset.sum_eq_single_of_mem t.root (h t List.mem_cons_self ht) fun u _ hu => ?_]
      · exact if_pos (by simpa using ht)
      · exact if_neg (by simpa using fun _ h => hu h.symm)
    · rw [if_neg (by simpa using ht)]
      exact Finset.sum_eq_zero fun u _ => if_neg (by simpa using fun h => absurd h ht)

/-- **A task joins its list.** -/
theorem ops_append (hi : home t.root = i)
    (hlists : ∀ j, lists' j = if j = i then lists j ++ [t] else lists j) (u : ℕ) :
    opsOf home L elem lists' rpu k u =
      if u = t.root then opsOf home L elem lists rpu k u ++ [toOp elem t]
      else opsOf home L elem lists rpu k u := by
  have hlist : listOps home elem lists' u =
      if u = t.root then listOps home elem lists u ++ [toOp elem t]
      else listOps home elem lists u := by
    rw [listOps, listOps, hlists]
    by_cases hu : u = t.root
    · rw [if_pos hu, if_pos (by rw [hu, hi]), List.filter_append, List.map_append]
      simp [hu]
    · rw [if_neg hu]
      split
      · have hne : ¬t.root = u := fun h => hu h.symm
        simp [hne]
      · rfl
  rw [opsOf, opsOf, hlist]
  split
  · rw [List.append_assoc]
  · rfl

theorem placed_append (h : Placed home L lists) (hi : home t.root = i) (ht : t.Fresh L)
    (hlists : ∀ j, lists' j = if j = i then lists j ++ [t] else lists j) :
    Placed home L lists' := by
  have hcases : ∀ j, ∀ x ∈ lists' j, x ∈ lists j ∨ j = i ∧ x = t := by
    intro j x hx
    rw [hlists] at hx
    split at hx
    · next hj =>
      rcases List.mem_append.mp hx with hx | hx
      · exact Or.inl hx
      · exact Or.inr ⟨hj, List.mem_singleton.mp hx⟩
    · exact Or.inl hx
  refine ⟨fun j x hx => ?_, fun j x hx => ?_⟩
  · rcases hcases j x hx with hx | ⟨rfl, rfl⟩
    · exact h.home j x hx
    · exact hi
  · rcases hcases j x hx with hx | ⟨-, rfl⟩
    · exact h.loaded j x hx
    · exact ht

/-- A tree that no task is for can be given another list. -/
theorem ops_new_home {home' : ℕ → ℕ} {w : ℕ} (hhome : ∀ u, u ≠ w → home' u = home u)
    (hlists : ∀ i, ∀ t ∈ lists i, t.root ≠ w)
    (hready : ∀ i < N, (rpu i).Ready L → (rpu i).root ≠ w) (hN : home w < N) (hN' : home' w < N)
    (u : ℕ) : opsOf home' L elem lists rpu k u = opsOf home L elem lists rpu k u := by
  by_cases hu : u = w
  · have hnone : ∀ home : ℕ → ℕ, home w < N → opsOf home L elem lists rpu k w = [] := by
      intro home hlt
      rw [opsOf, readyOps, if_neg fun h => hready _ hlt h.2.1 h.2.2, listOps,
        List.filter_eq_nil_iff.mpr fun t ht => by simpa using hlists _ t ht]
      rfl
    rw [hu, hnone _ hN, hnone _ hN']
  · rw [opsOf, opsOf, readyOps, readyOps, listOps, listOps, hhome u hu]

/-- A pop that waits in the ring is the first operation of its tree. -/
theorem ops_ready (hready : (rpu i).Ready L) (hi : home (rpu i).root = i) :
    opsOf home L elem lists rpu i (rpu i).root = .pop :: listOps home elem lists (rpu i).root := by
  rw [opsOf, readyOps, hi, if_pos ⟨le_rfl, hready, rfl⟩]
  rfl

/-- **A pop is executed**: what waits then is what the statistics see from the next RPU on. -/
theorem ops_exec (hready : (rpu i).Ready L) (hi : home (rpu i).root = i) (u : ℕ) :
    opsOf home L elem lists rpu (i + 1) u =
      if u = (rpu i).root then (opsOf home L elem lists rpu i u).tail
      else opsOf home L elem lists rpu i u := by
  by_cases hu : u = (rpu i).root
  · rw [if_pos hu, hu, ops_ready hready hi, opsOf, readyOps, hi, if_neg (by omega)]
    rfl
  · rw [if_neg hu, opsOf, opsOf, readyOps, readyOps]
    congr 1
    refine if_congr ?_ rfl rfl
    by_cases hhome : home u = i
    · rw [hhome]
      exact ⟨fun h => absurd h.2.2.symm hu, fun h => absurd h.2.2.symm hu⟩
    · constructor
      · exact fun h => ⟨by omega, h.2⟩
      · exact fun h => ⟨by omega, h.2⟩

/-- An RPU without a pop that waits is passed. -/
theorem ops_skip (hready : ¬(rpu i).Ready L) (u : ℕ) :
    opsOf home L elem lists rpu (i + 1) u = opsOf home L elem lists rpu i u := by
  rw [opsOf, opsOf, readyOps, readyOps]
  congr 1
  refine if_congr ?_ rfl rfl
  by_cases hhome : home u = i
  · rw [hhome]
    exact ⟨fun h => absurd h.2.1 hready, fun h => absurd h.2.1 hready⟩
  · constructor
    · exact fun h => ⟨by omega, h.2⟩
    · exact fun h => ⟨by omega, h.2⟩

/-- *Pass down* after all pops have been executed. -/
theorem ops_passDown (hhome : ∀ u, home u < N) (hring : RingInv N L rpu) (u : ℕ) :
    opsOf home L elem lists (passDown N rpu) 0 u = opsOf home L elem lists rpu N u := by
  have hno : ¬(passDown N rpu (home u)).Ready L := fun h =>
    absurd h.1 (ne_of_lt (passDown_pop_lt hring (hhome u) h.2))
  rw [opsOf, opsOf, readyOps, readyOps, if_neg fun h => hno h.2.1,
    if_neg fun h => absurd h.1 (not_le.mpr (hhome u))]

end Steps

/-! ## Counting the tasks -/

section Count

variable {home : ℕ → ℕ} {N L : ℕ} {elem : Task → V} {lists : ℕ → List Task} {rpu : ℕ → Task}

variable (home elem rpu) in
/-- The pops that wait for tree `u` are in its list, or it is the one in the ring. -/
theorem popCount_ops (hload : Loaded L lists) (u : ℕ) :
    popCount (opsOf home L elem lists rpu 0 u) =
      (if (rpu (home u)).Ready L ∧ (rpu (home u)).root = u then 1 else 0) +
        (lists (home u)).countP fun t => decide (t.type = .pop ∧ t.root = u) := by
  have hlist : ∀ l : List Task, (∀ t ∈ l, t.Fresh L) →
      popCount ((l.filter fun t => decide (t.root = u)).map (toOp elem)) =
        l.countP fun t => decide (t.type = .pop ∧ t.root = u) := by
    intro l hl
    induction l with
    | nil => rfl
    | cons t l ih =>
      rw [List.countP_cons, ← ih fun x hx => hl x (List.mem_cons_of_mem _ hx)]
      by_cases hu : t.root = u
      · rcases (hl t List.mem_cons_self).type with ht | ht
        · simp [hu, ht, toOp]
        · simp [hu, ht, toOp]
      · simp [hu]
  rw [opsOf, popCount_append, listOps, hlist _ (hload _)]
  congr 1
  rw [readyOps]
  by_cases hr : (rpu (home u)).Ready L ∧ (rpu (home u)).root = u
  · rw [if_pos ⟨Nat.zero_le _, hr⟩, if_pos hr]
    rfl
  · rw [if_neg fun h => hr h.2, if_neg hr]
    rfl

/-- **All pops that wait**, list by list and RPU by RPU. -/
theorem sum_pops_ops {trees : Finset ℕ} (hhomeN : ∀ u, home u < N) (hplaced : Placed home L lists)
    (hready : ReadyPlaced home N L rpu) (hroots : ∀ i, ∀ t ∈ lists i, t.root ∈ trees)
    (hreadyRoots : ∀ i < N, (rpu i).Ready L → (rpu i).root ∈ trees) :
    ∑ u ∈ trees, popCount (opsOf home L elem lists rpu 0 u) = ∑ i ∈ Finset.range N,
      ((if (rpu i).Ready L then 1 else 0) + (lists i).countP fun t => decide (t.type = .pop)) := by
  rw [← Finset.sum_fiberwise_of_maps_to (g := home) (t := Finset.range N)
    fun u _ => Finset.mem_range.mpr (hhomeN u)]
  refine Finset.sum_congr rfl fun i hi => ?_
  rw [Finset.mem_range] at hi
  have hmem : ∀ u, u ∈ trees → home u = i → u ∈ trees.filter fun u => home u = i :=
    fun u hu hui => Finset.mem_filter.mpr ⟨hu, hui⟩
  have hterm : ∀ u ∈ trees.filter fun u => home u = i,
      popCount (opsOf home L elem lists rpu 0 u) =
        (if (rpu i).Ready L ∧ (rpu i).root = u then 1 else 0) +
          (lists i).countP fun t => decide (t.type = .pop ∧ t.root = u) := by
    intro u hu
    rw [popCount_ops home elem rpu hplaced.loaded, (Finset.mem_filter.mp hu).2]
  rw [Finset.sum_congr rfl hterm, Finset.sum_add_distrib,
    sum_countP_root fun t ht _ => hmem _ (hroots i t ht) (hplaced.home i t ht)]
  congr 1
  by_cases hr : (rpu i).Ready L
  · rw [if_pos hr, Finset.sum_eq_single_of_mem (rpu i).root (hmem _ (hreadyRoots i hi hr)
      (hready i hi hr)) fun u _ hu => if_neg fun h => hu h.2.symm]
    exact if_pos ⟨hr, rfl⟩
  · rw [if_neg hr]
    exact Finset.sum_eq_zero fun u _ => if_neg fun h => hr h.1

/-- The tasks of tree `u` are all in its list. -/
theorem sum_countP_tree (hhomeN : ∀ u, home u < N) (hplaced : Placed home L lists) (p : Task → Prop)
    [DecidablePred p] (u : ℕ) :
    ∑ i ∈ Finset.range N, (lists i).countP (fun t => decide (p t ∧ t.root = u)) =
      (lists (home u)).countP fun t => decide (p t ∧ t.root = u) := by
  refine Finset.sum_eq_single_of_mem _ (Finset.mem_range.mpr (hhomeN u)) fun i _ hi => ?_
  refine List.countP_eq_zero.mpr fun t ht => ?_
  simp only [decide_eq_true_eq, not_and]
  rintro - rfl
  exact hi (hplaced.home i t ht).symm

/-- The pop of tree `u` in the ring is at its list. -/
theorem sum_ready_tree (hhomeN : ∀ u, home u < N) (hready : ReadyPlaced home N L rpu) (u : ℕ) :
    ∑ i ∈ Finset.range N, (if (rpu i).Ready L ∧ (rpu i).root = u then 1 else 0) =
      if (rpu (home u)).Ready L ∧ (rpu (home u)).root = u then 1 else 0 := by
  refine Finset.sum_eq_single_of_mem _ (Finset.mem_range.mpr (hhomeN u)) fun i hi hne => ?_
  refine if_neg ?_
  rintro ⟨hr, rfl⟩
  exact hne (hready i (Finset.mem_range.mp hi) hr).symm

end Count

/-! ## Send -/

section Send

variable {home : ℕ → ℕ} {N L : ℕ} {elem : Task → V} {locked : ℕ → Bool}

/-- Pushes that are executed one after the other. -/
inductive PushRun : Net ℕ V → List (ℕ × V) → Net ℕ V → Prop where
  | nil (s : Net ℕ V) : PushRun s [] s
  | snoc {s s' : Net ℕ V} {ps : List (ℕ × V)} {t : ℕ} {v : V} {rest : List (Op V)}
      (h : PushRun s ps s') (hops : s'.ops t = .push v :: rest) :
      PushRun s (ps ++ [(t, v)]) (s'.doPush t v)

/-- The pushes among the tasks that were sent. -/
def sentPushes (elem : Task → V) (sent : List (ℕ × Task)) : List (ℕ × V) :=
  (sent.filter fun x => decide (x.2.type = .push)).map fun x => (x.2.root, elem x.2)

theorem sentPushes_append (sent : List (ℕ × Task)) (x : ℕ × Task) :
    sentPushes elem (sent ++ [x]) =
      if x.2.type = .push then sentPushes elem sent ++ [(x.2.root, elem x.2)]
      else sentPushes elem sent := by
  rw [sentPushes, sentPushes, List.filter_append, List.map_append]
  by_cases hx : x.2.type = .push
  · simp [hx]
  · simp [hx]

variable (elem) in
/-- The first task of a list is the first of its tree. -/
theorem listOps_take {lists : ℕ → List Task} {t : Task} {rest : List Task}
    (hlist : lists (home t.root) = t :: rest) (u : ℕ) : listOps home elem lists u =
      if u = t.root then
        toOp elem t :: listOps home elem (fun k => if k = home t.root then rest else lists k) u
      else listOps home elem (fun k => if k = home t.root then rest else lists k) u := by
  rw [listOps, listOps]
  by_cases hu : u = t.root
  · rw [if_pos hu, hu, hlist, if_pos rfl]
    simp
  · rw [if_neg hu]
    by_cases hui : home u = home t.root
    · have hne : ¬t.root = u := fun h => hu h.symm
      rw [hui, hlist, if_pos rfl]
      simp [hne]
    · rw [if_neg hui]

/-- The pops that wait in the ring for a tree depend only on which tasks are ready. -/
theorem readyOps_congr {rpu rpu' : ℕ → Task} {u : ℕ}
    (h : (rpu' (home u)).Ready L ∧ (rpu' (home u)).root = u ↔
      (rpu (home u)).Ready L ∧ (rpu (home u)).root = u) :
    readyOps home L (V := V) rpu' 0 u = readyOps home L rpu 0 u := by
  rw [readyOps, readyOps]
  exact if_congr (and_congr_right fun _ => h) rfl rfl

section Stores

variable {s : Sending} {i : ℕ} {t : Task} {rest : List Task}

theorem Stores.not_ready {s' : Sending} (h : Stores i s s' t rest) : ¬(s.rpu i).Ready L := by
  intro hready
  rw [Task.Ready, h.empty] at hready
  exact absurd hready.2 (by simp)

variable (elem) in
/-- The first operation of the tree of `t` is that of `t`. -/
theorem Stores.opsOf_root {s' : Sending} (h : Stores i s s' t rest) (hhome : home t.root = i) :
    opsOf home L elem s.lists s.rpu 0 t.root =
      toOp elem t :: listOps home elem s'.lists t.root := by
  subst hhome
  have hold : readyOps home L (V := V) s.rpu 0 t.root = [] := by
    rw [readyOps, if_neg fun hr => h.not_ready hr.2.1]
  rw [opsOf, hold, listOps_take elem h.list, if_pos rfl, h.lists]
  rfl

/-- The other RPUs hold the same pops that wait. -/
theorem Stores.ready_iff (h : Stores i s (sendAt N locked s i) t rest) (hL : 2 ≤ L)
    (hring : RingInv N L s.rpu) {j : ℕ} (hj : j < N) (hji : j ≠ i) (u : ℕ) :
    ((sendAt N locked s i).rpu j).Ready L ∧ ((sendAt N locked s i).rpu j).root = u ↔
      (s.rpu j).Ready L ∧ (s.rpu j).root = u := by
  constructor
  · intro hready
    rwa [h.same j hji (by rw [hready.1.1]; exact_mod_cast hL)] at hready
  · intro hready
    rwa [sendAt_kept hring hj (by rw [hready.1.2]; simp)]

variable (elem) in
/-- The operations of the other trees stay. -/
theorem Stores.opsOf_of_ne (h : Stores i s (sendAt N locked s i) t rest) (hL : 2 ≤ L)
    (hring : RingInv N L s.rpu) (hhomeN : ∀ u, home u < N) (hhome : home t.root = i) {u : ℕ}
    (hu : u ≠ t.root) :
    opsOf home L elem (sendAt N locked s i).lists (sendAt N locked s i).rpu 0 u =
      opsOf home L elem s.lists s.rpu 0 u := by
  have hready : readyOps home L (V := V) (sendAt N locked s i).rpu 0 u =
      readyOps home L s.rpu 0 u := by
    refine readyOps_congr ?_
    by_cases hui : home u = i
    · rw [hui, h.self]
      exact ⟨fun hr => absurd hr.2.symm hu, fun hr => absurd hr.1 h.not_ready⟩
    · exact h.ready_iff hL hring (hhomeN u) hui u
  subst hhome
  rw [opsOf, opsOf, hready, listOps_take elem h.list, if_neg hu, h.lists]

variable (elem) in
/-- The operations of the tree of `t`: a push is executed, and a pop waits in the ring. -/
theorem Stores.opsOf_self {s' : Sending} (h : Stores i s s' t rest) (hhome : home t.root = i)
    (hfresh : t.Fresh L) : opsOf home L elem s'.lists s'.rpu 0 t.root =
      if t.type = .push then listOps home elem s'.lists t.root
      else .pop :: listOps home elem s'.lists t.root := by
  rw [opsOf, readyOps, hhome, h.self]
  by_cases hpush : t.type = .push
  · have hno : ¬t.Ready L := by
      intro hready
      rw [Task.Ready, hpush] at hready
      exact absurd hready.2 (by simp)
    rw [if_pos hpush, if_neg fun hr => hno hr.2.1]
    rfl
  · have hready : t.Ready L := ⟨hfresh.TTL, hfresh.type.resolve_left hpush⟩
    rw [if_neg hpush, if_pos ⟨Nat.zero_le _, hready, rfl⟩]
    rfl

end Stores

variable (elem locked) in
/-- One round of *send*: nothing, or a push is executed, or a pop moves from its list to the
ring. -/
theorem ops_sendAt (hN : 2 ≤ N) (hL : 2 ≤ L) (hhomeN : ∀ u, home u < N) {rpu₀ : ℕ → Task}
    {s : Sending} (hinv : SendInv N L rpu₀ s) (hplaced : Placed home L s.lists) (i : ℕ) :
    (sendAt N locked s i = s) ∨
    (∃ t rest, s.lists i = t :: rest ∧ (sendAt N locked s i).sent = s.sent ++ [(i, t)] ∧
      (∀ j, (sendAt N locked s i).lists j = if j = i then rest else s.lists j) ∧
      (t.type = .push → opsOf home L elem s.lists s.rpu 0 t.root =
          .push (elem t) :: (opsOf home L elem s.lists s.rpu 0 t.root).tail ∧
        ∀ u, opsOf home L elem (sendAt N locked s i).lists (sendAt N locked s i).rpu 0 u =
          if u = t.root then (opsOf home L elem s.lists s.rpu 0 u).tail
          else opsOf home L elem s.lists s.rpu 0 u) ∧
      (t.type ≠ .push → ∀ u,
        opsOf home L elem (sendAt N locked s i).lists (sendAt N locked s i).rpu 0 u =
          opsOf home L elem s.lists s.rpu 0 u)) := by
  rcases sendAt_stores hN locked s i with hnone | ⟨t, rest, hst⟩
  · exact Or.inl hnone
  have hmem : t ∈ s.lists i := by rw [hst.list]; exact List.mem_cons_self
  have hhome := hplaced.home i t hmem
  have hbefore := hst.opsOf_root (L := L) elem hhome
  have hself := hst.opsOf_self elem hhome (hplaced.loaded i t hmem)
  refine Or.inr ⟨t, rest, hst.list, hst.sent, fun j => by rw [hst.lists], fun hpush => ?_,
    fun hpush u => ?_⟩
  · rw [toOp, if_pos hpush] at hbefore
    rw [if_pos hpush] at hself
    refine ⟨by rw [hbefore]; rfl, fun u => ?_⟩
    by_cases hu : u = t.root
    · rw [if_pos hu, hu, hself, hbefore]
      rfl
    · rw [if_neg hu, hst.opsOf_of_ne elem hL hinv.ring hhomeN hhome hu]
  · rw [toOp, if_neg hpush] at hbefore
    rw [if_neg hpush] at hself
    by_cases hu : u = t.root
    · rw [hu, hself, hbefore]
    · exact hst.opsOf_of_ne elem hL hinv.ring hhomeN hhome hu

/-- The pushes of a run join what the trees hold, and nothing else changes. -/
theorem PushRun.store_eq {s s' : Net ℕ V} {ps : List (ℕ × V)} (h : PushRun s ps s') (u : ℕ) :
    s'.store u = s.store u + ((ps.filter fun x => decide (x.1 = u)).map Prod.snd : List V) := by
  induction h with
  | nil => exact (add_zero _).symm
  | @snoc s' ps t v rest _ _ ih =>
    rw [List.filter_append, List.map_append]
    by_cases hu : u = t
    · have hlast : ([(t, v)].filter fun x => decide (x.1 = u)).map Prod.snd = [v] := by simp [hu]
      simp only [Net.doPush, if_pos hu, ih, hlast, ← Multiset.coe_add, Multiset.coe_singleton]
      rw [← Multiset.singleton_add]
      abel
    · have hne : ¬t = u := fun h => hu h.symm
      simp [Net.doPush, hu, hne, ih]

theorem PushRun.held_eq {s s' : Net ℕ V} {ps : List (ℕ × V)} (h : PushRun s ps s') :
    s'.held = s.held := by
  induction h with
  | nil => rfl
  | snoc _ hops ih => rw [funext (held_doPush hops), ← ih]

theorem PushRun.pops_eq {s s' : Net ℕ V} {ps : List (ℕ × V)} (h : PushRun s ps s') (u : ℕ) :
    popCount (s'.ops u) = popCount (s.ops u) := by
  induction h with
  | nil => rfl
  | snoc _ hops ih => rw [popCount_doPush hops, ih]

theorem PushRun.inv {s s' : Net ℕ V} {ps : List (ℕ × V)} (h : PushRun s ps s')
    {trees : Finset ℕ} {next : ℕ → V → Option ℕ} {root budget : ℕ}
    (hinv : Inv trees next root budget s) : Inv trees next root budget s' := by
  induction h with
  | nil => exact hinv
  | snoc _ hops ih => exact ih.doPush hops

theorem PushRun.leaves_eq {s s' : Net ℕ V} {ps : List (ℕ × V)} (h : PushRun s ps s')
    (trees : Finset ℕ) (next : ℕ → V → Option ℕ) : leaves trees next s' = leaves trees next s := by
  rw [leaves, leaves, h.held_eq]

/-- What holds during *send*, which started from `rpu` and `lists`, with `store` in the trees:
the pushes sent so far have been executed. -/
structure Sends (home : ℕ → ℕ) (N L : ℕ) (elem : Task → V) (rpu : ℕ → Task)
    (lists : ℕ → List Task) (store : ℕ → Multiset V) (s : Sending) : Prop where
  inv : SendInv N L (passDown N rpu) s
  placed : Placed home L s.lists
  sub : ∀ i, ∀ t ∈ s.lists i, t ∈ lists i
  sent : ∀ x ∈ s.sent, x.2 ∈ lists x.1
  pushes : ∃ net', PushRun ⟨store, opsOf home L elem lists rpu N⟩ (sentPushes elem s.sent) net' ∧
    net'.ops = opsOf home L elem s.lists s.rpu 0

section SendPhase

variable {rpu : ℕ → Task} {lists : ℕ → List Task} {store : ℕ → Multiset V}

theorem sends_start (hhomeN : ∀ u, home u < N) (hring : RingInv N L rpu)
    (hplaced : Placed home L lists) :
    Sends home N L elem rpu lists store ⟨passDown N rpu, lists, []⟩ where
  inv := ⟨passDown_ringInv hring, hplaced.loaded, fun _ _ _ => rfl,
    fun p hp => absurd hp (by simp), List.nodup_nil,
    fun x hx hpop httl => absurd httl (ne_of_lt (passDown_pop_lt hring hx hpop))⟩
  placed := hplaced
  sub _ _ h := h
  sent _ h := absurd h (by simp)
  pushes := ⟨_, PushRun.nil _, (funext (ops_passDown hhomeN hring)).symm⟩

variable (locked) in
/-- One round of *send*. -/
theorem Sends.sendAt (hN : 2 ≤ N) (hL : 2 ≤ L) (hhomeN : ∀ u, home u < N) {s : Sending}
    (h : Sends home N L elem rpu lists store s) {m : ℕ} (hm : m < N) :
    Sends home N L elem rpu lists store (sendAt N locked s m) := by
  obtain ⟨net', hrun, hops⟩ := h.pushes
  rcases ops_sendAt elem locked hN hL hhomeN h.inv h.placed m with
    hnone | ⟨t, rest, hlist, hsent, hlists, hpush, hpop⟩
  · rw [hnone]
    exact h
  have hsub : ∀ j, ∀ x ∈ (Simulator.sendAt N locked s m).lists j, x ∈ s.lists j := by
    intro j x hx
    rw [hlists] at hx
    split at hx
    · next hj => rw [hj, hlist]; exact List.mem_cons_of_mem _ hx
    · exact hx
  refine ⟨h.inv.sendAt locked hN hL hm, ⟨fun j x hx => h.placed.home j x (hsub j x hx),
    fun j x hx => h.placed.loaded j x (hsub j x hx)⟩, fun j x hx => h.sub j x (hsub j x hx),
    fun x hx => ?_, ?_⟩
  · rw [hsent, List.mem_append, List.mem_singleton] at hx
    rcases hx with hx | rfl
    · exact h.sent x hx
    · exact h.sub m t (by rw [hlist]; exact List.mem_cons_self)
  · rw [hsent, sentPushes_append]
    by_cases ht : t.type = .push
    · obtain ⟨hfirst, hafter⟩ := hpush ht
      rw [if_pos ht]
      rw [← hops] at hfirst
      refine ⟨_, PushRun.snoc hrun hfirst, ?_⟩
      funext u
      rw [hafter u, ← hops]
      rfl
    · rw [if_neg ht]
      refine ⟨net', hrun, ?_⟩
      funext u
      rw [hpop ht u, hops]

variable (locked) in
/-- All rounds of *send*. -/
theorem sends_ringStep (hN : 2 ≤ N) (hL : 2 ≤ L) (hhomeN : ∀ u, home u < N)
    (hring : RingInv N L rpu) (hplaced : Placed home L lists) :
    Sends home N L elem rpu lists store (ringStep N locked lists rpu) :=
  Runs.foldl_range_keeps (P := fun _ s => Sends home N L elem rpu lists store s)
    (sends_start hhomeN hring hplaced) fun _ hm _ ih => ih.sendAt locked hN hL hhomeN hm

end SendPhase

variable (elem locked) in
/-- **The phases *pass down* and *send*.**  The pushes that are sent are executed, and no other
operation is. -/
theorem ops_ringStep (hN : 2 ≤ N) (hL : 2 ≤ L) (hhomeN : ∀ u, home u < N) {rpu : ℕ → Task}
    {lists : ℕ → List Task} (hring : RingInv N L rpu) (hplaced : Placed home L lists)
    (store : ℕ → Multiset V) :
    Placed home L (ringStep N locked lists rpu).lists ∧
      (∀ i, ∀ t ∈ (ringStep N locked lists rpu).lists i, t ∈ lists i) ∧
      (∀ x ∈ (ringStep N locked lists rpu).sent, x.2 ∈ lists x.1) ∧
      ∃ net', PushRun ⟨store, opsOf home L elem lists rpu N⟩
        (sentPushes elem (ringStep N locked lists rpu).sent) net' ∧
        net'.ops = opsOf home L elem (ringStep N locked lists rpu).lists
          (ringStep N locked lists rpu).rpu 0 := by
  have h : Sends home N L elem rpu lists store _ :=
    sends_ringStep locked hN hL hhomeN hring hplaced
  exact ⟨h.placed, h.sub, h.sent, h.pushes⟩

variable (locked) in
/-- A pop that waits in the ring after *send* comes from the task list of its RPU. -/
theorem ready_ringStep (hN : 2 ≤ N) (hL : 2 ≤ L) (hhomeN : ∀ u, home u < N) {rpu : ℕ → Task}
    {lists : ℕ → List Task} (hring : RingInv N L rpu) (hplaced : Placed home L lists) {i : ℕ}
    (hi : i < N) (hready : ((ringStep N locked lists rpu).rpu i).Ready L) :
    (ringStep N locked lists rpu).rpu i ∈ lists i := by
  have hsend := ringStep_inv locked hN hL hring hplaced.loaded
  obtain ⟨-, -, hsent, -⟩ := ops_ringStep (fun _ => ()) locked hN hL hhomeN
    hring hplaced fun _ => 0
  exact hsent _ (hsend.new_pop i hi hready.2 hready.1)

end Send

end Simulator

end VPifo
