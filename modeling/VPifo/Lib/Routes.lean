import Mathlib.Algebra.Order.Group.Multiset
import Mathlib.Data.Multiset.Filter
import Mathlib.Logic.Relation
import Mathlib.Tactic.Abel

/-!
# Items on fixed routes through queues

Places hold items in the order in which they came.  An item belongs to a class, and a class has a
route: a list of places, the last one first.  An item comes in at the beginning of the route of
its class, goes from the head of a place to the tail of the next one on its route, or gets lost at
the head of a place.  The places are moved independently of each other, in any order, and the
routes of different classes may cross and part.

What holds in spite of this is the order within a class.  Read along the route of a class, from
its end to its beginning, the places hold the items of the class in the order in which they came
in, less those that got lost (`Orderly`), so that what has arrived at the end has not been
overtaken by anything.  No item leaves its route, and none is there twice.
-/

namespace VPifo.Routes

variable {π α κ : Type}

/-- The places, with what has come in and what got lost. -/
@[ext] structure Net (π α : Type) where
  held : π → List α
  entered : List α
  lost : Multiset α

/-- The net in which nothing has come in. -/
def Net.init : Net π α := ⟨fun _ => [], [], 0⟩

/-- The content of one place is replaced. -/
def Net.put [DecidableEq π] (n : Net π α) (p : π) (xs : List α) : Net π α :=
  { n with held := Function.update n.held p xs }

section Code

variable (cls : α → κ) (route : κ → List π)

/-- The route of class `k` goes from `p` to `q`. -/
def Follows (k : κ) (p q : π) : Prop := ∃ after before, route k = after ++ q :: p :: before

/-- What can happen. -/
inductive Step [DecidableEq π] (n : Net π α) : Net π α → Prop where
  /-- An item comes in. -/
  | enter (x : α) (p : π) (after : List π) (h : route (cls x) = after ++ [p]) :
      Step n { n.put p (n.held p ++ [x]) with entered := n.entered ++ [x] }
  /-- An item goes on. -/
  | move (x : α) (rest : List α) (p q : π) (hp : n.held p = x :: rest)
      (hpq : Follows route (cls x) p q) : Step n ((n.put p rest).put q (n.held q ++ [x]))
  /-- An item gets lost. -/
  | lose (x : α) (rest : List α) (p : π) (hp : n.held p = x :: rest) :
      Step n { n.put p rest with lost := x ::ₘ n.lost }

/-- What happens from one net to another. -/
abbrev Run [DecidableEq π] : Net π α → Net π α → Prop := Relation.ReflTransGen (Step cls route)

variable [DecidableEq κ]

/-- The items of class `k` at some places. -/
def along (n : Net π α) (k : κ) (ps : List π) : List α :=
  ps.flatMap fun p => (n.held p).filter fun x => decide (cls x = k)

/-- **Nothing leaves its route, is overtaken or doubled.** -/
structure Orderly (n : Net π α) : Prop where
  routed : ∀ p, ∀ x ∈ n.held p, p ∈ route (cls x)
  order : ∀ k, (along cls n k (route k)).Sublist (n.entered.filter fun x => decide (cls x = k))
  account : ∀ k, (along cls n k (route k) : Multiset α) +
      n.lost.filter (fun x => cls x = k) =
    (n.entered.filter fun x => decide (cls x = k) : List α)

end Code

/-! ## Along a route -/

section Along

variable {cls : α → κ} {route : κ → List π} {n n' : Net π α} {k : κ} {p q : π} {x : α}
  {ps : List π}

theorem Follows.mem_right (h : Follows route k p q) : q ∈ route k := by
  obtain ⟨after, before, h⟩ := h
  rw [h]
  simp

variable [DecidableEq κ]

@[simp] theorem along_cons (n : Net π α) (k : κ) (p : π) (ps : List π) :
    along cls n k (p :: ps) =
      (n.held p).filter (fun x => decide (cls x = k)) ++ along cls n k ps := rfl

@[simp] theorem along_nil (n : Net π α) (k : κ) : along cls n k [] = [] := rfl

theorem along_append (n : Net π α) (k : κ) (ps qs : List π) :
    along cls n k (ps ++ qs) = along cls n k ps ++ along cls n k qs := List.flatMap_append

/-- Places that hold the same items of the class. -/
theorem along_congr (h : ∀ p ∈ ps, (n.held p).filter (fun x => decide (cls x = k)) =
    (n'.held p).filter fun x => decide (cls x = k)) : along cls n k ps = along cls n' k ps :=
  List.flatMap_congr h

theorem filter_append_of_ne (h : cls x ≠ k) (xs : List α) :
    (xs ++ [x]).filter (fun y => decide (cls y = k)) = xs.filter fun y => decide (cls y = k) := by
  rw [List.filter_append, List.filter_singleton, decide_eq_false h]
  exact List.append_nil _

theorem filter_cons_of_ne (h : cls x ≠ k) (xs : List α) :
    (x :: xs).filter (fun y => decide (cls y = k)) = xs.filter fun y => decide (cls y = k) :=
  List.filter_cons_of_neg (by simpa using h)

theorem orderly_init : Orderly cls route (Net.init : Net π α) where
  routed _ _ hx := absurd hx List.not_mem_nil
  order k := by
    have : along cls (Net.init : Net π α) k (route k) = [] :=
      List.flatMap_eq_nil_iff.mpr fun _ _ => rfl
    rw [this]
    exact List.nil_sublist _
  account k := by
    have : along cls (Net.init : Net π α) k (route k) = [] :=
      List.flatMap_eq_nil_iff.mpr fun _ _ => rfl
    rw [this]
    rfl

end Along

/-! ## One step -/

section Steps

variable [DecidableEq π] [DecidableEq κ] {cls : α → κ} {route : κ → List π} {n n' : Net π α}
  {k : κ} {p q : π} {x : α} {rest xs : List α} {ps : List π}

@[simp] theorem Net.put_held_self (n : Net π α) (p : π) (xs : List α) :
    (n.put p xs).held p = xs := Function.update_self _ _ _

theorem Net.put_held_of_ne (xs : List α) (h : q ≠ p) : (n.put p xs).held q = n.held q :=
  Function.update_of_ne h _ _

/-- A place that is not among them is of no account. -/
theorem along_put_of_notMem (xs : List α) (h : p ∉ ps) :
    along cls (n.put p xs) k ps = along cls n k ps :=
  along_congr fun q hq => by rw [Net.put_held_of_ne _ (ne_of_mem_of_not_mem hq h)]

/-- An item of another class is of no account either. -/
theorem along_put_of_filter (h : xs.filter (fun x => decide (cls x = k)) =
    (n.held p).filter fun x => decide (cls x = k)) (ps : List π) :
    along cls (n.put p xs) k ps = along cls n k ps := by
  refine along_congr fun q _ => ?_
  by_cases hq : q = p
  · rw [hq, Net.put_held_self, h]
  · rw [Net.put_held_of_ne _ hq]

variable (hnodup : ∀ k, (route k).Nodup)

include hnodup in
/-- An item that comes in is the last of its class. -/
theorem along_enter {after : List π} (h : route (cls x) = after ++ [p]) (k : κ) :
    along cls (n.put p (n.held p ++ [x])) k (route k) =
      along cls n k (route k) ++ if cls x = k then [x] else [] := by
  by_cases hk : cls x = k
  · subst hk
    have hnot : p ∉ after := by
      have := hnodup (cls x)
      rw [h, List.nodup_append] at this
      exact fun hp => this.2.2 p hp p List.mem_cons_self rfl
    rw [h, along_append, along_append, along_put_of_notMem _ hnot, along_cons, along_cons,
      Net.put_held_self, List.filter_append, if_pos rfl]
    simp
  · rw [if_neg hk, List.append_nil]
    exact along_put_of_filter (filter_append_of_ne hk _) _

include hnodup in
/-- An item that goes on stays between the same items of its class. -/
theorem along_move (hp : n.held p = x :: rest) (hpq : Follows route (cls x) p q) (k : κ) :
    along cls ((n.put p rest).put q (n.held q ++ [x])) k (route k) = along cls n k (route k) := by
  obtain ⟨after, before, h⟩ := hpq
  have hroute := hnodup (cls x)
  rw [h, List.nodup_append] at hroute
  obtain ⟨-, hcons, hdisj⟩ := hroute
  obtain ⟨hq, hp'⟩ := List.nodup_cons.mp hcons
  obtain ⟨hp', -⟩ := List.nodup_cons.mp hp'
  have hne : p ≠ q := fun heq => hq (heq ▸ List.mem_cons_self)
  by_cases hk : cls x = k
  · subst hk
    have hqa : q ∉ after := fun hm => hdisj q hm q List.mem_cons_self rfl
    have hpa : p ∉ after := fun hm =>
      hdisj p hm p (List.mem_cons_of_mem q List.mem_cons_self) rfl
    have hqb : q ∉ before := fun hm => hq (List.mem_cons_of_mem p hm)
    rw [h, along_append, along_append, along_cons, along_cons, along_cons, along_cons,
      along_put_of_notMem _ hqa, along_put_of_notMem _ hpa, along_put_of_notMem _ hqb,
      along_put_of_notMem _ hp', Net.put_held_self, Net.put_held_of_ne _ hne, Net.put_held_self, hp,
      List.filter_append, List.filter_cons_of_pos (by simp)]
    simp
  · rw [along_put_of_filter, along_put_of_filter]
    · rw [hp, filter_cons_of_ne hk]
    · rw [filter_append_of_ne hk, Net.put_held_of_ne _ hne.symm]

/-- An item that gets lost is taken out of its class. -/
theorem along_lose (hp : n.held p = x :: rest) (hmem : p ∈ route (cls x))
    (hnodup : (route (cls x)).Nodup) (k : κ) :
    if cls x = k then ∃ l r, along cls n k (route k) = l ++ x :: r ∧
      along cls (n.put p rest) k (route k) = l ++ r
    else along cls (n.put p rest) k (route k) = along cls n k (route k) := by
  by_cases hk : cls x = k
  · subst hk
    rw [if_pos rfl]
    obtain ⟨after, before, h⟩ := List.append_of_mem hmem
    rw [h, List.nodup_append] at hnodup
    obtain ⟨-, hcons, hdisj⟩ := hnodup
    have hpa : p ∉ after := fun hm => hdisj p hm p List.mem_cons_self rfl
    have hpb : p ∉ before := (List.nodup_cons.mp hcons).1
    refine ⟨along cls n (cls x) after, rest.filter (fun y => decide (cls y = cls x)) ++
      along cls n (cls x) before, ?_, ?_⟩
    · rw [h, along_append, along_cons, hp, List.filter_cons_of_pos (by simp)]
      rfl
    · rw [h, along_append, along_cons, along_put_of_notMem _ hpa, along_put_of_notMem _ hpb,
        Net.put_held_self]
  · rw [if_neg hk]
    exact along_put_of_filter (by rw [hp, filter_cons_of_ne hk]) _

theorem mem_put {y : α} (h : y ∈ (n.put p xs).held q) : y ∈ n.held q ∨ q = p ∧ y ∈ xs := by
  by_cases hq : q = p
  · subst hq
    exact Or.inr ⟨rfl, by simpa using h⟩
  · rw [Net.put_held_of_ne _ hq] at h
    exact Or.inl h

include hnodup in
theorem Orderly.enter (h : Orderly cls route n) {after : List π} (hroute : route (cls x) = after ++ [p]) :
    Orderly cls route { n.put p (n.held p ++ [x]) with entered := n.entered ++ [x] } := by
  have halong : ∀ k, along cls { n.put p (n.held p ++ [x]) with entered := n.entered ++ [x] } k
      (route k) = along cls n k (route k) ++ [x].filter (fun y => decide (cls y = k)) := by
    intro k
    rw [List.filter_singleton]
    refine (along_enter hnodup hroute k).trans ?_
    by_cases hk : cls x = k <;> simp [hk]
  refine ⟨fun q y hy => ?_, fun k => ?_, fun k => ?_⟩
  · rcases mem_put hy with hy | ⟨rfl, hy⟩
    · exact h.routed q y hy
    · rcases List.mem_append.mp hy with hy | hy
      · exact h.routed q y hy
      · rw [List.mem_singleton.mp hy, hroute]
        simp
  · rw [halong, List.filter_append]
    exact (h.order k).append (List.Sublist.refl _)
  · rw [halong, List.filter_append, ← Multiset.coe_add, ← Multiset.coe_add, ← h.account k]
    show _ + Multiset.filter (fun x => cls x = k) n.lost = _
    abel

include hnodup in
theorem Orderly.move (h : Orderly cls route n) (hp : n.held p = x :: rest)
    (hpq : Follows route (cls x) p q) :
    Orderly cls route ((n.put p rest).put q (n.held q ++ [x])) := by
  refine ⟨fun r y hy => ?_, fun k => ?_, fun k => ?_⟩
  · rcases mem_put hy with hy | ⟨rfl, hy⟩
    · rcases mem_put hy with hy | ⟨rfl, hrest⟩
      · exact h.routed r y hy
      · exact h.routed _ y (by rw [hp]; exact List.mem_cons_of_mem x hrest)
    · rcases List.mem_append.mp hy with hy | hy
      · exact h.routed _ y hy
      · rw [List.mem_singleton.mp hy]
        exact hpq.mem_right
  · rw [along_move hnodup hp hpq]
    exact h.order k
  · rw [along_move hnodup hp hpq]
    exact h.account k

include hnodup in
theorem Orderly.lose (h : Orderly cls route n) (hp : n.held p = x :: rest) :
    Orderly cls route { n.put p rest with lost := x ::ₘ n.lost } := by
  have hmem : p ∈ route (cls x) := h.routed p x (by rw [hp]; exact List.mem_cons_self)
  have hlose := along_lose hp hmem (hnodup _)
  refine ⟨fun r y hy => ?_, fun k => ?_, fun k => ?_⟩
  · rcases mem_put (n := n) hy with hy | ⟨rfl, hrest⟩
    · exact h.routed r y hy
    · exact h.routed _ y (by rw [hp]; exact List.mem_cons_of_mem x hrest)
  · have hk := hlose k
    show (along cls (n.put p rest) k (route k)).Sublist (n.entered.filter _)
    split at hk
    · obtain ⟨l, r, hl, hr⟩ := hk
      have horder := h.order k
      rw [hl] at horder
      rw [hr]
      exact ((List.Sublist.refl l).append (List.sublist_cons_self x r)).trans horder
    · rw [hk]
      exact h.order k
  · have hk := hlose k
    have haccount := h.account k
    show (along cls (n.put p rest) k (route k) : Multiset α) +
      (x ::ₘ n.lost).filter (fun y => cls y = k) = (n.entered.filter _ : List α)
    split at hk
    · next heq =>
      obtain ⟨l, r, hl, hr⟩ := hk
      rw [hr, Multiset.filter_cons_of_pos (p := fun y => cls y = k) _ heq, ← haccount, hl]
      have hcons : ((l ++ x :: r : List α) : Multiset α) = x ::ₘ (l ++ r : List α) :=
        Multiset.coe_eq_coe.mpr List.perm_middle
      rw [hcons, Multiset.cons_add, Multiset.add_cons]
    · next hne => rw [hk, Multiset.filter_cons_of_neg (p := fun y => cls y = k) _ hne, haccount]

include hnodup in
theorem Orderly.step (h : Orderly cls route n) (hstep : Step cls route n n') :
    Orderly cls route n' := by
  cases hstep with
  | enter x p after hroute => exact h.enter hnodup hroute
  | move x rest p q hp hpq => exact h.move hnodup hp hpq
  | lose x rest p hp => exact h.lose hnodup hp

include hnodup in
/-- **What every step keeps, a run keeps.** -/
theorem Orderly.run (h : Orderly cls route n) (hrun : Run cls route n n') : Orderly cls route n' := by
  induction hrun with
  | refl => exact h
  | tail _ hstep ih => exact ih.step hnodup hstep

end Steps

/-! ## The end of a route -/

section End

variable [DecidableEq κ] {cls : α → κ} {route : κ → List π} {n : Net π α} {k : κ} {p : π} {before : List π}

/-- What has arrived at the end of a route is, in its order, part of what came in. -/
theorem Orderly.arrived_sublist (h : Orderly cls route n) (hend : route k = p :: before) :
    ((n.held p).filter fun x => decide (cls x = k)).Sublist
      (n.entered.filter fun x => decide (cls x = k)) := by
  have horder := h.order k
  rw [hend, along_cons] at horder
  exact (List.sublist_append_left _ _).trans horder

/-- When nothing of the class got lost, it is the first part of what came in. -/
theorem Orderly.arrived_isPrefix (h : Orderly cls route n) (hend : route k = p :: before)
    (hlost : ∀ x ∈ n.lost, cls x ≠ k) :
    ((n.held p).filter fun x => decide (cls x = k)) <+:
      n.entered.filter fun x => decide (cls x = k) := by
  have horder := h.order k
  have haccount := h.account k
  rw [Multiset.filter_eq_nil.mpr hlost, add_zero] at haccount
  have heq := horder.eq_of_length (by
    have := congrArg Multiset.card haccount
    simpa only [Multiset.coe_card] using this)
  rw [← heq, hend, along_cons]
  exact List.prefix_append _ _

end End

/-! ## Several items at once -/

section Several

variable [DecidableEq π] {cls : α → κ} {route : κ → List π} {p q : π}

/-- Items at the head of a place go on, one after the other. -/
theorem run_moves (hne : p ≠ q) : ∀ (xs rest : List α) (n : Net π α), n.held p = xs ++ rest →
    (∀ x ∈ xs, Follows route (cls x) p q) →
    Run cls route n ((n.put p rest).put q (n.held q ++ xs))
  | [], rest, n, hp, _ => by
    have hsame : (n.put p rest).put q (n.held q ++ []) = n := by
      have hp' : n.put p rest = n := by
        rw [Net.put, show rest = n.held p from hp.symm, Function.update_eq_self]
      rw [List.append_nil, hp', Net.put, Function.update_eq_self]
    rw [hsame]
  | x :: xs, rest, n, hp, hfollows => by
    obtain ⟨hx, hxs⟩ := List.forall_mem_cons.mp hfollows
    have hstep : Step cls route n ((n.put p (xs ++ rest)).put q (n.held q ++ [x])) :=
      .move x (xs ++ rest) p q hp hx
    have hrest := run_moves hne xs rest ((n.put p (xs ++ rest)).put q (n.held q ++ [x]))
      (by rw [Net.put_held_of_ne _ hne, Net.put_held_self]) hxs
    have hnet : (((n.put p (xs ++ rest)).put q (n.held q ++ [x])).put p rest).put q
        (((n.put p (xs ++ rest)).put q (n.held q ++ [x])).held q ++ xs) =
          (n.put p rest).put q (n.held q ++ x :: xs) := by
      rw [Net.put_held_self, List.append_assoc, List.singleton_append]
      simp only [Net.put]
      rw [Function.update_comm hne.symm, Function.update_idem, Function.update_idem]
    rw [hnet] at hrest
    exact Relation.ReflTransGen.head hstep hrest

end Several

end VPifo.Routes
