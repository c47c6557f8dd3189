import Mathlib.Algebra.Order.Group.Multiset
import Mathlib.Data.List.Sort

/-!
# Queues of ranks

A priority queue may choose freely between elements of the same rank, so two of them that are
asked the same things need not answer the same elements.  They do answer the same ranks.  What
they have in common is a queue that holds nothing but ranks, as a sorted list (`store`,
`answers`): whatever holds a multiset of elements whose ranks are those of the list, and gives
out one of least rank, goes on like that (`Holds.push`, `Holds.pop`).
-/

namespace VPifo.RankQueue

variable {α β : Type*}

/-- What a queue of ranks is asked. -/
inductive Op (α : Type*) where
  | push (a : α)
  | pop
  deriving DecidableEq

variable [LinearOrder α]

/-- What is in the queue after it has been asked something, in order. -/
def step (q : List α) : Op α → List α
  | .push a => q.orderedInsert (· ≤ ·) a
  | .pop => q.tail

/-- What is in the queue in the end. -/
def store (ops : List (Op α)) : List α := ops.foldl step []

/-- The answers of a queue that holds `q` already; an empty queue gives none. -/
def answersFrom (q : List α) : List (Op α) → List α
  | [] => []
  | .push a :: ops => answersFrom (step q (.push a)) ops
  | .pop :: ops => q.head?.toList ++ answersFrom (step q .pop) ops

/-- The answers of the queue. -/
def answers (ops : List (Op α)) : List α := answersFrom [] ops

theorem store_append_singleton (ops : List (Op α)) (x : Op α) :
    store (ops ++ [x]) = step (store ops) x := by
  simp [store]

theorem answersFrom_append (q : List α) (ops ops' : List (Op α)) :
    answersFrom q (ops ++ ops') =
      answersFrom q ops ++ answersFrom (ops.foldl step q) ops' := by
  induction ops generalizing q with
  | nil => rfl
  | cons x ops ih =>
    cases x with
    | push a => exact ih _
    | pop =>
      rw [List.cons_append, answersFrom, answersFrom, List.append_assoc, ih]
      rfl

theorem answers_push (ops : List (Op α)) (a : α) : answers (ops ++ [.push a]) = answers ops := by
  rw [answers, answersFrom_append]
  exact List.append_nil _

theorem answers_pop (ops : List (Op α)) :
    answers (ops ++ [.pop]) = answers ops ++ (store ops).head?.toList := by
  rw [answers, answersFrom_append, answersFrom, answersFrom, List.append_nil]
  rfl

theorem answers_isPrefix {ops ops' : List (Op α)} (h : ops <+: ops') :
    answers ops <+: answers ops' := by
  obtain ⟨rest, rfl⟩ := h
  rw [answers, answers, answersFrom_append]
  exact List.prefix_append _ _

/-! ## What goes by the ranks -/

/-- The ranks of the elements of `s` are those in the queue. -/
structure Holds (f : β → α) (s : Multiset β) (q : List α) : Prop where
  sorted : q.Pairwise (· ≤ ·)
  ranks : s.map f = q

variable {f : β → α} {s : Multiset β} {q : List α} {b : β}

theorem Holds.nil (f : β → α) : Holds f 0 [] := ⟨List.Pairwise.nil, rfl⟩

theorem Holds.push (h : Holds f s q) (b : β) : Holds f (b ::ₘ s) (step q (.push (f b))) where
  sorted := h.sorted.orderedInsert (f b) q
  ranks := by
    rw [Multiset.map_cons, h.ranks, step, Multiset.cons_coe]
    exact Multiset.coe_eq_coe.mpr (List.perm_orderedInsert _ _ _).symm

/-- **An element of least rank has the first rank of the queue**, and leaves the others. -/
theorem Holds.pop [DecidableEq β] (h : Holds f s q) (hb : b ∈ s) (hle : ∀ u ∈ s, f b ≤ f u) :
    q.head? = some (f b) ∧ Holds f (s.erase b) (step q .pop) := by
  have hmem : f b ∈ q := by
    rw [← Multiset.mem_coe, ← h.ranks]
    exact Multiset.mem_map_of_mem f hb
  cases q with
  | nil => exact absurd hmem List.not_mem_nil
  | cons a q =>
    obtain ⟨hfirst, hrest⟩ := List.pairwise_cons.mp h.sorted
    have hab : a = f b := by
      refine le_antisymm ?_ ?_
      · rcases List.mem_cons.mp hmem with heq | hlater
        · exact heq.ge
        · exact hfirst _ hlater
      · obtain ⟨u, hu, hua⟩ : ∃ u ∈ s, f u = a := by
          rw [← Multiset.mem_map, h.ranks, Multiset.mem_coe]
          exact List.mem_cons_self
        exact hua ▸ hle u hu
    subst hab
    refine ⟨rfl, hrest, ?_⟩
    rw [Multiset.map_erase_of_mem _ _ hb, h.ranks, Multiset.coe_erase, List.erase_cons_head]
    rfl

end VPifo.RankQueue
