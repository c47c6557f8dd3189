import Mathlib.Data.List.Perm.Basic
import Mathlib.Order.Lattice

/-!
# A priority queue that keeps the order of arrival

Elements arrive, wait in a queue, are moved from there into a store, and leave the store by
the least key.  Nothing is known about most of them.  But if the elements of one class have
keys that get larger in the order of their arrival, then what they do is what they would do in
a queue: at every moment the ones that have left, the ones in the store and the ones that wait
are the ones that have arrived, in this order (`InTurn`).

Often one sees of an element only its name, and the elements of one name are known to stay in
order for another reason.  Both together say that the elements themselves do
(`isPrefix_of_names`).
-/

namespace VPifo.ArrivalOrder

variable {α κ : Type*} [LinearOrder κ]

/-- The elements of the class `C` that have arrived: those that have left, those in the store,
and those that wait, one after the other. -/
def InTurn (C : α → Bool) (left store waiting arrived : List α) : Prop :=
  ∃ inside, inside.Perm (store.filter C) ∧
    left.filter C ++ inside ++ waiting.filter C = arrived

section InTurn

variable {C : α → Bool} {left store waiting arrived : List α} {a : α}

theorem InTurn.nil (C : α → Bool) : InTurn C [] [] [] [] := ⟨[], List.Perm.nil, rfl⟩

/-- An element arrives. -/
theorem InTurn.arrive (h : InTurn C left store waiting arrived) (a : α) :
    InTurn C left store (waiting ++ [a]) (arrived ++ [a].filter C) := by
  obtain ⟨inside, hperm, rfl⟩ := h
  refine ⟨inside, hperm, ?_⟩
  rw [List.filter_append]
  simp only [List.append_assoc]

/-- The first one that waits is moved into the store. -/
theorem InTurn.enter (h : InTurn C left store (a :: waiting) arrived) :
    InTurn C left (a :: store) waiting arrived := by
  obtain ⟨inside, hperm, rfl⟩ := h
  by_cases ha : C a = true
  · refine ⟨inside ++ [a], ?_, ?_⟩
    · rw [List.filter_cons_of_pos ha]
      exact (List.perm_append_singleton a inside).trans (hperm.cons a)
    · rw [List.filter_cons_of_pos ha]
      simp only [List.append_assoc, List.singleton_append]
  · refine ⟨inside, ?_, ?_⟩
    · rwa [List.filter_cons_of_neg ha]
    · rw [List.filter_cons_of_neg ha]

/-- **The element of the least key leaves.**  If it is one of the class then it is the one of
them that arrived first. -/
theorem InTurn.take (h : InTurn C left store waiting arrived) {key : α → κ}
    (hsorted : arrived.Pairwise fun x y => key x < key y) {store' : List α}
    (hstore : store.Perm (a :: store')) (hleast : ∀ x ∈ store, key a ≤ key x) :
    InTurn C (left ++ [a]) store' waiting arrived := by
  obtain ⟨inside, hperm, rfl⟩ := h
  have hfilter := hperm.trans (hstore.filter C)
  by_cases ha : C a = true
  · rw [List.filter_cons_of_pos ha] at hfilter
    have hmem : a ∈ inside := hfilter.mem_iff.mpr List.mem_cons_self
    cases inside with
    | nil => exact absurd hmem List.not_mem_nil
    | cons b inside =>
      have hb : b ∈ store :=
        List.mem_of_mem_filter (hperm.mem_iff.mp List.mem_cons_self)
      have hinside := (List.pairwise_append.mp (List.pairwise_append.mp hsorted).1).2.1
      -- the others in the store arrived after `b`
      have hab : a = b := by
        rcases List.mem_cons.mp hmem with heq | hlater
        · exact heq
        · have hlt := (List.pairwise_cons.mp hinside).1 a hlater
          exact absurd (hleast b hb) (not_le.mpr hlt)
      subst hab
      refine ⟨inside, hfilter.cons_inv, ?_⟩
      rw [List.filter_append, List.filter_cons_of_pos ha, List.filter_nil]
      simp only [List.append_assoc, List.cons_append, List.nil_append]
  · rw [List.filter_cons_of_neg ha] at hfilter
    refine ⟨inside, hfilter, ?_⟩
    rw [List.filter_append, List.filter_cons_of_neg ha, List.filter_nil, List.append_nil]

/-- The ones that have left are the ones that arrived first. -/
theorem InTurn.isPrefix (h : InTurn C left store waiting arrived) : left.filter C <+: arrived := by
  obtain ⟨inside, -, rfl⟩ := h
  rw [List.append_assoc]
  exact List.prefix_append _ _

end InTurn

/-! ## Lists -/

/-- The element that a search finds is the one that it removes. -/
theorem perm_cons_eraseP {q : α → Bool} {l : List α} {a : α} (h : l.find? q = some a) :
    l.Perm (a :: l.eraseP q) := by
  obtain ⟨b, l₁, l₂, hno, hb, hl, herase⟩ :=
    List.exists_of_eraseP (List.mem_of_find?_eq_some h) (List.find?_some h)
  have hfind : l.find? q = some b := by
    rw [hl, List.find?_append, List.find?_eq_none.mpr fun x hx => by simpa using hno x hx,
      List.find?_cons_of_pos hb]
    rfl
  have hab : b = a := Option.some.inj (hfind.symm.trans h)
  rw [herase, ← hab]
  rw [hl]
  exact List.perm_middle

/-- A list begins with another one if their names do so, and if for each name the elements of
this name do so. -/
theorem isPrefix_of_names {β : Type*} [DecidableEq β] (name : α → β) {l₁ : List α} :
    ∀ {l₂ : List α}, l₁.map name <+: l₂.map name →
      (∀ n, (l₁.filter fun x => decide (name x = n)) <+:
        l₂.filter fun x => decide (name x = n)) → l₁ <+: l₂ := by
  induction l₁ with
  | nil => exact fun _ _ => List.nil_prefix
  | cons a l₁ ih =>
    intro l₂ hnames heach
    cases l₂ with
    | nil => exact absurd hnames.length_le (by simp)
    | cons b l₂ =>
      rw [List.map_cons, List.map_cons, List.cons_prefix_cons] at hnames
      obtain ⟨hname, hrest⟩ := hnames
      -- the first ones have the same name, and are the first ones of it
      have hab : a = b := by
        have hfirst := heach (name a)
        rw [List.filter_cons_of_pos (by simp), List.filter_cons_of_pos (by simp [hname]),
          List.cons_prefix_cons] at hfirst
        exact hfirst.1
      subst hab
      refine List.cons_prefix_cons.mpr ⟨rfl, ih hrest fun n => ?_⟩
      have hn := heach n
      by_cases ha : name a = n
      · rw [List.filter_cons_of_pos (by simp [ha]), List.filter_cons_of_pos (by simp [ha]),
          List.cons_prefix_cons] at hn
        exact hn.2
      · rw [List.filter_cons_of_neg (by simp [ha]), List.filter_cons_of_neg (by simp [ha])] at hn
        exact hn

end VPifo.ArrivalOrder
