import Mathlib.Data.Finset.Card
import Mathlib.Data.List.Nodup
import Mathlib.Algebra.Order.Ring.Nat
import Mathlib.Tactic.Common

/-!
# Trees given by pointers

A program that builds a tree keeps, for every node, the list of its sons and perhaps a
pointer back to its father.  Nothing in such a heap says that it is a tree; what one knows is
that the two kinds of pointers agree (`Linked`) and that the way down ends (`HeightLe`).

This file derives what one expects of a tree from these two.  A node is not below itself
(`not_mem_subtree_son`), the sub-trees of two sons have no node in common
(`disjoint_subtree`), and the way up from a node to the root is a path of bounded length
(`Path.length_lt`).  Functions that go down the tree and collect a list are instances of
one scheme, `collect`, which does not depend on the bound it is given as long as the bound
is large enough (`collect_eq`).

On finitely many nodes the way down ends as soon as no way up runs in a circle
(`Acyclic.heightLe`), and the number of nodes is a bound.
-/

namespace VPifo.PointerTree

variable {α β : Type*} (sons : α → List α)

/-- The tree below `n` has at most `k` levels. -/
def HeightLe : ℕ → α → Prop
  | 0, _ => False
  | k + 1, n => ∀ s ∈ sons n, HeightLe k s

instance decidableHeightLe : (k : ℕ) → (n : α) → Decidable (HeightLe sons k n)
  | 0, _ => isFalse id
  | k + 1, n =>
    have := decidableHeightLe k
    inferInstanceAs (Decidable (∀ s ∈ sons n, HeightLe sons k s))

variable {sons} {k K : ℕ} {n s : α}

theorem HeightLe.mono (h : HeightLe sons k n) (hk : k ≤ K) : HeightLe sons K n := by
  induction k generalizing n K with
  | zero => exact h.elim
  | succ k ih =>
    obtain ⟨K, rfl⟩ : ∃ K', K = K' + 1 := ⟨K - 1, by omega⟩
    exact fun s hs => ih (h s hs) (by omega)

theorem HeightLe.son (h : HeightLe sons k n) (hs : s ∈ sons n) : HeightLe sons k s := by
  cases k with
  | zero => exact h.elim
  | succ k => exact HeightLe.mono (h s hs) (Nat.le_succ k)

/-- Induction from the leaves up. -/
@[elab_as_elim]
theorem HeightLe.rec_sons {p : α → Prop}
    (step : ∀ n, HeightLe sons K n → (∀ s ∈ sons n, p s) → p n) (h : HeightLe sons K n) : p n := by
  have hall : ∀ k ≤ K, ∀ n, HeightLe sons k n → p n := by
    intro k
    induction k with
    | zero => exact fun _ _ h => h.elim
    | succ k ih =>
      exact fun hk n h => step n (h.mono hk) fun s hs => ih (by omega) s (h s hs)
  exact hall K le_rfl n h

/-! ## Going down -/

variable (sons)

/-- Collect a list from the sub-tree of a node, `f` saying what a node makes of the lists of
its sons. -/
def collect (f : α → List β → List β) : ℕ → α → List β
  | 0, _ => []
  | k + 1, n => f n ((sons n).flatMap (collect f k))

/-- The nodes of a sub-tree. -/
def subtree : ℕ → α → List α := collect sons fun n below => n :: below

/-- The nodes of a sub-tree that have no sons. -/
def leaves : ℕ → α → List α :=
  collect sons fun n below => if (sons n).isEmpty then [n] else below

variable {sons}

theorem collect_stable (f : α → List β → List β) (h : HeightLe sons k n) (hk : k ≤ K) :
    collect sons f K n = collect sons f k n := by
  induction k generalizing n K with
  | zero => exact h.elim
  | succ k ih =>
    obtain ⟨K, rfl⟩ : ∃ K', K = K' + 1 := ⟨K - 1, by omega⟩
    rw [collect, collect]
    congr 1
    exact List.flatMap_congr fun s hs => ih (h s hs) (by omega)

/-- With a bound that is large enough, `collect` is its own recursion. -/
theorem collect_eq (f : α → List β → List β) (h : HeightLe sons K n) :
    collect sons f K n = f n ((sons n).flatMap (collect sons f K)) := by
  cases K with
  | zero => exact h.elim
  | succ K =>
    rw [collect]
    congr 1
    exact List.flatMap_congr fun s hs => (collect_stable f (h s hs) (Nat.le_succ K)).symm

theorem subtree_eq (h : HeightLe sons K n) :
    subtree sons K n = n :: (sons n).flatMap (subtree sons K) := collect_eq _ h

theorem leaves_eq (h : HeightLe sons K n) : leaves sons K n =
    if (sons n).isEmpty then [n] else (sons n).flatMap (leaves sons K) := collect_eq _ h

theorem mem_subtree_self (h : HeightLe sons K n) : n ∈ subtree sons K n := by
  rw [subtree_eq h]
  exact List.mem_cons_self

theorem mem_subtree_of_son (h : HeightLe sons K n) (hs : s ∈ sons n) {m : α}
    (hm : m ∈ subtree sons K s) : m ∈ subtree sons K n := by
  rw [subtree_eq h]
  exact List.mem_cons_of_mem _ (List.mem_flatMap.mpr ⟨s, hs, hm⟩)

theorem heightLe_of_mem_subtree (h : HeightLe sons K n) :
    ∀ m ∈ subtree sons K n, HeightLe sons K m := by
  refine HeightLe.rec_sons ?_ h
  intro n h ih m hm
  rw [subtree_eq h] at hm
  rcases List.mem_cons.mp hm with rfl | hm
  · exact h
  · obtain ⟨s, hs, hms⟩ := List.mem_flatMap.mp hm
    exact ih s hs m hms

/-- The sons of a node of the sub-tree are in the sub-tree. -/
theorem son_mem_subtree (h : HeightLe sons K n) :
    ∀ m ∈ subtree sons K n, ∀ s ∈ sons m, s ∈ subtree sons K n := by
  refine HeightLe.rec_sons ?_ h
  intro n h ih m hm s hs
  rw [subtree_eq h] at hm
  rcases List.mem_cons.mp hm with rfl | hm
  · exact mem_subtree_of_son h hs (mem_subtree_self (h.son hs))
  · obtain ⟨s', hs', hms⟩ := List.mem_flatMap.mp hm
    exact mem_subtree_of_son h hs' (ih s' hs' m hms s hs)

theorem leaves_subset (h : HeightLe sons K n) :
    ∀ m ∈ subtree sons K n, leaves sons K m ⊆ leaves sons K n := by
  refine HeightLe.rec_sons ?_ h
  intro n h ih m hm
  rw [subtree_eq h] at hm
  rcases List.mem_cons.mp hm with rfl | hm
  · exact fun _ hl => hl
  · obtain ⟨s, hs, hms⟩ := List.mem_flatMap.mp hm
    intro l hl
    have hinner : (sons n).isEmpty = false := List.isEmpty_eq_false_iff.mpr (List.ne_nil_of_mem hs)
    rw [leaves_eq h, hinner]
    exact List.mem_flatMap.mpr ⟨s, hs, ih s hs m hms hl⟩

/-- Every other node of the sub-tree is the son of one. -/
theorem exists_father_mem_subtree (h : HeightLe sons K n) :
    ∀ m ∈ subtree sons K n, m ≠ n → ∃ f ∈ subtree sons K n, m ∈ sons f := by
  refine HeightLe.rec_sons ?_ h
  intro n h ih m hm hne
  rw [subtree_eq h] at hm
  rcases List.mem_cons.mp hm with rfl | hm
  · exact absurd rfl hne
  · obtain ⟨s, hs, hms⟩ := List.mem_flatMap.mp hm
    by_cases hsm : m = s
    · exact ⟨n, mem_subtree_self h, hsm ▸ hs⟩
    · obtain ⟨f, hf, hmf⟩ := ih s hs m hms hsm
      exact ⟨f, mem_subtree_of_son h hs hf, hmf⟩

/-! ## Going up -/

/-- The pointers down and the pointers up agree. -/
structure Linked (sons : α → List α) (father : α → Option α) : Prop where
  iff : ∀ n s, s ∈ sons n ↔ father s = some n
  nodup : ∀ n, (sons n).Nodup

/-- The node `d` steps above. -/
def above (father : α → Option α) : ℕ → α → Option α
  | 0, m => some m
  | d + 1, m => (father m).bind (above father d)

variable {father : α → Option α}

theorem above_add (d e : ℕ) (m : α) :
    above father (d + e) m = (above father d m).bind (above father e) := by
  induction d generalizing m with
  | zero => rw [Nat.zero_add]; rfl
  | succ d ih =>
    rw [Nat.succ_add, above, above]
    cases father m with
    | none => rfl
    | some f => exact ih f

theorem above_one (m : α) : above father 1 m = father m := by
  rw [above]
  cases father m <;> rfl

theorem above_succ {d : ℕ} {m s : α} (h : above father d m = some s) (hs : father s = some n) :
    above father (d + 1) m = some n := by
  rw [above_add, h, Option.bind_some, above_one, hs]

/-- Every node of a sub-tree has the root of the sub-tree above it. -/
theorem exists_above (hl : Linked sons father) (h : HeightLe sons K n) :
    ∀ m ∈ subtree sons K n, ∃ d, above father d m = some n := by
  refine HeightLe.rec_sons ?_ h
  intro n h ih m hm
  rw [subtree_eq h] at hm
  rcases List.mem_cons.mp hm with rfl | hm
  · exact ⟨0, rfl⟩
  · obtain ⟨s, hs, hms⟩ := List.mem_flatMap.mp hm
    obtain ⟨d, hd⟩ := ih s hs m hms
    exact ⟨d + 1, above_succ hd ((hl.iff n s).mp hs)⟩

/-- The way up to a node is shorter than its tree is high. -/
theorem lt_of_above (hl : Linked sons father) {d : ℕ} {m : α} (h : HeightLe sons k n)
    (hd : above father d m = some n) : d < k := by
  induction d generalizing n k with
  | zero =>
    cases k with
    | zero => exact h.elim
    | succ k => exact Nat.succ_pos k
  | succ d ih =>
    rw [above_add d 1] at hd
    obtain ⟨s, hs, hfather⟩ := Option.bind_eq_some_iff.mp hd
    rw [above_one] at hfather
    cases k with
    | zero => exact h.elim
    | succ k => exact Nat.succ_lt_succ (ih (h s ((hl.iff n s).mpr hfather)) hs)

/-- **No node is above itself.** -/
theorem above_ne_self (hl : Linked sons father) (h : HeightLe sons k n) {d : ℕ} (hd : d ≠ 0) :
    above father d n ≠ some n := by
  intro hcycle
  have hmul : ∀ j, above father (d * j) n = some n := by
    intro j
    induction j with
    | zero => rfl
    | succ j ih => rw [Nat.mul_succ, above_add, ih, Option.bind_some, hcycle]
  have hlt := lt_of_above hl h (hmul k)
  have hle := Nat.le_mul_of_pos_left k (Nat.pos_of_ne_zero hd)
  omega

theorem root_not_mem_sons (hl : Linked sons father) (h : HeightLe sons K n) {m : α}
    (hm : m ∈ subtree sons K n) : n ∉ sons m := by
  intro hn
  obtain ⟨d, hd⟩ := exists_above hl h m hm
  refine above_ne_self hl h (Nat.succ_ne_zero d) ?_
  rw [above, (hl.iff m n).mp hn]
  exact hd

theorem not_mem_subtree_son (hl : Linked sons father) (h : HeightLe sons K n) (hs : s ∈ sons n) :
    n ∉ subtree sons K s := by
  intro hn
  obtain ⟨d, hd⟩ := exists_above hl (h.son hs) n hn
  exact above_ne_self hl h (Nat.succ_ne_zero d) (above_succ hd ((hl.iff n s).mp hs))

/-- **The sub-trees of two sons are disjoint.** -/
theorem disjoint_subtree (hl : Linked sons father) (h : HeightLe sons K n) {s' m : α}
    (hs : s ∈ sons n) (hs' : s' ∈ sons n) (hne : s ≠ s') (hm : m ∈ subtree sons K s) :
    m ∉ subtree sons K s' := by
  intro hm'
  obtain ⟨a, ha⟩ := exists_above hl (h.son hs) m hm
  obtain ⟨b, hb⟩ := exists_above hl (h.son hs') m hm'
  have hup := (hl.iff n s).mp hs
  have hup' := (hl.iff n s').mp hs'
  -- one of the sons is above the other one, and its father is `n`
  have hcross : ∀ {u v : α} {c : ℕ}, father u = some n → father v = some n → c ≠ 0 →
      above father c u ≠ some v := by
    intro u v c hu hv hc hcv
    obtain ⟨c, rfl⟩ := Nat.exists_eq_succ_of_ne_zero hc
    rw [above, hu, Option.bind_some] at hcv
    exact above_ne_self hl h (Nat.succ_ne_zero c) (above_succ hcv hv)
  rcases Nat.lt_trichotomy a b with hab | rfl | hab
  · have hcv : above father (b - a) s = some s' := by
      rw [← Option.bind_some (a := s) (f := above father (b - a)), ← ha, ← above_add]
      rwa [Nat.add_sub_cancel' hab.le]
    exact hcross hup hup' (Nat.sub_ne_zero_of_lt hab) hcv
  · exact hne (Option.some.inj (ha.symm.trans hb))
  · have hcv : above father (a - b) s' = some s := by
      rw [← Option.bind_some (a := s') (f := above father (a - b)), ← hb, ← above_add]
      rwa [Nat.add_sub_cancel' hab.le]
    exact hcross hup' hup (Nat.sub_ne_zero_of_lt hab) hcv

/-- `path` is the way up from `n` to the root, `n` not included. -/
inductive Path (sons : α → List α) (root : α) : α → List α → Prop
  | root : Path sons root root []
  | son {n s : α} {path : List α} (hs : s ∈ sons n) (before : Path sons root n path) :
      Path sons root s (n :: path)

theorem Path.above {root : α} {path : List α} (hl : Linked sons father)
    (hp : Path sons root n path) : PointerTree.above father path.length n = some root := by
  induction hp with
  | root => rfl
  | @son n s path hs _ ih =>
    rw [List.length_cons, PointerTree.above, (hl.iff n s).mp hs]
    exact ih

theorem Path.length_lt {root : α} {path : List α} (hl : Linked sons father)
    (h : HeightLe sons K root) (hp : Path sons root n path) : path.length < K :=
  lt_of_above hl h (hp.above hl)

/-- Below the root no node is the root. -/
theorem Path.ne_root {root : α} {path : List α} (hl : Linked sons father)
    (h : HeightLe sons K root) (hp : Path sons root n path) (hpath : path ≠ []) : n ≠ root := by
  rintro rfl
  exact above_ne_self hl h (List.length_pos_iff.mpr hpath).ne' (hp.above hl)

/-- The way up to a node of a sub-tree. -/
theorem exists_path (h : HeightLe sons K n) :
    ∀ m ∈ subtree sons K n, ∃ path, Path sons n m path := by
  have hall : ∀ k ≤ K, ∀ s, HeightLe sons k s → ∀ path, Path sons n s path →
      ∀ m ∈ subtree sons k s, ∃ path, Path sons n m path := by
    intro k
    induction k with
    | zero => exact fun _ _ h => h.elim
    | succ k ih =>
      intro hk s hs path hpath m hm
      rcases List.mem_cons.mp hm with rfl | hm
      · exact ⟨path, hpath⟩
      · obtain ⟨t, ht, hmt⟩ := List.mem_flatMap.mp hm
        exact ih (by omega) t (hs t ht) _ (hpath.son ht) m hmt
  exact hall K le_rfl n h [] .root

theorem leaves_subset_subtree (h : HeightLe sons K n) : leaves sons K n ⊆ subtree sons K n := by
  refine HeightLe.rec_sons (p := fun n => leaves sons K n ⊆ subtree sons K n) ?_ h
  intro n h ih m hm
  rw [leaves_eq h] at hm
  split at hm
  · rw [List.mem_singleton.mp hm]
    exact mem_subtree_self h
  · obtain ⟨s, hs, hms⟩ := List.mem_flatMap.mp hm
    exact mem_subtree_of_son h hs (ih s hs hms)

/-! ## Pointers without a cycle -/

/-- No way up comes back to its start. -/
def Acyclic (father : α → Option α) : Prop := ∀ n d, above father (d + 1) n ≠ some n

/-- A way up without a cycle visits no node twice. -/
theorem Acyclic.above_ne (hac : Acyclic father) {i j : ℕ} (hij : i < j) {m x : α}
    (hi : above father i m = some x) : above father j m ≠ some x := by
  intro hj
  obtain ⟨d, rfl⟩ : ∃ d, j = i + (d + 1) := ⟨j - i - 1, by omega⟩
  rw [above_add, hi, Option.bind_some] at hj
  exact hac x d hj

/-- **Without a cycle, a way up is shorter than the number of nodes.** -/
theorem Acyclic.above_lt (hac : Acyclic father) {nodes : Finset α}
    (hnodes : ∀ s f, father s = some f → f ∈ nodes) {d : ℕ} {m : α} (hm : m ∈ nodes)
    (hd : above father d m = some n) : d < nodes.card := by
  have hway : ∀ i ≤ d, ∃ x ∈ nodes, above father i m = some x := by
    intro i hi
    induction i with
    | zero => exact ⟨m, hm, rfl⟩
    | succ i ih =>
      obtain ⟨x, -, hx⟩ := ih (by omega)
      have hrest : above father (d - i) x = some n := by
        have h := hd
        rwa [show d = i + (d - i) by omega, above_add, hx, Option.bind_some] at h
      obtain ⟨f, hf⟩ : ∃ f, father x = some f := by
        rw [show d - i = (d - (i + 1)) + 1 by omega, above] at hrest
        obtain ⟨f, hf, -⟩ := Option.bind_eq_some_iff.mp hrest
        exact ⟨f, hf⟩
      exact ⟨f, hnodes x f hf, above_succ hx hf⟩
  by_contra hcard
  -- more steps than nodes, so two of them are at the same one
  obtain ⟨i, hi, j, hj, hij, heq⟩ := Finset.exists_ne_map_eq_of_card_lt_of_maps_to
    (s := Finset.range (d + 1)) (t := nodes) (f := fun i => (above father i m).getD m)
    (by rw [Finset.card_range]; omega) fun i hi => by
      obtain ⟨x, hx, hax⟩ := hway i (by simpa [Nat.lt_succ_iff] using hi)
      simpa [hax] using hx
  obtain ⟨x, -, hx⟩ := hway i (by simpa [Nat.lt_succ_iff] using hi)
  obtain ⟨y, -, hy⟩ := hway j (by simpa [Nat.lt_succ_iff] using hj)
  simp only [hx, hy, Option.getD_some] at heq
  rw [heq] at hx
  rcases Nat.lt_or_gt_of_ne hij with hlt | hlt
  · exact hac.above_ne hlt hx hy
  · exact hac.above_ne hlt hy hx

/-- The tree below a node is as high as the ways up to it are long. -/
theorem heightLe_of_above (hl : Linked sons father)
    (h : ∀ d m, above father d m = some n → d < k) : HeightLe sons k n := by
  induction k generalizing n with
  | zero => exact absurd (h 0 n rfl) (Nat.not_lt_zero 0)
  | succ k ih =>
    intro s hs
    refine ih fun d m hd => ?_
    exact Nat.lt_of_succ_lt_succ (h (d + 1) m (above_succ hd ((hl.iff n s).mp hs)))

/-- **Pointers without a cycle make trees.** -/
theorem Acyclic.heightLe (hac : Acyclic father) (hl : Linked sons father) {nodes : Finset α}
    (hnodes : ∀ s f, father s = some f → s ∈ nodes ∧ f ∈ nodes) (hn : n ∈ nodes) :
    HeightLe sons nodes.card n := by
  refine heightLe_of_above hl fun d m hd => ?_
  cases d with
  | zero => exact Finset.card_pos.mpr ⟨n, hn⟩
  | succ d =>
    obtain ⟨f, hf, -⟩ := Option.bind_eq_some_iff.mp hd
    exact hac.above_lt (fun s f h => (hnodes s f h).2) (hnodes m f hf).1 hd

end VPifo.PointerTree
