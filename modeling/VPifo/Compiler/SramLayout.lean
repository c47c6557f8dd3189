import VPifo.Lib.CyclicLayout
import Mathlib.Data.List.Sort
import Mathlib.Logic.Function.Basic

/-!
# `gen_SRAM_layout.py`: the allocation loop

The data placement script of the SDL compiler reads a list of trees, each with an
identifier and a number of levels, sorts it by identifier, and hands out the words
of every SRAM in that order: level `i` of tree `tree_id` goes to SRAM
`(tree_id + i) % SRAM_NUM`, at the first free address, and takes `DEGREE^i` words.

The dictionary and the array of free addresses are functions here, updated at the
keys the loop assigns.  `placeTree_startAddr` and `placeTree_dict` say what one tree does to
them, and `place_startAddr`, `place_dict` what the whole run leaves: the free
address of an SRAM is the total of what the trees so far put there, and the entry of
a level is the total of what the trees before it did.
-/

namespace VPifo.GenSramLayout

open Cyclic

/-- `DEGREE`. -/
def DEGREE : ℕ := 2

/-- A line of the input: `(tree_id, level)`, where `level` is the number of levels. -/
abbrev TreeData := ℕ × ℕ

/-- What the loop keeps: `start_addr` and `start_addr_dict`. -/
structure Layout where
  startAddr : ℕ → ℕ
  startAddrDict : ℕ × ℕ → Option (ℕ × ℕ)

/-- `start_addr = [0] * SRAM_NUM` and an empty dictionary. -/
def Layout.empty : Layout := ⟨fun _ => 0, fun _ => none⟩

/-- The two assignments of the inner loop: record the free address of `sramId` under
the key, then move it on by the size of the level. -/
def Layout.assign (st : Layout) (key : ℕ × ℕ) (sramId curLevelSize : ℕ) : Layout where
  startAddr := Function.update st.startAddr sramId (st.startAddr sramId + curLevelSize)
  startAddrDict := Function.update st.startAddrDict key (some (sramId, st.startAddr sramId))

@[simp] theorem Layout.assign_startAddr (st : Layout) (key : ℕ × ℕ) (sramId size : ℕ) :
    (st.assign key sramId size).startAddr =
      Function.update st.startAddr sramId (st.startAddr sramId + size) := rfl

@[simp] theorem Layout.assign_dict (st : Layout) (key : ℕ × ℕ) (sramId size : ℕ) :
    (st.assign key sramId size).startAddrDict =
      Function.update st.startAddrDict key (some (sramId, st.startAddr sramId)) := rfl

/-- `sorted(tree_data, key=lambda x: x[0])`. -/
def sortedTreeData (treeData : List TreeData) : List TreeData :=
  treeData.mergeSort fun x y => decide (x.1 ≤ y.1)

variable (SRAM_NUM : ℕ)

/-- `n` rounds of the loop over the levels of one tree, from level `i` on. -/
def placeLevels (treeId : ℕ) : ℕ → ℕ → ℕ → Layout → Layout
  | 0, _, _, st => st
  | n + 1, i, curLevelSize, st =>
    placeLevels treeId n (i + 1) (curLevelSize * DEGREE)
      (st.assign (treeId, i) ((treeId + i) % SRAM_NUM) curLevelSize)

/-- The body of the loop over the trees. -/
def placeTree (st : Layout) (td : TreeData) : Layout :=
  placeLevels SRAM_NUM td.1 td.2 0 1 st

/-- The loop over a list of trees in the order given. -/
def place (trees : List TreeData) : Layout := trees.foldl (placeTree SRAM_NUM) Layout.empty

/-- The allocation the script makes for its input. -/
def genLayout (treeData : List TreeData) : Layout := place SRAM_NUM (sortedTreeData treeData)

/-- What tree `td` takes in SRAM `s`: the one level that is placed there, if the tree
is high enough to have it. -/
def taken (s : ℕ) (td : TreeData) : ℕ :=
  if origin SRAM_NUM s (td.1 % SRAM_NUM) < td.2 then
    DEGREE ^ origin SRAM_NUM s (td.1 % SRAM_NUM)
  else 0

variable {SRAM_NUM}

/-! ## One tree -/

/-- The rounds from level `i` to level `i + n` add the level of the tree that
belongs to `s`, when it is one of theirs. -/
theorem placeLevels_startAddr {t s : ℕ} (hs : s < SRAM_NUM) (n i : ℕ) (hn : i + n ≤ SRAM_NUM)
    (st : Layout) :
    (placeLevels SRAM_NUM t n i (DEGREE ^ i) st).startAddr s =
      st.startAddr s +
        if i ≤ origin SRAM_NUM s (t % SRAM_NUM) ∧ origin SRAM_NUM s (t % SRAM_NUM) < i + n then
          DEGREE ^ origin SRAM_NUM s (t % SRAM_NUM)
        else 0 := by
  have hN : 0 < SRAM_NUM := by omega
  induction n generalizing i st with
  | zero => rw [placeLevels, if_neg (by omega), Nat.add_zero]
  | succ n ih =>
    have hbank : origin SRAM_NUM ((t + i) % SRAM_NUM) (t % SRAM_NUM) = i :=
      origin_bank (by omega)
    rw [placeLevels, ← Nat.pow_succ, ih (i + 1) (by omega), Layout.assign_startAddr]
    by_cases h : s = (t + i) % SRAM_NUM
    · rw [h, hbank, Function.update_self, if_neg (by omega), if_pos (by omega), Nat.add_zero]
    · -- another SRAM: its level of the tree is not `i`
      have hne : origin SRAM_NUM s (t % SRAM_NUM) ≠ i := by
        intro hi
        have hadd := origin_add (l := t % SRAM_NUM) hs (Nat.mod_lt t hN).le
        rw [hi, Nat.add_mod_mod, Nat.add_comm] at hadd
        exact h hadd.symm
      rw [Function.update_of_ne h]
      congr 1
      exact if_congr (by omega) rfl rfl

/-- The rounds from level `i` to level `i + n` write their own keys, each with the
address that was free before the tree came. -/
theorem placeLevels_dict {t : ℕ} (n i : ℕ) (hn : i + n ≤ SRAM_NUM) (st : Layout)
    (key : ℕ × ℕ) :
    (placeLevels SRAM_NUM t n i (DEGREE ^ i) st).startAddrDict key =
      if key.1 = t ∧ i ≤ key.2 ∧ key.2 < i + n then
        some ((t + key.2) % SRAM_NUM, st.startAddr ((t + key.2) % SRAM_NUM))
      else st.startAddrDict key := by
  induction n generalizing i st with
  | zero => rw [placeLevels, if_neg (by omega)]
  | succ n ih =>
    rw [placeLevels, ← Nat.pow_succ, ih (i + 1) (by omega), Layout.assign_startAddr,
      Layout.assign_dict]
    obtain ⟨t', j⟩ := key
    by_cases hlater : t' = t ∧ i + 1 ≤ j ∧ j < i + 1 + n
    · rw [if_pos hlater, if_pos (by omega)]
      have hne : (t + j) % SRAM_NUM ≠ (t + i) % SRAM_NUM := fun heq => by
        have := add_mod_left_cancel (by omega) (by omega) heq
        omega
      rw [Function.update_of_ne hne]
    · rw [if_neg hlater]
      by_cases hkey : t' = t ∧ j = i
      · obtain ⟨rfl, rfl⟩ := hkey
        rw [Function.update_self, if_pos (by omega)]
      · have hne : (t', j) ≠ (t, i) := fun h => hkey ⟨congrArg Prod.fst h, congrArg Prod.snd h⟩
        rw [Function.update_of_ne hne]
        exact (if_neg (by simp only; omega)).symm

variable {td : TreeData}

theorem placeTree_startAddr {s : ℕ} (hs : s < SRAM_NUM) (h : td.2 ≤ SRAM_NUM) (st : Layout) :
    (placeTree SRAM_NUM st td).startAddr s = st.startAddr s + taken SRAM_NUM s td := by
  have hn : 0 + td.2 ≤ SRAM_NUM := by rwa [Nat.zero_add]
  have := placeLevels_startAddr (t := td.1) hs td.2 0 hn st
  rw [Nat.pow_zero] at this
  rw [placeTree, this, taken]
  simp

theorem placeTree_dict (h : td.2 ≤ SRAM_NUM) (st : Layout) (key : ℕ × ℕ) :
    (placeTree SRAM_NUM st td).startAddrDict key =
      if key.1 = td.1 ∧ key.2 < td.2 then
        some ((td.1 + key.2) % SRAM_NUM, st.startAddr ((td.1 + key.2) % SRAM_NUM))
      else st.startAddrDict key := by
  have hn : 0 + td.2 ≤ SRAM_NUM := by rwa [Nat.zero_add]
  have := placeLevels_dict (t := td.1) td.2 0 hn st key
  rw [Nat.pow_zero] at this
  rw [placeTree, this]
  simp

/-! ## The whole run -/

/-- **The free address of an SRAM is what the trees so far took there.** -/
theorem place_startAddr {s : ℕ} (hs : s < SRAM_NUM) (trees : List TreeData)
    (h : ∀ td ∈ trees, td.2 ≤ SRAM_NUM) :
    (place SRAM_NUM trees).startAddr s = (trees.map (taken SRAM_NUM s)).sum := by
  induction trees using List.reverseRecOn with
  | nil => rfl
  | append_singleton trees td ih =>
    rw [place, List.foldl_append, List.foldl_cons, List.foldl_nil,
      placeTree_startAddr hs (h td (by simp)), ← place,
      ih fun td' htd' => h td' (List.mem_append_left _ htd')]
    simp

/-- **The entry of a level is what the trees before it took.**  Identifiers are
distinct, so no later tree overwrites it. -/
theorem place_dict (pre post : List TreeData) (td : TreeData)
    (h : ∀ x ∈ pre ++ td :: post, x.2 ≤ SRAM_NUM) (hne : ∀ x ∈ post, x.1 ≠ td.1) {i : ℕ}
    (hi : i < td.2) :
    (place SRAM_NUM (pre ++ td :: post)).startAddrDict (td.1, i) =
      some ((td.1 + i) % SRAM_NUM,
        (pre.map (taken SRAM_NUM ((td.1 + i) % SRAM_NUM))).sum) := by
  have hN : 0 < SRAM_NUM := lt_of_lt_of_le (Nat.zero_lt_of_lt hi) (h td (by simp))
  induction post using List.reverseRecOn with
  | nil =>
    rw [place, List.foldl_append, List.foldl_cons, List.foldl_nil,
      placeTree_dict (h td (by simp)), if_pos ⟨rfl, hi⟩, ← place,
      place_startAddr (Nat.mod_lt _ hN) pre fun x hx => h x (List.mem_append_left _ hx)]
  | append_singleton post x ih =>
    have hx : x.1 ≠ td.1 := hne x (by simp)
    have hsplit : pre ++ td :: (post ++ [x]) = (pre ++ td :: post) ++ [x] := by simp
    rw [hsplit, place, List.foldl_append, List.foldl_cons, List.foldl_nil,
      placeTree_dict (h x (by simp)), if_neg (fun hk => hx hk.1.symm), ← place]
    refine ih (fun y hy => h y ?_) (fun y hy => hne y (List.mem_append_left _ hy))
    rw [hsplit]
    exact List.mem_append_left _ hy

/-! ## Trees of equal height, numbered from zero -/

/-- The trees `0 .. n-1`, each with `LEVEL` levels. -/
def uniformTrees (n LEVEL : ℕ) : List TreeData := (List.range n).map fun t => (t, LEVEL)

/-- Whatever order the lines of the input have, the loop sees the trees in order. -/
theorem sortedTreeData_uniform {n LEVEL : ℕ} {treeData : List TreeData}
    (h : treeData.Perm (uniformTrees n LEVEL)) :
    sortedTreeData treeData = uniformTrees n LEVEL := by
  have hperm : (sortedTreeData treeData).Perm (uniformTrees n LEVEL) :=
    (List.mergeSort_perm _ _).trans h
  have hsorted : (sortedTreeData treeData).Pairwise fun x y => x.1 ≤ y.1 := by
    have hle : (sortedTreeData treeData).Pairwise fun x y => decide (x.1 ≤ y.1) = true :=
      List.pairwise_mergeSort
        (fun a b c hab hbc => by
          simp only [decide_eq_true_eq] at hab hbc ⊢
          omega)
        (fun a b => by
          simp only [Bool.or_eq_true, decide_eq_true_eq]
          omega) treeData
    simpa using hle
  have huniform : (uniformTrees n LEVEL).Pairwise fun x y => x.1 ≤ y.1 := by
    rw [uniformTrees, List.pairwise_map]
    exact List.pairwise_le_range
  refine hperm.eq_of_pairwise ?_ hsorted huniform
  -- all trees have the same height, so the identifier determines the line
  intro a b ha hb hab hba
  have hlevel : ∀ x ∈ uniformTrees n LEVEL, x.2 = LEVEL := by
    intro x hx
    obtain ⟨t, -, rfl⟩ := List.mem_map.mp hx
    rfl
  exact Prod.ext (le_antisymm hab hba)
    ((hlevel a (hperm.mem_iff.mp ha)).trans (hlevel b hb).symm)

/-- In trees of full height every SRAM holds one level of each. -/
theorem sum_taken_uniform {s : ℕ} (hs : s < SRAM_NUM) (t : ℕ) :
    ((uniformTrees t SRAM_NUM).map (taken SRAM_NUM s)).sum =
      start SRAM_NUM (fun l => DEGREE ^ l) s t := by
  have hN : 0 < SRAM_NUM := by omega
  induction t with
  | zero => rfl
  | succ t ih =>
    rw [start_succ, ← ih, uniformTrees, List.range_succ, List.map_append, List.map_append,
      List.sum_append, ← uniformTrees]
    simp [taken, origin_lt hN]

theorem uniformTrees_split {n t LEVEL : ℕ} (ht : t < n) :
    uniformTrees n LEVEL = uniformTrees t LEVEL ++ (t, LEVEL) ::
      (List.range' (t + 1) (n - (t + 1))).map fun j => (j, LEVEL) := by
  obtain ⟨d, rfl⟩ : ∃ d, n = t + (d + 1) := ⟨n - (t + 1), by omega⟩
  rw [show t + (d + 1) - (t + 1) = d by omega, uniformTrees, uniformTrees,
    List.range_eq_range', List.range_eq_range', ← List.range'_append_1, List.map_append,
    Nat.zero_add, List.range'_succ, List.map_cons]

/-- **The table of uniform trees**: level `i` of tree `t` starts where the rotated
packing of `t` earlier trees leaves off. -/
theorem genLayout_dict_uniform {n LEVEL : ℕ} {treeData : List TreeData}
    (h : treeData.Perm (uniformTrees n LEVEL)) {t i : ℕ} (ht : t < n) (hi : i < LEVEL) :
    (genLayout LEVEL treeData).startAddrDict (t, i) =
      some ((t + i) % LEVEL,
        start LEVEL (fun l => DEGREE ^ l) ((t + i) % LEVEL) t) := by
  have hL : 0 < LEVEL := by omega
  have hheight : ∀ x ∈ uniformTrees n LEVEL, x.2 ≤ LEVEL := by
    intro x hx
    obtain ⟨j, -, rfl⟩ := List.mem_map.mp hx
    exact le_refl LEVEL
  rw [uniformTrees_split ht] at hheight
  have hdict := place_dict _ _ _ hheight ?_ hi
  · rw [genLayout, sortedTreeData_uniform h, uniformTrees_split ht, hdict,
      sum_taken_uniform (Nat.mod_lt _ hL)]
  · intro x hx
    obtain ⟨j, hj, rfl⟩ := List.mem_map.mp hx
    have := (List.mem_range'_1.mp hj).1
    show j ≠ t
    omega

end VPifo.GenSramLayout
