import VPifo.Compiler.SramLayout
import VPifo.Lib.Numerals
import VPifo.Lib.Packing
import Mathlib.Data.Nat.Log

/-!
# `gen_SRAM_layout.py`: the widths and the table

After the allocation loop the script takes the logarithms of four maxima for the widths of the
fields, and writes a `.mem` file with one line for every tree identifier and every level that
the widths have room for.  A line is the number of the SRAM and the start address, in binary, or
ones only when there is no such level.

Every SRAM is packed in the order of the trees, so the regions of the levels tile it and no two
of them overlap (`regions_tile`).  The lines can be read back with two exceptions
(`table_decodes_iff`).  A width of zero still gives a digit.  And nothing keeps a level away from
the last address of the last SRAM, which is all ones when both numbers are powers of two.
-/

namespace VPifo.GenSramLayout

open Cyclic Numerals

/-! ## The script -/

/-- `math.ceil(math.log2(x))`, which raises for 0, with the exact logarithm.  The script's own is
rounded, and one too small for `2^49 + 1`; up to `2^49` it is this one. -/
def ceilLog2 (x : ℕ) : Option ℕ := if x = 0 then none else some (Nat.clog 2 x)

/-- The widths of the fields. -/
structure Widths where
  sramAddrBits : ℕ
  levelBits : ℕ
  treeIdBits : ℕ
  sramIdBits : ℕ

/-- A line of the `.mem` file. -/
def memLine (layout : Layout) (w : Widths) (treeId level : ℕ) : List Char :=
  match layout.startAddrDict (treeId, level) with
  | some (sramId, startAddress) =>
    formatBin w.sramIdBits sramId ++ formatBin w.sramAddrBits startAddress
  | none =>
    formatBin w.sramIdBits ((1 <<< w.sramIdBits : ℕ) - 1) ++
      formatBin w.sramAddrBits ((1 <<< w.sramAddrBits : ℕ) - 1)

/-- The `.mem` file. -/
def memFile (layout : Layout) (w : Widths) : List (List Char) :=
  (List.range (2 ^ w.treeIdBits)).flatMap fun treeId =>
    (List.range (2 ^ w.levelBits)).map fun level => memLine layout w treeId level

/-- What the script works out. -/
structure Output where
  layout : Layout
  maxSramAddr : ℕ
  widths : Widths
  mem : List (List Char)

/-- The script, for the trees in the input file.  There is no result where it raises: a maximum
of nothing, or the logarithm of 0. -/
def genSramLayout (SRAM_NUM : ℕ) (treeData : List TreeData) : Option Output := do
  let maxTreeId ← (treeData.map Prod.fst).max?
  let maxLevel ← (treeData.map Prod.snd).max?
  let layout := genLayout SRAM_NUM treeData
  let maxSramAddr ← ((List.range SRAM_NUM).map layout.startAddr).max?
  let sramAddrBits ← ceilLog2 maxSramAddr
  let levelBits ← ceilLog2 maxLevel
  let treeIdBits ← ceilLog2 (maxTreeId + 1)
  let sramIdBits ← ceilLog2 SRAM_NUM
  let w : Widths := ⟨sramAddrBits, levelBits, treeIdBits, sramIdBits⟩
  return ⟨layout, maxSramAddr, w, memFile layout w⟩

/-- A legal input: the identifiers are distinct, and every tree has between one level and as many
as there are SRAMs. -/
structure Legal (SRAM_NUM : ℕ) (treeData : List TreeData) : Prop where
  distinct : (treeData.map Prod.fst).Nodup
  pos : ∀ td ∈ treeData, 1 ≤ td.2
  le : ∀ td ∈ treeData, td.2 ≤ SRAM_NUM

variable {SRAM_NUM : ℕ} {treeData : List TreeData}

/-! ## What is in the dictionary -/

/-- The level of a tree that is placed in an SRAM takes its size. -/
theorem taken_bank {td : TreeData} (h : td.2 ≤ SRAM_NUM) {i : ℕ} (hi : i < td.2) :
    taken SRAM_NUM ((td.1 + i) % SRAM_NUM) td = DEGREE ^ i := by
  rw [taken, origin_bank (lt_of_lt_of_le hi h), if_pos hi]

/-- A tree that takes words in an SRAM has a level there. -/
theorem exists_level_of_taken {td : TreeData} {s : ℕ} (hs : s < SRAM_NUM)
    (h : taken SRAM_NUM s td ≠ 0) : ∃ i < td.2, s = (td.1 + i) % SRAM_NUM := by
  rw [taken] at h
  split at h
  · next hi =>
    refine ⟨_, hi, ?_⟩
    have hN : 0 < SRAM_NUM := by omega
    have horigin := origin_add hs (Nat.mod_lt td.1 hN).le
    rw [Nat.add_mod_mod, Nat.add_comm] at horigin
    exact horigin.symm
  · exact absurd rfl h

/-- The loop writes the keys of the levels of its trees. -/
theorem place_dict_none {key : ℕ × ℕ} (trees : List TreeData) (h : ∀ x ∈ trees, x.2 ≤ SRAM_NUM)
    (hkey : ∀ x ∈ trees, ¬(key.1 = x.1 ∧ key.2 < x.2)) :
    (place SRAM_NUM trees).startAddrDict key = none := by
  induction trees using List.reverseRecOn with
  | nil => rfl
  | append_singleton trees x ih =>
    rw [place, List.foldl_append, List.foldl_cons, List.foldl_nil,
      placeTree_dict (h x (by simp)), if_neg (hkey x (by simp)), ← place]
    exact ih (fun y hy => h y (List.mem_append_left _ hy))
      fun y hy => hkey y (List.mem_append_left _ hy)

theorem sortedTreeData_perm (treeData : List TreeData) :
    (sortedTreeData treeData).Perm treeData := List.mergeSort_perm _ _

/-- The loop sees the trees by identifier. -/
theorem sortedTreeData_sorted (h : (treeData.map Prod.fst).Nodup) :
    (sortedTreeData treeData).Pairwise fun x y => x.1 < y.1 := by
  have hle : (sortedTreeData treeData).Pairwise fun x y => decide (x.1 ≤ y.1) = true :=
    List.pairwise_mergeSort
      (fun a b c hab hbc => by
        simp only [decide_eq_true_eq] at hab hbc ⊢
        omega)
      (fun a b => by
        simp only [Bool.or_eq_true, decide_eq_true_eq]
        omega) treeData
  have hne : (sortedTreeData treeData).Pairwise fun x y => x.1 ≠ y.1 :=
    List.pairwise_map.mp (((sortedTreeData_perm treeData).map Prod.fst).nodup_iff.mpr h)
  refine (hle.and hne).imp fun ⟨hxy, hxy'⟩ => ?_
  exact lt_of_le_of_ne (of_decide_eq_true hxy) hxy'

section Legal

variable (h : Legal SRAM_NUM treeData)
include h

theorem Legal.sorted_le : ∀ td ∈ sortedTreeData treeData, td.2 ≤ SRAM_NUM :=
  fun td htd => h.le td ((sortedTreeData_perm treeData).mem_iff.mp htd)

/-- **What the dictionary holds for a level**: the SRAM, and what the trees before took there. -/
theorem Legal.dict_iff {t i s a : ℕ} :
    (genLayout SRAM_NUM treeData).startAddrDict (t, i) = some (s, a) ↔
      ∃ pre td post, sortedTreeData treeData = pre ++ td :: post ∧ td.1 = t ∧ i < td.2 ∧
        s = (t + i) % SRAM_NUM ∧ a = (pre.map (taken SRAM_NUM s)).sum := by
  have hentry : ∀ {pre td post}, sortedTreeData treeData = pre ++ td :: post → i < td.2 →
      (genLayout SRAM_NUM treeData).startAddrDict (td.1, i) =
        some ((td.1 + i) % SRAM_NUM, (pre.map (taken SRAM_NUM ((td.1 + i) % SRAM_NUM))).sum) := by
    intro pre td post hsplit hi
    have hsorted := sortedTreeData_sorted h.distinct
    rw [hsplit] at hsorted
    have hlater := (List.pairwise_cons.mp (List.pairwise_append.mp hsorted).2.1).1
    rw [genLayout, hsplit]
    refine place_dict pre post td (fun x hx => h.sorted_le x (hsplit ▸ hx)) (fun x hx => ?_) hi
    exact (hlater x hx).ne'
  constructor
  · intro hdict
    by_cases hkey : ∃ td ∈ sortedTreeData treeData, td.1 = t ∧ i < td.2
    · obtain ⟨td, htd, rfl, hi⟩ := hkey
      obtain ⟨pre, post, hsplit⟩ := List.append_of_mem htd
      rw [hentry hsplit hi, Option.some.injEq, Prod.mk.injEq] at hdict
      obtain ⟨rfl, rfl⟩ := hdict
      exact ⟨pre, td, post, hsplit, rfl, hi, rfl, rfl⟩
    · rw [genLayout, place_dict_none _ h.sorted_le
        fun x hx hx' => hkey ⟨x, hx, hx'.1.symm, hx'.2⟩] at hdict
      exact absurd hdict (by simp)
  · rintro ⟨pre, td, post, hsplit, rfl, hi, rfl, rfl⟩
    exact hentry hsplit hi

/-- What is free in an SRAM in the end. -/
theorem Legal.startAddr_eq {s : ℕ} (hs : s < SRAM_NUM) :
    (genLayout SRAM_NUM treeData).startAddr s = (treeData.map (taken SRAM_NUM s)).sum := by
  rw [genLayout, place_startAddr hs _ h.sorted_le]
  exact ((sortedTreeData_perm treeData).map _).sum_eq

/-- A level lies in its SRAM below what is free in the end. -/
theorem Legal.dict_bound {t i s a : ℕ}
    (hdict : (genLayout SRAM_NUM treeData).startAddrDict (t, i) = some (s, a)) :
    s < SRAM_NUM ∧ i < SRAM_NUM ∧ a + DEGREE ^ i ≤ (genLayout SRAM_NUM treeData).startAddr s := by
  obtain ⟨pre, td, post, hsplit, rfl, hi, rfl, rfl⟩ := h.dict_iff.mp hdict
  have htd := h.sorted_le td (by rw [hsplit]; simp)
  have hs : (td.1 + i) % SRAM_NUM < SRAM_NUM := Nat.mod_lt _ (by omega)
  refine ⟨hs, by omega, ?_⟩
  rw [genLayout, place_startAddr hs _ h.sorted_le, hsplit, ← taken_bank htd hi]
  exact Packing.end_le_sum _ pre post td

end Legal

/-! ## The maxima and the widths -/

/-- What a run of the script says about its maximum and its widths. -/
structure Measured (SRAM_NUM : ℕ) (treeData : List TreeData) (out : Output) : Prop where
  layout : out.layout = genLayout SRAM_NUM treeData
  reached : ∃ s < SRAM_NUM, out.layout.startAddr s = out.maxSramAddr
  bound : ∀ s < SRAM_NUM, out.layout.startAddr s ≤ out.maxSramAddr
  sramAddrBits : out.widths.sramAddrBits = Nat.clog 2 out.maxSramAddr
  sramIdBits : out.widths.sramIdBits = Nat.clog 2 SRAM_NUM
  treeId : ∀ td ∈ treeData, td.1 < 2 ^ out.widths.treeIdBits
  level : ∀ td ∈ treeData, td.2 ≤ 2 ^ out.widths.levelBits
  mem : out.mem = memFile out.layout out.widths

theorem ceilLog2_eq_some {x b : ℕ} (h : ceilLog2 x = some b) : x ≠ 0 ∧ b = Nat.clog 2 x := by
  rw [ceilLog2] at h
  split at h
  · exact absurd h (by simp)
  · next hx => exact ⟨hx, (Option.some.inj h).symm⟩

theorem measured_of_some {out : Output} (h : genSramLayout SRAM_NUM treeData = some out) :
    Measured SRAM_NUM treeData out := by
  simp only [genSramLayout, Option.bind_eq_bind, Option.bind_eq_some_iff] at h
  obtain ⟨maxTreeId, htree, maxLevel, hlevel, maxSramAddr, hmax, addrBits, haddr, levelBits,
    hlevelBits, treeBits, htreeBits, idBits, hid, hout⟩ := h
  obtain ⟨hmem, hbound⟩ := List.max?_eq_some_iff.mp hmax
  obtain ⟨s, hs, hreached⟩ := List.mem_map.mp hmem
  rw [← Option.some.inj hout]
  refine ⟨rfl, ⟨s, List.mem_range.mp hs, hreached⟩,
    fun s hs => hbound _ (List.mem_map_of_mem (List.mem_range.mpr hs)),
    (ceilLog2_eq_some haddr).2, (ceilLog2_eq_some hid).2, fun td htd => ?_, fun td htd => ?_, rfl⟩
  · have hle := (List.max?_eq_some_iff.mp htree).2 _ (List.mem_map_of_mem (f := Prod.fst) htd)
    dsimp only
    rw [(ceilLog2_eq_some htreeBits).2]
    exact lt_of_lt_of_le (Nat.lt_succ_of_le hle) (Nat.le_pow_clog (by decide) _)
  · have hle := (List.max?_eq_some_iff.mp hlevel).2 _ (List.mem_map_of_mem (f := Prod.snd) htd)
    dsimp only
    rw [(ceilLog2_eq_some hlevelBits).2]
    exact hle.trans (Nat.le_pow_clog (by decide) _)

theorem max?_isSome {l : List ℕ} (h : l ≠ []) : ∃ m, l.max? = some m := by
  rw [← Option.isSome_iff_exists, List.isSome_max?_iff]
  exact h

/-- The script succeeds on a legal list of trees. -/
theorem Legal.isSome (h : Legal SRAM_NUM treeData) (hne : treeData ≠ []) :
    ∃ out, genSramLayout SRAM_NUM treeData = some out := by
  obtain ⟨td, htd⟩ := List.exists_mem_of_ne_nil treeData hne
  have hpos := h.pos td htd
  have hN : 0 < SRAM_NUM := lt_of_lt_of_le hpos (h.le td htd)
  obtain ⟨maxTreeId, hid⟩ := max?_isSome (l := treeData.map Prod.fst) (by simpa using hne)
  obtain ⟨maxLevel, hlevel⟩ := max?_isSome (l := treeData.map Prod.snd) (by simpa using hne)
  obtain ⟨m, hm⟩ := max?_isSome
    (l := (List.range SRAM_NUM).map (genLayout SRAM_NUM treeData).startAddr) (by simp; omega)
  have hlevel0 : maxLevel ≠ 0 := by
    have hle := (List.max?_eq_some_iff.mp hlevel).2 _ (List.mem_map_of_mem (f := Prod.snd) htd)
    omega
  have hm0 : m ≠ 0 := by
    have hle := (List.max?_eq_some_iff.mp hm).2 _
      (List.mem_map_of_mem (List.mem_range.mpr (Nat.mod_lt td.1 hN)))
    -- the root of the tree takes a word
    rw [h.startAddr_eq (Nat.mod_lt _ hN)] at hle
    have htaken := taken_bank (h.le td htd) (i := 0) hpos
    rw [Nat.add_zero, Nat.pow_zero] at htaken
    have := List.single_le_sum (by simp) _
      (List.mem_map_of_mem (f := taken SRAM_NUM (td.1 % SRAM_NUM)) htd)
    omega
  simp only [genSramLayout, Option.bind_eq_bind, hid, hlevel, hm, Option.bind_some, ceilLog2,
    if_neg hm0, if_neg hlevel0, if_neg hN.ne', if_neg (Nat.succ_ne_zero maxTreeId)]
  exact ⟨_, rfl⟩

/-! ## The regions -/

/-- The regions of the levels tile the SRAMs, each tree goes around the ring of SRAMs, and
numbers and addresses fit their widths. -/
structure Tiles (SRAM_NUM : ℕ) (treeData : List TreeData) (out : Output) : Prop where
  allocated : ∀ t i, (out.layout.startAddrDict (t, i)).isSome ↔
    ∃ td ∈ treeData, td.1 = t ∧ i < td.2
  disjoint : ∀ t i t' i' s a a', out.layout.startAddrDict (t, i) = some (s, a) →
    out.layout.startAddrDict (t', i') = some (s, a') → (t, i) ≠ (t', i') →
    a + DEGREE ^ i ≤ a' ∨ a' + DEGREE ^ i' ≤ a
  tile : ∀ s < SRAM_NUM, ∀ x, x < out.layout.startAddr s ↔
    ∃ t i a, out.layout.startAddrDict (t, i) = some (s, a) ∧ a ≤ x ∧ x < a + DEGREE ^ i
  bound : ∀ t i s a, out.layout.startAddrDict (t, i) = some (s, a) →
    a + DEGREE ^ i ≤ out.maxSramAddr
  spread : ∀ t i i' s a a', out.layout.startAddrDict (t, i) = some (s, a) →
    out.layout.startAddrDict (t, i') = some (s, a') → i = i'
  next : ∀ t i s a s' a', out.layout.startAddrDict (t, i) = some (s, a) →
    out.layout.startAddrDict (t, i + 1) = some (s', a') → s' = (s + 1) % SRAM_NUM
  fits : ∀ t i s a, out.layout.startAddrDict (t, i) = some (s, a) →
    a < 2 ^ out.widths.sramAddrBits ∧ s < 2 ^ out.widths.sramIdBits

section Regions

variable (h : Legal SRAM_NUM treeData) {t t' i i' s s' a a' : ℕ}
include h

theorem Legal.allocated_iff : ((genLayout SRAM_NUM treeData).startAddrDict (t, i)).isSome ↔
    ∃ td ∈ treeData, td.1 = t ∧ i < td.2 := by
  rw [Option.isSome_iff_exists]
  constructor
  · rintro ⟨⟨s, a⟩, hdict⟩
    obtain ⟨pre, td, post, hsplit, ht, hi, -, -⟩ := h.dict_iff.mp hdict
    refine ⟨td, (sortedTreeData_perm treeData).mem_iff.mp ?_, ht, hi⟩
    rw [hsplit]
    simp
  · rintro ⟨td, htd, rfl, hi⟩
    obtain ⟨pre, post, hsplit⟩ :=
      List.append_of_mem ((sortedTreeData_perm treeData).mem_iff.mpr htd)
    exact ⟨_, h.dict_iff.mpr ⟨pre, td, post, hsplit, rfl, hi, rfl, rfl⟩⟩

/-- **No two regions overlap.** -/
theorem Legal.disjoint
    (hdict : (genLayout SRAM_NUM treeData).startAddrDict (t, i) = some (s, a))
    (hdict' : (genLayout SRAM_NUM treeData).startAddrDict (t', i') = some (s, a'))
    (hne : (t, i) ≠ (t', i')) : a + DEGREE ^ i ≤ a' ∨ a' + DEGREE ^ i' ≤ a := by
  obtain ⟨pre, td, post, hsplit, rfl, hi, hs, rfl⟩ := h.dict_iff.mp hdict
  obtain ⟨pre', td', post', hsplit', rfl, hi', hs', rfl⟩ := h.dict_iff.mp hdict'
  have htd := h.sorted_le td (by rw [hsplit]; simp)
  have htd' := h.sorted_le td' (by rw [hsplit']; simp)
  have hsize := taken_bank htd hi
  have hsize' := taken_bank htd' hi'
  rw [← hs] at hsize
  rw [← hs'] at hsize'
  rw [← hsize, ← hsize']
  refine (Packing.regions_disjoint _ (hsplit.symm.trans hsplit')).resolve_left ?_
  rintro ⟨-, rfl⟩
  -- two levels of one tree are in different SRAMs
  exact hne (congrArg _ (add_mod_left_cancel (by omega) (by omega) (hs.symm.trans hs')))

/-- **Every word of an SRAM belongs to a level.** -/
theorem Legal.tile (hs : s < SRAM_NUM) (x : ℕ) :
    x < (genLayout SRAM_NUM treeData).startAddr s ↔
      ∃ t i a, (genLayout SRAM_NUM treeData).startAddrDict (t, i) = some (s, a) ∧ a ≤ x ∧
        x < a + DEGREE ^ i := by
  constructor
  · intro hx
    rw [genLayout, place_startAddr hs _ h.sorted_le] at hx
    obtain ⟨pre, td, post, hsplit, hle, hlt⟩ := Packing.exists_mem_of_lt _ _ hx
    have hwords : taken SRAM_NUM s td ≠ 0 := by omega
    obtain ⟨i, hi, hbank⟩ := exists_level_of_taken hs hwords
    have hsize := taken_bank (h.sorted_le td (by rw [hsplit]; simp)) hi
    rw [← hbank] at hsize
    exact ⟨td.1, i, _, h.dict_iff.mpr ⟨pre, td, post, hsplit, rfl, hi, hbank, rfl⟩, hle,
      hsize ▸ hlt⟩
  · rintro ⟨t, i, a, hdict, -, hlt⟩
    have := (h.dict_bound hdict).2.2
    omega

end Regions

/-- **The script allocates disjoint regions** that tile the SRAMs, for every list of trees with
distinct identifiers, whatever their heights and the gaps between the identifiers. -/
theorem regions_tile (SRAM_NUM : ℕ) (treeData : List TreeData) (hne : treeData ≠ [])
    (h : Legal SRAM_NUM treeData) :
    ∃ out, genSramLayout SRAM_NUM treeData = some out ∧ Tiles SRAM_NUM treeData out := by
  obtain ⟨out, hout⟩ := h.isSome hne
  have hm := measured_of_some hout
  have hbound : ∀ t i s a, out.layout.startAddrDict (t, i) = some (s, a) →
      s < SRAM_NUM ∧ a + DEGREE ^ i ≤ out.maxSramAddr := by
    intro t i s a hdict
    rw [hm.layout] at hdict
    obtain ⟨hs, -, hle⟩ := h.dict_bound hdict
    rw [← hm.layout] at hle
    exact ⟨hs, hle.trans (hm.bound s hs)⟩
  refine ⟨out, hout, fun t i => ?_, fun t i t' i' s a a' hdict hdict' hne => ?_,
    fun s hs x => ?_, fun t i s a hdict => (hbound t i s a hdict).2,
    fun t i i' s a a' hdict hdict' => ?_, fun t i s a s' a' hdict hdict' => ?_,
    fun t i s a hdict => ?_⟩
  · rw [hm.layout]
    exact h.allocated_iff
  · rw [hm.layout] at hdict hdict'
    exact h.disjoint hdict hdict' hne
  · rw [hm.layout]
    exact h.tile hs x
  · rw [hm.layout] at hdict hdict'
    obtain ⟨-, -, -, -, -, -, hs, -⟩ := h.dict_iff.mp hdict
    obtain ⟨-, -, -, -, -, -, hs', -⟩ := h.dict_iff.mp hdict'
    exact add_mod_left_cancel (h.dict_bound hdict).2.1 (h.dict_bound hdict').2.1
      (hs.symm.trans hs')
  · rw [hm.layout] at hdict hdict'
    obtain ⟨-, -, -, -, -, -, hs, -⟩ := h.dict_iff.mp hdict
    obtain ⟨-, -, -, -, -, -, hs', -⟩ := h.dict_iff.mp hdict'
    rw [hs, hs', Nat.mod_add_mod, Nat.add_assoc]
  · obtain ⟨hs, hle⟩ := hbound t i s a hdict
    have hsize : 0 < DEGREE ^ i := Nat.pow_pos (by decide)
    rw [hm.sramAddrBits, hm.sramIdBits]
    exact ⟨lt_of_lt_of_le (by omega) (Nat.le_pow_clog (by decide) _),
      lt_of_lt_of_le hs (Nat.le_pow_clog (by decide) _)⟩

/-- The trees of one of the script's tests. -/
def threeTrees : List TreeData := [(1, 7), (2, 4), (0, 3)]

theorem threeTrees_legal : Legal 7 threeTrees := ⟨by decide, by decide, by decide⟩

theorem regions_tile_threeTrees :
    ∃ out, genSramLayout 7 threeTrees = some out ∧ Tiles 7 threeTrees out :=
  regions_tile 7 threeTrees (List.cons_ne_nil _ _) threeTrees_legal

/-! ## Reading the table back -/

/-- The word for a level that is not there. -/
def Widths.absent (w : Widths) : List Char := List.replicate (w.sramIdBits + w.sramAddrBits) '1'

/-- The table can be read back: every line has the digits of its two fields, the fields of a
level are its SRAM and its address, and the lines of the levels, and no others, differ from the
word for a level that is not there. -/
def Decodes (out : Output) : Prop :=
  ∀ t < 2 ^ out.widths.treeIdBits, ∀ i < 2 ^ out.widths.levelBits, ∃ line,
    out.mem[t * 2 ^ out.widths.levelBits + i]? = some line ∧ IsBits line ∧
    line.length = out.widths.sramIdBits + out.widths.sramAddrBits ∧
    (∀ s a, out.layout.startAddrDict (t, i) = some (s, a) →
      bitsValue (line.take out.widths.sramIdBits) = s ∧
      bitsValue (line.drop out.widths.sramIdBits) = a ∧ line ≠ out.widths.absent) ∧
    (out.layout.startAddrDict (t, i) = none → line = out.widths.absent)

/-- The words that the trees take in SRAM `s`. -/
def words (SRAM_NUM : ℕ) (treeData : List TreeData) (s : ℕ) : ℕ :=
  (treeData.map (taken SRAM_NUM s)).sum

/-- The word for a level that is not there is the entry of a level: the number of SRAMs is a power
of two, no SRAM has more words in it than the last one, which has a power of two, and the last
tree with a level there has its root there. -/
structure MarkerTaken (SRAM_NUM : ℕ) (treeData : List TreeData) : Prop where
  pow : ∃ k, SRAM_NUM = 2 ^ k
  full : ∃ m, words SRAM_NUM treeData (SRAM_NUM - 1) = 2 ^ m
  most : ∀ s < SRAM_NUM, words SRAM_NUM treeData s ≤ words SRAM_NUM treeData (SRAM_NUM - 1)
  last : ∃ td ∈ treeData, td.1 % SRAM_NUM = SRAM_NUM - 1 ∧
    ∀ x ∈ treeData, td.1 < x.1 → taken SRAM_NUM (SRAM_NUM - 1) x = 0

section Table

variable {out : Output} {t i s a : ℕ}

/-- A table that is written row by row. -/
theorem getElem?_flatMap_range {α : Type} {b j : ℕ} (f : ℕ → ℕ → α) (hj : j < b) (n : ℕ) :
    ∀ i < n, ((List.range n).flatMap fun i => (List.range b).map (f i))[i * b + j]? =
      some (f i j) := by
  have hlen : ∀ n, ((List.range n).flatMap fun i => (List.range b).map (f i)).length = n * b := by
    intro n
    simp [List.length_flatMap]
  induction n with
  | zero => exact fun i hi => absurd hi (Nat.not_lt_zero i)
  | succ n ih =>
    intro i hi
    rw [List.range_succ, List.flatMap_append]
    rcases Nat.lt_succ_iff_lt_or_eq.mp hi with hlt | rfl
    · have hle : (i + 1) * b ≤ n * b := Nat.mul_le_mul_right b hlt
      rw [Nat.succ_mul] at hle
      rw [List.getElem?_append_left (by rw [hlen]; omega), ih i hlt]
    · rw [List.getElem?_append_right (by rw [hlen]; omega), hlen, Nat.add_sub_cancel_left,
        List.flatMap_cons, List.flatMap_nil, List.append_nil, List.getElem?_map,
        List.getElem?_range hj]
      rfl

/-- The line of a level. -/
theorem Measured.line (hm : Measured SRAM_NUM treeData out) (ht : t < 2 ^ out.widths.treeIdBits)
    (hi : i < 2 ^ out.widths.levelBits) : out.mem[t * 2 ^ out.widths.levelBits + i]? =
      some (memLine out.layout out.widths t i) := by
  rw [hm.mem]
  exact getElem?_flatMap_range _ hi _ t ht

/-- Ones only fill a width that is not zero. -/
theorem formatBin_ones {w : ℕ} (hw : 1 ≤ w) :
    formatBin w ((1 <<< w : ℕ) - 1) = List.replicate w '1' := by
  have hpos := Nat.two_pow_pos w
  have hcast : ((1 <<< w : ℕ) : ℤ) - 1 = ((2 ^ w - 1 : ℕ) : ℤ) := by
    rw [Nat.one_shiftLeft]
    push_cast [hpos]
    rfl
  have hlen : (formatBin w ((2 ^ w - 1 : ℕ) : ℤ)).length = w :=
    (length_formatBin_iff hw (Int.natCast_nonneg _)).mpr (by push_cast [hpos]; omega)
  rw [hcast]
  refine eq_of_bitsValue (isBits_formatBin_natCast w _) ?_ (by rw [hlen, List.length_replicate]) ?_
  · exact fun c hc => Or.inr (List.eq_of_mem_replicate hc)
  · have hvalue := bitsValue_formatBin w (Int.natCast_nonneg (2 ^ w - 1))
    rw [bitsValue_replicate_one]
    exact_mod_cast hvalue

/-- The line of a level that is not there. -/
theorem memLine_none {layout : Layout} {w : Widths} (hid : 1 ≤ w.sramIdBits)
    (haddr : 1 ≤ w.sramAddrBits) (hnone : layout.startAddrDict (t, i) = none) :
    memLine layout w t i = w.absent := by
  rw [memLine, hnone]
  dsimp only
  rw [formatBin_ones hid, formatBin_ones haddr, Widths.absent, List.replicate_add]

/-- The line of a level, whose numbers fit. -/
theorem memLine_some {layout : Layout} {w : Widths} (hid : 1 ≤ w.sramIdBits)
    (haddr : 1 ≤ w.sramAddrBits) (hsome : layout.startAddrDict (t, i) = some (s, a))
    (hs : s < 2 ^ w.sramIdBits) (ha : a < 2 ^ w.sramAddrBits) :
    ∃ left right, memLine layout w t i = left ++ right ∧ IsBits left ∧ IsBits right ∧
      left.length = w.sramIdBits ∧ right.length = w.sramAddrBits ∧ bitsValue left = s ∧
      bitsValue right = a := by
  refine ⟨formatBin w.sramIdBits s, formatBin w.sramAddrBits a, by rw [memLine, hsome],
    isBits_formatBin_natCast _ _, isBits_formatBin_natCast _ _,
    (length_formatBin_iff hid (Int.natCast_nonneg s)).mpr (by exact_mod_cast hs),
    (length_formatBin_iff haddr (Int.natCast_nonneg a)).mpr (by exact_mod_cast ha), ?_, ?_⟩
  · exact_mod_cast bitsValue_formatBin w.sramIdBits (Int.natCast_nonneg s)
  · exact_mod_cast bitsValue_formatBin w.sramAddrBits (Int.natCast_nonneg a)

/-- In the largest SRAM there is as much as its addresses reach. -/
theorem Measured.words_le (hm : Measured SRAM_NUM treeData out) (h : Legal SRAM_NUM treeData)
    (hs : s < SRAM_NUM) : words SRAM_NUM treeData s ≤ out.maxSramAddr := by
  rw [words, ← h.startAddr_eq hs, ← hm.layout]
  exact hm.bound s hs

theorem Measured.exists_words (hm : Measured SRAM_NUM treeData out)
    (h : Legal SRAM_NUM treeData) :
    ∃ s < SRAM_NUM, words SRAM_NUM treeData s = out.maxSramAddr := by
  obtain ⟨s, hs, hreached⟩ := hm.reached
  rw [hm.layout, h.startAddr_eq hs] at hreached
  exact ⟨s, hs, hreached⟩

/-- The words of an SRAM before, in, and behind a tree. -/
theorem words_split {pre post : List TreeData} {td : TreeData}
    (hsplit : sortedTreeData treeData = pre ++ td :: post) (s : ℕ) :
    words SRAM_NUM treeData s = (pre.map (taken SRAM_NUM s)).sum + taken SRAM_NUM s td +
      (post.map (taken SRAM_NUM s)).sum := by
  rw [words, ← ((sortedTreeData_perm treeData).map _).sum_eq, hsplit, List.map_append,
    List.sum_append, List.map_cons, List.sum_cons, Nat.add_assoc]

/-- The trees behind a tree have greater identifiers. -/
theorem mem_post_iff (h : Legal SRAM_NUM treeData) {pre post : List TreeData} {td x : TreeData}
    (hsplit : sortedTreeData treeData = pre ++ td :: post) :
    x ∈ post ↔ x ∈ treeData ∧ td.1 < x.1 := by
  have hsorted := sortedTreeData_sorted h.distinct
  rw [hsplit, List.pairwise_append, List.pairwise_cons] at hsorted
  obtain ⟨-, ⟨hpost, -⟩, hpre⟩ := hsorted
  rw [← (sortedTreeData_perm treeData).mem_iff, hsplit, List.mem_append, List.mem_cons]
  constructor
  · exact fun hx => ⟨Or.inr (Or.inr hx), hpost x hx⟩
  · rintro ⟨hx | rfl | hx, hlt⟩
    · exact absurd (hpre x hx td List.mem_cons_self) (by omega)
    · exact absurd hlt (lt_irrefl _)
    · exact hx

/-- **A level whose fields are all ones.** -/
theorem Measured.markerTaken (hm : Measured SRAM_NUM treeData out) (h : Legal SRAM_NUM treeData)
    (hdict : out.layout.startAddrDict (t, i) =
      some (2 ^ out.widths.sramIdBits - 1, 2 ^ out.widths.sramAddrBits - 1)) :
    MarkerTaken SRAM_NUM treeData := by
  rw [hm.layout] at hdict
  obtain ⟨hs, -, hend⟩ := h.dict_bound hdict
  have hid := Nat.le_pow_clog (b := 2) (by decide) SRAM_NUM
  have haddr := Nat.le_pow_clog (b := 2) (by decide) out.maxSramAddr
  rw [← hm.sramIdBits] at hid
  rw [← hm.sramAddrBits] at haddr
  have hpos := Nat.two_pow_pos out.widths.sramIdBits
  have hpos' := Nat.two_pow_pos out.widths.sramAddrBits
  have hN : SRAM_NUM = 2 ^ out.widths.sramIdBits := by omega
  rw [← hN] at hdict hs hend
  rw [h.startAddr_eq hs] at hend
  -- the level ends where the addresses do, so it is the root, and the last thing in the SRAM
  have hle := hm.words_le h hs
  rw [words] at hle
  have hsize : 0 < DEGREE ^ i := Nat.pow_pos (by decide)
  have hroot : i = 0 := by
    by_contra hi
    have hlt := Nat.one_lt_pow hi (show 1 < DEGREE by decide)
    omega
  subst hroot
  rw [Nat.pow_zero] at hend
  have hfull : words SRAM_NUM treeData (SRAM_NUM - 1) = 2 ^ out.widths.sramAddrBits := by
    rw [words]
    omega
  obtain ⟨pre, td, post, hsplit, rfl, hi, hbank, hpre⟩ := h.dict_iff.mp hdict
  have htd : td ∈ treeData := (sortedTreeData_perm treeData).mem_iff.mp (by rw [hsplit]; simp)
  have htaken := taken_bank (h.le td htd) hi
  rw [← hbank, Nat.pow_zero] at htaken
  have hwords : words SRAM_NUM treeData (SRAM_NUM - 1) = _ := words_split hsplit (SRAM_NUM - 1)
  rw [hfull, ← hpre, htaken] at hwords
  refine ⟨⟨_, hN⟩, ⟨_, hfull⟩, fun s hs => ?_, td, htd, hbank.symm, fun x hx hlt => ?_⟩
  · have := hm.words_le h hs
    omega
  · have hzero : (post.map (taken SRAM_NUM (SRAM_NUM - 1))).sum = 0 := by omega
    exact List.sum_eq_zero_iff.mp hzero _
      (List.mem_map_of_mem ((mem_post_iff h hsplit).mpr ⟨hx, hlt⟩))

/-- **Then there is such a level.** -/
theorem Measured.exists_marker (hm : Measured SRAM_NUM treeData out)
    (h : Legal SRAM_NUM treeData) (hmarker : MarkerTaken SRAM_NUM treeData) :
    ∃ td ∈ treeData, out.layout.startAddrDict (td.1, 0) =
      some (2 ^ out.widths.sramIdBits - 1, 2 ^ out.widths.sramAddrBits - 1) := by
  obtain ⟨⟨k, hk⟩, ⟨m, hfull⟩, hmost, td, htd, hbank, hlater⟩ := hmarker
  have hN : 0 < SRAM_NUM := by
    rw [hk]
    exact Nat.two_pow_pos k
  have hmax : out.maxSramAddr = 2 ^ m := by
    obtain ⟨s, hs, hreached⟩ := hm.exists_words h
    have hle := hmost s hs
    have hge := hm.words_le h (show SRAM_NUM - 1 < SRAM_NUM by omega)
    omega
  have hid : 2 ^ out.widths.sramIdBits = SRAM_NUM := by
    rw [hm.sramIdBits, hk, Nat.clog_pow 2 k (by decide)]
  have haddr : 2 ^ out.widths.sramAddrBits = 2 ^ m := by
    rw [hm.sramAddrBits, hmax, Nat.clog_pow 2 m (by decide)]
  obtain ⟨pre, post, hsplit⟩ :=
    List.append_of_mem ((sortedTreeData_perm treeData).mem_iff.mpr htd)
  have htaken := taken_bank (h.le td htd) (h.pos td htd)
  rw [Nat.add_zero, hbank, Nat.pow_zero] at htaken
  have hpost : (post.map (taken SRAM_NUM (SRAM_NUM - 1))).sum = 0 := by
    refine List.sum_eq_zero_iff.mpr fun y hy => ?_
    obtain ⟨x, hx, rfl⟩ := List.mem_map.mp hy
    obtain ⟨hx', hlt⟩ := (mem_post_iff h hsplit).mp hx
    exact hlater x hx' hlt
  have hwords : words SRAM_NUM treeData (SRAM_NUM - 1) = _ := words_split hsplit (SRAM_NUM - 1)
  refine ⟨td, htd, ?_⟩
  rw [hm.layout, hid, haddr]
  exact h.dict_iff.mpr ⟨pre, td, post, hsplit, rfl, h.pos td htd,
    by rw [Nat.add_zero, hbank], by omega⟩

/-- With a width of zero the lines are too long. -/
theorem Measured.widths_pos (hm : Measured SRAM_NUM treeData out) (hdecodes : Decodes out) :
    1 ≤ out.widths.sramIdBits ∧ 1 ≤ out.widths.sramAddrBits := by
  obtain ⟨line, hline, -, hlen, -⟩ := hdecodes 0 (Nat.two_pow_pos _) 0 (Nat.two_pow_pos _)
  rw [hm.line (Nat.two_pow_pos _) (Nat.two_pow_pos _), Option.some.injEq] at hline
  subst hline
  have hparts : ∃ x y : ℕ, memLine out.layout out.widths 0 0 =
      formatBin out.widths.sramIdBits x ++ formatBin out.widths.sramAddrBits y := by
    rw [memLine]
    split
    · exact ⟨_, _, rfl⟩
    · refine ⟨1 <<< out.widths.sramIdBits - 1, 1 <<< out.widths.sramAddrBits - 1, ?_⟩
      rw [Nat.one_shiftLeft, Nat.one_shiftLeft, Nat.cast_sub Nat.one_le_two_pow,
        Nat.cast_sub Nat.one_le_two_pow, Nat.cast_one]
  obtain ⟨x, y, hparts⟩ := hparts
  rw [hparts, List.length_append] at hlen
  have hx := one_le_length_formatBin out.widths.sramIdBits x
  have hy := one_le_length_formatBin out.widths.sramAddrBits y
  have hx' := le_length_formatBin out.widths.sramIdBits x
  have hy' := le_length_formatBin out.widths.sramAddrBits y
  omega

/-- With a level in the place of the marker the table cannot be read. -/
theorem Measured.not_decodes (hm : Measured SRAM_NUM treeData out) (h : Legal SRAM_NUM treeData)
    (hmarker : MarkerTaken SRAM_NUM treeData) : ¬Decodes out := by
  intro hdecodes
  obtain ⟨td, htd, hdict⟩ := hm.exists_marker h hmarker
  obtain ⟨line, -, hbits, hlen, hsome, -⟩ :=
    hdecodes td.1 (hm.treeId td htd) 0 (Nat.two_pow_pos _)
  obtain ⟨hleft, hright, hne⟩ := hsome _ _ hdict
  have hbits' : IsBits (line.take out.widths.sramIdBits ++ line.drop out.widths.sramIdBits) := by
    rw [List.take_append_drop]
    exact hbits
  rw [isBits_append] at hbits'
  have hones : ∀ w, IsBits (List.replicate w '1') :=
    fun w c hc => Or.inr (List.eq_of_mem_replicate hc)
  refine hne ?_
  rw [← List.take_append_drop out.widths.sramIdBits line, Widths.absent, List.replicate_add]
  congr 1
  · refine eq_of_bitsValue hbits'.1 (hones _) ?_ (by rw [hleft, bitsValue_replicate_one])
    rw [List.length_take, List.length_replicate]
    omega
  · refine eq_of_bitsValue hbits'.2 (hones _) ?_ (by rw [hright, bitsValue_replicate_one])
    rw [List.length_drop, List.length_replicate]
    omega

/-- Without, it can. -/
theorem Measured.decodes (hm : Measured SRAM_NUM treeData out) (h : Legal SRAM_NUM treeData)
    (hid : 1 ≤ out.widths.sramIdBits) (haddr : 1 ≤ out.widths.sramAddrBits)
    (hmarker : ¬MarkerTaken SRAM_NUM treeData) : Decodes out := by
  intro t ht i hi
  refine ⟨_, hm.line ht hi, ?_⟩
  cases hdict : out.layout.startAddrDict (t, i) with
  | none =>
    rw [memLine_none hid haddr hdict]
    exact ⟨fun c hc => Or.inr (List.eq_of_mem_replicate hc), List.length_replicate,
      fun s a hsome => absurd hsome (by simp), fun _ => rfl⟩
  | some entry =>
    obtain ⟨s, a⟩ := entry
    have hdict' := hdict
    rw [hm.layout] at hdict'
    obtain ⟨hs, -, hend⟩ := h.dict_bound hdict'
    rw [h.startAddr_eq hs] at hend
    have hle := hm.words_le h hs
    rw [words] at hle
    have hsize : 0 < DEGREE ^ i := Nat.pow_pos (by decide)
    have hs' := hs.trans_le (Nat.le_pow_clog (b := 2) (by decide) SRAM_NUM)
    have ha' := (show a < out.maxSramAddr by omega).trans_le
      (Nat.le_pow_clog (b := 2) (by decide) out.maxSramAddr)
    rw [← hm.sramIdBits] at hs'
    rw [← hm.sramAddrBits] at ha'
    obtain ⟨left, right, hline, hleft, hright, hllen, hrlen, hlvalue, hrvalue⟩ :=
      memLine_some hid haddr hdict hs' ha'
    rw [hline]
    refine ⟨isBits_append.mpr ⟨hleft, hright⟩, by rw [List.length_append, hllen, hrlen],
      fun s' a' hsome => ?_, fun hnone => absurd hnone (by simp)⟩
    rw [Option.some.injEq, Prod.mk.injEq] at hsome
    obtain ⟨rfl, rfl⟩ := hsome
    rw [← hllen, List.take_left, List.drop_left]
    refine ⟨hlvalue, hrvalue, fun hones => hmarker (hm.markerTaken h (t := t) (i := i) ?_)⟩
    rw [Widths.absent, List.replicate_add] at hones
    obtain ⟨hl, hr⟩ := List.append_inj hones (by rw [hllen, List.length_replicate])
    rw [hdict, ← hlvalue, ← hrvalue, hl, hr, bitsValue_replicate_one, bitsValue_replicate_one]

end Table

/-- **When the table can be read back**: with at least two SRAMs and two words in one of them,
unless a level is where the marker is. -/
theorem table_decodes_iff (SRAM_NUM : ℕ) (treeData : List TreeData)
    (h : Legal SRAM_NUM treeData) (out : Output)
    (hout : genSramLayout SRAM_NUM treeData = some out) :
    Decodes out ↔ 2 ≤ SRAM_NUM ∧ (∃ s < SRAM_NUM, 2 ≤ words SRAM_NUM treeData s) ∧
      ¬MarkerTaken SRAM_NUM treeData := by
  have hm := measured_of_some hout
  have hpos : 1 ≤ out.widths.sramIdBits ∧ 1 ≤ out.widths.sramAddrBits ↔
      2 ≤ SRAM_NUM ∧ ∃ s < SRAM_NUM, 2 ≤ words SRAM_NUM treeData s := by
    rw [hm.sramIdBits, hm.sramAddrBits, Nat.one_le_iff_ne_zero, Nat.one_le_iff_ne_zero,
      ← Nat.pos_iff_ne_zero, ← Nat.pos_iff_ne_zero]
    refine and_congr ⟨fun h => ?_, Nat.clog_pos (by decide)⟩
      ⟨fun h' => ?_, fun ⟨s, hs, hle⟩ => Nat.clog_pos (by decide) (hle.trans (hm.words_le h hs))⟩
    · by_contra hlt
      rw [Nat.clog_of_right_le_one (by omega)] at h
      exact lt_irrefl 0 h
    · obtain ⟨s, hs, hmax⟩ := hm.exists_words h
      refine ⟨s, hs, ?_⟩
      by_contra hlt
      rw [Nat.clog_of_right_le_one (by omega)] at h'
      exact lt_irrefl 0 h'
  rw [← and_assoc, ← hpos]
  constructor
  · exact fun hdecodes => ⟨hm.widths_pos hdecodes, fun hmarker =>
      hm.not_decodes h hmarker hdecodes⟩
  · exact fun ⟨⟨hid, haddr⟩, hmarker⟩ => hm.decodes h hid haddr hmarker

/-- The table of the test can be read back if and only if the condition holds of it, and it
does: there are seven SRAMs. -/
theorem table_decodes_iff_threeTrees :
    ∃ out, genSramLayout 7 threeTrees = some out ∧ Decodes out := by
  obtain ⟨out, hout⟩ := threeTrees_legal.isSome (List.cons_ne_nil _ _)
  refine ⟨out, hout, (table_decodes_iff 7 threeTrees threeTrees_legal out hout).mpr
    ⟨by decide, ⟨0, by decide, by decide⟩, fun hmarker => ?_⟩⟩
  obtain ⟨k, hk⟩ := hmarker.pow
  have hodd : k = 0 := by
    by_contra hne
    have : 2 ∣ 7 := hk ▸ dvd_pow_self 2 hne
    omega
  rw [hodd] at hk
  exact absurd hk (by decide)

/-- Two trees of one level in the last of two SRAMs. -/
def lastAddress : List TreeData := [(1, 1), (3, 1)]

/-- The only level of tree 3 is at the last address of the last SRAM, and its line is the marker.
And one tree of one level in one SRAM gives lines that are two digits too long. -/
theorem table_decodes_fails :
    (∃ out, genSramLayout 2 lastAddress = some out ∧
      out.layout.startAddrDict (3, 0) = some (1, 1) ∧ out.widths.sramIdBits = 1 ∧
      out.widths.sramAddrBits = 1 ∧ ¬Decodes out) ∧
    ∃ out, genSramLayout 1 [(0, 1)] = some out ∧ ¬Decodes out := by
  have hlegal : Legal 2 lastAddress := ⟨by decide, by decide, by decide⟩
  have hlegal' : Legal 1 [(0, 1)] := ⟨by decide, by decide, by decide⟩
  obtain ⟨out, hout⟩ := hlegal.isSome (List.cons_ne_nil _ _)
  obtain ⟨out', hout'⟩ := hlegal'.isSome (List.cons_ne_nil _ _)
  have hm := measured_of_some hout
  have hm' := measured_of_some hout'
  have hmarker : MarkerTaken 2 lastAddress :=
    ⟨⟨1, rfl⟩, ⟨1, by decide⟩, by decide, (3, 1), by decide, by decide, by decide⟩
  have hmax : out.maxSramAddr = 2 := by
    obtain ⟨s, hs, hwords⟩ := hm.exists_words hlegal
    have hle := hm.words_le hlegal (s := 2 - 1) (by decide)
    have hmost := hmarker.most s hs
    have htwo : words 2 lastAddress (2 - 1) = 2 := by decide
    omega
  have hid : out.widths.sramIdBits = 1 := by
    rw [hm.sramIdBits]
    exact Nat.clog_pow 2 1 (by decide)
  have haddr : out.widths.sramAddrBits = 1 := by
    rw [hm.sramAddrBits, hmax]
    exact Nat.clog_pow 2 1 (by decide)
  refine ⟨⟨out, hout, ?_, hid, haddr, hm.not_decodes hlegal hmarker⟩, out', hout',
    fun hdecodes => ?_⟩
  · have hsorted : sortedTreeData lastAddress = [(1, 1)] ++ (3, 1) :: [] :=
      (sortedTreeData_perm lastAddress).eq_of_pairwise
        (fun a b _ _ hab hba => absurd hab (by omega)) (sortedTreeData_sorted hlegal.distinct)
        (by decide)
    rw [hm.layout]
    exact hlegal.dict_iff.mpr ⟨_, _, _, hsorted, rfl, by decide, rfl, by decide⟩
  · have hpos := (hm'.widths_pos hdecodes).1
    rw [hm'.sramIdBits, Nat.clog_of_right_le_one le_rfl] at hpos
    exact absurd hpos (by decide)

end VPifo.GenSramLayout
