import VPifo.Ns3.Scheduling

/-!
# The scheduling nodes of `vPIFO` keep account

The nodes are asked for a rank where a packet is taken, and paid where it leaves.  In between the
pipeline does what it likes with its token.  So what a node knows is an account of the packets
that were taken and of those that were returned, and `Paid` says which: the virtual time of a
tenant type is the number of bytes that were returned for it, the last rank of a tenant follows
the bytes that were taken for it, and a flow has as many packets less as were returned of it.

`Paid.accept` and `Paid.pay` are the two steps.  With the ranks that the nodes give,
`vPIFO` does what a `Disc` does (`Paid.doEnqueue`), so that all that is known of that one holds of
it.  `vPIFO_account` is the result for any run.
-/

namespace VPifo

namespace Ns3

open Reference Simulator TokenNet

/-! ## The nodes of `vPIFO` -/

/-- The total size of the packets of a list with `p`. -/
def total (size : Item → ℕ) (p : Item → Bool) (l : List Item) : ℤ :=
  ((l.filter p).map fun x => (size x : ℤ)).sum

/-- The packets of a tenant. -/
def ofTenant (tenant : ℕ) (x : Item) : Bool := decide (x.tenant = tenant)

/-- The packets of the tenants of the type of this one. -/
def ofType (tenant : ℕ) (x : Item) : Bool := decide (typeId x.tenant = typeId tenant)

/-- The packets of a flow of a tenant. -/
def ofFlow (flowMap : FlowMap) (tenant : ℕ) (flow : ℤ) (x : Item) : Bool :=
  decide (x.tenant = tenant ∧ (flowMap x.label).getD 0 = flow)

/-- `num` of the node of the type of a tenant. -/
def weight (tenant : ℕ) : ℤ :=
  if isHadoop tenant then 10 - (tenant / 10 : ℕ) - 1 else (tenant / 10 : ℕ) + 1

section Total

variable {size : Item → ℕ} {p : Item → Bool}

theorem total_append (l : List Item) (x : Item) :
    total size p (l ++ [x]) = total size p l + if p x then (size x : ℤ) else 0 := by
  rw [total, total, List.filter_append, List.map_append, List.sum_append]
  congr 1
  split
  · next hx => rw [List.filter_cons_of_pos hx]; simp
  · next hx => rw [List.filter_cons_of_neg hx]; simp

theorem total_nonneg (l : List Item) : 0 ≤ total size p l := by
  refine List.sum_nonneg fun y hy => ?_
  obtain ⟨x, -, rfl⟩ := List.mem_map.mp hy
  exact Int.natCast_nonneg _

end Total

section Flows

variable {flowMap : FlowMap} {t : ℕ} {item : Item} {returned : List Item}

/-- A packet of another tenant leaves the flows as they are. -/
theorem flows_other (sizes : ℤ → ℤ) (hne : item.tenant ≠ t) :
    (fun f => sizes f - ((returned ++ [item]).countP (ofFlow flowMap t f) : ℤ)) =
      fun f => sizes f - (returned.countP (ofFlow flowMap t f) : ℤ) := by
  funext f
  have hno : ofFlow flowMap t f item = false := decide_eq_false fun heq => hne heq.1
  rw [List.countP_append, List.countP_singleton, hno, if_neg (by simp), add_zero]

/-- A packet of the tenant makes its flow smaller by one. -/
theorem flows_own (sizes : ℤ → ℤ) (ht : item.tenant = t) {token : ℤ}
    (htoken : token = (flowMap item.label).getD 0) :
    (Scheduling.pFabric fun f =>
      sizes f - (returned.countP (ofFlow flowMap t f) : ℤ)).dequeue token =
      .pFabric fun f => sizes f - ((returned ++ [item]).countP (ofFlow flowMap t f) : ℤ) := by
  refine congrArg Scheduling.pFabric (funext fun f => ?_)
  rw [List.countP_append, List.countP_singleton, Nat.cast_add]
  by_cases hf : f = token
  · have hmine : ofFlow flowMap t f item = true := decide_eq_true ⟨ht, by rw [hf, htoken]⟩
    rw [hmine, if_pos rfl, hf, Function.update_self, Nat.cast_one]
    ring
  · have hno : ofFlow flowMap t f item = false :=
      decide_eq_false fun heq => hf (htoken.trans heq.2).symm
    rw [Function.update_of_ne hf, hno, if_neg (by simp), Nat.cast_zero, add_zero]

/-- A packet that bypasses the scheduler is of none of the tenants. -/
theorem ne_of_bypath (hby : item.tenant = BYPATH) (ht : t < 100) : item.tenant ≠ t := by
  rintro rfl
  exact ne_BYPATH_of_lt ht hby

theorem ne_of_isHadoop (hh : isHadoop item.tenant = true) (hweb : isHadoop t = false) :
    item.tenant ≠ t := by
  rintro rfl
  rw [hh] at hweb
  exact absurd hweb (by simp)

end Flows

theorem typeId_lt {t : ℕ} (ht : t < 100) : typeId t < 30 := by
  have := Bool.toNat_lt (isHadoop t)
  rw [typeId]
  omega

theorem vPIFOPushes_eq (t : ℕ) (flowId rk1 rk2 rk3 rk4 : ℤ) :
    vPIFOPushes t flowId rk1 rk2 rk3 rk4 =
      [⟨ROOT, rk1, (t / 10 : ℕ)⟩, ⟨t / 10, rk2, typeId t⟩, ⟨typeId t, rk3, (100 + t : ℕ)⟩] ++
        if isHadoop t then [] else [⟨100 + t, rk4, flowId⟩] := rfl

theorem weight_nonneg {t : ℕ} (ht : t < 100) : 0 ≤ weight t := by
  rw [weight]
  split <;> omega

/-- What the nodes of `vPIFO` know of the packets that were taken and returned.  The node of a
type counts the bytes that were returned for it.  A tenant's last rank there is at least `num`
for each byte that was taken for it, and it exceeds that by no more than what the type has been
served.  The node of a tenant has for each flow what is left of its size. -/
structure Paid (size : Item → ℕ) (s₀ s : Scheduled) (accepted returned : List Item) : Prop where
  flowMap : s.flowMap = s₀.flowMap
  root : s.schTree ROOT = some .SP
  group : ∀ g < 10, s.schTree g = some .SP
  type : ∀ t < 100, ∃ last,
    s.schTree (typeId t) = some (.WFQ (weight t) (total size (ofType t) returned) last) ∧
    weight t * total size (ofTenant t) accepted ≤ last (100 + t) ∧
    last (100 + t) ≤
      total size (ofType t) returned + weight t * total size (ofTenant t) accepted
  flow : ∀ t < 100, isHadoop t = false → s.schTree (100 + t) = some (.pFabric fun f =>
    s₀.flowSize (100 + t) f - (returned.countP (ofFlow s₀.flowMap t f) : ℤ))

section Nodes

variable {size : Item → ℕ} {s₀ s : Scheduled} {accepted returned : List Item} {item : Item}
  {id : ℕ} {node : Scheduling}

theorem rank_eq (h : s.schTree id = some node) (x1 x2 : ℤ) :
    s.rank id x1 x2 = some ((node.rankComputation x1 x2).1, { s with
      schTree := Function.update s.schTree id (some (node.rankComputation x1 x2).2) }) := by
  rw [Scheduled.rank, h, Option.map_some]

theorem rank_SP (h : s.schTree id = some .SP) (x1 x2 : ℤ) :
    s.rank id x1 x2 = some (if x1 < 10 then x1 else x1 % 10, s) := by
  rw [rank_eq h, Scheduling.rankComputation, ← h, Function.update_eq_self]

theorem rank_pFabric {g : ℤ → ℤ} (h : s.schTree id = some (.pFabric g)) (x1 x2 : ℤ) :
    s.rank id x1 x2 = some (g x1, s) := by
  rw [rank_eq h, Scheduling.rankComputation, ← h, Function.update_eq_self]

theorem dequeueNode_eq (h : s.schTree id = some node) (x1 : ℤ) :
    s.dequeueNode id x1 = some
      { s with schTree := Function.update s.schTree id (some (node.dequeue x1)) } := by
  rw [Scheduled.dequeueNode, h, Option.map_some]

theorem VPIFO.initTree_type {t : ℕ} (ht : t < 100) :
    initTree (typeId t) = some (.WFQ (weight t) 0 fun _ => 0) := by
  have hlt := typeId_lt ht
  have hroot : typeId t ≠ ROOT := ne_ROOT_of_lt (by omega)
  have hle : ¬typeId t < 10 := by rw [typeId]; omega
  rw [initTree, if_neg hroot, if_neg hle, if_pos hlt]
  cases hh : isHadoop t with
  | true =>
    have hid : typeId t = 10 + t / 10 * 2 + 1 := by rw [typeId, hh]; rfl
    have hodd : ¬typeId t % 2 = 0 := by omega
    have hi : (typeId t - 10) / 2 = t / 10 := by omega
    rw [if_neg hodd, hi, weight, hh, if_pos rfl]
  | false =>
    have hid : typeId t = 10 + t / 10 * 2 := by rw [typeId, hh]; rfl
    have heven : typeId t % 2 = 0 := by omega
    have hi : (typeId t - 10) / 2 = t / 10 := by omega
    rw [if_pos heven, hi, weight, hh, if_neg (by simp)]

theorem VPIFO.prepared_init : Prepared 100 initTree init := by
  refine ⟨rfl, fun _ _ h => absurd h (by simp [init]), le_rfl, fun t ht hweb => ?_,
    fun _ _ => rfl⟩
  refine schTree_flowSize (g := fun _ => 0) ?_
  have hroot : 100 + t ≠ ROOT := ne_ROOT_of_lt (by omega)
  have hsub : 100 + t - 100 = t := by omega
  show initTree (100 + t) = _
  rw [initTree, if_neg hroot, if_neg (by omega), if_neg (by omega),
    if_pos ⟨by omega, by omega, by rw [hsub]; exact hweb⟩]

/-- Nothing has been taken or returned. -/
theorem Prepared.paid (h : Prepared 100 VPIFO.initTree s) : Paid size s s [] [] := by
  have hother : ∀ id, id < 100 ∨ id = ROOT → s.schTree id = VPIFO.initTree id := by
    intro id hid
    refine h.others id fun t ht _ heq => ?_
    rcases hid with hlt | hroot
    · omega
    · exact ne_ROOT_of_lt (by omega) (heq.symm.trans hroot)
  refine ⟨rfl, hother _ (Or.inr rfl), fun g hg => ?_, fun t ht => ⟨fun _ => 0, ?_, ?_, ?_⟩,
    fun t ht hweb => ?_⟩
  · rw [hother _ (Or.inl (by omega)), VPIFO.initTree, if_neg (ne_ROOT_of_lt (by omega)), if_pos hg]
  · rw [hother _ (Or.inl ((typeId_lt ht).trans (by decide))), VPIFO.initTree_type ht]
    rfl
  · exact (mul_zero _).le
  · rw [show total size (ofTenant t) [] = 0 from rfl, mul_zero, add_zero]
    exact le_rfl
  · rw [h.tenants t ht hweb]
    simp only [List.countP_nil, Nat.cast_zero, sub_zero]

/-- The ranks of a packet. -/
structure Ranks where
  rk1 : ℤ
  rk2 : ℤ
  rk3 : ℤ
  rk4 : ℤ

/-- The ranks that `vPIFO` gives a packet: the number of its group, the class of its type, the
clock of its tenant, and what is left of its flow. -/
def ranksOf (size : Item → ℕ) (s₀ : Scheduled) (returned : List Item) (last : ℤ → ℤ)
    (item : Item) : Ranks where
  rk1 := (item.tenant / 10 : ℕ)
  rk2 := (typeId item.tenant : ℤ) % 10
  rk3 := max (total size (ofType item.tenant) returned) (last (100 + item.tenant)) +
    size item * weight item.tenant
  rk4 := s₀.flowSize (100 + item.tenant) ((s₀.flowMap item.label).getD 0) -
    (returned.countP (ofFlow s₀.flowMap item.tenant ((s₀.flowMap item.label).getD 0)) : ℤ)

/-- The state after the push of `item` to the root. -/
def rootPushed (s : Scheduled) (item : Item) : Scheduled :=
  s.grow.addPush ROOT (item.tenant / 10 : ℕ) (item.tenant / 10 : ℕ)

/-- The state after the push of `item` to its group. -/
def groupPushed (s : Scheduled) (item : Item) : Scheduled :=
  (rootPushed s item).addPush (item.tenant / 10) ((typeId item.tenant : ℤ) % 10)
    (typeId item.tenant)

/-- **`DoEnqueue` asks its nodes for the ranks.**  To the queue disc it does what it does with
these ranks, and the clock of the tenant goes on. -/
theorem Paid.doEnqueue (h : Paid size s₀ s accepted returned) (ht : item.tenant < 100)
    (hsize : s.disc.rootSize < SIZE) {last : ℤ → ℤ}
    (hlast : s.schTree (typeId item.tenant) = some
      (.WFQ (weight item.tenant) (total size (ofType item.tenant) returned) last)) {r : Ranks}
    (hr : r = ranksOf size s₀ returned last item) :
    VPIFO.doEnqueue size item s = some (true,
      { s with
        disc := (s.disc.doEnqueue s.flowMap item r.rk1 r.rk2 r.rk3 r.rk4).2
        schTree := Function.update s.schTree (typeId item.tenant) (some
          (.WFQ (weight item.tenant) (total size (ofType item.tenant) returned)
            (Function.update last (100 + item.tenant) r.rk3))) }) := by
  have hby := ne_BYPATH_of_lt ht
  have hgroup : item.tenant / 10 < 10 := by omega
  have htype : ¬(typeId item.tenant : ℤ) < 10 := by
    rw [typeId]
    omega
  have hne : 100 + item.tenant ≠ typeId item.tenant := by
    have := typeId_lt ht
    omega
  have h₁ := rank_SP (s := s.grow) h.root (item.tenant / 10 : ℕ) 0
  have h₂ := rank_SP (s := rootPushed s item) (h.group _ hgroup) (typeId item.tenant) 0
  obtain ⟨s₃, hs₃, h₃⟩ : ∃ s₃ : Scheduled, s₃ = { groupPushed s item with
      schTree := Function.update s.schTree (typeId item.tenant) (some
        (.WFQ (weight item.tenant) (total size (ofType item.tenant) returned)
          (Function.update last (100 + item.tenant) r.rk3))) } ∧
      (groupPushed s item).rank (typeId item.tenant) (100 + item.tenant : ℕ) (size item) =
        some (r.rk3, s₃) := by
    subst hr
    exact ⟨_, rfl, rank_eq (s := groupPushed s item) hlast _ _⟩
  rw [if_pos (by omega)] at h₁
  rw [if_neg htype, rootPushed] at h₂
  rw [groupPushed, rootPushed] at h₃
  rw [doEnqueue_eq hby hsize, VPIFO.doEnqueue, if_neg hby, if_neg (not_le.mpr hsize)]
  dsimp only
  rw [h₁, Option.bind_some, h₂, Option.bind_some, h₃, Option.bind_some, vPIFOPushes_eq, realToken]
  have hr₁ : r.rk1 = (item.tenant / 10 : ℕ) := by rw [hr]; rfl
  have hr₂ : r.rk2 = (typeId item.tenant : ℤ) % 10 := by rw [hr]; rfl
  rw [hr₁, hr₂]
  cases hh : isHadoop item.tenant with
  | true =>
    rw [if_pos rfl, if_pos rfl, if_pos rfl, hs₃]
    rfl
  | false =>
    have hr₄ : r.rk4 = s₀.flowSize (100 + item.tenant) ((s.flowMap item.label).getD 0) -
        (returned.countP (ofFlow s₀.flowMap item.tenant ((s.flowMap item.label).getD 0)) : ℤ) := by
      rw [hr, h.flowMap]
      rfl
    have hflow : s₃.schTree (100 + item.tenant) = some (.pFabric fun f =>
        s₀.flowSize (100 + item.tenant) f -
          (returned.countP (ofFlow s₀.flowMap item.tenant f) : ℤ)) := by
      rw [hs₃]
      exact (Function.update_of_ne hne _ _).trans (h.flow _ ht hh)
    have h₄ := rank_pFabric (s := s₃.addPush (typeId item.tenant) r.rk3 (100 + item.tenant : ℕ))
      hflow ((s.flowMap item.label).getD 0) 0
    have hmap : (s₃.addPush (typeId item.tenant) r.rk3 (100 + item.tenant : ℕ)).flowMap =
        s.flowMap := by
      rw [hs₃]
      rfl
    dsimp only at h₄ ⊢
    rw [if_neg (by simp), if_neg (by simp), if_neg (by simp), hmap, h₄, ← hr₄, Option.map_some, hs₃]
    rfl

/-- The account is about the nodes and the flows only. -/
theorem Paid.congr (h : Paid size s₀ s accepted returned) {s' : Scheduled}
    (hmap : s'.flowMap = s.flowMap) (htree : s'.schTree = s.schTree) :
    Paid size s₀ s' accepted returned := by
  obtain ⟨hflows, hroot, hgroup, htype, hflow⟩ := h
  rw [← htree] at hroot
  simp only [← htree] at hgroup htype hflow
  exact ⟨hmap.trans hflows, hroot, hgroup, htype, hflow⟩

/-- **The clock of the tenant goes on** when one of its packets is taken. -/
theorem Paid.accept (h : Paid size s₀ s accepted returned) (ht : item.tenant < 100)
    {last : ℤ → ℤ} (hlast : s.schTree (typeId item.tenant) = some
      (.WFQ (weight item.tenant) (total size (ofType item.tenant) returned) last)) {s' : Scheduled}
    (hmap : s'.flowMap = s.flowMap) (htree : s'.schTree = Function.update s.schTree
      (typeId item.tenant) (some (.WFQ (weight item.tenant)
        (total size (ofType item.tenant) returned) (Function.update last (100 + item.tenant)
          (ranksOf size s₀ returned last item).rk3)))) :
    Paid size s₀ s' (accepted ++ [item]) returned := by
  have hlt := typeId_lt ht
  have hge : 10 ≤ typeId item.tenant := by rw [typeId]; omega
  refine ⟨hmap.trans h.flowMap, ?_, fun g hg => ?_, fun t ht' => ?_, fun t ht' hweb => ?_⟩
  · rw [htree, Function.update_of_ne (ne_ROOT_of_lt (by omega)).symm]
    exact h.root
  · rw [htree, Function.update_of_ne (by omega)]
    exact h.group g hg
  · obtain ⟨lastT, hnode, hlow, hhigh⟩ := h.type t ht'
    rw [total_append, htree]
    by_cases htt : t = item.tenant
    · -- the tenant itself: its last rank is the one of this packet
      subst htt
      rw [hlast, Option.some.injEq, Scheduling.WFQ.injEq] at hnode
      obtain ⟨-, -, rfl⟩ := hnode
      refine ⟨_, Function.update_self .., ?_, ?_⟩
      · rw [Function.update_self, ofTenant, decide_eq_true rfl, if_pos rfl, ranksOf, mul_add,
          mul_comm (size item : ℤ)]
        exact add_le_add_left (hlow.trans (le_max_right _ _)) _
      · rw [Function.update_self, ofTenant, decide_eq_true rfl, if_pos rfl, ranksOf, mul_add,
          mul_comm (size item : ℤ), ← add_assoc]
        refine add_le_add_left (max_le ?_ hhigh) _
        exact le_add_of_nonneg_right (mul_nonneg (weight_nonneg ht) (total_nonneg _))
    · have hno : ofTenant t item = false := decide_eq_false fun heq => htt heq.symm
      rw [hno, if_neg (by simp), add_zero]
      by_cases hty : typeId t = typeId item.tenant
      · -- another tenant of the type keeps its last rank
        rw [hty] at hnode ⊢
        rw [hlast, Option.some.injEq, Scheduling.WFQ.injEq] at hnode
        obtain ⟨hw, hv, rfl⟩ := hnode
        have hne : (100 + t : ℤ) ≠ 100 + item.tenant := by omega
        rw [hw, hv]
        exact ⟨_, Function.update_self .., by rwa [Function.update_of_ne hne],
          by rwa [Function.update_of_ne hne]⟩
      · rw [Function.update_of_ne hty]
        exact ⟨lastT, hnode, hlow, hhigh⟩
  · rw [htree, Function.update_of_ne (by omega)]
    exact h.flow t ht' hweb

/-- A packet that bypasses the scheduler is nobody's. -/
theorem Paid.bypath (h : Paid size s₀ s accepted returned) (hby : item.tenant = BYPATH) :
    Paid size s₀ s (accepted ++ [item]) returned ∧
      Paid size s₀ s accepted (returned ++ [item]) := by
  have htenant : ∀ t < 100, ofTenant t item = false := fun t ht =>
    decide_eq_false (ne_of_bypath hby ht)
  have htype : ∀ t < 100, ofType t item = false := fun t ht =>
    decide_eq_false fun heq => absurd (typeId_lt ht) (by rw [← heq, hby]; decide)
  refine ⟨⟨h.flowMap, h.root, h.group, fun t ht => ?_, h.flow⟩,
    ⟨h.flowMap, h.root, h.group, fun t ht => ?_, fun t ht hweb => ?_⟩⟩
  · rw [total_append, htenant t ht, if_neg (by simp), add_zero]
    exact h.type t ht
  · rw [total_append, htype t ht, if_neg (by simp), add_zero]
    exact h.type t ht
  · rw [h.flow t ht hweb, flows_other _ (ne_of_bypath hby ht)]

/-- **The nodes are told that a packet has left**, and none of them is missing. -/
theorem Paid.pay (h : Paid size s₀ s accepted returned) (ht : item.tenant < 100) {token : ℤ}
    (htoken : isHadoop item.tenant = false → token = (s₀.flowMap item.label).getD 0) :
    ∃ s', VPIFO.pay size item token s = some s' ∧ s'.disc = s.disc ∧
      Paid size s₀ s' accepted (returned ++ [item]) := by
  have hlt := typeId_lt ht
  have hge : 10 ≤ typeId item.tenant := by rw [typeId]; omega
  obtain ⟨last, hlast, -, -⟩ := h.type _ ht
  -- the node of the type counts the bytes
  have htype : ∀ tree : ℕ → Option Scheduling, (∀ t < 100, tree (typeId t) =
      Function.update s.schTree (typeId item.tenant) (some
        (.WFQ (weight item.tenant) (total size (ofType item.tenant) returned + size item) last))
        (typeId t)) → ∀ t < 100, ∃ last,
      tree (typeId t) =
        some (.WFQ (weight t) (total size (ofType t) (returned ++ [item])) last) ∧
      weight t * total size (ofTenant t) accepted ≤ last (100 + t) ∧
      last (100 + t) ≤ total size (ofType t) (returned ++ [item]) +
        weight t * total size (ofTenant t) accepted := by
    intro tree htree t ht'
    obtain ⟨lastT, hnode, hlow, hhigh⟩ := h.type t ht'
    rw [htree t ht', total_append]
    by_cases hty : typeId t = typeId item.tenant
    · rw [hty, Function.update_self]
      have hof : ofType t = ofType item.tenant := by
        funext x
        rw [ofType, ofType, hty]
      rw [hty, hlast, Option.some.injEq, Scheduling.WFQ.injEq] at hnode
      obtain ⟨hw, -, rfl⟩ := hnode
      have hmine : ofType t item = true := decide_eq_true hty.symm
      rw [hmine, if_pos rfl, hw, hof]
      rw [hof] at hhigh
      exact ⟨last, rfl, hlow, hhigh.trans (by omega)⟩
    · have hno : ofType t item = false := decide_eq_false fun heq => hty heq.symm
      rw [Function.update_of_ne hty, hno, if_neg (by simp), add_zero]
      exact ⟨lastT, hnode, hlow, hhigh⟩
  rw [VPIFO.pay, dequeueNode_eq hlast, Option.bind_some]
  cases hh : isHadoop item.tenant with
  | true =>
    rw [if_pos rfl]
    refine ⟨_, rfl, rfl, h.flowMap, ?_, fun g hg => ?_, htype _ fun _ _ => rfl,
      fun t ht' hweb => ?_⟩
    · exact (Function.update_of_ne (ne_ROOT_of_lt (by omega)).symm _ _).trans h.root
    · exact (Function.update_of_ne (by omega) _ _).trans (h.group g hg)
    · rw [flows_other _ (ne_of_isHadoop hh hweb)]
      exact (Function.update_of_ne (by omega) _ _).trans (h.flow t ht' hweb)
  | false =>
    have hne : item.tenant + 100 ≠ typeId item.tenant := by omega
    obtain ⟨s₁, hs₁⟩ : ∃ s₁ : Scheduled, s₁ = { s with
        schTree := Function.update s.schTree (typeId item.tenant)
          (some (Scheduling.dequeue (size item)
            (.WFQ (weight item.tenant) (total size (ofType item.tenant) returned) last))) } :=
      ⟨_, rfl⟩
    have hother {k : ℕ} (hk : k ≠ typeId item.tenant) : s₁.schTree k = s.schTree k := by
      rw [hs₁]
      exact Function.update_of_ne hk _ _
    have hnode : s₁.schTree (item.tenant + 100) = some (.pFabric fun f =>
        s₀.flowSize (100 + item.tenant) f -
          (returned.countP (ofFlow s₀.flowMap item.tenant f) : ℤ)) := by
      rw [hother hne, add_comm]
      exact h.flow _ ht hh
    rw [if_neg (by simp), ← hs₁, dequeueNode_eq hnode]
    have hdisc : s₁.disc = s.disc := by rw [hs₁]
    have hmap : s₁.flowMap = s.flowMap := by rw [hs₁]
    refine ⟨_, rfl, hdisc, hmap.trans h.flowMap, ?_, fun g hg => ?_, htype _ fun t ht' => ?_,
      fun t ht' hweb => ?_⟩
    · refine (Function.update_of_ne (ne_ROOT_of_lt (by omega)).symm _ _).trans ?_
      exact (hother (ne_ROOT_of_lt (by omega)).symm).trans h.root
    · refine (Function.update_of_ne (by omega) _ _).trans ?_
      exact (hother (by omega)).trans (h.group g hg)
    · have := typeId_lt ht'
      refine (Function.update_of_ne (by omega) _ _).trans ?_
      rw [hs₁]
      rfl
    · by_cases htt : item.tenant = t
      · rw [← flows_own _ htt (htoken hh), ← htt, add_comm 100 item.tenant]
        exact Function.update_self ..
      · rw [flows_other _ htt]
        refine (Function.update_of_ne (by omega) _ _).trans ?_
        exact (hother (by omega)).trans (h.flow t ht' hweb)

end Nodes

/-! ## The runs of `vPIFO` -/

namespace VPIFO

/-- A `vPIFO`, with the packets that it has taken and the ones that it has returned. -/
structure Record where
  state : Scheduled
  accepted : List Item
  returned : List Item

/-- What `Disc` has of it. -/
def Record.history (h : Record) : History := ⟨h.state.disc, h.accepted, h.returned⟩

/-- One request. -/
def Record.step (size : Item → ℕ) (h : Record) : Request → Option Record
  | .enqueue item => (doEnqueue size item h.state).map fun r =>
    ⟨r.2, if r.1 then h.accepted ++ [item] else h.accepted, h.returned⟩
  | .dequeue => (doDequeue size h.state).map fun r =>
    ⟨r.2, h.accepted, h.returned ++ r.1.toList⟩
  | .wakeUp locked => (h.state.disc.pipe.wakeUp locked).map fun p =>
    ⟨{ h.state with disc := { h.state.disc with pipe := p } }, h.accepted, h.returned⟩

/-- The requests `rs`, from the state after `InitializeParams`. -/
def run (size : Item → ℕ) (s : Scheduled) (rs : List Request) : Option Record :=
  rs.foldlM (Record.step size) ⟨s, [], []⟩

end VPIFO

section Account

variable {size : Item → ℕ} {s₀ : Scheduled} {h : VPIFO.Record} {item : Item}

/-- What holds after every request. -/
structure VPIFO.Record.Inv (size : Item → ℕ) (s₀ : Scheduled) (h : Record) : Prop where
  disc : DiscInv s₀.flowMap h.history
  known : ∀ x ∈ h.accepted, x.Ok s₀.flowMap
  paid : Paid size s₀ h.state h.accepted h.returned

/-- A request keeps the invariant, and is an event of the queue disc with some ranks. -/
def VPIFO.Record.Goes (size : Item → ℕ) (s₀ : Scheduled) (h : Record) (r : Request) : Prop :=
  ∃ h' e, h.step size r = some h' ∧ h'.Inv size s₀ ∧ e.request = r ∧
    h.history.step s₀.flowMap e = some h'.history

/-- `DoEnqueue` does to the queue disc what it does with some ranks. -/
theorem VPIFO.Record.Inv.enqueue_of (hinv : h.Inv size s₀) (hok : item.Ok s₀.flowMap) {b : Bool}
    {s : Scheduled} {r : Ranks} (hdo : doEnqueue size item h.state = some (b, s))
    (hdisc : h.state.disc.doEnqueue s₀.flowMap item r.rk1 r.rk2 r.rk3 r.rk4 = (b, s.disc))
    (hpaid : Paid size s₀ s (if b then h.accepted ++ [item] else h.accepted) h.returned) :
    h.Goes size s₀ (.enqueue item) := by
  obtain ⟨h', hstep, hdisc', -, -⟩ := hinv.disc.enqueue hok r.rk1 r.rk2 r.rk3 r.rk4
  have hevent : h.history.step s₀.flowMap (.enqueue item r.rk1 r.rk2 r.rk3 r.rk4) =
      some ⟨s.disc, if b then h.accepted ++ [item] else h.accepted, h.returned⟩ := by
    rw [History.step, show h.history.disc = h.state.disc from rfl, hdisc]
    rfl
  rw [hevent, Option.some.injEq] at hstep
  refine ⟨⟨s, if b then h.accepted ++ [item] else h.accepted, h.returned⟩,
    .enqueue item r.rk1 r.rk2 r.rk3 r.rk4, ?_, ⟨?_, fun x hx => ?_, hpaid⟩, rfl, hevent⟩
  · rw [VPIFO.Record.step, hdo]
    rfl
  · rw [← hstep] at hdisc'
    exact hdisc'
  · cases b with
    | true => exact ok_append hinv.known hok x hx
    | false => exact hinv.known x hx

/-- **`DoEnqueue`.** -/
theorem VPIFO.Record.Inv.enqueue (hinv : h.Inv size s₀) (hok : item.Ok s₀.flowMap) :
    h.Goes size s₀ (.enqueue item) := by
  have hpaid := hinv.paid
  by_cases hby : item.tenant = BYPATH
  · exact hinv.enqueue_of hok (b := true) (s := h.state.pushBypath item) (r := ⟨0, 0, 0, 0⟩)
      (if_pos hby) (if_pos hby) ((hpaid.bypath hby).1.congr rfl rfl)
  by_cases hsize : h.state.disc.rootSize < SIZE
  · obtain ⟨ht, -⟩ := hok.resolve_left hby
    obtain ⟨last, hlast, -, -⟩ := hpaid.type _ ht
    have hdo := hpaid.doEnqueue ht hsize hlast rfl
    refine hinv.enqueue_of hok (r := ranksOf size s₀ h.returned last item) hdo ?_
      (hpaid.accept ht hlast rfl rfl)
    rw [hpaid.flowMap, doEnqueue_eq hby hsize]
  · refine hinv.enqueue_of hok (b := false) (s := h.state) (r := ⟨0, 0, 0, 0⟩) ?_ ?_ hpaid
    · rw [VPIFO.doEnqueue, if_neg hby, if_pos (not_lt.mp hsize)]
    · rw [Disc.doEnqueue, if_neg hby, if_pos (not_lt.mp hsize)]

/-- **`DoDequeue`.** -/
theorem VPIFO.Record.Inv.dequeue (hinv : h.Inv size s₀) : h.Goes size s₀ .dequeue := by
  have hpaid := hinv.paid
  have hevent {x : Option Item} {d : Disc} (hdisc : h.state.disc.doDequeue = some (x, d)) :
      h.history.step s₀.flowMap .dequeue = some ⟨d, h.accepted, h.returned ++ x.toList⟩ := by
    rw [History.step, show h.history.disc = h.state.disc from rfl, hdisc]
    rfl
  have hstep {x : Option Item} {s : Scheduled}
      (hresult : h.state.doDequeue (pay size) = some (x, s)) :
      h.step size .dequeue = some ⟨s, h.accepted, h.returned ++ x.toList⟩ := by
    rw [VPIFO.Record.step, VPIFO.doDequeue, hresult]
    rfl
  cases DiscInv.dequeued (s := h.state) hinv.disc (pay size) with
  | bypath item d hby _ hdisc hresult hinv' =>
    have hpaid' : Paid size s₀ { h.state with disc := d } h.accepted h.returned :=
      hpaid.congr rfl rfl
    exact ⟨_, .dequeue, hstep hresult, ⟨hinv', hinv.known, (hpaid'.bypath hby).2⟩, rfl,
      hevent hdisc⟩
  | nothing hdisc hresult =>
    have hsame : h.returned ++ (none : Option Item).toList = h.returned := List.append_nil _
    refine ⟨_, .dequeue, hstep hresult, ?_, rfl, hevent hdisc⟩
    rw [hsame]
    exact hinv
  | packet item token d _ hdisc hresult hinv' hmem hkey =>
    obtain ⟨ht, hflow⟩ := (hinv.known item hmem).of_keyOf hkey
    have hpaid' : Paid size s₀ { h.state with disc := d } h.accepted h.returned :=
      hpaid.congr rfl rfl
    obtain ⟨s, hpay, hd, hs⟩ := hpaid'.pay ht hflow
    rw [hpay] at hresult
    have hd' : s.disc = d := hd
    subst hd'
    exact ⟨_, .dequeue, hstep hresult, ⟨hinv', hinv.known, hs⟩, rfl, hevent hdisc⟩

/-- **`WakeUp`.** -/
theorem VPIFO.Record.Inv.wakeUp (hinv : h.Inv size s₀) (locked : ℕ → Bool) :
    h.Goes size s₀ (.wakeUp locked) := by
  obtain ⟨p, hwake, -, -⟩ := hinv.disc.pipe.wakeUp locked
  obtain ⟨h', hstep, hdisc', -, -⟩ := hinv.disc.wakeUp locked
  have hwake' : h.state.disc.pipe.wakeUp locked = some p := hwake
  have hevent : h.history.step s₀.flowMap (.wakeUp locked) =
      some ⟨{ h.state.disc with pipe := p }, h.accepted, h.returned⟩ := by
    rw [History.step, hwake]
    rfl
  rw [hevent, Option.some.injEq] at hstep
  refine ⟨⟨{ h.state with disc := { h.state.disc with pipe := p } }, h.accepted, h.returned⟩,
    .wakeUp locked, ?_, ⟨?_, hinv.known, hinv.paid.congr rfl rfl⟩, rfl, hevent⟩
  · rw [VPIFO.Record.step, hwake']
    rfl
  · rw [← hstep] at hdisc'
    exact hdisc'

theorem VPIFO.Record.Inv.goes (hinv : h.Inv size s₀) {r : Request} (hr : r.Known s₀.flowMap)
    (hflows : ∀ label id, s₀.flowMap label = some id → 1000 ≤ id) : h.Goes size s₀ r := by
  cases r with
  | enqueue item => exact hinv.enqueue (Item.Known.ok hflows hr)
  | dequeue => exact hinv.dequeue
  | wakeUp locked => exact hinv.wakeUp locked

theorem VPIFO.Record.Inv.run (hflows : ∀ label id, s₀.flowMap label = some id → 1000 ≤ id)
    {rs : List Request} (hrs : ∀ r ∈ rs, r.Known s₀.flowMap) : ∀ {h : Record}, h.Inv size s₀ →
      ∃ h', ∃ es : List Event, rs.foldlM (Record.step size) h = some h' ∧ h'.Inv size s₀ ∧
        es.map Event.request = rs ∧
        es.foldlM (History.step s₀.flowMap) h.history = some h'.history := by
  induction rs with
  | nil => exact fun {h} hinv => ⟨h, [], rfl, hinv, rfl, rfl⟩
  | cons r rs ih =>
    intro h hinv
    obtain ⟨h₁, e, hstep, hinv₁, he, hevent⟩ := hinv.goes (hrs r List.mem_cons_self) hflows
    obtain ⟨h₂, es, hrun, hinv₂, hes, hevents⟩ :=
      ih (fun r hr => hrs r (List.mem_cons_of_mem _ hr)) hinv₁
    refine ⟨h₂, e :: es, ?_, hinv₂, by rw [List.map_cons, he, hes], ?_⟩
    · rw [List.foldlM_cons, hstep]
      exact hrun
    · rw [List.foldlM_cons, hevent]
      exact hevents

end Account

/-- **The scheduling nodes of `vPIFO` keep account.**  After `InitializeParams` on a file of
Web-Search flows, in whatever order packets arrive that it is made for (`Request.Known`), packets
are asked for and cycles pass, every node that is used is there, no tree, buffer or queue of packets
is empty where its top or front is used, and to the pipeline and the queues the code does what the
queue disc of before does with some ranks.  The virtual time of a tenant type is the number of bytes
that were returned for it; the last rank of a tenant there lies between `num` times the bytes that
were taken for it and the same plus that virtual time; and the size of a flow has gone down by one
with each of its packets that was returned.  The starvation logic is a parameter, so nothing is said
about the front of the beggar's operation list. -/
theorem vPIFO_account (size : Item → ℕ) (id : ℕ) (lines : List FlowLine)
    (hlines : WebSearch lines) :
    ∃ s₀, VPIFO.initializeParams id lines = some s₀ ∧
      ∀ rs : List Request, (∀ r ∈ rs, r.Known s₀.flowMap) → ∃ h, VPIFO.run size s₀ rs = some h ∧
        (∃ es : List Event, es.map Event.request = rs ∧
          History.run s₀.flowMap s₀.disc.queueKeys es = some h.history) ∧
        Paid size s₀ h.state h.accepted h.returned := by
  obtain ⟨s₀, hinit, hprep⟩ : ∃ s₀, VPIFO.initializeParams id lines = some s₀ ∧
      Prepared 100 VPIFO.initTree s₀ := VPIFO.prepared_init.initializeParams hlines
  refine ⟨s₀, hinit, fun rs hrs => ?_⟩
  have hdisc : DiscInv s₀.flowMap ⟨s₀.disc, [], []⟩ := by
    rw [hprep.disc]
    exact discInv_init _
  have hinv : VPIFO.Record.Inv size s₀ ⟨s₀, [], []⟩ :=
    ⟨hdisc, fun x hx => absurd hx List.not_mem_nil, hprep.paid⟩
  obtain ⟨h, es, hrun, hinv', hes, hevents⟩ := hinv.run hprep.flows hrs
  refine ⟨h, hrun, ⟨es, hes, ?_⟩, hinv'.paid⟩
  rw [History.run, ← hprep.disc]
  exact hevents

/-- Two flows of tenant 0, from server 3 to server 4. -/
def twoFlows : List FlowLine := [⟨"a", 3, 4, 10, 0⟩, ⟨"b", 3, 4, 20, 0⟩]

/-- Packets of these flows and of the Hadoop tenants 12 and 1 arrive, and in each of `n` cycles a
packet is asked for. -/
def mixedRequests (n : ℕ) : List Request :=
  [.enqueue ⟨0, 12, "x"⟩, .enqueue ⟨1, 0, "a"⟩, .enqueue ⟨2, 1, "y"⟩, .enqueue ⟨3, 0, "b"⟩,
    .enqueue ⟨4, 12, "z"⟩] ++ (List.replicate n [.wakeUp fun _ => false, .dequeue]).flatten

theorem webSearch_twoFlows : WebSearch twoFlows := by
  intro l hl
  simp only [twoFlows, List.mem_cons, List.not_mem_nil, or_false] at hl
  rcases hl with rfl | rfl <;> decide

theorem known_mixedRequests {flowMap : FlowMap} (ha : flowMap "a" ≠ none)
    (hb : flowMap "b" ≠ none) (n : ℕ) : ∀ r ∈ mixedRequests n, r.Known flowMap := by
  intro r hr
  rcases List.mem_append.mp hr with hr | hr
  · simp only [List.mem_cons, List.not_mem_nil, or_false] at hr
    rcases hr with rfl | rfl | rfl | rfl | rfl
    · exact Or.inr ⟨by decide, fun hweb => absurd hweb (by decide)⟩
    · exact Or.inr ⟨by decide, fun _ => ha⟩
    · exact Or.inr ⟨by decide, fun hweb => absurd hweb (by decide)⟩
    · exact Or.inr ⟨by decide, fun _ => hb⟩
    · exact Or.inr ⟨by decide, fun hweb => absurd hweb (by decide)⟩
  · obtain ⟨round, hround, hr⟩ := List.mem_flatten.mp hr
    rw [List.eq_of_mem_replicate hround, List.mem_pair] at hr
    rcases hr with rfl | rfl <;> exact trivial

/-- After 56 cycles four of the five packets have been returned, the flows of tenant 0 first. -/
theorem vPIFO_account_twoFlows : ∃ s₀, VPIFO.initializeParams 144 twoFlows = some s₀ ∧
    ∃ h, VPIFO.run (fun x => 64 + x.id) s₀ (mixedRequests 56) = some h ∧
      h.accepted.map Item.id = [0, 1, 2, 3, 4] ∧ h.returned.map Item.id = [0, 1, 3, 2] ∧
      Paid (fun x => 64 + x.id) s₀ h.state h.accepted h.returned := by
  have hids : ((VPIFO.initializeParams 144 twoFlows).bind fun s₀ =>
      (VPIFO.run (fun x => 64 + x.id) s₀ (mixedRequests 56)).map fun h =>
        (h.accepted.map Item.id, h.returned.map Item.id)) =
          some ([0, 1, 2, 3, 4], [0, 1, 3, 2]) := by
    decide +kernel
  obtain ⟨s₀, hinit, hruns⟩ := vPIFO_account (fun x => 64 + x.id) 144 twoFlows webSearch_twoFlows
  have hflows : s₀.flowMap "a" = some 1001 ∧ s₀.flowMap "b" = some 1002 := by
    rw [← Option.some.inj hinit]
    exact ⟨rfl, rfl⟩
  obtain ⟨h, hrun, -, hpaid⟩ := hruns (mixedRequests 56)
    (known_mixedRequests (by rw [hflows.1]; simp) (by rw [hflows.2]; simp) 56)
  rw [hinit, Option.bind_some, hrun, Option.map_some, Option.some.injEq, Prod.mk.injEq] at hids
  exact ⟨s₀, hinit, h, hrun, hids.1, hids.2, hpaid⟩

end Ns3

end VPifo
