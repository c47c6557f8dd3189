import VPifo.Dpdk.Transmit
import Mathlib.Data.Fin.VecNotation
import Mathlib.Data.Finset.Max
import Mathlib.Data.Fintype.Basic
import Mathlib.Logic.Function.Basic

/-!
# The schedulers inside a node of the software switch

A node has three input rings, one for each of its flows, and moves packets to its output ring.
`flows2nodes_SP` looks for the flow with priority 1, then 2, then 3; `flows2nodes_pFabric` for the
flow with the least size left.

Neither search goes over all rings.  With strict priority the first flow with a priority stands
for all of them, and when no flow has it the index runs out of the array.  With pFabric the ring
that is found and the next one are tried, and never the third.  `flows2nodes_schedules_iff` says
which contents, priorities and sizes come out right in spite of it.
-/

namespace VPifo

namespace Dpdk

/-- What the scheduler of a node works with.  The priorities are only read. -/
structure Context where
  inputRings : Fin 3 → List Packet
  outputRing : List Packet
  /-- How many packets the output ring holds. -/
  outputSize : ℕ
  spPriority : Fin 3 → ℤ
  pFabricSize : Fin 3 → Int32

section Schedulers

variable (c : Context)

/-- A packet has been taken from an input ring, with `ring` left, and put into the output ring. -/
def Context.move (i : Fin 3) (pkt : Packet) (ring : List Packet) : Context :=
  { c with
    inputRings := Function.update c.inputRings i ring
    outputRing := if c.outputRing.length < c.outputSize then c.outputRing ++ [pkt]
      else c.outputRing }

/-- The first flow with this priority. -/
def flowOf (priority : ℤ) : Option (Fin 3) :=
  (List.finRange 3).find? fun i => c.spPriority i = priority

/-- The rounds of `flows2nodes_SP`.  There is no result when `input_rings[3]` is read. -/
def spRounds : List ℤ → Option Context
  | [] => some c
  | priority :: priorities =>
    match flowOf c priority with
    | none => none
    | some i =>
      match c.inputRings i with
      | [] => spRounds priorities
      | pkt :: ring => some (c.move i pkt ring)

/-- `flows2nodes_SP`. -/
def flows2nodesSP : Option Context := spRounds c [1, 2, 3]

/-- A ring is looked at in the search for the least size. -/
def lookAt (least : Fin 3 × Int32) (i : Fin 3) : Fin 3 × Int32 :=
  if c.pFabricSize i < least.2 then (i, c.pFabricSize i) else least

/-- The ring with the least size, and the size. -/
def minRing : Fin 3 × Int32 := (List.finRange 3).foldl (lookAt c) (0, Int32.maxValue)

/-- The length of a packet is taken from the size of its flow. -/
def Context.charge (i : Fin 3) (pkt : Packet) : Context :=
  { c with
    pFabricSize := Function.update c.pFabricSize i (c.pFabricSize i - pkt.pktLen.toInt32) }

/-- The rounds of `flows2nodes_pFabric`, which go from ring to ring modulo 3. -/
def pFabricRounds : ℕ → Fin 3 → Context
  | 0, _ => c
  | n + 1, i =>
    match c.inputRings i with
    | [] => pFabricRounds n (i + 1)
    | pkt :: ring => (c.charge i pkt).move i pkt ring

/-- `flows2nodes_pFabric`. -/
def flows2nodesPFabric : Option Context := some (pFabricRounds c 2 (minRing c).1)

end Schedulers

/-! ## What a scheduler owes -/

/-- Ring `i` is the one to serve: it has a packet, and no other ring that has one comes before. -/
structure Least (c : Context) (key : Fin 3 → ℤ) (i : Fin 3) : Prop where
  nonempty : c.inputRings i ≠ []
  le : ∀ j, c.inputRings j ≠ [] → key i ≤ key j

/-- A call does nothing when the rings are empty, and else it moves the head of the ring that is
to be served. -/
structure Schedules (key : Context → Fin 3 → ℤ) (call : Context → Option Context)
    (c : Context) : Prop where
  idle : (∀ i, c.inputRings i = []) → call c = some c
  serves : ∀ j, c.inputRings j ≠ [] → ∃ c' i pkt ring, call c = some c' ∧
    Least c (key c) i ∧ c.inputRings i = pkt :: ring ∧
    c'.inputRings = Function.update c.inputRings i ring ∧ c'.outputRing = c.outputRing ++ [pkt]

/-- What the schedulers go by. -/
def priorityKey (c : Context) (i : Fin 3) : ℤ := c.spPriority i

def sizeKey (c : Context) (i : Fin 3) : ℤ := (c.pFabricSize i).toInt

section Owes

variable {c c' : Context} {key : Context → Fin 3 → ℤ} {call : Context → Option Context}
  {i j : Fin 3} {pkt : Packet} {ring : List Packet}

/-- A ring that has a packet is, or another is, to be served. -/
theorem exists_least (key : Fin 3 → ℤ) (hj : c.inputRings j ≠ []) : ∃ i, Least c key i := by
  obtain ⟨i, hi, hmin⟩ := Finset.exists_min_image
    (Finset.univ.filter fun i => c.inputRings i ≠ []) key
    ⟨j, Finset.mem_filter.mpr ⟨Finset.mem_univ j, hj⟩⟩
  exact ⟨i, (Finset.mem_filter.mp hi).2,
    fun k hk => hmin k (Finset.mem_filter.mpr ⟨Finset.mem_univ k, hk⟩)⟩

/-- The ring that a scheduler serves is the one to serve. -/
theorem Schedules.least (h : Schedules key call c) (hcall : call c = some c')
    (hi : c.inputRings i = pkt :: ring)
    (hrings : c'.inputRings = Function.update c.inputRings i ring) : Least c (key c) i := by
  obtain ⟨d, k, pkt', ring', hd, hleast, hk, hupdate, -⟩ := h.serves i (by rw [hi]; simp)
  rw [hcall] at hd
  rw [← Option.some.inj hd, hrings] at hupdate
  -- the two rings got shorter, so they are one
  by_cases heq : k = i
  · exact heq ▸ hleast
  · have hsame := congrFun hupdate k
    rw [Function.update_self, Function.update_of_ne heq, hk] at hsame
    exact absurd hsame (by simp)

/-- A scheduler that changes nothing has nothing to serve. -/
theorem Schedules.empty (h : Schedules key call c) (hcall : call c = some c) (i : Fin 3) :
    c.inputRings i = [] := by
  by_contra hi
  obtain ⟨d, k, pkt', ring', hd, -, hk, hupdate, -⟩ := h.serves i hi
  rw [hcall] at hd
  have hsame := congrFun hupdate k
  rw [← Option.some.inj hd, Function.update_self, hk] at hsame
  exact absurd hsame (by simp)

end Owes

/-! ## Strict priority -/

section StrictPriority

variable {c c' : Context} {i j : Fin 3} {p : ℤ} {ps : List ℤ} {pkt : Packet} {ring : List Packet}

/-- Flow `i` is the first with priority `p`. -/
structure IsFirst (c : Context) (p : ℤ) (i : Fin 3) : Prop where
  eq : c.spPriority i = p
  lt : ∀ j < i, c.spPriority j ≠ p

theorem flowOf_eq_some_iff : flowOf c p = some i ↔ IsFirst c p i := by
  rw [flowOf, List.find?_eq_some_iff_getElem]
  constructor
  · rintro ⟨hi, n, hn, rfl, hlt⟩
    refine ⟨of_decide_eq_true hi, fun j hj => ?_⟩
    have hne := hlt j.1 (by simpa [Fin.lt_def] using hj)
    simpa using hne
  · intro h
    refine ⟨decide_eq_true h.eq, i.1, by simp, by simp, fun n hn => ?_⟩
    have hne := h.lt ⟨n, hn.trans i.2⟩ hn
    simpa using hne

/-- A flow with the priority, and the first of them. -/
theorem exists_isFirst (h : ∃ j, c.spPriority j = p) : ∃ i, IsFirst c p i := by
  cases hfind : flowOf c p with
  | some i => exact ⟨i, flowOf_eq_some_iff.mp hfind⟩
  | none =>
    obtain ⟨j, hj⟩ := h
    have hne := List.find?_eq_none.mp hfind j (List.mem_finRange j)
    exact absurd (decide_eq_true hj) hne

/-- The flow that is looked at for `p` has no packet. -/
def Skipped (c : Context) (p : ℤ) : Prop := ∃ i, IsFirst c p i ∧ c.inputRings i = []

/-- **What the rounds do**: all are skipped, or a packet is moved for the first that is not. -/
theorem spRounds_cases (hsorted : ps.Pairwise (· < ·)) (h : spRounds c ps = some c') :
    (∀ p ∈ ps, Skipped c p) ∧ c' = c ∨
    ∃ p ∈ ps, (∀ q ∈ ps, q < p → Skipped c q) ∧ ∃ i pkt ring, IsFirst c p i ∧
      c.inputRings i = pkt :: ring ∧ c' = c.move i pkt ring := by
  induction ps with
  | nil => exact .inl ⟨fun p hp => absurd hp List.not_mem_nil, (Option.some.inj h).symm⟩
  | cons p ps ih =>
    obtain ⟨hlt, hsorted'⟩ := List.pairwise_cons.mp hsorted
    rw [spRounds] at h
    cases hfind : flowOf c p with
    | none =>
      rw [hfind] at h
      exact absurd h (by simp)
    | some i =>
      have hfirst := flowOf_eq_some_iff.mp hfind
      rw [hfind] at h
      dsimp only at h
      cases hring : c.inputRings i with
      | nil =>
        rw [hring] at h
        have hskip : Skipped c p := ⟨i, hfirst, hring⟩
        rcases ih hsorted' h with ⟨hall, rfl⟩ | ⟨q, hq, hbelow, hmove⟩
        · exact .inl ⟨List.forall_mem_cons.mpr ⟨hskip, hall⟩, rfl⟩
        · exact .inr ⟨q, List.mem_cons_of_mem p hq,
            List.forall_mem_cons.mpr ⟨fun _ => hskip, hbelow⟩, hmove⟩
      | cons pkt ring =>
        rw [hring] at h
        refine .inr ⟨p, List.mem_cons_self, List.forall_mem_cons.mpr
          ⟨fun hp => absurd hp (lt_irrefl p), fun q hq hqp => ?_⟩,
          i, pkt, ring, hfirst, hring, (Option.some.inj h).symm⟩
        exact absurd (hlt q hq) (lt_asymm hqp)

/-- Rounds that are skipped leave everything as it is. -/
theorem spRounds_of_skipped (h : ∀ p ∈ ps, Skipped c p) : spRounds c ps = some c := by
  induction ps with
  | nil => rfl
  | cons p ps ih =>
    obtain ⟨⟨i, hfirst, hring⟩, hrest⟩ := List.forall_mem_cons.mp h
    rw [spRounds, flowOf_eq_some_iff.mpr hfirst]
    dsimp only
    rw [hring]
    exact ih hrest

/-- The first round that is not skipped moves a packet. -/
theorem spRounds_of_isFirst (hsorted : ps.Pairwise (· < ·)) (hp : p ∈ ps)
    (hbelow : ∀ q ∈ ps, q < p → Skipped c q) (hfirst : IsFirst c p i)
    (hring : c.inputRings i = pkt :: ring) : spRounds c ps = some (c.move i pkt ring) := by
  induction ps with
  | nil => exact absurd hp List.not_mem_nil
  | cons q ps ih =>
    obtain ⟨hlt, hsorted'⟩ := List.pairwise_cons.mp hsorted
    rw [spRounds]
    rcases List.mem_cons.mp hp with rfl | hp
    · rw [flowOf_eq_some_iff.mpr hfirst]
      dsimp only
      rw [hring]
    · obtain ⟨j, hj, hempty⟩ := hbelow q List.mem_cons_self (hlt p hp)
      rw [flowOf_eq_some_iff.mpr hj]
      dsimp only
      rw [hempty]
      exact ih hsorted' hp fun r hr => hbelow r (List.mem_cons_of_mem q hr)

/-- The priorities are in order for what the rings hold.  `range`, `below` and `first` are about
the ring to serve, `idle` is about a node that has nothing to do. -/
structure SPOrdered (c : Context) : Prop where
  range : ∀ i, Least c (priorityKey c) i → 1 ≤ c.spPriority i ∧ c.spPriority i ≤ 3
  below : ∀ i, Least c (priorityKey c) i → ∀ p, 1 ≤ p → p < c.spPriority i →
    ∃ j, c.spPriority j = p
  first : ∀ i, Least c (priorityKey c) i → ∀ j, IsFirst c (c.spPriority i) j →
    c.inputRings j ≠ []
  idle : (∀ i, c.inputRings i = []) → ∀ p, 1 ≤ p → p ≤ 3 → ∃ j, c.spPriority j = p

theorem mem_priorities : p ∈ ([1, 2, 3] : List ℤ) ↔ 1 ≤ p ∧ p ≤ 3 := by
  simp only [List.mem_cons, List.not_mem_nil, or_false]
  omega

theorem sorted_priorities : ([1, 2, 3] : List ℤ).Pairwise (· < ·) := by simp

/-- Two rings to be served have one key. -/
theorem Least.key_eq {key : Fin 3 → ℤ} (hi : Least c key i) (hj : Least c key j) :
    key i = key j :=
  le_antisymm (hi.le j hj.nonempty) (hj.le i hi.nonempty)

/-- **The round that serves** is the one for the priority of the ring to be served, and those
before it are skipped. -/
theorem Schedules.round (h : Schedules priorityKey flows2nodesSP c)
    (hi : Least c (priorityKey c) i) : c.spPriority i ∈ ([1, 2, 3] : List ℤ) ∧
      (∀ q ∈ ([1, 2, 3] : List ℤ), q < c.spPriority i → Skipped c q) ∧
      ∃ k, IsFirst c (c.spPriority i) k ∧ c.inputRings k ≠ [] := by
  obtain ⟨c', -, -, -, hcall, -⟩ := h.serves i hi.nonempty
  rcases spRounds_cases sorted_priorities hcall with
    ⟨-, rfl⟩ | ⟨p, hp, hbelow, k, pkt, ring, hfirst, hring, rfl⟩
  · exact absurd (h.empty hcall i) hi.nonempty
  · have hk := h.least hcall hring rfl
    have hkey : c.spPriority i = c.spPriority k := hi.key_eq hk
    rw [hkey, hfirst.eq]
    exact ⟨hp, hbelow, k, hfirst, hk.nonempty⟩

theorem Schedules.spOrdered (h : Schedules priorityKey flows2nodesSP c) : SPOrdered c where
  range _ hi := mem_priorities.mp (h.round hi).1
  below i hi p h₁ hlt := by
    obtain ⟨hp, hbelow, -⟩ := h.round hi
    have h₃ := (mem_priorities.mp hp).2
    obtain ⟨j, hj, -⟩ := hbelow p (mem_priorities.mpr ⟨h₁, by omega⟩) hlt
    exact ⟨j, hj.eq⟩
  first i hi j hj := by
    obtain ⟨-, -, k, hk, hne⟩ := h.round hi
    have hjk := flowOf_eq_some_iff.mpr hj
    rw [flowOf_eq_some_iff.mpr hk] at hjk
    exact Option.some.inj hjk ▸ hne
  idle hempty p h₁ h₃ := by
    rcases spRounds_cases sorted_priorities (h.idle hempty) with
      ⟨hall, -⟩ | ⟨p, -, -, k, pkt, ring, -, hring, -⟩
    · obtain ⟨j, hj, -⟩ := hall p (mem_priorities.mpr ⟨h₁, h₃⟩)
      exact ⟨j, hj.eq⟩
    · rw [hempty k] at hring
      exact absurd hring (by simp)

/-- A flow that is looked at before the ring to be served has no packet. -/
theorem SPOrdered.skipped (h : SPOrdered c) (hi : Least c (priorityKey c) i) (h₁ : 1 ≤ p)
    (hlt : p < c.spPriority i) : Skipped c p := by
  obtain ⟨j, hj⟩ := exists_isFirst (h.below i hi p h₁ hlt)
  refine ⟨j, hj, ?_⟩
  by_contra hne
  have hle : c.spPriority i ≤ c.spPriority j := hi.le j hne
  rw [hj.eq] at hle
  omega

theorem SPOrdered.schedules (h : SPOrdered c) (hroom : c.outputRing.length < c.outputSize) :
    Schedules priorityKey flows2nodesSP c where
  idle hempty := spRounds_of_skipped fun p hp => by
    obtain ⟨h₁, h₃⟩ := mem_priorities.mp hp
    obtain ⟨i, hi⟩ := exists_isFirst (h.idle hempty p h₁ h₃)
    exact ⟨i, hi, hempty i⟩
  serves j hj := by
    obtain ⟨i, hi⟩ := exists_least (priorityKey c) hj
    obtain ⟨k, hk⟩ := exists_isFirst (p := c.spPriority i) ⟨i, rfl⟩
    have hne := h.first i hi k hk
    obtain ⟨pkt, ring, hring⟩ := List.exists_cons_of_ne_nil hne
    have hleast : Least c (priorityKey c) k :=
      ⟨hne, fun l hl => hk.eq.le.trans (hi.le l hl)⟩
    refine ⟨c.move k pkt ring, k, pkt, ring, ?_, hleast, hring, rfl, if_pos hroom⟩
    exact spRounds_of_isFirst sorted_priorities (mem_priorities.mpr (h.range i hi))
      (fun q hq => h.skipped hi (mem_priorities.mp hq).1) hk hring

end StrictPriority

/-! ## pFabric -/

section PFabric

variable {c : Context} {r : Fin 3} {rings : List (Fin 3)}

/-- Ring `r` is the first with the least size, empty or not. -/
structure IsMin (c : Context) (r : Fin 3) : Prop where
  le : ∀ j, sizeKey c r ≤ sizeKey c j
  lt : ∀ j < r, sizeKey c r < sizeKey c j

theorem IsMin.unique {r' : Fin 3} (h : IsMin c r) (h' : IsMin c r') : r = r' := by
  rcases lt_trichotomy r r' with hlt | heq | hlt
  · exact absurd (h'.lt r hlt) (not_lt.mpr (h.le r'))
  · exact heq
  · exact absurd (h.lt r' hlt) (not_lt.mpr (h'.le r))

/-- The search, from any ring before those that are looked at: the size that is found is the least
of them, and only smaller than the one from before when another ring is found. -/
theorem foldl_lookAt (least : Fin 3 × Int32) (hsorted : rings.Pairwise (· < ·))
    (hbefore : ∀ i ∈ rings, least.1 ≤ i) (hleast : sizeKey c least.1 ≤ least.2.toInt) :
    ∃ found, rings.foldl (lookAt c) least = found ∧ sizeKey c found.1 ≤ found.2.toInt ∧
      found.2.toInt ≤ least.2.toInt ∧ (found.1 = least.1 ∨ found.2.toInt < least.2.toInt) ∧
      ∀ i ∈ rings, found.2.toInt ≤ sizeKey c i ∧ (i < found.1 → found.2.toInt < sizeKey c i) := by
  induction rings generalizing least with
  | nil => exact ⟨least, rfl, hleast, le_rfl, .inl rfl, fun i hi => absurd hi List.not_mem_nil⟩
  | cons i rings ih =>
    obtain ⟨hlt, hsorted'⟩ := List.pairwise_cons.mp hsorted
    obtain ⟨hi, hrest⟩ := List.forall_mem_cons.mp hbefore
    rw [List.foldl_cons, lookAt]
    split
    · next hsmaller =>
      have hsmaller' : sizeKey c i < least.2.toInt := Int32.lt_iff_toInt_lt.mp hsmaller
      obtain ⟨found, hfound, hkey, hle, hother, hall⟩ :=
        ih (i, c.pFabricSize i) hsorted' (fun j hj => (hlt j hj).le) le_rfl
      have hle' : found.2.toInt ≤ sizeKey c i := hle
      refine ⟨found, hfound, hkey, by omega, .inr (by omega),
        List.forall_mem_cons.mpr ⟨⟨hle', fun h => ?_⟩, hall⟩⟩
      rcases hother with heq | hless
      · exact absurd h (heq ▸ lt_irrefl i)
      · exact hless
    · next hsmaller =>
      have hsmaller' : ¬sizeKey c i < least.2.toInt := fun h =>
        hsmaller (Int32.lt_iff_toInt_lt.mpr h)
      obtain ⟨found, hfound, hkey, hle, hother, hall⟩ := ih least hsorted' hrest hleast
      refine ⟨found, hfound, hkey, hle, hother,
        List.forall_mem_cons.mpr ⟨⟨by omega, fun h => ?_⟩, hall⟩⟩
      rcases hother with heq | hless
      · exact absurd h (heq ▸ not_lt.mpr hi)
      · omega

theorem isMin_minRing (c : Context) : IsMin c (minRing c).1 := by
  obtain ⟨found, hfound, hkey, -, -, hall⟩ := foldl_lookAt (c := c) (0, Int32.maxValue)
    (List.pairwise_lt_finRange 3) (fun i _ => Fin.zero_le i) (Int32.toInt_le _)
  rw [minRing, hfound]
  exact ⟨fun j => hkey.trans (hall j (List.mem_finRange j)).1,
    fun j hj => hkey.trans_lt ((hall j (List.mem_finRange j)).2 hj)⟩

/-- From any ring the other two are the next and the one after. -/
theorem forall_ring {P : Fin 3 → Prop} (r : Fin 3) (h₀ : P r) (h₁ : P (r + 1)) (h₂ : P (r + 2)) :
    ∀ i, P i := by
  intro i
  have hall : ∀ r i : Fin 3, i = r ∨ i = r + 1 ∨ i = r + 2 := by decide
  rcases hall r i with rfl | rfl | rfl
  · exact h₀
  · exact h₁
  · exact h₂

/-- The two rings that are tried are enough: the rings are all empty, or the one with the least
size is not, or the next is not and no ring that is not empty has a smaller size. -/
def Reached (c : Context) : Prop :=
  ∀ r, IsMin c r → (∀ i, c.inputRings i = []) ∨ c.inputRings r ≠ [] ∨
    c.inputRings (r + 1) ≠ [] ∧
      (c.inputRings (r + 2) = [] ∨ sizeKey c (r + 1) ≤ sizeKey c (r + 2))

theorem pFabricRounds_of_nil {n : ℕ} (h : c.inputRings r = []) :
    pFabricRounds c (n + 1) r = pFabricRounds c n (r + 1) := by
  rw [pFabricRounds, h]

theorem pFabricRounds_of_cons {n : ℕ} {pkt : Packet} {ring : List Packet}
    (h : c.inputRings r = pkt :: ring) :
    pFabricRounds c (n + 1) r = (c.charge r pkt).move r pkt ring := by
  rw [pFabricRounds, h]

/-- **When pFabric comes out right.** -/
theorem schedules_sizeKey_iff (hroom : c.outputRing.length < c.outputSize) :
    Schedules sizeKey flows2nodesPFabric c ↔ Reached c := by
  obtain ⟨r, hcall, hmin⟩ : ∃ r, flows2nodesPFabric c = some (pFabricRounds c 2 r) ∧ IsMin c r :=
    ⟨_, rfl, isMin_minRing c⟩
  constructor
  · intro h r' hr'
    obtain rfl := hmin.unique hr'
    by_cases h₀ : c.inputRings r = []
    · rw [pFabricRounds_of_nil h₀] at hcall
      by_cases h₁ : c.inputRings (r + 1) = []
      · -- both tries fail, so there must be nothing to move
        rw [pFabricRounds_of_nil h₁] at hcall
        exact .inl (h.empty hcall)
      · obtain ⟨pkt, ring, hring⟩ := List.exists_cons_of_ne_nil h₁
        rw [pFabricRounds_of_cons hring] at hcall
        have hleast := h.least hcall hring rfl
        refine .inr (.inr ⟨h₁, ?_⟩)
        by_cases h₂ : c.inputRings (r + 2) = []
        · exact .inl h₂
        · exact .inr (hleast.le _ h₂)
    · exact .inr (.inl h₀)
  · intro h
    -- a packet that is moved is moved from the ring that is to be served
    have hserve : ∀ i pkt ring, flows2nodesPFabric c = some ((c.charge i pkt).move i pkt ring) →
        c.inputRings i = pkt :: ring → (∀ k, c.inputRings k ≠ [] → sizeKey c i ≤ sizeKey c k) →
        ∃ c' i pkt ring, flows2nodesPFabric c = some c' ∧ Least c (sizeKey c) i ∧
          c.inputRings i = pkt :: ring ∧
          c'.inputRings = Function.update c.inputRings i ring ∧
          c'.outputRing = c.outputRing ++ [pkt] := fun i pkt ring hcall hring hle =>
      ⟨_, i, pkt, ring, hcall, ⟨by rw [hring]; simp, hle⟩, hring, rfl, if_pos hroom⟩
    refine ⟨fun hempty => ?_, fun j hj => ?_⟩
    · rw [hcall, pFabricRounds_of_nil (hempty _), pFabricRounds_of_nil (hempty _)]
      rfl
    · cases h₀ : c.inputRings r with
      | cons pkt ring =>
        rw [pFabricRounds_of_cons h₀] at hcall
        exact hserve r pkt ring hcall h₀ fun k _ => hmin.le k
      | nil =>
        rw [pFabricRounds_of_nil h₀] at hcall
        rcases h r hmin with hempty | hne | ⟨h₁, h₂⟩
        · exact absurd (hempty j) hj
        · exact absurd h₀ hne
        · obtain ⟨pkt, ring, hring⟩ := List.exists_cons_of_ne_nil h₁
          rw [pFabricRounds_of_cons hring] at hcall
          exact hserve (r + 1) pkt ring hcall hring (forall_ring r (fun hne => absurd h₀ hne)
            (fun _ => le_rfl) fun hne => h₂.resolve_left hne)

end PFabric

/-- **When the schedulers of a node come out right.** -/
theorem flows2nodes_schedules_iff (c : Context) (hroom : c.outputRing.length < c.outputSize) :
    (Schedules priorityKey flows2nodesSP c ↔ SPOrdered c) ∧
      (Schedules sizeKey flows2nodesPFabric c ↔ Reached c) :=
  ⟨⟨fun h => h.spOrdered, fun h => h.schedules hroom⟩, schedules_sizeKey_iff hroom⟩

/-- A packet of 64 bytes in the last input ring, and nothing else. -/
def onlyLast (spPriority : Fin 3 → ℤ) (pFabricSize : Fin 3 → Int32) : Context where
  inputRings := ![[], [], [⟨0, 64, true, 0⟩]]
  outputRing := []
  outputSize := 1023
  spPriority := spPriority
  pFabricSize := pFabricSize

/-- Priorities as in the example configuration, and the last flow is the one with the least
size. -/
theorem flows2nodes_schedules_inOrder :
    Schedules priorityKey flows2nodesSP (onlyLast ![1, 2, 3] ![3, 2, 1]) ∧
      Schedules sizeKey flows2nodesPFabric (onlyLast ![1, 2, 3] ![3, 2, 1]) := by
  have hiff := flows2nodes_schedules_iff (onlyLast ![1, 2, 3] ![3, 2, 1])
    (Nat.zero_lt_succ 1022)
  have hcover : ∀ p : ℤ, 1 ≤ p → p ≤ 3 →
      ∃ j, (onlyLast ![1, 2, 3] ![3, 2, 1]).spPriority j = p := by
    intro p h₁ h₃
    obtain rfl | rfl | rfl : p = 1 ∨ p = 2 ∨ p = 3 := by omega
    · exact ⟨0, rfl⟩
    · exact ⟨1, rfl⟩
    · exact ⟨2, rfl⟩
  have hrange : ∀ i, 1 ≤ (onlyLast ![1, 2, 3] ![3, 2, 1]).spPriority i ∧
      (onlyLast ![1, 2, 3] ![3, 2, 1]).spPriority i ≤ 3 :=
    forall_ring 0 ⟨by decide, by decide⟩ ⟨by decide, by decide⟩ ⟨by decide, by decide⟩
  have hdistinct : ∀ i j, (onlyLast ![1, 2, 3] ![3, 2, 1]).spPriority i =
      (onlyLast ![1, 2, 3] ![3, 2, 1]).spPriority j → i = j := by decide
  refine ⟨hiff.1.mpr ⟨fun i _ => hrange i, fun i _ p h₁ hlt => hcover p h₁ ?_,
    fun i hi j hj => ?_, fun _ => hcover⟩, hiff.2.mpr fun r hr => .inr (.inl ?_)⟩
  · have hle := (hrange i).2
    omega
  · exact hdistinct j i hj.eq ▸ hi.nonempty
  · have hlast : IsMin (onlyLast ![1, 2, 3] ![3, 2, 1]) 2 :=
      ⟨forall_ring 0 (by decide) (by decide) (by decide),
        forall_ring 0 (by decide) (by decide) (by decide)⟩
    rw [hr.unique hlast]
    exact List.cons_ne_nil _ _

/-- Three flows with priority 1: the first has no packet, no flow has priority 2, and the index
runs out of the array.  With sizes 1, 2, 3 the two rings that are tried are empty, and the packet
stays where it is. -/
theorem flows2nodes_schedules_fails :
    (flows2nodesSP (onlyLast ![1, 1, 1] ![1, 2, 3]) = none ∧
      flows2nodesPFabric (onlyLast ![1, 1, 1] ![1, 2, 3]) =
        some (onlyLast ![1, 1, 1] ![1, 2, 3])) ∧
    ¬Schedules priorityKey flows2nodesSP (onlyLast ![1, 1, 1] ![1, 2, 3]) ∧
    ¬Schedules sizeKey flows2nodesPFabric (onlyLast ![1, 1, 1] ![1, 2, 3]) := by
  have hsp : flows2nodesSP (onlyLast ![1, 1, 1] ![1, 2, 3]) = none := rfl
  have hpf : flows2nodesPFabric (onlyLast ![1, 1, 1] ![1, 2, 3]) =
      some (onlyLast ![1, 1, 1] ![1, 2, 3]) := rfl
  refine ⟨⟨hsp, hpf⟩, fun h => ?_, fun h => ?_⟩
  · obtain ⟨c', -, -, -, hcall, -⟩ := h.serves 2 (List.cons_ne_nil _ _)
    rw [hsp] at hcall
    exact absurd hcall (by simp)
  · exact absurd (h.empty hpf 2) (List.cons_ne_nil _ _)

end Dpdk

end VPifo
