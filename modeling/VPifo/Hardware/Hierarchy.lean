import VPifo.Hardware.Ideal
import VPifo.Hardware.Pipeline
import VPifo.Hardware.TaskGenerator

/-!
# The two levels are in balance

Every packet is in the scheduler twice: the packet itself in its tree and a token for it
in the root.  The two copies travel separately.  They wait in different FIFOs, are
dispatched in different cycles, and leave at different times: the root gives the token
out first, and only then does a pop for the packet start its way through a FIFO.  This
file shows that the copies are nevertheless in balance in every cycle.

What makes the bookkeeping possible is `Pipeline`: whatever the backlog is, a tree
behaves like the sequential tree on the tasks in the order they entered its FIFO.  So it
is enough to follow the tasks that enter.  For the root these are the arrivals
(`entered_root`).  For a tree `t` they are the packets of `t`, and a pop in each cycle in
which the root gives out a token of `t` (`entered_succ`).

The trees are only used within their bounds (`Scheduled`).  That every task is presented
on the port of its tree is then not an assumption but a consequence (`Scheduled.legal`):
a token the root gives out is one that has been pushed.
-/

namespace VPifo

namespace TaskGenerator

open Cyclic TaskDistribute PifoSramTop

variable {P : GenParams} {pu : PowerUp P.toParams} {xs : ℕ → GenIn P}

/-! ## Arrivals -/

/-- What the inputs of a cycle ask of the root; the push goes first. -/
def arrival (x : GenIn P) : List (Task P.toWidths) :=
  (if x.iPush then [.push (token x)] else []) ++ (if x.iPop then [.pop] else [])

/-- What has been asked of the root before cycle `c`, in arrival order. -/
def arrivals (xs : ℕ → GenIn P) : ℕ → List (Task P.toWidths)
  | 0 => []
  | c + 1 => arrivals xs c ++ arrival (xs c)

/-- The tasks of the root that enter are the arrivals. -/
theorem entered_root (pu : PowerUp P.toParams) (xs : ℕ → GenIn P) (c : ℕ) :
    entered (engineIns pu xs) 0 c = arrivals xs c := by
  induction c with
  | zero => rfl
  | succ c ih =>
    have htasks : ofTree 0 (engineIns pu xs c 0).tasks = arrival (xs c) := by
      rw [engineIns, ports, Entry.tasks, arrival, ofTree_append]
      cases (xs c).iPush <;> cases (xs c).iPop <;> rfl
    rw [arrivals, ← ih, entered, presented, ofTree_append, Nat.zero_mod, htasks, entered,
      Nat.zero_mod]

theorem mem_pushed_arrivals {c : ℕ} {v : Val P.toWidths} (h : v ∈ pushed (arrivals xs c)) :
    ∃ k < c, (xs k).iPush = true ∧ v = token (xs k) := by
  induction c with
  | zero => exact absurd h (by simp [arrivals])
  | succ c ih =>
    rw [arrivals, pushed_append, List.mem_append] at h
    rcases h with h | h
    · obtain ⟨k, hk, hkv⟩ := ih h
      exact ⟨k, Nat.lt_succ_of_lt hk, hkv⟩
    · refine ⟨c, Nat.lt_succ_self c, ?_⟩
      cases hpush : (xs c).iPush <;> cases hpop : (xs c).iPop <;>
        simp [arrival, hpush, hpop, pushed] at h
      · exact ⟨rfl, h⟩
      · exact ⟨rfl, h⟩

/-! ## Runs within the bounds -/

/-- A run up to cycle `c` in which the root is never pushed a packet, pops never outnumber
pushes in arrival order, no FIFO overflows and no tree is overloaded. -/
structure Admitted (pu : PowerUp P.toParams) (xs : ℕ → GenIn P) (c : ℕ) : Prop where
  three_le_LEVEL : 3 ≤ P.LEVEL
  TREE_NUM_le : P.TREE_NUM ≤ P.LEVEL
  id_ne : ∀ k < c, (xs k).iPush = true → (xs k).iPushTreeId.toNat ≠ 0
  balanced : Balanced (arrivals xs c)
  noOverflow : NoOverflowBefore pu (engineIns pu xs) c
  load_le : ∀ t < P.TREE_NUM, ∀ pre, pre <+: entered (engineIns pu xs) t c →
    load pre ≤ capacity P.order P.LEVEL
  counters : ∀ t < P.TREE_NUM, ∀ pre, pre <+: entered (engineIns pu xs) t c → ∀ k,
    slotCount (seqMem P.LEVEL P.order pre) P.LEVEL 0 0 k < 2 ^ P.CTW

/-- Moreover, the packets are for trees that exist, and no priority is the one that stands
for an empty slot. -/
structure Scheduled (pu : PowerUp P.toParams) (xs : ℕ → GenIn P) (c : ℕ) : Prop
    extends Admitted pu xs c where
  id_lt : ∀ k < c, (xs k).iPush = true → (xs k).iPushTreeId.toNat < P.TREE_NUM
  prio : ∀ k < c, (xs k).iPush = true →
    (xs k).iPushPriority ≠ BitVec.allOnes _ ∧ ¬(xs k).iPushData.IsEmpty

/-- A push that enters a tree carries a token or a packet. -/
theorem push_mem_entered {c t : ℕ} {v : Val P.toWidths}
    (h : Task.push v ∈ entered (engineIns pu xs) t c) :
    ∃ k < c, (xs k).iPush = true ∧ (v = token (xs k) ∨ v = (xs k).iPushData) := by
  rw [entered, ofTree, List.mem_map] at h
  obtain ⟨y, hy, hv⟩ := h
  obtain ⟨k, hk, hyk⟩ := mem_presented (List.mem_filter.mp hy).1
  refine ⟨k, hk, ?_⟩
  rw [Entry.tasks, List.mem_append] at hyk
  rcases hyk with hyk | hyk
  · split at hyk
    · next hbit =>
      rw [List.mem_singleton] at hyk
      rw [hyk] at hv
      rw [← Task.push.inj hv]
      cases hi : t % P.LEVEL with
      | zero =>
        rw [hi] at hbit
        have hx : (xs k).iPush = true := hbit
        exact ⟨hx, .inl (if_pos hx)⟩
      | succ i =>
        rw [hi, engineIns, ports] at hbit
        dsimp only at hbit
        split at hbit
        · next hrpu => exact ⟨hbit, .inr (if_pos ⟨hrpu, hbit⟩)⟩
        · exact absurd hbit (by simp)
    · exact absurd hyk (by simp)
  · split at hyk
    · rw [List.mem_singleton] at hyk
      rw [hyk] at hv
      exact absurd hv (by simp)
    · exact absurd hyk (by simp)

theorem Scheduled.fits {c t : ℕ} (h : Scheduled pu xs c) (ht : t < P.TREE_NUM) :
    Fits P.order P.LEVEL (entered (engineIns pu xs) t c) where
  prio v hv := by
    obtain ⟨k, hk, hpush, rfl | rfl⟩ := push_mem_entered hv
    · exact (h.prio k hk hpush).1
    · exact (h.prio k hk hpush).2
  load_le := h.load_le t ht
  counters := h.counters t ht

theorem arrivals_isPrefix (xs : ℕ → GenIn P) {c c' : ℕ} (h : c' ≤ c) :
    arrivals xs c' <+: arrivals xs c := by
  induction c, h using Nat.le_induction with
  | base => exact List.prefix_refl _
  | succ c _ ih => exact ih.trans (List.prefix_append _ _)

theorem entered_isPrefix (ins : ℕ → ℕ → Entry P.toWidths) (t : ℕ) {c c' : ℕ} (h : c' ≤ c) :
    entered (P := P.toParams) ins t c' <+: entered (P := P.toParams) ins t c := by
  induction c, h using Nat.le_induction with
  | base => exact List.prefix_refl _
  | succ c _ ih =>
    refine ih.trans ?_
    rw [entered, entered, presented, ofTree_append]
    exact List.prefix_append _ _

theorem Scheduled.mono {c c' : ℕ} (h : Scheduled pu xs c) (hc : c' ≤ c) : Scheduled pu xs c' where
  three_le_LEVEL := h.three_le_LEVEL
  TREE_NUM_le := h.TREE_NUM_le
  id_ne k hk := h.id_ne k (lt_of_lt_of_le hk hc)
  balanced := h.balanced.of_isPrefix (arrivals_isPrefix xs hc)
  noOverflow k hk := h.noOverflow k (lt_of_lt_of_le hk hc)
  load_le t ht pre hpre := h.load_le t ht pre (hpre.trans (entered_isPrefix _ t hc))
  counters t ht pre hpre := h.counters t ht pre (hpre.trans (entered_isPrefix _ t hc))
  id_lt k hk := h.id_lt k (lt_of_lt_of_le hk hc)
  prio k hk := h.prio k (lt_of_lt_of_le hk hc)

theorem zero_lt_TREE_NUM (P : Params) : 0 < P.TREE_NUM :=
  lt_of_lt_of_le Nat.zero_lt_two P.two_le_TREE_NUM

/-- A level-0 pop of RPU `i` is a pop of tree `i`, and answers as the sequential tree
does. -/
theorem Admitted.level0Pop {c i : ℕ} (h : Admitted pu xs c)
    (hlegal : Legal pu (engineIns pu xs) c) (hi : i < P.LEVEL)
    (hpop : (run pu xs c).oIsLevel0Pop i = true) :
    i < P.TREE_NUM ∧ (run pu xs c).oTreeId i = i ∧
      ∃ ts, ts ++ [.pop] <+: entered (engineIns pu xs) i c ∧
        (run pu xs c).oPopData i = seqPopData P.LEVEL (seqMem P.LEVEL P.order ts) := by
  rw [run_eq_engine] at hpop ⊢
  cases c with
  | zero => exact absurd hpop (by simp [PifoSramTop.run, PifoSramTop.reset,
      PifoSramTop.oIsLevel0Pop, PifoSram.oIsLevel0Pop, PifoSram.Regs.idle])
  | succ c =>
    obtain ⟨htree, hmod, htask⟩ := taskAt_of_level0Pop h.three_le_LEVEL hlegal hi hpop
    have hself : (PifoSramTop.run pu (engineIns pu xs) (c + 1)).oTreeId i = i := by
      rwa [Nat.mod_eq_of_lt (lt_of_lt_of_le htree h.TREE_NUM_le)] at hmod
    rw [hself] at htree htask
    have hdata := (output_of_taskAt h.three_le_LEVEL hlegal htree htask).2.2
    rw [Nat.mod_eq_of_lt hi] at hdata
    have hsucc := started_succ pu (engineIns pu xs) i c
    rw [htask, Option.toList_some] at hsucc
    refine ⟨htree, hself, started pu (engineIns pu xs) i c, ?_, hdata⟩
    rw [← hsucc]
    exact (started_isPrefix _ _).trans (started_prefix_entered hlegal.noOverflow i)

/-- **A token the root gives out has been pushed.** -/
theorem Scheduled.token_of_level0Pop {c : ℕ} (h : Scheduled pu xs c)
    (hlegal : Legal pu (engineIns pu xs) c) (hpop : (run pu xs c).oIsLevel0Pop 0 = true) :
    ∃ k < c, (xs k).iPush = true ∧ (run pu xs c).oPopData 0 = token (xs k) := by
  obtain ⟨hzero, -, ts, hpre, hdata⟩ := h.level0Pop hlegal P.LEVEL_pos hpop
  have hfits := (h.fits hzero).of_isPrefix ((List.prefix_append _ _).trans hpre)
  rw [entered_root] at hpre
  have hbal := h.balanced.of_isPrefix hpre
  have hmem := hfits.popData_mem_pushed hbal
  rw [hdata]
  refine mem_pushed_arrivals ?_
  rw [mem_pushed] at hmem ⊢
  exact ((List.prefix_append _ _).trans hpre).subset hmem

theorem Scheduled.popTreeId_lt {c : ℕ} (h : Scheduled pu xs c)
    (hlegal : Legal pu (engineIns pu xs) c) : popTreeId (run pu xs c) < P.TREE_NUM := by
  unfold popTreeId
  split
  · next hpop =>
    obtain ⟨k, hk, hpush, hdata⟩ := h.token_of_level0Pop hlegal hpop
    rw [hdata, tokenTree_token]
    exact h.id_lt k hk hpush
  · exact zero_lt_TREE_NUM _

theorem ported_ports {S : PifoSramTop P.toParams} {x : GenIn P} (hTL : P.TREE_NUM ≤ P.LEVEL)
    (hid : x.iPush = true → x.iPushTreeId.toNat < P.TREE_NUM) (hpop : popTreeId S < P.TREE_NUM)
    (i : ℕ) : Ported P.toParams i (ports S x i) := by
  have hpushRpu : x.iPush = true → pushRpuId x = x.iPushTreeId.toNat :=
    fun h => Nat.mod_eq_of_lt (lt_of_lt_of_le (hid h) hTL)
  have hpopRpu : popRpuId S = popTreeId S := Nat.mod_eq_of_lt (lt_of_lt_of_le hpop hTL)
  intro y hy
  cases i with
  | zero =>
    rw [ports, Entry.tasks] at hy
    have hzero : y.1 = 0 := by
      cases hx : x.iPush <;> cases hp : x.iPop <;> simp [hx, hp] at hy
      · rw [hy]
      · rw [hy]
      · rcases hy with rfl | rfl <;> rfl
    rw [hzero]
    exact ⟨zero_lt_TREE_NUM _, Nat.zero_mod _⟩
  | succ i =>
    rw [ports, Entry.tasks, List.mem_append] at hy
    dsimp only at hy
    rcases hy with hy | hy
    · by_cases hi : i + 1 = pushRpuId x
      · cases hx : x.iPush with
        | false => simp [hi, hx] at hy
        | true =>
          simp only [hi, hx, if_true, List.mem_singleton] at hy
          rw [hy, hi]
          exact ⟨hid hx, rfl⟩
      · simp [hi] at hy
    · by_cases hi : i + 1 = popRpuId S
      · simp only [hi, decide_true, if_true, List.mem_singleton] at hy
        rw [hy, hi]
        exact ⟨hpop, rfl⟩
      · simp [hi] at hy

/-- **Every task is presented on the port of its tree.** -/
theorem Scheduled.legal {c : ℕ} (h : Scheduled pu xs c) : Legal pu (engineIns pu xs) c := by
  induction c with
  | zero => exact ⟨fun k hk => absurd hk (Nat.not_lt_zero k), h.noOverflow⟩
  | succ c ih =>
    have hlegal := ih (h.mono (Nat.le_succ c))
    refine ⟨fun k hk i hi => ?_, h.noOverflow⟩
    rcases Nat.lt_succ_iff_lt_or_eq.mp hk with hk | rfl
    · exact hlegal.ported k hk i hi
    · exact ported_ports h.TREE_NUM_le (h.id_lt k (Nat.lt_succ_self k))
        ((h.mono (Nat.le_succ k)).popTreeId_lt hlegal) i

/-! ## The tasks of a sub-tree -/

/-- The packet of a cycle, if it is for tree `t`. -/
def packet (t : ℕ) (x : GenIn P) : List (Task P.toWidths) :=
  if x.iPush = true ∧ x.iPushTreeId.toNat = t then [.push x.iPushData] else []

/-- The pop of tree `t`, if the root gives out one of its tokens. -/
def release (t : ℕ) (S : PifoSramTop P.toParams) : List (Task P.toWidths) :=
  if popTreeId S = t then [.pop] else []

theorem ofTree_ports {S : PifoSramTop P.toParams} {x : GenIn P} {t : ℕ} (h0 : t ≠ 0)
    (hid : x.iPush = true → x.iPushTreeId.toNat < P.LEVEL) (hpop : popTreeId S < P.LEVEL) :
    ofTree t (ports S x t).tasks = packet t x ++ release t S := by
  have hpushRpu : x.iPush = true → pushRpuId x = x.iPushTreeId.toNat :=
    fun h => Nat.mod_eq_of_lt (hid h)
  have hpopRpu : popRpuId S = popTreeId S := Nat.mod_eq_of_lt hpop
  obtain ⟨i, rfl⟩ : ∃ i, t = i + 1 := ⟨t - 1, by omega⟩
  rw [ports, Entry.tasks, ofTree_append]
  congr 1
  · rw [packet]
    cases hx : x.iPush with
    | false => simp
    | true =>
      rw [hpushRpu hx]
      by_cases hi : i + 1 = x.iPushTreeId.toNat
      · simp [hi, ofTree]
      · simp [hi, Ne.symm hi]
  · rw [release, hpopRpu]
    by_cases hi : i + 1 = popTreeId S
    · simp [hi, ofTree]
    · simp [hi, Ne.symm hi]

/-- **What enters a sub-tree**: its packets, and a pop for each of its tokens the root
gives out. -/
theorem Scheduled.entered_succ {c t : ℕ} (h : Scheduled pu xs (c + 1)) (h0 : t ≠ 0)
    (ht : t < P.TREE_NUM) :
    entered (engineIns pu xs) t (c + 1) =
      entered (engineIns pu xs) t c ++ (packet t (xs c) ++ release t (run pu xs c)) := by
  have hlt : ∀ {n}, n < P.TREE_NUM → n < P.LEVEL := fun hn => lt_of_lt_of_le hn h.TREE_NUM_le
  have hprev := h.mono (Nat.le_succ c)
  rw [entered, presented, ofTree_append, entered, Nat.mod_eq_of_lt (hlt ht)]
  congr 1
  exact ofTree_ports h0 (fun hx => hlt (h.id_lt c (Nat.lt_succ_self c) hx))
    (hlt (hprev.popTreeId_lt hprev.legal))

/-- What the root gives out, cycle by cycle. -/
theorem Scheduled.emitted_succ {c : ℕ} (h : Scheduled pu xs c) :
    popOutputs pu (engineIns pu xs) 0 (c + 1) = popOutputs pu (engineIns pu xs) 0 c ++
      if (run pu xs c).oIsLevel0Pop 0 = true then [(run pu xs c).oPopData 0] else [] := by
  rw [popOutputs, Nat.zero_mod, ← run_eq_engine]
  congr 1
  by_cases hpop : (run pu xs c).oIsLevel0Pop 0 = true
  · have htree := (h.level0Pop h.legal P.LEVEL_pos hpop).2.1
    rw [if_pos ⟨hpop, htree⟩, if_pos hpop]
  · rw [if_neg fun hh => hpop hh.1, if_neg hpop]

/-! ## Counting -/

/-- The tokens of tree `t` in a collection of values. -/
def tokens (P : GenParams) (t : ℕ) (s : Multiset (Val P.toWidths)) : ℕ :=
  s.countP fun v => tokenTree v = t

theorem tokens_add (t : ℕ) (r s : Multiset (Val P.toWidths)) :
    tokens P t (r + s) = tokens P t r + tokens P t s := Multiset.countP_add _ _ _

theorem tokens_append (t : ℕ) (us vs : List (Val P.toWidths)) :
    tokens P t (us ++ vs : List (Val P.toWidths)) = tokens P t us + tokens P t vs := by
  rw [← Multiset.coe_add, tokens_add]

theorem tokens_singleton (t : ℕ) (v : Val P.toWidths) :
    tokens P t ([v] : List (Val P.toWidths)) = if tokenTree v = t then 1 else 0 := by
  rw [tokens, Multiset.coe_countP, List.countP_singleton]
  simp

theorem tokens_mono {t : ℕ} {us vs : List (Val P.toWidths)} (h : us <+: vs) :
    tokens P t us ≤ tokens P t vs := by
  obtain ⟨ws, rfl⟩ := h
  rw [tokens_append]
  exact Nat.le_add_right _ _

theorem pushed_isPrefix {W : Widths} {ts us : List (Task W)} (h : ts <+: us) :
    pushed ts <+: pushed us := by
  obtain ⟨vs, rfl⟩ := h
  rw [pushed_append]
  exact List.prefix_append _ _

theorem pushed_packet (t : ℕ) (x : GenIn P) :
    (pushed (packet t x)).length = tokens P t (pushed (arrival x)) := by
  cases hx : x.iPush with
  | false => cases hp : x.iPop <;> simp [packet, arrival, hx, hp, tokens]
  | true =>
    have harrival : pushed (arrival x) = [token x] := by
      cases hp : x.iPop <;> simp [arrival, hx, hp, pushed]
    rw [harrival, tokens_singleton, tokenTree_token]
    by_cases hid : x.iPushTreeId.toNat = t <;> simp [packet, hx, hid]

theorem pops_packet (t : ℕ) (x : GenIn P) : pops (packet t x) = 0 := by
  rw [packet]
  split <;> simp

theorem pushed_release (t : ℕ) (S : PifoSramTop P.toParams) : pushed (release t S) = [] := by
  rw [release]
  split <;> simp

/-- A pop of a sub-tree is released by a token of the tree. -/
theorem Scheduled.pops_release {c t : ℕ} (h0 : t ≠ 0) : pops (release t (run pu xs c)) =
    tokens P t (if (run pu xs c).oIsLevel0Pop 0 = true then [(run pu xs c).oPopData 0]
      else [] : List (Val P.toWidths)) := by
  rw [release, popTreeId]
  by_cases hpop : (run pu xs c).oIsLevel0Pop 0 = true
  · rw [if_pos hpop, if_pos hpop, tokens_singleton]
    by_cases ht : tokenTree ((run pu xs c).oPopData 0) = t <;> simp [ht]
  · rw [if_neg hpop, if_neg hpop, if_neg (Ne.symm h0)]
    rfl

/-- **One packet for every token.** -/
theorem Scheduled.pushed_entered {c t : ℕ} (h : Scheduled pu xs c) (h0 : t ≠ 0)
    (ht : t < P.TREE_NUM) :
    (pushed (entered (engineIns pu xs) t c)).length = tokens P t (pushed (arrivals xs c)) := by
  induction c with
  | zero => rfl
  | succ c ih =>
    rw [h.entered_succ h0 ht, arrivals, pushed_append, pushed_append, pushed_append, tokens_append,
      List.length_append, List.length_append, ih (h.mono (Nat.le_succ c)), pushed_packet,
      pushed_release, List.length_nil, Nat.add_zero]

/-- **One pop for every token the root gives out.** -/
theorem Scheduled.pops_entered {c t : ℕ} (h : Scheduled pu xs c) (h0 : t ≠ 0)
    (ht : t < P.TREE_NUM) :
    pops (entered (engineIns pu xs) t c) = tokens P t (popOutputs pu (engineIns pu xs) 0 c) := by
  induction c with
  | zero => rfl
  | succ c ih =>
    have hprev := h.mono (Nat.le_succ c)
    rw [h.entered_succ h0 ht, hprev.emitted_succ, pops_append, pops_append, tokens_append,
      ih hprev, pops_packet, Scheduled.pops_release h0, Nat.zero_add]

/-! ## What has been done, and what is on its way -/

section State

variable (pu xs)

/-- The tasks of tree `t` that have passed the root node of the tree. -/
def executed (t c : ℕ) : List (Task P.toWidths) := started pu (engineIns pu xs) t (c - 1)

/-- The tasks of tree `t` that have not: those announced in the last two cycles, and
those that wait in the task head and in the FIFO. -/
def inFlight (t c : ℕ) : List (Task P.toWidths) :=
  (started pu (engineIns pu xs) t (c + 1)).drop (executed pu xs t c).length ++
    (run pu xs c).waiting t

/-- The elements of tree `t`. -/
def elements (t c : ℕ) : Multiset (Val P.toWidths) :=
  stored P.LEVEL (seqMem P.LEVEL P.order (executed pu xs t c))

end State

theorem executed_prefix_started (t c : ℕ) :
    executed pu xs t c <+: started pu (engineIns pu xs) t (c + 1) := by
  rw [executed]
  cases c with
  | zero => exact started_isPrefix _ _
  | succ c => exact (started_isPrefix _ _).trans (started_isPrefix _ _)

theorem Scheduled.executed_append_inFlight {c : ℕ} (h : Scheduled pu xs c) (t : ℕ) :
    executed pu xs t c ++ inFlight pu xs t c = entered (engineIns pu xs) t c := by
  rw [inFlight, ← List.append_assoc, List.prefix_iff_eq_append.mp (executed_prefix_started t c),
    run_eq_engine]
  exact started_append_waiting h.noOverflow t

theorem Scheduled.executed_isPrefix {c : ℕ} (h : Scheduled pu xs c) (t : ℕ) :
    executed pu xs t c <+: entered (engineIns pu xs) t c := ⟨_, h.executed_append_inFlight t⟩

theorem Scheduled.popOutputs_executed {c t : ℕ} (h : Scheduled pu xs c) (ht : t < P.TREE_NUM) :
    popOutputs pu (engineIns pu xs) t c = seqOutputs P.LEVEL P.order (executed pu xs t c) := by
  cases c with
  | zero => rfl
  | succ c => exact popOutputs_eq h.three_le_LEVEL ht (h.mono (Nat.le_succ c)).legal

theorem Scheduled.fits_executed {c t : ℕ} (h : Scheduled pu xs c) (ht : t < P.TREE_NUM) :
    Fits P.order P.LEVEL (executed pu xs t c) := (h.fits ht).of_isPrefix (h.executed_isPrefix t)

/-- What was pushed into a tree is in it or has come out. -/
theorem Scheduled.pushed_executed {c t : ℕ} (h : Scheduled pu xs c) (ht : t < P.TREE_NUM)
    (hbal : Balanced (entered (engineIns pu xs) t c)) :
    (pushed (executed pu xs t c) : Multiset (Val P.toWidths)) =
      elements pu xs t c + popOutputs pu (engineIns pu xs) t c := by
  rw [h.popOutputs_executed ht]
  exact (h.fits_executed ht).pushed_eq (hbal.of_isPrefix (h.executed_isPrefix t))

/-- The tokens the root holds and those it has given out are those that were pushed. -/
theorem Scheduled.tokens_root {c : ℕ} (h : Scheduled pu xs c) (t : ℕ) :
    tokens P t (pushed (executed pu xs 0 c)) =
      tokens P t (elements pu xs 0 c) + tokens P t (popOutputs pu (engineIns pu xs) 0 c) := by
  have hbal : Balanced (entered (engineIns pu xs) 0 c) := by
    rw [entered_root]
    exact h.balanced
  rw [h.pushed_executed (zero_lt_TREE_NUM _) hbal, tokens_add]

/-- **Pops of a sub-tree never outnumber its packets.** -/
theorem Scheduled.balanced_entered {c t : ℕ} (h : Scheduled pu xs c) (ht : t < P.TREE_NUM) :
    Balanced (entered (engineIns pu xs) t c) := by
  by_cases h0 : t = 0
  · rw [h0, entered_root]
    exact h.balanced
  induction c with
  | zero => exact balanced_nil
  | succ c ih =>
    have hprev := h.mono (Nat.le_succ c)
    have hold := ih hprev
    have hmid : Balanced (entered (engineIns pu xs) t c ++ packet t (xs c)) := by
      rw [packet]
      split
      · exact hold.push _
      · rwa [List.append_nil]
    rw [h.entered_succ h0 ht, ← List.append_assoc, release]
    split
    · next hrel =>
      refine hmid.pop ?_
      have hpops := h.pops_entered h0 ht
      have hone : pops (release t (run pu xs c)) = 1 := by rw [release, if_pos hrel, pops_pop]
      rw [h.entered_succ h0 ht, pops_append, pops_append, pops_packet, hone] at hpops
      -- the token given out now was pushed before, and so was its packet
      have htok : tokens P t (popOutputs pu (engineIns pu xs) 0 (c + 1)) ≤
          tokens P t (pushed (arrivals xs c)) := by
        have hroot := h.tokens_root t
        have hpre : executed pu xs 0 (c + 1) <+: arrivals xs c := by
          rw [← entered_root pu]
          exact (started_isPrefix _ _).trans (started_prefix_entered hprev.noOverflow 0)
        have hmono : tokens P t (pushed (executed pu xs 0 (c + 1))) ≤
            tokens P t (pushed (arrivals xs c)) :=
          tokens_mono (pushed_isPrefix hpre)
        omega
      rw [← hprev.pushed_entered h0 ht] at htok
      rw [pops_append, pops_packet, pushed_append, List.length_append]
      omega
    · rwa [List.append_nil]

/-- No pop finds its tree empty. -/
theorem Scheduled.pop_finds {c t : ℕ} (h : Scheduled pu xs c) (ht : t < P.TREE_NUM)
    {ts : List (Task P.toWidths)} (hpre : ts ++ [.pop] <+: entered (engineIns pu xs) t c) :
    stored P.LEVEL (seqMem P.LEVEL P.order ts) ≠ 0 :=
  stored_ne_zero ((h.fits ht).of_isPrefix ((List.prefix_append _ _).trans hpre))
    ((h.balanced_entered ht).of_isPrefix hpre)

/-- **Conservation.** -/
theorem Scheduled.conserved {c t : ℕ} (h : Scheduled pu xs c) (h0 : t ≠ 0) (ht : t < P.TREE_NUM) :
    (elements pu xs t c).card + (pushed (inFlight pu xs t c)).length =
      tokens P t (elements pu xs 0 c) + tokens P t (pushed (inFlight pu xs 0 c)) +
        pops (inFlight pu xs t c) := by
  have hroot := h.tokens_root t
  have hpops := h.pops_entered h0 ht
  have hpushes := h.pushed_entered h0 ht
  rw [← entered_root pu, ← h.executed_append_inFlight t, ← h.executed_append_inFlight 0,
    pushed_append, pushed_append, tokens_append, List.length_append] at hpushes
  rw [← h.executed_append_inFlight t, pops_append] at hpops
  have hload := ((h.balanced_entered ht).of_isPrefix (h.executed_isPrefix t)).load_eq
  have hcard : (elements pu xs t c).card = load (executed pu xs t c) :=
    (h.fits_executed ht).treeInv.2
  omega

/-- What comes out of a tree is never empty. -/
theorem Scheduled.popData_not_isEmpty {c i : ℕ} (h : Scheduled pu xs c) (hi : i < P.LEVEL)
    (hpop : (run pu xs c).oIsLevel0Pop i = true) : ¬((run pu xs c).oPopData i).IsEmpty := by
  obtain ⟨hlt, -, ts, hpre, hdata⟩ := h.level0Pop h.legal hi hpop
  have hfits := (h.fits hlt).of_isPrefix ((List.prefix_append _ _).trans hpre)
  rw [hdata]
  exact hfits.prio _
    (mem_pushed.mp (hfits.popData_mem_pushed ((h.balanced_entered hlt).of_isPrefix hpre)))

/-- The counters of a tree's root node say how many elements the tree holds.  During a
write-back the node is about to be written again. -/
theorem Scheduled.sum_counters {c t : ℕ} (h : Scheduled pu xs c) (ht : t < P.TREE_NUM)
    (hfsm : ((run pu xs c).pifo t).fsm ≠ .wb) :
    ∑ k, (((run pu xs c).sram t).ram (PifoSram.readAddr P.toParams t 0 0) k).subTreeSize.toNat =
      (elements pu xs t c).card := by
  have hbank : PifoSram.bank P.toParams t 0 = t := by
    rw [bank_zero, Nat.mod_eq_of_lt (lt_of_lt_of_le ht h.TREE_NUM_le)]
  have hholds := holds_run h.three_le_LEVEL h.legal
  rw [run_eq_engine] at hfsm ⊢
  have hword := hholds.ram t 0 0 ⟨ht, P.LEVEL_pos, by simp⟩
    (hholds.settled ht P.LEVEL_pos 0 (by rwa [hbank]))
  rw [hbank] at hword
  obtain ⟨n, hn⟩ : ∃ n, P.LEVEL = n + 1 := ⟨P.LEVEL - 1, by have := P.LEVEL_pos; omega⟩
  have hsound := (h.fits_executed ht).treeInv.1.sound
  rw [hword, elements, stored, hn, card_elems_succ]
  rw [hn] at hsound
  exact Finset.sum_congr rfl fun k _ => by rw [memAt, hn]; exact (hsound k).1

/-- **The two levels are in balance.**  Take any parameters with at least three levels and
no more trees than levels, and any inputs up to cycle `c` that use the trees within their
bounds.  For every sub-tree, its elements and the packets on their way to it, less the
pops on their way to it, are as many as its tokens in the root and on their way to the
root.  No pop, of the root or of a sub-tree, finds its tree empty; each token of the
sub-tree the root has given out has made one pop for it; and what has been pushed into a
tree is what the tree holds together with what it has given out, so that no packet comes
out twice.  The elements are those the counters in the SRAM count. -/
theorem hierarchy_conservation (P : GenParams) (pu : PowerUp P.toParams) (xs : ℕ → GenIn P)
    (c : ℕ) (h : Scheduled pu xs c) :
    (∀ t < P.TREE_NUM, executed pu xs t c ++ inFlight pu xs t c = entered (engineIns pu xs) t c) ∧
    (∀ t < P.TREE_NUM, t ≠ 0 →
      (elements pu xs t c).card + (pushed (inFlight pu xs t c)).length =
        tokens P t (elements pu xs 0 c) + tokens P t (pushed (inFlight pu xs 0 c)) +
          pops (inFlight pu xs t c)) ∧
    (∀ t < P.TREE_NUM, ∀ ts, ts ++ [.pop] <+: entered (engineIns pu xs) t c →
      stored P.LEVEL (seqMem P.LEVEL P.order ts) ≠ 0) ∧
    (∀ i < P.LEVEL, (run pu xs c).oIsLevel0Pop i = true → ¬((run pu xs c).oPopData i).IsEmpty) ∧
    (∀ t < P.TREE_NUM, t ≠ 0 →
      pops (entered (engineIns pu xs) t c) = tokens P t (popOutputs pu (engineIns pu xs) 0 c)) ∧
    (∀ t < P.TREE_NUM, (pushed (executed pu xs t c) : Multiset (Val P.toWidths)) =
      elements pu xs t c + popOutputs pu (engineIns pu xs) t c) ∧
    (∀ t < P.TREE_NUM, ((run pu xs c).pifo t).fsm ≠ .wb →
      ∑ k, (((run pu xs c).sram t).ram (PifoSram.readAddr P.toParams t 0 0) k).subTreeSize.toNat =
        (elements pu xs t c).card) :=
  ⟨fun t _ => h.executed_append_inFlight t, fun _ ht h0 => h.conserved h0 ht,
    fun _ ht _ hpre => h.pop_finds ht hpre, fun _ hi hpop => h.popData_not_isEmpty hi hpop,
    fun _ ht h0 => h.pops_entered h0 ht, fun _ ht => h.pushed_executed ht (h.balanced_entered ht),
    fun _ ht hfsm => h.sum_counters ht hfsm⟩

/-- Three levels and three trees of two-slot nodes. -/
def small : GenParams where
  PTW := 4
  MTW := 2
  CTW := 4
  order := .two
  arbiter := .vPIFO
  LEVEL := 3
  TREE_NUM := 3
  FIFO_WIDTH := 2
  two_le_LEVEL := PifoSramTop.threeLevels.two_le_LEVEL
  two_le_TREE_NUM := PifoSramTop.threeLevels.two_le_TREE_NUM
  one_le_FIFO_WIDTH := Nat.two_pos
  treeNumBits_le_MTW := by decide

/-- No input. -/
def noInput : GenIn small := ⟨false, 0, 0, Val.zero, false⟩

/-- The counters of `small` are wide enough for every tree. -/
theorem slotCount_small (m : Mem small.order small.toWidths) (k : Fin small.order.D) :
    slotCount m small.LEVEL 0 0 k < 2 ^ small.CTW :=
  lt_of_le_of_lt (slotCount_le m 2 0 0 k) (by decide)

/-- Packets for both sub-trees, and two pops. -/
def twoPackets (c : ℕ) : GenIn small :=
  if c = 0 then ⟨true, 1, 5, ⟨1, 4⟩, false⟩
  else if c = 1 then ⟨true, 2, 3, ⟨2, 7⟩, true⟩
  else if c = 4 then ⟨false, 0, 0, Val.zero, true⟩
  else noInput

theorem scheduled_twoPackets : Scheduled (PowerUp.blank small.toParams) twoPackets 21 where
  three_le_LEVEL := by decide
  TREE_NUM_le := by decide
  id_ne := by decide +kernel
  balanced := by decide +kernel
  noOverflow := by decide +kernel
  load_le := by decide +kernel
  counters _ _ _ _ k := slotCount_small _ k
  id_lt := by decide +kernel
  prio := by decide +kernel

theorem hierarchy_conservation_twoPackets :
    popOutputs (PowerUp.blank small.toParams)
        (engineIns (PowerUp.blank small.toParams) twoPackets) 0 21 = [⟨2, 3⟩, ⟨1, 5⟩] ∧
      pops (entered (engineIns (PowerUp.blank small.toParams) twoPackets) 1 21) =
        tokens small 1 (popOutputs (PowerUp.blank small.toParams)
          (engineIns (PowerUp.blank small.toParams) twoPackets) 0 21) :=
  ⟨by decide +kernel, (hierarchy_conservation small _ twoPackets 21
    scheduled_twoPackets).2.2.2.2.1 1 (by decide) (by decide)⟩

/-- Two packets for tree 1 and one for tree 2; the priority of the first token is
all-ones. -/
def onesFirst (c : ℕ) : GenIn small :=
  if c = 0 then ⟨true, 1, 15, ⟨1, 1⟩, false⟩
  else if c = 1 then ⟨true, 2, 5, ⟨2, 2⟩, false⟩
  else if c = 2 then ⟨true, 1, 6, ⟨3, 3⟩, false⟩
  else noInput

/-- One packet for a tree that does not exist, and a pop. -/
def noSuchTree (c : ℕ) : GenIn small :=
  if c = 0 then ⟨true, 3, 5, ⟨0, 1⟩, true⟩ else noInput

theorem admitted_onesFirst : Admitted (PowerUp.blank small.toParams) onesFirst 10 where
  three_le_LEVEL := by decide
  TREE_NUM_le := by decide
  id_ne := by decide +kernel
  balanced := by decide +kernel
  noOverflow := by decide +kernel
  load_le := by decide +kernel
  counters _ _ _ _ k := slotCount_small _ k

theorem admitted_noSuchTree : Admitted (PowerUp.blank small.toParams) noSuchTree 12 where
  three_le_LEVEL := by decide
  TREE_NUM_le := by decide
  id_ne := by decide +kernel
  balanced := by decide +kernel
  noOverflow := by decide +kernel
  load_le := by decide +kernel
  counters _ _ _ _ k := slotCount_small _ k

/-- **Two ways out of balance.**  A token whose priority is all-ones looks like an empty
slot, and a later token overwrites it: with nothing on its way, tree 1 holds two packets
and the root one token of it, and a third pop of the root would find it empty.  And a
token for a tree that does not exist is given out without any pop following it. -/
theorem hierarchy_out_of_balance :
    (Admitted (PowerUp.blank small.toParams) onesFirst 10 ∧
      inFlight (PowerUp.blank small.toParams) onesFirst 0 10 = [] ∧
      inFlight (PowerUp.blank small.toParams) onesFirst 1 10 = [] ∧
      (elements (PowerUp.blank small.toParams) onesFirst 1 10).card = 2 ∧
      tokens small 1 (elements (PowerUp.blank small.toParams) onesFirst 0 10) = 1 ∧
      seqOutputs 3 .two (executed (PowerUp.blank small.toParams) onesFirst 0 10 ++
        [.pop, .pop, .pop]) = [⟨2, 5⟩, ⟨1, 6⟩, Val.ones]) ∧
    (Admitted (PowerUp.blank small.toParams) noSuchTree 12 ∧
      tokens small 3 (popOutputs (PowerUp.blank small.toParams)
        (engineIns (PowerUp.blank small.toParams) noSuchTree) 0 12) = 1 ∧
      ∀ i < 3, i ≠ 0 → presented (P := small.toParams)
        (engineIns (PowerUp.blank small.toParams) noSuchTree) i 12 = []) := by
  have hroot : executed (PowerUp.blank small.toParams) onesFirst 0 10 =
      [.push ⟨1, 15⟩, .push ⟨2, 5⟩, .push ⟨1, 6⟩] := by decide +kernel
  have hsub : executed (PowerUp.blank small.toParams) onesFirst 1 10 =
      [.push ⟨1, 1⟩, .push ⟨3, 3⟩] := by decide +kernel
  refine ⟨⟨admitted_onesFirst, by decide +kernel, by decide +kernel, ?_, ?_, ?_⟩,
    admitted_noSuchTree, by decide +kernel⟩
  · rw [elements, hsub]
    decide +kernel
  · rw [elements, hroot]
    decide +kernel
  · rw [hroot]
    decide +kernel

end TaskGenerator

end VPifo
