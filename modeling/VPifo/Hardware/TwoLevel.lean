import VPifo.Hardware.Hierarchy
import VPifo.Hardware.PifoTree

/-!
# How accurate the two-level scheduler is

An ideal PIFO tree handles a pop atomically: it takes the least token out of the root and
the least packet out of the sub-tree the token names.  The scheduler takes the two halves
apart, since the pop of the sub-tree is made from the token when the root gives it out.
Packets that arrive in between are in the sub-tree by then, and one of them can be the
packet that comes out (`not_accurate`).

So the scheduler is a PIFO tree whose pops are released late, `splitTree`: the root is
popped when the pop arrives, the sub-tree in the cycle in which the root gives the token
out, after the packet of that cycle.  The choice of the sub-trees is the same as that of
the atomic tree in any case, and the packets are the same unless a packet arrives for a
sub-tree while a token of it is under way (`two_level_scheduling`).
-/

namespace VPifo

namespace TaskGenerator

open PifoSramTop PifoTree

variable {P : GenParams} {pu : PowerUp P.toParams} {xs : ℕ → GenIn P}

/-! ## Atomic and split -/

/-- The packet of a cycle. -/
def pushEvent (x : GenIn P) : List (PifoEvent P.toWidths) :=
  if x.iPush then [.push x.iPushTreeId.toNat (token x) x.iPushData] else []

/-- The PIFO tree that handles every push and every pop atomically in arrival order. -/
def atomicTree (xs : ℕ → GenIn P) : ℕ → PifoTree P.toWidths
  | 0 => PifoTree.init
  | c + 1 => PifoTree.run tokenTree (atomicTree xs c)
      (pushEvent (xs c) ++ if (xs c).iPop then [.pop, .release] else [])

/-- The PIFO tree that pops a sub-tree in the cycle in which the root gives out the
token. -/
def splitTree (pu : PowerUp P.toParams) (xs : ℕ → GenIn P) : ℕ → PifoTree P.toWidths
  | 0 => PifoTree.init
  | c + 1 => PifoTree.run tokenTree (splitTree pu xs c)
      (pushEvent (xs c) ++ ((if (xs c).iPop then [.pop] else []) ++
        if (run pu xs c).oIsLevel0Pop 0 then [.release] else []))

/-- The packets that have come out of the sub-trees, in the order of the root pops that
caused them. -/
def poppedPackets (pu : PowerUp P.toParams) (xs : ℕ → GenIn P) (c : ℕ) :
    List (ℕ × Option (Val P.toWidths)) :=
  inOrder ((popOutputs pu (engineIns pu xs) 0 c).map tokenTree)
    fun t => popOutputs pu (engineIns pu xs) t c

/-! ## A PIFO tree and its queues -/

/-- The tree `s` is what its queues are after the tasks `r` of the root and `f t` of
sub-tree `t`. -/
structure Agrees (s : PifoTree P.toWidths) (r : List (Task P.toWidths))
    (f : ℕ → List (Task P.toWidths)) : Prop where
  root : s.root = idealStore r
  chosen : s.packets.map Prod.fst ++ s.chosen = (idealAnswers r).map tokenTree
  sub : ∀ t, t ≠ 0 → t < P.TREE_NUM → s.sub t = idealStore (f t)
  packets : ∀ t, t ≠ 0 → t < P.TREE_NUM → outOf t s.packets = idealAnswers (f t)

theorem agrees_init : Agrees (PifoTree.init : PifoTree P.toWidths) [] fun _ => [] :=
  ⟨rfl, rfl, fun _ _ _ => rfl, fun _ _ _ => rfl⟩

theorem Agrees.push {s : PifoTree P.toWidths} {r : List (Task P.toWidths)}
    {f : ℕ → List (Task P.toWidths)} (h : Agrees s r f) (t : ℕ) (a v : Val P.toWidths) :
    Agrees (step tokenTree s (.push t a v)) (r ++ [.push a])
      fun u => f u ++ if t = u then [.push v] else [] where
  root := by rw [idealStore_append_singleton, ← h.root]; rfl
  chosen := by rw [idealAnswers_push]; exact h.chosen
  sub u h0 hu := by
    by_cases htu : t = u
    · subst htu
      rw [if_pos rfl, idealStore_append_singleton, ← h.sub t h0 hu]
      exact Function.update_self _ _ _
    · rw [if_neg htu, List.append_nil, ← h.sub u h0 hu]
      exact Function.update_of_ne (Ne.symm htu) _ _
  packets u h0 hu := by
    by_cases htu : t = u
    · rw [if_pos htu, idealAnswers_push]
      exact h.packets u h0 hu
    · rw [if_neg htu, List.append_nil]
      exact h.packets u h0 hu

theorem Agrees.pop {s : PifoTree P.toWidths} {r : List (Task P.toWidths)}
    {f : ℕ → List (Task P.toWidths)} (h : Agrees s r f) :
    Agrees (step tokenTree s .pop) (r ++ [.pop]) f where
  root := by rw [idealStore_append_singleton, ← h.root]; rfl
  chosen := by
    rw [idealAnswers_pop, List.map_append, ← h.chosen, ← h.root, List.append_assoc]
    rfl
  sub := h.sub
  packets := h.packets

theorem Agrees.release {s : PifoTree P.toWidths} {r : List (Task P.toWidths)}
    {f : ℕ → List (Task P.toWidths)} (h : Agrees s r f) {t : ℕ} {ts : List ℕ}
    (hchosen : s.chosen = t :: ts) :
    Agrees (step tokenTree s .release) r fun u => f u ++ if t = u then [.pop] else [] := by
  rw [step_release_cons tokenTree hchosen]
  refine ⟨h.root, ?_, fun u h0 hu => ?_, fun u h0 hu => ?_⟩
  · rw [← h.chosen, hchosen, List.map_append, List.append_assoc]
    rfl
  · by_cases htu : t = u
    · subst htu
      rw [if_pos rfl, idealStore_append_singleton, ← h.sub t h0 hu]
      exact Function.update_self _ _ _
    · rw [if_neg htu, List.append_nil, ← h.sub u h0 hu]
      exact Function.update_of_ne (Ne.symm htu) _ _
  · rw [outOf_append, h.packets u h0 hu]
    by_cases htu : t = u
    · subst htu
      rw [if_pos rfl, idealAnswers_pop, ← h.sub t h0 hu]
      exact congrArg _ (outOf_cons_self (t, idealPop (s.sub t)) [])
    · rw [if_neg htu, List.append_nil, outOf_cons_of_ne htu]
      exact List.append_nil _

theorem Agrees.congr {s : PifoTree P.toWidths} {r : List (Task P.toWidths)}
    {f g : ℕ → List (Task P.toWidths)} (h : Agrees s r f)
    (hfg : ∀ t, t ≠ 0 → t < P.TREE_NUM → f t = g t) : Agrees s r g :=
  ⟨h.root, h.chosen, fun t h0 ht => hfg t h0 ht ▸ h.sub t h0 ht,
    fun t h0 ht => hfg t h0 ht ▸ h.packets t h0 ht⟩

/-! ## The split tree is the scheduler -/

section Split

variable {c : ℕ}

/-- The priorities of the values that enter a tree are distinct. -/
def Distinct (pu : PowerUp P.toParams) (xs : ℕ → GenIn P) (c : ℕ) : Prop :=
  ∀ t < P.TREE_NUM, DistinctRanks (entered (engineIns pu xs) t c)

theorem Distinct.mono {c' : ℕ} (h : Distinct pu xs c) (hc : c' ≤ c) : Distinct pu xs c' :=
  fun t ht => (h t ht).of_isPrefix (entered_isPrefix _ t hc)

/-- The trees answer as ideal queues. -/
theorem Scheduled.seqOutputs_entered (h : Scheduled pu xs c) (hd : Distinct pu xs c) {t : ℕ}
    (ht : t < P.TREE_NUM) :
    seqOutputs P.LEVEL P.order (entered (engineIns pu xs) t c) =
      idealAnswers (entered (engineIns pu xs) t c) :=
  (seqOutputs_eq_idealAnswers (h.fits ht) (h.balanced_entered ht) (hd t ht)).2

theorem Scheduled.popOutputs_succ_isPrefix (h : Scheduled pu xs c) (hd : Distinct pu xs c) {t : ℕ}
    (ht : t < P.TREE_NUM) :
    popOutputs pu (engineIns pu xs) t (c + 1) <+: idealAnswers (entered (engineIns pu xs) t c) := by
  rw [popOutputs_eq h.three_le_LEVEL ht h.legal, ← h.seqOutputs_entered hd ht]
  exact seqOutputs_isPrefix ((started_isPrefix t c).trans (started_prefix_entered h.noOverflow t))

theorem Scheduled.popOutputs_isPrefix (h : Scheduled pu xs c) (hd : Distinct pu xs c) {t : ℕ}
    (ht : t < P.TREE_NUM) :
    popOutputs pu (engineIns pu xs) t c <+: idealAnswers (entered (engineIns pu xs) t c) :=
  List.IsPrefix.trans (List.prefix_append _ _) (h.popOutputs_succ_isPrefix hd ht)

theorem idealAnswers_isPrefix {W : Widths} {ts us : List (Task W)} (h : ts <+: us) :
    idealAnswers ts <+: idealAnswers us := by
  obtain ⟨vs, rfl⟩ := h
  rw [idealAnswers, idealAnswers, idealAnswersFrom_append]
  exact List.prefix_append _ _

/-- The arrivals of a cycle. -/
theorem Agrees.arrive {s : PifoTree P.toWidths} {r : List (Task P.toWidths)}
    {f : ℕ → List (Task P.toWidths)} (h : Agrees s r f) (x : GenIn P) :
    Agrees (PifoTree.run tokenTree s (pushEvent x ++ if x.iPop then [.pop] else []))
        (r ++ arrival x) (fun t => f t ++ packet t x) ∧
      (PifoTree.run tokenTree s (pushEvent x ++ if x.iPop then [.pop] else [])).packets =
        s.packets := by
  have hpush : Agrees (PifoTree.run tokenTree s (pushEvent x))
      (r ++ if x.iPush then [.push (token x)] else []) (fun t => f t ++ packet t x) ∧
      (PifoTree.run tokenTree s (pushEvent x)).packets = s.packets := by
    cases hx : x.iPush with
    | false =>
      refine ⟨?_, by simp [pushEvent, hx]⟩
      simpa [pushEvent, packet, hx] using h
    | true =>
      refine ⟨?_, by simp [pushEvent, hx, PifoTree.step]⟩
      have hstep := h.push x.iPushTreeId.toNat (token x) x.iPushData
      simpa [pushEvent, packet, hx] using hstep
  rw [run_append, arrival, ← List.append_assoc]
  cases hp : x.iPop with
  | false => simpa using hpush
  | true => exact ⟨hpush.1.pop, hpush.2⟩

/-- **The split tree follows the scheduler**: its queues have seen the tasks that entered
the hardware trees, and its releases are the tokens the root has given out. -/
theorem Scheduled.agrees (h : Scheduled pu xs c) (hd : Distinct pu xs c) :
    Agrees (splitTree pu xs c) (arrivals xs c) (fun t => entered (engineIns pu xs) t c) ∧
      (splitTree pu xs c).packets.map Prod.fst =
        (popOutputs pu (engineIns pu xs) 0 c).map tokenTree := by
  induction c with
  | zero => exact ⟨agrees_init, rfl⟩
  | succ c ih =>
    have hprev := h.mono (Nat.le_succ c)
    have hdprev := hd.mono (Nat.le_succ c)
    obtain ⟨hag, hrel⟩ := ih hprev hdprev
    obtain ⟨harr, hpackets⟩ := hag.arrive (xs c)
    rw [splitTree, ← List.append_assoc, run_append, hprev.emitted_succ]
    rw [← hpackets] at hrel
    cases hpop : (run pu xs c).oIsLevel0Pop 0 with
    | false =>
      have hid : popTreeId (run pu xs c) = 0 := by simp [popTreeId, hpop]
      refine ⟨harr.congr fun t h0 ht => ?_, by simpa using hrel⟩
      rw [h.entered_succ h0 ht, release, hid, if_neg (Ne.symm h0), List.append_nil]
    | true =>
      have hid : popTreeId (run pu xs c) = tokenTree ((run pu xs c).oPopData 0) := if_pos hpop
      -- the token is the next one the ideal root has answered
      have hnext : [popTreeId (run pu xs c)] <+: (PifoTree.run tokenTree (splitTree pu xs c)
          (pushEvent (xs c) ++ if (xs c).iPop then [.pop] else [])).chosen := by
        have hpre := (hprev.popOutputs_succ_isPrefix hdprev (zero_lt_TREE_NUM _)).map tokenTree
        rw [entered_root, hprev.emitted_succ, if_pos hpop, List.map_append, ← hrel] at hpre
        have hmono := (idealAnswers_isPrefix (arrivals_isPrefix xs (Nat.le_succ c))).map tokenTree
        rw [arrivals, ← harr.chosen] at hmono
        rw [hid]
        exact (List.prefix_append_right_inj _).mp (hpre.trans hmono)
      obtain ⟨ts, hts⟩ := hnext
      have hstep := harr.release hts.symm
      refine ⟨hstep.congr fun t h0 ht => ?_, ?_⟩
      · rw [h.entered_succ h0 ht, List.append_assoc, release]
      · rw [if_pos rfl, if_pos rfl, run_cons, run_nil, step_release_cons tokenTree hts.symm,
          List.map_append, List.map_append, hrel, hid]
        rfl

/-- A token that has come out of the root was pushed. -/
theorem Scheduled.token_of_mem (h : Scheduled pu xs c) {v : Val P.toWidths}
    (hv : v ∈ popOutputs pu (engineIns pu xs) 0 c) :
    ∃ k < c, (xs k).iPush = true ∧ v = token (xs k) := by
  refine mem_pushed_arrivals ?_
  have hmem : v ∈ pushed (executed pu xs 0 c) := by
    rw [← Multiset.mem_coe,
      h.pushed_executed (zero_lt_TREE_NUM _) (h.balanced_entered (zero_lt_TREE_NUM _))]
    exact Multiset.mem_add.mpr (.inr hv)
  rw [mem_pushed] at hmem ⊢
  rw [← entered_root pu]
  exact (h.executed_isPrefix 0).subset hmem

/-- The packets are those of sub-trees. -/
theorem Scheduled.tree_of_packet (h : Scheduled pu xs c) (hd : Distinct pu xs c)
    {p : ℕ × Val P.toWidths} (hp : p ∈ (splitTree pu xs c).packets) :
    p.1 ≠ 0 ∧ p.1 < P.TREE_NUM := by
  have hfst : p.1 ∈ (popOutputs pu (engineIns pu xs) 0 c).map tokenTree := by
    rw [← (h.agrees hd).2]
    exact List.mem_map_of_mem hp
  obtain ⟨v, hv, hvt⟩ := List.mem_map.mp hfst
  obtain ⟨k, hk, hpush, rfl⟩ := h.token_of_mem hv
  rw [← hvt, tokenTree_token]
  exact ⟨h.id_ne k hk hpush, h.id_lt k hk hpush⟩

/-- In a drained engine every answer has come out. -/
theorem Scheduled.popOutputs_of_drained (h : Scheduled pu xs c) (hd : Distinct pu xs c)
    (hdrained : (run pu xs c).Drained) {t : ℕ} (ht : t < P.TREE_NUM) :
    popOutputs pu (engineIns pu xs) t c = idealAnswers (entered (engineIns pu xs) t c) := by
  rw [run_eq_engine] at hdrained
  have hsame : popOutputs pu (engineIns pu xs) t (c + 1) = popOutputs pu (engineIns pu xs) t c := by
    rw [popOutputs, if_neg, List.append_nil]
    rintro ⟨hpop, -⟩
    have hidle := hdrained.idle _ (Nat.mod_lt t P.LEVEL_pos)
    exact absurd hpop (by simp [PifoSramTop.oIsLevel0Pop, PifoSram.oIsLevel0Pop, hidle])
  rw [← hsame, popOutputs_eq h.three_le_LEVEL ht h.legal, started_eq_entered hdrained h.noOverflow,
    h.seqOutputs_entered hd ht]

theorem Scheduled.chosen_of_drained (h : Scheduled pu xs c) (hd : Distinct pu xs c)
    (hdrained : (run pu xs c).Drained) : (splitTree pu xs c).chosen = [] := by
  obtain ⟨hag, hrel⟩ := h.agrees hd
  have hall := hag.chosen
  rw [hrel, h.popOutputs_of_drained hd hdrained (zero_lt_TREE_NUM _), entered_root] at hall
  exact List.append_right_eq_self.mp hall

end Split

/-! ## Split and atomic -/

section Atomic

variable {c : ℕ}

/-- No packet arrives for a sub-tree while a token of it is under way. -/
def NothingOvertakes (pu : PowerUp P.toParams) (xs : ℕ → GenIn P) (c : ℕ) : Prop :=
  ∀ k < c, (xs k).iPush = true → (xs k).iPushTreeId.toNat ∉ (splitTree pu xs k).chosen

/-- **If nothing overtakes, the atomic tree is the split tree with what is due carried
out.** -/
theorem settle_splitTree (h : NothingOvertakes pu xs c) :
    settle tokenTree (splitTree pu xs c) = atomicTree xs c := by
  induction c with
  | zero => rfl
  | succ c ih =>
    have ih' := ih fun k hk => h k (Nat.lt_succ_of_lt hk)
    have hpush : settle tokenTree (PifoTree.run tokenTree (splitTree pu xs c) (pushEvent (xs c))) =
        PifoTree.run tokenTree (atomicTree xs c) (pushEvent (xs c)) := by
      rw [← ih', pushEvent]
      split
      · next hx => exact settle_push tokenTree _ rfl (h c (Nat.lt_succ_self c) hx) _ _
      · rfl
    have hpop : settle tokenTree (PifoTree.run tokenTree
          (PifoTree.run tokenTree (splitTree pu xs c) (pushEvent (xs c)))
          (if (xs c).iPop then [.pop] else [])) =
        PifoTree.run tokenTree (PifoTree.run tokenTree (atomicTree xs c) (pushEvent (xs c)))
          (if (xs c).iPop then [.pop, .release] else []) := by
      rw [← hpush]
      split
      · exact settle_pop tokenTree _ rfl
      · rfl
    rw [splitTree, atomicTree, run_append, run_append, run_append, ← hpop]
    cases (run pu xs c).oIsLevel0Pop 0 with
    | false => rfl
    | true => exact settle_release tokenTree _

/-- The atomic tree chooses the sub-trees the ideal root names. -/
theorem atomicTree_chosen (xs : ℕ → GenIn P) (c : ℕ) : (atomicTree xs c).chosen = [] ∧
    (atomicTree xs c).packets.map Prod.fst = (idealAnswers (arrivals xs c)).map tokenTree := by
  have hag : (∃ f, Agrees (atomicTree xs c) (arrivals xs c) f) ∧ (atomicTree xs c).chosen = [] := by
    induction c with
    | zero => exact ⟨⟨_, agrees_init⟩, rfl⟩
    | succ c ih =>
      obtain ⟨⟨f, hf⟩, hchosen⟩ := ih
      have harr := (hf.arrive (xs c)).1
      have hpushed : (PifoTree.run tokenTree (atomicTree xs c) (pushEvent (xs c))).chosen = [] := by
        rw [← hchosen, pushEvent]
        split <;> rfl
      rw [run_append] at harr
      rw [atomicTree, run_append, arrivals]
      cases hp : (xs c).iPop with
      | false =>
        rw [hp] at harr
        exact ⟨⟨_, harr⟩, hpushed⟩
      | true =>
        rw [hp] at harr
        have hone : (PifoTree.step tokenTree (PifoTree.run tokenTree (atomicTree xs c)
            (pushEvent (xs c))) .pop).chosen = [tokenTree (idealPop (PifoTree.run tokenTree
              (atomicTree xs c) (pushEvent (xs c))).root)] := by
          show _ ++ _ = _
          rw [hpushed]
          rfl
        refine ⟨⟨_, harr.release hone⟩, ?_⟩
        rw [if_pos rfl, run_cons, run_cons, run_nil, step_release_cons tokenTree hone]
  obtain ⟨⟨f, hf⟩, hchosen⟩ := hag
  refine ⟨hchosen, ?_⟩
  rw [← hf.chosen, hchosen, List.append_nil]

end Atomic

/-- **The packets come out as from a PIFO tree that releases late.**  Take any parameters
with at least three levels and no more trees than levels, and any inputs up to cycle `c`
that use the trees within their bounds and give distinct priorities to the values of each
tree.  In the order of the root pops that caused them, the packets that have come out are
those of the split tree, and all of them when the engine has drained.  The sub-trees are
chosen as by the atomic tree; and if no packet arrives for a sub-tree while a token of it
is under way, the packets are those of the atomic tree. -/
theorem two_level_scheduling (P : GenParams) (pu : PowerUp P.toParams) (xs : ℕ → GenIn P)
    (c : ℕ) (h : Scheduled pu xs c) (hd : Distinct pu xs c) :
    List.Forall₂ (fun x p => x.1 = p.1 ∧ ∀ v, x.2 = some v → v = p.2)
      (poppedPackets pu xs c) (splitTree pu xs c).packets ∧
    (splitTree pu xs c).packets.map Prod.fst <+: (atomicTree xs c).packets.map Prod.fst ∧
    (NothingOvertakes pu xs c → (splitTree pu xs c).packets <+: (atomicTree xs c).packets) ∧
    ((run pu xs c).Drained →
      poppedPackets pu xs c = (splitTree pu xs c).packets.map (fun p => (p.1, some p.2)) ∧
      (splitTree pu xs c).packets.map Prod.fst = (atomicTree xs c).packets.map Prod.fst ∧
      (NothingOvertakes pu xs c → (splitTree pu xs c).packets = (atomicTree xs c).packets)) := by
  obtain ⟨hag, hrel⟩ := h.agrees hd
  have hatomic := (atomicTree_chosen xs c).2
  rw [poppedPackets, ← hrel]
  refine ⟨?_, ?_, fun hover => ?_, fun hdrained => ⟨?_, ?_, fun hover => ?_⟩⟩
  · refine inOrder_of_isPrefix _ fun p hp => ?_
    obtain ⟨h0, ht⟩ := h.tree_of_packet hd hp
    rw [hag.packets _ h0 ht]
    exact h.popOutputs_isPrefix hd ht
  · rw [hatomic, ← hag.chosen]
    exact List.prefix_append _ _
  · rw [← settle_splitTree hover]
    exact packets_prefix_settle tokenTree _ rfl
  · refine inOrder_of_eq _ fun p hp => ?_
    obtain ⟨h0, ht⟩ := h.tree_of_packet hd hp
    rw [hag.packets _ h0 ht]
    exact h.popOutputs_of_drained hd hdrained ht
  · rw [hatomic, ← hag.chosen, h.chosen_of_drained hd hdrained, List.append_nil]
  · rw [← settle_splitTree hover, settle_of_nil tokenTree (h.chosen_of_drained hd hdrained)]

theorem two_level_scheduling_twoPackets :
    poppedPackets (PowerUp.blank small.toParams) twoPackets 21 =
        [(2, some ⟨2, 7⟩), (1, some ⟨1, 4⟩)] ∧
      poppedPackets (PowerUp.blank small.toParams) twoPackets 21 =
        (splitTree (PowerUp.blank small.toParams) twoPackets 21).packets.map
          fun p => (p.1, some p.2) := by
  have hdrained : (run (PowerUp.blank small.toParams) twoPackets 21).Drained :=
    ⟨by decide +kernel, by decide +kernel, by decide +kernel⟩
  have hdistinct : Distinct (PowerUp.blank small.toParams) twoPackets 21 := by
    unfold Distinct DistinctRanks
    decide +kernel
  exact ⟨by decide +kernel, ((two_level_scheduling small _ twoPackets 21 scheduled_twoPackets
    hdistinct).2.2.2 hdrained).1⟩

/-- A packet for tree 1, a pop, and a more urgent packet for tree 1. -/
def latecomer (c : ℕ) : GenIn small :=
  if c = 0 then ⟨true, 1, 5, ⟨1, 6⟩, false⟩
  else if c = 1 then ⟨false, 0, 0, Val.zero, true⟩
  else if c = 2 then ⟨true, 1, 7, ⟨2, 3⟩, false⟩
  else noInput

/-- A packet for each sub-tree, the priority of the second token all-ones, and two pops. -/
def onesSecond (c : ℕ) : GenIn small :=
  if c = 0 then ⟨true, 1, 5, ⟨1, 1⟩, false⟩
  else if c = 1 then ⟨true, 2, 15, ⟨2, 2⟩, true⟩
  else if c = 2 then ⟨false, 0, 0, Val.zero, true⟩
  else noInput

theorem scheduled_latecomer : Scheduled (PowerUp.blank small.toParams) latecomer 14 where
  three_le_LEVEL := by decide
  TREE_NUM_le := by decide
  id_ne := by decide +kernel
  balanced := by decide +kernel
  noOverflow := by decide +kernel
  load_le := by decide +kernel
  counters _ _ _ _ k := slotCount_small _ k
  id_lt := by decide +kernel
  prio := by decide +kernel

theorem admitted_onesSecond : Admitted (PowerUp.blank small.toParams) onesSecond 10 where
  three_le_LEVEL := by decide
  TREE_NUM_le := by decide
  id_ne := by decide +kernel
  balanced := by decide +kernel
  noOverflow := by decide +kernel
  load_le := by decide +kernel
  counters _ _ _ _ k := slotCount_small _ k

/-- The second pop of the root finds the slot that the first one emptied. -/
theorem popData_onesSecond :
    (run (PowerUp.blank small.toParams) onesSecond 10).oPopData 0 = Val.ones := by
  have hfsm : ((run (PowerUp.blank small.toParams) onesSecond 10).pifo 0).fsm = .pop := by
    decide +kernel
  have hport : minDataPort ((run (PowerUp.blank small.toParams) onesSecond 10).sram 0).rdata =
      0 := by
    decide +kernel
  have hslot : ((run (PowerUp.blank small.toParams) onesSecond 10).sram 0).rdata 0 =
      ⟨0, Val.ones⟩ := by
    decide +kernel
  rw [PifoSramTop.oPopData, PifoSram.oPopData, hfsm]
  show popData _ = _
  rw [popData, hport, hslot]

/-- **Not accurate.**  A packet that arrives after a pop comes out in the place of the
packet the atomic tree gives out.  And the pop of a token whose priority is all-ones can
find an empty slot in its place, so that no sub-tree is popped. -/
theorem not_accurate :
    (Scheduled (PowerUp.blank small.toParams) latecomer 14 ∧
      Distinct (PowerUp.blank small.toParams) latecomer 14 ∧
      poppedPackets (PowerUp.blank small.toParams) latecomer 14 = [(1, some ⟨2, 3⟩)] ∧
      (atomicTree latecomer 14).packets = [(1, ⟨1, 6⟩)]) ∧
    (Admitted (PowerUp.blank small.toParams) onesSecond 10 ∧
      Distinct (PowerUp.blank small.toParams) onesSecond 10 ∧
      (run (PowerUp.blank small.toParams) onesSecond 10).oIsLevel0Pop 0 = true ∧
      (run (PowerUp.blank small.toParams) onesSecond 10).oPopData 0 = Val.ones ∧
      (∀ x i, (ports (run (PowerUp.blank small.toParams) onesSecond 10) x (i + 1)).popBit = false) ∧
      (atomicTree onesSecond 10).packets = [(1, ⟨1, 1⟩), (2, ⟨2, 2⟩)]) := by
  have hpop : (run (PowerUp.blank small.toParams) onesSecond 10).oIsLevel0Pop 0 = true := by
    decide +kernel
  have hrpu : popRpuId (run (PowerUp.blank small.toParams) onesSecond 10) = 0 := by
    rw [popRpuId, popTreeId, if_pos hpop, popData_onesSecond]
    decide
  refine ⟨⟨scheduled_latecomer, ?_, ?_⟩, admitted_onesSecond, ?_, hpop, popData_onesSecond, ?_, ?_⟩
  · unfold Distinct DistinctRanks
    decide +kernel
  · decide +kernel
  · unfold Distinct DistinctRanks
    decide +kernel
  · intro x i
    rw [ports]
    dsimp only
    rw [hrpu]
    exact decide_eq_false (Nat.succ_ne_zero i)
  · decide +kernel

end TaskGenerator

end VPifo
