import VPifo.Hardware.Dispatch

/-!
# The pipelined engine is the sequential one

Every task descends one level per cycle, so the pipeline is a skew.  A task of tree `t`
announced in cycle `τ` is on level `l` in cycle `τ + l + 1`, at unit `bank t l`, and
what level `l` of the tree looks like in cycle `c` is what it looks like in the
sequential engine after the tasks announced before cycle `c - 1 - l`.  With
`memAt t τ` for the sequential memory after the tasks announced before cycle `τ`, the
invariant `Holds c` reads:

* the unit of level `l` holds the registers of the descent of its task on `memAt t τ`
  (`pushRegs`, `popRegs`);
* the SRAM word of node `a` of level `l` is `memAt t (c - 1 - l) l a`.

There is one exception.  A pop writes its word twice, and the first time the value it
takes from the unit below is not there yet.  In the cycle of the write-back that word
is arbitrary (`Settled` excludes it), and nobody reads it: the unit keeps the word it has
read, and the second write replaces the first.
-/

namespace VPifo.PifoSramTop

open Cyclic TaskDistribute PifoSram

variable {P : Params} (pu : PowerUp P) (ins : ℕ → ℕ → Entry P.toWidths)

/-- The task of tree `t` announced in cycle `τ`, if there is one. -/
def taskAt (t τ : ℕ) : Option (Task P.toWidths) :=
  (ofTree t (shadow pu ins τ (t % P.LEVEL)).announcement).head?

/-- The sequential memory of tree `t` after the tasks announced before cycle `τ`. -/
def memAt (t τ : ℕ) : Mem P.order P.toWidths := seqMem P.LEVEL P.order (started pu ins t τ)

variable {pu ins} {i t l τ c : ℕ}

/-! ## Announcements -/

theorem started_succ (pu : PowerUp P) (ins : ℕ → ℕ → Entry P.toWidths) (t τ : ℕ) :
    started pu ins t (τ + 1) = started pu ins t τ ++ (taskAt pu ins t τ).toList := by
  rw [started, announced, ofTree_append, ← started, taskAt]
  congr 1
  unfold Rpu.announcement
  split
  · by_cases h : (shadow pu ins τ (t % P.LEVEL)).rpuTreeId = t <;> simp [ofTree, h]
  · split
    · by_cases h : (shadow pu ins τ (t % P.LEVEL)).rpuTreeId = t <;> simp [ofTree, h]
    · rfl

theorem started_isPrefix (t τ : ℕ) : started pu ins t τ <+: started pu ins t (τ + 1) := by
  rw [started_succ]
  exact List.prefix_append _ _

theorem memAt_of_none (h : taskAt pu ins t τ = none) :
    memAt pu ins t (τ + 1) = memAt pu ins t τ := by
  rw [memAt, started_succ, h, Option.toList_none, List.append_nil, memAt]

theorem memAt_of_some {x : Task P.toWidths} (h : taskAt pu ins t τ = some x) :
    memAt pu ins t (τ + 1) = seqStep P.LEVEL (memAt pu ins t τ) x := by
  rw [memAt, started_succ, h, Option.toList_some, seqMem_append_singleton, memAt]

/-- A push, read off the memory of its level. -/
theorem memAt_push {v : Val P.toWidths} (h : taskAt pu ins t τ = some (.push v))
    (hl : l < P.LEVEL) (a : ℕ) :
    memAt pu ins t (τ + 1) l a = pushWord (memAt pu ins t τ) v l a := by
  rw [memAt_of_some h, seqStep, descendPush_level, if_pos hl]

/-- A pop, read off the memory of its level. -/
theorem memAt_pop (h : taskAt pu ins t τ = some .pop) (hl : l < P.LEVEL) (a : ℕ) :
    memAt pu ins t (τ + 1) l a = popWord P.LEVEL (memAt pu ins t τ) l a := by
  rw [memAt_of_some h, seqStep, descendPop_level, if_pos hl]

theorem taskAt_push {v : Val P.toWidths} (h : taskAt pu ins t τ = some (.push v)) :
    (shadow pu ins τ (t % P.LEVEL)).rpuPushNew = true ∧
      (shadow pu ins τ (t % P.LEVEL)).rpuTreeId = t ∧
      (shadow pu ins τ (t % P.LEVEL)).rpuPushData = v := by
  unfold taskAt Rpu.announcement at h
  split at h
  · next hpush =>
    by_cases ht : (shadow pu ins τ (t % P.LEVEL)).rpuTreeId = t
    · simp only [ofTree, ht, List.filter_cons_of_pos, beq_self_eq_true, List.filter_nil,
        List.map_cons, List.map_nil, List.head?_cons, Option.some.injEq, Task.push.injEq] at h
      exact ⟨hpush, ht, h⟩
    · simp [ofTree, ht] at h
  · split at h
    · by_cases ht : (shadow pu ins τ (t % P.LEVEL)).rpuTreeId = t <;> simp [ofTree, ht] at h
    · simp at h

theorem taskAt_pop (h : taskAt pu ins t τ = some .pop) :
    (shadow pu ins τ (t % P.LEVEL)).rpuPopNew = true ∧
      (shadow pu ins τ (t % P.LEVEL)).rpuTreeId = t := by
  unfold taskAt Rpu.announcement at h
  split at h
  · by_cases ht : (shadow pu ins τ (t % P.LEVEL)).rpuTreeId = t <;> simp [ofTree, ht] at h
  · split at h
    · next hpop =>
      by_cases ht : (shadow pu ins τ (t % P.LEVEL)).rpuTreeId = t
      · exact ⟨hpop, ht⟩
      · simp [ofTree, ht] at h
    · simp at h

/-- A push announced to unit `i` is a task of a tree of that port. -/
theorem exists_taskAt_push (hlegal : Legal pu ins τ) (hi : i < P.LEVEL)
    (h : (shadow pu ins τ i).rpuPushNew = true) :
    ∃ t v, t < P.TREE_NUM ∧ t % P.LEVEL = i ∧ taskAt pu ins t τ = some (.push v) := by
  have hann : (shadow pu ins τ i).announcement =
      [((shadow pu ins τ i).rpuTreeId, .push (shadow pu ins τ i).rpuPushData)] := by
    rw [Rpu.announcement, if_pos h]
  have hport := hlegal.announcement hi (y := (_, _)) (by rw [hann]; exact List.mem_singleton_self _)
  refine ⟨_, (shadow pu ins τ i).rpuPushData, hport.1, hport.2, ?_⟩
  rw [taskAt, hport.2, hann]
  simp [ofTree]

theorem exists_taskAt_pop (hlegal : Legal pu ins τ) (hi : i < P.LEVEL)
    (h : (shadow pu ins τ i).rpuPopNew = true) :
    ∃ t, t < P.TREE_NUM ∧ t % P.LEVEL = i ∧ taskAt pu ins t τ = some .pop := by
  have hpush : (shadow pu ins τ i).rpuPushNew = false := by
    cases shadow_move pu ins τ hi with
    | newPush _ _ _ hn => rw [hn] at h; exact absurd h (by simp)
    | idle _ _ hn | newPop _ _ hn | inheritPush _ _ hn | inheritPop _ _ hn
    | writeBack _ _ hn => exact hn
  have hann : (shadow pu ins τ i).announcement = [((shadow pu ins τ i).rpuTreeId, .pop)] := by
    rw [Rpu.announcement, hpush, h]
    rfl
  have hport := hlegal.announcement hi (y := (_, _)) (by rw [hann]; exact List.mem_singleton_self _)
  refine ⟨_, hport.1, hport.2, ?_⟩
  rw [taskAt, hport.2, hann]
  simp [ofTree]

/-! ## Where a task is -/

theorem bank_lt (P : Params) (t l : ℕ) : bank P t l < P.LEVEL := Nat.mod_lt _ P.LEVEL_pos

theorem bank_zero (P : Params) (t : ℕ) : bank P t 0 = t % P.LEVEL := by
  rw [bank, Nat.add_zero]

theorem prev_bank (P : Params) (t l : ℕ) : prev P.LEVEL (bank P t (l + 1)) = bank P t l :=
  prev_mod_add_one P.LEVEL_pos (t + l)

theorem next_bank (P : Params) (t l : ℕ) : (bank P t l + 1) % P.LEVEL = bank P t (l + 1) := by
  rw [bank, Nat.mod_add_mod]
  rfl

/-- Nothing is announced before the first cycle. -/
theorem pos_of_new {i : ℕ} (h : (shadow pu ins τ i).rpuPushNew = true ∨
    (shadow pu ins τ i).rpuPopNew = true) : ∃ k, τ = k + 1 := by
  cases τ with
  | zero => rcases h with h | h <;> exact absurd h (by simp [shadow, run, reset,
      TaskDistribute.reset, Rpu.reset])
  | succ k => exact ⟨k, rfl⟩

/-- A push is on level `l`, at unit `bank t l`, `l` cycles after it is announced. -/
theorem shadow_push {v : Val P.toWidths} (h : taskAt pu ins t τ = some (.push v))
    (hl : l < P.LEVEL) :
    (shadow pu ins (τ + l) (bank P t l)).rpuState = .push ∧
      (shadow pu ins (τ + l) (bank P t l)).rpuLevel = l := by
  have hnew := (taskAt_push h).1
  obtain ⟨k, rfl⟩ := pos_of_new (.inl hnew)
  rw [shadow_eq_run] at hnew
  have htravel := run_push _ (Nat.mod_lt t P.LEVEL_pos) hnew l hl
  rw [Nat.mod_add_mod] at htravel
  rw [shadow_eq_run]
  exact htravel

theorem shadow_pop (h : taskAt pu ins t τ = some .pop) (hl : l < P.LEVEL) :
    (shadow pu ins (τ + l) (bank P t l)).rpuState = .pop ∧
      (shadow pu ins (τ + l) (bank P t l)).rpuLevel = l := by
  have hnew := (taskAt_pop h).1
  obtain ⟨k, rfl⟩ := pos_of_new (.inr hnew)
  rw [shadow_eq_run] at hnew
  have htravel := run_pop _ (Nat.mod_lt t P.LEVEL_pos) hnew l hl
  rw [Nat.mod_add_mod] at htravel
  rw [shadow_eq_run]
  exact htravel

theorem shadow_wb (h : taskAt pu ins t τ = some .pop) (hl : l < P.LEVEL) :
    (shadow pu ins (τ + l + 1) (bank P t l)).rpuState = .wb ∧
      (shadow pu ins (τ + l + 1) (bank P t l)).rpuLevel = l := by
  obtain ⟨hst, hlv⟩ := shadow_pop h hl
  have hnext := (shadow_move pu ins (τ + l + 1) (bank_lt P t l)).of_pop hst
  exact ⟨hnext.1, hnext.2.trans hlv⟩

/-- Conversely, an RPU that pushes on level `l` works on a task announced `l` cycles
ago. -/
theorem exists_push_of_shadow (l : ℕ) : ∀ {c i : ℕ}, Legal pu ins c → i < P.LEVEL →
    (shadow pu ins c i).rpuState = .push → (shadow pu ins c i).rpuLevel = l →
    ∃ t τ v, t < P.TREE_NUM ∧ c = τ + l ∧ bank P t l = i ∧
      taskAt pu ins t τ = some (.push v) := by
  induction l with
  | zero =>
    intro c i hlegal hi hst hlv
    have hnew := (shadow_move pu ins c hi).pushNew_iff.mpr ⟨hst, hlv⟩
    obtain ⟨t, v, ht, hti, htask⟩ := exists_taskAt_push hlegal hi hnew
    exact ⟨t, c, v, ht, rfl, by rw [bank_zero, hti], htask⟩
  | succ l ih =>
    intro c i hlegal hi hst hlv
    cases shadow_move pu ins c hi with
    | inheritPush _ hh hn _ _ hl =>
      -- the task was one place back in the cycle before
      cases c with
      | zero => exact absurd hh.1 (by simp [shadow, run, reset, TaskDistribute.reset, Rpu.reset])
      | succ c =>
        rw [Nat.add_sub_cancel] at hh hl
        obtain ⟨t, τ, v, ht, hc, hbank, htask⟩ := ih (hlegal.mono (Nat.le_succ c))
          (prev_lt_LEVEL hi) hh.1 (by omega)
        refine ⟨t, τ, v, ht, by omega, ?_, htask⟩
        rw [← next_bank, hbank, prev_add_one_mod hi]
    | newPush _ _ _ _ _ hl => omega
    | idle _ _ _ _ hst' | newPop _ _ _ _ hst' | inheritPop _ _ _ _ hst'
    | writeBack _ _ _ _ hst' => exact absurd (hst'.symm.trans hst) (by simp)

theorem exists_pop_of_shadow (l : ℕ) : ∀ {c i : ℕ}, Legal pu ins c → i < P.LEVEL →
    (shadow pu ins c i).rpuState = .pop → (shadow pu ins c i).rpuLevel = l →
    ∃ t τ, t < P.TREE_NUM ∧ c = τ + l ∧ bank P t l = i ∧ taskAt pu ins t τ = some .pop := by
  induction l with
  | zero =>
    intro c i hlegal hi hst hlv
    have hnew := (shadow_move pu ins c hi).popNew_iff.mpr ⟨hst, hlv⟩
    obtain ⟨t, ht, hti, htask⟩ := exists_taskAt_pop hlegal hi hnew
    exact ⟨t, c, ht, rfl, by rw [bank_zero, hti], htask⟩
  | succ l ih =>
    intro c i hlegal hi hst hlv
    cases shadow_move pu ins c hi with
    | inheritPop _ hh hn _ _ hl =>
      cases c with
      | zero => exact absurd hh.1 (by simp [shadow, run, reset, TaskDistribute.reset, Rpu.reset])
      | succ c =>
        rw [Nat.add_sub_cancel] at hh hl
        obtain ⟨t, τ, ht, hc, hbank, htask⟩ := ih (hlegal.mono (Nat.le_succ c))
          (prev_lt_LEVEL hi) hh.1 (by omega)
        refine ⟨t, τ, ht, by omega, ?_, htask⟩
        rw [← next_bank, hbank, prev_add_one_mod hi]
    | newPop _ _ _ _ _ hl => omega
    | idle _ _ _ _ hst' | newPush _ _ _ _ hst' | inheritPush _ _ _ _ hst'
    | writeBack _ _ _ _ hst' => exact absurd (hst'.symm.trans hst) (by simp)

theorem exists_wb_of_shadow (hlegal : Legal pu ins c) (hi : i < P.LEVEL)
    (hst : (shadow pu ins c i).rpuState = .wb) (hlv : (shadow pu ins c i).rpuLevel = l) :
    ∃ t τ, t < P.TREE_NUM ∧ c = τ + l + 1 ∧ bank P t l = i ∧ taskAt pu ins t τ = some .pop := by
  obtain ⟨hpop, hl⟩ := pop_before_wb pu ins c hi hst
  cases c with
  | zero => exact absurd hpop (by simp [shadow, run, reset, TaskDistribute.reset, Rpu.reset])
  | succ c =>
    rw [Nat.add_sub_cancel] at hpop hl
    obtain ⟨t, τ, ht, hc, hbank, htask⟩ := exists_pop_of_shadow l (hlegal.mono (Nat.le_succ c))
      hi hpop (by rw [← hl, hlv])
    exact ⟨t, τ, ht, by omega, hbank, htask⟩

/-! ## The SRAM output -/

/-- A unit that pushes or pops sees the word its registers name. -/
theorem rdata_eq_ram (pu : PowerUp P) (ins : ℕ → ℕ → Entry P.toWidths) (c i : ℕ)
    (h : ((run pu ins c).pifo i).fsm = .push ∨ ((run pu ins c).pifo i).fsm = .pop) :
    ((run pu ins c).sram i).rdata =
      ((run pu ins c).sram i).ram (readAddr P ((run pu ins c).pifo i).curTreeId
        ((run pu ins c).pifo i).curLevel ((run pu ins c).pifo i).myAddr) := by
  cases c with
  | zero => rcases h with h | h <;> exact absurd h (by simp [run, reset, Regs.idle])
  | succ c =>
    have hreg : (run pu ins (c + 1)).pifo i =
        ((run pu ins c).pifo i).step ((run pu ins c).command i) := rfl
    have hfree : ((run pu ins c).pifo i).fsm ≠ .pop := by
      intro hp
      rw [hreg, Regs.step, hp] at h
      rcases h with h | h <;> exact absurd h (by simp)
    rw [hreg, step_eq_accept _ hfree] at h ⊢
    show ((run pu ins c).sramNxt i).rdata = ((run pu ins c).sramNxt i).ram _
    simp only [sramNxt, Sram.step, oRead, hfree, ne_eq, not_false_eq_true, decide_true,
      Bool.and_true]
    -- the unit moves on only if it was told to, and then it reads
    cases hpush : ((run pu ins c).command i).iPush <;>
      cases hpop : ((run pu ins c).command i).iPop <;>
        simp [Regs.accept, hpush, hpop, Regs.idle] at h ⊢

/-- The words of an SRAM after a clock edge. -/
theorem ram_succ (c i : ℕ) :
    ((run pu ins (c + 1)).sram i).ram =
      if ((run pu ins c).pifo i).fsm ≠ .idle then
        Function.update ((run pu ins c).sram i).ram
          (writeAddr P ((run pu ins c).pifo i).curTreeId ((run pu ins c).pifo i).curLevel
            ((run pu ins c).pifo i).myAddr)
          (oWriteData P ((run pu ins c).pifo i) ((run pu ins c).sram i).rdata
            ((run pu ins c).popDataDn i))
      else ((run pu ins c).sram i).ram := by
  show ((run pu ins c).sramNxt i).ram = _
  simp [sramNxt, Sram.step, oWrite]

/-! ## The invariant -/

/-- The registers of the unit of level `l` during a push of `v` on `m`. -/
def pushRegs {o : Order} {W : Widths} (m : Mem o W) (v : Val W) (l t : ℕ) : Regs W :=
  match pushAt m v l with
  | some (a, x) => ⟨.push, x, a, l, t⟩
  | none => Regs.idle

/-- The registers of the unit of level `l` during a pop on `m`. -/
def popRegs {o : Order} {W : Widths} (m : Mem o W) (l t : ℕ) : Regs W :=
  ⟨.pop, Val.zero, popPath m l, l, t⟩

/-- The registers of the unit of level `l` during the write-back of a pop on `m`. -/
def wbRegs {o : Order} {W : Widths} (m : Mem o W) (l t : ℕ) : Regs W :=
  ⟨.wb, Val.zero, popPath m l, l, t⟩

variable (pu ins)

/-- The word of node `a` is not about to be written a second time. -/
def Settled (c t l a : ℕ) : Prop :=
  ∀ τ, c = τ + l + 2 → taskAt pu ins t τ = some .pop → a ≠ popPath (memAt pu ins t τ) l

/-- The pipeline in cycle `c` is the skewed sequential engine. -/
structure Holds (c : ℕ) : Prop where
  push : ∀ t l τ v, t < P.TREE_NUM → l < P.LEVEL → c = τ + l + 1 →
    taskAt pu ins t τ = some (.push v) →
    (run pu ins c).pifo (bank P t l) = pushRegs (memAt pu ins t τ) v l t
  pop : ∀ t l τ, t < P.TREE_NUM → l < P.LEVEL → c = τ + l + 1 → taskAt pu ins t τ = some .pop →
    (run pu ins c).pifo (bank P t l) = popRegs (memAt pu ins t τ) l t
  wb : ∀ t l τ, t < P.TREE_NUM → l < P.LEVEL → c = τ + l + 2 → taskAt pu ins t τ = some .pop →
    (run pu ins c).pifo (bank P t l) = wbRegs (memAt pu ins t τ) l t ∧
      ((run pu ins c).sram (bank P t l)).rdata =
        memAt pu ins t τ l (popPath (memAt pu ins t τ) l)
  ram : ∀ t l a, IsNode P t l a → Settled pu ins c t l a →
    ((run pu ins c).sram (bank P t l)).ram (readAddr P t l a) = memAt pu ins t (c - 1 - l) l a
  rest : ∀ i < P.LEVEL, ∀ x, (∀ t l a, IsNode P t l a → bank P t l = i → readAddr P t l a ≠ x) →
    ((run pu ins c).sram i).ram x = initValue _ _

variable {pu ins}

theorem holds_zero : Holds pu ins 0 where
  push _ _ _ _ _ _ h := by omega
  pop _ _ _ _ _ h := by omega
  wb _ _ _ _ _ h := by omega
  ram t l a _ _ := by
    rw [Nat.zero_sub]
    rfl
  rest _ _ _ _ := rfl

theorem pushRegs_some {o : Order} {W : Widths} {m : Mem o W} {v x : Val W} {l a : ℕ} (t : ℕ)
    (h : pushAt m v l = some (a, x)) : pushRegs m v l t = ⟨.push, x, a, l, t⟩ := by
  rw [pushRegs, h]

theorem pushRegs_none {o : Order} {W : Widths} {m : Mem o W} {v : Val W} {l : ℕ} (t : ℕ)
    (h : pushAt m v l = none) : pushRegs m v l t = Regs.idle := by
  rw [pushRegs, h]

/-- While a unit pushes or pops on a level, no word of that level is unsettled. -/
theorem Holds.settled (h : Holds pu ins c) (ht : t < P.TREE_NUM) (hl : l < P.LEVEL) (a : ℕ)
    (hfsm : ((run pu ins c).pifo (bank P t l)).fsm ≠ .wb) : Settled pu ins c t l a := by
  intro τ hc htask
  rw [(h.wb t l τ ht hl hc htask).1] at hfsm
  exact absurd rfl hfsm

/-- The word under a push. -/
theorem Holds.rdata_push (h : Holds pu ins c) (ht : t < P.TREE_NUM) (hl : l < P.LEVEL)
    (hc : c = τ + l + 1) {v x : Val P.toWidths} {a : ℕ}
    (htask : taskAt pu ins t τ = some (.push v))
    (hat : pushAt (memAt pu ins t τ) v l = some (a, x)) :
    ((run pu ins c).sram (bank P t l)).rdata = memAt pu ins t τ l a := by
  have hreg := h.push t l τ v ht hl hc htask
  rw [pushRegs_some t hat] at hreg
  have hnode : IsNode P t l a := ⟨ht, hl, pushAt_addr_lt l hat⟩
  rw [rdata_eq_ram pu ins c _ (.inl (by rw [hreg])), hreg,
    h.ram t l a hnode (h.settled ht hl a (by rw [hreg]; simp)), hc,
    show τ + l + 1 - 1 - l = τ by omega]

/-- The word under a pop. -/
theorem Holds.rdata_pop (h : Holds pu ins c) (ht : t < P.TREE_NUM) (hl : l < P.LEVEL)
    (hc : c = τ + l + 1) (htask : taskAt pu ins t τ = some .pop) :
    ((run pu ins c).sram (bank P t l)).rdata =
      memAt pu ins t τ l (popPath (memAt pu ins t τ) l) := by
  have hreg := h.pop t l τ ht hl hc htask
  have hnode : IsNode P t l (popPath (memAt pu ins t τ) l) := ⟨ht, hl, popPath_lt _ l⟩
  rw [rdata_eq_ram pu ins c _ (.inr (by rw [hreg]; rfl)), hreg]
  show ((run pu ins c).sram (bank P t l)).ram (readAddr P t l (popPath (memAt pu ins t τ) l)) = _
  rw [h.ram t l _ hnode (h.settled ht hl _ (by rw [hreg]; simp [popRegs])), hc,
    show τ + l + 1 - 1 - l = τ by omega]

/-! ## The registers, one cycle on -/

theorem childAddr_lt {a : ℕ} (hl : l + 1 < P.LEVEL) (ha : a < P.order.D ^ (l + 1)) :
    a % 2 ^ P.adw = a := Nat.mod_eq_of_lt (addr_lt_two_pow_adw hl ha)

/-- A push arrives at the root as it was announced. -/
theorem push_succ_root {v : Val P.toWidths} (htask : taskAt pu ins t c = some (.push v)) :
    (run pu ins (c + 1)).pifo (bank P t 0) = pushRegs (memAt pu ins t c) v 0 t := by
  have hi := bank_lt P t 0
  have hf := follows_run pu ins c hi
  show ((run pu ins c).pifo (bank P t 0)).step ((run pu ins c).command (bank P t 0)) = _
  rw [bank_zero] at *
  obtain ⟨hnew, htree, hdata⟩ := taskAt_push htask
  cases shadow_move pu ins c hi with
  | newPush hfree hq hpush hpop =>
    rw [hf.step_newPush hfree hq hpush hpop, pushRegs_some t rfl]
    show (⟨.push, (shadow pu ins c (t % P.LEVEL)).rpuPushData, 0, 0,
      (shadow pu ins c (t % P.LEVEL)).rpuTreeId⟩ : Regs P.toWidths) = _
    rw [htree, hdata]
  | idle _ _ hn | newPop _ _ hn | inheritPush _ _ hn | inheritPop _ _ hn
  | writeBack _ _ hn => rw [hnew] at hn; exact absurd hn (by simp)

/-- A push arrives on a lower level as the descent says. -/
theorem Holds.push_succ_below (h : Holds pu ins c) (ht : t < P.TREE_NUM) (hl : l + 1 < P.LEVEL)
    (hc : c = τ + l + 1) {v : Val P.toWidths} (htask : taskAt pu ins t τ = some (.push v)) :
    (run pu ins (c + 1)).pifo (bank P t (l + 1)) = pushRegs (memAt pu ins t τ) v (l + 1) t := by
  have hi := bank_lt P t (l + 1)
  have hf := follows_run pu ins c hi
  obtain ⟨hst, hlv⟩ := shadow_push htask hl
  rw [← Nat.add_assoc, ← hc] at hst hlv
  show ((run pu ins c).pifo (bank P t (l + 1))).step ((run pu ins c).command (bank P t (l + 1))) = _
  have hreg := h.push t l τ v ht (by omega) (by omega) htask
  have hpb := prev_bank P t l
  cases shadow_move pu ins c hi with
  | inheritPush hfree hh hpush hpop =>
    rw [hf.step_inheritPush hfree hh hpush hpop, hpb]
    cases hat : pushAt (memAt pu ins t τ) v l with
    | none =>
      -- the push has ended above
      rw [pushRegs_none t hat] at hreg
      have hdn : (run pu ins c).pushDn (bank P t l) = false := by
        rw [pushDn, hreg, oPush]
        simp [PifoSram.push, Regs.idle]
      rw [hdn, pushRegs_none t (pushAt_succ_none hat)]
      rfl
    | some r =>
      obtain ⟨a, x⟩ := r
      have hword := h.rdata_push (l := l) ht (by omega) (by omega) htask hat
      rw [pushRegs_some t hat] at hreg
      have hsucc := pushAt_succ_some hat
      have hdn : (run pu ins c).pushDn (bank P t l) =
          (pushNode (memAt pu ins t τ l a) x).2.isSome := by
        rw [pushDn, hreg, hword, oPush]
        simp only [PifoSram.push]
        rw [if_pos (by omega)]
      rw [hdn, oTreeId, hreg, hword]
      cases hd : (pushNode (memAt pu ins t τ l a) x).2 with
      | none =>
        rw [hd, Option.map_none] at hsucc
        rw [pushRegs_none t hsucc]
        rfl
      | some u =>
        rw [hd, Option.map_some] at hsucc
        have haddr := childAddr_lt hl (pushAt_addr_lt (l + 1) hsucc)
        rw [pushRegs_some t hsucc, oLevel_eq (by simpa using hl)]
        simp only [Option.isSome_some, if_true, pushData, hd, Option.getD_some, oChildAddr, haddr]
  | newPush _ _ _ _ _ hl0 | idle _ _ _ _ _ hl0 => omega
  | newPop _ _ _ _ hst' | inheritPop _ _ _ _ hst' | writeBack _ _ _ _ hst' =>
    exact absurd (hst'.symm.trans hst) (by simp)

/-- A push arrives on the next level as the descent says. -/
theorem Holds.push_succ (h : Holds pu ins c) (ht : t < P.TREE_NUM) (hl : l < P.LEVEL)
    (hc : c + 1 = τ + l + 1) {v : Val P.toWidths}
    (htask : taskAt pu ins t τ = some (.push v)) :
    (run pu ins (c + 1)).pifo (bank P t l) = pushRegs (memAt pu ins t τ) v l t := by
  cases l with
  | zero =>
    obtain rfl : c = τ := by omega
    exact push_succ_root htask
  | succ l => exact h.push_succ_below ht hl (by omega) htask

/-- A pop arrives on the next level as the descent says. -/
theorem Holds.pop_succ (h : Holds pu ins c) (ht : t < P.TREE_NUM) (hl : l < P.LEVEL)
    (hc : c + 1 = τ + l + 1) (htask : taskAt pu ins t τ = some .pop) :
    (run pu ins (c + 1)).pifo (bank P t l) = popRegs (memAt pu ins t τ) l t := by
  have hcl : c = τ + l := by omega
  have hi := bank_lt P t l
  have hf := follows_run pu ins c hi
  obtain ⟨hst, hlv⟩ := shadow_pop htask hl
  rw [← hcl] at hst hlv
  show ((run pu ins c).pifo (bank P t l)).step ((run pu ins c).command (bank P t l)) = _
  cases l with
  | zero =>
    rw [bank_zero] at *
    obtain ⟨hnew, htree⟩ := taskAt_pop htask
    rw [Nat.add_zero] at hcl
    subst hcl
    cases shadow_move pu ins c hi with
    | newPop hfree hq hpush hpop =>
      rw [hf.step_newPop hfree hq hpush hpop]
      show (⟨.pop, Val.zero, 0, 0, (shadow pu ins c (t % P.LEVEL)).rpuTreeId⟩ :
        Regs P.toWidths) = _
      rw [htree]
      rfl
    | idle _ _ _ hn | newPush _ _ _ hn | inheritPush _ _ _ hn | inheritPop _ _ _ hn
    | writeBack _ _ _ hn => rw [hnew] at hn; exact absurd hn (by simp)
  | succ l =>
    have hreg := h.pop t l τ ht (by omega) (by omega) htask
    have hword := h.rdata_pop (l := l) ht (by omega) (by omega) htask
    have hpb := prev_bank P t l
    cases shadow_move pu ins c hi with
    | inheritPop hfree hh hpush hpop =>
      have haddr := childAddr_lt hl (popPath_lt (memAt pu ins t τ) (l + 1))
      rw [hf.step_inheritPop hfree hh hpush hpop, hpb, oTreeId, hreg, hword,
        oLevel_eq (by simpa [popRegs] using hl)]
      rw [popPath] at haddr
      simp only [popRegs, oChildAddr, haddr, popPath]
    | newPop _ _ _ _ _ hl0 | idle _ _ _ _ _ hl0 => omega
    | newPush _ _ _ _ hst' | inheritPush _ _ _ _ hst' | writeBack _ _ _ _ hst' =>
      exact absurd (hst'.symm.trans hst) (by simp)

theorem Holds.wb_succ (h : Holds pu ins c) (ht : t < P.TREE_NUM) (hl : l < P.LEVEL)
    (hc : c + 1 = τ + l + 2) (htask : taskAt pu ins t τ = some .pop) :
    (run pu ins (c + 1)).pifo (bank P t l) = wbRegs (memAt pu ins t τ) l t ∧
      ((run pu ins (c + 1)).sram (bank P t l)).rdata =
        memAt pu ins t τ l (popPath (memAt pu ins t τ) l) := by
  have hreg := h.pop t l τ ht hl (by omega) htask
  constructor
  · show ((run pu ins c).pifo (bank P t l)).step _ = _
    rw [hreg]
    rfl
  · rw [rdata_of_pop c _ (by rw [hreg]; rfl), h.rdata_pop ht hl (by omega) htask]

/-! ## The SRAMs, one cycle on -/

/-- What unit `i` works on in cycle `c`. -/
inductive Work (pu : PowerUp P) (ins : ℕ → ℕ → Entry P.toWidths) (c i : ℕ) : Prop where
  | idle (reg : (run pu ins c).pifo i = Regs.idle)
  | push (t l τ a : ℕ) (v x : Val P.toWidths) (node : IsNode P t l a) (bank_eq : bank P t l = i)
      (time : c = τ + l + 1) (task : taskAt pu ins t τ = some (.push v))
      (at_eq : pushAt (memAt pu ins t τ) v l = some (a, x))
      (reg : (run pu ins c).pifo i = ⟨.push, x, a, l, t⟩)
  | pop (t l τ : ℕ) (node : IsNode P t l (popPath (memAt pu ins t τ) l))
      (bank_eq : bank P t l = i) (time : c = τ + l + 1) (task : taskAt pu ins t τ = some .pop)
      (reg : (run pu ins c).pifo i = popRegs (memAt pu ins t τ) l t)
  | wb (t l τ : ℕ) (node : IsNode P t l (popPath (memAt pu ins t τ) l))
      (bank_eq : bank P t l = i) (time : c = τ + l + 2) (task : taskAt pu ins t τ = some .pop)
      (reg : (run pu ins c).pifo i = wbRegs (memAt pu ins t τ) l t)

/-- A unit works on a node of its own SRAM or does nothing. -/
theorem Holds.work (h : Holds pu ins c) (hlegal : Legal pu ins c) (hi : i < P.LEVEL) :
    Work pu ins c i := by
  cases c with
  | zero => exact .idle rfl
  | succ c =>
    have ht : Tracks (shadow pu ins c i) ((run pu ins (c + 1)).pifo i) :=
      tracks_run pu ins (c + 1) i hi
    have hlegal' := hlegal.mono (Nat.le_succ c)
    obtain ⟨l, hlv⟩ : ∃ l, (shadow pu ins c i).rpuLevel = l := ⟨_, rfl⟩
    have hl : l < P.LEVEL := hlv ▸ (ring_shadow pu ins c).level_lt i hi
    cases hd : (shadow pu ins c i).rpuState with
    | idle => exact .idle (ht.idle hd)
    | push =>
      obtain ⟨t, τ, v, htn, hc, rfl, htask⟩ := exists_push_of_shadow l hlegal' hi hd hlv
      have hreg := h.push t l τ v htn hl (by omega) htask
      cases hat : pushAt (memAt pu ins t τ) v l with
      | none =>
        rw [pushRegs_none t hat] at hreg
        exact .idle hreg
      | some r =>
        obtain ⟨a, x⟩ := r
        rw [pushRegs_some t hat] at hreg
        exact .push t l τ a v x ⟨htn, hl, pushAt_addr_lt l hat⟩ rfl (by omega) htask hat hreg
    | pop =>
      obtain ⟨t, τ, htn, hc, rfl, htask⟩ := exists_pop_of_shadow l hlegal' hi hd hlv
      exact .pop t l τ ⟨htn, hl, popPath_lt _ l⟩ rfl (by omega) htask
        (h.pop t l τ htn hl (by omega) htask)
    | wb =>
      obtain ⟨t, τ, htn, hc, rfl, htask⟩ := exists_wb_of_shadow hlegal' hi hd hlv
      exact .wb t l τ ⟨htn, hl, popPath_lt _ l⟩ rfl (by omega) htask
        (h.wb t l τ htn hl (by omega) htask).1

/-- **The replacement.**  A write-back takes what the level below it finds, and nothing
on the last level. -/
theorem Holds.popDataDn_eq (h3 : 3 ≤ P.LEVEL) (h : Holds pu ins c) (ht : t < P.TREE_NUM)
    (hl : l < P.LEVEL) (hc : c = τ + l + 2) (htask : taskAt pu ins t τ = some .pop) :
    (run pu ins c).popDataDn (bank P t l) =
      if l + 1 < P.LEVEL then popOut (memAt pu ins t τ) (l + 1) else Val.ones := by
  obtain ⟨hst, hlv⟩ := shadow_wb htask hl
  have hlast := levelWb_eq_last_iff pu ins h3 (τ + l + 1) (bank_lt P t l) hst
  rw [hlv, show τ + l + 1 + 1 = c by omega] at hlast
  rw [popDataDn]
  by_cases hl' : l + 1 < P.LEVEL
  · rw [if_pos hl', if_neg (by rw [hlast]; omega), next_bank, PifoSramTop.oPopData,
      h.pop t (l + 1) τ ht hl' (by omega) htask, h.rdata_pop ht hl' (by omega) htask]
    rfl
  · rw [if_neg hl', if_pos (by rw [hlast]; omega)]

/-- A level that no unit works on in cycle `c` looks the same one version on. -/
theorem Holds.stable (h : Holds pu ins c) (ht : t < P.TREE_NUM) (hl : l < P.LEVEL) (a : ℕ)
    (hbusy : ((run pu ins c).pifo (bank P t l)).fsm ≠ .idle →
      ¬(((run pu ins c).pifo (bank P t l)).curTreeId = t ∧
        ((run pu ins c).pifo (bank P t l)).curLevel = l)) :
    memAt pu ins t (c - l) l a = memAt pu ins t (c - 1 - l) l a ∧ Settled pu ins c t l a := by
  constructor
  · rcases Nat.lt_or_ge l c with hlc | hlc
    · obtain ⟨τ, hτ⟩ : ∃ τ, c = τ + l + 1 := ⟨c - l - 1, by omega⟩
      rw [hτ, show τ + l + 1 - l = τ + 1 by omega, show τ + l + 1 - 1 - l = τ by omega]
      cases htask : taskAt pu ins t τ with
      | none => rw [memAt_of_none htask]
      | some x =>
        cases x with
        | push v =>
          have hreg := h.push t l τ v ht hl hτ htask
          cases hat : pushAt (memAt pu ins t τ) v l with
          | none => rw [memAt_push htask hl, pushWord_none hat]
          | some r =>
            rw [pushRegs_some (a := r.1) (x := r.2) t hat] at hreg
            rw [hreg] at hbusy
            exact absurd ⟨rfl, rfl⟩ (hbusy (by simp))
        | pop =>
          rw [h.pop t l τ ht hl hτ htask] at hbusy
          exact absurd ⟨rfl, rfl⟩ (hbusy (by simp [popRegs]))
    · rw [show c - l = 0 by omega, show c - 1 - l = 0 by omega]
  · intro τ hτ htask
    rw [(h.wb t l τ ht hl hτ htask).1] at hbusy
    exact absurd ⟨rfl, rfl⟩ (hbusy (by simp [wbRegs]))

/-- A write to one node leaves all the others alone. -/
theorem ram_succ_of_ne {t₀ l₀ a₀ a : ℕ} {r : Regs P.toWidths}
    (hreg : (run pu ins c).pifo (bank P t l) = r) (hr : r.curTreeId = t₀ ∧ r.curLevel = l₀ ∧
      r.myAddr = a₀) (h₀ : IsNode P t₀ l₀ a₀) (hb : bank P t₀ l₀ = bank P t l)
    (h : IsNode P t l a) (hne : ¬(t = t₀ ∧ l = l₀ ∧ a = a₀)) :
    ((run pu ins (c + 1)).sram (bank P t l)).ram (readAddr P t l a) =
      ((run pu ins c).sram (bank P t l)).ram (readAddr P t l a) := by
  obtain ⟨rfl, rfl, rfl⟩ := hr
  rw [ram_succ, hreg]
  split
  · refine Function.update_of_ne (fun heq => hne ?_) _ _
    rw [writeAddr_eq_readAddr] at heq
    exact readAddr_injective h.hasWord h₀.hasWord hb.symm heq
  · rfl

/-- A write puts its word where the registers say. -/
theorem ram_succ_self {a : ℕ} {r : Regs P.toWidths}
    (hreg : (run pu ins c).pifo (bank P t l) = r) (hr : r.curTreeId = t ∧ r.curLevel = l ∧
      r.myAddr = a) (hfsm : r.fsm ≠ .idle) :
    ((run pu ins (c + 1)).sram (bank P t l)).ram (readAddr P t l a) =
      oWriteData P r ((run pu ins c).sram (bank P t l)).rdata
        ((run pu ins c).popDataDn (bank P t l)) := by
  obtain ⟨rfl, rfl, rfl⟩ := hr
  rw [ram_succ, hreg, if_pos hfsm, writeAddr_eq_readAddr, Function.update_self]

/-- A write for another level of a tree leaves the words of this one, which are settled. -/
theorem Holds.ram_succ_of_other (h : Holds pu ins c) {t₀ l₀ a₀ a : ℕ} {r : Regs P.toWidths}
    (hreg : (run pu ins c).pifo (bank P t l) = r) (hr : r.curTreeId = t₀ ∧ r.curLevel = l₀ ∧
      r.myAddr = a₀) (h₀ : IsNode P t₀ l₀ a₀) (hb : bank P t₀ l₀ = bank P t l)
    (hnode : IsNode P t l a) (hother : ¬(t = t₀ ∧ l = l₀)) :
    ((run pu ins (c + 1)).sram (bank P t l)).ram (readAddr P t l a) =
      memAt pu ins t (c - l) l a := by
  obtain ⟨hmem, hsettled⟩ := h.stable hnode.tree hnode.level a (by
    rw [hreg]
    exact fun _ hx => hother ⟨hx.1.symm.trans hr.1, hx.2.symm.trans hr.2.1⟩)
  rw [PifoSramTop.ram_succ_of_ne hreg hr h₀ hb hnode (fun hx => hother ⟨hx.1, hx.2.1⟩), hmem,
    h.ram t l a hnode hsettled]

/-- The place behind a pop is taken, so its tree has no task in the next cycle. -/
theorem taskAt_succ_of_pop (hl : l < P.LEVEL) (htask : taskAt pu ins t τ = some .pop) :
    taskAt pu ins t (τ + 1) = none := by
  have hwb := (shadow_wb htask hl).1
  cases hx : taskAt pu ins t (τ + 1) with
  | none => rfl
  | some x =>
    cases x with
    | push v =>
      obtain ⟨hst, -⟩ := shadow_push hx hl
      rw [show τ + 1 + l = τ + l + 1 by omega, hwb] at hst
      exact absurd hst (by simp)
    | pop =>
      obtain ⟨hst, -⟩ := shadow_pop hx hl
      rw [show τ + 1 + l = τ + l + 1 by omega, hwb] at hst
      exact absurd hst (by simp)

/-- **The words of a level, one cycle on.** -/
theorem Holds.ram_succ (h3 : 3 ≤ P.LEVEL) (h : Holds pu ins c) (hlegal : Legal pu ins c) {a : ℕ}
    (hnode : IsNode P t l a) (hset : Settled pu ins (c + 1) t l a) :
    ((run pu ins (c + 1)).sram (bank P t l)).ram (readAddr P t l a) =
      memAt pu ins t (c + 1 - 1 - l) l a := by
  have ht := hnode.tree
  have hl := hnode.level
  rw [Nat.add_sub_cancel]
  cases h.work hlegal (bank_lt P t l) with
  | idle hreg =>
    obtain ⟨hmem, hsettled⟩ := h.stable ht hl a (by rw [hreg]; exact fun hx => absurd rfl hx)
    rw [PifoSramTop.ram_succ, hreg, if_neg (by simp [Regs.idle]), hmem, h.ram t l a hnode hsettled]
  | push t₀ l₀ τ a₀ v x hnode₀ hb hc htask hat hreg =>
    by_cases hsame : t = t₀ ∧ l = l₀
    · obtain ⟨rfl, rfl⟩ := hsame
      rw [hc, show τ + l + 1 - l = τ + 1 by omega, ← hc, memAt_push htask hl]
      by_cases ha : a = a₀
      · subst ha
        rw [ram_succ_self hreg ⟨rfl, rfl, rfl⟩ (by simp), h.rdata_push ht hl hc htask hat,
          pushWord_self hat]
        rfl
      · rw [ram_succ_of_ne hreg ⟨rfl, rfl, rfl⟩ hnode₀ hb hnode (fun hx => ha hx.2.2),
          pushWord_of_ne hat ha, h.ram t l a hnode (h.settled ht hl a (by rw [hreg]; simp)), hc,
          show τ + l + 1 - 1 - l = τ by omega]
    · exact h.ram_succ_of_other hreg ⟨rfl, rfl, rfl⟩ hnode₀ hb hnode hsame
  | pop t₀ l₀ τ hnode₀ hb hc htask hreg =>
    by_cases hsame : t = t₀ ∧ l = l₀
    · obtain ⟨rfl, rfl⟩ := hsame
      -- the word the pop writes now will be written again, and is not settled
      have ha : a ≠ popPath (memAt pu ins t τ) l := hset τ (by omega) htask
      rw [hc, show τ + l + 1 - l = τ + 1 by omega, ← hc, memAt_pop htask hl, popWord, if_neg ha,
        ram_succ_of_ne hreg ⟨rfl, rfl, rfl⟩ hnode₀ hb hnode (fun hx => ha hx.2.2),
        h.ram t l a hnode (h.settled ht hl a (by rw [hreg]; simp [popRegs])), hc,
        show τ + l + 1 - 1 - l = τ by omega]
    · exact h.ram_succ_of_other hreg ⟨rfl, rfl, rfl⟩ hnode₀ hb hnode hsame
  | wb t₀ l₀ τ hnode₀ hb hc htask hreg =>
    by_cases hsame : t = t₀ ∧ l = l₀
    · obtain ⟨rfl, rfl⟩ := hsame
      rw [hc, show τ + l + 2 - l = τ + 1 + 1 by omega, ← hc, memAt_of_none (taskAt_succ_of_pop hl htask)]
      by_cases ha : a = popPath (memAt pu ins t τ) l
      · rw [memAt_pop htask hl, popWord, if_pos ha, ha,
          ram_succ_self (a := popPath (memAt pu ins t τ) l) hreg ⟨rfl, rfl, rfl⟩ (by simp [wbRegs]),
          (h.wb t l τ ht hl hc htask).2, h.popDataDn_eq h3 ht hl hc htask]
        rfl
      · have hsettled : Settled pu ins c t l a := by
          intro τ' hc' _
          rw [show τ' = τ by omega]
          exact ha
        rw [ram_succ_of_ne hreg ⟨rfl, rfl, rfl⟩ hnode₀ hb hnode (fun hx => ha hx.2.2),
          h.ram t l a hnode hsettled, hc, show τ + l + 2 - 1 - l = τ + 1 by omega]
    · exact h.ram_succ_of_other hreg ⟨rfl, rfl, rfl⟩ hnode₀ hb hnode hsame

/-- Words that belong to no node are never written. -/
theorem Holds.rest_succ (h : Holds pu ins c) (hlegal : Legal pu ins c) (hi : i < P.LEVEL) {x : ℕ}
    (hx : ∀ t l a, IsNode P t l a → bank P t l = i → readAddr P t l a ≠ x) :
    ((run pu ins (c + 1)).sram i).ram x = initValue _ _ := by
  have hold := h.rest i hi x hx
  have key : ∀ {t l a : ℕ} {r : Regs P.toWidths}, (run pu ins c).pifo i = r → r.curTreeId = t →
      r.curLevel = l → r.myAddr = a → IsNode P t l a → bank P t l = i →
      ((run pu ins (c + 1)).sram i).ram x = initValue _ _ := by
    intro t l a r hreg h1 h2 h3 hnode hb
    have hne := hx t l a hnode hb
    rw [PifoSramTop.ram_succ, hreg, h1, h2, h3]
    split
    · rw [writeAddr_eq_readAddr, Function.update_of_ne hne.symm, hold]
    · exact hold
  cases h.work hlegal hi with
  | idle hreg => rw [PifoSramTop.ram_succ, hreg, if_neg (by simp [Regs.idle]), hold]
  | push t l τ a v y hnode hb _ _ _ hreg => exact key hreg rfl rfl rfl hnode hb
  | pop t l τ hnode hb _ _ hreg => exact key hreg rfl rfl rfl hnode hb
  | wb t l τ hnode hb _ _ hreg => exact key hreg rfl rfl rfl hnode hb

/-- **The invariant holds in every cycle of a legal run.** -/
theorem holds_run (h3 : 3 ≤ P.LEVEL) (hlegal : Legal pu ins c) : Holds pu ins c := by
  induction c with
  | zero => exact holds_zero
  | succ c ih =>
    have hlegal' := hlegal.mono (Nat.le_succ c)
    have h := ih hlegal'
    exact
      { push := fun t l τ v ht hl hc htask => h.push_succ ht hl hc htask
        pop := fun t l τ ht hl hc htask => h.pop_succ ht hl hc htask
        wb := fun t l τ ht hl hc htask => h.wb_succ ht hl hc htask
        ram := fun t l a hnode hset => h.ram_succ h3 hlegal' hnode hset
        rest := fun i hi x hx => h.rest_succ hlegal' hi hx }

/-! ## What comes out -/

/-- The values tree `t` gives out on its port before cycle `c`. -/
def popOutputs (pu : PowerUp P) (ins : ℕ → ℕ → Entry P.toWidths) (t : ℕ) :
    ℕ → List (Val P.toWidths)
  | 0 => []
  | c + 1 => popOutputs pu ins t c ++
      if (run pu ins c).oIsLevel0Pop (t % P.LEVEL) = true ∧
          (run pu ins c).oTreeId (t % P.LEVEL) = t then
        [(run pu ins c).oPopData (t % P.LEVEL)]
      else []

/-- A level-0 pop in cycle `c + 1` is the pop of the tree it names, announced in
cycle `c`. -/
theorem taskAt_of_level0Pop (h3 : 3 ≤ P.LEVEL) (hlegal : Legal pu ins (c + 1)) (hi : i < P.LEVEL)
    (hpop : (run pu ins (c + 1)).oIsLevel0Pop i = true) :
    (run pu ins (c + 1)).oTreeId i < P.TREE_NUM ∧
      (run pu ins (c + 1)).oTreeId i % P.LEVEL = i ∧
      taskAt pu ins ((run pu ins (c + 1)).oTreeId i) c = some .pop := by
  obtain ⟨t, ht, hti, htask⟩ := exists_taskAt_pop (hlegal.mono (Nat.le_succ c)) hi
    ((oIsLevel0Pop_iff pu ins c hi).mp hpop)
  have hreg := (holds_run h3 hlegal).pop t 0 c ht P.LEVEL_pos rfl htask
  rw [bank_zero, hti] at hreg
  have htree : (run pu ins (c + 1)).oTreeId i = t := by
    rw [oTreeId, hreg]
    rfl
  rw [htree]
  exact ⟨ht, hti, htask⟩

/-- The value a pop announced in cycle `c` shows in cycle `c + 1`. -/
theorem output_of_taskAt (h3 : 3 ≤ P.LEVEL) (hlegal : Legal pu ins (c + 1)) (ht : t < P.TREE_NUM)
    (htask : taskAt pu ins t c = some .pop) :
    (run pu ins (c + 1)).oIsLevel0Pop (t % P.LEVEL) = true ∧
      (run pu ins (c + 1)).oTreeId (t % P.LEVEL) = t ∧
      (run pu ins (c + 1)).oPopData (t % P.LEVEL) = seqPopData P.LEVEL (memAt pu ins t c) := by
  have h := holds_run h3 hlegal
  have hreg := h.pop t 0 c ht P.LEVEL_pos rfl htask
  have hword := h.rdata_pop ht P.LEVEL_pos rfl htask
  rw [bank_zero] at hreg hword
  refine ⟨?_, ?_, ?_⟩
  · rw [oIsLevel0Pop, hreg]
    rfl
  · rw [oTreeId, hreg]
    rfl
  · rw [PifoSramTop.oPopData, hreg, hword, seqPopData_eq P.LEVEL_pos]
    rfl

/-- **What has come out is what the sequential engine answers to the announced tasks.** -/
theorem popOutputs_eq (h3 : 3 ≤ P.LEVEL) (ht : t < P.TREE_NUM) (hlegal : Legal pu ins c) :
    popOutputs pu ins t (c + 1) = seqOutputs P.LEVEL P.order (started pu ins t c) := by
  induction c with
  | zero => rfl
  | succ c ih =>
    rw [popOutputs, ih (hlegal.mono (Nat.le_succ c)), started_succ]
    cases htask : taskAt pu ins t c with
    | none =>
      rw [if_neg, List.append_nil, Option.toList_none, List.append_nil]
      rintro ⟨hpop, htree⟩
      have := (taskAt_of_level0Pop h3 hlegal (Nat.mod_lt t P.LEVEL_pos) hpop).2.2
      rw [htree, htask] at this
      exact absurd this (by simp)
    | some x =>
      cases x with
      | push v =>
        rw [if_neg, List.append_nil, Option.toList_some, seqOutputs_push]
        rintro ⟨hpop, htree⟩
        have := (taskAt_of_level0Pop h3 hlegal (Nat.mod_lt t P.LEVEL_pos) hpop).2.2
        rw [htree, htask] at this
        exact absurd this (by simp)
      | pop =>
        obtain ⟨hpop, htree, hdata⟩ := output_of_taskAt h3 hlegal ht htask
        rw [if_pos ⟨hpop, htree⟩, hdata, Option.toList_some, seqOutputs_pop]
        rfl

/-! ## The drained engine -/

/-- Nothing waits, nothing is announced and no unit works. -/
structure Drained (S : PifoSramTop P) : Prop where
  pending : ∀ i < P.LEVEL, S.pending i = []
  quiet : ∀ i < P.LEVEL, (S.td i).rpuPushNew = false ∧ (S.td i).rpuPopNew = false
  idle : ∀ i < P.LEVEL, (S.pifo i).fsm = .idle

theorem taskAt_of_quiet (h : (run pu ins c).Drained) (t : ℕ) : taskAt pu ins t c = none := by
  obtain ⟨h1, h2⟩ := h.quiet _ (Nat.mod_lt t P.LEVEL_pos)
  have hann : (shadow pu ins c (t % P.LEVEL)).announcement = [] := by
    rw [Rpu.announcement, show (shadow pu ins c (t % P.LEVEL)).rpuPushNew = false from h1,
      show (shadow pu ins c (t % P.LEVEL)).rpuPopNew = false from h2]
    rfl
  rw [taskAt, hann]
  rfl

/-- In a drained engine every task that entered has been started. -/
theorem started_eq_entered (h : (run pu ins c).Drained) (hno : NoOverflowBefore pu ins c) (t : ℕ) :
    started pu ins t c = entered ins t c := by
  have hw : (run pu ins c).waiting t = [] := by
    rw [waiting, h.pending _ (Nat.mod_lt t P.LEVEL_pos), ofTree_nil]
  have hsplit := started_append_waiting hno t
  rw [hw, List.append_nil, started_succ, taskAt_of_quiet h, Option.toList_none,
    List.append_nil] at hsplit
  exact hsplit

/-- When no unit works, the tasks still on their way down have ended above. -/
theorem memAt_of_idle (h : Holds pu ins c) (hd : (run pu ins c).Drained) (ht : t < P.TREE_NUM)
    (hl : l < P.LEVEL) (a : ℕ) (d : ℕ) (hdl : d ≤ l + 1) :
    memAt pu ins t (c - d) l a = memAt pu ins t c l a := by
  induction d with
  | zero => rfl
  | succ d ih =>
    rw [← ih (by omega)]
    rcases Nat.lt_or_ge d c with hdc | hdc
    · -- a task announced in cycle `c - (d + 1)` is on level `d` now
      obtain ⟨τ, hτ⟩ : ∃ τ, c = τ + d + 1 := ⟨c - d - 1, by omega⟩
      rw [show c - (d + 1) = τ by omega, show c - d = τ + 1 by omega]
      have hidle := hd.idle _ (bank_lt P t d)
      cases htask : taskAt pu ins t τ with
      | none => rw [memAt_of_none htask]
      | some x =>
        cases x with
        | push v =>
          rw [h.push t d τ v ht (by omega) hτ htask] at hidle
          cases hat : pushAt (memAt pu ins t τ) v d with
          | none => rw [memAt_push htask hl, pushWord_none (pushAt_none_of_le hat (by omega))]
          | some r =>
            rw [pushRegs_some (a := r.1) (x := r.2) t hat] at hidle
            exact absurd hidle (by simp)
        | pop =>
          rw [h.pop t d τ ht (by omega) hτ htask] at hidle
          exact absurd hidle (by simp [popRegs])
    · rw [show c - (d + 1) = c - d by omega]

/-- The words of a drained engine. -/
theorem ram_of_drained (h : Holds pu ins c) (hd : (run pu ins c).Drained)
    (hno : NoOverflowBefore pu ins c) {a : ℕ} (hnode : IsNode P t l a) :
    ((run pu ins c).sram (bank P t l)).ram (readAddr P t l a) =
      seqMem P.LEVEL P.order (entered ins t c) l a := by
  have hsettled := h.settled hnode.tree hnode.level a
    (by rw [hd.idle _ (bank_lt P t l)]; simp)
  rw [h.ram t l a hnode hsettled, show c - 1 - l = c - (l + 1) by omega,
    memAt_of_idle h hd hnode.tree hnode.level a (l + 1) le_rfl, memAt, started_eq_entered hd hno]

/-- **The pipelined engine is the one-task-at-a-time engine.**  Take any parameters with at
least three levels, any contents of the unreset registers, and any inputs up to cycle
`c` in which every task is presented on the port of its tree and no FIFO overflows.
A level-0 pop belongs to a tree of its port, and its value is what the sequential engine
answers to the next pop of that tree after the tasks that came before it; what a tree has
given out is, in order, what the sequential engine answers to the tasks of that tree in
the order they entered; and when the pipeline has drained the answers are complete and
every SRAM word is the word of the sequential engine. -/
theorem pipelined_eq_sequential (P : Params) (pu : PowerUp P) (ins : ℕ → ℕ → Entry P.toWidths)
    (c : ℕ) (h3 : 3 ≤ P.LEVEL) (hlegal : Legal pu ins c) :
    (∀ i < P.LEVEL, (run pu ins c).oIsLevel0Pop i = true →
      (run pu ins c).oTreeId i < P.TREE_NUM ∧ (run pu ins c).oTreeId i % P.LEVEL = i ∧
      ∃ ts, ts ++ [.pop] <+: entered ins ((run pu ins c).oTreeId i) c ∧
        popOutputs pu ins ((run pu ins c).oTreeId i) c = seqOutputs P.LEVEL P.order ts ∧
        (run pu ins c).oPopData i = seqPopData P.LEVEL (seqMem P.LEVEL P.order ts)) ∧
    (∀ t < P.TREE_NUM,
      popOutputs pu ins t (c + 1) <+: seqOutputs P.LEVEL P.order (entered ins t c)) ∧
    ((run pu ins c).Drained →
      (∀ t < P.TREE_NUM,
        popOutputs pu ins t (c + 1) = seqOutputs P.LEVEL P.order (entered ins t c)) ∧
      (∀ t l a, IsNode P t l a →
        ((run pu ins c).sram (bank P t l)).ram (readAddr P t l a) =
          seqMem P.LEVEL P.order (entered ins t c) l a) ∧
      (∀ i < P.LEVEL, ∀ x, (∀ t l a, IsNode P t l a → bank P t l = i → readAddr P t l a ≠ x) →
        ((run pu ins c).sram i).ram x = initValue _ _)) := by
  have h := holds_run h3 hlegal
  refine ⟨fun i hi hpop => ?_, fun t ht => ?_, fun hd => ⟨fun t ht => ?_, ?_, h.rest⟩⟩
  · cases c with
    | zero =>
      exact absurd hpop (by simp [run, reset, oIsLevel0Pop, PifoSram.oIsLevel0Pop, Regs.idle])
    | succ c =>
      obtain ⟨ht, hti, htask⟩ := taskAt_of_level0Pop h3 hlegal hi hpop
      obtain ⟨-, -, hdata⟩ := output_of_taskAt h3 hlegal ht htask
      have hstarted := started_succ pu ins ((run pu ins (c + 1)).oTreeId i) c
      rw [htask, Option.toList_some] at hstarted
      rw [hti] at hdata
      refine ⟨ht, hti, started pu ins _ c, ?_, popOutputs_eq h3 ht (hlegal.mono (Nat.le_succ c)),
        hdata⟩
      rw [← hstarted]
      exact (started_isPrefix _ _).trans (started_prefix_entered hlegal.noOverflow _)
  · rw [popOutputs_eq h3 ht hlegal]
    exact seqOutputs_isPrefix ((started_isPrefix t c).trans
      (started_prefix_entered hlegal.noOverflow t))
  · rw [popOutputs_eq h3 ht hlegal, started_eq_entered hd hlegal.noOverflow]
  · exact fun t l a hnode => ram_of_drained h hd hlegal.noOverflow hnode

/-- Three levels and three trees of two-slot nodes. -/
def threeLevels : Params where
  PTW := 4
  MTW := 2
  CTW := 4
  order := .two
  arbiter := .vPIFO
  LEVEL := 3
  TREE_NUM := 3
  FIFO_WIDTH := 1
  two_le_LEVEL := by decide
  two_le_TREE_NUM := by decide
  one_le_FIFO_WIDTH := by decide

/-- Two pushes to tree 0 and two pops, the first pop in the word of the second push, while
tree 1 is pushed once. -/
def shortRun (c i : ℕ) : Entry threeLevels.toWidths :=
  if c = 0 ∧ i = 0 then ⟨true, false, 0, 0, ⟨1, 5⟩⟩
  else if c = 0 ∧ i = 1 then ⟨true, false, 1, 0, ⟨3, 4⟩⟩
  else if c = 1 ∧ i = 0 then ⟨true, true, 0, 0, ⟨2, 3⟩⟩
  else if c = 5 ∧ i = 0 then ⟨false, true, 0, 0, ⟨0, 0⟩⟩
  else Entry.zero

theorem pipelined_eq_sequential_shortRun :
    (run (PowerUp.blank threeLevels) shortRun 15).Drained ∧
      popOutputs (PowerUp.blank threeLevels) shortRun 0 16 = [⟨2, 3⟩, ⟨1, 5⟩] ∧
      popOutputs (PowerUp.blank threeLevels) shortRun 0 16 =
        seqOutputs 3 .two (entered shortRun 0 15) := by
  have hlegal : Legal (PowerUp.blank threeLevels) shortRun 15 :=
    ⟨by decide +kernel, by decide +kernel⟩
  have hdrained : (run (PowerUp.blank threeLevels) shortRun 15).Drained :=
    ⟨by decide +kernel, by decide +kernel, by decide +kernel⟩
  obtain ⟨-, -, hdone⟩ :=
    pipelined_eq_sequential threeLevels (PowerUp.blank threeLevels) shortRun 15
    (by decide) hlegal
  exact ⟨hdrained, by decide +kernel, (hdone hdrained).1 0 (by decide)⟩

end VPifo.PifoSramTop
