import Mathlib.Data.List.Basic

/-!
# Runs of steps that may have no result

A program that takes a step for every element of a list, and has no result as soon as a step has
none, is a `foldlM` in `Option`.  What every step keeps is kept by the whole run, with the number
of steps where it matters (`foldlM_keeps`, `foldlM_range_keeps`); where every step has a result
the run has one (`exists_foldlM_range`); and steps that agree through a map of the states make
runs that agree through it (`map_foldlM`).  A loop whose steps always have a result is a `foldl`
and has the same rules (`foldl_of_idle`, `foldl_range_keeps`).

The last section is about runs that go on forever.  A number that never grows, and becomes less
before too long as long as it is not zero, is zero in the end (`drained`).
-/

namespace VPifo.Runs

variable {σ τ α : Type} {step : σ → α → Option σ} {as : List α} {s s' : σ}

/-- A run begins with its first step. -/
theorem of_foldlM_cons {a : α} (h : (a :: as).foldlM step s = some s') :
    ∃ s₁, step s a = some s₁ ∧ as.foldlM step s₁ = some s' := by
  rw [List.foldlM_cons] at h
  exact Option.bind_eq_some_iff.mp h

/-- **What every step keeps, the run keeps.** -/
theorem foldlM_keeps {P : σ → Prop}
    (hstep : ∀ a ∈ as, ∀ {s s'}, P s → step s a = some s' → P s') :
    ∀ {s s'}, P s → as.foldlM step s = some s' → P s' := by
  induction as with
  | nil => exact fun hs h => Option.some.inj h ▸ hs
  | cons a as ih =>
    intro s s' hs h
    obtain ⟨s₁, hs₁, hrest⟩ := of_foldlM_cons h
    exact ih (fun b hb => hstep b (List.mem_cons_of_mem a hb))
      (hstep a List.mem_cons_self hs hs₁) hrest

/-- A step that leaves the state as it is, for every element. -/
theorem foldlM_of_idle (h : ∀ a ∈ as, step s a = some s) : as.foldlM step s = some s := by
  induction as with
  | nil => rfl
  | cons a as ih =>
    obtain ⟨ha, hrest⟩ := List.forall_mem_cons.mp h
    rw [List.foldlM_cons, ha]
    exact ih hrest

/-- The same for steps that always have a result. -/
theorem foldl_of_idle {step : σ → α → σ} (h : ∀ a ∈ as, step s a = s) : as.foldl step s = s := by
  induction as with
  | nil => rfl
  | cons a as ih =>
    obtain ⟨ha, hrest⟩ := List.forall_mem_cons.mp h
    rw [List.foldl_cons, ha]
    exact ih hrest

/-- **Steps that agree through a map** make runs that agree through it. -/
theorem map_foldlM {step' : τ → α → Option τ} {f : σ → τ}
    (h : ∀ s a, (step s a).map f = step' (f s) a) (as : List α) :
    ∀ s, (as.foldlM step s).map f = as.foldlM step' (f s) := by
  induction as with
  | nil => exact fun _ => rfl
  | cons a as ih =>
    intro s
    rw [List.foldlM_cons, List.foldlM_cons, ← h s a]
    cases step s a with
    | none => rfl
    | some s₁ => exact ih s₁

/-! ## Loops with a counter -/

section Range

variable {step : σ → ℕ → Option σ} {P : ℕ → σ → Prop} {n : ℕ}

theorem foldlM_range_succ (s : σ) (n : ℕ) : (List.range (n + 1)).foldlM step s =
    ((List.range n).foldlM step s).bind fun s' => step s' n := by
  rw [List.range_succ, List.foldlM_append]
  simp

/-- What every round keeps, up to a round. -/
theorem foldlM_range_keeps (hs : P 0 s)
    (hstep : ∀ i < n, ∀ {s s'}, P i s → step s i = some s' → P (i + 1) s') :
    ∀ {s'}, (List.range n).foldlM step s = some s' → P n s' := by
  induction n with
  | zero => exact fun h => Option.some.inj h ▸ hs
  | succ n ih =>
    intro s' h
    rw [foldlM_range_succ] at h
    obtain ⟨s₁, hs₁, hlast⟩ := Option.bind_eq_some_iff.mp h
    exact hstep n (Nat.lt_succ_self n) (ih (fun i hi => hstep i (Nat.lt_succ_of_lt hi)) hs₁) hlast

/-- What every round keeps, up to a round, in a loop whose rounds always have a result. -/
theorem foldl_range_keeps {step : σ → ℕ → σ} (hs : P 0 s)
    (hstep : ∀ i < n, ∀ {s}, P i s → P (i + 1) (step s i)) :
    P n ((List.range n).foldl step s) := by
  induction n with
  | zero => exact hs
  | succ n ih =>
    rw [List.range_succ, List.foldl_append, List.foldl_cons, List.foldl_nil]
    exact hstep n (Nat.lt_succ_self n) (ih fun i hi => hstep i (Nat.lt_succ_of_lt hi))

/-- **A loop whose rounds all have a result** has one. -/
theorem exists_foldlM_range (hs : P 0 s)
    (hstep : ∀ i < n, ∀ {s}, P i s → ∃ s', step s i = some s' ∧ P (i + 1) s') :
    ∃ s', (List.range n).foldlM step s = some s' ∧ P n s' := by
  induction n with
  | zero => exact ⟨s, rfl, hs⟩
  | succ n ih =>
    obtain ⟨s₁, hrun, hs₁⟩ := ih fun i hi => hstep i (Nat.lt_succ_of_lt hi)
    obtain ⟨s₂, hlast, hs₂⟩ := hstep n (Nat.lt_succ_self n) hs₁
    exact ⟨s₂, by rw [foldlM_range_succ, hrun]; exact hlast, hs₂⟩

end Range

/-! ## Work that runs out -/

section Drained

variable {f : ℕ → ℕ} {B c : ℕ}

theorem never_grows (hle : ∀ k, c ≤ k → f (k + 1) ≤ f k) {k : ℕ} (hk : c ≤ k) (d : ℕ) :
    f (k + d) ≤ f k := by
  induction d with
  | zero => exact Nat.le_refl _
  | succ d ih => exact Nat.le_trans (hle (k + d) (Nat.le_add_right_of_le hk)) ih

/-- **Work that becomes less within every `B` steps** is done in `B` steps for each of its
parts. -/
theorem drained (hle : ∀ k, c ≤ k → f (k + 1) ≤ f k)
    (hless : ∀ k, c ≤ k → 0 < f k → ∃ j ≤ B, f (k + j) < f k) :
    f (c + B * f c) = 0 := by
  -- by induction on a bound for what is left
  have hbound : ∀ n k, c ≤ k → f k ≤ n → f (k + B * n) = 0 := by
    intro n
    induction n with
    | zero => exact fun k _ hk => Nat.le_zero.mp hk
    | succ n ih =>
      intro k hck hk
      rcases Nat.eq_zero_or_pos (f k) with hzero | hpos
      · have hmono := never_grows hle hck (B * (n + 1))
        omega
      · obtain ⟨j, hj, hlt⟩ := hless k hck hpos
        have hmono := never_grows hle (Nat.le_add_right_of_le hck) (k := k + j) (B - j)
        rw [Nat.add_assoc, Nat.add_sub_of_le hj] at hmono
        rw [Nat.mul_succ, Nat.add_comm (B * n), ← Nat.add_assoc]
        exact ih (k + B) (Nat.le_add_right_of_le hck) (by omega)
  exact hbound (f c) c (Nat.le_refl c) (Nat.le_refl _)

end Drained

end VPifo.Runs
