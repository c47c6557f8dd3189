import VPifo.Hardware.Node

/-!
# One task at a time

The sequential engine runs a task of a tree down all its levels before the next
task of the tree starts.  It is the yardstick for the pipelined engine: the node
rule is the hardware's, and everything about timing is gone.

A tree is a memory `Mem o W`, addressed by the level and the index inside the level.
`descendPush` follows a push down and reports the value that falls off the last level,
if one does; `descendPop` follows a pop down and refills every node on the way back
from its child.

The second half reads both descents level by level.  `pushAt` is what arrives at a
level during a push and `popPath` where a pop passes a level; what the descent does
to a level depends on nothing but that (`descendPush_level`, `descendPop_level`).
This is the form the pipeline is compared with, since its units work on one level
each.
-/

namespace VPifo

/-- The words of one tree: level, then index inside the level. -/
abbrev Mem (o : Order) (W : Widths) := ℕ → ℕ → Node o W

/-- A task of one tree. -/
inductive Task (W : Widths) where
  | push (v : Val W)
  | pop
  deriving DecidableEq

section Sequential

variable {o : Order} {W : Widths}

/-- Write one word. -/
def Mem.write (m : Mem o W) (l a : ℕ) (w : Node o W) : Mem o W :=
  fun l' a' => if l' = l ∧ a' = a then w else m l' a'

/-- The tree after reset. -/
def Mem.init (o : Order) (W : Widths) : Mem o W := fun _ _ => initValue o W

@[simp] theorem Mem.write_self (m : Mem o W) (l a : ℕ) (w : Node o W) :
    m.write l a w l a = w := by
  simp [Mem.write]

theorem Mem.write_of_ne (m : Mem o W) {l a l' a' : ℕ} (w : Node o W)
    (h : ¬(l' = l ∧ a' = a)) : m.write l a w l' a' = m l' a' := if_neg h

theorem Mem.write_of_level_ne (m : Mem o W) {l a l' a' : ℕ} (w : Node o W) (h : l' ≠ l) :
    m.write l a w l' a' = m l' a' := if_neg fun hh => h hh.1

theorem Mem.write_eq_self (m : Mem o W) (l a : ℕ) : m.write l a (m l a) = m := by
  funext l' a'
  by_cases h : l' = l ∧ a' = a
  · rw [h.1, h.2, Mem.write_self]
  · rw [Mem.write_of_ne _ _ h]

/-- A push with `n` levels left, at node `a` of level `l`.  The second component is
the value that found no room, if there is one. -/
def descendPush : ℕ → ℕ → ℕ → Val W → Mem o W → Mem o W × Option (Val W)
  | 0, _, _, v, m => (m, some v)
  | n + 1, l, a, v, m =>
    match pushNode (m l a) v with
    | (w, none) => (m.write l a w, none)
    | (w, some u) => descendPush n (l + 1) (pushChild (m l a) a) u (m.write l a w)

/-- A pop with `n` levels left, at node `a` of level `l`.  The child is popped first
and its answer refills the node; below the last level there is nothing. -/
def descendPop : ℕ → ℕ → ℕ → Mem o W → Mem o W × Val W
  | 0, _, _, m => (m, Val.ones)
  | n + 1, l, a, m =>
    let r := descendPop n (l + 1) (popChild (m l a) a) m
    (r.1.write l a (popNode (m l a) r.2), popData (m l a))

variable (L : ℕ)

/-- Run one task of a tree of `L` levels to completion. -/
def seqStep (m : Mem o W) : Task W → Mem o W
  | .push v => (descendPush L 0 0 v m).1
  | .pop => (descendPop L 0 0 m).1

/-- The tree after a list of tasks. -/
def seqMem (o : Order) (ts : List (Task W)) : Mem o W := ts.foldl (seqStep L) (Mem.init o W)

/-- What the next pop would answer. -/
def seqPopData (m : Mem o W) : Val W := (descendPop L 0 0 m).2

/-- The answers of the pops of a list of tasks, starting from a given tree. -/
def seqOutputsFrom (m : Mem o W) : List (Task W) → List (Val W)
  | [] => []
  | .push v :: ts => seqOutputsFrom (seqStep L m (.push v)) ts
  | .pop :: ts => seqPopData L m :: seqOutputsFrom (seqStep L m .pop) ts

/-- The answers of the pops of a list of tasks, starting from reset. -/
def seqOutputs (o : Order) (ts : List (Task W)) : List (Val W) :=
  seqOutputsFrom L (Mem.init o W) ts

variable {L}

@[simp] theorem seqMem_nil : seqMem L o ([] : List (Task W)) = Mem.init o W := rfl

theorem seqMem_append_singleton (ts : List (Task W)) (t : Task W) :
    seqMem L o (ts ++ [t]) = seqStep L (seqMem L o ts) t := by
  simp [seqMem]

theorem seqOutputsFrom_append (m : Mem o W) (ts us : List (Task W)) :
    seqOutputsFrom L m (ts ++ us) =
      seqOutputsFrom L m ts ++ seqOutputsFrom L (ts.foldl (seqStep L) m) us := by
  induction ts generalizing m with
  | nil => rfl
  | cons t ts ih =>
    cases t with
    | push v => exact ih _
    | pop => exact congrArg (List.cons _) (ih _)

theorem seqOutputs_push (ts : List (Task W)) (v : Val W) :
    seqOutputs L o (ts ++ [.push v]) = seqOutputs L o ts := by
  rw [seqOutputs, seqOutputsFrom_append]
  exact List.append_nil _

theorem seqOutputs_pop (ts : List (Task W)) :
    seqOutputs L o (ts ++ [.pop]) =
      seqOutputs L o ts ++ [seqPopData L (seqMem L o ts)] := by
  rw [seqOutputs, seqOutputsFrom_append]
  rfl

theorem seqOutputs_isPrefix {ts us : List (Task W)} (h : ts <+: us) :
    seqOutputs L o ts <+: seqOutputs L o us := by
  obtain ⟨vs, rfl⟩ := h
  rw [seqOutputs, seqOutputs, seqOutputsFrom_append]
  exact List.prefix_append _ _

/-! ## A push, level by level -/

/-- What arrives at a level while `v` is pushed: the node and the value, or nothing
when the push has ended above. -/
def pushAt (m : Mem o W) (v : Val W) : ℕ → Option (ℕ × Val W)
  | 0 => some (0, v)
  | l + 1 =>
    match pushAt m v l with
    | none => none
    | some (a, x) =>
      match (pushNode (m l a) x).2 with
      | none => none
      | some u => some (pushChild (m l a) a, u)

theorem pushAt_succ_none {m : Mem o W} {v : Val W} {l : ℕ} (h : pushAt m v l = none) :
    pushAt m v (l + 1) = none := by
  rw [pushAt, h]

theorem pushAt_none_of_le {m : Mem o W} {v : Val W} {l l' : ℕ} (h : pushAt m v l = none)
    (hl : l ≤ l') : pushAt m v l' = none := by
  obtain ⟨d, rfl⟩ := Nat.exists_eq_add_of_le hl
  clear hl
  induction d with
  | zero => exact h
  | succ d ih => exact pushAt_succ_none ih

theorem pushAt_succ_some {m : Mem o W} {v x : Val W} {l a : ℕ}
    (h : pushAt m v l = some (a, x)) :
    pushAt m v (l + 1) =
      (pushNode (m l a) x).2.map fun u => (pushChild (m l a) a, u) := by
  rw [pushAt, h]
  cases hd : (pushNode (m l a) x).2 <;> simp [hd]

/-- A push only passes nodes of the tree. -/
theorem pushAt_addr_lt {m : Mem o W} {v : Val W} (l : ℕ) :
    ∀ {a : ℕ} {x : Val W}, pushAt m v l = some (a, x) → a < o.D ^ l := by
  induction l with
  | zero =>
    intro a x h
    obtain ⟨rfl, -⟩ := Prod.mk.inj (Option.some.inj h)
    exact Nat.one_pos
  | succ l ih =>
    intro a x h
    cases hl : pushAt m v l with
    | none => rw [pushAt_succ_none hl] at h; exact absurd h (by simp)
    | some r =>
      rw [pushAt_succ_some hl] at h
      obtain ⟨u, -, hu⟩ := Option.map_eq_some_iff.mp h
      rw [← (Prod.mk.inj hu).1]
      exact o.child_lt (ih hl) (minSubTree _).isLt

/-- What a push leaves at a word: the node rule if the push passes the word, and the
word itself otherwise. -/
def pushWord (m : Mem o W) (v : Val W) (l a : ℕ) : Node o W :=
  match pushAt m v l with
  | some (b, x) => if a = b then (pushNode (m l b) x).1 else m l a
  | none => m l a

theorem pushWord_none {m : Mem o W} {v : Val W} {l : ℕ} (h : pushAt m v l = none) (a : ℕ) :
    pushWord m v l a = m l a := by
  rw [pushWord, h]

theorem pushWord_self {m : Mem o W} {v x : Val W} {l a : ℕ}
    (h : pushAt m v l = some (a, x)) : pushWord m v l a = (pushNode (m l a) x).1 := by
  simp [pushWord, h]

theorem pushWord_of_ne {m : Mem o W} {v x : Val W} {l a b : ℕ}
    (h : pushAt m v l = some (b, x)) (hne : a ≠ b) : pushWord m v l a = m l a := by
  simp [pushWord, h, hne]

/-- The descent from level `l` on, when it has reached level `l` as `pushAt` says and
the levels from `l` on are still untouched. -/
theorem descendPush_level_from {m₀ : Mem o W} {v : Val W} (n : ℕ) :
    ∀ {l a : ℕ} {x : Val W} {m : Mem o W}, pushAt m₀ v l = some (a, x) →
      (∀ l' a', l ≤ l' → m l' a' = m₀ l' a') →
      ∀ l' a', (descendPush n l a x m).1 l' a' =
        if l ≤ l' ∧ l' < l + n then pushWord m₀ v l' a' else m l' a' := by
  induction n with
  | zero =>
    intro l a x m _ _ l' a'
    rw [descendPush, if_neg (by omega)]
  | succ n ih =>
    intro l a x m hat hm l' a'
    have hw : m l a = m₀ l a := hm l a le_rfl
    have hnext := pushAt_succ_some hat
    -- the word of level `l` is written here, and nowhere later in the descent
    have hwrite : ∀ b, m.write l a (pushNode (m l a) x).1 l b = pushWord m₀ v l b := by
      intro b
      by_cases hb : b = a
      · rw [hb, Mem.write_self, pushWord_self hat, hw]
      · rw [Mem.write_of_ne _ _ (by tauto), pushWord_of_ne hat hb, hm l b le_rfl]
    rw [descendPush]
    cases hd : pushNode (m l a) x with
    | mk w down =>
      rw [hw] at hd
      rw [hd] at hnext
      rw [hw, hd] at hwrite
      cases down with
      | none =>
        have hend : pushAt m₀ v (l + 1) = none := hnext
        show m.write l a w l' a' = _
        by_cases hl : l ≤ l' ∧ l' < l + (n + 1)
        · rw [if_pos hl]
          rcases Nat.eq_or_lt_of_le hl.1 with rfl | hlt
          · exact hwrite a'
          · rw [Mem.write_of_level_ne _ _ (by omega), hm l' a' hl.1,
              pushWord_none (pushAt_none_of_le hend hlt)]
        · rw [if_neg hl]
          rcases Nat.lt_or_ge l' l with hlt | hge
          · rw [Mem.write_of_level_ne _ _ (by omega)]
          · rw [Mem.write_of_level_ne _ _ (by omega)]
      | some u =>
        show (descendPush n (l + 1) (pushChild (m l a) a) u (m.write l a w)).1 l' a' = _
        have hat' : pushAt m₀ v (l + 1) = some (pushChild (m l a) a, u) := by
          rw [hw]; exact hnext
        have hm' : ∀ l' a', l + 1 ≤ l' → m.write l a w l' a' = m₀ l' a' := fun l' a' hl' => by
          rw [Mem.write_of_level_ne _ _ (by omega), hm l' a' (by omega)]
        rw [ih hat' hm' l' a']
        by_cases hl : l + 1 ≤ l' ∧ l' < l + 1 + n
        · rw [if_pos hl, if_pos (by omega)]
        · rw [if_neg hl]
          by_cases hll : l' = l
          · rw [if_pos (by omega), hll, hwrite a']
          · rw [if_neg (by omega), Mem.write_of_level_ne _ _ hll]

/-- **A push, level by level.** -/
theorem descendPush_level (L : ℕ) (m : Mem o W) (v : Val W) (l a : ℕ) :
    (descendPush L 0 0 v m).1 l a = if l < L then pushWord m v l a else m l a := by
  have hat : pushAt m v 0 = some (0, v) := rfl
  have h := descendPush_level_from L hat (fun _ _ _ => rfl) l a
  simpa using h

/-! ## A pop, level by level -/

/-- Where a pop passes a level. -/
def popPath (m : Mem o W) : ℕ → ℕ
  | 0 => 0
  | l + 1 => popChild (m l (popPath m l)) (popPath m l)

/-- A pop only passes nodes of the tree. -/
theorem popPath_lt (m : Mem o W) (l : ℕ) : popPath m l < o.D ^ l := by
  induction l with
  | zero => exact Nat.one_pos
  | succ l ih => exact o.child_lt ih (minDataPort _).isLt

/-- What a pop finds at a level, and hands to the level above. -/
def popOut (m : Mem o W) (l : ℕ) : Val W := popData (m l (popPath m l))

/-- What a pop leaves at a word of a tree of `L` levels. -/
def popWord (L : ℕ) (m : Mem o W) (l a : ℕ) : Node o W :=
  if a = popPath m l then
    popNode (m l a) (if l + 1 < L then popOut m (l + 1) else Val.ones)
  else m l a

theorem descendPop_level_from {m : Mem o W} (n : ℕ) :
    ∀ l, (descendPop n l (popPath m l) m).2 = (if 0 < n then popOut m l else Val.ones) ∧
      ∀ l' a', (descendPop n l (popPath m l) m).1 l' a' =
        if l ≤ l' ∧ l' < l + n then popWord (l + n) m l' a' else m l' a' := by
  induction n with
  | zero =>
    intro l
    refine ⟨by simp [descendPop], fun l' a' => ?_⟩
    rw [descendPop, if_neg (by omega)]
  | succ n ih =>
    intro l
    obtain ⟨hval, hmem⟩ := ih (l + 1)
    have hpath : popChild (m l (popPath m l)) (popPath m l) = popPath m (l + 1) := rfl
    refine ⟨by simp [descendPop, popOut], fun l' a' => ?_⟩
    rw [descendPop, hpath]
    dsimp only
    by_cases hw : l' = l ∧ a' = popPath m l
    · obtain ⟨rfl, rfl⟩ := hw
      rw [Mem.write_self, if_pos (by omega), popWord, if_pos rfl, hval]
      exact congrArg (popNode _) (if_congr (by omega) rfl rfl)
    · rw [Mem.write_of_ne _ _ hw, hmem, show l + 1 + n = l + (n + 1) by omega]
      by_cases hl : l' = l
      · rw [if_neg (by omega), if_pos (by omega), popWord,
          if_neg (fun h => hw ⟨hl, by rw [h, hl]⟩)]
      · exact if_congr (by omega) rfl rfl

/-- **A pop, level by level.** -/
theorem descendPop_level (L : ℕ) (m : Mem o W) (l a : ℕ) :
    (descendPop L 0 0 m).1 l a = if l < L then popWord L m l a else m l a := by
  have h := (descendPop_level_from (m := m) L 0).2 l a
  rw [Nat.zero_add] at h
  rw [show popPath m 0 = 0 from rfl] at h
  simpa using h

theorem seqPopData_eq {L : ℕ} (hL : 0 < L) (m : Mem o W) : seqPopData L m = popOut m 0 := by
  have h := (descendPop_level_from (m := m) L 0).1
  rw [if_pos hL] at h
  exact h

end Sequential

end VPifo
