import Mathlib.Algebra.BigOperators.Ring.List
import Mathlib.Algebra.Order.BigOperators.Group.List
import Mathlib.Algebra.Order.Field.Basic
import Mathlib.Tactic.Linarith
import Mathlib.Tactic.Ring

/-!
# The clock of a fluid server

A fluid server works on all the jobs that it has at once, on each in proportion to its
weight.  Its virtual clock advances by one while it works off one unit of weight of every
job, so in real time it runs at the inverse of the sum of the weights, and a job leaves at
a virtual time that is known when it comes.

`Steady` is what any account of such a server keeps: the sum of the weights of the jobs
that are there, and a virtual time that none of them has passed.  A job that leaves first
takes its weight with it and sets the virtual time to its own (`Steady.first`), a job that
comes leaves at the present virtual time or later (`Steady.arrive`).

`work q v₀ v` is the real time that passes while the virtual clock goes from `v₀` to `v`
with the jobs `q` and no arrival.  Up to the first departure it is the sum of the weights
times the virtual time (`Steady.work_of_le`), and `work_depart` takes it apart at the first
departure; these two are all that a loop over the departures needs.
-/

namespace VPifo.FluidClock

variable {ι K : Type} [Field K] [LinearOrder K]
variable (depart weight : ι → K)

/-- The account of a server: its jobs have positive weights that sum to `W`, and the virtual
time `v` has passed none of their departures. -/
structure Steady (W v : K) (q : List ι) : Prop where
  sum_eq : W = (q.map weight).sum
  weight_pos : ∀ i ∈ q, 0 < weight i
  le_depart : ∀ i ∈ q, v ≤ depart i

/-- The real time in which the virtual clock goes from `v₀` to `v`. -/
def work (q : List ι) (v₀ v : K) : K := (q.map fun i => weight i * (min (depart i) v - v₀)).sum

variable {depart weight} {W v : K} {q rest : List ι} {top : ι}

/-- The first departure. -/
theorem Steady.first (h : Steady depart weight W v q) (hperm : q.Perm (top :: rest))
    (hfirst : ∀ i ∈ q, depart top ≤ depart i) :
    Steady depart weight (W - weight top) (depart top) rest := by
  have hmem : ∀ i ∈ rest, i ∈ q := fun i hi => hperm.mem_iff.2 (List.mem_cons_of_mem top hi)
  refine ⟨?_, fun i hi => h.weight_pos i (hmem i hi), fun i hi => hfirst i (hmem i hi)⟩
  rw [h.sum_eq, (hperm.map weight).sum_eq, List.map_cons, List.sum_cons, add_sub_cancel_left]

/-- An arrival. -/
theorem Steady.arrive (h : Steady depart weight W v q) {i : ι} (hweight : 0 < weight i)
    (hdepart : v ≤ depart i) : Steady depart weight (W + weight i) v (q ++ [i]) := by
  refine ⟨?_, ?_, ?_⟩
  · rw [h.sum_eq, List.map_append, List.sum_append, List.map_singleton, List.sum_singleton]
  · exact List.forall_mem_append.2 ⟨h.weight_pos, List.forall_mem_singleton.2 hweight⟩
  · exact List.forall_mem_append.2 ⟨h.le_depart, List.forall_mem_singleton.2 hdepart⟩

/-- Before the first departure all jobs are worked on. -/
theorem Steady.work_of_le (h : Steady depart weight W v q) {u : K}
    (hu : ∀ i ∈ q, u ≤ depart i) : work depart weight q v u = (u - v) * W := by
  have hterm : q.map (fun i => weight i * (min (depart i) u - v)) =
      q.map fun i => (u - v) * weight i := by
    refine List.map_congr_left fun i hi => ?_
    rw [min_eq_right (hu i hi), mul_comm]
  rw [work, hterm, List.sum_map_mul_left, h.sum_eq]

/-- The work after the first departure is that of the jobs that are left. -/
theorem work_depart (hperm : q.Perm (top :: rest)) (hfirst : ∀ i ∈ q, depart top ≤ depart i)
    {u : K} (hu : depart top ≤ u) :
    work depart weight q v u =
      work depart weight q v (depart top) + work depart weight rest (depart top) u := by
  have hrest : ∀ i ∈ rest, depart top ≤ depart i :=
    fun i hi => hfirst i (hperm.mem_iff.2 (List.mem_cons_of_mem top hi))
  have hsplit : ∀ u, work depart weight q v u =
      weight top * (min (depart top) u - v) + work depart weight rest v u := by
    intro u
    rw [work, (hperm.map _).sum_eq, List.map_cons, List.sum_cons, work]
  have hjobs : work depart weight rest v u =
      work depart weight rest v (depart top) + work depart weight rest (depart top) u := by
    rw [work, work, work, ← List.sum_map_add]
    refine congrArg List.sum (List.map_congr_left fun i hi => ?_)
    rw [min_eq_right (hrest i hi)]
    ring
  rw [hsplit, hsplit, hjobs, min_eq_left hu, min_self]
  ring

variable [IsStrictOrderedRing K]

/-- While there is a job the clock runs. -/
theorem Steady.pos (h : Steady depart weight W v q) (hq : q ≠ []) : 0 < W := by
  rw [h.sum_eq]
  refine List.sum_pos _ (fun w hw => ?_) (by simpa using hq)
  obtain ⟨i, hi, rfl⟩ := List.mem_map.1 hw
  exact h.weight_pos i hi

/-- No later virtual time is reached earlier. -/
theorem work_mono (hpos : ∀ i ∈ q, 0 < weight i) {u u' : K} (hu : u ≤ u') :
    work depart weight q v u ≤ work depart weight q v u' := by
  refine List.sum_le_sum fun i hi => ?_
  exact mul_le_mul_of_nonneg_left (sub_le_sub_right (min_le_min_left _ hu) v) (hpos i hi).le

theorem Steady.work_nonneg (h : Steady depart weight W v q) {u : K} (hu : v ≤ u) :
    0 ≤ work depart weight q v u := by
  refine List.sum_nonneg fun x hx => ?_
  obtain ⟨i, hi, rfl⟩ := List.mem_map.1 hx
  exact mul_nonneg (h.weight_pos i hi).le (sub_nonneg.2 (le_min (h.le_depart i hi) hu))

/-- **The two clocks.**  The virtual time `u` is reached by the real time `t'`, as the
virtual clock tells it, exactly if the work up to it is done by then. -/
theorem reached_iff (hW : 0 < W) {u t t' : K} : u ≤ v + (t' - t) / W ↔ t + (u - v) * W ≤ t' := by
  rw [← sub_le_iff_le_add', le_div_iff₀ hW, add_comm, ← le_sub_iff_add_le]

end VPifo.FluidClock
