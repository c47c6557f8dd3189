import VPifo.Lib.Runs
import VPifo.Simulator.Network
import VPifo.Simulator.TraceLoop

/-!
# What holds at every point of the main loop

The trees, the task lists and the ring of RPUs are one net in the sense of `TokenNet`: every
tree has a store and a sequence of operations that are under way to it, and an element that
is popped from the root tree is a pop of the tree it names (`netAt`, `nextTree`).  `Core` is
what holds when the statistics of a cycle have reached RPU `k` and the root tree can take `b`
pops more: the pool and the ring are well formed, every task is where it belongs, the net is
balanced, and every packet printed as pushed has been printed as popped or is in the net.

Each part of an iteration has one lemma that says how it moves `k` and `b`.  A packet that
enters allows one pop more (`Core.pushFlow`), a pop of the root uses one (`Core.charge`), a
pop that is executed finds its tree not empty (`Core.exec`, `Core.execUpTo`), and the ring
moves on without a change of the net (`Core.advance`).
-/

namespace VPifo

namespace Simulator

open Reference TokenNet

/-! ## The simulator as a net -/

/-- What a pair leads to when it is popped: in the root tree it names the tree to pop next, in
every other tree it is a packet. -/
def nextTree (t : ℕ) (v : Pair) : Option ℕ := if t = 0 then some v.second.toNat else none

/-- The pair that a push stores. -/
def pairOf (t : Task) : Pair := ⟨t.rank, t.val⟩

/-- The task list of tree `u`. -/
def Config.home (c : Config) (u : ℕ) : ℕ := u % c.N

/-- The trees. -/
def Config.trees (c : Config) : Finset ℕ := Finset.range c.M

/-- What the trees hold. -/
def storeOf (c : Config) (p : Pool) (u : ℕ) : Multiset Pair :=
  if u < c.M then Reference.stored p u else 0

/-- The net of a state, when the statistics have reached RPU `k`. -/
def netAt (c : Config) (k : ℕ) (s : State) : Net ℕ Pair :=
  ⟨storeOf c s.pool, opsOf c.home c.L pairOf s.lists s.rpu k⟩

theorem Config.home_lt (c : Config) (u : ℕ) : c.home u < c.N :=
  Nat.mod_lt u (by have := c.two_le_N; omega)

theorem Config.zero_mem (c : Config) : 0 ∈ c.trees := Finset.mem_range.mpr c.M_pos

/-- The packet that a line says was pushed. -/
def Line.pushMeta : Line → Option ℤ
  | .push m _ => some m
  | .pop _ _ => none

/-- The packet that a line says was popped. -/
def Line.popMeta : Line → Option ℤ
  | .push _ _ => none
  | .pop m _ => some m

/-- The packets that were printed with `push_cyc`. -/
def pushMetas (out : List Line) : List ℤ := out.filterMap Line.pushMeta

/-- The packets that were printed with `pop_cyc`. -/
def popMetas (out : List Line) : List ℤ := out.filterMap Line.popMeta

/-- Every packet that was printed with `pop_cyc` was printed with `push_cyc` before. -/
def Ordered (out : List Line) : Prop :=
  ∀ pre m cyc, pre ++ [.pop m cyc] <+: out → m ∈ pushMetas pre

/-- The packets in the trees and on the way to them. -/
def packets (c : Config) (k : ℕ) (s : State) : Multiset ℤ :=
  (leaves c.trees nextTree (netAt c k s)).map Pair.second

/-- What holds during an iteration, when the statistics have reached RPU `k` and the root tree
can take `b` more pops. -/
structure Core (c : Config) (k b : ℕ) (s : State) : Prop where
  pool : ∃ sh, PoolInv c.M s.pool sh
  ring : RingInv c.N c.L s.rpu
  placed : Placed c.home c.L s.lists
  ready : ReadyPlaced c.home c.N c.L s.rpu
  roots : ∀ i, ∀ t ∈ s.lists i, t.root < c.M ∧ (t.type = .push → t.rank < inf)
  readyRoots : ∀ i < c.N, (s.rpu i).Ready c.L → (s.rpu i).root < c.M
  net : Inv c.trees nextTree 0 b (netAt c k s)
  conserved : (pushMetas s.out : Multiset ℤ) = popMetas s.out + packets c k s
  ordered : Ordered s.out

section Lines

theorem ordered_append_push {out : List Line} (h : Ordered out) (m : ℤ) (cyc : ℕ) :
    Ordered (out ++ [.push m cyc]) := by
  intro pre m' cyc' hpre
  rw [List.prefix_concat_iff] at hpre
  rcases hpre with heq | hpre
  · have := (List.append_inj' heq rfl).2
    simp at this
  · exact h pre m' cyc' hpre

theorem ordered_append_pop {out : List Line} (h : Ordered out) {m : ℤ} (hm : m ∈ pushMetas out)
    (cyc : ℕ) : Ordered (out ++ [.pop m cyc]) := by
  intro pre m' cyc' hpre
  rw [List.prefix_concat_iff] at hpre
  rcases hpre with heq | hpre
  · obtain ⟨rfl, hlast⟩ := List.append_inj' heq rfl
    simp only [List.cons.injEq, Line.pop.injEq, and_true] at hlast
    rw [hlast.1]
    exact hm
  · exact h pre m' cyc' hpre

@[simp] theorem pushMetas_append_push (out : List Line) (m : ℤ) (cyc : ℕ) :
    pushMetas (out ++ [.push m cyc]) = pushMetas out ++ [m] := by
  simp [pushMetas, Line.pushMeta]

@[simp] theorem popMetas_append_push (out : List Line) (m : ℤ) (cyc : ℕ) :
    popMetas (out ++ [.push m cyc]) = popMetas out := by
  simp [popMetas, Line.popMeta]

@[simp] theorem pushMetas_append_pop (out : List Line) (m : ℤ) (cyc : ℕ) :
    pushMetas (out ++ [.pop m cyc]) = pushMetas out := by
  simp [pushMetas, Line.pushMeta]

@[simp] theorem popMetas_append_pop (out : List Line) (m : ℤ) (cyc : ℕ) :
    popMetas (out ++ [.pop m cyc]) = popMetas out ++ [m] := by
  simp [popMetas, Line.popMeta]

end Lines

section Micro

variable {c : Config} {k b : ℕ} {s : State}

theorem netAt_pushTask {t : Task} {i : ℕ} (hi : c.home t.root = i) :
    netAt c k (s.pushTask i t) = (netAt c k s).add t.root (toOp pairOf t) := by
  have hops : opsOf c.home c.L pairOf (s.pushTask i t).lists s.rpu k =
      fun u => if u = t.root then opsOf c.home c.L pairOf s.lists s.rpu k u ++ [toOp pairOf t]
        else opsOf c.home c.L pairOf s.lists s.rpu k u :=
    funext fun u => ops_append hi (fun j => rfl) u
  rw [netAt, show (s.pushTask i t).rpu = s.rpu from rfl, hops]
  rfl

theorem fresh_mkPush (c : Config) (root : ℕ) (rank val : ℤ) :
    (State.mkPush c root rank val).Fresh c.L := ⟨Or.inl rfl, rfl⟩

theorem fresh_mkPop (c : Config) (root : ℕ) : (State.mkPop c root).Fresh c.L := ⟨Or.inr rfl, rfl⟩

/-- The places of the tasks after one more task. -/
theorem roots_pushTask (h : ∀ i, ∀ t ∈ s.lists i, t.root < c.M ∧ (t.type = .push → t.rank < inf))
    {t : Task} {i : ℕ} (ht : t.root < c.M ∧ (t.type = .push → t.rank < inf)) :
    ∀ j, ∀ x ∈ (s.pushTask i t).lists j, x.root < c.M ∧ (x.type = .push → x.rank < inf) := by
  intro j x hx
  rw [show (s.pushTask i t).lists j = if j = i then s.lists j ++ [t] else s.lists j from rfl] at hx
  split at hx
  · rcases List.mem_append.mp hx with hx | hx
    · exact h j x hx
    · rw [List.mem_singleton.mp hx]
      exact ht
  · exact h j x hx

/-- `Core` does not look at the counters and the queues of the flows. -/
theorem Core.congr (h : Core c k b s) {s' : State} (hpool : s'.pool = s.pool)
    (hlists : s'.lists = s.lists) (hrpu : s'.rpu = s.rpu) (hout : s'.out = s.out) :
    Core c k b s' := by
  have hnet : netAt c k s' = netAt c k s := by rw [netAt, hpool, hlists, hrpu, netAt]
  exact ⟨by rw [hpool]; exact h.pool, by rw [hrpu]; exact h.ring, by rw [hlists]; exact h.placed,
    by rw [hrpu]; exact h.ready, by rw [hlists]; exact h.roots, by rw [hrpu]; exact h.readyRoots,
    by rw [hnet]; exact h.net, by rw [hout, packets, hnet]; exact h.conserved,
    by rw [hout]; exact h.ordered⟩

/-! ## A packet enters the task lists -/

/-- A packet that the trees can take. -/
structure APush.Ok (c : Config) (a : APush) : Prop where
  pos : 0 < a.treeid
  lt : a.treeid < c.M
  p0 : a.p0 < inf
  p1 : a.p1 < inf

/-- The pushes of a packet. -/
def APush.path (a : APush) : List (ℕ × Pair) :=
  [(a.treeid, ⟨a.p0, a.pktMeta⟩), (0, ⟨a.p1, a.treeid⟩)]

theorem netAt_pushFlow {cur : ℕ} {a : APush} {rest : List APush}
    (hq : s.perFlowPushQueue cur = a :: rest) :
    netAt c k (s.pushFlow c cur) = (netAt c k s).addAll a.path := by
  have hline : ∀ s m, netAt c k (State.writePushLine s m) = netAt c k s := fun _ _ => rfl
  rw [State.pushFlow, hq]
  dsimp only
  rw [netAt_pushTask (t := State.mkPush c 0 a.p1 a.treeid) (Nat.zero_mod _), hline,
    netAt_pushTask (t := State.mkPush c a.treeid a.p0 a.pktMeta) (i := a.treeid % c.N) rfl]
  rfl

/-- **A packet enters**: one more pop can be taken from the root. -/
theorem Core.pushFlow (h : Core c k b s) {cur : ℕ} {a : APush} {rest : List APush}
    (hq : s.perFlowPushQueue cur = a :: rest) (ha : a.Ok c) :
    Core c k (b + 1) (s.pushFlow c cur) ∧
      packets c k (s.pushFlow c cur) = a.pktMeta ::ₘ packets c k s := by
  have hnet := netAt_pushFlow (c := c) (k := k) hq
  have h0 : a.treeid ≠ 0 := ha.pos.ne'
  have hmem : ∀ p ∈ a.path, p.1 ∈ c.trees := by
    intro p hp
    rcases List.mem_pair.mp hp with rfl | rfl
    · exact Finset.mem_range.mpr ha.lt
    · exact c.zero_mem
  have hnext : nextTree a.treeid ⟨a.p0, a.pktMeta⟩ = none := if_neg h0
  have hroot : nextTree 0 ⟨a.p1, a.treeid⟩ = some a.treeid := rfl
  have hpackets : packets c k (s.pushFlow c cur) = a.pktMeta ::ₘ packets c k s := by
    rw [packets, hnet, leaves_addAll hmem h.net.covered, Multiset.map_add, packets]
    have hleaf : (a.path.filter fun p => decide (nextTree p.1 p.2 = none)).map Prod.snd =
        [⟨a.p0, a.pktMeta⟩] := by
      simp [APush.path, hnext, hroot]
    rw [hleaf, Multiset.coe_singleton, Multiset.map_singleton, add_comm, Multiset.singleton_add]
  have hfields : (s.pushFlow c cur).pool = s.pool ∧ (s.pushFlow c cur).rpu = s.rpu ∧
      (s.pushFlow c cur).out = s.out ++ [.push a.pktMeta s.pushCnt] := by
    rw [State.pushFlow, hq]
    exact ⟨rfl, rfl, rfl⟩
  obtain ⟨hpool, hrpu, hout⟩ := hfields
  have hchain : (a.path.map Prod.fst).Perm
      (0 :: a.path.filterMap fun p => nextTree p.1 p.2) := by
    have htokens : (a.path.filterMap fun p => nextTree p.1 p.2) = [a.treeid] := by
      simp [APush.path, hnext, hroot]
    rw [htokens]
    exact List.Perm.swap _ _ _
  have hnot : ∀ p ∈ a.path, nextTree p.1 p.2 ≠ some 0 := by
    intro p hp
    rcases List.mem_pair.mp hp with rfl | rfl
    · rw [hnext]
      simp
    · rw [hroot]
      exact fun heq => h0 (Option.some.inj heq)
  have hinv := h.net.addPath hmem hchain hnot
  rw [← hnet] at hinv
  have hlists : Placed c.home c.L (s.pushFlow c cur).lists ∧ ∀ i, ∀ t ∈ (s.pushFlow c cur).lists i,
      t.root < c.M ∧ (t.type = .push → t.rank < inf) := by
    rw [State.pushFlow, hq]
    refine ⟨placed_append (placed_append h.placed rfl (fresh_mkPush c a.treeid a.p0 a.pktMeta)
      fun j => rfl) (Nat.zero_mod _) (fresh_mkPush c 0 a.p1 a.treeid) fun j => rfl, ?_⟩
    exact roots_pushTask (roots_pushTask h.roots (s := { s with
      perFlowPushQueue := fun k => if k = cur then rest else s.perFlowPushQueue k })
      ⟨ha.lt, fun _ => ha.p0⟩ (i := a.treeid % c.N)) ⟨c.M_pos, fun _ => ha.p1⟩
  refine ⟨⟨by rw [hpool]; exact h.pool, by rw [hrpu]; exact h.ring, hlists.1,
    by rw [hrpu]; exact h.ready, hlists.2, by rw [hrpu]; exact h.readyRoots, hinv, ?_, ?_⟩,
    hpackets⟩
  · rw [hout, pushMetas_append_push, popMetas_append_push, hpackets, ← Multiset.coe_add,
      h.conserved, Multiset.coe_singleton, ← Multiset.singleton_add]
    abel
  · rw [hout]
    exact ordered_append_push h.ordered _ _

/-! ## A pop enters the task lists -/

/-- **A pop of the root enters.** -/
theorem Core.charge (h : Core c k (b + 1) s) {pfMap : PFMap} {f : ℕ}
    (hf : s.chargedFlow pfMap = some f) :
    Core c k b (s.tryPushPopTask c pfMap) := by
  have hnet : netAt c k (s.tryPushPopTask c pfMap) = (netAt c k s).add 0 .pop := by
    rw [State.tryPushPopTask, hf]
    exact netAt_pushTask (t := State.mkPop c 0) (Nat.zero_mod _)
  have hpackets : packets c k (s.tryPushPopTask c pfMap) = packets c k s := by
    rw [packets, hnet, leaves_add_pop, packets]
  have hfields : (s.tryPushPopTask c pfMap).pool = s.pool ∧
      (s.tryPushPopTask c pfMap).rpu = s.rpu ∧ (s.tryPushPopTask c pfMap).out = s.out := by
    rw [State.tryPushPopTask, hf]
    exact ⟨rfl, rfl, rfl⟩
  obtain ⟨hpool, hrpu, hout⟩ := hfields
  have hlists : Placed c.home c.L (s.tryPushPopTask c pfMap).lists ∧
      ∀ i, ∀ t ∈ (s.tryPushPopTask c pfMap).lists i,
        t.root < c.M ∧ (t.type = .push → t.rank < inf) := by
    rw [State.tryPushPopTask, hf]
    refine ⟨placed_append h.placed (Nat.zero_mod _) (fresh_mkPop c 0) fun j => rfl, ?_⟩
    exact roots_pushTask (s := { s with perFlowPopQueue := _ }) h.roots
      ⟨c.M_pos, fun hp => absurd hp (by simp [State.mkPop])⟩
  refine ⟨by rw [hpool]; exact h.pool, by rw [hrpu]; exact h.ring, hlists.1,
    by rw [hrpu]; exact h.ready, hlists.2, by rw [hrpu]; exact h.readyRoots,
    by rw [hnet]; exact h.net.add_root_pop, ?_, by rw [hout]; exact h.ordered⟩
  rw [hout, hpackets]
  exact h.conserved

/-! ## The statistics -/

theorem popReady_iff {i : ℕ} : s.popReady c i = true ↔ (s.rpu i).Ready c.L := by
  rw [State.popReady, Bool.and_eq_true, decide_eq_true_iff, decide_eq_true_iff]
  exact Iff.rfl

/-- What the statistics and the ring leave alone. -/
structure SameQueues (s s' : State) : Prop where
  pushQueue : s'.perFlowPushQueue = s.perFlowPushQueue
  popQueue : s'.perFlowPopQueue = s.perFlowPopQueue
  cycle : s'.cycle = s.cycle
  pushed : pushMetas s'.out = pushMetas s.out

theorem SameQueues.trans {s s' s'' : State} (h : SameQueues s s') (h' : SameQueues s' s'') :
    SameQueues s s'' :=
  ⟨h'.pushQueue.trans h.pushQueue, h'.popQueue.trans h.popQueue, h'.cycle.trans h.cycle,
    h'.pushed.trans h.pushed⟩

theorem mem_trees {u : ℕ} : u ∈ c.trees ↔ u < c.M := Finset.mem_range

theorem storeOf_of_lt {p : Pool} {u : ℕ} (hu : u < c.M) : storeOf c p u = Reference.stored p u :=
  if_pos hu

/-- The pop of tree `t` takes the top of it. -/
structure Popped (c : Config) (p q : Pool) (t : ℕ) : Prop where
  pop : p.pop (p.tot + 1) (treeRoot t) = some (p.top (treeRoot t), q)
  mem : p.top (treeRoot t) ∈ Reference.stored p t
  store : ∀ u, storeOf c q u = if u = t then (storeOf c p u).erase (p.top (treeRoot t))
    else storeOf c p u
  inv : ∃ sh, PoolInv c.M q sh

theorem popped_of_ne_zero {p : Pool} (hp : ∃ sh, PoolInv c.M p sh) {t : ℕ} (ht : t < c.M)
    (hne : Reference.stored p t ≠ 0) : ∃ q, Popped c p q t := by
  obtain ⟨sh, hinv⟩ := hp
  obtain ⟨q, hq, hinv', -, -, hfull, -, hother⟩ := hinv.pop ht
  obtain ⟨hmem, -, herase⟩ := hfull hne
  refine ⟨q, hq, hmem, fun u => ?_, sh, hinv'⟩
  by_cases hu : u < c.M
  · rw [storeOf_of_lt hu, storeOf_of_lt hu]
    by_cases hut : u = t
    · rw [if_pos hut, hut, herase]
    · rw [if_neg hut, hother u hu hut]
  · have hut : ¬u = t := fun hut => hu (by rw [hut]; exact ht)
    rw [if_neg hut, storeOf, storeOf, if_neg hu, if_neg hu]

/-- A pop that is carried out takes the top of its tree out of the net. -/
theorem netAt_popped {i : ℕ} {q : Pool} (hready : (s.rpu i).Ready c.L)
    (hhome : c.home (s.rpu i).root = i) (hpop : Popped c s.pool q (s.rpu i).root) :
    netAt c (i + 1) { s with pool := q } =
      (netAt c i s).doPop (s.rpu i).root (s.pool.top (treeRoot (s.rpu i).root)) := by
  have hs : storeOf c q = fun u => if u = (s.rpu i).root
      then (storeOf c s.pool u).erase (s.pool.top (treeRoot (s.rpu i).root))
      else storeOf c s.pool u := funext hpop.store
  have ho : opsOf c.home c.L pairOf s.lists s.rpu (i + 1) = fun u => if u = (s.rpu i).root
      then (opsOf c.home c.L pairOf s.lists s.rpu i u).tail
      else opsOf c.home c.L pairOf s.lists s.rpu i u := funext (ops_exec hready hhome)
  rw [netAt, hs, ho]
  rfl

/-- The top of a tree with a pop that waits is in the net. -/
theorem Popped.mem_net {q : Pool} {t k : ℕ} (hpop : Popped c s.pool q t) (ht : t < c.M) :
    s.pool.top (treeRoot t) ∈ (netAt c k s).store t := by
  show _ ∈ storeOf c s.pool t
  rw [storeOf_of_lt ht]
  exact hpop.mem

/-- A pop that waits is the first operation of its tree. -/
theorem Core.ops_eq {i : ℕ} (h : Core c i b s) (hi : i < c.N) (hready : (s.rpu i).Ready c.L) :
    (netAt c i s).ops (s.rpu i).root =
      .pop :: listOps c.home pairOf s.lists (s.rpu i).root :=
  ops_ready hready (h.ready i hi hready)

/-- A pop of the root: the pop of the tree it names joins its list. -/
theorem Core.exec_root {i : ℕ} {q : Pool} (h : Core c i b s) (hi : i < c.N)
    (hready : (s.rpu i).Ready c.L) (hpop : Popped c s.pool q (s.rpu i).root)
    (h0 : (s.rpu i).root = 0) {w : ℕ}
    (hw : (s.pool.top (treeRoot (s.rpu i).root)).second.toNat = w) :
    Core c (i + 1) b (({ s with pool := q } : State).pushTask (w % c.N) (State.mkPop c w)) := by
  have ht := h.readyRoots i hi hready
  have hfirst := h.ops_eq hi hready
  have hmem := hpop.mem_net (k := i) ht
  have hnext : nextTree (s.rpu i).root (s.pool.top (treeRoot (s.rpu i).root)) = some w := by
    rw [nextTree, if_pos h0, hw]
  have hinv := h.net.doPop (mem_trees.mpr ht) hfirst hmem
  have hleaves := leaves_doPop nextTree (mem_trees.mpr ht) hfirst hmem
  rw [hnext] at hinv hleaves
  obtain ⟨hu, -⟩ := h.net.closed _ (mem_trees.mpr ht) _
    (Multiset.mem_add.mpr (Or.inl hmem)) _ hnext
  have hnet : netAt c (i + 1) (({ s with pool := q } : State).pushTask (w % c.N)
      (State.mkPop c w)) = ((netAt c i s).doPop (s.rpu i).root
        (s.pool.top (treeRoot (s.rpu i).root))).follow (some w) := by
    rw [netAt_pushTask (t := State.mkPop c w) (i := w % c.N) rfl,
      netAt_popped hready (h.ready i hi hready) hpop]
    rfl
  refine ⟨hpop.inv, h.ring, placed_append h.placed rfl (fresh_mkPop c _) fun j => rfl, h.ready,
    roots_pushTask (s := { s with pool := q }) h.roots
      ⟨mem_trees.mp hu, fun hp => absurd hp (by simp [State.mkPop])⟩, h.readyRoots,
    by rw [hnet]; exact hinv, ?_, h.ordered⟩
  have hpackets : packets c (i + 1) (({ s with pool := q } : State).pushTask (w % c.N)
      (State.mkPop c w)) = packets c i s := by
    rw [packets, hnet, packets, hleaves, if_neg (by simp), zero_add]
  rw [hpackets]
  exact h.conserved

/-- A pop of another tree: the packet is printed. -/
theorem Core.exec_leaf {i : ℕ} {q : Pool} (h : Core c i b s) (hi : i < c.N)
    (hready : (s.rpu i).Ready c.L) (hpop : Popped c s.pool q (s.rpu i).root)
    (h0 : (s.rpu i).root ≠ 0) {m : ℤ}
    (hm : (s.pool.top (treeRoot (s.rpu i).root)).second = m) :
    Core c (i + 1) b (({ s with pool := q } : State).writePopLine m) := by
  have ht := h.readyRoots i hi hready
  have hfirst := h.ops_eq hi hready
  have hmem := hpop.mem_net (k := i) ht
  have hnext : nextTree (s.rpu i).root (s.pool.top (treeRoot (s.rpu i).root)) = none :=
    if_neg h0
  have hinv := h.net.doPop (mem_trees.mpr ht) hfirst hmem
  have hleaves := leaves_doPop nextTree (mem_trees.mpr ht) hfirst hmem
  rw [hnext] at hinv hleaves
  have hnet : netAt c (i + 1) (({ s with pool := q } : State).writePopLine m) =
      ((netAt c i s).doPop (s.rpu i).root (s.pool.top (treeRoot (s.rpu i).root))).follow none :=
    netAt_popped hready (h.ready i hi hready) hpop
  have hpackets : packets c i s = {m} + packets c (i + 1)
      (({ s with pool := q } : State).writePopLine m) := by
    rw [packets, hleaves, if_pos rfl, Multiset.map_add, Multiset.map_singleton, packets, hnet, hm]
  refine ⟨hpop.inv, h.ring, h.placed, h.ready, h.roots, h.readyRoots,
    by rw [hnet]; exact hinv, ?_, ?_⟩
  · show (pushMetas (s.out ++ [.pop m s.popCnt]) : Multiset ℤ) =
      popMetas (s.out ++ [.pop m s.popCnt]) + _
    rw [pushMetas_append_pop, popMetas_append_pop, h.conserved, hpackets, ← Multiset.coe_add,
      Multiset.coe_singleton, add_assoc]
  · refine ordered_append_pop h.ordered ?_ _
    rw [← Multiset.mem_coe, h.conserved, hpackets]
    simp

/-- A pop that waits is executed. -/
theorem Core.exec {i : ℕ} (h : Core c i b s) (hi : i < c.N) (hready : (s.rpu i).Ready c.L) :
    Reference.stored s.pool (s.rpu i).root ≠ 0 ∧ ∃ s', s.execAt c i = some s' ∧
      SameQueues s s' ∧ Core c (i + 1) b s' ∧
      popMetas s'.out = popMetas s.out ++ (if (s.rpu i).root = 0 then []
        else [(s.pool.top (treeRoot (s.rpu i).root)).second]) := by
  have ht := h.readyRoots i hi hready
  have hstore : Reference.stored s.pool (s.rpu i).root ≠ 0 := by
    rw [← storeOf_of_lt ht]
    exact h.net.store_ne_zero (h.ops_eq hi hready)
  obtain ⟨q, hpop⟩ := popped_of_ne_zero h.pool ht hstore
  refine ⟨hstore, ?_⟩
  by_cases h0 : (s.rpu i).root = 0
  · have hexec : s.execAt c i = some (({ s with pool := q } : State).pushTask
        ((s.pool.top (treeRoot (s.rpu i).root)).second.toNat % c.N)
        (State.mkPop c (s.pool.top (treeRoot (s.rpu i).root)).second.toNat)) := by
      rw [State.execAt, if_pos (popReady_iff.mpr hready), hpop.pop, Option.map_some, if_pos h0]
    refine ⟨_, hexec, ⟨rfl, rfl, rfl, rfl⟩, h.exec_root hi hready hpop h0 rfl, ?_⟩
    rw [if_pos h0, List.append_nil]
    rfl
  · have hexec : s.execAt c i = some (({ s with pool := q } : State).writePopLine
        (s.pool.top (treeRoot (s.rpu i).root)).second) := by
      rw [State.execAt, if_pos (popReady_iff.mpr hready), hpop.pop, Option.map_some, if_neg h0]
    refine ⟨_, hexec, ⟨rfl, rfl, rfl, pushMetas_append_pop _ _ _⟩,
      h.exec_leaf hi hready hpop h0 rfl, ?_⟩
    rw [if_neg h0]
    exact popMetas_append_pop _ _ _

/-- An RPU without a pop that waits is passed. -/
theorem Core.skip {i : ℕ} (h : Core c i b s) (hready : ¬(s.rpu i).Ready c.L) :
    s.execAt c i = some s ∧ Core c (i + 1) b s := by
  have hnet : netAt c (i + 1) s = netAt c i s := by
    rw [netAt, netAt, funext (ops_skip hready)]
  refine ⟨if_neg fun h => hready (popReady_iff.mp h), ?_⟩
  exact ⟨h.pool, h.ring, h.placed, h.ready, h.roots, h.readyRoots, by rw [hnet]; exact h.net,
    by rw [packets, hnet]; exact h.conserved, h.ordered⟩

theorem execUpTo_succ {n : ℕ} {s₁ : State} (h : s.execUpTo c n = some s₁) :
    s.execUpTo c (n + 1) = s₁.execAt c n := by
  rw [State.execUpTo] at h
  rw [State.execUpTo, Runs.foldlM_range_succ, h]
  rfl

/-- **The statistics**, up to any RPU. -/
theorem Core.execUpTo (h : Core c 0 b s) {n : ℕ} (hn : n ≤ c.N) :
    ∃ s', s.execUpTo c n = some s' ∧ SameQueues s s' ∧ Core c n b s' := by
  refine Runs.exists_foldlM_range (P := fun n s' => SameQueues s s' ∧ Core c n b s')
    ⟨⟨rfl, rfl, rfl, rfl⟩, h⟩ ?_
  rintro i hi s₁ ⟨hsame, hcore⟩
  by_cases hready : (s₁.rpu i).Ready c.L
  · obtain ⟨-, s₂, hexec, hsame', hcore', -⟩ := hcore.exec (by omega) hready
    exact ⟨s₂, hexec, hsame.trans hsame', hcore'⟩
  · obtain ⟨hexec, hcore'⟩ := hcore.skip hready
    exact ⟨s₁, hexec, hsame, hcore'⟩

/-! ## Pass down and send -/

/-- The pushes that are sent reach their trees. -/
theorem pushSent_spec (sent : List (ℕ × Task)) : ∀ {p : Pool}, (∃ sh, PoolInv c.M p sh) →
    (∀ x ∈ sent, x.2.root < c.M ∧ (x.2.type = .push → x.2.rank < inf)) →
    ∃ q, State.pushSent sent p = some q ∧ (∃ sh, PoolInv c.M q sh) ∧
      ∀ u, storeOf c q u = storeOf c p u +
        (((sentPushes pairOf sent).filter fun x => decide (x.1 = u)).map Prod.snd : List Pair) := by
  induction sent with
  | nil => exact fun {p} hp _ => ⟨p, rfl, hp, fun u => (add_zero _).symm⟩
  | cons x sent ih =>
    intro p ⟨sh, hp⟩ hall
    obtain ⟨hroot, hrank⟩ := hall x List.mem_cons_self
    have hrest : ∀ y ∈ sent, y.2.root < c.M ∧ (y.2.type = .push → y.2.rank < inf) :=
      fun y hy => hall y (List.mem_cons_of_mem _ hy)
    by_cases hx : x.2.type = .push
    · obtain ⟨q, s, -, hpush, hinv, -, hself, hother⟩ := hp.push hroot (v := ⟨x.2.rank, x.2.val⟩)
        (hrank hx)
      obtain ⟨r, hr, hinv', hstore⟩ := ih ⟨_, hinv⟩ hrest
      have hsent : sentPushes pairOf (x :: sent) =
          (x.2.root, pairOf x.2) :: sentPushes pairOf sent := by
        simp [sentPushes, hx]
      refine ⟨r, ?_, hinv', fun u => ?_⟩
      · rw [State.pushSent, List.foldlM_cons, if_pos hx, hpush]
        exact hr
      · rw [hstore, hsent]
        by_cases hu : x.2.root = u
        · have hlt : u < c.M := hu ▸ hroot
          rw [List.filter_cons_of_pos (by simpa using hu), storeOf_of_lt hlt, storeOf_of_lt hlt,
            ← hu, hself, List.map_cons, ← Multiset.cons_coe, Multiset.cons_add, Multiset.add_cons]
          rfl
        · rw [List.filter_cons_of_neg (by simpa using hu)]
          congr 1
          rw [storeOf, storeOf]
          by_cases hlt : u < c.M
          · rw [if_pos hlt, if_pos hlt, hother u hlt fun h => hu h.symm]
          · rw [if_neg hlt, if_neg hlt]
    · have hsent : sentPushes pairOf (x :: sent) = sentPushes pairOf sent := by
        simp [sentPushes, hx]
      obtain ⟨r, hr, hinv', hstore⟩ := ih ⟨sh, hp⟩ hrest
      refine ⟨r, ?_, hinv', fun u => by rw [hsent, hstore]⟩
      rw [State.pushSent, List.foldlM_cons, if_neg hx]
      exact hr

/-- **The ring moves on** and the pushes that are sent are executed. -/
theorem Core.advance (h : Core c c.N b s) (locked : ℕ → Bool) :
    ∃ s', s.advance c locked = some s' ∧ SameQueues s s' ∧ s'.out = s.out ∧ Core c 0 b s' := by
  obtain ⟨hplaced, hsub, hsent, net', hrun, hops⟩ := ops_ringStep pairOf
    locked c.two_le_N c.two_le_L c.home_lt h.ring h.placed (storeOf c s.pool)
  have hready := fun i (hi : i < c.N) => ready_ringStep locked c.two_le_N c.two_le_L
    c.home_lt h.ring h.placed hi
  have hring := (ringStep_inv locked c.two_le_N c.two_le_L h.ring h.placed.loaded).ring
  have hstep : s.advance c locked = (State.pushSent (ringStep c.N locked s.lists s.rpu).sent
      s.pool).map fun p => { s with
        pool := p
        lists := (ringStep c.N locked s.lists s.rpu).lists
        rpu := (ringStep c.N locked s.lists s.rpu).rpu } := rfl
  generalize ringStep c.N locked s.lists s.rpu = r at *
  obtain ⟨q, hq, hinv, hstore⟩ := pushSent_spec (c := c) r.sent h.pool
    fun x hx => h.roots x.1 x.2 (hsent x hx)
  refine ⟨{ s with pool := q, lists := r.lists, rpu := r.rpu }, ?_, ⟨rfl, rfl, rfl, rfl⟩, rfl, ?_⟩
  · rw [hstep, hq]
    rfl
  have hnet : netAt c 0 { s with pool := q, lists := r.lists, rpu := r.rpu } = net' := by
    have hs : storeOf c q = net'.store := by
      funext u
      rw [hstore, hrun.store_eq]
    rw [netAt, hs, ← hops]
  have hpackets : packets c 0 { s with pool := q, lists := r.lists, rpu := r.rpu } =
      packets c c.N s := by
    rw [packets, hnet, hrun.leaves_eq]
    rfl
  refine ⟨hinv, hring, hplaced, fun i hi hr => h.placed.home i _ (hready i hi hr),
    fun i t ht => h.roots i t (hsub i t ht), fun i hi hr => (h.roots i _ (hready i hi hr)).1,
    by rw [hnet]; exact hrun.inv h.net, ?_, h.ordered⟩
  rw [hpackets]
  exact h.conserved

end Micro

end Simulator

end VPifo
