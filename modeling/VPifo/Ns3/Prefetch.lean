import VPifo.Lib.Runs
import VPifo.Ns3.Pipeline

/-!
# The pop prefetcher is exact

Three counters decide whether a pop of the root is started: `root_num`, `start_num` and
`buffer_num`.  They are written where an operation enters a list, and so run ahead of the
trees by all that is under way in the lists and the RPUs.  `Wired` says that the operations
are where they belong, so that the pipeline is a net in the sense of `TokenNet`; `Counted`
says what the counters count in this net, and `PipeInv` is both and the balance of the net,
with `root_num` as the budget of the root.  Every entry point of the pipeline keeps it
(`PipeInv.arrive`, `PipeInv.wakeUp`, `PipeInv.getToken`), and along the way a pop is never
executed on an empty tree (`PipeInv.exec`) and no token is lost: `tokensOf`, those in the
buffer, in the trees and on the way, changes by the token that comes or goes.

`prefetch_exact` is the result for every run of `AddPush`, `GetToken` and `WakeUp`, and for
every prefix of one, since a packet arrives by several calls.
-/

namespace VPifo

namespace Ns3

open Reference Simulator TokenNet

/-! ## The pipeline as a net -/

/-- The trees. -/
def trees : Finset ℕ := Finset.range T

/-- What an element leads to when it is popped: a real queue, or the tree of the same number. -/
def nextTree (_ : ℕ) (e : Pair) : Option ℕ :=
  if checkRealQueue e.second then none else some e.second.toNat

/-- The list of a user. -/
def home (s : Pipeline) (u : ℕ) : ℕ := (s.listMap u).getD 0

/-- The net of a state, when the statistics have reached RPU `k`. -/
def netAt (k : ℕ) (s : Pipeline) : Net ℕ Pair :=
  ⟨fun u => s.tree u, opsOf (home s) N entryOf s.lists s.rpu k⟩

/-- The operations are where they belong. -/
structure Wired (s : Pipeline) : Prop where
  listed : ∀ u j, s.listMap u = some j → j < N
  listCnt : s.listCnt < N
  ring : RingInv N N s.rpu
  placed : Placed (home s) N s.lists
  ready : ReadyPlaced (home s) N N s.rpu
  known : ∀ i, ∀ t ∈ s.lists i, (s.listMap t.root).isSome ∧ t.root ∈ trees
  readyKnown : ∀ i < N, (s.rpu i).Ready N →
    (s.listMap (s.rpu i).root).isSome ∧ (s.rpu i).root ∈ trees

theorem ROOT_mem : ROOT ∈ trees := by decide

section Add

variable {s : Pipeline} {k : ℕ}

theorem Wired.home_lt (h : Wired s) (u : ℕ) : home s u < N := by
  rw [home]
  cases hu : s.listMap u with
  | none => decide
  | some j => exact h.listed u j hu

/-- `Wired` is about the list map, the lists and the ring only. -/
theorem Wired.congr (h : Wired s) {s' : Pipeline} (hmap : s'.listMap = s.listMap)
    (hcnt : s'.listCnt = s.listCnt) (hlists : s'.lists = s.lists) (hrpu : s'.rpu = s.rpu) :
    Wired s' := by
  have hhome : home s' = home s := by
    funext u
    rw [home, home, hmap]
  refine ⟨by rw [hmap]; exact h.listed, by rw [hcnt]; exact h.listCnt, by rw [hrpu]; exact h.ring,
    by rw [hhome, hlists]; exact h.placed, by rw [hhome, hrpu]; exact h.ready, ?_, ?_⟩
  · rw [hmap, hlists]
    exact h.known
  · rw [hmap, hrpu]
    exact h.readyKnown

section NewUser

variable {s' : Pipeline} {u : ℕ}

theorem home_of_new (hlist : ∀ v, s'.listMap v = if v = u then some s.listCnt else s.listMap v)
    {v : ℕ} (hv : v ≠ u) : home s' v = home s v := by
  rw [home, home, hlist, if_neg hv]

/-- A user that had no list is none of those that have one. -/
theorem ne_of_isSome (hu : s.listMap u = none) {v : ℕ} (hv : (s.listMap v).isSome) : v ≠ u := by
  rintro rfl
  rw [hu] at hv
  exact absurd hv (by simp)

/-- A new user gets the next list in turn, and nothing is moved. -/
theorem Wired.newUser (h : Wired s) (hu : s.listMap u = none)
    (hlist : ∀ v, s'.listMap v = if v = u then some s.listCnt else s.listMap v)
    (hcnt : s'.listCnt = (s.listCnt + 1) % N) (hlists : s'.lists = s.lists)
    (hrpu : s'.rpu = s.rpu) : Wired s' := by
  have hhome : ∀ {v}, (s.listMap v).isSome → home s' v = home s v := fun hv =>
    home_of_new hlist (ne_of_isSome hu hv)
  have hsome : ∀ {v}, (s.listMap v).isSome → (s'.listMap v).isSome := by
    intro v hv
    rw [hlist, if_neg (ne_of_isSome hu hv)]
    exact hv
  refine ⟨fun v j hj => ?_, ?_, ?_, ⟨fun i t ht => ?_, ?_⟩, fun i hi hr => ?_, fun i t ht => ?_,
    fun i hi hr => ?_⟩
  · rw [hlist] at hj
    split at hj
    · rw [← Option.some.inj hj]
      exact h.listCnt
    · exact h.listed v j hj
  · rw [hcnt]
    exact Nat.mod_lt _ (by decide)
  · rw [hrpu]
    exact h.ring
  · rw [hlists] at ht
    rw [hhome (h.known i t ht).1]
    exact h.placed.home i t ht
  · rw [hlists]
    exact h.placed.loaded
  · rw [hrpu] at hr ⊢
    rw [hhome (h.readyKnown i hi hr).1]
    exact h.ready i hi hr
  · rw [hlists] at ht
    exact ⟨hsome (h.known i t ht).1, (h.known i t ht).2⟩
  · rw [hrpu] at hr ⊢
    exact ⟨hsome (h.readyKnown i hi hr).1, (h.readyKnown i hi hr).2⟩

/-- There is no operation of a new user. -/
theorem Wired.netAt_newUser (h : Wired s) (hu : s.listMap u = none)
    (hlist : ∀ v, s'.listMap v = if v = u then some s.listCnt else s.listMap v)
    (hlists : s'.lists = s.lists) (hrpu : s'.rpu = s.rpu) (htree : s'.tree = s.tree) (k : ℕ) :
    netAt k s' = netAt k s := by
  have hu' : home s' u < N := by
    rw [home, hlist, if_pos rfl]
    exact h.listCnt
  have hops : opsOf (home s') N entryOf s.lists s.rpu k =
      opsOf (home s) N entryOf s.lists s.rpu k :=
    funext (ops_new_home (fun _ => home_of_new hlist)
      (fun i t ht => ne_of_isSome hu (h.known i t ht).1)
      (fun i hi hr => ne_of_isSome hu (h.readyKnown i hi hr).1) (h.home_lt u) hu')
  rw [netAt, hlists, hrpu, htree, hops, netAt]

end NewUser

/-- A user gets its list. -/
theorem Wired.getListId (h : Wired s) (u : ℕ) : Wired (s.getListId u).2 ∧
    (s.getListId u).2.listMap u = some (s.getListId u).1 ∧
    ∀ k, netAt k (s.getListId u).2 = netAt k s := by
  cases hu : s.listMap u with
  | some j =>
    rw [Pipeline.getListId, hu]
    exact ⟨h, hu, fun _ => rfl⟩
  | none =>
    rw [Pipeline.getListId, hu]
    exact ⟨h.newUser hu (fun _ => rfl) rfl rfl rfl, if_pos rfl,
      h.netAt_newUser hu (fun _ => rfl) rfl rfl rfl⟩

/-- **An operation joins the list of its user.** -/
theorem Wired.addOperation (h : Wired s) {t : Simulator.Task} (ht : t.Fresh N)
    (hroot : t.root ∈ trees) :
    Wired (s.addOperation t) ∧
      ∀ k, netAt k (s.addOperation t) = (netAt k s).add t.root (toOp entryOf t) := by
  obtain ⟨hw, hlist, hnet⟩ := h.getListId t.root
  rw [Pipeline.addOperation]
  generalize s.getListId t.root = r at *
  have hhome : home r.2 t.root = r.1 := by
    rw [home, hlist]
    rfl
  have hlists : ∀ j, (fun k => if k = r.1 then r.2.lists k ++ [t] else r.2.lists k) j =
      if j = r.1 then r.2.lists j ++ [t] else r.2.lists j := fun _ => rfl
  have hknown : ∀ i, ∀ x ∈ (if i = r.1 then r.2.lists i ++ [t] else r.2.lists i),
      (r.2.listMap x.root).isSome ∧ x.root ∈ trees := by
    intro i x hx
    split at hx
    · rcases List.mem_append.mp hx with hx | hx
      · exact hw.known i x hx
      · rw [List.mem_singleton.mp hx, hlist]
        exact ⟨rfl, hroot⟩
    · exact hw.known i x hx
  refine ⟨⟨hw.listed, hw.listCnt, hw.ring, placed_append hw.placed hhome ht hlists, hw.ready,
    hknown, hw.readyKnown⟩, fun k => ?_⟩
  rw [← hnet]
  exact congrArg (Net.mk _) (funext (ops_append hhome hlists))

/-- The counters and the trees do not change when an operation joins. -/
theorem addOperation_same (s : Pipeline) (t : Simulator.Task) : (s.addOperation t).rpu = s.rpu ∧
    (s.addOperation t).tree = s.tree ∧ (s.addOperation t).rootNum = s.rootNum ∧
    (s.addOperation t).startNum = s.startNum ∧ (s.addOperation t).bufferNum = s.bufferNum ∧
    (s.addOperation t).buffer = s.buffer := by
  rw [Pipeline.addOperation, Pipeline.getListId]
  split <;> exact ⟨rfl, rfl, rfl, rfl, rfl, rfl⟩

end Add

/-! ## The counters -/

/-- What the counters say, when the statistics have reached RPU `k`. -/
structure Counted (k : ℕ) (s : Pipeline) : Prop where
  buffer : s.bufferNum = s.buffer.length
  chains : s.startNum = s.bufferNum + underWay trees (netAt k s)
  bound : s.startNum ≤ BUFFER_SIZE
  nonneg : 0 ≤ s.rootNum
  root : (((netAt k s).held ROOT).card : ℤ) = popCount ((netAt k s).ops ROOT) + s.rootNum

/-- The invariant of the pipeline, when the statistics have reached RPU `k`. -/
structure PipeInv (k : ℕ) (s : Pipeline) : Prop where
  wired : Wired s
  counted : Counted k s
  net : Inv trees nextTree ROOT s.rootNum.toNat (netAt k s)

section Steps

variable {s : Pipeline} {k : ℕ}

/-- The budget of the root is `root_num`. -/
theorem pipeInv_of {s : Pipeline} {k : ℕ} {b : ℕ} (hw : Wired s)
    (hnet : Inv trees nextTree ROOT b (netAt k s)) (hb : s.rootNum = b)
    (hbuffer : s.bufferNum = s.buffer.length)
    (hchains : s.startNum = s.bufferNum + underWay trees (netAt k s))
    (hbound : s.startNum ≤ BUFFER_SIZE) : PipeInv k s := by
  have hroot := hnet.root
  refine ⟨hw, ⟨hbuffer, hchains, hbound, by omega, by omega⟩, ?_⟩
  rw [hb, Int.toNat_natCast]
  exact hnet

/-- The element that `AddPush` will put into its tree. -/
def entry (rank token : ℤ) : Pair := entryOf ⟨.push, 0, 0, toInt rank, token⟩

/-- **`AddPush`.**  Only `root_num` counts it. -/
theorem Wired.addPush (h : Wired s) {user : ℕ} (rank token : ℤ) (huser : user ∈ trees) :
    Wired (s.addPush user rank token) ∧
      (∀ k, netAt k (s.addPush user rank token) =
        (netAt k s).add user (.push (entry rank token))) ∧
      (s.addPush user rank token).rootNum = s.rootNum + (if user = ROOT then 1 else 0) ∧
      (s.addPush user rank token).startNum = s.startNum ∧
      (s.addPush user rank token).bufferNum = s.bufferNum ∧
      (s.addPush user rank token).buffer = s.buffer := by
  have hfresh : (⟨.push, user, N, toInt rank, token⟩ : Simulator.Task).Fresh N := ⟨Or.inl rfl, rfl⟩
  rw [Pipeline.addPush]
  split
  · next huser' =>
    obtain ⟨hw, hnet⟩ := Wired.addOperation (s := { s with rootNum := s.rootNum + 1 })
      (h.congr rfl rfl rfl rfl) hfresh huser
    obtain ⟨-, -, hroot, hstart, hnum, hbuffer⟩ := addOperation_same
      { s with rootNum := s.rootNum + 1 } ⟨.push, user, N, toInt rank, token⟩
    exact ⟨hw, hnet, hroot, hstart, hnum, hbuffer⟩
  · obtain ⟨hw, hnet⟩ := h.addOperation hfresh huser
    obtain ⟨-, -, hroot, hstart, hnum, hbuffer⟩ :=
      addOperation_same s ⟨.push, user, N, toInt rank, token⟩
    exact ⟨hw, hnet, by rw [hroot, add_zero], hstart, hnum, hbuffer⟩

/-- The counters stay exact at every `AddPush`. -/
theorem Counted.addPush (h : Counted k s) (hw : Wired s) {user : ℕ} (rank token : ℤ)
    (huser : user ∈ trees) : Counted k (s.addPush user rank token) := by
  obtain ⟨-, hnet, hroot, hstart, hnum, hbuffer⟩ := hw.addPush rank token huser
  have hnonneg := h.nonneg
  have hheld := h.root
  refine ⟨by rw [hnum, hbuffer]; exact h.buffer, ?_, by rw [hstart]; exact h.bound, ?_, ?_⟩
  · rw [hstart, hnum, hnet, underWay_add_push]
    exact h.chains
  · rw [hroot]
    split <;> omega
  · rw [hnet, hroot, held_add_push, popCount_add_push]
    by_cases hu : ROOT = user
    · rw [if_pos hu, if_pos hu.symm, Multiset.card_cons]
      push_cast
      omega
    · rw [if_neg hu, if_neg fun h => hu h.symm, add_zero]
      exact hheld

/-- A pop joins the list of its user. -/
theorem Wired.addPop (h : Wired s) {user : ℕ} (huser : user ∈ trees) :
    Wired (s.addPop user) ∧ (∀ k, netAt k (s.addPop user) = (netAt k s).add user .pop) ∧
      (s.addPop user).rpu = s.rpu ∧ (s.addPop user).tree = s.tree ∧
      (s.addPop user).rootNum = s.rootNum - (if user = ROOT then 1 else 0) ∧
      (s.addPop user).startNum = s.startNum + (if user = ROOT then 1 else 0) ∧
      (s.addPop user).bufferNum = s.bufferNum ∧ (s.addPop user).buffer = s.buffer := by
  have hfresh : (⟨.pop, user, N, 0, 0⟩ : Simulator.Task).Fresh N := ⟨Or.inr rfl, rfl⟩
  rw [Pipeline.addPop]
  split
  · obtain ⟨hw, hnet⟩ := Wired.addOperation
      (s := { s with rootNum := s.rootNum - 1, startNum := s.startNum + 1 })
      (h.congr rfl rfl rfl rfl) hfresh huser
    obtain ⟨hrpu, htree, hroot, hstart, hnum, hbuffer⟩ := addOperation_same
      { s with rootNum := s.rootNum - 1, startNum := s.startNum + 1 } ⟨.pop, user, N, 0, 0⟩
    exact ⟨hw, hnet, hrpu, htree, hroot, hstart, hnum, hbuffer⟩
  · obtain ⟨hw, hnet⟩ := h.addOperation hfresh huser
    obtain ⟨hrpu, htree, hroot, hstart, hnum, hbuffer⟩ := addOperation_same s ⟨.pop, user, N, 0, 0⟩
    exact ⟨hw, hnet, hrpu, htree, by rw [hroot, sub_zero], by rw [hstart, add_zero], hnum, hbuffer⟩

/-- **A root pop is started** if there is room for its result and a packet for it. -/
theorem PipeInv.startPop (h : PipeInv k s) : PipeInv k s.startPop ∧ s.startPop.rpu = s.rpu ∧
    s.startPop.buffer = s.buffer ∧
    leaves trees nextTree (netAt k s.startPop) = leaves trees nextTree (netAt k s) := by
  rw [Pipeline.startPop]
  split
  · next hstart =>
    obtain ⟨hw, hnet, hrpu, -, hroot, hstart', hnum, hbuffer⟩ := h.wired.addPop ROOT_mem
    rw [if_pos rfl] at hroot hstart'
    obtain ⟨b, hb⟩ : ∃ b : ℕ, s.rootNum = b + 1 := ⟨(s.rootNum - 1).toNat, by omega⟩
    have hinv := h.net
    rw [hb, show ((b : ℤ) + 1).toNat = b + 1 by omega] at hinv
    refine ⟨pipeInv_of hw (b := b) ?_ (by omega) ?_ ?_ (by omega), hrpu, hbuffer, ?_⟩
    · rw [hnet]
      exact hinv.add_root_pop
    · rw [hnum, hbuffer]
      exact h.counted.buffer
    · rw [hstart', hnum, hnet, underWay_add_pop ROOT_mem, h.counted.chains]
      push_cast
      ring
    · rw [hnet, leaves_add_pop]
  · exact ⟨h, rfl, rfl, rfl⟩

/-- The tokens of real queues in the pipeline: in the trees, on the way there, or in the
buffer. -/
def tokensOf (k : ℕ) (s : Pipeline) : Multiset ℤ :=
  (leaves trees nextTree (netAt k s)).map Pair.second + s.buffer

/-- The first pop of the tree is executed. -/
theorem netAt_popTree {i : ℕ} (h : Wired s) (hi : i < N) (hready : (s.rpu i).Ready N) (e : Pair) :
    netAt (i + 1) (s.popTree (s.rpu i).root e) = (netAt i s).doPop (s.rpu i).root e := by
  have hstore : (fun u => ((s.popTree (s.rpu i).root e).tree u : Multiset Pair)) =
      fun u => if u = (s.rpu i).root then (s.tree u : Multiset Pair).erase e else s.tree u := by
    funext u
    rw [Pipeline.popTree]
    dsimp only
    split
    · rw [Multiset.coe_erase]
    · rfl
  have hops : opsOf (home s) N entryOf s.lists s.rpu (i + 1) = fun u =>
      if u = (s.rpu i).root then (opsOf (home s) N entryOf s.lists s.rpu i u).tail
      else opsOf (home s) N entryOf s.lists s.rpu i u :=
    funext (ops_exec hready (h.ready i hi hready))
  rw [netAt, hstore]
  exact congrArg (Net.mk _) hops

theorem netAt_pushBuffer (k : ℕ) (s : Pipeline) (token : ℤ) :
    netAt k (s.pushBuffer token) = netAt k s := rfl

theorem exists_max {l : List Pair} (h : l ≠ []) : ∃ e ∈ l, l.max? = some e := by
  cases hmax : l.max? with
  | none => exact absurd (List.max?_eq_none_iff.mp hmax) h
  | some e => exact ⟨e, List.max?_mem hmax, rfl⟩

/-- A pop that waits is the first operation of its tree. -/
theorem PipeInv.ops_eq {i : ℕ} (h : PipeInv i s) (hi : i < N) (hready : (s.rpu i).Ready N) :
    (netAt i s).ops (s.rpu i).root =
      .pop :: listOps (home s) entryOf s.lists (s.rpu i).root :=
  ops_ready hready (h.wired.ready i hi hready)

/-- The token of a real queue goes to the buffer. -/
theorem PipeInv.exec_real {i : ℕ} (h : PipeInv i s) (hi : i < N) (hready : (s.rpu i).Ready N)
    {e : Pair} (he : e ∈ s.tree (s.rpu i).root) (hreal : checkRealQueue e.second = true) :
    PipeInv (i + 1) ((s.popTree (s.rpu i).root e).pushBuffer e.second) ∧
      tokensOf (i + 1) ((s.popTree (s.rpu i).root e).pushBuffer e.second) = tokensOf i s := by
  have hroot := (h.wired.readyKnown i hi hready).2
  have hstore : e ∈ (netAt i s).store (s.rpu i).root := he
  have hinv := h.net.doPop hroot (h.ops_eq hi hready) hstore
  have hleaves := leaves_doPop nextTree hroot (h.ops_eq hi hready) hstore
  have hway := underWay_doPop h.net hroot (h.ops_eq hi hready) hstore
  have hnext : nextTree (s.rpu i).root e = none := if_pos hreal
  rw [hnext, Net.follow, ← netAt_popTree h.wired hi hready e,
    ← netAt_pushBuffer (i + 1) (s.popTree (s.rpu i).root e) e.second] at hinv hleaves hway
  rw [if_pos rfl] at hleaves hway
  have hw : Wired (s.popTree (s.rpu i).root e) := h.wired.congr rfl rfl rfl rfl
  refine ⟨pipeInv_of (hw.congr rfl rfl rfl rfl) hinv
    (Int.toNat_of_nonneg h.counted.nonneg).symm ?_ ?_ h.counted.bound, ?_⟩
  · show s.bufferNum + 1 = (s.buffer ++ [e.second]).length
    rw [h.counted.buffer, List.length_append, List.length_singleton]
    rfl
  · show s.startNum = s.bufferNum + 1 + _
    rw [h.counted.chains, hway]
    push_cast
    ring
  · have hbuffer : ((s.popTree (s.rpu i).root e).pushBuffer e.second).buffer =
        s.buffer ++ [e.second] := rfl
    rw [tokensOf, tokensOf, hleaves, hbuffer, Multiset.map_add, Multiset.map_singleton,
      ← Multiset.coe_add, Multiset.coe_singleton]
    abel

/-- Any other token is the number of the tree to pop next. -/
theorem PipeInv.exec_tree {i : ℕ} (h : PipeInv i s) (hi : i < N) (hready : (s.rpu i).Ready N)
    {e : Pair} (he : e ∈ s.tree (s.rpu i).root) (hreal : ¬checkRealQueue e.second = true) :
    PipeInv (i + 1) ((s.popTree (s.rpu i).root e).addPop e.second.toNat) ∧
      tokensOf (i + 1) ((s.popTree (s.rpu i).root e).addPop e.second.toNat) = tokensOf i s := by
  have hroot := (h.wired.readyKnown i hi hready).2
  have hstore : e ∈ (netAt i s).store (s.rpu i).root := he
  have hinv := h.net.doPop hroot (h.ops_eq hi hready) hstore
  have hleaves := leaves_doPop nextTree hroot (h.ops_eq hi hready) hstore
  have hway := underWay_doPop h.net hroot (h.ops_eq hi hready) hstore
  have hnext : nextTree (s.rpu i).root e = some e.second.toNat := if_neg hreal
  obtain ⟨hu, huR⟩ := h.net.closed _ hroot e (Multiset.mem_add.mpr (Or.inl hstore)) _ hnext
  rw [hnext, Net.follow, ← netAt_popTree h.wired hi hready e] at hinv hleaves hway
  rw [if_neg (by simp), zero_add] at hleaves hway
  have hw : Wired (s.popTree (s.rpu i).root e) := h.wired.congr rfl rfl rfl rfl
  obtain ⟨hw', hnet', -, -, hrootNum, hstart, hbufferNum, hbuffer⟩ := hw.addPop hu
  rw [if_neg huR, sub_zero] at hrootNum
  rw [if_neg huR, add_zero] at hstart
  rw [← hnet' (i + 1)] at hinv hleaves hway
  refine ⟨pipeInv_of hw' hinv
    (hrootNum.trans (Int.toNat_of_nonneg h.counted.nonneg).symm) ?_ ?_ ?_, ?_⟩
  · rw [hbufferNum, hbuffer]
    exact h.counted.buffer
  · rw [hstart, hbufferNum, ← hway]
    exact h.counted.chains
  · rw [hstart]
    exact h.counted.bound
  · rw [tokensOf, tokensOf, hleaves, hbuffer]
    rfl

/-- **A pop that waits is executed**: its tree holds something. -/
theorem PipeInv.exec {i : ℕ} (h : PipeInv i s) (hi : i < N) (hready : (s.rpu i).Ready N) :
    s.tree (s.rpu i).root ≠ [] ∧ ∃ s', s.execAt i = some s' ∧ PipeInv (i + 1) s' ∧
      tokensOf (i + 1) s' = tokensOf i s := by
  have hne : s.tree (s.rpu i).root ≠ [] := by
    intro hnil
    refine h.net.store_ne_zero (h.ops_eq hi hready) ?_
    show (s.tree (s.rpu i).root : Multiset Pair) = 0
    rw [hnil]
    rfl
  obtain ⟨e, hmem, hmax⟩ := exists_max hne
  have hexec : s.execAt i = some (if checkRealQueue e.second then
      (s.popTree (s.rpu i).root e).pushBuffer e.second
      else (s.popTree (s.rpu i).root e).addPop e.second.toNat) := by
    rw [Pipeline.execAt, if_pos hready, hmax]
    rfl
  refine ⟨hne, _, hexec, ?_⟩
  by_cases hreal : checkRealQueue e.second = true
  · rw [if_pos hreal]
    exact h.exec_real hi hready hmem hreal
  · rw [if_neg hreal]
    exact h.exec_tree hi hready hmem hreal

/-- An RPU without a pop that waits is passed. -/
theorem PipeInv.skip {i : ℕ} (h : PipeInv i s) (hready : ¬(s.rpu i).Ready N) :
    s.execAt i = some s ∧ PipeInv (i + 1) s ∧ tokensOf (i + 1) s = tokensOf i s := by
  have hnet : netAt (i + 1) s = netAt i s := by
    rw [netAt, netAt, funext (ops_skip hready)]
  have hc := h.counted
  refine ⟨if_neg hready, ⟨h.wired, ⟨hc.buffer, ?_, hc.bound, hc.nonneg, ?_⟩, ?_⟩, ?_⟩
  · rw [hnet]
    exact hc.chains
  · rw [hnet]
    exact hc.root
  · rw [hnet]
    exact h.net
  · rw [tokensOf, tokensOf, hnet]

/-- **The statistics**, up to any RPU. -/
theorem PipeInv.execUpTo (h : PipeInv 0 s) {n : ℕ} (hn : n ≤ N) :
    ∃ s', (List.range n).foldlM Pipeline.execAt s = some s' ∧ PipeInv n s' ∧
      tokensOf n s' = tokensOf 0 s := by
  refine Runs.exists_foldlM_range (P := fun n s' => PipeInv n s' ∧ tokensOf n s' = tokensOf 0 s)
    ⟨h, rfl⟩ ?_
  rintro i hi s₁ ⟨hinv, htok⟩
  by_cases hready : (s₁.rpu i).Ready N
  · obtain ⟨-, s₂, hexec, hinv', htok'⟩ := hinv.exec (by omega) hready
    exact ⟨s₂, hexec, hinv', htok'.trans htok⟩
  · obtain ⟨hexec, hinv', htok'⟩ := hinv.skip hready
    exact ⟨s₁, hexec, hinv', htok'.trans htok⟩

/-! ## Pass down and send -/

theorem pushSent_spec (sent : List (ℕ × Simulator.Task)) : ∀ (tree : ℕ → List Pair) (u : ℕ),
    ((Pipeline.pushSent sent tree u : List Pair) : Multiset Pair) = tree u +
      (((sentPushes entryOf sent).filter fun x => decide (x.1 = u)).map Prod.snd : List Pair) := by
  induction sent with
  | nil => exact fun tree u => (add_zero _).symm
  | cons x sent ih =>
    intro tree u
    by_cases hx : x.2.type = .push
    · have hsent : sentPushes entryOf (x :: sent) =
          (x.2.root, entryOf x.2) :: sentPushes entryOf sent := by
        simp [sentPushes, hx]
      have hstep : Pipeline.pushSent (x :: sent) tree = Pipeline.pushSent sent fun u =>
          if u = x.2.root then entryOf x.2 :: tree u else tree u := by
        rw [Pipeline.pushSent, List.foldl_cons, if_pos hx]
        rfl
      rw [hstep, ih, hsent]
      by_cases hu : x.2.root = u
      · rw [if_pos hu.symm, List.filter_cons_of_pos (by simpa using hu), List.map_cons,
          ← Multiset.cons_coe, ← Multiset.cons_coe, Multiset.cons_add, Multiset.add_cons]
      · rw [if_neg fun h => hu h.symm, List.filter_cons_of_neg (by simpa using hu)]
    · have hsent : sentPushes entryOf (x :: sent) = sentPushes entryOf sent := by
        simp [sentPushes, hx]
      have hstep : Pipeline.pushSent (x :: sent) tree = Pipeline.pushSent sent tree := by
        rw [Pipeline.pushSent, List.foldl_cons, if_neg hx]
        rfl
      rw [hstep, ih, hsent]

/-- **The ring moves on** and the pushes that are sent are executed. -/
theorem PipeInv.advance (h : PipeInv N s) (locked : ℕ → Bool) :
    PipeInv 0 (s.advance locked) ∧ tokensOf 0 (s.advance locked) = tokensOf N s := by
  have hN : 2 ≤ N := by decide
  have hhome := h.wired.home_lt
  obtain ⟨hplaced, hsub, -, net', hrun, hops⟩ := ops_ringStep entryOf locked
    hN hN hhome h.wired.ring h.wired.placed fun u => (s.tree u : Multiset Pair)
  have hready := fun i (hi : i < N) => ready_ringStep locked hN hN hhome h.wired.ring
    h.wired.placed hi
  have hring := (ringStep_inv locked hN hN h.wired.ring h.wired.placed.loaded).ring
  have hstep : s.advance locked = { s with
      lists := (ringStep N locked s.lists s.rpu).lists
      rpu := (ringStep N locked s.lists s.rpu).rpu
      tree := Pipeline.pushSent (ringStep N locked s.lists s.rpu).sent s.tree } := rfl
  rw [hstep]
  generalize ringStep N locked s.lists s.rpu = r at *
  have htree := pushSent_spec r.sent s.tree
  generalize Pipeline.pushSent r.sent s.tree = tr at *
  have hnet : netAt 0 { s with lists := r.lists, rpu := r.rpu, tree := tr } = net' := by
    have hs : (fun u => (tr u : Multiset Pair)) = net'.store := by
      funext u
      rw [htree, hrun.store_eq]
    rw [netAt, hs]
    exact congrArg (Net.mk _) hops.symm
  have hc := h.counted
  have hway : underWay trees net' = underWay trees (netAt N s) :=
    Finset.sum_congr rfl fun u _ => hrun.pops_eq u
  refine ⟨pipeInv_of (b := s.rootNum.toNat) ⟨h.wired.listed, h.wired.listCnt, hring, hplaced,
    fun i hi hr => h.wired.placed.home i _ (hready i hi hr),
    fun i t ht => h.wired.known i t (hsub i t ht),
    fun i hi hr => h.wired.known i _ (hready i hi hr)⟩ ?_ ?_ hc.buffer ?_ hc.bound, ?_⟩
  · rw [hnet]
    exact hrun.inv h.net
  · exact (Int.toNat_of_nonneg hc.nonneg).symm
  · rw [hnet, hway]
    exact hc.chains
  · rw [tokensOf, hnet, hrun.leaves_eq]
    rfl

/-- **`WakeUp`.** -/
theorem PipeInv.wakeUp (h : PipeInv 0 s) (locked : ℕ → Bool) :
    ∃ s', s.wakeUp locked = some s' ∧ PipeInv 0 s' ∧ tokensOf 0 s' = tokensOf 0 s := by
  obtain ⟨hstart, -, hbuffer, hleaves⟩ := h.startPop
  obtain ⟨s₁, hrun, hinv, htok⟩ := hstart.execUpTo le_rfl
  obtain ⟨hinv', htok'⟩ := hinv.advance locked
  refine ⟨s₁.advance locked, by rw [Pipeline.wakeUp, hrun]; rfl, hinv', ?_⟩
  rw [htok', htok, tokensOf, hbuffer, hleaves, tokensOf]

/-- **`GetToken`.** -/
theorem PipeInv.getToken (h : PipeInv 0 s) :
    (s.getToken = some (-1, s) ∧ s.buffer = []) ∨
    ∃ tok s', s.getToken = some (tok, s') ∧ PipeInv 0 s' ∧
      tokensOf 0 s = tok ::ₘ tokensOf 0 s' := by
  have hc := h.counted
  have hbuf := hc.buffer
  rw [Pipeline.getToken]
  cases hbuffer : s.buffer with
  | nil =>
    rw [hbuffer] at hbuf
    exact Or.inl ⟨if_pos hbuf, rfl⟩
  | cons tok rest =>
    rw [hbuffer, List.length_cons] at hbuf
    push_cast at hbuf
    rw [if_neg (by omega)]
    refine Or.inr ⟨tok, _, rfl, pipeInv_of (b := s.rootNum.toNat)
      (h.wired.congr rfl rfl rfl rfl) h.net ?_ ?_ ?_ ?_, ?_⟩
    · exact (Int.toNat_of_nonneg hc.nonneg).symm
    · dsimp only
      omega
    · have hchains := hc.chains
      show s.startNum - 1 = s.bufferNum - 1 + underWay trees (netAt 0 s)
      omega
    · have := hc.bound
      dsimp only
      omega
    · show (leaves trees nextTree (netAt 0 s)).map Pair.second + (s.buffer : Multiset ℤ) =
        tok ::ₘ ((leaves trees nextTree (netAt 0 s)).map Pair.second + (rest : Multiset ℤ))
      rw [hbuffer, ← Multiset.cons_coe, Multiset.add_cons]

end Steps

/-! ## A packet arrives -/

/-- The tokens of the calls lead from tree `u` from tree to tree, and the last one is the token
of the real queue `tok`. -/
inductive Chain (tok : ℤ) : ℕ → List PushCall → Prop where
  | real {u : ℕ} (rank : ℤ) (hu : u ∈ trees) (htok : checkRealQueue tok = true) :
      Chain tok u [⟨u, rank, tok⟩]
  | link {u v : ℕ} {ps : List PushCall} (rank : ℤ) (hu : u ∈ trees)
      (hv : checkRealQueue v = false) (hroot : v ≠ ROOT) (h : Chain tok v ps) :
      Chain tok u (⟨u, rank, v⟩ :: ps)

/-- The pushes of the calls. -/
def pathOf (ps : List PushCall) : List (ℕ × Pair) := ps.map fun p => (p.user, entry p.rank p.token)

theorem nextTree_entry (u : ℕ) (rank token : ℤ) : nextTree u (entry rank token) =
    if checkRealQueue token then none else some token.toNat := rfl

/-- What a net needs to know about a chain. -/
theorem Chain.path {tok : ℤ} {u : ℕ} {ps : List PushCall} (h : Chain tok u ps) :
    (∀ p ∈ pathOf ps, p.1 ∈ trees) ∧
    (pathOf ps).map Prod.fst = u :: (pathOf ps).filterMap (fun p => nextTree p.1 p.2) ∧
    (∀ p ∈ pathOf ps, nextTree p.1 p.2 ≠ some ROOT) ∧
    ((pathOf ps).filter fun p => decide (nextTree p.1 p.2 = none)).map (fun p => p.2.second) =
      [tok] := by
  induction h with
  | @real u rank hu htok =>
    have hnext : nextTree u (entry rank tok) = none := by rw [nextTree_entry, if_pos htok]
    have hpath : pathOf [⟨u, rank, tok⟩] = [(u, entry rank tok)] := rfl
    have hnone : [(u, entry rank tok)].filterMap (fun p => nextTree p.1 p.2) = [] :=
      List.filterMap_cons_none hnext
    rw [hpath, hnone, List.filter_cons_of_pos (by simpa using hnext)]
    refine ⟨fun p hp => ?_, rfl, fun p hp => ?_, rfl⟩
    · rw [List.mem_singleton.mp hp]
      exact hu
    · rw [List.mem_singleton.mp hp, hnext]
      simp
  | @link u v ps rank hu hv hroot _ ih =>
    obtain ⟨hmem, husers, hnot, hreal⟩ := ih
    have hnext : nextTree u (entry rank v) = some v := by
      rw [nextTree_entry, hv, if_neg (by simp), Int.toNat_natCast]
    have hpath : pathOf (⟨u, rank, v⟩ :: ps) = (u, entry rank v) :: pathOf ps := rfl
    have hsome : ((u, entry rank v) :: pathOf ps).filterMap (fun p => nextTree p.1 p.2) =
        v :: (pathOf ps).filterMap fun p => nextTree p.1 p.2 := List.filterMap_cons_some hnext
    rw [hpath, hsome, List.map_cons, ← husers,
      List.filter_cons_of_neg (by rw [hnext]; simp)]
    refine ⟨fun p hp => ?_, rfl, fun p hp => ?_, hreal⟩
    · rcases List.mem_cons.mp hp with rfl | hp
      · exact hu
      · exact hmem p hp
    · rcases List.mem_cons.mp hp with rfl | hp
      · rw [hnext]
        exact fun heq => hroot (Option.some.inj heq)
      · exact hnot p hp

section Arrive

theorem checkRealQueue_of_lt {n : ℕ} (h : n < 100) : checkRealQueue n = false := by
  rw [checkRealQueue, if_neg (by omega), if_pos (by omega)]

theorem checkRealQueue_tenant {tenant : ℕ} (h : tenant < 100) :
    checkRealQueue ((100 + tenant : ℕ) : ℤ) = isHadoop tenant := by
  rw [checkRealQueue, if_neg (by omega), if_neg (by omega), isHadoop]
  refine decide_eq_decide.mpr ?_
  omega

theorem checkRealQueue_flow {id : ℤ} (h : 1000 ≤ id) : checkRealQueue id = true := if_pos h

/-- The token of the real queue of a packet. -/
def realToken (tenant : ℕ) (flowId : ℤ) : ℤ :=
  if isHadoop tenant then ((100 + tenant : ℕ) : ℤ) else flowId

theorem mem_trees_of_lt {u : ℕ} (h : u < 200) : u ∈ trees :=
  Finset.mem_range.mpr (h.trans (by decide))

theorem ne_ROOT_of_lt {u : ℕ} (h : u < 200) : u ≠ ROOT := by
  rintro rfl
  exact absurd h (by decide)

/-- `SimplePIFO` pushes the token of the real queue into the root. -/
theorem chain_simplePIFO {tenant : ℕ} {flowId : ℤ} (ht : tenant < 100)
    (hf : isHadoop tenant = false → 1000 ≤ flowId) (rank : ℤ) :
    Chain (realToken tenant flowId) ROOT (simplePIFOPushes tenant flowId rank) := by
  have htok : (if isHadoop tenant then (tenant + 100 : ℤ) else flowId) =
      realToken tenant flowId := by
    rw [realToken]
    push_cast
    rw [add_comm]
  rw [simplePIFOPushes, htok]
  refine .real rank ROOT_mem ?_
  rw [realToken]
  cases hh : isHadoop tenant with
  | true =>
    rw [if_pos rfl, checkRealQueue_tenant ht]
    exact hh
  | false => exact checkRealQueue_flow (hf hh)

/-- `vPIFO` pushes a token into the root, the tree of the group, the one of the type and, for a
Web-Search tenant, the one of the tenant. -/
theorem chain_vPIFO {tenant : ℕ} {flowId : ℤ} (ht : tenant < 100)
    (hf : isHadoop tenant = false → 1000 ≤ flowId) (rk1 rk2 rk3 rk4 : ℤ) :
    Chain (realToken tenant flowId) ROOT (vPIFOPushes tenant flowId rk1 rk2 rk3 rk4) := by
  have htype : 10 + tenant / 10 * 2 + (isHadoop tenant).toNat < 30 := by
    have := Bool.toNat_lt (isHadoop tenant)
    omega
  have hten := checkRealQueue_tenant ht
  rw [vPIFOPushes, realToken]
  refine .link rk1 ROOT_mem (checkRealQueue_of_lt (by omega)) (ne_ROOT_of_lt (by omega)) ?_
  refine .link rk2 (mem_trees_of_lt (by omega)) (checkRealQueue_of_lt (by omega))
    (ne_ROOT_of_lt (by omega)) ?_
  cases hh : isHadoop tenant with
  | true => exact .real rk3 (mem_trees_of_lt (by rw [← hh]; omega)) (hten.trans hh)
  | false =>
    exact .link rk3 (mem_trees_of_lt (by rw [← hh]; omega)) (hten.trans hh)
      (ne_ROOT_of_lt (by omega))
      (.real rk4 (mem_trees_of_lt (by omega)) (checkRealQueue_flow (hf hh)))

variable {s : Pipeline}

/-- Several calls of `AddPush`. -/
theorem Wired.addPushes (ps : List PushCall) : ∀ {s : Pipeline}, Wired s →
    (∀ p ∈ ps, p.user ∈ trees) → Wired (s.addPushes ps) ∧
      (∀ k, netAt k (s.addPushes ps) = (netAt k s).addAll (pathOf ps)) ∧
      (s.addPushes ps).buffer = s.buffer ∧ (Counted 0 s → Counted 0 (s.addPushes ps)) := by
  induction ps with
  | nil => exact fun h _ => ⟨h, fun _ => rfl, rfl, id⟩
  | cons p ps ih =>
    intro s h hmem
    have hp := hmem p List.mem_cons_self
    obtain ⟨hw, hnet, -, -, -, hbuffer⟩ := h.addPush p.rank p.token hp
    obtain ⟨hw', hnet', hbuffer', hcounted⟩ := ih hw fun q hq => hmem q (List.mem_cons_of_mem _ hq)
    refine ⟨hw', fun k => ?_, hbuffer'.trans hbuffer, fun hc => hcounted (hc.addPush h _ _ hp)⟩
    have hstep : s.addPushes (p :: ps) = (s.addPush p.user p.rank p.token).addPushes ps := rfl
    rw [hstep, hnet', hnet]
    rfl

/-- **A packet arrives.** -/
theorem PipeInv.arrive (h : PipeInv 0 s) {ps : List PushCall} {tok : ℤ}
    (hchain : Chain tok ROOT ps) :
    PipeInv 0 (s.addPushes ps) ∧ tokensOf 0 (s.addPushes ps) = tok ::ₘ tokensOf 0 s := by
  obtain ⟨hmem, husers, hnot, hreal⟩ := hchain.path
  have hmem' : ∀ p ∈ ps, p.user ∈ trees := fun p hp =>
    hmem _ (List.mem_map_of_mem (f := fun p => (p.user, entry p.rank p.token)) hp)
  obtain ⟨hw, hnet, hbuffer, hcounted⟩ := Wired.addPushes ps h.wired hmem'
  have hc := hcounted h.counted
  have hinv := h.net.addPath hmem (List.Perm.of_eq husers) hnot
  rw [← hnet] at hinv
  -- both say how many pops the root can take
  have hbudget : (s.addPushes ps).rootNum.toNat = s.rootNum.toNat + 1 := by
    have hroot := hc.root
    rw [hinv.root] at hroot
    push_cast at hroot
    omega
  refine ⟨⟨hw, hc, by rw [hbudget]; exact hinv⟩, ?_⟩
  have hleaf : ((((pathOf ps).filter fun p => decide (nextTree p.1 p.2 = none)).map Prod.snd).map
      Pair.second : List ℤ) = [tok] := by
    rw [List.map_map]
    exact hreal
  rw [tokensOf, hnet, leaves_addAll hmem h.net.covered, Multiset.map_add, Multiset.map_coe, hleaf,
    hbuffer, tokensOf, Multiset.coe_singleton, ← Multiset.singleton_add]
  abel

end Arrive

/-! ## Runs -/

/-- A call of the pipeline from outside. -/
inductive Call where
  | addPush (p : PushCall)
  | getToken
  | wakeUp (locked : ℕ → Bool)

/-- One call. -/
def Pipeline.step (s : Pipeline) : Call → Option Pipeline
  | .addPush p => some (s.addPush p.user p.rank p.token)
  | .getToken => s.getToken.map Prod.snd
  | .wakeUp locked => s.wakeUp locked

/-- The state after the calls `cs`. -/
def Pipeline.run (cs : List Call) : Option Pipeline := cs.foldlM Pipeline.step Pipeline.init

/-- The calls of `AddPush` in one `DoEnqueue`. -/
inductive Arrival : List PushCall → Prop where
  | vPIFO (tenant : ℕ) (flowId rk1 rk2 rk3 rk4 : ℤ) (ht : tenant < 100)
      (hf : isHadoop tenant = false → 1000 ≤ flowId) :
      Arrival (vPIFOPushes tenant flowId rk1 rk2 rk3 rk4)
  | simplePIFO (tenant : ℕ) (flowId rank : ℤ) (ht : tenant < 100)
      (hf : isHadoop tenant = false → 1000 ≤ flowId) :
      Arrival (simplePIFOPushes tenant flowId rank)

/-- The calls of a simulation: packets arrive, tokens are taken and cycles pass, in any order.
`DoEnqueue` is not interrupted, so its calls of `AddPush` stand together. -/
inductive Calls : List Call → Prop where
  | nil : Calls []
  | arrive {cs : List Call} {ps : List PushCall} (h : Calls cs) (hps : Arrival ps) :
      Calls (cs ++ ps.map Call.addPush)
  | getToken {cs : List Call} (h : Calls cs) : Calls (cs ++ [.getToken])
  | wakeUp {cs : List Call} (locked : ℕ → Bool) (h : Calls cs) : Calls (cs ++ [.wakeUp locked])

section Runs

variable {s : Pipeline}

theorem not_ready_init (j : ℕ) : ¬(Pipeline.init.rpu j).Ready N := by
  intro h
  have hpop : Simulator.Task.blank.type = .pop := h.2
  exact absurd hpop (by decide)

theorem netAt_init : netAt 0 Pipeline.init = Net.empty := by
  have hops : opsOf (home Pipeline.init) N entryOf Pipeline.init.lists Pipeline.init.rpu 0 =
      fun _ => [] := by
    funext u
    rw [opsOf, readyOps, if_neg fun h => not_ready_init _ h.2.1]
    rfl
  rw [netAt, hops]
  rfl

theorem pipeInv_init : PipeInv 0 Pipeline.init := by
  refine pipeInv_of (b := 0) ⟨fun u j h => absurd h (by simp [Pipeline.init]), by decide,
    ringInv_blank, ⟨fun _ _ h => absurd h (by simp [Pipeline.init]),
      fun _ _ h => absurd h (by simp [Pipeline.init])⟩, fun j _ h => absurd h (not_ready_init j),
    fun _ _ h => absurd h (by simp [Pipeline.init]), fun j _ h => absurd h (not_ready_init j)⟩
    ?_ rfl rfl ?_ (by decide)
  · rw [netAt_init]
    exact inv_empty
  · rw [netAt_init, underWay_empty]
    rfl

theorem Arrival.chain {ps : List PushCall} (h : Arrival ps) : ∃ tok, Chain tok ROOT ps := by
  cases h with
  | vPIFO tenant flowId rk1 rk2 rk3 rk4 ht hf => exact ⟨_, chain_vPIFO ht hf rk1 rk2 rk3 rk4⟩
  | simplePIFO tenant flowId rank ht hf => exact ⟨_, chain_simplePIFO ht hf rank⟩

theorem run_append {cs cs' : List Call} (h : Pipeline.run cs = some s) :
    Pipeline.run (cs ++ cs') = cs'.foldlM Pipeline.step s := by
  rw [Pipeline.run, List.foldlM_append]
  rw [Pipeline.run] at h
  rw [h]
  rfl

theorem foldlM_addPush (ps : List PushCall) : ∀ s : Pipeline,
    (ps.map Call.addPush).foldlM Pipeline.step s = some (s.addPushes ps) := by
  induction ps with
  | nil => exact fun s => rfl
  | cons p ps ih =>
    intro s
    rw [List.map_cons, List.foldlM_cons]
    exact ih _

/-- The invariant holds after every `DoEnqueue`, `GetToken` and `WakeUp`. -/
theorem Calls.inv {cs : List Call} (h : Calls cs) :
    ∃ s, Pipeline.run cs = some s ∧ PipeInv 0 s := by
  induction h with
  | nil => exact ⟨_, rfl, pipeInv_init⟩
  | arrive _ hps ih =>
    obtain ⟨s, hs, hinv⟩ := ih
    obtain ⟨tok, hchain⟩ := hps.chain
    exact ⟨_, (run_append hs).trans (foldlM_addPush _ s), (hinv.arrive hchain).1⟩
  | getToken _ ih =>
    obtain ⟨s, hs, hinv⟩ := ih
    rcases hinv.getToken with ⟨htok, -⟩ | ⟨tok, s', htok, hinv', -⟩
    · exact ⟨s, (run_append hs).trans (by simp [Pipeline.step, htok]), hinv⟩
    · exact ⟨s', (run_append hs).trans (by simp [Pipeline.step, htok]), hinv'⟩
  | wakeUp locked _ ih =>
    obtain ⟨s, hs, hinv⟩ := ih
    obtain ⟨s', hwake, hinv', -⟩ := hinv.wakeUp locked
    exact ⟨s', (run_append hs).trans (by simp [Pipeline.step, hwake]), hinv'⟩

/-- The counters are exact at every point of a run, also between the calls of `AddPush` of one
`DoEnqueue`. -/
theorem Calls.counted {cs : List Call} (h : Calls cs) : ∀ {cs' : List Call}, cs' <+: cs →
    ∃ s, Pipeline.run cs' = some s ∧ Wired s ∧ Counted 0 s := by
  induction h with
  | nil =>
    intro cs' hpre
    rw [List.prefix_nil.mp hpre]
    exact ⟨_, rfl, pipeInv_init.wired, pipeInv_init.counted⟩
  | @arrive cs ps h hps ih =>
    intro cs' hpre
    rcases List.prefix_or_prefix_of_prefix hpre (List.prefix_append cs _) with hpre | ⟨qs, rfl⟩
    · exact ih hpre
    · obtain ⟨s, hs, hinv⟩ := h.inv
      rw [List.prefix_append_right_inj] at hpre
      obtain ⟨rs, hrs, rfl⟩ := List.prefix_map_iff.mp hpre
      obtain ⟨tok, hchain⟩ := hps.chain
      have hmem : ∀ p ∈ rs, p.user ∈ trees := fun p hp =>
        hchain.path.1 _ (List.mem_map_of_mem (f := fun p => (p.user, entry p.rank p.token))
          (hrs.subset hp))
      obtain ⟨hw, -, -, hcounted⟩ := Wired.addPushes rs hinv.wired hmem
      exact ⟨_, (run_append hs).trans (foldlM_addPush rs s), hw, hcounted hinv.counted⟩
  | @getToken cs h ih =>
    intro cs' hpre
    rcases List.prefix_concat_iff.mp hpre with rfl | hpre
    · obtain ⟨s, hs, hinv⟩ := (Calls.getToken h).inv
      exact ⟨s, hs, hinv.wired, hinv.counted⟩
    · exact ih hpre
  | @wakeUp cs locked h ih =>
    intro cs' hpre
    rcases List.prefix_concat_iff.mp hpre with rfl | hpre
    · obtain ⟨s, hs, hinv⟩ := (Calls.wakeUp locked h).inv
      exact ⟨s, hs, hinv.wired, hinv.counted⟩
    · exact ih hpre

end Runs

/-! ## The prefetcher -/

/-- The pops that have not been executed, in the operation lists and in the ring. -/
def popsWaiting (s : Pipeline) : ℕ := ∑ i ∈ Finset.range N,
  ((if (s.rpu i).Ready N then 1 else 0) + (s.lists i).countP fun t => decide (t.type = .pop))

/-- The pushes of the root in the operation lists. -/
def rootPushes (s : Pipeline) : ℕ := ∑ i ∈ Finset.range N,
  (s.lists i).countP fun t => decide (t.type = .push ∧ t.root = ROOT)

/-- The pops of the root that have not been executed, in the operation lists and in the ring. -/
def rootPops (s : Pipeline) : ℕ := ∑ i ∈ Finset.range N,
  ((if (s.rpu i).Ready N ∧ (s.rpu i).root = ROOT then 1 else 0) +
    (s.lists i).countP fun t => decide (t.type = .pop ∧ t.root = ROOT))

section Waiting

variable {s : Pipeline}

theorem Wired.popsWaiting_eq (h : Wired s) : popsWaiting s = underWay trees (netAt 0 s) :=
  (sum_pops_ops h.home_lt h.placed h.ready (fun i t ht => (h.known i t ht).2)
    fun i hi hr => (h.readyKnown i hi hr).2).symm

theorem Wired.rootPops_eq (h : Wired s) : rootPops s = popCount ((netAt 0 s).ops ROOT) := by
  have hpops := popCount_ops (home s) entryOf s.rpu h.placed.loaded ROOT
  rw [rootPops, Finset.sum_add_distrib, sum_ready_tree h.home_lt h.ready,
    sum_countP_tree h.home_lt h.placed]
  exact hpops.symm

theorem Wired.rootPushes_eq (h : Wired s) :
    (s.tree ROOT).length + rootPushes s = ((netAt 0 s).held ROOT).card := by
  have hpushed := card_pushed_ops (home s) N entryOf s.lists s.rpu 0 ROOT
  rw [rootPushes, sum_countP_tree h.home_lt h.placed, Net.held, Multiset.card_add]
  exact congrArg _ hpushed.symm

end Waiting

/-- **The prefetcher is exact.**  At every point of every run, whatever the starvation logic
locks: the buffer holds `buffer_num` tokens, at most `start_num`, which is at most
`BUFFER_SIZE`; as many pops as `start_num` is larger wait for their turn; and `root_num` is the
number of elements that the root tree holds or is going to hold and that no pop is going to
take. -/
theorem prefetch_exact (cs : List Call) (h : Calls cs) (cs' : List Call) (hpre : cs' <+: cs) :
    ∃ s, Pipeline.run cs' = some s ∧ 0 ≤ s.bufferNum ∧ s.bufferNum = s.buffer.length ∧
      s.bufferNum ≤ s.startNum ∧ s.startNum ≤ BUFFER_SIZE ∧
      s.startNum - s.bufferNum = popsWaiting s ∧
      s.rootNum = (s.tree ROOT).length + rootPushes s - rootPops s ∧ 0 ≤ s.rootNum := by
  obtain ⟨s, hs, hw, hc⟩ := h.counted hpre
  have hbuffer := hc.buffer
  have hchains := hc.chains
  have hroot := hc.root
  have hpushes := hw.rootPushes_eq
  rw [← hw.popsWaiting_eq] at hchains
  rw [← hw.rootPops_eq, ← hpushes] at hroot
  push_cast at hroot
  exact ⟨s, hs, by omega, hbuffer, by omega, hc.bound, by omega, by omega, hc.nonneg⟩

/-- Packets of tenants 1 and 12 arrive, and `n` cycles pass. -/
def twoArrivals (n : ℕ) : List Call :=
  (vPIFOPushes 1 0 7 7 7 7).map Call.addPush ++ (vPIFOPushes 12 0 5 5 5 5).map Call.addPush ++
    List.replicate n (.wakeUp fun _ => false)

theorem calls_twoArrivals (n : ℕ) : Calls (twoArrivals n) := by
  induction n with
  | zero =>
    rw [twoArrivals, List.replicate_zero, List.append_nil]
    exact .arrive (.arrive .nil (.vPIFO 1 0 7 7 7 7 (by decide) (by decide)))
      (.vPIFO 12 0 5 5 5 5 (by decide) (by decide))
  | succ n ih =>
    rw [twoArrivals, List.replicate_succ', ← List.append_assoc]
    exact .wakeUp _ ih

/-- After 20 cycles one of the two tokens is in the buffer, and the pop of the other one is under
way. -/
theorem prefetch_exact_twoArrivals : ∃ s, Pipeline.run (twoArrivals 20) = some s ∧
    s.bufferNum = 1 ∧ s.startNum = 2 ∧ s.startNum - s.bufferNum = popsWaiting s ∧
    s.rootNum = (s.tree ROOT).length + rootPushes s - rootPops s := by
  have hnums : (Pipeline.run (twoArrivals 20)).map (fun s => (s.bufferNum, s.startNum)) =
      some (1, 2) := by
    decide +kernel
  obtain ⟨s, hs, -, -, -, -, hstart, hroot, -⟩ :=
    prefetch_exact _ (calls_twoArrivals 20) _ List.prefix_rfl
  rw [hs, Option.map_some, Option.some.injEq, Prod.mk.injEq] at hnums
  exact ⟨s, hs, hnums.1, hnums.2, hstart, hroot⟩

end Ns3

end VPifo
