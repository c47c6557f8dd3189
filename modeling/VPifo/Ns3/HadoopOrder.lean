import VPifo.Lib.ArrivalOrder
import VPifo.Ns3.RankOrder
import VPifo.Ns3.SimplePIFO

/-!
# Hadoop packets leave `SimplePIFO` in the order of their arrival

The rank of a Hadoop packet is a clock that starts at `-10 ^ 16` and counts these packets.  The
tree compares what is left of it in an `int`, and that is in order for a long time: the clock
starts at place 272564223 of its window of `2 ^ 32` ranks, so that it takes 4022403072 packets to
the end of the window.

Until then the Hadoop packets of all tenants leave the tree in the order of their arrival, although
the Web-Search packets in between have ranks of any kind (`InTurn`).  What is taken from the tree is
a token, which names the queue of a tenant and not a packet; the queue knows the order of its own
packets, and the tokens know the order of the queues (`isPrefix_of_names`).
-/

namespace VPifo

namespace Ns3

open ArrivalOrder Reference Simulator TokenNet

/-! ## A pipeline with pushes of the root only -/

/-- The push of a Hadoop packet: its token is that of a tenant. -/
def PushCall.ofHadoop (p : PushCall) : Bool := decide (p.token < 1000)

namespace Traced

/-- The calls whose elements have been taken. -/
def takenCalls (g : Traced) : List PushCall := g.log.filterMap Popped.taken

/-- The Hadoop calls `ps` are in order: the ones that have been taken, those in the tree of the root
and those in its list. -/
structure Ordered (ps : List PushCall) (g : Traced) : Prop where
  turn : InTurn PushCall.ofHadoop g.takenCalls (g.held ROOT) (g.waiting ROOT) ps
  waiting : ∀ p ∈ g.waiting ROOT, checkRealQueue p.token = true
  held : ∀ p ∈ g.held ROOT, checkRealQueue p.token = true

/-- What holds of a pipeline that is only given pushes for the root with the tokens of real queues,
where `tokens` are those that it has given out. -/
structure RootOnly (ps : List PushCall) (tokens : List ℤ) (g : Traced) : Prop where
  recorded : Recorded Set.univ g
  users : ∀ u, u ≠ ROOT → g.pipe.listMap u = none
  ordered : g.Ordered ps
  out : g.takenCalls.map PushCall.token = tokens ++ g.pipe.buffer

end Traced

section Steps

variable {g g' : Traced} {ps : List PushCall} {tokens : List ℤ} {p : PushCall}

theorem addOperation_listMap (s : Pipeline) (t : Simulator.Task) {u : ℕ} (hu : u ≠ t.root) :
    (s.addOperation t).listMap u = s.listMap u := by
  rw [Pipeline.addOperation, Pipeline.getListId]
  split
  · rfl
  · exact if_neg hu

theorem addPush_other (s : Pipeline) (rank token : ℤ) {u : ℕ} (hu : u ≠ ROOT) :
    (s.addPush ROOT rank token).listMap u = s.listMap u ∧
      (s.addPush ROOT rank token).buffer = s.buffer := by
  rw [Pipeline.addPush, if_pos rfl]
  exact ⟨addOperation_listMap { s with rootNum := s.rootNum + 1 } _ hu,
    (addOperation_same { s with rootNum := s.rootNum + 1 } _).2.2.2.2.2⟩

theorem startPop_other (s : Pipeline) {u : ℕ} (hu : u ≠ ROOT) :
    s.startPop.listMap u = s.listMap u ∧ s.startPop.buffer = s.buffer := by
  rw [Pipeline.startPop, Pipeline.addPop]
  split
  · rw [if_pos rfl]
    exact ⟨addOperation_listMap _ _ hu, (addOperation_same _ _).2.2.2.2.2⟩
  · exact ⟨rfl, rfl⟩

theorem advance_other (s : Pipeline) (locked : ℕ → Bool) :
    (s.advance locked).listMap = s.listMap ∧ (s.advance locked).buffer = s.buffer := by
  rw [Pipeline.advance]
  dsimp only
  exact ⟨rfl, rfl⟩

/-- The order is about the history only. -/
theorem Traced.Ordered.withPipe (h : g.Ordered ps) (s : Pipeline) :
    ({ g with pipe := s } : Traced).Ordered ps := ⟨h.turn, h.waiting, h.held⟩

/-- **`AddPush`.** -/
theorem Traced.RootOnly.addPush (h : g.RootOnly ps tokens) (hp : p.user = ROOT)
    (hreal : checkRealQueue p.token = true) :
    (g.addPush p).RootOnly (ps ++ [p].filter PushCall.ofHadoop) tokens := by
  have hwait : (g.addPush p).waiting ROOT = g.waiting ROOT ++ [p] := by
    rw [Traced.addPush, hp]
    dsimp only
    rw [if_pos rfl]
  refine ⟨h.recorded.addPush (Set.mem_univ _), fun u hu => ?_, ⟨?_, ?_, h.ordered.held⟩, ?_⟩
  · rw [Traced.addPush, hp]
    exact (addPush_other _ _ _ hu).1.trans (h.users u hu)
  · rw [hwait]
    exact h.ordered.turn.arrive p
  · intro q hq
    rw [hwait] at hq
    rcases List.mem_append.mp hq with hq | hq
    · exact h.ordered.waiting q hq
    · rw [List.mem_singleton.mp hq]
      exact hreal
  · rw [Traced.addPush, hp]
    rw [(addPush_other g.pipe p.rank p.token (Nat.succ_ne_self ROOT)).2]
    exact h.out

/-- **`GetToken`.** -/
theorem Traced.RootOnly.getToken (h : g.RootOnly ps tokens) {token : ℤ} {s : Pipeline}
    (htoken : g.pipe.getToken = some (token, s)) (hne : token ≠ -1) :
    ({ g with pipe := s } : Traced).RootOnly ps (tokens ++ [token]) := by
  rw [Pipeline.getToken] at htoken
  split at htoken
  · rw [Option.some.injEq, Prod.mk.injEq] at htoken
    exact absurd htoken.1.symm hne
  · cases hbuffer : g.pipe.buffer with
    | nil =>
      rw [hbuffer] at htoken
      exact absurd htoken (by simp)
    | cons tok rest =>
      rw [hbuffer, Option.some.injEq, Prod.mk.injEq] at htoken
      obtain ⟨rfl, rfl⟩ := htoken
      refine ⟨h.recorded.congr rfl rfl rfl, h.users, h.ordered.withPipe _, ?_⟩
      have hout := h.out
      rw [hbuffer] at hout
      rw [List.append_assoc]
      exact hout

/-- An operation is sent: the first call that waits for the root goes into its tree. -/
theorem Traced.Ordered.sendOp (h : g.Ordered ps) (x : ℕ × Simulator.Task) :
    (g.sendOp x).Ordered ps ∧ (g.sendOp x).log = g.log := by
  rw [Traced.sendOp]
  split
  · cases hw : g.waiting x.2.root with
    | nil =>
      rw [Traced.sendFirst, hw]
      exact ⟨h, rfl⟩
    | cons p rest =>
      rw [Traced.sendFirst, hw]
      refine ⟨?_, rfl⟩
      by_cases hroot : ROOT = x.2.root
      · rw [← hroot] at hw ⊢
        have hturn := h.turn
        have hwaiting := h.waiting
        rw [hw] at hturn hwaiting
        refine ⟨?_, fun q hq => ?_, fun q hq => ?_⟩
        · dsimp only
          rw [if_pos rfl, if_pos rfl]
          exact hturn.enter
        · dsimp only at hq
          rw [if_pos rfl] at hq
          exact hwaiting q (List.mem_cons_of_mem _ hq)
        · dsimp only at hq
          rw [if_pos rfl] at hq
          rcases List.mem_cons.mp hq with rfl | hq
          · exact hwaiting q List.mem_cons_self
          · exact h.held q hq
      · refine ⟨?_, fun q hq => ?_, fun q hq => ?_⟩
        · dsimp only
          rw [if_neg hroot, if_neg hroot]
          exact h.turn
        · dsimp only at hq
          rw [if_neg hroot] at hq
          exact h.waiting q hq
        · dsimp only at hq
          rw [if_neg hroot] at hq
          exact h.held q hq
  · exact ⟨h, rfl⟩

theorem Traced.Ordered.foldl_sendOp (sent : List (ℕ × Simulator.Task)) : ∀ {g : Traced},
    g.Ordered ps → (sent.foldl Traced.sendOp g).Ordered ps := by
  induction sent with
  | nil => exact fun h => h
  | cons x sent ih =>
    intro g h
    exact ih (h.sendOp x).1

/-- **Pass down and send.** -/
theorem Traced.RootOnly.advance (h : g.RootOnly ps tokens) (locked : ℕ → Bool) :
    (g.advance locked).RootOnly ps tokens := by
  have hpipe : (g.advance locked).pipe = g.pipe.advance locked := foldl_sendOp_pipe _ _
  have hcalls : (g.advance locked).takenCalls = g.takenCalls :=
    congrArg (List.filterMap Popped.taken) (foldl_sendOp_log _ _)
  obtain ⟨hmap, hbuffer⟩ := advance_other g.pipe locked
  rw [← hpipe] at hmap hbuffer
  have hordered : (g.advance locked).Ordered ps := by
    rw [Traced.advance]
    exact (h.ordered.withPipe _).foldl_sendOp _
  refine ⟨h.recorded.advance locked, fun u hu => ?_, hordered, ?_⟩
  · exact (congrFun hmap u).trans (h.users u hu)
  · rw [hcalls, hbuffer]
    exact h.out

/-- **The statistics** for one RPU: a pop takes from the tree of the root, in order. -/
theorem Traced.RootOnly.execAt (h : g.RootOnly ps tokens)
    (hsorted : ps.Pairwise fun x y => place x.rank < place y.rank) {i : ℕ} (hi : i < N)
    (hinv : PipeInv i g.pipe) (hexec : g.execAt i = some g') :
    g'.RootOnly ps tokens ∧ PipeInv (i + 1) g'.pipe := by
  have hrecorded := h.recorded.execAt hexec
  have hpipe : g.pipe.execAt i = some g'.pipe := by
    rw [← Traced.execAt_pipe, hexec, Option.map_some]
  by_cases hready : (g.pipe.rpu i).Ready N
  · obtain ⟨-, s, hs, hinv', -⟩ := hinv.exec hi hready
    rw [hpipe, Option.some.injEq] at hs
    subst hs
    refine ⟨?_, hinv'⟩
    -- nobody else has a list, so the pop is one of the root
    have hroot : (g.pipe.rpu i).root = ROOT := by
      by_contra hne
      have hknown := (hinv.wired.readyKnown i hi hready).1
      rw [h.users _ hne] at hknown
      exact absurd hknown (by simp)
    rw [Traced.execAt, Pipeline.execAt, if_pos hready, hroot] at hexec
    obtain ⟨s, hs, rfl⟩ := Option.map_eq_some_iff.mp hexec
    obtain ⟨e, hmax, rfl⟩ := Option.map_eq_some_iff.mp hs
    obtain ⟨y, htaken, hy, hye, hgreatest⟩ := Matches.taken h.recorded.truthful hmax
    have hreal : checkRealQueue e.second = true := by
      rw [← hye]
      exact h.ordered.held y hy
    rw [if_pos hready] at hrecorded ⊢
    rw [if_pos hreal] at hrecorded ⊢
    have hcalls : (g.pop ROOT ((g.pipe.popTree ROOT e).pushBuffer e.second)).takenCalls =
        g.takenCalls ++ [y] := by
      rw [Traced.takenCalls, Traced.pop, List.filterMap_append, Traced.takenCalls]
      exact congrArg (_ ++ ·) (List.filterMap_cons_some htaken)
    have hleast : ∀ x ∈ g.held ROOT, place y.rank ≤ place x.rank := by
      intro x hx
      have hkey : x.element.first ≤ y.element.first := by
        rcases Pair.le_iff.mp (hgreatest x hx) with hlt | ⟨heq, -⟩
        · exact hlt.le
        · exact heq.le
      have hx' : x.element.first = treeKey x.rank := rfl
      have hy' : y.element.first = treeKey y.rank := rfl
      rw [hx', hy', treeKey_eq, treeKey_eq] at hkey
      omega
    have hheld : (g.pop ROOT ((g.pipe.popTree ROOT e).pushBuffer e.second)).held ROOT =
        (g.held ROOT).eraseP fun p => decide (some p.element = (g.pipe.tree ROOT).max?) := by
      rw [Traced.pop]
      dsimp only
      rw [if_pos rfl]
    refine ⟨hrecorded, h.users, ⟨?_, h.ordered.waiting, fun q hq => ?_⟩, ?_⟩
    · rw [hcalls, hheld]
      exact h.ordered.turn.take hsorted (perm_cons_eraseP htaken) hleast
    · rw [hheld] at hq
      exact h.ordered.held q (List.mem_of_mem_eraseP hq)
    · have hytoken : y.token = e.second := congrArg Pair.second hye
      rw [hcalls, List.map_append, h.out, List.map_singleton, hytoken, List.append_assoc]
      rfl
  · obtain ⟨hskip, hinv', -⟩ := hinv.skip hready
    have hsame : g' = g := by
      rw [Traced.execAt, hskip, Option.map_some, if_neg hready, Option.some.injEq] at hexec
      exact hexec.symm
    rw [hsame]
    exact ⟨h, hinv'⟩

/-- **`WakeUp`.** -/
theorem Traced.RootOnly.wakeUp (h : g.RootOnly ps tokens)
    (hsorted : ps.Pairwise fun x y => place x.rank < place y.rank) (hinv : PipeInv 0 g.pipe)
    {locked : ℕ → Bool} {s : Pipeline} (hwake : g.pipe.wakeUp locked = some s) :
    ∃ g' : Traced, g'.pipe = s ∧ g'.RootOnly ps tokens := by
  have hstep : (g.step (.wakeUp locked)).map pipe = some s := (g.step_pipe _).trans hwake
  obtain ⟨g', hg', hpipe⟩ := Option.map_eq_some_iff.mp hstep
  refine ⟨g', hpipe, ?_⟩
  obtain ⟨g₁, hrun, rfl⟩ := Option.map_eq_some_iff.mp hg'
  have hstart : ({ g with pipe := g.pipe.startPop } : Traced).RootOnly ps tokens :=
    ⟨h.recorded.startPop, fun u hu => (startPop_other _ hu).1.trans (h.users u hu),
      h.ordered.withPipe _,
      h.out.trans (congrArg _ (startPop_other g.pipe (Nat.succ_ne_self ROOT)).2.symm)⟩
  have hexec := Runs.foldlM_range_keeps
    (P := fun i g => Traced.RootOnly ps tokens g ∧ PipeInv i g.pipe) (n := N)
    ⟨hstart, hinv.startPop.1⟩ (fun i hi g g' hg hstep => hg.1.execAt hsorted hi hg.2 hstep) hrun
  exact hexec.1.advance locked

end Steps

/-! ## The clock -/

/-- How many Hadoop packets there can be before the clock comes to the end of its window. -/
def clockRoom : ℕ := 4022403072

/-- The pushes of the Hadoop packets that were taken: they have the tokens of their tenants, and
their ranks are the times that follow the start of the clock. -/
structure Stamped (accepted : List Item) (ps : List PushCall) : Prop where
  tokens : ps.map PushCall.token =
    (accepted.filter ofHadoop).map fun x => ((100 + x.tenant : ℕ) : ℤ)
  times : ps.map PushCall.rank =
    (List.range (accepted.countP ofHadoop)).map fun i => -10 ^ 16 + ((i + 1 : ℕ) : ℤ)

section Clock

variable {accepted : List Item} {ps : List PushCall} {item : Item}

/-- The clock starts at place 272564223 of its window. -/
theorem place_clock {i : ℕ} (hi : i < clockRoom) :
    place (-10 ^ 16 + ((i + 1 : ℕ) : ℤ)) = 272564224 + i := by
  rw [clockRoom] at hi
  rw [place]
  norm_num
  omega

/-- **Up to the end of the window the places are in the order of arrival.** -/
theorem Stamped.sorted (h : Stamped accepted ps) (hroom : accepted.countP ofHadoop ≤ clockRoom) :
    ps.Pairwise fun x y => place x.rank < place y.rank := by
  have htimes : (ps.map PushCall.rank).Pairwise fun r r' => place r < place r' := by
    rw [h.times, List.pairwise_map]
    refine List.pairwise_lt_range.imp_of_mem fun {i j} hi hj hlt => ?_
    rw [List.mem_range] at hi hj
    rw [place_clock (hi.trans_le hroom), place_clock (hj.trans_le hroom)]
    omega
  exact (List.pairwise_map (R := fun r r' => place r < place r')).mp htimes

theorem Stamped.other (h : Stamped accepted ps) (hno : ofHadoop item = false) :
    Stamped (accepted ++ [item]) ps := by
  have hfilter : (accepted ++ [item]).filter ofHadoop = accepted.filter ofHadoop := by
    rw [List.filter_append, List.filter_cons_of_neg (by simp [hno]), List.filter_nil,
      List.append_nil]
  refine ⟨?_, ?_⟩
  · rw [hfilter]
    exact h.tokens
  · rw [List.countP_eq_length_filter, hfilter, ← List.countP_eq_length_filter]
    exact h.times

theorem Stamped.hadoop (h : Stamped accepted ps) (hhad : ofHadoop item = true) {p : PushCall}
    (htoken : p.token = ((100 + item.tenant : ℕ) : ℤ))
    (hrank : p.rank = -10 ^ 16 + ((accepted ++ [item]).countP ofHadoop : ℤ)) :
    Stamped (accepted ++ [item]) (ps ++ [p]) := by
  have hcount : (accepted ++ [item]).countP ofHadoop = accepted.countP ofHadoop + 1 := by
    rw [List.countP_append, List.countP_singleton, if_pos hhad]
  refine ⟨?_, ?_⟩
  · rw [List.map_append, h.tokens, List.filter_append, List.filter_cons_of_pos hhad,
      List.filter_nil, List.map_append, List.map_singleton, List.map_singleton, htoken]
  · rw [List.map_append, h.times, hcount, List.range_succ, List.map_append, List.map_singleton,
      List.map_singleton, hrank, hcount]

end Clock

/-! ## The order -/

section Order

variable {s₀ : SimplePIFO} {h h' : SimplePIFO.Record} {item : Item}

/-- There is a history of the pipeline that says in which order the tokens of the Hadoop packets
have come out, as long as the clock is in its window. -/
def SimplePIFO.Record.InClock (s₀ : SimplePIFO) (h : Record) : Prop :=
  h.accepted.countP ofHadoop ≤ clockRoom → ∃ (g : Traced) (ps : List PushCall),
    g.pipe = h.state.disc.pipe ∧ Stamped h.accepted ps ∧
      g.RootOnly ps (h.returned.filterMap (keyOf s₀.flowMap))

/-- The token of a packet, and whether it is that of a Hadoop tenant. -/
theorem Item.Ok.token {flowMap : FlowMap} (hok : item.Ok flowMap) (hne : item.tenant ≠ BYPATH) :
    (ofHadoop item = true → realToken item.tenant ((flowMap item.label).getD 0) =
      ((100 + item.tenant : ℕ) : ℤ)) ∧
    (decide (realToken item.tenant ((flowMap item.label).getD 0) < 1000) = ofHadoop item) := by
  obtain ⟨ht, hf, -⟩ := checkRealQueue_realToken hok hne
  rw [ofHadoop, realToken]
  cases hh : isHadoop item.tenant with
  | true =>
    rw [if_pos rfl]
    exact ⟨fun _ => rfl, decide_eq_true (by omega)⟩
  | false =>
    rw [if_neg (by simp)]
    exact ⟨fun hhad => absurd hhad (by simp), decide_eq_false (not_lt.mpr (hf hh))⟩

/-- Every request keeps it. -/
theorem SimplePIFO.Record.InClock.moved (hclock : h.InClock s₀) (hinv : h.Inv s₀)
    (hinv' : h'.Inv s₀) (hstart : s₀.time = -10 ^ 16) (hmoved : h.Moved s₀ h') :
    h'.InClock s₀ := by
  have hmono (l : List Item) (hl : h'.accepted = h.accepted ++ l)
      (hroom : h'.accepted.countP ofHadoop ≤ clockRoom) :
      h.accepted.countP ofHadoop ≤ clockRoom := by
    rw [hl, List.countP_append] at hroom
    omega
  intro hroom
  cases hmoved with
  | bypath item hby hpipe haccepted hreturned =>
    obtain ⟨g, ps, hg, hps, honly⟩ := hclock (hmono _ haccepted hroom)
    rw [haccepted, hreturned, hpipe]
    exact ⟨g, ps, hg, hps.other (not_ofHadoop_bypath hby), honly⟩
  | same hpipe haccepted hreturned =>
    rw [haccepted] at hroom
    rw [haccepted, hreturned, hpipe]
    exact hclock hroom
  | taken item rank hok hne hrank hpipe haccepted hreturned =>
    obtain ⟨g, ps, hg, hps, honly⟩ := hclock (hmono _ haccepted hroom)
    obtain ⟨htoken, hclass⟩ := hok.token hne
    obtain ⟨-, -, hreal⟩ := checkRealQueue_realToken hok hne
    rw [haccepted, hreturned, hpipe]
    obtain ⟨p, hp⟩ : ∃ p : PushCall, p = ⟨ROOT, rank,
        realToken item.tenant ((s₀.flowMap item.label).getD 0)⟩ := ⟨_, rfl⟩
    have honly' := honly.addPush (p := p) (by rw [hp]) (by rw [hp]; exact hreal)
    have hg' : (g.addPush p).pipe = h.state.disc.pipe.addPush ROOT rank
        (realToken item.tenant ((s₀.flowMap item.label).getD 0)) := by
      rw [hp, ← hg]
      rfl
    refine ⟨g.addPush p, _, hg', ?_, honly'⟩
    have hclass' : p.ofHadoop = ofHadoop item := by
      rw [PushCall.ofHadoop, hp]
      exact hclass
    cases hhad : ofHadoop item with
    | true =>
      rw [List.filter_cons_of_pos (hclass'.trans hhad), List.filter_nil]
      refine hps.hadoop hhad (by rw [hp]; exact htoken hhad) ?_
      rw [hp, hrank hhad, hinv'.paid.time, haccepted, hstart]
    | false =>
      rw [List.filter_cons_of_neg (by rw [hclass', hhad]; simp), List.filter_nil, List.append_nil]
      exact hps.other hhad
  | bypathOut item hby hpipe haccepted hreturned =>
    rw [haccepted] at hroom
    obtain ⟨g, ps, hg, hps, honly⟩ := hclock hroom
    have hkey : keyOf s₀.flowMap item = none := if_pos hby
    have hkeys : (h.returned ++ [item]).filterMap (keyOf s₀.flowMap) =
        h.returned.filterMap (keyOf s₀.flowMap) := by
      rw [List.filterMap_append, List.filterMap_cons_none hkey]
      exact List.append_nil _
    rw [haccepted, hreturned, hpipe, hkeys]
    exact ⟨g, ps, hg, hps, honly⟩
  | returned item token htoken hkey hne haccepted hreturned =>
    rw [haccepted] at hroom
    obtain ⟨g, ps, hg, hps, honly⟩ := hclock hroom
    rw [← hg] at htoken
    have hkeys : (h.returned ++ [item]).filterMap (keyOf s₀.flowMap) =
        h.returned.filterMap (keyOf s₀.flowMap) ++ [token] := by
      rw [List.filterMap_append, List.filterMap_cons_some hkey]
      rfl
    rw [haccepted, hreturned, hkeys]
    exact ⟨_, ps, rfl, hps, honly.getToken htoken hne⟩
  | cycle locked hwake haccepted hreturned =>
    rw [haccepted] at hroom
    obtain ⟨g, ps, hg, hps, honly⟩ := hclock hroom
    have hpipe : PipeInv 0 g.pipe := by
      rw [hg]
      exact hinv.disc.pipe
    rw [← hg] at hwake
    obtain ⟨g', hg', honly'⟩ := honly.wakeUp (hps.sorted hroom) hpipe hwake
    rw [haccepted, hreturned]
    exact ⟨g', ps, hg', hps, honly'⟩

/-- The tokens of Hadoop tenants among the tokens of some packets. -/
theorem filter_keys {flowMap : FlowMap} (l : List Item) (hl : ∀ x ∈ l, x.Ok flowMap) :
    (l.filterMap (keyOf flowMap)).filter (fun k => decide (k < 1000)) =
      (l.filter ofHadoop).map fun x => ((100 + x.tenant : ℕ) : ℤ) := by
  induction l with
  | nil => rfl
  | cons x l ih =>
    have ih := ih fun y hy => hl y (List.mem_cons_of_mem _ hy)
    by_cases hby : x.tenant = BYPATH
    · have hkey : keyOf flowMap x = none := if_pos hby
      rw [List.filterMap_cons_none hkey,
        List.filter_cons_of_neg (by simp [not_ofHadoop_bypath hby])]
      exact ih
    · obtain ⟨htoken, hclass⟩ := (hl x List.mem_cons_self).token hby
      have hkey : keyOf flowMap x = some (realToken x.tenant ((flowMap x.label).getD 0)) :=
        if_neg hby
      rw [List.filterMap_cons_some hkey]
      cases hhad : ofHadoop x with
      | true =>
        rw [List.filter_cons_of_pos (p := fun k => decide (k < 1000)) (hclass.trans hhad),
          List.filter_cons_of_pos hhad, List.map_cons, ih, htoken hhad]
      | false =>
        rw [List.filter_cons_of_neg (p := fun k => decide (k < 1000))
          (by rw [hclass, hhad]; simp), List.filter_cons_of_neg (by simp [hhad])]
        exact ih

/-- What was returned was taken. -/
theorem DiscInv.mem_of_returned {flowMap : FlowMap} {h : History} (hinv : DiscInv flowMap h)
    (hmem : item ∈ h.returned) : item ∈ h.accepted := by
  have hfifo : item ∈ h.accepted.filter fun x => decide (keyOf flowMap x = keyOf flowMap item) := by
    rw [← hinv.fifo]
    exact List.mem_append_left _ (List.mem_filter.mpr ⟨hmem, decide_eq_true rfl⟩)
  exact List.mem_of_mem_filter hfifo

/-- The tokens of the Hadoop packets say in which order their queues were asked, and the queues keep
their own packets in order. -/
theorem SimplePIFO.Record.InClock.inOrder (hclock : h.InClock s₀) (hinv : h.Inv s₀)
    (hroom : h.accepted.countP ofHadoop ≤ clockRoom) :
    h.returned.filter ofHadoop <+: h.accepted.filter ofHadoop := by
  obtain ⟨g, ps, -, hps, honly⟩ := hclock hroom
  have hreturned : ∀ x ∈ h.returned, x.Ok s₀.flowMap := fun x hx =>
    hinv.known x (hinv.disc.mem_of_returned hx)
  refine isPrefix_of_names (fun x => ((100 + x.tenant : ℕ) : ℤ)) ?_ fun n => ?_
  · -- the tokens that have been given out are the first ones of those that were taken
    have htaken : (g.takenCalls.filter PushCall.ofHadoop).map PushCall.token =
        (g.takenCalls.map PushCall.token).filter fun k => decide (k < 1000) := by
      rw [List.filter_map]
      rfl
    have hprefix := honly.ordered.turn.isPrefix.map PushCall.token
    rw [htaken, honly.out, List.filter_append, filter_keys _ hreturned, hps.tokens] at hprefix
    exact (List.prefix_append _ _).trans hprefix
  · rw [List.filter_filter, List.filter_filter]
    refine hinv.disc.returned_isPrefix (q := some n) fun x hx => ?_
    rw [Bool.and_eq_true, decide_eq_true_eq] at hx
    obtain ⟨hname, hhad⟩ := hx
    have hne : x.tenant ≠ BYPATH := by
      intro hby
      rw [not_ofHadoop_bypath hby] at hhad
      exact absurd hhad (by simp)
    have hhad' : isHadoop x.tenant = true := hhad
    rw [keyOf, if_neg hne, realToken, if_pos hhad', hname]

end Order

/-- **Hadoop packets leave in the order of their arrival.**  After `InitializeParams` on a file of
Web-Search flows, in whatever order packets arrive that it is made for (`Request.Known`), packets
are asked for and cycles pass, and whatever the starvation logic locks, every node that is used is
there, no tree, buffer or queue of packets is empty where its top or front is used, and as long as
no more than 4022403072 Hadoop packets have been taken, the Hadoop packets that were returned are
the first ones of all that were taken, whichever tenants they are of and whatever Web-Search packets
there are in between. -/
theorem simplePIFO_hadoop_in_order (id : ℕ) (lines : List FlowLine) (hlines : WebSearch lines) :
    ∃ s₀, SimplePIFO.initializeParams id lines = some s₀ ∧
      ∀ rs : List Request, (∀ r ∈ rs, r.Known s₀.flowMap) →
        ∃ h, SimplePIFO.run s₀ rs = some h ∧
          (h.accepted.countP ofHadoop ≤ clockRoom →
            h.returned.filter ofHadoop <+: h.accepted.filter ofHadoop) := by
  obtain ⟨s₀, hinit, hstart, hflows, hdisc, hinv⟩ := SimplePIFO.initializeParams_inv id hlines
  refine ⟨s₀, hinit, fun rs hrs => ?_⟩
  have hclock : SimplePIFO.Record.InClock s₀ ⟨s₀, [], []⟩ := by
    intro _
    refine ⟨Traced.init, [], ?_, ⟨rfl, rfl⟩, recorded_init _, fun _ _ => rfl,
      ⟨InTurn.nil _, fun p hp => absurd hp List.not_mem_nil,
        fun p hp => absurd hp List.not_mem_nil⟩, rfl⟩
    dsimp only
    rw [hdisc]
    rfl
  obtain ⟨h, hrun, hinv', hclock'⟩ := hinv.run hflows
    (P := SimplePIFO.Record.InClock s₀)
    (fun h h' hi hi' hmoved hc => hc.moved hi hi' hstart hmoved) hrs hclock
  exact ⟨h, hrun, hclock'.inOrder hinv'⟩

/-- The Hadoop packets of two tenants are returned as they came, before the Web-Search packet that
came between them. -/
theorem simplePIFO_hadoop_in_order_mixed : ∃ s₀,
    SimplePIFO.initializeParams 144 twoFlows = some s₀ ∧
    ∃ h, SimplePIFO.run s₀ (mixedRequests 14) = some h ∧
      h.accepted.map Item.id = [0, 1, 2, 3, 4] ∧ h.returned.map Item.id = [0, 2, 4, 1] ∧
      (h.accepted.countP ofHadoop ≤ clockRoom →
        h.returned.filter ofHadoop <+: h.accepted.filter ofHadoop) := by
  obtain ⟨s₀, hinit, hknown, h, hrun, haccepted, hreturned⟩ := run_mixedRequests
  obtain ⟨s₁, hinit₁, hruns⟩ := simplePIFO_hadoop_in_order 144 twoFlows webSearch_twoFlows
  obtain rfl := Option.some.inj (hinit.symm.trans hinit₁)
  obtain ⟨h₁, hrun₁, hprefix⟩ := hruns (mixedRequests 14) hknown
  obtain rfl := Option.some.inj (hrun.symm.trans hrun₁)
  exact ⟨s₀, hinit, h, hrun, haccepted, hreturned, hprefix⟩

end Ns3

end VPifo
