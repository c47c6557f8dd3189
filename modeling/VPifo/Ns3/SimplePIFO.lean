import VPifo.Ns3.NodeAccount

/-!
# `SimplePIFO`

`SimplePIFO` has one tree only: a packet is ranked once, by the size that its flow has left, or by
the time of its arrival if it is one of a Hadoop tenant.  Its queues and its tokens are those of
`vPIFO`, and `DiscInv` holds of them whatever has been pushed for a packet, as long as it leads
from the root to the queue of the packet (`DiscInv.accept`).

`simplePIFO_account` is the account of a run: nothing is used that is not there, the queues keep
their packets in order, the clock has counted the Hadoop packets, and the size of a flow has gone
down with its packets.
-/

namespace VPifo

namespace Ns3

open Reference Simulator TokenNet

/-! ## Any pushes that lead to the queue -/

section Accept

variable {flowMap : FlowMap} {d : Disc} {accepted returned : List Item} {item : Item}

/-- Of the pipeline the invariant only knows its tokens. -/
theorem DiscInv.congrPipe (hinv : DiscInv flowMap ⟨d, accepted, returned⟩) {p : Pipeline}
    (hpipe : PipeInv 0 p) (htok : tokensOf 0 p = tokensOf 0 d.pipe) :
    DiscInv flowMap ⟨{ d with pipe := p }, accepted, returned⟩ := by
  refine ⟨hpipe, fun k => ?_, hinv.real, hinv.keys, hinv.size, fun q => ?_⟩
  · show (tokensOf 0 p).count k = (d.queueMap k).length
    rw [htok]
    exact hinv.tokens k
  · have hfifo := hinv.fifo q
    cases q <;> exact hfifo

/-- **A packet is taken**, with any pushes that lead from the root to its queue. -/
theorem DiscInv.accept (hinv : DiscInv flowMap ⟨d, accepted, returned⟩) (hok : item.Ok flowMap)
    (hne : item.tenant ≠ BYPATH) (hsize : d.rootSize < SIZE) {ps : List PushCall}
    (hchain : Chain (realToken item.tenant ((flowMap item.label).getD 0)) ROOT ps) :
    DiscInv flowMap ⟨Disc.pushQueue { d with
        rootSize := d.rootSize + 1
        pipe := d.pipe.addPushes ps }
      (realToken item.tenant ((flowMap item.label).getD 0)) item,
      accepted ++ [item], returned⟩ := by
  obtain ⟨ht, hf, -⟩ := checkRealQueue_realToken hok hne
  -- the pushes of `vPIFO` lead there as well
  obtain ⟨-, htok⟩ := hinv.pipe.arrive (chain_vPIFO ht hf 0 0 0 0)
  obtain ⟨hpipe', htok'⟩ := hinv.pipe.arrive hchain
  obtain ⟨h', hstep, hinv', -, -⟩ := hinv.enqueue hok 0 0 0 0
  rw [History.step, doEnqueue_eq hne hsize, Option.some.injEq] at hstep
  rw [← hstep] at hinv'
  exact hinv'.congrPipe hpipe' (htok'.trans htok.symm)

end Accept

/-! ## Runs -/

namespace SimplePIFO

/-- A `SimplePIFO`, with the packets that it has taken and the ones that it has returned. -/
structure Record where
  state : SimplePIFO
  accepted : List Item
  returned : List Item

/-- One request. -/
def Record.step (h : Record) : Request → Option Record
  | .enqueue item => (doEnqueue item h.state).map fun r =>
    ⟨r.2, if r.1 then h.accepted ++ [item] else h.accepted, h.returned⟩
  | .dequeue => (doDequeue h.state).map fun r => ⟨r.2, h.accepted, h.returned ++ r.1.toList⟩
  | .wakeUp locked => (h.state.disc.pipe.wakeUp locked).map fun p =>
    ⟨{ h.state with disc := { h.state.disc with pipe := p } }, h.accepted, h.returned⟩

/-- The requests `rs`, from the state after `InitializeParams`. -/
def run (s : SimplePIFO) (rs : List Request) : Option Record :=
  rs.foldlM Record.step ⟨s, [], []⟩

end SimplePIFO

/-- The packets of the Hadoop tenants. -/
def ofHadoop (x : Item) : Bool := isHadoop x.tenant

/-- What the clock and the nodes of `SimplePIFO` know of the packets that were taken and
returned. -/
structure SimplePIFO.Paid (s₀ s : SimplePIFO) (accepted returned : List Item) : Prop where
  flowMap : s.flowMap = s₀.flowMap
  time : s.time = s₀.time + accepted.countP ofHadoop
  flow : ∀ t < 100, isHadoop t = false → s.schTree t = some (.pFabric fun f =>
    s₀.flowSize t f - (returned.countP (ofFlow s₀.flowMap t f) : ℤ))

section Nodes

variable {s₀ s : SimplePIFO} {accepted returned : List Item} {item : Item}

theorem not_ofHadoop_bypath (hby : item.tenant = BYPATH) : ofHadoop item = false := by
  rw [ofHadoop, hby]
  rfl

/-- What `DoEnqueue` does with a packet for which there is room: `rank` is the rank it gives. -/
structure SimplePIFO.Enqueued (s s' : SimplePIFO) (item : Item) (rank : ℤ) : Prop where
  result : doEnqueue item s = some (true, s')
  disc : s'.disc = Disc.pushQueue { s.disc with
      rootSize := s.disc.rootSize + 1
      pipe := s.disc.pipe.addPushes
        (simplePIFOPushes item.tenant ((s.flowMap item.label).getD 0) rank) }
    (realToken item.tenant ((s.flowMap item.label).getD 0)) item
  flowMap : s'.flowMap = s.flowMap
  schTree : s'.schTree = s.schTree
  time : s'.time = s.time + [item].countP ofHadoop
  hadoop : ofHadoop item = true → rank = s'.time

theorem SimplePIFO.Paid.doEnqueue (h : s₀.Paid s accepted returned) (ht : item.tenant < 100)
    (hsize : s.disc.rootSize < SIZE) : ∃ s' rank, s.Enqueued s' item rank := by
  have hne := ne_BYPATH_of_lt ht
  cases hh : isHadoop item.tenant with
  | true =>
    have htoken : ((item.tenant : ℤ) + 100) = realToken item.tenant
        ((s.flowMap item.label).getD 0) := by
      rw [realToken, hh, if_pos rfl, add_comm]
      rfl
    have hcount : [item].countP ofHadoop = 1 := by
      rw [List.countP_singleton, ofHadoop, hh, if_pos rfl]
    refine ⟨⟨(s.grow.addPush ROOT (s.time + 1) (item.tenant + 100)).pushQueue (item.tenant + 100)
      item, s.time + 1⟩, s.time + 1, ?_, ?_, rfl, rfl, ?_, fun _ => rfl⟩
    · rw [SimplePIFO.doEnqueue, if_neg hne, if_neg (not_le.mpr hsize), hh, if_pos rfl]
    · rw [simplePIFOPushes, hh, if_pos rfl, ← htoken]
      rfl
    · rw [hcount]
      rfl
  | false =>
    have hnode := h.flow _ ht hh
    have htoken : (s.flowMap item.label).getD 0 = realToken item.tenant
        ((s.flowMap item.label).getD 0) := by
      rw [realToken, hh, if_neg (by simp)]
    have hcount : [item].countP ofHadoop = 0 := by
      rw [List.countP_singleton, ofHadoop, hh, if_neg (by simp)]
    obtain ⟨rank, hrank⟩ : ∃ rank, s.grow.rank item.tenant ((s.flowMap item.label).getD 0) 0 =
        some (rank, s.grow) := ⟨_, rank_pFabric (s := s.grow) hnode _ _⟩
    refine ⟨⟨(s.grow.addPush ROOT rank ((s.flowMap item.label).getD 0)).pushQueue
      ((s.flowMap item.label).getD 0) item, s.time⟩, rank, ?_, ?_, rfl, rfl, ?_, fun hhad => ?_⟩
    · rw [SimplePIFO.doEnqueue, if_neg hne, if_neg (not_le.mpr hsize), hh, if_neg (by simp)]
      dsimp only
      rw [hrank]
      rfl
    · rw [simplePIFOPushes, hh, if_neg (by simp), ← htoken]
      rfl
    · rw [hcount]
      exact (add_zero _).symm
    · rw [ofHadoop, hh] at hhad
      exact absurd hhad (by simp)

/-- A packet is taken. -/
theorem SimplePIFO.Paid.accept (h : s₀.Paid s accepted returned) {s' : SimplePIFO}
    (hmap : s'.flowMap = s.flowMap) (htree : s'.schTree = s.schTree)
    (htime : s'.time = s.time + [item].countP ofHadoop) :
    s₀.Paid s' (accepted ++ [item]) returned := by
  refine ⟨hmap.trans h.flowMap, ?_, fun t ht hweb => ?_⟩
  · rw [htime, h.time, List.countP_append, Nat.cast_add, add_assoc]
  · rw [htree]
    exact h.flow t ht hweb

/-- A packet that bypasses the scheduler is returned. -/
theorem SimplePIFO.Paid.bypath (h : s₀.Paid s accepted returned) (hby : item.tenant = BYPATH) :
    s₀.Paid s accepted (returned ++ [item]) := by
  refine ⟨h.flowMap, h.time, fun t ht hweb => ?_⟩
  rw [h.flow t ht hweb, flows_other _ (ne_of_bypath hby ht)]

/-- **The node of the tenant is told that a packet has left.** -/
theorem SimplePIFO.Paid.pay (h : s₀.Paid s accepted returned) (ht : item.tenant < 100) {token : ℤ}
    (htoken : isHadoop item.tenant = false → token = (s₀.flowMap item.label).getD 0) :
    ∃ s', SimplePIFO.pay item token s.toScheduled = some s' ∧ s'.disc = s.disc ∧
      s₀.Paid ⟨s', s.time⟩ accepted (returned ++ [item]) := by
  rw [SimplePIFO.pay]
  cases hh : isHadoop item.tenant with
  | true =>
    rw [if_pos rfl]
    refine ⟨_, rfl, rfl, h.flowMap, h.time, fun t ht' hweb => ?_⟩
    rw [flows_other _ (ne_of_isHadoop hh hweb)]
    exact h.flow t ht' hweb
  | false =>
    rw [if_neg (by simp), dequeueNode_eq (h.flow _ ht hh)]
    refine ⟨_, rfl, rfl, h.flowMap, h.time, fun t ht' hweb => ?_⟩
    by_cases htt : item.tenant = t
    · rw [← flows_own _ htt (htoken hh), ← htt]
      exact Function.update_self ..
    · rw [flows_other _ htt]
      exact (Function.update_of_ne (Ne.symm htt) _ _).trans (h.flow t ht' hweb)

end Nodes

/-! ## The account of a run -/

section Account

variable {s₀ : SimplePIFO} {h : SimplePIFO.Record} {item : Item}

/-- What holds after every request. -/
structure SimplePIFO.Record.Inv (s₀ : SimplePIFO) (h : Record) : Prop where
  disc : DiscInv s₀.flowMap ⟨h.state.disc, h.accepted, h.returned⟩
  known : ∀ x ∈ h.accepted, x.Ok s₀.flowMap
  paid : s₀.Paid h.state h.accepted h.returned

/-- What a request can do to a `SimplePIFO`: a packet bypasses it, is refused, or is taken with some
rank; a packet of the bypath is returned, there is nothing to return, or a packet is returned with
its token; a cycle passes. -/
inductive SimplePIFO.Record.Moved (s₀ : SimplePIFO) (h h' : Record) : Prop where
  | bypath (item : Item) (hby : item.tenant = BYPATH)
      (hpipe : h'.state.disc.pipe = h.state.disc.pipe)
      (haccepted : h'.accepted = h.accepted ++ [item]) (hreturned : h'.returned = h.returned)
  | same (hpipe : h'.state.disc.pipe = h.state.disc.pipe) (haccepted : h'.accepted = h.accepted)
      (hreturned : h'.returned = h.returned)
  | taken (item : Item) (rank : ℤ) (hok : item.Ok s₀.flowMap) (hne : item.tenant ≠ BYPATH)
      (hrank : ofHadoop item = true → rank = h'.state.time)
      (hpipe : h'.state.disc.pipe = h.state.disc.pipe.addPush ROOT rank
        (realToken item.tenant ((s₀.flowMap item.label).getD 0)))
      (haccepted : h'.accepted = h.accepted ++ [item]) (hreturned : h'.returned = h.returned)
  | bypathOut (item : Item) (hby : item.tenant = BYPATH)
      (hpipe : h'.state.disc.pipe = h.state.disc.pipe) (haccepted : h'.accepted = h.accepted)
      (hreturned : h'.returned = h.returned ++ [item])
  | returned (item : Item) (token : ℤ)
      (htoken : h.state.disc.pipe.getToken = some (token, h'.state.disc.pipe))
      (hkey : keyOf s₀.flowMap item = some token) (hne : token ≠ -1)
      (haccepted : h'.accepted = h.accepted) (hreturned : h'.returned = h.returned ++ [item])
  | cycle (locked : ℕ → Bool) (hwake : h.state.disc.pipe.wakeUp locked = some h'.state.disc.pipe)
      (haccepted : h'.accepted = h.accepted) (hreturned : h'.returned = h.returned)

/-- A request keeps the invariant. -/
def SimplePIFO.Record.Goes (s₀ : SimplePIFO) (h : Record) (r : Request) : Prop :=
  ∃ h', h.step r = some h' ∧ h'.Inv s₀ ∧ h.Moved s₀ h'

/-- **`DoEnqueue`.** -/
theorem SimplePIFO.Record.Inv.enqueue (hinv : h.Inv s₀) (hok : item.Ok s₀.flowMap) :
    h.Goes s₀ (.enqueue item) := by
  obtain ⟨hdisc, hknown, hpaid⟩ := hinv
  by_cases hby : item.tenant = BYPATH
  · have hdo : doEnqueue item h.state = some (true, ⟨h.state.pushBypath item, h.state.time⟩) :=
      if_pos hby
    have hdisc' : DiscInv s₀.flowMap
        ⟨(h.state.pushBypath item).disc, h.accepted ++ [item], h.returned⟩ := by
      obtain ⟨h', hstep, hinv', -, -⟩ := hdisc.enqueue hok 0 0 0 0
      have hd : h.state.disc.doEnqueue s₀.flowMap item 0 0 0 0 =
          (true, (h.state.pushBypath item).disc) := if_pos hby
      rw [History.step, hd, Option.some.injEq] at hstep
      rw [← hstep] at hinv'
      exact hinv'
    refine ⟨⟨⟨h.state.pushBypath item, h.state.time⟩, h.accepted ++ [item], h.returned⟩, ?_,
      ⟨hdisc', ok_append hknown hok, hpaid.accept rfl rfl ?_⟩, .bypath item hby rfl rfl rfl⟩
    · rw [SimplePIFO.Record.step, hdo]
      rfl
    · rw [List.countP_singleton, not_ofHadoop_bypath hby, if_neg (by simp)]
      exact (add_zero _).symm
  by_cases hsize : h.state.disc.rootSize < SIZE
  · obtain ⟨ht, hf, -⟩ := checkRealQueue_realToken hok hby
    obtain ⟨s', rank, hs'⟩ := hpaid.doEnqueue ht hsize
    have hd := hs'.disc
    rw [hpaid.flowMap] at hd
    refine ⟨⟨s', h.accepted ++ [item], h.returned⟩, ?_, ⟨?_, ok_append hknown hok,
      hpaid.accept hs'.flowMap hs'.schTree hs'.time⟩,
      .taken item rank hok hby hs'.hadoop ?_ rfl rfl⟩
    · rw [SimplePIFO.Record.step, hs'.result]
      rfl
    · rw [hd]
      exact hdisc.accept hok hby hsize (chain_simplePIFO ht hf rank)
    · rw [hd, realToken]
      have hcast : ((100 + item.tenant : ℕ) : ℤ) = item.tenant + 100 := by
        rw [Nat.cast_add, add_comm]
        rfl
      rw [hcast]
      rfl
  · have hdo : doEnqueue item h.state = some (false, h.state) := by
      rw [SimplePIFO.doEnqueue, if_neg hby, if_pos (not_lt.mp hsize)]
    refine ⟨h, ?_, ⟨hdisc, hknown, hpaid⟩, .same rfl rfl rfl⟩
    rw [SimplePIFO.Record.step, hdo]
    rfl

/-- **`DoDequeue`.** -/
theorem SimplePIFO.Record.Inv.dequeue (hinv : h.Inv s₀) : h.Goes s₀ .dequeue := by
  have hpaid := hinv.paid
  have hstep {x : Option Item} {s : Scheduled}
      (hresult : h.state.toScheduled.doDequeue pay = some (x, s)) :
      h.step .dequeue = some ⟨⟨s, h.state.time⟩, h.accepted, h.returned ++ x.toList⟩ := by
    rw [SimplePIFO.Record.step, SimplePIFO.doDequeue, hresult]
    rfl
  have hcongr (d : Disc) :
      s₀.Paid ⟨{ h.state.toScheduled with disc := d }, h.state.time⟩ h.accepted h.returned :=
    ⟨hpaid.flowMap, hpaid.time, hpaid.flow⟩
  cases DiscInv.dequeued (s := h.state.toScheduled) hinv.disc pay with
  | bypath item d hby hpipe _ hresult hinv' =>
    exact ⟨_, hstep hresult, ⟨hinv', hinv.known, (hcongr d).bypath hby⟩,
      .bypathOut item hby hpipe rfl rfl⟩
  | nothing _ hresult =>
    have hsame : h.returned ++ (none : Option Item).toList = h.returned := List.append_nil _
    refine ⟨_, hstep hresult, ?_, .same rfl rfl hsame⟩
    rw [hsame]
    exact hinv
  | packet item token d htoken _ hresult hinv' hmem hkey =>
    obtain ⟨ht, hflow⟩ := (hinv.known item hmem).of_keyOf hkey
    obtain ⟨s, hpay, hd, hs⟩ := (hcongr d).pay ht hflow
    have hpay' : pay item token { h.state.toScheduled with disc := d } = some s := hpay
    rw [hpay'] at hresult
    have hd' : s.disc = d := hd
    subst hd'
    refine ⟨_, hstep hresult, ⟨hinv', hinv.known, hs⟩, .returned item token htoken hkey ?_ rfl rfl⟩
    -- the token is the one of a real queue
    have hne := ne_BYPATH_of_keyOf hkey
    obtain ⟨-, -, hreal⟩ := checkRealQueue_realToken (hinv.known item hmem) hne
    rw [keyOf, if_neg hne, Option.some.injEq] at hkey
    rintro rfl
    rw [hkey] at hreal
    exact absurd hreal (by decide)

/-- **`WakeUp`.** -/
theorem SimplePIFO.Record.Inv.wakeUp (hinv : h.Inv s₀) (locked : ℕ → Bool) :
    h.Goes s₀ (.wakeUp locked) := by
  obtain ⟨p, hwake, hpipe, htok⟩ := hinv.disc.pipe.wakeUp locked
  have hwake' : h.state.disc.pipe.wakeUp locked = some p := hwake
  refine ⟨⟨⟨{ h.state.toScheduled with disc := { h.state.disc with pipe := p } }, h.state.time⟩,
    h.accepted, h.returned⟩, ?_, ⟨hinv.disc.congrPipe hpipe htok, hinv.known,
    ⟨hinv.paid.flowMap, hinv.paid.time, hinv.paid.flow⟩⟩, .cycle locked hwake' rfl rfl⟩
  rw [SimplePIFO.Record.step, hwake']
  rfl

theorem SimplePIFO.Record.Inv.goes (hinv : h.Inv s₀) {r : Request} (hr : r.Known s₀.flowMap)
    (hflows : ∀ label id, s₀.flowMap label = some id → 1000 ≤ id) : h.Goes s₀ r := by
  cases r with
  | enqueue item => exact hinv.enqueue (Item.Known.ok hflows hr)
  | dequeue => exact hinv.dequeue
  | wakeUp locked => exact hinv.wakeUp locked

/-- A run, with whatever else its steps keep. -/
theorem SimplePIFO.Record.Inv.run (hflows : ∀ label id, s₀.flowMap label = some id → 1000 ≤ id)
    {P : Record → Prop} (hP : ∀ h h', h.Inv s₀ → h'.Inv s₀ → h.Moved s₀ h' → P h → P h')
    {rs : List Request} (hrs : ∀ r ∈ rs, r.Known s₀.flowMap) : ∀ {h : Record}, h.Inv s₀ → P h →
      ∃ h', rs.foldlM Record.step h = some h' ∧ h'.Inv s₀ ∧ P h' := by
  induction rs with
  | nil => exact fun {h} hinv hp => ⟨h, rfl, hinv, hp⟩
  | cons r rs ih =>
    intro h hinv hp
    obtain ⟨h₁, hstep, hinv₁, hmoved⟩ := hinv.goes (hrs r List.mem_cons_self) hflows
    obtain ⟨h₂, hrun, hinv₂, hp₂⟩ := ih (fun r hr => hrs r (List.mem_cons_of_mem _ hr)) hinv₁
      (hP h h₁ hinv hinv₁ hmoved hp)
    refine ⟨h₂, ?_, hinv₂, hp₂⟩
    rw [List.foldlM_cons, hstep]
    exact hrun

end Account

/-! ## The start -/

theorem SimplePIFO.prepared_init : Prepared 0 initTree init.toScheduled := by
  refine ⟨rfl, fun _ _ h => absurd h (by simp [init]), le_rfl, fun t ht hweb => ?_,
    fun _ _ => rfl⟩
  refine schTree_flowSize (g := fun _ => 0) ?_
  show initTree (0 + t) = _
  rw [zero_add, initTree, if_pos ⟨ht, hweb⟩]

/-- `InitializeParams` succeeds on a file of Web-Search flows, and nothing has been taken. -/
theorem SimplePIFO.initializeParams_inv (id : ℕ) {lines : List FlowLine}
    (hlines : WebSearch lines) : ∃ s₀, initializeParams id lines = some s₀ ∧
      s₀.time = -10 ^ 16 ∧ (∀ label id, s₀.flowMap label = some id → 1000 ≤ id) ∧
      s₀.disc = Disc.init s₀.disc.queueKeys ∧ Record.Inv s₀ ⟨s₀, [], []⟩ := by
  obtain ⟨s, hinit, hprep⟩ : ∃ s, init.toScheduled.initializeParams 0 id lines = some s ∧
      Prepared 0 initTree s := prepared_init.initializeParams hlines
  refine ⟨⟨s, init.time⟩, ?_, rfl, hprep.flows, hprep.disc, ⟨?_, fun x hx =>
    absurd hx List.not_mem_nil, ⟨rfl, (add_zero _).symm, fun t ht hweb => ?_⟩⟩⟩
  · rw [initializeParams, hinit]
    rfl
  · dsimp only
    rw [hprep.disc]
    exact discInv_init _
  · have htenant := hprep.tenants t ht hweb
    rw [zero_add] at htenant
    simp only [List.countP_nil, Nat.cast_zero, sub_zero]
    exact htenant

/-- **The account of `SimplePIFO`.**  After `InitializeParams` on a file of Web-Search flows, in
whatever order packets arrive that it is made for (`Request.Known`), packets are asked for and
cycles pass, every node that is used is there, and no tree, buffer or queue of packets is empty
where its top or front is used; the starvation logic is a parameter.  The packets of one queue are
returned in the order in which they were taken, `root_size` is the number of packets in the queues,
the clock has gone on by the number of Hadoop packets, and the size of a flow has gone down by one
with each of its packets that was returned. -/
theorem simplePIFO_account (id : ℕ) (lines : List FlowLine) (hlines : WebSearch lines) :
    ∃ s₀, SimplePIFO.initializeParams id lines = some s₀ ∧
      ∀ rs : List Request, (∀ r ∈ rs, r.Known s₀.flowMap) →
        ∃ h, SimplePIFO.run s₀ rs = some h ∧
          (∀ q, (h.returned.filter fun x => decide (keyOf s₀.flowMap x = q)) <+:
            h.accepted.filter fun x => decide (keyOf s₀.flowMap x = q)) ∧
          h.state.disc.rootSize =
            ∑ k ∈ h.state.disc.queueKeys, ((h.state.disc.queueMap k).length : ℤ) ∧
          s₀.Paid h.state h.accepted h.returned := by
  obtain ⟨s₀, hinit, -, hflows, -, hinv⟩ := SimplePIFO.initializeParams_inv id hlines
  refine ⟨s₀, hinit, fun rs hrs => ?_⟩
  obtain ⟨h, hrun, hinv', -⟩ := hinv.run hflows (P := fun _ => True)
    (fun _ _ _ _ _ _ => trivial) hrs trivial
  refine ⟨h, hrun, fun q => ?_, hinv'.disc.size, hinv'.paid⟩
  rw [← hinv'.disc.fifo q]
  exact List.prefix_append _ _

/-- After 14 cycles the Hadoop packets have been returned, and one of tenant 0. -/
theorem run_mixedRequests : ∃ s₀, SimplePIFO.initializeParams 144 twoFlows = some s₀ ∧
    (∀ r ∈ mixedRequests 14, r.Known s₀.flowMap) ∧
    ∃ h, SimplePIFO.run s₀ (mixedRequests 14) = some h ∧
      h.accepted.map Item.id = [0, 1, 2, 3, 4] ∧ h.returned.map Item.id = [0, 2, 4, 1] := by
  have hids : ((SimplePIFO.initializeParams 144 twoFlows).bind fun s₀ =>
      (SimplePIFO.run s₀ (mixedRequests 14)).map fun h =>
        (h.accepted.map Item.id, h.returned.map Item.id)) =
          some ([0, 1, 2, 3, 4], [0, 2, 4, 1]) := by
    decide +kernel
  obtain ⟨s₀, hinit, hrest⟩ := Option.bind_eq_some_iff.mp hids
  obtain ⟨h, hrun, hpair⟩ := Option.map_eq_some_iff.mp hrest
  obtain ⟨haccepted, hreturned⟩ := Prod.mk.inj hpair
  have hflows : s₀.flowMap "a" = some 1001 ∧ s₀.flowMap "b" = some 1002 := by
    rw [← Option.some.inj hinit]
    exact ⟨rfl, rfl⟩
  exact ⟨s₀, hinit, known_mixedRequests (by rw [hflows.1]; simp) (by rw [hflows.2]; simp) 14,
    h, hrun, haccepted, hreturned⟩

theorem simplePIFO_account_twoFlows : ∃ s₀, SimplePIFO.initializeParams 144 twoFlows = some s₀ ∧
    ∃ h, SimplePIFO.run s₀ (mixedRequests 14) = some h ∧
      h.returned.map Item.id = [0, 2, 4, 1] ∧
      h.state.disc.rootSize =
        ∑ k ∈ h.state.disc.queueKeys, ((h.state.disc.queueMap k).length : ℤ) ∧
      s₀.Paid h.state h.accepted h.returned := by
  obtain ⟨s₀, hinit, hknown, h, hrun, -, hreturned⟩ := run_mixedRequests
  obtain ⟨s₁, hinit₁, hruns⟩ := simplePIFO_account 144 twoFlows webSearch_twoFlows
  obtain rfl := Option.some.inj (hinit.symm.trans hinit₁)
  obtain ⟨h₁, hrun₁, -, hsize, hpaid⟩ := hruns (mixedRequests 14) hknown
  obtain rfl := Option.some.inj (hrun.symm.trans hrun₁)
  exact ⟨s₀, hinit, h, hrun, hreturned, hsize, hpaid⟩

end Ns3

end VPifo
