import VPifo.Ns3.Prefetch

/-!
# The ns-3 queue disc

`vPIFO` keeps the packets in plain queues, one for each Hadoop tenant and one for each flow of
the others, and only their names in the pipeline: a token says from which queue the next
packet is to be taken.  `DiscInv` ties the two together.  There are as many tokens of a name
in the pipeline as packets in the queue of that name, and the packets that were returned from
a queue, with those still in it, are the ones that were taken for it, in order.

The three events have one lemma each (`DiscInv.enqueue`, `DiscInv.dequeue`, `DiscInv.wakeUp`),
which use of the pipeline only what happens to its tokens.  `disc_conserves_packets` is the
account for any sequence of events.
-/

namespace VPifo

namespace Ns3

open Reference Simulator TokenNet

/-! ## The code -/

/-- A packet, as far as the queue disc looks at it: the tenant of its tag and its flow label. -/
structure Item where
  id : ℕ
  tenant : ℕ
  label : String
  deriving DecidableEq

/-- The tenant of the packets that bypass the scheduler. -/
def BYPATH : ℕ := 10233

/-- `SIZE`, the number of packets at which the root is full. -/
def SIZE : ℤ := ((1 <<< 10) - 1) / 3

/-- `flow_map`. -/
abbrev FlowMap := String → Option ℤ

/-- The state of a `vPIFO`.  The scheduling nodes are left out: they only compute the ranks, and
a rank is an argument of `doEnqueue` here.  Of the map `queue_map` there are the keys and the
queue of each. -/
structure Disc where
  pipe : Pipeline
  queueKeys : Finset ℤ
  queueMap : ℤ → List Item
  bypathQueue : List Item
  rootSize : ℤ

namespace Disc

/-- The state after the constructor and `InitializeParams`, which makes a queue for each flow. -/
def init (flows : Finset ℤ) : Disc where
  pipe := Pipeline.init
  queueKeys := flows
  queueMap _ := []
  bypathQueue := []
  rootSize := 0

variable (flowMap : FlowMap) (s : Disc)

/-- `queue_map[key].push(item)`. -/
def pushQueue (key : ℤ) (item : Item) : Disc :=
  { s with
    queueKeys := insert key s.queueKeys
    queueMap := fun k => if k = key then s.queueMap k ++ [item] else s.queueMap k }

/-- `DoEnqueue`, where the scheduling nodes compute the ranks `rk1` to `rk4`. -/
def doEnqueue (item : Item) (rk1 rk2 rk3 rk4 : ℤ) : Bool × Disc :=
  -- packets of the TCP handshake go to the output directly
  if item.tenant = BYPATH then (true, { s with bypathQueue := s.bypathQueue ++ [item] })
  -- the root queue is full
  else if SIZE ≤ s.rootSize then (false, s)
  else
    let flowId := (flowMap item.label).getD 0
    let s := { s with
      rootSize := s.rootSize + 1
      pipe := s.pipe.addPushes (vPIFOPushes item.tenant flowId rk1 rk2 rk3 rk4) }
    -- all packets of a Hadoop tenant are in one real queue
    if isHadoop item.tenant then (true, s.pushQueue ((100 + item.tenant : ℕ) : ℤ) item)
    -- each flow of a Web-Search tenant has its own
    else (true, s.pushQueue flowId item)

/-- `DoDequeue`.  There is no result where `front` is called on an empty queue. -/
def doDequeue : Option (Option Item × Disc) :=
  match s.bypathQueue with
  | item :: rest => some (some item, { s with bypathQueue := rest })
  | [] => s.pipe.getToken.bind fun r =>
    if r.1 = -1 then some (none, { s with pipe := r.2 })
    else match s.queueMap r.1 with
      | [] => none
      | item :: rest => some (some item,
        { s with
          pipe := r.2
          rootSize := s.rootSize - 1
          queueKeys := insert r.1 s.queueKeys
          queueMap := fun k => if k = r.1 then rest else s.queueMap k })

end Disc

/-! ## Runs -/

/-- What happens to a queue disc. -/
inductive Event where
  | enqueue (item : Item) (rk1 rk2 rk3 rk4 : ℤ)
  | dequeue
  | wakeUp (locked : ℕ → Bool)

/-- A queue disc, with the packets that it has taken and the ones that it has returned. -/
structure History where
  disc : Disc
  accepted : List Item
  returned : List Item

/-- One event. -/
def History.step (flowMap : FlowMap) (h : History) : Event → Option History
  | .enqueue item rk1 rk2 rk3 rk4 =>
    let r := h.disc.doEnqueue flowMap item rk1 rk2 rk3 rk4
    some ⟨r.2, if r.1 then h.accepted ++ [item] else h.accepted, h.returned⟩
  | .dequeue => h.disc.doDequeue.map fun r => ⟨r.2, h.accepted, h.returned ++ r.1.toList⟩
  | .wakeUp locked => (h.disc.pipe.wakeUp locked).map fun p =>
    ⟨{ h.disc with pipe := p }, h.accepted, h.returned⟩

/-- The history of a queue disc. -/
def History.run (flowMap : FlowMap) (flows : Finset ℤ) (es : List Event) : Option History :=
  es.foldlM (History.step flowMap) ⟨Disc.init flows, [], []⟩

/-- The packets that the queue disc is made for: the ones that bypass it, and the ones of the
tenants 0 to 99, where the flow of a Web-Search packet is known. -/
def Item.Ok (flowMap : FlowMap) (item : Item) : Prop :=
  item.tenant = BYPATH ∨ item.tenant < 100 ∧
    (isHadoop item.tenant = false → ∃ id, flowMap item.label = some id ∧ 1000 ≤ id)

/-- The packets of an event are such packets. -/
def Event.Ok (flowMap : FlowMap) : Event → Prop
  | .enqueue item _ _ _ _ => item.Ok flowMap
  | .dequeue => True
  | .wakeUp _ => True

/-! ## The invariant -/

/-- The queue of a packet: the one of its tenant or flow, or the one of the bypath. -/
def keyOf (flowMap : FlowMap) (item : Item) : Option ℤ :=
  if item.tenant = BYPATH then none
  else some (realToken item.tenant ((flowMap item.label).getD 0))

/-- The contents of a queue. -/
def Disc.queue (s : Disc) : Option ℤ → List Item
  | none => s.bypathQueue
  | some k => s.queueMap k

/-- What holds after every event. -/
structure DiscInv (flowMap : FlowMap) (h : History) : Prop where
  pipe : PipeInv 0 h.disc.pipe
  /-- There is a token in the pipeline for every packet in the queues. -/
  tokens : ∀ k, (tokensOf 0 h.disc.pipe).count k = (h.disc.queueMap k).length
  real : ∀ k, checkRealQueue k = false → h.disc.queueMap k = []
  keys : ∀ k, k ∉ h.disc.queueKeys → h.disc.queueMap k = []
  size : h.disc.rootSize = ∑ k ∈ h.disc.queueKeys, ((h.disc.queueMap k).length : ℤ)
  fifo : ∀ q, h.returned.filter (fun x => decide (keyOf flowMap x = q)) ++ h.disc.queue q =
    h.accepted.filter fun x => decide (keyOf flowMap x = q)

section Steps

variable {flowMap : FlowMap} {h : History}

theorem discInv_init (flows : Finset ℤ) : DiscInv flowMap ⟨Disc.init flows, [], []⟩ := by
  refine ⟨pipeInv_init, fun k => ?_, fun _ _ => rfl, fun _ _ => rfl, ?_, fun q => ?_⟩
  · have htok : tokensOf 0 Pipeline.init = 0 := by
      rw [tokensOf, netAt_init, leaves_empty]
      rfl
    show (tokensOf 0 Pipeline.init).count k = 0
    rw [htok]
    rfl
  · exact (Finset.sum_eq_zero fun k _ => rfl).symm
  · cases q <;> rfl

/-- The total of the queues when one of them gets longer by `d`. -/
theorem sum_queue_change {keys : Finset ℤ} {f f' : ℤ → List Item} {k : ℤ} {d : ℤ}
    (hout : ∀ j, j ∉ keys → f j = []) (hother : ∀ j, j ≠ k → f' j = f j)
    (hself : ((f' k).length : ℤ) = (f k).length + d) :
    ∑ j ∈ insert k keys, ((f' j).length : ℤ) = ∑ j ∈ keys, ((f j).length : ℤ) + d := by
  have hsame : ∑ j ∈ insert k keys, ((f j).length : ℤ) = ∑ j ∈ keys, ((f j).length : ℤ) :=
    Finset.sum_insert_of_eq_zero_if_notMem fun hk => by rw [hout k hk]; rfl
  have hmem : k ∈ insert k keys := Finset.mem_insert_self k keys
  have hrest : ∑ j ∈ (insert k keys).erase k, ((f' j).length : ℤ) =
      ∑ j ∈ (insert k keys).erase k, ((f j).length : ℤ) :=
    Finset.sum_congr rfl fun j hj => by rw [hother j (Finset.ne_of_mem_erase hj)]
  rw [← hsame, ← Finset.add_sum_erase _ _ hmem, ← Finset.add_sum_erase _ _ hmem, hrest, hself]
  ring

/-- A packet that the scheduler takes joins the queue of its tenant or flow. -/
theorem doEnqueue_eq {s : Disc} {item : Item} (hne : item.tenant ≠ BYPATH)
    (hsize : s.rootSize < SIZE) (rk1 rk2 rk3 rk4 : ℤ) :
    s.doEnqueue flowMap item rk1 rk2 rk3 rk4 = (true,
      Disc.pushQueue { s with
        rootSize := s.rootSize + 1
        pipe := s.pipe.addPushes
          (vPIFOPushes item.tenant ((flowMap item.label).getD 0) rk1 rk2 rk3 rk4) }
        (realToken item.tenant ((flowMap item.label).getD 0)) item) := by
  rw [Disc.doEnqueue, if_neg hne, if_neg (not_le.mpr hsize), realToken]
  cases isHadoop item.tenant <;> rfl

theorem checkRealQueue_realToken {item : Item} (hok : item.Ok flowMap)
    (hne : item.tenant ≠ BYPATH) :
    item.tenant < 100 ∧
      (isHadoop item.tenant = false → 1000 ≤ (flowMap item.label).getD 0) ∧
      checkRealQueue (realToken item.tenant ((flowMap item.label).getD 0)) = true := by
  obtain ⟨ht, hflow⟩ := hok.resolve_left hne
  have hf : isHadoop item.tenant = false → 1000 ≤ (flowMap item.label).getD 0 := by
    intro hh
    obtain ⟨id, hid, hle⟩ := hflow hh
    rw [hid]
    exact hle
  refine ⟨ht, hf, ?_⟩
  rw [realToken]
  cases hh : isHadoop item.tenant with
  | true =>
    rw [if_pos rfl, checkRealQueue_tenant ht]
    exact hh
  | false => exact checkRealQueue_flow (hf hh)

/-- A packet is taken. -/
theorem fifo_accept {accepted returned : List Item} {queue queue' : Option ℤ → List Item}
    {item : Item}
    (hfifo : ∀ q, returned.filter (fun x => decide (keyOf flowMap x = q)) ++ queue q =
      accepted.filter fun x => decide (keyOf flowMap x = q))
    (hself : queue' (keyOf flowMap item) = queue (keyOf flowMap item) ++ [item])
    (hother : ∀ q, q ≠ keyOf flowMap item → queue' q = queue q) (q : Option ℤ) :
    returned.filter (fun x => decide (keyOf flowMap x = q)) ++ queue' q =
      (accepted ++ [item]).filter fun x => decide (keyOf flowMap x = q) := by
  rw [List.filter_append, ← hfifo]
  by_cases hq : q = keyOf flowMap item
  · rw [hq, hself, List.filter_cons_of_pos (by simp), List.filter_nil, List.append_assoc]
  · rw [hother q hq, List.filter_cons_of_neg (by simpa using fun h => hq h.symm), List.filter_nil,
      List.append_nil]

/-- A packet is returned: it is the first one of its queue. -/
theorem fifo_return {accepted returned : List Item} {queue queue' : Option ℤ → List Item}
    {item : Item} (q₀ : Option ℤ)
    (hfifo : ∀ q, returned.filter (fun x => decide (keyOf flowMap x = q)) ++ queue q =
      accepted.filter fun x => decide (keyOf flowMap x = q))
    (hself : queue q₀ = item :: queue' q₀) (hother : ∀ q, q ≠ q₀ → queue' q = queue q)
    (q : Option ℤ) :
    (returned ++ [item]).filter (fun x => decide (keyOf flowMap x = q)) ++ queue' q =
      accepted.filter fun x => decide (keyOf flowMap x = q) := by
  -- the queue holds packets of its own only
  have hkey : keyOf flowMap item = q₀ := by
    have hmem : item ∈ accepted.filter fun x => decide (keyOf flowMap x = q₀) := by
      rw [← hfifo, hself]
      simp
    simpa using (List.mem_filter.mp hmem).2
  rw [List.filter_append, ← hfifo]
  by_cases hq : q = q₀
  · rw [hq, hself, List.filter_cons_of_pos (by simpa using hkey), List.filter_nil,
      List.append_assoc]
    rfl
  · rw [hother q hq, List.filter_cons_of_neg (by simpa [hkey] using fun h => hq h.symm),
      List.filter_nil, List.append_nil]

/-- **`DoEnqueue`.** -/
theorem DiscInv.enqueue (hinv : DiscInv flowMap h) {item : Item} (hok : item.Ok flowMap)
    (rk1 rk2 rk3 rk4 : ℤ) :
    ∃ h', h.step flowMap (.enqueue item rk1 rk2 rk3 rk4) = some h' ∧ DiscInv flowMap h' ∧
      h'.returned = h.returned ∧ h'.accepted.Sublist (h.accepted ++ [item]) := by
  refine ⟨_, rfl, ?_⟩
  dsimp only
  by_cases hby : item.tenant = BYPATH
  · have hkey : keyOf flowMap item = none := if_pos hby
    have hstep : h.disc.doEnqueue flowMap item rk1 rk2 rk3 rk4 =
        (true, { h.disc with bypathQueue := h.disc.bypathQueue ++ [item] }) := if_pos hby
    rw [hstep, if_pos rfl]
    refine ⟨⟨hinv.pipe, hinv.tokens, hinv.real, hinv.keys, hinv.size,
      fifo_accept hinv.fifo ?_ fun q hq => ?_⟩, rfl, List.Sublist.refl _⟩
    · rw [hkey]
      rfl
    · cases q with
      | none => exact absurd hkey.symm hq
      | some k => rfl
  by_cases hsize : h.disc.rootSize < SIZE
  · obtain ⟨ht, hf, hreal⟩ := checkRealQueue_realToken hok hby
    have hkey : keyOf flowMap item =
        some (realToken item.tenant ((flowMap item.label).getD 0)) := if_neg hby
    obtain ⟨hpipe, htok⟩ := hinv.pipe.arrive (chain_vPIFO ht hf rk1 rk2 rk3 rk4)
    rw [doEnqueue_eq hby hsize, if_pos rfl]
    generalize realToken item.tenant ((flowMap item.label).getD 0) = tok at *
    generalize h.disc.pipe.addPushes _ = pipe at *
    refine ⟨⟨hpipe, fun k => ?_, fun k hk => ?_, fun k hk => ?_, ?_,
      fifo_accept hinv.fifo ?_ fun q hq => ?_⟩, rfl, List.Sublist.refl _⟩
    · show (tokensOf 0 pipe).count k =
        (if k = tok then h.disc.queueMap k ++ [item] else h.disc.queueMap k).length
      rw [htok, Multiset.count_cons, hinv.tokens]
      by_cases hkt : k = tok
      · rw [if_pos hkt, if_pos hkt, List.length_append, List.length_singleton]
      · rw [if_neg hkt, if_neg hkt, add_zero]
    · have hkt : k ≠ tok := by
        rintro rfl
        rw [hreal] at hk
        exact absurd hk (by simp)
      exact (if_neg hkt).trans (hinv.real k hk)
    · have hkt := Finset.mem_insert.not.mp hk
      rw [not_or] at hkt
      exact (if_neg hkt.1).trans (hinv.keys k hkt.2)
    · show h.disc.rootSize + 1 = ∑ k ∈ insert tok h.disc.queueKeys,
        ((if k = tok then h.disc.queueMap k ++ [item] else h.disc.queueMap k).length : ℤ)
      rw [sum_queue_change (d := 1) hinv.keys (fun j hj => if_neg hj), hinv.size]
      rw [if_pos rfl, List.length_append, List.length_singleton]
      rfl
    · rw [hkey]
      exact if_pos rfl
    · cases q with
      | none => rfl
      | some k => exact if_neg fun hkt => hq (by rw [hkey, hkt])
  · have hstep : h.disc.doEnqueue flowMap item rk1 rk2 rk3 rk4 = (false, h.disc) := by
      rw [Disc.doEnqueue, if_neg hby, if_pos (not_lt.mp hsize)]
    rw [hstep]
    exact ⟨⟨hinv.pipe, hinv.tokens, hinv.real, hinv.keys, hinv.size, hinv.fifo⟩, rfl,
      List.sublist_append_left _ _⟩

/-- A token that `GetToken` returns is the one of a queue with a packet in it. -/
theorem DiscInv.token (hinv : DiscInv flowMap h) :
    (h.disc.pipe.getToken = some (-1, h.disc.pipe)) ∨
    ∃ tok p item rest, h.disc.pipe.getToken = some (tok, p) ∧ tok ≠ -1 ∧ PipeInv 0 p ∧
      tokensOf 0 h.disc.pipe = tok ::ₘ tokensOf 0 p ∧ h.disc.queueMap tok = item :: rest ∧
      checkRealQueue tok = true := by
  rcases hinv.pipe.getToken with ⟨htok, -⟩ | ⟨tok, p, htok, hpipe, hcons⟩
  · exact Or.inl htok
  · have hcount := hinv.tokens tok
    rw [hcons, Multiset.count_cons_self] at hcount
    have hne : h.disc.queueMap tok ≠ [] := by
      intro hnil
      rw [hnil, List.length_nil] at hcount
      omega
    have hreal : checkRealQueue tok = true := by
      cases hr : checkRealQueue tok with
      | true => rfl
      | false => exact absurd (hinv.real tok hr) hne
    obtain ⟨item, rest, hq⟩ := List.exists_cons_of_ne_nil hne
    refine Or.inr ⟨tok, p, item, rest, htok, ?_, hpipe, hcons, hq, hreal⟩
    rintro rfl
    exact absurd hreal (by decide)

/-- A packet leaves with its token. -/
theorem DiscInv.take (hinv : DiscInv flowMap h) {tok : ℤ} {p : Pipeline} {item : Item}
    {rest : List Item} (hpipe : PipeInv 0 p)
    (hcons : tokensOf 0 h.disc.pipe = tok ::ₘ tokensOf 0 p)
    (hq : h.disc.queueMap tok = item :: rest) (hreal : checkRealQueue tok = true) :
    DiscInv flowMap ⟨{ h.disc with
      pipe := p
      rootSize := h.disc.rootSize - 1
      queueKeys := insert tok h.disc.queueKeys
      queueMap := fun k => if k = tok then rest else h.disc.queueMap k },
      h.accepted, h.returned ++ [item]⟩ := by
  refine ⟨hpipe, fun k => ?_, fun k hk => ?_, fun k hk => ?_, ?_,
    fifo_return (some tok) hinv.fifo (hq.trans ?_) fun q hq' => ?_⟩
  · have hcount := hinv.tokens k
    show (tokensOf 0 p).count k = (if k = tok then rest else h.disc.queueMap k).length
    rw [hcons, Multiset.count_cons] at hcount
    by_cases hkt : k = tok
    · rw [if_pos hkt] at hcount ⊢
      rw [hkt, hq, List.length_cons] at hcount
      rw [hkt]
      omega
    · rw [if_neg hkt] at hcount ⊢
      exact hcount
  · have hkt : k ≠ tok := by
      rintro rfl
      rw [hreal] at hk
      exact absurd hk (by simp)
    exact (if_neg hkt).trans (hinv.real k hk)
  · have hkt := Finset.mem_insert.not.mp hk
    rw [not_or] at hkt
    exact (if_neg hkt.1).trans (hinv.keys k hkt.2)
  · show h.disc.rootSize - 1 = ∑ k ∈ insert tok h.disc.queueKeys,
      ((if k = tok then rest else h.disc.queueMap k).length : ℤ)
    rw [sum_queue_change (d := -1) hinv.keys (fun j hj => if_neg hj), hinv.size]
    · rfl
    · rw [if_pos rfl, hq, List.length_cons]
      push_cast
      ring
  · exact congrArg _ (if_pos rfl).symm
  · cases q with
    | none => rfl
    | some k => exact if_neg fun hkt => hq' (by rw [hkt])

/-- **`DoDequeue`.** -/
theorem DiscInv.dequeue (hinv : DiscInv flowMap h) :
    ∃ h', h.step flowMap .dequeue = some h' ∧ DiscInv flowMap h' ∧ h'.accepted = h.accepted := by
  cases hby : h.disc.bypathQueue with
  | cons item rest =>
    have hstep : h.step flowMap .dequeue =
        some ⟨{ h.disc with bypathQueue := rest }, h.accepted, h.returned ++ [item]⟩ := by
      rw [History.step, Disc.doDequeue, hby]
      rfl
    refine ⟨_, hstep, ⟨hinv.pipe, hinv.tokens, hinv.real, hinv.keys, hinv.size,
      fifo_return none hinv.fifo hby fun q hq => ?_⟩, rfl⟩
    cases q with
    | none => exact absurd rfl hq
    | some k => rfl
  | nil =>
    rcases hinv.token with htok | ⟨tok, p, item, rest, htok, hne, hpipe, hcons, hq, hreal⟩
    · have hstep : h.step flowMap .dequeue = some ⟨h.disc, h.accepted, h.returned ++ []⟩ := by
        rw [History.step, Disc.doDequeue]
        split
        · next hcons => exact absurd (hby.symm.trans hcons) (by simp)
        · rw [htok]
          rfl
      rw [List.append_nil] at hstep
      exact ⟨h, hstep, hinv, rfl⟩
    · refine ⟨_, ?_, hinv.take hpipe hcons hq hreal, rfl⟩
      rw [History.step, Disc.doDequeue]
      split
      · next hcons => exact absurd (hby.symm.trans hcons) (by simp)
      · rw [htok, Option.bind_some]
        dsimp only
        rw [if_neg hne, hq]
        rfl

/-- **`WakeUp`.** -/
theorem DiscInv.wakeUp (hinv : DiscInv flowMap h) (locked : ℕ → Bool) :
    ∃ h', h.step flowMap (.wakeUp locked) = some h' ∧ DiscInv flowMap h' ∧
      h'.accepted = h.accepted ∧ h'.returned = h.returned := by
  obtain ⟨p, hwake, hpipe, htok⟩ := hinv.pipe.wakeUp locked
  have hstep : h.step flowMap (.wakeUp locked) =
      some ⟨{ h.disc with pipe := p }, h.accepted, h.returned⟩ := by
    rw [History.step, hwake]
    rfl
  refine ⟨_, hstep, ⟨hpipe, fun k => ?_, hinv.real, hinv.keys, hinv.size,
    fun q => ?_⟩, rfl, rfl⟩
  · show (tokensOf 0 p).count k = (h.disc.queueMap k).length
    rw [htok]
    exact hinv.tokens k
  · have hfifo := hinv.fifo q
    cases q <;> exact hfifo

end Steps

/-! ## Conservation -/

/-- The packets of a run. -/
def offered (es : List Event) : List Item := es.filterMap fun
  | .enqueue item _ _ _ _ => some item
  | .dequeue => none
  | .wakeUp _ => none

section Conservation

variable {flowMap : FlowMap} {h : History}

theorem DiscInv.step (hinv : DiscInv flowMap h) {e : Event} (he : e.Ok flowMap) :
    ∃ h', h.step flowMap e = some h' ∧ DiscInv flowMap h' ∧
      h'.accepted.Sublist (h.accepted ++ offered [e]) := by
  cases e with
  | enqueue item rk1 rk2 rk3 rk4 =>
    obtain ⟨h', hstep, hinv', -, hsub⟩ := hinv.enqueue he rk1 rk2 rk3 rk4
    exact ⟨h', hstep, hinv', hsub⟩
  | dequeue =>
    obtain ⟨h', hstep, hinv', hacc⟩ := hinv.dequeue
    refine ⟨h', hstep, hinv', ?_⟩
    rw [hacc]
    exact List.sublist_append_left _ _
  | wakeUp locked =>
    obtain ⟨h', hstep, hinv', hacc, -⟩ := hinv.wakeUp locked
    refine ⟨h', hstep, hinv', ?_⟩
    rw [hacc]
    exact List.sublist_append_left _ _

theorem run_discInv (es : List Event) : ∀ {h : History}, DiscInv flowMap h →
    (∀ e ∈ es, e.Ok flowMap) → ∃ h', es.foldlM (History.step flowMap) h = some h' ∧
      DiscInv flowMap h' ∧ h'.accepted.Sublist (h.accepted ++ offered es) := by
  induction es with
  | nil => exact fun {h} hinv _ => ⟨h, rfl, hinv, List.sublist_append_left _ _⟩
  | cons e es ih =>
    intro h hinv hok
    obtain ⟨h₁, hstep, hinv₁, hsub⟩ := hinv.step (hok e List.mem_cons_self)
    obtain ⟨h₂, hrun, hinv₂, hsub'⟩ := ih hinv₁ fun e' he' => hok e' (List.mem_cons_of_mem _ he')
    refine ⟨h₂, ?_, hinv₂, ?_⟩
    · rw [List.foldlM_cons, hstep]
      exact hrun
    · have hsplit : offered (e :: es) = offered [e] ++ offered es := by
        rw [offered, offered, offered, ← List.filterMap_append]
        rfl
      rw [hsplit, ← List.append_assoc]
      exact hsub'.trans (hsub.append_right _)

/-- Packets of one queue are returned in the order in which they were taken. -/
theorem DiscInv.returned_isPrefix (hinv : DiscInv flowMap h) {q : Option ℤ} {p : Item → Bool}
    (hp : ∀ x, p x = true → keyOf flowMap x = q) :
    h.returned.filter p <+: h.accepted.filter p := by
  have hsplit : ∀ l : List Item,
      l.filter p = (l.filter fun x => decide (keyOf flowMap x = q)).filter p := by
    intro l
    rw [List.filter_filter]
    refine List.filter_congr fun x _ => ?_
    cases hx : p x with
    | true => simp [hp x hx]
    | false => simp
  rw [hsplit h.returned, hsplit h.accepted, ← hinv.fifo q]
  exact (List.prefix_append _ _).filter p

theorem DiscInv.count_returned (hinv : DiscInv flowMap h) (x : Item) :
    h.returned.count x ≤ h.accepted.count x := by
  have hcount : ∀ l : List Item,
      (l.filter fun y => decide (keyOf flowMap y = keyOf flowMap x)).count x = l.count x :=
    fun l => List.count_filter (by simp)
  rw [← hcount h.returned, ← hcount h.accepted, ← hinv.fifo, List.count_append]
  exact Nat.le_add_right _ _

end Conservation

/-- **Packet conservation.**  Whatever the order in which packets arrive, packets are asked for
and cycles pass, whatever the ranks are and whatever the starvation logic locks: no pop is ever
executed on an empty tree; a token is that of a queue with a packet in it; no packet is returned
more often than it was offered; the packets of one Hadoop tenant, and the ones of one
Web-Search flow, are returned in the order in which they were taken; and `root_size` is the
number of packets in the queues. -/
theorem disc_conserves_packets (flowMap : FlowMap) (flows : Finset ℤ) (es : List Event)
    (hok : ∀ e ∈ es, e.Ok flowMap) :
    ∃ h, History.run flowMap flows es = some h ∧
      (∀ i < N, ∃ s, (List.range i).foldlM Pipeline.execAt h.disc.pipe.startPop = some s ∧
        ((s.rpu i).Ready N → s.tree (s.rpu i).root ≠ [])) ∧
      (∀ tok p, h.disc.pipe.getToken = some (tok, p) → tok ≠ -1 → h.disc.queueMap tok ≠ []) ∧
      h.accepted.Sublist (offered es) ∧ (∀ x, h.returned.count x ≤ (offered es).count x) ∧
      (∀ tenant, isHadoop tenant = true →
        h.returned.filter (fun x => decide (x.tenant = tenant)) <+:
          h.accepted.filter fun x => decide (x.tenant = tenant)) ∧
      (∀ label, h.returned.filter (fun x => decide (x.tenant ≠ BYPATH) && !isHadoop x.tenant &&
          decide (x.label = label)) <+:
        h.accepted.filter fun x => decide (x.tenant ≠ BYPATH) && !isHadoop x.tenant &&
          decide (x.label = label)) ∧
      h.disc.rootSize = ∑ k ∈ h.disc.queueKeys, ((h.disc.queueMap k).length : ℤ) := by
  obtain ⟨h, hrun, hinv, hsub⟩ := run_discInv es (discInv_init flows) hok
  have hsub' : h.accepted.Sublist (offered es) := hsub
  refine ⟨h, hrun, fun i hi => ?_, fun tok p htok hne => ?_, hsub', fun x => ?_,
    fun tenant ht => ?_, fun label => ?_, hinv.size⟩
  · obtain ⟨s, hs, hpipe, -⟩ := hinv.pipe.startPop.1.execUpTo hi.le
    exact ⟨s, hs, fun hready => (hpipe.exec hi hready).1⟩
  · rcases hinv.token with hnone | ⟨tok', p', item, rest, hsome, -, -, -, hq, -⟩
    · rw [hnone, Option.some.injEq, Prod.mk.injEq] at htok
      exact absurd htok.1.symm hne
    · rw [hsome, Option.some.injEq, Prod.mk.injEq] at htok
      rw [← htok.1, hq]
      simp
  · exact (hinv.count_returned x).trans (hsub'.count_le x)
  · refine hinv.returned_isPrefix (q := some ((100 + tenant : ℕ) : ℤ)) fun x hx => ?_
    obtain rfl := of_decide_eq_true hx
    have hne : x.tenant ≠ BYPATH := by
      intro hby
      rw [hby] at ht
      exact absurd ht (by decide)
    rw [keyOf, if_neg hne, realToken, if_pos ht]
  · refine hinv.returned_isPrefix (q := some ((flowMap label).getD 0)) fun x hx => ?_
    simp only [Bool.and_eq_true, Bool.not_eq_true', decide_eq_true_eq] at hx
    obtain ⟨⟨hne, hh⟩, rfl⟩ := hx
    rw [keyOf, if_neg hne, realToken, hh, if_neg (by simp)]

/-- Two packets of tenant 1, one of the handshake and one of tenant 12 arrive, and in each of 34
cycles a packet is asked for. -/
def fourItems : List Event :=
  [.enqueue ⟨0, 1, "a"⟩ 7 7 7 7, .enqueue ⟨1, BYPATH, "b"⟩ 7 7 7 7, .enqueue ⟨2, 12, "c"⟩ 5 5 5 5,
    .enqueue ⟨3, 1, "d"⟩ 3 3 3 3] ++ (List.replicate 34 [.wakeUp fun _ => false, .dequeue]).flatten

theorem ok_of_mem_fourItems : ∀ e ∈ fourItems, e.Ok fun _ => none := by
  intro e he
  rcases List.mem_append.mp he with he | he
  · simp only [List.mem_cons, List.not_mem_nil, or_false] at he
    rcases he with rfl | rfl | rfl | rfl
    · exact Or.inr ⟨by decide, fun hweb => absurd hweb (by decide)⟩
    · exact Or.inl rfl
    · exact Or.inr ⟨by decide, fun hweb => absurd hweb (by decide)⟩
    · exact Or.inr ⟨by decide, fun hweb => absurd hweb (by decide)⟩
  · obtain ⟨round, hround, he⟩ := List.mem_flatten.mp he
    rw [List.eq_of_mem_replicate hround, List.mem_pair] at he
    rcases he with rfl | rfl <;> exact trivial

/-- All four packets are returned, the one of the handshake first and those of tenant 1 in the
order in which they were taken, although the second one has the smaller rank. -/
theorem disc_conserves_packets_fourItems : ∃ h,
    History.run (fun _ => none) ∅ fourItems = some h ∧ h.returned.map Item.id = [1, 0, 3, 2] ∧
      (∀ x, h.returned.count x ≤ (offered fourItems).count x) ∧
      h.returned.filter (fun x => decide (x.tenant = 1)) <+:
        h.accepted.filter (fun x => decide (x.tenant = 1)) ∧
      h.disc.rootSize = ∑ k ∈ h.disc.queueKeys, ((h.disc.queueMap k).length : ℤ) := by
  have hids : (History.run (fun _ => none) ∅ fourItems).map (fun h => h.returned.map Item.id) =
      some [1, 0, 3, 2] := by
    decide +kernel
  obtain ⟨h, hrun, -, -, -, hcount, htenant, -, hsize⟩ :=
    disc_conserves_packets _ ∅ fourItems ok_of_mem_fourItems
  rw [hrun, Option.map_some, Option.some.injEq] at hids
  exact ⟨h, hrun, hids, hcount, htenant 1 (by decide), hsize⟩

end Ns3

end VPifo
