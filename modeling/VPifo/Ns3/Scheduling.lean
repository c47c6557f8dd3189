import VPifo.Ns3.QueueDisc

/-!
# The queue discs with their scheduling nodes

A `Disc` takes the ranks as they come.  Here are the nodes of `MyScheduling` that compute them,
and the two queue discs that keep such nodes: `vPIFO`, which asks four of them (or three) for
each packet, and `SimplePIFO`, which asks the one of the flow, or for a Hadoop packet counts on
a clock of its own.

What the two have in common is proved here: what `InitializeParams` leaves (`Prepared`), and what
`DoDequeue` can do (`Dequeued`), whatever the nodes are that it pays.
-/

namespace VPifo

namespace Ns3

open Reference Simulator TokenNet

/-! ## The nodes -/

/-- A `Scheduling` node.  A map that does not have a key answers 0. -/
inductive Scheduling where
  | SP
  | WFQ (num virtualTime : ℤ) (lastTime : ℤ → ℤ)
  | pFabric (flowSize : ℤ → ℤ)

namespace Scheduling

/-- `RankComputation`. -/
def rankComputation (x1 x2 : ℤ) : Scheduling → ℤ × Scheduling
  | SP => (if x1 < 10 then x1 else x1 % 10, SP)
  | WFQ num virtualTime lastTime =>
    let rank := max virtualTime (lastTime x1) + x2 * num
    (rank, WFQ num virtualTime (Function.update lastTime x1 rank))
  | pFabric flowSize => (flowSize x1, pFabric flowSize)

/-- `Dequeue`. -/
def dequeue (x1 : ℤ) : Scheduling → Scheduling
  | SP => SP
  | WFQ num virtualTime lastTime => WFQ num (virtualTime + x1) lastTime
  | pFabric flowSize => pFabric (Function.update flowSize x1 (flowSize x1 - 1))

/-- `InitializeSize`, which only `pFabric` overrides. -/
def initializeSize (flow size : ℤ) : Scheduling → Scheduling
  | pFabric flowSize => pFabric (Function.update flowSize flow size)
  | node => node

end Scheduling

/-! ## What the two queue discs have in common -/

/-- A queue disc with its scheduling nodes. -/
structure Scheduled where
  disc : Disc
  flowMap : FlowMap
  schTree : ℕ → Option Scheduling
  queueCnt : ℤ

/-- A line of `flowlabel.txt`. -/
structure FlowLine where
  flowLabel : String
  srcIp : ℕ
  dstIp : ℕ
  size : ℤ
  tenant : ℕ

/-- The node of a tenant type. -/
def typeId (tenant : ℕ) : ℕ := 10 + tenant / 10 * 2 + (isHadoop tenant).toNat

namespace Scheduled

variable (s : Scheduled)

/-- `sch_tree[id]->RankComputation(x1, x2)`.  There is no result where the pointer is null. -/
def rank (id : ℕ) (x1 x2 : ℤ) : Option (ℤ × Scheduled) :=
  (s.schTree id).map fun node =>
    let r := node.rankComputation x1 x2
    (r.1, { s with schTree := Function.update s.schTree id (some r.2) })

/-- `sch_tree[id]->Dequeue(x1)`. -/
def dequeueNode (id : ℕ) (x1 : ℤ) : Option Scheduled :=
  (s.schTree id).map fun node =>
    { s with schTree := Function.update s.schTree id (some (node.dequeue x1)) }

/-- `AddPush` of the pipeline. -/
def addPush (user : ℕ) (rank token : ℤ) : Scheduled :=
  { s with disc := { s.disc with pipe := s.disc.pipe.addPush user rank token } }

/-- `root_size++`. -/
def grow : Scheduled := { s with disc := { s.disc with rootSize := s.disc.rootSize + 1 } }

/-- `queue_map[key].push(item)`. -/
def pushQueue (key : ℤ) (item : Item) : Scheduled := { s with disc := s.disc.pushQueue key item }

/-- A packet of the TCP handshake joins `bypath_queue`. -/
def pushBypath (item : Item) : Scheduled :=
  { s with disc := { s.disc with bypathQueue := s.disc.bypathQueue ++ [item] } }

/-- One round of the loop of `InitializeParams` at the node `id` of the network.  The node of a
tenant is the one of the number `base + tenant`. -/
def initializeFlow (base id : ℕ) (l : FlowLine) : Option Scheduled :=
  -- a server only knows the flows from it and to it
  if id < 144 ∧ l.srcIp ≠ id ∧ l.dstIp ≠ id then some s
  else
    let cnt := s.queueCnt + 1
    (s.schTree (base + l.tenant)).map fun node =>
      { disc := { s.disc with
          queueKeys := insert cnt s.disc.queueKeys
          queueMap := Function.update s.disc.queueMap cnt [] }
        flowMap := Function.update s.flowMap l.flowLabel (some cnt)
        schTree := Function.update s.schTree (base + l.tenant)
          (some (node.initializeSize cnt l.size))
        queueCnt := cnt }

/-- `InitializeParams`, where `lines` are the flows in the file. -/
def initializeParams (base id : ℕ) (lines : List FlowLine) : Option Scheduled :=
  lines.foldlM (fun s l => s.initializeFlow base id l) s

/-- `DoDequeue`, where `pay item token` are the calls of `Dequeue` for a packet.  There is no
result where `front` is called on an empty queue. -/
def doDequeue (pay : Item → ℤ → Scheduled → Option Scheduled) :
    Option (Option Item × Scheduled) :=
  match s.disc.bypathQueue with
  | item :: rest => some (some item, { s with disc := { s.disc with bypathQueue := rest } })
  | [] => s.disc.pipe.getToken.bind fun r =>
    if r.1 = -1 then some (none, { s with disc := { s.disc with pipe := r.2 } })
    else match s.disc.queueMap r.1 with
      | [] => none
      | item :: rest =>
        let s := { s with disc := { s.disc with
          pipe := r.2
          rootSize := s.disc.rootSize - 1
          queueKeys := insert r.1 s.disc.queueKeys
          queueMap := fun k => if k = r.1 then rest else s.disc.queueMap k } }
        (pay item r.1 s).map fun s => (some item, s)

end Scheduled

/-! ## `vPIFO` -/

namespace VPIFO

/-- The scheduling tree that the constructor builds. -/
def initTree (id : ℕ) : Option Scheduling :=
  -- root to tenant group
  if id = ROOT then some .SP
  -- layer 1: tenant group to tenant type
  else if id < 10 then some .SP
  -- layer 2: tenant type to tenant, first Web Search and then Hadoop
  else if id < 30 then
    let i : ℤ := ((id - 10) / 2 : ℕ)
    if id % 2 = 0 then some (.WFQ (i + 1) 0 fun _ => 0) else some (.WFQ (10 - i - 1) 0 fun _ => 0)
  -- layer 3: only for Web Search tenants, tenant to flow
  else if 100 ≤ id ∧ id < 200 ∧ isHadoop (id - 100) = false then some (.pFabric fun _ => 0)
  else none

/-- The constructor. -/
def init : Scheduled := ⟨Disc.init ∅, fun _ => none, initTree, 1000⟩

/-- `InitializeParams`. -/
def initializeParams (id : ℕ) (lines : List FlowLine) : Option Scheduled :=
  init.initializeParams 100 id lines

variable (size : Item → ℕ)

/-- `DoEnqueue`, where `size` is `GetSize` of the packet. -/
def doEnqueue (item : Item) (s : Scheduled) : Option (Bool × Scheduled) :=
  -- packets of the TCP handshake go to the output directly
  if item.tenant = BYPATH then some (true, s.pushBypath item)
  -- the root queue is full
  else if SIZE ≤ s.disc.rootSize then some (false, s)
  else
    let group := item.tenant / 10
    (s.grow.rank ROOT group 0).bind fun r =>
    let s := r.2.addPush ROOT r.1 group
    (s.rank group (typeId item.tenant) 0).bind fun r =>
    let s := r.2.addPush group r.1 (typeId item.tenant)
    let tenantId := 100 + item.tenant
    (s.rank (typeId item.tenant) tenantId (size item)).bind fun r =>
    let s := r.2.addPush (typeId item.tenant) r.1 tenantId
    -- all packets of a Hadoop tenant are in one real queue
    if isHadoop item.tenant then some (true, s.pushQueue tenantId item)
    -- each flow of a Web-Search tenant has its own
    else
      let flowId := (s.flowMap item.label).getD 0
      (s.rank tenantId flowId 0).map fun r =>
        (true, (r.2.addPush tenantId r.1 flowId).pushQueue flowId item)

/-- The nodes that are told that a packet has left. -/
def pay (item : Item) (token : ℤ) (s : Scheduled) : Option Scheduled :=
  (s.dequeueNode (typeId item.tenant) (size item)).bind fun s =>
    if isHadoop item.tenant then some s else s.dequeueNode (item.tenant + 100) token

/-- `DoDequeue`. -/
def doDequeue (s : Scheduled) : Option (Option Item × Scheduled) := s.doDequeue (pay size)

end VPIFO

/-! ## `SimplePIFO` -/

/-- A `SimplePIFO`. -/
structure SimplePIFO extends Scheduled where
  time : ℤ

namespace SimplePIFO

/-- The constructor makes a node for each Web-Search tenant. -/
def initTree (id : ℕ) : Option Scheduling :=
  if id < 100 ∧ isHadoop id = false then some (.pFabric fun _ => 0) else none

/-- The constructor. -/
def init : SimplePIFO := ⟨⟨Disc.init ∅, fun _ => none, initTree, 1000⟩, -10 ^ 16⟩

/-- `InitializeParams`. -/
def initializeParams (id : ℕ) (lines : List FlowLine) : Option SimplePIFO :=
  (init.toScheduled.initializeParams 0 id lines).map fun s => ⟨s, init.time⟩

/-- `DoEnqueue`. -/
def doEnqueue (item : Item) (s : SimplePIFO) : Option (Bool × SimplePIFO) :=
  -- packets of the TCP handshake go to the output directly
  if item.tenant = BYPATH then some (true, ⟨s.pushBypath item, s.time⟩)
  -- the root queue is full
  else if SIZE ≤ s.disc.rootSize then some (false, s)
  -- the rank of a Hadoop packet is its arrival time
  else if isHadoop item.tenant then
    let time := s.time + 1
    let tenant : ℤ := item.tenant + 100
    some (true, ⟨(s.grow.addPush ROOT time tenant).pushQueue tenant item, time⟩)
  -- each flow of a Web-Search tenant has a real queue
  else
    let flowId := (s.flowMap item.label).getD 0
    (s.grow.rank item.tenant flowId 0).map fun r =>
      (true, ⟨(r.2.addPush ROOT r.1 flowId).pushQueue flowId item, s.time⟩)

/-- The node that is told that a packet has left. -/
def pay (item : Item) (token : ℤ) (s : Scheduled) : Option Scheduled :=
  if isHadoop item.tenant then some s else s.dequeueNode item.tenant token

/-- `DoDequeue`. -/
def doDequeue (s : SimplePIFO) : Option (Option Item × SimplePIFO) :=
  (s.toScheduled.doDequeue pay).map fun r => (r.1, ⟨r.2, s.time⟩)

end SimplePIFO

/-! ## Runs -/

/-- What a queue disc is asked. -/
inductive Request where
  | enqueue (item : Item)
  | dequeue
  | wakeUp (locked : ℕ → Bool)

/-- An event without its ranks. -/
def Event.request : Event → Request
  | .enqueue item _ _ _ _ => .enqueue item
  | .dequeue => .dequeue
  | .wakeUp locked => .wakeUp locked

/-- The packets that the queue discs are made for: the ones that bypass them, those of the
tenants 0 to 99, and of a Web-Search tenant those of a flow of the file. -/
def Item.Known (flowMap : FlowMap) (item : Item) : Prop :=
  item.tenant = BYPATH ∨
    item.tenant < 100 ∧ (isHadoop item.tenant = false → flowMap item.label ≠ none)

/-- The packets of a request are such packets. -/
def Request.Known (flowMap : FlowMap) : Request → Prop
  | .enqueue item => item.Known flowMap
  | .dequeue => True
  | .wakeUp _ => True

/-! ## After `InitializeParams` -/

/-- A file of Web-Search flows. -/
def WebSearch (lines : List FlowLine) : Prop :=
  ∀ l ∈ lines, l.tenant < 100 ∧ isHadoop l.tenant = false

/-- The size of a flow at its node. -/
def Scheduled.flowSize (s : Scheduled) (id : ℕ) (flow : ℤ) : ℤ :=
  match s.schTree id with
  | some (.pFabric flowSize) => flowSize flow
  | _ => 0

/-- What holds after `InitializeParams`, if the constructor made the nodes `tree`: there are new
flows and their sizes, and nothing else. -/
structure Prepared (base : ℕ) (tree : ℕ → Option Scheduling) (s : Scheduled) : Prop where
  disc : s.disc = Disc.init s.disc.queueKeys
  flows : ∀ label id, s.flowMap label = some id → 1000 ≤ id
  cnt : 1000 ≤ s.queueCnt
  tenants : ∀ t < 100, isHadoop t = false →
    s.schTree (base + t) = some (.pFabric fun f => s.flowSize (base + t) f)
  others : ∀ id, (∀ t < 100, isHadoop t = false → id ≠ base + t) → s.schTree id = tree id

section Prepared

variable {base id : ℕ} {tree : ℕ → Option Scheduling} {s : Scheduled} {l : FlowLine}

/-- A `pFabric` node has the sizes that it answers. -/
theorem schTree_flowSize {g : ℤ → ℤ} (h : s.schTree id = some (.pFabric g)) :
    s.schTree id = some (.pFabric fun f => s.flowSize id f) := by
  have hsizes : (fun f => s.flowSize id f) = g := by
    funext f
    rw [Scheduled.flowSize, h]
  rw [hsizes]
  exact h

theorem Prepared.initializeFlow (h : Prepared base tree s) (ht : l.tenant < 100)
    (hweb : isHadoop l.tenant = false) :
    ∃ s', s.initializeFlow base id l = some s' ∧ Prepared base tree s' := by
  rw [Scheduled.initializeFlow]
  split
  · exact ⟨s, rfl, h⟩
  have hcnt := h.cnt
  have hnode := h.tenants _ ht hweb
  rw [hnode, Option.map_some]
  refine ⟨_, rfl, ?_, fun label k hk => ?_, by dsimp only; omega, fun t ht' hweb' => ?_,
    fun k hk => ?_⟩
  · dsimp only
    rw [h.disc]
    have hmap : Function.update (fun _ : ℤ => ([] : List Item)) (s.queueCnt + 1) [] =
        fun _ => [] := Function.update_eq_self _ _
    exact congrArg (fun m => (⟨_, _, m, _, _⟩ : Disc)) hmap
  · dsimp only at hk
    by_cases hl : label = l.flowLabel
    · rw [hl, Function.update_self, Option.some.injEq] at hk
      omega
    · rw [Function.update_of_ne hl] at hk
      exact h.flows label k hk
  · by_cases htt : t = l.tenant
    · rw [htt]
      exact schTree_flowSize (Function.update_self ..)
    · have hne : base + t ≠ base + l.tenant := fun heq => htt (Nat.add_left_cancel heq)
      exact schTree_flowSize ((Function.update_of_ne hne _ _).trans (h.tenants t ht' hweb'))
  · exact (Function.update_of_ne (hk _ ht hweb) _ _).trans (h.others k hk)

theorem Prepared.initializeParams {lines : List FlowLine} (hlines : WebSearch lines) :
    ∀ {s : Scheduled}, Prepared base tree s →
      ∃ s', s.initializeParams base id lines = some s' ∧ Prepared base tree s' := by
  induction lines with
  | nil => exact fun {s} h => ⟨s, rfl, h⟩
  | cons l lines ih =>
    intro s h
    obtain ⟨ht, hweb⟩ := hlines l List.mem_cons_self
    obtain ⟨s₁, hstep, h₁⟩ : ∃ s₁, s.initializeFlow base id l = some s₁ ∧ Prepared base tree s₁ :=
      h.initializeFlow ht hweb
    obtain ⟨s₂, hrun, h₂⟩ := ih (fun x hx => hlines x (List.mem_cons_of_mem _ hx)) h₁
    refine ⟨s₂, ?_, h₂⟩
    rw [Scheduled.initializeParams, List.foldlM_cons, hstep]
    exact hrun

end Prepared

/-! ## A packet leaves -/

section Dequeue

variable {flowMap : FlowMap} {s : Scheduled} {accepted returned : List Item}

/-- A packet in a queue has been taken, and the queue is its own. -/
theorem DiscInv.mem_queue {h : History} (hinv : DiscInv flowMap h) {q : Option ℤ} {item : Item}
    (hmem : item ∈ h.disc.queue q) : item ∈ h.accepted ∧ keyOf flowMap item = q := by
  have hfifo : item ∈ h.accepted.filter fun x => decide (keyOf flowMap x = q) := by
    rw [← hinv.fifo]
    exact List.mem_append_right _ hmem
  obtain ⟨hacc, hkey⟩ := List.mem_filter.mp hfifo
  exact ⟨hacc, of_decide_eq_true hkey⟩

/-- What `DoDequeue` can do: it returns a packet of the bypath, it finds nothing, or it returns the
first packet of the queue that the pipeline names, and pays for it. -/
inductive Dequeued (flowMap : FlowMap) (pay : Item → ℤ → Scheduled → Option Scheduled)
    (s : Scheduled) (accepted returned : List Item) : Prop where
  | bypath (item : Item) (d : Disc) (hby : item.tenant = BYPATH) (hpipe : d.pipe = s.disc.pipe)
      (hdisc : s.disc.doDequeue = some (some item, d))
      (hresult : s.doDequeue pay = some (some item, { s with disc := d }))
      (hinv : DiscInv flowMap ⟨d, accepted, returned ++ [item]⟩)
  | nothing (hdisc : s.disc.doDequeue = some (none, s.disc))
      (hresult : s.doDequeue pay = some (none, s))
  | packet (item : Item) (token : ℤ) (d : Disc)
      (htoken : s.disc.pipe.getToken = some (token, d.pipe))
      (hdisc : s.disc.doDequeue = some (some item, d))
      (hresult : s.doDequeue pay =
        (pay item token { s with disc := d }).map fun s => (some item, s))
      (hinv : DiscInv flowMap ⟨d, accepted, returned ++ [item]⟩) (hmem : item ∈ accepted)
      (hkey : keyOf flowMap item = some token)

theorem DiscInv.dequeued (hinv : DiscInv flowMap ⟨s.disc, accepted, returned⟩)
    (pay : Item → ℤ → Scheduled → Option Scheduled) :
    Dequeued flowMap pay s accepted returned := by
  cases hby : s.disc.bypathQueue with
  | cons item rest =>
    have hmem : item ∈ s.disc.queue none := by
      show item ∈ s.disc.bypathQueue
      rw [hby]
      exact List.mem_cons_self
    have hkey := (hinv.mem_queue hmem).2
    rw [keyOf] at hkey
    refine .bypath item { s.disc with bypathQueue := rest } ?_ rfl ?_ ?_
      ⟨hinv.pipe, hinv.tokens, hinv.real, hinv.keys, hinv.size,
        fifo_return none hinv.fifo hby fun q hq => ?_⟩
    · by_contra hne
      rw [if_neg hne] at hkey
      exact absurd hkey (by simp)
    · rw [Disc.doDequeue, hby]
    · rw [Scheduled.doDequeue, hby]
    · cases q with
      | none => exact absurd rfl hq
      | some k => rfl
  | nil =>
    rcases hinv.token with htok | ⟨tok, p, item, rest, htok, hne, hpipe, hcons, hq, hreal⟩
    · have htok' : s.disc.pipe.getToken = some (-1, s.disc.pipe) := htok
      refine .nothing ?_ ?_
      · rw [Disc.doDequeue]
        split
        · next hcons => exact absurd (hby.symm.trans hcons) (by simp)
        · rw [htok', Option.bind_some]
          exact if_pos rfl
      · rw [Scheduled.doDequeue, hby]
        dsimp only
        rw [htok', Option.bind_some]
        exact if_pos rfl
    · have htok' : s.disc.pipe.getToken = some (tok, p) := htok
      have hq' : s.disc.queueMap tok = item :: rest := hq
      have hmem : item ∈ s.disc.queue (some tok) := by
        show item ∈ s.disc.queueMap tok
        rw [hq']
        exact List.mem_cons_self
      obtain ⟨hacc, hkey⟩ := hinv.mem_queue hmem
      refine .packet item tok _ htok' ?_ ?_ (hinv.take hpipe hcons hq hreal) hacc hkey
      · rw [Disc.doDequeue]
        split
        · next hcons => exact absurd (hby.symm.trans hcons) (by simp)
        · rw [htok', Option.bind_some]
          dsimp only
          rw [if_neg hne, hq']
      · rw [Scheduled.doDequeue, hby]
        dsimp only
        rw [htok', Option.bind_some]
        dsimp only
        rw [if_neg hne, hq']

/-- The flows of the file have the numbers above 1000. -/
theorem Item.Known.ok {flowMap : FlowMap} {item : Item}
    (hflows : ∀ label id, flowMap label = some id → 1000 ≤ id) (hknown : item.Known flowMap) :
    item.Ok flowMap := by
  rcases hknown with hby | ⟨ht, hflow⟩
  · exact Or.inl hby
  · refine Or.inr ⟨ht, fun hweb => ?_⟩
    obtain ⟨id, hid⟩ := Option.ne_none_iff_exists'.mp (hflow hweb)
    exact ⟨id, hid, hflows _ _ hid⟩

theorem ok_append {flowMap : FlowMap} {item : Item} {l : List Item} (h : ∀ x ∈ l, x.Ok flowMap)
    (hok : item.Ok flowMap) : ∀ x ∈ l ++ [item], x.Ok flowMap := by
  intro x hx
  rcases List.mem_append.mp hx with hold | hnew
  · exact h x hold
  · rw [List.mem_singleton.mp hnew]
    exact hok

theorem ne_BYPATH_of_lt {item : Item} (ht : item.tenant < 100) : item.tenant ≠ BYPATH := by
  intro hby
  rw [hby] at ht
  exact absurd ht (by decide)

theorem ne_BYPATH_of_keyOf {flowMap : FlowMap} {item : Item} {token : ℤ}
    (hkey : keyOf flowMap item = some token) : item.tenant ≠ BYPATH := by
  intro hby
  rw [keyOf, if_pos hby] at hkey
  exact absurd hkey (by simp)

/-- The account of a packet with a token: it is one of a tenant, and for a Web-Search tenant the
token is its flow. -/
theorem Item.Ok.of_keyOf {flowMap : FlowMap} {item : Item} {token : ℤ} (hok : item.Ok flowMap)
    (hkey : keyOf flowMap item = some token) : item.tenant < 100 ∧
      (isHadoop item.tenant = false → token = (flowMap item.label).getD 0) := by
  have hne := ne_BYPATH_of_keyOf hkey
  rw [keyOf, if_neg hne, Option.some.injEq, realToken] at hkey
  refine ⟨(hok.resolve_left hne).1, fun hweb => ?_⟩
  rw [hweb, if_neg (by simp)] at hkey
  exact hkey.symm

end Dequeue

end Ns3

end VPifo
