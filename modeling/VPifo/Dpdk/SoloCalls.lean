import VPifo.Dpdk.NodeCalls
import Mathlib.Data.List.FinRange
import Mathlib.Logic.Relation

/-!
# A core that is left alone

The schedulers of a node have two models: a call as a function of the rings (`flows2nodesSP`,
`flows2nodesPFabric`, and here `flows2nodesWFQ`), and the steps of the core, between which the
other cores take theirs.  They belong together: from the place where the ring of the node is looked
at, a core that is left alone comes back there with the rings as the call leaves them, or gets
stuck if the call has no result (`alone_call`).
-/

namespace VPifo

namespace Dpdk

/-! ## `flows2nodes_WFQ` as a function -/

section WFQ

variable (weight : Fin 3 → ℤ)

/-- The turn of ring `i`, with `k` packets to go. -/
def wfqTurn (i : Fin 3) : ℕ → Context → Context
  | 0, ctx => ctx
  | k + 1, ctx =>
    match ctx.inputRings i with
    | [] => ctx
    | pkt :: ring => wfqTurn i k (ctx.move i pkt ring)

/-- `flows2nodes_WFQ`. -/
def flows2nodesWFQ (ctx : Context) : Context :=
  (List.finRange 3).foldl (fun ctx i => wfqTurn i (weight i).toNat ctx) ctx

end WFQ

/-- The scheduler that `intra_node` names. -/
def flows2nodes (c : SwitchConfig) (n : Fin 2) (ctx : Context) : Option Context :=
  match c.intraNode with
  | .SP => flows2nodesSP ctx
  | .WFQ => some (flows2nodesWFQ (Cores.flowWeight c n) ctx)
  | .pFabric => flows2nodesPFabric ctx
  | .other => none

section Alone

variable {c : SwitchConfig} {n : Fin 2} {s s' : Cores} {ctx : Context}

/-- The core of node `n` takes some steps, and no other core does. -/
def Alone (c : SwitchConfig) (n : Fin 2) : Cores → Cores → Prop :=
  Relation.ReflTransGen fun s s' => s.nodeStep c n = some s'

/-- The core is at a place in its loop, with nothing in its buffer, and the rings are those of a
call. -/
structure Stands (c : SwitchConfig) (n : Fin 2) (pc : NodePc) (ctx : Context) (s : Cores) :
    Prop where
  pc : s.nodePc n = pc
  mbuf : s.buffers (.nodeMbuf n) = []
  context : s.context c n = ctx

/-- The core gets from one place to another. -/
def Reaches (c : SwitchConfig) (n : Fin 2) (pc : NodePc) (ctx : Context) (s : Cores) : Prop :=
  ∃ s', Alone c n s s' ∧ Stands c n pc ctx s'

variable {pc pc' : NodePc} {ctx' : Context} {i : Fin 3} {pkt : Packet} {rest : List Packet}

theorem Stands.reaches (h : Stands c n pc ctx s) : Reaches c n pc ctx s := ⟨s, .refl, h⟩

theorem Reaches.of_alone (h : Alone c n s s') (hs' : Reaches c n pc ctx s') :
    Reaches c n pc ctx s := by
  obtain ⟨t, ht, hstands⟩ := hs'
  exact ⟨t, h.trans ht, hstands⟩

/-- A step in which no packet is taken. -/
theorem Stands.go (h : Stands c n pc ctx s)
    (hcall : s.callNode c n pc = some (s.setNodePc n pc')) :
    Alone c n s (s.setNodePc n pc') ∧ Stands c n pc' ctx (s.setNodePc n pc') := by
  refine ⟨.single ?_, setNodePc_nodePc_self s n pc', h.mbuf, h.context⟩
  rw [Cores.nodeStep, if_neg (not_not.mpr h.mbuf), h.pc]
  exact hcall

/-- The rings of the node after a packet has been taken and put. -/
theorem context_moved (hring : s.buffers (.ringFlows (flowIndex n i)) = pkt :: rest)
    {s₁ : Cores}
    (hbuffers : s₁.buffers =
      ((s.setBuffer (.ringFlows (flowIndex n i)) rest).setBuffer (.nodeMbuf n) [pkt]).buffers) :
    (s₁.give (.nodeMbuf n) (.ringNodes n) c.ringNodesSize).buffers (.nodeMbuf n) = [] ∧
    (s₁.give (.nodeMbuf n) (.ringNodes n) c.ringNodesSize).context c n =
      { (s.context c n).move i pkt rest with pFabricSize := s₁.pFabricSize n } := by
  have hmbuf₁ : s₁.buffers (.nodeMbuf n) = [pkt] := by
    rw [hbuffers, setBuffer_buffers_self]
  have hnode : s₁.buffers (.ringNodes n) = s.buffers (.ringNodes n) := by
    rw [hbuffers, setBuffer_buffers_of_ne (by simp), setBuffer_buffers_of_ne (by simp)]
  have hflow : ∀ j, s₁.buffers (.ringFlows (flowIndex n j)) =
      Function.update (s.context c n).inputRings i rest j := by
    intro j
    rw [hbuffers, setBuffer_buffers_of_ne (by simp)]
    by_cases hj : j = i
    · subst hj
      rw [setBuffer_buffers_self, Function.update_self]
    · rw [Function.update_of_ne hj, setBuffer_buffers_of_ne]
      · rfl
      · exact fun h => hj (flowIndex_injective n (Buffer.ringFlows.inj h))
  refine ⟨by rw [give_mbuf (by simp), hmbuf₁]; rfl, ?_⟩
  have hgive : ∀ j, (s₁.give (.nodeMbuf n) (.ringNodes n) c.ringNodesSize).buffers
      (.ringFlows (flowIndex n j)) = s₁.buffers (.ringFlows (flowIndex n j)) :=
    fun j => give_frame (by simp) (by simp) s₁ _
  have hput : (s₁.give (.nodeMbuf n) (.ringNodes n) c.ringNodesSize).buffers (.ringNodes n) =
      if (s.buffers (.ringNodes n)).length < c.ringNodesSize then s.buffers (.ringNodes n) ++ [pkt]
      else s.buffers (.ringNodes n) := by
    rw [Cores.give, hmbuf₁]
    dsimp only
    rw [hnode]
    split
    · exact setBuffer_buffers_self _ _ _
    · show (s₁.setBuffer (.nodeMbuf n) []).buffers (.ringNodes n) = _
      rw [setBuffer_buffers_of_ne (by simp)]
      exact hnode
  have hsize : (s₁.give (.nodeMbuf n) (.ringNodes n) c.ringNodesSize).pFabricSize n =
      s₁.pFabricSize n := by
    rw [Cores.give]
    split
    · rfl
    · split <;> rfl
  rw [Cores.context, hput, hsize, funext fun j => (hgive j).trans (hflow j)]
  rfl

/-- A step in which a packet is taken, and the next, in which it is put. -/
theorem Stands.take (h : Stands c n pc ctx s) (hring : ctx.inputRings i = pkt :: rest)
    {s₁ : Cores} (hcall : s.callNode c n pc = some s₁) (hpc : s₁.nodePc n = pc')
    (hbuffers : s₁.buffers =
      ((s.setBuffer (.ringFlows (flowIndex n i)) rest).setBuffer (.nodeMbuf n) [pkt]).buffers) :
    Reaches c n pc' { ctx.move i pkt rest with pFabricSize := s₁.pFabricSize n } s := by
  have hring' : s.buffers (.ringFlows (flowIndex n i)) = pkt :: rest := by
    rw [← hring, ← h.context]
    rfl
  obtain ⟨hmbuf, hcontext⟩ := context_moved (c := c) hring' hbuffers
  refine ⟨s₁.give (.nodeMbuf n) (.ringNodes n) c.ringNodesSize,
    .head (b := s₁) ?_ (.single ?_), ?_, hmbuf, ?_⟩
  · rw [Cores.nodeStep, if_neg (not_not.mpr h.mbuf), h.pc]
    exact hcall
  · rw [Cores.nodeStep, if_pos]
    rw [hbuffers, setBuffer_buffers_self]
    exact List.cons_ne_nil _ _
  · rw [(give_pcs s₁ _ _ _).1, hpc]
  · rw [hcontext, h.context]

theorem take_of_cons {ring mbuf : Buffer} (h : s.buffers ring = pkt :: rest) :
    s.take ring mbuf = some (pkt, (s.setBuffer ring rest).setBuffer mbuf [pkt]) := by
  rw [Cores.take, h]

theorem take_of_nil {ring mbuf : Buffer} (h : s.buffers ring = []) : s.take ring mbuf = none := by
  rw [Cores.take, h]

theorem Stands.ring (h : Stands c n pc ctx s) (i : Fin 3) :
    s.buffers (.ringFlows (flowIndex n i)) = ctx.inputRings i := by
  rw [← h.context]
  rfl

/-- The same where the sizes of the flows are not touched. -/
theorem Stands.takeOnly (h : Stands c n pc ctx s) (hring : ctx.inputRings i = pkt :: rest)
    (hcall : s.callNode c n pc = some (((s.setBuffer (.ringFlows (flowIndex n i)) rest).setBuffer
      (.nodeMbuf n) [pkt]).setNodePc n pc')) : Reaches c n pc' (ctx.move i pkt rest) s := by
  have hreaches := h.take hring hcall (setNodePc_nodePc_self _ n _) rfl
  have hsize : (((s.setBuffer (.ringFlows (flowIndex n i)) rest).setBuffer
      (.nodeMbuf n) [pkt]).setNodePc n pc').pFabricSize n = ctx.pFabricSize :=
    congrArg Context.pFabricSize h.context
  rw [hsize] at hreaches
  exact hreaches

/-- The core gets back with the rings as they should be, or it gets stuck where there are none. -/
def Ends (c : SwitchConfig) (n : Fin 2) (result : Option Context) (s : Cores) : Prop :=
  match result with
  | some ctx => Reaches c n .check ctx s
  | none => ∃ s', Alone c n s s' ∧ s'.nodeStep c n = none

theorem Ends.of_alone {result : Option Context} (h : Alone c n s s') (hs' : Ends c n result s') :
    Ends c n result s := by
  cases result with
  | some ctx => exact Reaches.of_alone h hs'
  | none =>
    obtain ⟨t, ht, hstuck⟩ := hs'
    exact ⟨t, h.trans ht, hstuck⟩

/-! ### Strict priority -/

/-- One round of the search. -/
theorem Stands.spRound {priority : ℤ} {priorities : List ℤ}
    (h : Stands c n (.sp priority) ctx s)
    (hnext : ∀ {s'}, Stands c n (if priority < 3 then .sp (priority + 1) else .check) ctx s' →
      Ends c n (spRounds ctx priorities) s') :
    Ends c n (spRounds ctx (priority :: priorities)) s := by
  rw [spRounds]
  cases hflow : flowOf ctx priority with
  | none =>
    refine ⟨s, .refl, ?_⟩
    rw [Cores.nodeStep, if_neg (not_not.mpr h.mbuf), h.pc, Cores.callNode, h.context, hflow]
    rfl
  | some i =>
    have hring := h.ring i
    dsimp only
    cases hinput : ctx.inputRings i with
    | nil =>
      rw [hinput] at hring
      have hcall : s.callNode c n (.sp priority) = some
          (s.setNodePc n (if priority < 3 then .sp (priority + 1) else .check)) := by
        rw [Cores.callNode, h.context, hflow, Option.map_some, take_of_nil hring]
      obtain ⟨halone, hstands⟩ := h.go hcall
      exact .of_alone halone (hnext hstands)
    | cons pkt rest =>
      rw [hinput] at hring
      have hcall : s.callNode c n (.sp priority) = some
          (((s.setBuffer (.ringFlows (flowIndex n i)) rest).setBuffer (.nodeMbuf n)
            [pkt]).setNodePc n .check) := by
        rw [Cores.callNode, h.context, hflow, Option.map_some, take_of_cons hring]
      exact h.takeOnly hinput hcall

theorem Stands.sp (h : Stands c n (.sp 1) ctx s) : Ends c n (flows2nodesSP ctx) s :=
  h.spRound fun h₂ => Stands.spRound h₂ fun h₃ => Stands.spRound h₃ fun h₄ => h₄.reaches

/-! ### WFQ -/

/-- The turn of a ring. -/
theorem Stands.wfqTurn (i : Fin 3) : ∀ (k : ℕ) {j : ℤ} {ctx : Context} {s : Cores},
    (Cores.flowWeight c n i - j).toNat = k → Stands c n (.wfq i j) ctx s →
    Reaches c n (Cores.turnOf (i + 1)) (Dpdk.wfqTurn i k ctx) s := by
  intro k
  induction k with
  | zero =>
    intro j ctx s hk h
    have hcall : s.callNode c n (.wfq i j) = some (s.setNodePc n (Cores.turnOf (i + 1))) := by
      rw [Cores.callNode, if_neg (by omega)]
    obtain ⟨halone, hstands⟩ := h.go hcall
    exact .of_alone halone hstands.reaches
  | succ k ih =>
    intro j ctx s hk h
    have hj : j < Cores.flowWeight c n i := by omega
    have hring := h.ring i
    rw [Dpdk.wfqTurn]
    cases hinput : ctx.inputRings i with
    | nil =>
      rw [hinput] at hring
      have hcall : s.callNode c n (.wfq i j) = some (s.setNodePc n (Cores.turnOf (i + 1))) := by
        rw [Cores.callNode, if_pos hj, take_of_nil hring]
      obtain ⟨halone, hstands⟩ := h.go hcall
      exact .of_alone halone hstands.reaches
    | cons pkt rest =>
      rw [hinput] at hring
      have hcall : s.callNode c n (.wfq i j) = some
          (((s.setBuffer (.ringFlows (flowIndex n i)) rest).setBuffer (.nodeMbuf n)
            [pkt]).setNodePc n (.wfq i (j + 1))) := by
        rw [Cores.callNode, if_pos hj, take_of_cons hring]
      obtain ⟨s', halone, hstands⟩ := h.takeOnly hinput hcall
      exact .of_alone halone (ih (j := j + 1) (by omega) hstands)

theorem Stands.wfq (h : Stands c n (.wfq 0 0) ctx s) :
    Reaches c n .check (flows2nodesWFQ (Cores.flowWeight c n) ctx) s := by
  obtain ⟨s₁, h₁, hs₁⟩ := Stands.wfqTurn 0 _ (by rw [sub_zero]) h
  obtain ⟨s₂, h₂, hs₂⟩ := Stands.wfqTurn 1 _ (by rw [sub_zero]) hs₁
  obtain ⟨s₃, h₃, hs₃⟩ := Stands.wfqTurn 2 _ (by rw [sub_zero]) hs₂
  exact ⟨s₃, (h₁.trans h₂).trans h₃, hs₃⟩

/-! ### pFabric -/

theorem Stands.pFabricRounds : ∀ {tries : ℕ} {ring : Fin 3} {ctx : Context} {s : Cores},
    1 ≤ tries → Stands c n (.pFabric tries ring) ctx s →
    Reaches c n .check (Dpdk.pFabricRounds ctx tries ring) s := by
  intro tries
  induction tries with
  | zero => exact fun h => absurd h (by decide)
  | succ tries ih =>
    intro ring ctx s _ h
    have hring := h.ring ring
    rw [Dpdk.pFabricRounds]
    cases hinput : ctx.inputRings ring with
    | nil =>
      rw [hinput] at hring
      have hcall : s.callNode c n (.pFabric (tries + 1) ring) = some (s.setNodePc n
          (if 1 < tries + 1 then .pFabric tries (Cores.nextRing ring) else .check)) := by
        rw [Cores.callNode, take_of_nil hring]
        rfl
      obtain ⟨halone, hstands⟩ := h.go hcall
      by_cases htries : 1 < tries + 1
      · rw [if_pos htries] at halone hstands
        exact .of_alone halone (ih (by omega) hstands)
      · rw [if_neg htries] at halone hstands
        obtain rfl : tries = 0 := by omega
        exact .of_alone halone hstands.reaches
    | cons pkt rest =>
      rw [hinput] at hring
      have hcall : s.callNode c n (.pFabric (tries + 1) ring) = some
          ((((s.setBuffer (.ringFlows (flowIndex n ring)) rest).setBuffer (.nodeMbuf n)
            [pkt]).chargeNode n ring pkt).setNodePc n .check) := by
        rw [Cores.callNode, take_of_cons hring]
      have hreaches := h.take hinput hcall (setNodePc_nodePc_self _ n _) rfl
      have hsize : s.pFabricSize n = ctx.pFabricSize := congrArg Context.pFabricSize h.context
      have hcharge : ((((s.setBuffer (.ringFlows (flowIndex n ring)) rest).setBuffer (.nodeMbuf n)
          [pkt]).chargeNode n ring pkt).setNodePc n .check).pFabricSize n =
            (ctx.charge ring pkt).pFabricSize := by
        show Function.update s.pFabricSize n _ n = _
        rw [Function.update_self]
        show Function.update (s.pFabricSize n) ring (s.pFabricSize n ring - pkt.pktLen.toInt32) = _
        rw [hsize]
        rfl
      rw [hcharge] at hreaches
      exact hreaches

/-- **A core that is left alone does what the call does.** -/
theorem alone_call (h : Stands c n .check ctx s) (hroom : ctx.outputRing.length < 20) :
    Ends c n (flows2nodes c n ctx) s := by
  have hring : (s.buffers (.ringNodes n)).length < 20 := by
    rw [← h.context] at hroom
    exact hroom
  have hcall : s.callNode c n .check = s.startNode c n := by
    rw [Cores.callNode, if_pos hring]
  rw [flows2nodes]
  cases hintra : c.intraNode with
  | SP =>
    rw [Cores.startNode, hintra] at hcall
    obtain ⟨halone, hstands⟩ := h.go hcall
    exact .of_alone halone hstands.sp
  | WFQ =>
    rw [Cores.startNode, hintra] at hcall
    obtain ⟨halone, hstands⟩ := h.go hcall
    exact Reaches.of_alone halone hstands.wfq
  | pFabric =>
    rw [Cores.startNode, hintra, h.context] at hcall
    obtain ⟨halone, hstands⟩ := h.go hcall
    exact Reaches.of_alone halone (hstands.pFabricRounds (by decide))
  | other =>
    refine ⟨s, .refl, ?_⟩
    rw [Cores.nodeStep, if_neg (not_not.mpr h.mbuf), h.pc, hcall, Cores.startNode, hintra]

/-- Flow 3 has a packet, and its node is left alone. -/
theorem alone_call_example : ∃ s,
    Cores.run exampleSwitch exampleHeaders freshSwitch (exampleActions.take 5) = some s ∧
    s.buffers (.ringFlows 3) = [shortPacket] ∧
    Ends exampleSwitch 1 (flows2nodes exampleSwitch 1 (s.context exampleSwitch 1)) s := by
  obtain ⟨s, hs, hring, hstands, hroom⟩ : ∃ s,
      Cores.run exampleSwitch exampleHeaders freshSwitch (exampleActions.take 5) = some s ∧
      s.buffers (.ringFlows 3) = [shortPacket] ∧
      Stands exampleSwitch 1 .check (s.context exampleSwitch 1) s ∧
      (s.context exampleSwitch 1).outputRing.length < 20 :=
    ⟨_, rfl, rfl, ⟨rfl, rfl, rfl⟩, by decide⟩
  exact ⟨s, hs, hring, alone_call hstands hroom⟩

end Alone

end Dpdk

end VPifo
