import VPifo.Dpdk.Transmit
import Mathlib.Algebra.BigOperators.Group.List.Basic
import Mathlib.Logic.Function.Basic

/-!
# The output queues of the software switch

`packet_enqueue` checks the queue length of the port, and the buffer, marks the packet for ECN,
and answers 0 or why the packet was dropped.  The queue length is the difference of two counters,
one of which the transmitter counts.

The packet is never dropped: the condition before the call of `rte_ring_sp_enqueue` is always true
(`ret == 0||true`).  And the counters count it even if the ring is full and refuses it.  So a run
is truthful as long as every packet passes the checks and finds room in the ring, and no longer
(`truthful_iff`).
-/

namespace VPifo

namespace Dpdk

/-! ## `output_queue.c` -/

/-- The ports. -/
abbrev Switch := ℕ → Port

section Enqueue

variable (c : Config)

/-- `get_qlen_bytes`. -/
def getQlenBytes (s : Switch) (portId : ℕ) : UInt32 :=
  (s portId).qlenBytesIn - (s portId).qlenBytesOut

/-- `get_buff_occu_bytes`. -/
def getBuffOccuBytes (s : Switch) : UInt32 :=
  (List.range c.nPorts.toNat).foldl (fun result i => result + getQlenBytes s i) 0

/-- `qlen_threshold_equal_division`. -/
def qlenThresholdEqualDivision : UInt32 := c.buffSizeBytes / c.nPorts

/-- `qlen_threshold_dt`. -/
def qlenThresholdDt (s : Switch) : UInt32 :=
  (c.buffSizeBytes - getBuffOccuBytes c s) <<< c.dtShiftAlpha

/-- `app.get_threshold`. -/
def getThreshold (s : Switch) : UInt32 :=
  match c.policy with
  | .equalDivision => qlenThresholdEqualDivision c
  | .dynamicThreshold => qlenThresholdDt c s

/-- `mark_packet_with_ecn`, without the checksum. -/
def markPacketWithEcn (pkt : Packet) : ℤ × Packet :=
  if pkt.isIPv4 then
    if pkt.typeOfService &&& 3 ≠ 0 then
      (0, { pkt with typeOfService := pkt.typeOfService ||| 3 })
    else (-2, pkt)
  else (-1, pkt)

/-- The checks of `packet_enqueue`: 0, or why the packet is to be dropped. -/
def checkBuffer (s : Switch) (dstPort : ℕ) (pkt : Packet) : ℤ :=
  let qlenEnque := getQlenBytes s dstPort + pkt.pktLen
  if c.sharedMemory then
    if getThreshold c s < qlenEnque then -1
    else if c.buffSizeBytes < getBuffOccuBytes c s + pkt.pktLen then -2
    else 0
  else if c.buffSizePerPortBytes < qlenEnque then -2
  else 0

/-- Whether a packet that comes now is marked. -/
def markPkt (s : Switch) (dstPort : ℕ) : Bool :=
  c.ecnEnable && decide (c.ecnThreshKb <<< 10 ≤ getQlenBytes s dstPort)

/-- What `packet_enqueue` answers, and the packet, which may have been marked. -/
def checkPacket (s : Switch) (dstPort : ℕ) (pkt : Packet) : ℤ × Packet :=
  let ret := checkBuffer c s dstPort pkt
  if ret = 0 ∧ markPkt c s dstPort then
    let mark := markPacketWithEcn pkt
    (if mark.1 < 0 then -3 else ret, mark.2)
  else (ret, pkt)

/-- `rte_ring_sp_enqueue`, where a full ring refuses the packet. -/
def spEnqueue (ring : List Packet) (pkt : Packet) : List Packet :=
  if ring.length < c.ringTxSize then ring ++ [pkt] else ring

/-- `packet_enqueue`.  The packet goes into the ring whatever the checks have said, and it is
counted whatever the ring says. -/
def packetEnqueue (s : Switch) (dstPort : ℕ) (pkt : Packet) : ℤ × Switch :=
  let r := checkPacket c s dstPort pkt
  let p := s dstPort
  (r.1, Function.update s dstPort { p with
    ring := spEnqueue c p.ring r.2
    qlenBytesIn := p.qlenBytesIn + pkt.pktLen
    qlenPktsIn := p.qlenPktsIn + 1 })

end Enqueue

/-! ## Runs -/

/-- A call of one of the two functions. -/
inductive Event where
  | enqueue (dstPort : ℕ) (pkt : Packet)
  | tx (portId : ℕ) (currentTime : UInt64) (answers : List ℕ)

/-- A call, with the state before and after it. -/
structure Step where
  before : Switch
  event : Event
  after : Switch

section Run

variable (c : Config)

/-- The ports after a call. -/
def step (s : Switch) : Event → Option Switch
  | .enqueue dstPort pkt => some (packetEnqueue c s dstPort pkt).2
  | .tx portId currentTime answers =>
    (appMainTxPort c (s portId) currentTime answers).map fun p => Function.update s portId p

/-- The ports after some calls, and what has happened. -/
def run : List Event → Switch → Option (Switch × List Step)
  | [], s => some (s, [])
  | e :: events, s =>
    (step c s e).bind fun s' => (run events s').map fun r => (r.1, ⟨s, e, s'⟩ :: r.2)

/-- The bytes in the tx ring of a port. -/
def queueBytes (s : Switch) (i : ℕ) : ℕ := ((s i).ring.map fun pkt => pkt.pktLen.toNat).sum

/-- The packet has been put into the ring. -/
def Step.Put (st : Step) (dstPort : ℕ) (pkt : Packet) : Prop :=
  ∃ q, q.id = pkt.id ∧ (st.after dstPort).ring = (st.before dstPort).ring ++ [q]

/-- A call reports and accounts truthfully. -/
structure Truthful (st : Step) : Prop where
  returns : ∀ dstPort pkt, st.event = .enqueue dstPort pkt →
    ((packetEnqueue c st.before dstPort pkt).1 = 0 ↔ st.Put dstPort pkt)
  dropped : ∀ dstPort pkt, st.event = .enqueue dstPort pkt →
    (packetEnqueue c st.before dstPort pkt).1 < 0 →
      (st.after dstPort).ring = (st.before dstPort).ring ∧
      (st.after dstPort).qlenBytesIn = (st.before dstPort).qlenBytesIn ∧
      (st.after dstPort).qlenPktsIn = (st.before dstPort).qlenPktsIn
  qlen : ∀ i, getQlenBytes st.after i = UInt32.ofNat (queueBytes st.after i)
  limit : c.sharedMemory = false →
    ∀ i, queueBytes st.after i ≤ c.buffSizePerPortBytes.toNat

/-- The packet passes the checks. -/
structure Admitted (s : Switch) (dstPort : ℕ) (pkt : Packet) : Prop where
  shared : c.sharedMemory = true → getQlenBytes s dstPort + pkt.pktLen ≤ getThreshold c s ∧
    getBuffOccuBytes c s + pkt.pktLen ≤ c.buffSizeBytes
  perPort : c.sharedMemory = false → getQlenBytes s dstPort + pkt.pktLen ≤ c.buffSizePerPortBytes
  ecn : markPkt c s dstPort = true → pkt.isIPv4 = true ∧ pkt.typeOfService &&& 3 ≠ 0

/-- If the call is one of `packet_enqueue`, the packet passes the checks, the ring has room for it,
and without shared memory the queue length does not overflow. -/
def Fits (st : Step) : Prop :=
  ∀ dstPort pkt, st.event = .enqueue dstPort pkt → Admitted c st.before dstPort pkt ∧
    (st.before dstPort).ring.length < c.ringTxSize ∧
    (c.sharedMemory = false → queueBytes st.before dstPort + pkt.pktLen.toNat < 2 ^ 32)

instance (s : Switch) (dstPort : ℕ) (pkt : Packet) : Decidable (Admitted c s dstPort pkt) :=
  decidable_of_iff
    ((c.sharedMemory = true → getQlenBytes s dstPort + pkt.pktLen ≤ getThreshold c s ∧
        getBuffOccuBytes c s + pkt.pktLen ≤ c.buffSizeBytes) ∧
      (c.sharedMemory = false → getQlenBytes s dstPort + pkt.pktLen ≤ c.buffSizePerPortBytes) ∧
      (markPkt c s dstPort = true → pkt.isIPv4 = true ∧ pkt.typeOfService &&& 3 ≠ 0))
    ⟨fun h => ⟨h.1, h.2.1, h.2.2⟩, fun h => ⟨h.shared, h.perPort, h.ecn⟩⟩

instance : DecidablePred (Fits c)
  | ⟨s, .enqueue dstPort pkt, _⟩ =>
    decidable_of_iff (Admitted c s dstPort pkt ∧ (s dstPort).ring.length < c.ringTxSize ∧
        (c.sharedMemory = false → queueBytes s dstPort + pkt.pktLen.toNat < 2 ^ 32))
      ⟨by rintro h _ _ ⟨⟩; exact h, fun h => h dstPort pkt rfl⟩
  | ⟨_, .tx _ _ _, _⟩ => isTrue fun _ _ h => Event.noConfusion h

/-- What holds between the calls of a truthful run. -/
structure Accounted (s : Switch) : Prop where
  qlen : ∀ i, getQlenBytes s i = UInt32.ofNat (queueBytes s i)
  limit : c.sharedMemory = false → ∀ i, queueBytes s i ≤ c.buffSizePerPortBytes.toNat

end Run

/-! ## One call -/

section Step

variable {c : Config} {s s' : Switch} {dstPort : ℕ} {pkt : Packet}

/-- The packet in the ring is the packet that came. -/
theorem checkPacket_snd (s : Switch) (dstPort : ℕ) (pkt : Packet) :
    (checkPacket c s dstPort pkt).2.id = pkt.id ∧
      (checkPacket c s dstPort pkt).2.pktLen = pkt.pktLen := by
  have hmark : (markPacketWithEcn pkt).2.id = pkt.id ∧
      (markPacketWithEcn pkt).2.pktLen = pkt.pktLen := by
    rw [markPacketWithEcn]
    split_ifs <;> exact ⟨rfl, rfl⟩
  rw [checkPacket]
  dsimp only
  split
  · exact hmark
  · exact ⟨rfl, rfl⟩

theorem checkBuffer_nonpos (s : Switch) (dstPort : ℕ) (pkt : Packet) :
    checkBuffer c s dstPort pkt ≤ 0 := by
  rw [checkBuffer]
  split_ifs <;> decide

theorem checkBuffer_eq_zero_iff (s : Switch) (dstPort : ℕ) (pkt : Packet) :
    checkBuffer c s dstPort pkt = 0 ↔
    (c.sharedMemory = true → getQlenBytes s dstPort + pkt.pktLen ≤ getThreshold c s ∧
      getBuffOccuBytes c s + pkt.pktLen ≤ c.buffSizeBytes) ∧
    (c.sharedMemory = false →
      getQlenBytes s dstPort + pkt.pktLen ≤ c.buffSizePerPortBytes) := by
  rw [checkBuffer]
  by_cases hshared : c.sharedMemory = true
  · simp only [hshared, if_true, true_implies, Bool.true_eq_false, false_implies, and_true,
      ← UInt32.not_lt]
    split_ifs with hthreshold hbuffer
    · simp [hthreshold]
    · simp [hbuffer]
    · simp [hthreshold, hbuffer]
  · rw [Bool.not_eq_true] at hshared
    simp only [hshared, Bool.false_eq_true, if_false, false_implies, true_implies, true_and,
      ← UInt32.not_lt]
    split_ifs with hport
    · simp [hport]
    · simp [hport]

/-- **The answer** is never positive, and 0 when the packet passes the checks. -/
theorem checkPacket_fst (s : Switch) (dstPort : ℕ) (pkt : Packet) :
    (checkPacket c s dstPort pkt).1 ≤ 0 ∧
      ((checkPacket c s dstPort pkt).1 = 0 ↔ Admitted c s dstPort pkt) := by
  have hle := checkBuffer_nonpos (c := c) s dstPort pkt
  have hzero := checkBuffer_eq_zero_iff (c := c) s dstPort pkt
  have hmark : (markPacketWithEcn pkt).1 < 0 ↔
      ¬(pkt.isIPv4 = true ∧ pkt.typeOfService &&& 3 ≠ 0) := by
    rw [markPacketWithEcn]
    split_ifs with hip htos
    · simp [hip, htos]
    · simp only [ne_eq, not_not] at htos
      simp [htos]
    · simp [hip]
  rw [checkPacket]
  dsimp only
  by_cases hbuffer : checkBuffer c s dstPort pkt = 0
  · obtain ⟨hshared, hport⟩ := hzero.mp hbuffer
    by_cases hpkt : markPkt c s dstPort = true
    · rw [if_pos ⟨hbuffer, hpkt⟩]
      dsimp only
      by_cases hneg : (markPacketWithEcn pkt).1 < 0
      · rw [if_pos hneg]
        exact ⟨by decide, iff_of_false (by decide) fun h => hmark.mp hneg (h.ecn hpkt)⟩
      · rw [if_neg hneg]
        exact ⟨hle, iff_of_true hbuffer
          ⟨hshared, hport, fun _ => not_not.mp fun h => hneg (hmark.mpr h)⟩⟩
    · rw [if_neg fun h => hpkt h.2]
      exact ⟨hle, iff_of_true hbuffer ⟨hshared, hport, fun h => absurd h hpkt⟩⟩
  · rw [if_neg fun h => hbuffer h.1]
    exact ⟨hle, iff_of_false hbuffer fun h => hbuffer (hzero.mpr ⟨h.shared, h.perPort⟩)⟩

/-- The ring and the counters after a call. -/
theorem packetEnqueue_snd (s : Switch) (dstPort : ℕ) (pkt : Packet) :
    ((packetEnqueue c s dstPort pkt).2 dstPort).ring =
      spEnqueue c (s dstPort).ring (checkPacket c s dstPort pkt).2 ∧
    ((packetEnqueue c s dstPort pkt).2 dstPort).qlenBytesIn =
      (s dstPort).qlenBytesIn + pkt.pktLen ∧
    ((packetEnqueue c s dstPort pkt).2 dstPort).qlenPktsIn = (s dstPort).qlenPktsIn + 1 ∧
    ((packetEnqueue c s dstPort pkt).2 dstPort).qlenBytesOut = (s dstPort).qlenBytesOut ∧
    ∀ i, i ≠ dstPort → (packetEnqueue c s dstPort pkt).2 i = s i := by
  rw [packetEnqueue]
  dsimp only
  rw [Function.update_self]
  exact ⟨rfl, rfl, rfl, rfl, fun i hi => Function.update_of_ne hi _ _⟩

/-- The packet is in the ring when the ring had room for it. -/
theorem put_iff :
    Step.Put ⟨s, .enqueue dstPort pkt, (packetEnqueue c s dstPort pkt).2⟩ dstPort pkt ↔
      (s dstPort).ring.length < c.ringTxSize := by
  rw [Step.Put]
  dsimp only
  rw [(packetEnqueue_snd s dstPort pkt).1, spEnqueue]
  split
  · next hroom => exact iff_of_true ⟨_, (checkPacket_snd s dstPort pkt).1, rfl⟩ hroom
  · next hfull =>
    refine iff_of_false ?_ hfull
    rintro ⟨q, -, hq⟩
    exact absurd (congrArg List.length hq) (by simp)

theorem ofNat_toNat_add (n : ℕ) (x : UInt32) :
    UInt32.ofNat (n + x.toNat) = UInt32.ofNat n + x := by
  rw [UInt32.ofNat_add, UInt32.ofNat_toNat]

/-- A packet that fits is counted and stays within the limit. -/
theorem Accounted.enqueue (h : Accounted c s) (hpkt : Admitted c s dstPort pkt)
    (hroom : (s dstPort).ring.length < c.ringTxSize)
    (hlt : c.sharedMemory = false → queueBytes s dstPort + pkt.pktLen.toNat < 2 ^ 32) :
    Accounted c (packetEnqueue c s dstPort pkt).2 := by
  obtain ⟨hring, hbytes, -, hout, hother⟩ := packetEnqueue_snd (c := c) s dstPort pkt
  have hqueue : queueBytes (packetEnqueue c s dstPort pkt).2 dstPort =
      queueBytes s dstPort + pkt.pktLen.toNat := by
    rw [queueBytes, hring, spEnqueue, if_pos hroom, List.map_append, List.sum_append,
      List.map_singleton, List.sum_singleton, (checkPacket_snd s dstPort pkt).2, queueBytes]
  have hsame : ∀ i, i ≠ dstPort →
      queueBytes (packetEnqueue c s dstPort pkt).2 i = queueBytes s i := by
    intro i hi
    rw [queueBytes, hother i hi, queueBytes]
  refine ⟨fun i => ?_, fun hshared i => ?_⟩
  · by_cases hi : i = dstPort
    · subst hi
      rw [hqueue, ofNat_toNat_add, ← h.qlen, getQlenBytes, getQlenBytes, hbytes, hout]
      exact add_sub_right_comm _ _ _
    · rw [hsame i hi, ← h.qlen, getQlenBytes, hother i hi, getQlenBytes]
  · by_cases hi : i = dstPort
    · subst hi
      have hle := UInt32.le_iff_toNat_le.mp (hpkt.perPort hshared)
      rw [h.qlen, ← ofNat_toNat_add, UInt32.toNat_ofNat', Nat.mod_eq_of_lt (hlt hshared)] at hle
      rw [hqueue]
      exact hle
    · rw [hsame i hi]
      exact h.limit hshared i

/-- The transmitter takes from the queue what it counts. -/
theorem Accounted.tx (h : Accounted c s) {portId : ℕ} {now : UInt64} {answers : List ℕ} {p : Port}
    (hp : appMainTxPort c (s portId) now answers = some p) :
    Accounted c (Function.update s portId p) := by
  obtain ⟨hring, hout, hin, -⟩ := appMainTxPort_spec hp
  have hqueue : queueBytes s portId =
      bytesOf (taken c (s portId) now) + queueBytes (Function.update s portId p) portId := by
    rw [queueBytes, queueBytes, Function.update_self, hring, List.map_append, List.sum_append,
      bytesOf]
    cases taken c (s portId) now <;> simp
  have hlen : ((taken c (s portId) now).map Packet.pktLen).getD 0 =
      UInt32.ofNat (bytesOf (taken c (s portId) now)) := by
    rw [bytesOf]
    cases taken c (s portId) now with
    | none => rfl
    | some pkt => exact (UInt32.ofNat_toNat (x := pkt.pktLen)).symm
  have hsame : ∀ i, i ≠ portId → Function.update s portId p i = s i :=
    fun i hi => Function.update_of_ne hi _ _
  refine ⟨fun i => ?_, fun hshared i => ?_⟩
  · by_cases hi : i = portId
    · subst hi
      have hqlen := h.qlen i
      rw [hqueue, UInt32.ofNat_add, getQlenBytes] at hqlen
      rw [getQlenBytes, Function.update_self, hout, hin, hlen, ← sub_sub, hqlen,
        add_sub_cancel_left]
    · rw [getQlenBytes, hsame i hi, queueBytes, hsame i hi]
      exact h.qlen i
  · have hle := h.limit hshared i
    by_cases hi : i = portId
    · subst hi
      omega
    · rw [queueBytes, hsame i hi]
      exact hle

/-- **When a call is truthful**, if the calls before were. -/
theorem truthful_step_iff (h : Accounted c s) {e : Event} (he : step c s e = some s') :
    Truthful c ⟨s, e, s'⟩ ↔ Fits c ⟨s, e, s'⟩ := by
  cases e with
  | tx portId now answers =>
    obtain ⟨p, hp, rfl⟩ := Option.map_eq_some_iff.mp he
    obtain ⟨hqlen, hlimit⟩ := h.tx hp
    exact iff_of_true ⟨fun _ _ h => Event.noConfusion h, fun _ _ h => Event.noConfusion h, hqlen,
      hlimit⟩ fun _ _ h => Event.noConfusion h
  | enqueue dstPort pkt =>
    obtain rfl := Option.some.inj he
    obtain ⟨hring, hbytes, hpkts, -, -⟩ := packetEnqueue_snd (c := c) s dstPort pkt
    obtain ⟨hnonpos, hzero⟩ := checkPacket_fst (c := c) s dstPort pkt
    constructor
    · rintro ⟨hreturns, hdropped, hqlen, hlimit⟩ _ _ ⟨⟩
      have hanswer : (packetEnqueue c s dstPort pkt).1 = 0 := by
        by_contra hne
        have hcounted := (hdropped dstPort pkt rfl (lt_of_le_of_ne hnonpos hne)).2.2
        dsimp only at hcounted
        rw [hpkts] at hcounted
        -- the packet was counted
        exact absurd (add_left_cancel (hcounted.trans (add_zero _).symm)) (by decide)
      have hroom := put_iff.mp ((hreturns dstPort pkt rfl).mp hanswer)
      refine ⟨hzero.mp hanswer, hroom, fun hshared => ?_⟩
      have hle := hlimit hshared dstPort
      dsimp only at hle
      rw [queueBytes, hring, spEnqueue, if_pos hroom, List.map_append, List.sum_append,
        List.map_singleton, List.sum_singleton, (checkPacket_snd s dstPort pkt).2] at hle
      exact lt_of_le_of_lt hle (UInt32.toNat_lt _)
    · intro hfits
      obtain ⟨hadmitted, hroom, hlt⟩ := hfits dstPort pkt rfl
      obtain ⟨hqlen, hlimit⟩ := h.enqueue hadmitted hroom hlt
      refine ⟨?_, ?_, hqlen, hlimit⟩
      · rintro _ _ ⟨⟩
        exact iff_of_true (hzero.mpr hadmitted) (put_iff.mpr hroom)
      · rintro _ _ ⟨⟩ hneg
        exact absurd (hzero.mpr hadmitted) (ne_of_lt hneg)

end Step

/-- At the start the counters are zero and the rings are empty. -/
def Fresh (s : Switch) : Prop :=
  ∀ i, (s i).ring = [] ∧ (s i).qlenBytesIn = 0 ∧ (s i).qlenBytesOut = 0

theorem Fresh.accounted {c : Config} {s : Switch} (h : Fresh s) : Accounted c s := by
  have hqueue : ∀ i, queueBytes s i = 0 := by
    intro i
    rw [queueBytes, (h i).1]
    rfl
  refine ⟨fun i => ?_, fun _ i => ?_⟩
  · rw [hqueue, getQlenBytes, (h i).2.1, (h i).2.2]
    rfl
  · rw [hqueue]
    exact Nat.zero_le _

/-- The calls of a run that is truthful so far. -/
theorem truthful_run_iff {c : Config} : ∀ {events : List Event} {s s' : Switch} {log : List Step},
    Accounted c s → run c events s = some (s', log) →
      ((∀ st ∈ log, Truthful c st) ↔ ∀ st ∈ log, Fits c st) := by
  intro events
  induction events with
  | nil =>
    intro s s' log _ h
    obtain ⟨rfl, rfl⟩ := Prod.mk.inj (Option.some.inj h)
    exact iff_of_true (fun st hst => absurd hst List.not_mem_nil)
      fun st hst => absurd hst List.not_mem_nil
  | cons e events ih =>
    intro s s' log hs h
    obtain ⟨s₁, hs₁, hrest⟩ := Option.bind_eq_some_iff.mp h
    obtain ⟨r, hr, hlog⟩ := Option.map_eq_some_iff.mp hrest
    obtain ⟨rfl, rfl⟩ := Prod.mk.inj hlog
    rw [List.forall_mem_cons, List.forall_mem_cons, truthful_step_iff hs hs₁]
    refine and_congr_right fun hfits => ih ?_ hr
    obtain ⟨-, -, hqlen, hlimit⟩ := (truthful_step_iff hs hs₁).mpr hfits
    exact ⟨hqlen, hlimit⟩

/-- **When `packet_enqueue` reports and accounts truthfully**: in a run of the two functions, from
empty queues, all calls are truthful if and only if every packet passes the checks and finds room
in the ring, and without shared memory no queue length overflows. -/
theorem truthful_iff (c : Config) (events : List Event) (s s' : Switch) (hs : Fresh s)
    (log : List Step) (h : run c events s = some (s', log)) :
    (∀ st ∈ log, Truthful c st) ↔ ∀ st ∈ log, Fits c st :=
  truthful_run_iff hs.accounted h

/-- Ports without a packet. -/
def freshSwitch : Switch := fun _ => Port.blank 0

theorem freshSwitch_fresh : Fresh freshSwitch := fun _ => ⟨rfl, rfl, rfl⟩

/-- One port with 1000 bytes of buffer, and no rate limit. -/
def smallBuffer : Config :=
  { smallBucket with buffSizePerPortBytes := 1000, txRateMbps := 0 }

/-- A packet of 600 bytes. -/
def shortPacket : Packet := ⟨1, 600, true, 0⟩

/-- A shared buffer of 4096 bytes, marking from 1024 bytes on, and no rate limit. -/
def sharedBuffer : Config :=
  { smallBucket with
    nPorts := 2
    buffSizeBytes := 4096
    sharedMemory := true
    policy := .dynamicThreshold
    ecnEnable := true
    ecnThreshKb := 1
    txRateMbps := 0 }

/-- Packets for both ports, of which port 0 sends one. -/
def sharedEvents : List Event :=
  [.enqueue 0 shortPacket, .enqueue 1 shortPacket, .enqueue 0 ⟨2, 600, true, 1⟩,
    .enqueue 0 ⟨3, 500, true, 1⟩, .tx 0 0 [1], .enqueue 0 ⟨4, 400, true, 2⟩]

/-- All packets fit; the last two come when there are 1024 bytes in the queue, and are marked. -/
theorem truthful_iff_sharedBuffer : ∃ s log,
    run sharedBuffer sharedEvents freshSwitch = some (s, log) ∧
      (s 0).ring = [⟨2, 600, true, 1⟩, ⟨3, 500, true, 3⟩, ⟨4, 400, true, 3⟩] ∧
      (s 1).ring = [shortPacket] ∧ ∀ st ∈ log, Truthful sharedBuffer st := by
  have hrun : (run sharedBuffer sharedEvents freshSwitch).any (fun r =>
      decide ((r.1 0).ring = [⟨2, 600, true, 1⟩, ⟨3, 500, true, 3⟩, ⟨4, 400, true, 3⟩] ∧
        (r.1 1).ring = [shortPacket] ∧ ∀ st ∈ r.2, Fits sharedBuffer st)) = true := by
    decide +kernel
  obtain ⟨⟨s, log⟩, hs, h⟩ := (Option.any_eq_true _ _).mp hrun
  obtain ⟨hport, hport', hfits⟩ := of_decide_eq_true h
  exact ⟨s, log, hs, hport, hport',
    (truthful_iff sharedBuffer sharedEvents freshSwitch s freshSwitch_fresh log hs).mpr hfits⟩

/-- The second of two packets of 600 bytes is dropped, says the answer, and it is in the queue,
which is now longer than the buffer. -/
theorem truthful_iff_fails :
    ∃ s, run smallBuffer [.enqueue 0 shortPacket, .enqueue 0 shortPacket] freshSwitch = some s ∧
      (packetEnqueue smallBuffer (packetEnqueue smallBuffer freshSwitch 0 shortPacket).2 0
        shortPacket).1 = -2 ∧
      (s.1 0).ring = [shortPacket, shortPacket] ∧ queueBytes s.1 0 = 1200 ∧
      ¬∀ st ∈ s.2, Truthful smallBuffer st := by
  refine ⟨_, rfl, by decide, rfl, by decide, fun htruthful => ?_⟩
  have hlimit := (htruthful _ (List.mem_cons_of_mem _ List.mem_cons_self)).limit rfl 0
  exact absurd hlimit (by decide)

end Dpdk

end VPifo
