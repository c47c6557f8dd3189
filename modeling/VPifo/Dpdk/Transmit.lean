import VPifo.Lib.Metered
import Mathlib.Data.List.Basic
import Mathlib.Data.UInt
import Mathlib.Tactic.GCongr
import Mathlib.Tactic.Ring

/-!
# The transmitter of the software switch

`app_main_tx_port` takes a packet from the tx ring of a port, collects a burst of them and hands
the burst to the network card.  A token bucket decides when it may take one: tokens accrue with
the time, the bucket holds twice `bucket_size`, and a packet is taken when there are at least
`bucket_size` tokens.

The comparison is not with the length of the packet.  So the subtraction that follows is safe
only if `bucket_size` is at least the length of the longest packet, while `config.c` admits any
value above the shortest and only warns about the others.  With less the tokens wrap around and
the limiter is off (`limitsRate_iff`).
-/

namespace VPifo

namespace Dpdk

/-- The shortest and the longest packet. -/
def ETHER_MIN_LEN : ℕ := 64

def ETHER_MAX_LEN : ℕ := 1518

/-- The scale of the tx rate. -/
def RATE_SCALE : UInt64 := 20

/-- A packet buffer: which one it is, its length, and what ECN marking looks at. -/
structure Packet where
  id : ℕ
  pktLen : UInt32
  isIPv4 : Bool
  typeOfService : UInt8
  deriving DecidableEq

/-- How the threshold of a port is found. -/
inductive Policy where
  | equalDivision
  | dynamicThreshold

/-- What `config.c` sets. -/
structure Config where
  nPorts : UInt32
  buffSizeBytes : UInt32
  buffSizePerPortBytes : UInt32
  sharedMemory : Bool
  policy : Policy
  dtShiftAlpha : UInt32
  ecnEnable : Bool
  ecnThreshKb : UInt32
  txRateMbps : UInt64
  bucketSize : UInt32
  burstSizeTxWrite : UInt32
  /-- How many packets a tx ring holds. -/
  ringTxSize : ℕ

/-- What the switch has for a port.  `wire` is what the network card has been given. -/
structure Port where
  ring : List Packet
  qlenBytesIn : UInt32
  qlenPktsIn : UInt32
  qlenBytesOut : UInt32
  qlenPktsOut : UInt32
  mbufTx : List Packet
  wire : List Packet
  txRateScale : UInt64
  prevTime : UInt64
  token : UInt64

/-- `app.bucket_size` for the size that is given, where `old` is the value from before. -/
def readBucketSize (given : ℤ) (old : UInt32) : UInt32 :=
  if ETHER_MIN_LEN < given then UInt32.ofNat (given % 2 ^ 32).toNat else old

section Transmit

variable (c : Config)

/-- `init_tx`. -/
def initTx (cpuFreq currentTime : UInt64) (p : Port) : Port :=
  { p with
    txRateScale := ((c.txRateMbps >>> 3) * 1000000) <<< RATE_SCALE / cpuFreq
    prevTime := currentTime
    token := c.bucketSize.toUInt64 }

/-- `MIN`. -/
def MIN (a b : UInt64) : UInt64 := if a < b then a else b

/-- The tokens after some more have accrued. -/
def refill (p : Port) (currentTime : UInt64) : UInt64 :=
  MIN (p.token + (p.txRateScale * (currentTime - p.prevTime)) >>> RATE_SCALE)
    (c.bucketSize <<< 1).toUInt64

/-- Packets are handed over, as many at a time as the network card takes, until all are.  There is
no result while it still takes some. -/
def txBurst : List ℕ → List Packet → Option (List Packet)
  | [], _ => none
  | nPkts :: answers, pkts =>
    if pkts.length ≤ nPkts then some pkts
    else (txBurst answers (pkts.drop nPkts)).map fun sent => pkts.take nPkts ++ sent

/-- `app_main_tx_port` at time `currentTime`.  `answers` is how many packets the network card takes
each time. -/
def appMainTxPort (p : Port) (currentTime : UInt64) (answers : List ℕ) : Option Port :=
  let token := if 0 < c.txRateMbps then refill c p currentTime else p.token
  let p := if 0 < c.txRateMbps then { p with prevTime := currentTime } else p
  if 0 < c.txRateMbps ∧ token < c.bucketSize.toUInt64 then some { p with token := token }
  else
    match p.ring with
    -- the tokens that have accrued are not stored here
    | [] => some p
    | pkt :: ring =>
      let p := { p with
        ring := ring
        qlenBytesOut := p.qlenBytesOut + pkt.pktLen
        qlenPktsOut := p.qlenPktsOut + 1
        token := if 0 < c.txRateMbps then token - pkt.pktLen.toUInt64 else p.token }
      let mbufs := p.mbufTx ++ [pkt]
      if mbufs.length < c.burstSizeTxWrite.toNat then some { p with mbufTx := mbufs }
      else (txBurst answers mbufs).map fun sent =>
        { p with mbufTx := [], wire := p.wire ++ sent }

end Transmit

/-! ## One call -/

section Call

variable {c : Config} {p p' : Port} {now : UInt64} {answers : List ℕ}

/-- All packets are handed over, in their order. -/
theorem txBurst_eq : ∀ {answers : List ℕ} {pkts sent : List Packet},
    txBurst answers pkts = some sent → sent = pkts := by
  intro answers
  induction answers with
  | nil => exact fun h => absurd h (by simp [txBurst])
  | cons n answers ih =>
    intro pkts sent h
    rw [txBurst] at h
    split at h
    · exact (Option.some.inj h).symm
    · obtain ⟨rest, hrest, rfl⟩ := Option.map_eq_some_iff.mp h
      rw [ih hrest, List.take_append_drop]

variable (c) in
/-- The packet that is taken. -/
def taken (p : Port) (now : UInt64) : Option Packet :=
  if 0 < c.txRateMbps ∧ refill c p now < c.bucketSize.toUInt64 then none else p.ring.head?

/-- The tokens that accrue until `now`. -/
def accrued (p : Port) (now : UInt64) : ℕ :=
  p.txRateScale.toNat * (now.toNat - p.prevTime.toNat) / 2 ^ 20

/-- The bytes of the packet that is taken. -/
def bytesOf (pkt : Option Packet) : ℕ := (pkt.map fun q => q.pktLen.toNat).getD 0

/-- **What a call does** to the ring, the counters and the tokens. -/
theorem appMainTxPort_spec (h : appMainTxPort c p now answers = some p') :
    p.ring = (taken c p now).toList ++ p'.ring ∧
    p'.qlenBytesOut = p.qlenBytesOut + ((taken c p now).map Packet.pktLen).getD 0 ∧
    p'.qlenBytesIn = p.qlenBytesIn ∧ p'.qlenPktsIn = p.qlenPktsIn ∧
    p'.txRateScale = p.txRateScale ∧
    p'.prevTime = (if 0 < c.txRateMbps then now else p.prevTime) ∧
    (0 < c.txRateMbps → p'.token = refill c p now - ((taken c p now).map
      fun q => q.pktLen.toUInt64).getD 0 ∨ p'.token = p.token ∧ taken c p now = none) ∧
    (¬0 < c.txRateMbps → p'.token = p.token) := by
  rw [appMainTxPort] at h
  rw [taken]
  by_cases hrate : 0 < c.txRateMbps
  · simp only [hrate, if_true, true_and] at h ⊢
    by_cases hlow : refill c p now < c.bucketSize.toUInt64
    · rw [if_pos hlow] at h
      rw [if_pos hlow, ← Option.some.inj h]
      simp
    · rw [if_neg hlow] at h
      rw [if_neg hlow]
      cases hring : p.ring with
      | nil =>
        rw [hring] at h
        rw [← Option.some.inj h]
        simp
      | cons pkt ring =>
        rw [hring] at h
        dsimp only at h
        split at h
        · rw [← Option.some.inj h]
          simp
        · obtain ⟨sent, -, rfl⟩ := Option.map_eq_some_iff.mp h
          simp
  · simp only [hrate, if_false, false_and] at h ⊢
    cases hring : p.ring with
    | nil =>
      rw [hring] at h
      rw [← Option.some.inj h]
      simp [hring]
    | cons pkt ring =>
      rw [hring] at h
      dsimp only at h
      split at h
      · rw [← Option.some.inj h]
        simp
      · obtain ⟨sent, -, rfl⟩ := Option.map_eq_some_iff.mp h
        simp

/-- A call comes to its end when the network card takes the burst. -/
theorem exists_appMainTxPort {n : ℕ} (hn : p.mbufTx.length + 1 ≤ n) :
    ∃ p', appMainTxPort c p now [n] = some p' := by
  have hburst : ∀ pkt, txBurst [n] (p.mbufTx ++ [pkt]) = some (p.mbufTx ++ [pkt]) := fun pkt =>
    if_pos (by simpa using hn)
  rw [appMainTxPort]
  by_cases hrate : 0 < c.txRateMbps
  · simp only [hrate, if_true, true_and]
    split
    · exact ⟨_, rfl⟩
    · cases p.ring with
      | nil => exact ⟨_, rfl⟩
      | cons pkt ring =>
        dsimp only
        rw [hburst]
        split
        · exact ⟨_, rfl⟩
        · exact ⟨_, rfl⟩
  · simp only [hrate, if_false, false_and]
    cases p.ring with
    | nil => exact ⟨_, rfl⟩
    | cons pkt ring =>
      dsimp only
      rw [hburst]
      split
      · exact ⟨_, rfl⟩
      · exact ⟨_, rfl⟩

end Call

/-! ## Runs of one port -/

/-- A call of `app_main_tx_port`, and the packets that have come into the tx ring before it. -/
structure TxCall where
  arrivals : List Packet
  currentTime : UInt64
  answers : List ℕ

/-- What happens in a call: the tokens that accrue, those that are there when a packet is taken,
and the packet. -/
structure TxEntry where
  accrued : ℕ
  token : UInt64
  pkt : Option Packet

section Run

variable (c : Config)

/-- Packets come into the ring. -/
def Port.arrive (p : Port) (arrivals : List Packet) : Port := { p with ring := p.ring ++ arrivals }

/-- What the call does. -/
def entryOf (p : Port) (now : UInt64) : TxEntry :=
  ⟨accrued p now, refill c p now, taken c p now⟩

/-- The port after the calls, and what has happened in them. -/
def runTx : List TxCall → Port → Option (Port × List TxEntry)
  | [], p => some (p, [])
  | call :: calls, p =>
    (appMainTxPort c (p.arrive call.arrivals) call.currentTime call.answers).bind fun p' =>
      (runTx calls p').map fun r =>
        (r.1, entryOf c (p.arrive call.arrivals) call.currentTime :: r.2)

/-- Time does not go back, and the product with the elapsed time does not overflow. -/
def InStep (scale : UInt64) (now now' : UInt64) : Prop :=
  now ≤ now' ∧ scale.toNat * (now'.toNat - now.toNat) < 2 ^ 64

/-- The calls are in the order of time, and no packet is too long. -/
structure LegalCalls (p : Port) (calls : List TxCall) : Prop where
  times : List.IsChain (InStep p.txRateScale) (p.prevTime :: calls.map TxCall.currentTime)
  ring : ∀ pkt ∈ p.ring, pkt.pktLen.toNat ≤ ETHER_MAX_LEN
  arrivals : ∀ call ∈ calls, ∀ pkt ∈ call.arrivals, pkt.pktLen.toNat ≤ ETHER_MAX_LEN

/-- The bytes taken in some calls, and the tokens accrued. -/
def sentBytes (log : List TxEntry) : ℕ := (log.map fun e => bytesOf e.pkt).sum

def sumAccrued (log : List TxEntry) : ℕ := (log.map TxEntry.accrued).sum

/-- The token bucket limits the rate: no subtraction of a length from the tokens wraps around,
there are never more tokens than twice `bucket_size`, and in any stretch of calls of a port with
a rate limit no more bytes are taken than the bucket can hold and accrue in the stretch. -/
structure LimitsRate (c : Config) : Prop where
  noWrap : ∀ (p p' : Port) (calls : List TxCall) (log : List TxEntry),
    p.token = c.bucketSize.toUInt64 → LegalCalls p calls → runTx c calls p = some (p', log) →
      ∀ e ∈ log, ∀ pkt ∈ e.pkt, 0 < c.txRateMbps → pkt.pktLen.toNat ≤ e.token.toNat
  le_twice : ∀ (p p' : Port) (calls : List TxCall) (log : List TxEntry),
    p.token = c.bucketSize.toUInt64 → LegalCalls p calls → runTx c calls p = some (p', log) →
      p'.token.toNat ≤ 2 * c.bucketSize.toNat
  window : ∀ (p p' : Port) (calls : List TxCall) (log : List TxEntry),
    p.token = c.bucketSize.toUInt64 → LegalCalls p calls → runTx c calls p = some (p', log) →
      0 < c.txRateMbps → ∀ earlier stretch later, log = earlier ++ stretch ++ later →
        sentBytes stretch ≤ 2 * c.bucketSize.toNat + sumAccrued stretch

variable {c} {p p' : Port} {now : UInt64} {answers : List ℕ} {calls : List TxCall}
  {log : List TxEntry}

/-- The bucket overflows at twice its size, or less. -/
theorem refill_le (hle : p.prevTime ≤ now) :
    (refill c p now).toNat ≤ p.token.toNat + accrued p now ∧
      (refill c p now).toNat ≤ 2 * c.bucketSize.toNat := by
  have hsum : (p.token + (p.txRateScale * (now - p.prevTime)) >>> RATE_SCALE).toNat ≤
      p.token.toNat + accrued p now := by
    rw [UInt64.toNat_add, UInt64.toNat_shiftRight, UInt64.toNat_mul, UInt64.toNat_sub_of_le _ _ hle]
    refine (Nat.mod_le _ _).trans (Nat.add_le_add_left ?_ _)
    rw [Nat.shiftRight_eq_div_pow]
    exact Nat.div_le_div_right (Nat.mod_le _ _)
  have hcap : (c.bucketSize <<< 1).toUInt64.toNat ≤ 2 * c.bucketSize.toNat := by
    rw [UInt32.toNat_toUInt64, UInt32.toNat_shiftLeft, Nat.shiftLeft_eq]
    refine (Nat.mod_le _ _).trans ?_
    rw [Nat.mul_comm]
    exact Nat.mul_le_mul_right _ (by decide)
  rw [refill, MIN]
  split
  · next hlt =>
    rw [UInt64.lt_iff_toNat_lt] at hlt
    exact ⟨hsum, by omega⟩
  · next hlt =>
    rw [UInt64.lt_iff_toNat_lt] at hlt
    exact ⟨by omega, hcap⟩

/-- **A call pays for what it takes**, when a full bucket is enough for every packet. -/
theorem pays (hbucket : ETHER_MAX_LEN ≤ c.bucketSize.toNat) (hrate : 0 < c.txRateMbps)
    (hle : p.prevTime ≤ now) (hring : ∀ pkt ∈ p.ring, pkt.pktLen.toNat ≤ ETHER_MAX_LEN)
    (htoken : p.token.toNat ≤ 2 * c.bucketSize.toNat)
    (h : appMainTxPort c p now answers = some p') :
    p'.token.toNat + bytesOf (taken c p now) ≤ p.token.toNat + accrued p now ∧
      p'.token.toNat ≤ 2 * c.bucketSize.toNat ∧
      ∀ pkt ∈ taken c p now, pkt.pktLen.toNat ≤ (refill c p now).toNat := by
  obtain ⟨-, -, -, -, -, -, htoken', -⟩ := appMainTxPort_spec h
  obtain ⟨hrefill, hcap⟩ := refill_le (c := c) hle
  have hlen : ∀ pkt ∈ taken c p now, pkt.pktLen.toNat ≤ (refill c p now).toNat := by
    intro pkt hpkt
    rw [taken] at hpkt
    split at hpkt
    · exact absurd hpkt (by simp)
    · next hlow =>
      have henough : ¬refill c p now < c.bucketSize.toUInt64 := fun hlt => hlow ⟨hrate, hlt⟩
      rw [UInt64.lt_iff_toNat_lt, UInt32.toNat_toUInt64, not_lt] at henough
      exact (hring pkt (List.mem_of_mem_head? hpkt)).trans (hbucket.trans henough)
  rcases htoken' hrate with hnew | ⟨hnew, hnone⟩
  · cases hpkt : taken c p now with
    | none =>
      rw [hpkt] at hnew
      have hsame : p'.token = refill c p now := by simpa using hnew
      rw [hsame]
      exact ⟨by simpa [bytesOf] using hrefill, hcap, fun pkt h => absurd h (by simp)⟩
    | some pkt =>
      have hle' := hlen pkt (by rw [hpkt]; rfl)
      rw [hpkt] at hnew
      have hsub : p'.token.toNat = (refill c p now).toNat - pkt.pktLen.toNat := by
        rw [hnew]
        show (refill c p now - pkt.pktLen.toUInt64).toNat = _
        rw [UInt64.toNat_sub_of_le _ _ (by
          rw [UInt64.le_iff_toNat_le, UInt32.toNat_toUInt64]; exact hle'), UInt32.toNat_toUInt64]
      have hbytes : bytesOf (some pkt) = pkt.pktLen.toNat := rfl
      rw [hsub, hbytes]
      refine ⟨by omega, by omega, fun q hq => ?_⟩
      rw [← Option.some.inj hq]
      exact hle'
  · rw [hnew, hnone]
    exact ⟨Nat.le_add_right _ _, htoken, fun pkt h => absurd h (by simp)⟩

/-- **A run is metered.** -/
theorem metered_runTx (hbucket : ETHER_MAX_LEN ≤ c.bucketSize.toNat) (hrate : 0 < c.txRateMbps) :
    ∀ {calls : List TxCall} {p p' : Port} {log : List TxEntry}, LegalCalls p calls →
      p.token.toNat ≤ 2 * c.bucketSize.toNat → runTx c calls p = some (p', log) →
      Metered (2 * c.bucketSize.toNat) p.token.toNat
        (log.map fun e => (e.accrued, bytesOf e.pkt)) p'.token.toNat ∧
      ∀ e ∈ log, ∀ pkt ∈ e.pkt, pkt.pktLen.toNat ≤ e.token.toNat := by
  intro calls
  induction calls with
  | nil =>
    intro p p' log _ htoken h
    obtain ⟨rfl, rfl⟩ := Prod.mk.inj (Option.some.inj h)
    exact ⟨.nil htoken, fun e he => absurd he List.not_mem_nil⟩
  | cons call calls ih =>
    intro p p' log hlegal htoken h
    obtain ⟨p₁, hp₁, hrest⟩ := Option.bind_eq_some_iff.mp h
    obtain ⟨r, hr, hlog⟩ := Option.map_eq_some_iff.mp hrest
    obtain ⟨rfl, rfl⟩ := Prod.mk.inj hlog
    have htimes := hlegal.times
    rw [List.map_cons, List.isChain_cons_cons] at htimes
    have hring : ∀ pkt ∈ (p.arrive call.arrivals).ring, pkt.pktLen.toNat ≤ ETHER_MAX_LEN := by
      intro pkt hpkt
      rcases List.mem_append.mp hpkt with hpkt | hpkt
      · exact hlegal.ring pkt hpkt
      · exact hlegal.arrivals call List.mem_cons_self pkt hpkt
    obtain ⟨hpaid, hcap, hlen⟩ :=
      pays (p := p.arrive call.arrivals) hbucket hrate htimes.1.1 hring htoken hp₁
    obtain ⟨hsplit, -, -, -, hscale, hprev, -, -⟩ := appMainTxPort_spec hp₁
    rw [if_pos hrate] at hprev
    have hlegal' : LegalCalls p₁ calls := by
      refine ⟨by rw [hscale, hprev]; exact htimes.2, fun pkt hpkt => hring pkt ?_,
        fun x hx => hlegal.arrivals x (List.mem_cons_of_mem call hx)⟩
      rw [hsplit]
      exact List.mem_append_right _ hpkt
    obtain ⟨hmetered, hlens⟩ := ih hlegal' hcap hr
    exact ⟨.cons htoken hpaid hmetered, List.forall_mem_cons.mpr ⟨hlen, hlens⟩⟩

/-- Without a rate limit the tokens are not touched. -/
theorem token_runTx (hrate : ¬0 < c.txRateMbps) : ∀ {calls : List TxCall} {p p' : Port}
    {log : List TxEntry}, runTx c calls p = some (p', log) → p'.token = p.token := by
  intro calls
  induction calls with
  | nil =>
    intro p p' log h
    obtain ⟨rfl, rfl⟩ := Prod.mk.inj (Option.some.inj h)
    rfl
  | cons call calls ih =>
    intro p p' log h
    obtain ⟨p₁, hp₁, hrest⟩ := Option.bind_eq_some_iff.mp h
    obtain ⟨r, hr, hlog⟩ := Option.map_eq_some_iff.mp hrest
    obtain ⟨rfl, rfl⟩ := Prod.mk.inj hlog
    rw [ih hr]
    exact (appMainTxPort_spec hp₁).2.2.2.2.2.2.2 hrate

/-- A packet of the greatest length. -/
def longPacket : Packet := ⟨0, 1518, true, 0⟩

/-- A port before its first call, with so many tokens. -/
def Port.blank (token : UInt64) : Port := ⟨[], 0, 0, 0, 0, [], [], 0, 0, token⟩

/-- The first packet of a port, before any time has passed. -/
theorem legalCalls_longPacket (hring : p.ring = []) :
    LegalCalls p [⟨[longPacket], p.prevTime, [1]⟩] :=
  ⟨.cons_cons ⟨UInt64.le_refl _, by simp⟩ (.singleton _), by simp [hring],
    by simp [longPacket, ETHER_MAX_LEN]⟩

/-- **A small bucket pays with what it does not have**: at the beginning it is full, and the first
packet can be longer. -/
theorem not_noWrap (hbucket : c.bucketSize.toNat < ETHER_MAX_LEN) :
    ∃ p' token, runTx c [⟨[longPacket], 0, [1]⟩] (Port.blank c.bucketSize.toUInt64) =
      some (p', [⟨0, token, some longPacket⟩]) ∧ token.toNat < ETHER_MAX_LEN := by
  have hsmall : c.bucketSize.toNat < 1518 := hbucket
  -- no time has passed, and the bucket is full
  have hrefill : refill c ((Port.blank c.bucketSize.toUInt64).arrive [longPacket]) 0 =
      MIN c.bucketSize.toUInt64 (c.bucketSize <<< 1).toUInt64 := by
    rw [refill]
    congr 1
    show c.bucketSize.toUInt64 + ((0 : UInt64) * ((0 : UInt64) - 0)) >>> RATE_SCALE = _
    simp
  have hdouble : (c.bucketSize <<< 1).toUInt64.toNat = 2 * c.bucketSize.toNat := by
    have hone : (1 : UInt32).toNat % 32 = 1 := rfl
    rw [UInt32.toNat_toUInt64, UInt32.toNat_shiftLeft, Nat.shiftLeft_eq, hone]
    omega
  have htoken : (refill c ((Port.blank c.bucketSize.toUInt64).arrive [longPacket]) 0).toNat =
      c.bucketSize.toNat := by
    rw [hrefill, MIN]
    split
    · rw [UInt32.toNat_toUInt64]
    · next hlt =>
      rw [UInt64.lt_iff_toNat_lt, hdouble, UInt32.toNat_toUInt64] at hlt
      omega
  have henough : ¬refill c ((Port.blank c.bucketSize.toUInt64).arrive [longPacket]) 0 <
      c.bucketSize.toUInt64 := by
    rw [UInt64.lt_iff_toNat_lt, htoken, UInt32.toNat_toUInt64]
    exact lt_irrefl _
  have hentry : entryOf c ((Port.blank c.bucketSize.toUInt64).arrive [longPacket]) 0 =
      ⟨0, refill c ((Port.blank c.bucketSize.toUInt64).arrive [longPacket]) 0,
        some longPacket⟩ := by
    rw [entryOf, taken, if_neg fun h => henough h.2]
    simp [accrued, Port.arrive, Port.blank]
  obtain ⟨p', hp'⟩ : ∃ p', appMainTxPort c
      ((Port.blank c.bucketSize.toUInt64).arrive [longPacket]) 0 [1] = some p' :=
    exists_appMainTxPort le_rfl
  refine ⟨p', _, ?_, lt_of_eq_of_lt htoken hbucket⟩
  rw [runTx, ← hentry, hp']
  rfl

end Run

/-- With a bucket for the longest packet the rate is limited. -/
theorem limitsRate_of_bucketSize {c : Config} (hbucket : ETHER_MAX_LEN ≤ c.bucketSize.toNat)
    (hrate : 0 < c.txRateMbps) : LimitsRate c := by
  have hfull : ∀ {p : Port}, p.token = c.bucketSize.toUInt64 →
      p.token.toNat ≤ 2 * c.bucketSize.toNat := by
    intro p hp
    rw [hp, UInt32.toNat_toUInt64]
    omega
  refine ⟨fun p p' calls log hp hlegal hrun e he pkt hpkt _ => ?_,
    fun p p' calls log hp hlegal hrun => ?_,
    fun p p' calls log hp hlegal hrun _ earlier stretch later hlog => ?_⟩
  · exact (metered_runTx hbucket hrate hlegal (hfull hp) hrun).2 e he pkt hpkt
  · exact (metered_runTx hbucket hrate hlegal (hfull hp) hrun).1.le_cap'
  · obtain ⟨hmetered, -⟩ := metered_runTx hbucket hrate hlegal (hfull hp) hrun
    rw [hlog, List.map_append, List.map_append, List.append_assoc] at hmetered
    obtain ⟨b, -, hmiddle⟩ := hmetered.of_append
    obtain ⟨b', hstretch, -⟩ := hmiddle.of_append
    have htaken := hstretch.taken_le
    have hcap := hstretch.le_cap
    rw [List.map_map, List.map_map] at htaken
    have hsent : sentBytes stretch = (stretch.map (Prod.snd ∘ fun e =>
      (e.accrued, bytesOf e.pkt))).sum := rfl
    have hacc : sumAccrued stretch = (stretch.map (Prod.fst ∘ fun e =>
      (e.accrued, bytesOf e.pkt))).sum := rfl
    omega

/-- Without a rate limit the bucket stays as full as it was. -/
theorem limitsRate_of_noRate {c : Config} (hrate : ¬0 < c.txRateMbps) : LimitsRate c where
  noWrap _ _ _ _ _ _ _ _ _ _ _ hpos := absurd hpos hrate
  le_twice p p' calls log hp _ hrun := by
    rw [token_runTx hrate hrun, hp, UInt32.toNat_toUInt64]
    omega
  window _ _ _ _ _ _ _ hpos := absurd hpos hrate

/-- **When the token bucket limits the rate**: when `bucket_size`, as it is stored in 32 bits, is
at least the length of the longest packet, or there is no rate limit. -/
theorem limitsRate_iff (c : Config) (given : ℤ) (old : UInt32) :
    LimitsRate { c with bucketSize := readBucketSize given old } ↔
      c.txRateMbps = 0 ∨ ETHER_MAX_LEN ≤ (readBucketSize given old).toNat := by
  have hpos : 0 < c.txRateMbps ↔ c.txRateMbps ≠ 0 := by
    rw [UInt64.lt_iff_toNat_lt, ← UInt64.toNat_inj.ne]
    exact Nat.pos_iff_ne_zero
  constructor
  · intro hlimits
    by_contra hno
    obtain ⟨hrate, hsmall⟩ := not_or.mp hno
    obtain ⟨p', token, hrun, hlt⟩ :=
      not_noWrap (c := { c with bucketSize := readBucketSize given old }) (not_le.mp hsmall)
    have hle := hlimits.noWrap _ _ _ _ rfl (legalCalls_longPacket rfl) hrun _ List.mem_cons_self
      longPacket rfl (hpos.mpr hrate)
    exact absurd hle (not_le.mpr hlt)
  · intro h
    by_cases hrate : 0 < c.txRateMbps
    · exact limitsRate_of_bucketSize (h.resolve_left (hpos.mp hrate)) hrate
    · exact limitsRate_of_noRate hrate

/-- One port, a rate limit, and a bucket of 100 bytes. -/
def smallBucket : Config where
  nPorts := 1
  buffSizeBytes := 262144
  buffSizePerPortBytes := 262144
  sharedMemory := false
  policy := .equalDivision
  dtShiftAlpha := 0
  ecnEnable := false
  ecnThreshKb := 0
  txRateMbps := 1000
  bucketSize := readBucketSize 100 3200
  burstSizeTxWrite := 1
  ringTxSize := 1023

/-- The port at the start, with a clock of 2 GHz. -/
def startedPort : Port := initTx smallBucket 2000000000 0 (Port.blank 0)

/-- A packet of 1518 bytes is taken from a bucket of 100 tokens, and leaves almost 2^64 of them. -/
theorem limitsRate_fails :
    (∃ r, runTx smallBucket [⟨[longPacket], 0, [1]⟩] startedPort = some r ∧
      r.1.token = 18446744073709550198) ∧ ¬LimitsRate smallBucket := by
  have hrun : (runTx smallBucket [⟨[longPacket], 0, [1]⟩] startedPort).map (fun r => r.1.token) =
      some 18446744073709550198 := by decide +kernel
  obtain ⟨r, hr, htoken⟩ := Option.map_eq_some_iff.mp hrun
  refine ⟨⟨r, hr, htoken⟩, fun hlimits => ?_⟩
  have hle := hlimits.le_twice startedPort r.1 _ r.2 rfl (legalCalls_longPacket rfl) hr
  rw [htoken] at hle
  exact absurd hle (by decide)

end Dpdk

end VPifo
