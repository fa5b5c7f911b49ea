import Mathlib.Algebra.Ring.Nat
import Mathlib.Tactic.Common

/-!
# A TCP connection

`TcpControlBlock::process_segment`: the handshake, acknowledgements with the congestion window,
data, and the end of the peer's stream. Sequence numbers are 32-bit words. Where the source adds
with `+`, a build with overflow checks aborts and one without them wraps; both are modelled, and
what is shown here holds of both.

Two things are said about runs. The receiving side does not look at the sequence number of what
arrives, so it counts right as long as data arrives in order, and as long as no old segment comes
with an acknowledgement once the peer's stream has ended. The sending side compares
acknowledgements as plain numbers and takes any that is larger, so it is right as long as the
numbers in flight do not wrap and nobody acknowledges what was never sent.
-/

namespace Gaxera

inductive SessionState
  | created
  | connecting
  | established
  | halfClosed
  | closing
  | closed
  | destroyed
deriving DecidableEq, Repr

inductive CongestionState
  | slowStart
  | congestionAvoidance
  | fastRecovery
deriving DecidableEq, Repr

structure PendingSegment where
  seqNum : UInt32
  length : UInt32
  rtoTicks : UInt32
  retransmitCount : UInt32
deriving DecidableEq, Repr

structure TcpHeader where
  srcPort : UInt16
  dstPort : UInt16
  seqNum : UInt32
  ackNum : UInt32
  dataOffsetReserved : UInt8
  flags : UInt8
  windowSize : UInt16
  checksum : UInt16
  urgentPointer : UInt16
deriving DecidableEq, Repr

namespace TcpHeader

def finFlag : UInt8 := 0x01
def synFlag : UInt8 := 0x02
def ackFlag : UInt8 := 0x10

def isFin (h : TcpHeader) : Bool := h.flags &&& finFlag ≠ 0
def isSyn (h : TcpHeader) : Bool := h.flags &&& synFlag ≠ 0
def isAck (h : TcpHeader) : Bool := h.flags &&& ackFlag ≠ 0

end TcpHeader

/-- The fields of a connection that its segments are processed with. -/
structure TcpControlBlock where
  localPort : UInt16
  remotePort : UInt16
  state : SessionState
  sndNxt : UInt32
  sndUna : UInt32
  rcvNxt : UInt32
  rcvWnd : UInt16
  cwnd : UInt32
  ssthresh : UInt32
  congestionState : CongestionState
  dupAckCount : UInt32
  lastAckNum : UInt32
  retransmitQueue : List PendingSegment
deriving DecidableEq, Repr

/-- Addition with `+`, in a build with overflow checks or without. -/
def plainAdd (checks : Bool) (a b : UInt32) : Option UInt32 :=
  if checks ∧ 2 ^ 32 ≤ a.toNat + b.toNat then none else some (a + b)

/-- The segments that end behind an acknowledgement. -/
def retainUnacked (checks : Bool) (ack : UInt32) :
    List PendingSegment → Option (List PendingSegment)
  | [] => some []
  | seg :: segs =>
    (plainAdd checks seg.seqNum seg.length).bind fun stop ↦
      (retainUnacked checks ack segs).map fun rest ↦ if ack < stop then seg :: rest else rest

namespace TcpControlBlock

def new (localPort remotePort : UInt16) : TcpControlBlock where
  localPort := localPort
  remotePort := remotePort
  state := .created
  sndNxt := 1000
  sndUna := 1000
  rcvNxt := 0
  rcvWnd := 65535
  cwnd := 1460
  ssthresh := 65535
  congestionState := .slowStart
  dupAckCount := 0
  lastAckNum := 1000
  retransmitQueue := []

def reply (t : TcpControlBlock) (seqNum : UInt32) (flags : UInt8) : TcpHeader :=
  ⟨t.localPort, t.remotePort, seqNum, t.rcvNxt, 0x50, flags, t.rcvWnd, 0, 0⟩

/-- The window after a new acknowledgement. -/
def grow (checks : Bool) (t : TcpControlBlock) (bytesAcked : UInt32) : Option TcpControlBlock :=
  match t.congestionState with
  | .fastRecovery => some { t with cwnd := t.ssthresh, congestionState := .congestionAvoidance }
  | .slowStart =>
    (plainAdd checks t.cwnd (min bytesAcked 1460)).map fun cwnd ↦ { t with
      cwnd := cwnd
      congestionState := if t.ssthresh ≤ cwnd then .congestionAvoidance else .slowStart }
  | .congestionAvoidance =>
    if t.cwnd = 0 then none
    else (plainAdd checks t.cwnd (1460 * 1460 / t.cwnd)).map fun cwnd ↦ { t with cwnd := cwnd }

/-- The third duplicate asks for a retransmission at once, which ends the call. -/
def duplicateAck (checks : Bool) (t : TcpControlBlock) :
    Option (Option TcpHeader × TcpControlBlock) :=
  (plainAdd checks t.dupAckCount 1).bind fun count ↦
    if count = 3 then
      (plainAdd checks (max (t.cwnd / 2) (2 * 1460)) (3 * 1460)).map fun cwnd ↦
        (some (t.reply t.sndUna TcpHeader.ackFlag), { t with
          dupAckCount := count
          ssthresh := max (t.cwnd / 2) (2 * 1460)
          cwnd := cwnd
          congestionState := .fastRecovery })
    else if t.congestionState = .fastRecovery then
      (plainAdd checks t.cwnd 1460).map fun cwnd ↦
        (none, { t with dupAckCount := count, cwnd := cwnd })
    else some (none, { t with dupAckCount := count })

def processAck (checks : Bool) (t : TcpControlBlock) (ack : UInt32) (payloadLen : ℕ) :
    Option (Option TcpHeader × TcpControlBlock) :=
  if ack = t.lastAckNum ∧ payloadLen = 0 then t.duplicateAck checks
  else if t.sndUna < ack then
    (retainUnacked checks ack t.retransmitQueue).bind fun queue ↦
      ({ t with
        sndUna := ack
        lastAckNum := ack
        dupAckCount := 0
        retransmitQueue := queue }.grow checks (ack - t.sndUna)).map (none, ·)
  else some (none, t)

/-- Data, whatever its sequence number, and the end of the stream. -/
def processData (t : TcpControlBlock) (header : TcpHeader) (payloadLen : ℕ) :
    Option TcpHeader × TcpControlBlock :=
  let t := if 0 < payloadLen then { t with rcvNxt := t.rcvNxt + UInt32.ofNat payloadLen } else t
  if header.isFin then
    let t := { t with rcvNxt := t.rcvNxt + 1, state := .halfClosed }
    (some (t.reply t.sndNxt (TcpHeader.finFlag ||| TcpHeader.ackFlag)), t)
  else (none, t)

/-- What comes behind the acknowledgement, if the call has not ended there. -/
def afterAck (header : TcpHeader) (payloadLen : ℕ) :
    Option TcpHeader × TcpControlBlock → Option TcpHeader × TcpControlBlock
  | (some reply, t) => (some reply, t)
  | (none, t) => t.processData header payloadLen

def processSegment (checks : Bool) (t : TcpControlBlock) (header : TcpHeader) (payloadLen : ℕ) :
    Option (Option TcpHeader × TcpControlBlock) :=
  match t.state with
  | .created | .connecting =>
    if header.isSyn then
      let t := { t with rcvNxt := header.seqNum + 1, state := .established }
      some (some (t.reply t.sndNxt (TcpHeader.synFlag ||| TcpHeader.ackFlag)), t)
    else some (none, t)
  | .established =>
    if header.isAck then
      (t.processAck checks header.ackNum payloadLen).map (afterAck header payloadLen)
    else some (t.processData header payloadLen)
  | .halfClosed => some (none, if header.isAck then { t with state := .closed } else t)
  | _ => some (none, t)

/-! ## What a segment does -/

variable {checks : Bool} {t t' : TcpControlBlock} {ack : UInt32} {payloadLen : ℕ}
  {header : TcpHeader} {reply : Option TcpHeader}

/-- The stream that is sent is where it was. -/
structure SameSender (t t' : TcpControlBlock) : Prop where
  sndNxt : t'.sndNxt = t.sndNxt
  sndUna : t'.sndUna = t.sndUna
  lastAckNum : t'.lastAckNum = t.lastAckNum
  retransmitQueue : t'.retransmitQueue = t.retransmitQueue

/-- Both streams are. -/
structure SameStreams (t t' : TcpControlBlock) : Prop extends t.SameSender t' where
  state : t'.state = t.state
  rcvNxt : t'.rcvNxt = t.rcvNxt

theorem SameStreams.refl (t : TcpControlBlock) : t.SameStreams t := ⟨⟨rfl, rfl, rfl, rfl⟩, rfl, rfl⟩

theorem grow_sameStreams {bytesAcked : UInt32} (h : t.grow checks bytesAcked = some t') :
    t.SameStreams t' := by
  rw [grow] at h
  split at h
  · obtain rfl := Option.some.inj h
    exact ⟨⟨rfl, rfl, rfl, rfl⟩, rfl, rfl⟩
  · obtain ⟨cwnd, -, rfl⟩ := Option.map_eq_some_iff.mp h
    exact ⟨⟨rfl, rfl, rfl, rfl⟩, rfl, rfl⟩
  · split_ifs at h
    obtain ⟨cwnd, -, rfl⟩ := Option.map_eq_some_iff.mp h
    exact ⟨⟨rfl, rfl, rfl, rfl⟩, rfl, rfl⟩

theorem duplicateAck_sameStreams (h : t.duplicateAck checks = some (reply, t')) :
    t.SameStreams t' ∧ (reply ≠ none → t.dupAckCount + 1 = 3) := by
  obtain ⟨count, hcount, h⟩ := Option.bind_eq_some_iff.mp h
  obtain ⟨-, hcount⟩ := Option.ite_none_left_eq_some.mp hcount
  obtain rfl := Option.some.inj hcount
  split_ifs at h with hthree
  · obtain ⟨cwnd, -, h⟩ := Option.map_eq_some_iff.mp h
    obtain ⟨rfl, rfl⟩ := Prod.mk.inj h
    exact ⟨⟨⟨rfl, rfl, rfl, rfl⟩, rfl, rfl⟩, fun _ ↦ hthree⟩
  · obtain ⟨cwnd, -, h⟩ := Option.map_eq_some_iff.mp h
    obtain ⟨rfl, rfl⟩ := Prod.mk.inj h
    exact ⟨⟨⟨rfl, rfl, rfl, rfl⟩, rfl, rfl⟩, fun hne ↦ absurd rfl hne⟩
  · obtain ⟨rfl, rfl⟩ := Prod.mk.inj (Option.some.inj h)
    exact ⟨⟨⟨rfl, rfl, rfl, rfl⟩, rfl, rfl⟩, fun hne ↦ absurd rfl hne⟩

/-- The third acknowledgement of the same number that carries no data. -/
def ThirdDuplicate (t : TcpControlBlock) (header : TcpHeader) (payloadLen : ℕ) : Prop :=
  header.isAck = true ∧ header.ackNum = t.lastAckNum ∧ payloadLen = 0 ∧ t.dupAckCount + 1 = 3

/-- An acknowledgement that is larger as a number moves the sender. -/
structure Acknowledges (checks : Bool) (t : TcpControlBlock) (ack : UInt32) (t' : TcpControlBlock) :
    Prop where
  lt : t.sndUna < ack
  sndUna : t'.sndUna = ack
  lastAckNum : t'.lastAckNum = ack
  sndNxt : t'.sndNxt = t.sndNxt
  retain : retainUnacked checks ack t.retransmitQueue = some t'.retransmitQueue

/-- **What an acknowledgement does**: it moves the sender, or nothing; it never touches what was
received. -/
theorem processAck_cases (h : t.processAck checks ack payloadLen = some (reply, t')) :
    t'.state = t.state ∧ t'.rcvNxt = t.rcvNxt ∧ (t.SameStreams t' ∨ t.Acknowledges checks ack t')
      ∧ (reply ≠ none → ack = t.lastAckNum ∧ payloadLen = 0 ∧ t.dupAckCount + 1 = 3) := by
  rw [processAck] at h
  split_ifs at h with hdup hlt
  · obtain ⟨hsame, hreply⟩ := duplicateAck_sameStreams h
    exact ⟨hsame.state, hsame.rcvNxt, .inl hsame, fun hne ↦ ⟨hdup.1, hdup.2, hreply hne⟩⟩
  · obtain ⟨queue, hqueue, h⟩ := Option.bind_eq_some_iff.mp h
    obtain ⟨t₁, hgrow, h⟩ := Option.map_eq_some_iff.mp h
    obtain ⟨rfl, rfl⟩ := Prod.mk.inj h
    obtain ⟨⟨hsndNxt, hsndUna, hlastAckNum, hretransmitQueue⟩, hstate, hrcvNxt⟩ :=
      grow_sameStreams hgrow
    refine ⟨hstate, hrcvNxt, .inr ⟨hlt, hsndUna, hlastAckNum, hsndNxt, ?_⟩,
      fun hne ↦ absurd rfl hne⟩
    rw [hretransmitQueue]
    exact hqueue
  · obtain ⟨rfl, rfl⟩ := Prod.mk.inj (Option.some.inj h)
    exact ⟨rfl, rfl, .inl (.refl t), fun hne ↦ absurd rfl hne⟩

/-- Data and the end of the stream are counted, and the sender is left alone. -/
theorem processData_eq (t : TcpControlBlock) (header : TcpHeader) (payloadLen : ℕ) :
    (t.processData header payloadLen).2 = { t with
      rcvNxt := t.rcvNxt + UInt32.ofNat payloadLen + if header.isFin then 1 else 0
      state := if header.isFin then .halfClosed else t.state } := by
  rw [processData]
  rcases Nat.eq_zero_or_pos payloadLen with rfl | hpos
  · rcases header.isFin <;> simp
  · rcases header.isFin <;> simp [hpos]

/-- **A segment of an established connection** is an acknowledgement, and then data. -/
theorem processSegment_established (hstate : t.state = .established)
    (h : t.processSegment checks header payloadLen = some (reply, t')) :
    ∃ t₁, t₁.state = .established ∧ t₁.rcvNxt = t.rcvNxt
      ∧ (t.SameStreams t₁ ∨ header.isAck = true ∧ t.Acknowledges checks header.ackNum t₁)
      ∧ (t' = t₁ ∧ t.ThirdDuplicate header payloadLen
        ∨ t' = (t₁.processData header payloadLen).2) := by
  rw [processSegment, hstate] at h
  dsimp only at h
  split_ifs at h with hack
  · obtain ⟨⟨reply₁, t₁⟩, hprocess, h⟩ := Option.map_eq_some_iff.mp h
    obtain ⟨hstate₁, hrcvNxt, hsender, hreply⟩ := processAck_cases hprocess
    refine ⟨t₁, hstate₁.trans hstate, hrcvNxt, hsender.imp_right fun hmoves ↦ ⟨hack, hmoves⟩, ?_⟩
    rcases reply₁ with _ | reply₁
    · exact .inr (congrArg Prod.snd h).symm
    · exact .inl ⟨(congrArg Prod.snd h).symm, hack, hreply nofun⟩
  · exact ⟨t, hstate, rfl, .inl (.refl t), .inr (congrArg Prod.snd (Option.some.inj h)).symm⟩

/-! ## Receiving -/

/-- A segment as it arrives, and where its first byte is in the stream of the peer. -/
structure Arrival where
  header : TcpHeader
  payloadLen : ℕ
  offset : ℕ
deriving DecidableEq, Repr

def received (arrivals : List Arrival) (position : ℕ) : Bool :=
  arrivals.any fun a ↦ a.offset ≤ position ∧ position < a.offset + a.payloadLen

/-- The first `n` bytes of the stream have been received, and the next one has not. -/
def LongestPrefix (arrivals : List Arrival) (n : ℕ) : Prop :=
  (∀ position < n, received arrivals position = true) ∧ received arrivals n = false

def finished (arrivals : List Arrival) : Bool := arrivals.any fun a ↦ a.header.isFin

/-- The test of RFC 793: the first place of the segment or its last one is in the window behind the
first `n` bytes, and behind the end of the stream if that has arrived. -/
def InWindow (arrivals : List Arrival) (n : ℕ) (wnd : UInt16) (a : Arrival) : Prop :=
  let next := n + if finished arrivals then 1 else 0
  let last := a.offset + (a.payloadLen + (if a.header.isFin then 1 else 0) - 1)
  next ≤ a.offset ∧ a.offset < next + wnd.toNat ∨ next ≤ last ∧ last < next + wnd.toNat

/-- A segment that has arrived before or is not in the window. -/
def Stale (arrivals : List Arrival) (n : ℕ) (wnd : UInt16) (a : Arrival) : Prop :=
  a ∈ arrivals ∨ ¬InWindow arrivals n wnd a

/-- While the connection is established, data and the end of the stream arrive in order and find the
window open, and the end does not come as the third duplicate of an acknowledgement. Later, all data
is old, and the acknowledgement that closes the connection is not in a stale segment. -/
def Expected (arrivals : List Arrival) (t : TcpControlBlock) (a : Arrival) : Prop :=
  ∃ n, LongestPrefix arrivals n ∧
    if t.state = .established then
      0 < a.payloadLen ∨ a.header.isFin = true → a.offset = n ∧ 0 < t.rcvWnd.toNat
        ∧ ¬(a.header.isFin = true ∧ t.ThirdDuplicate a.header a.payloadLen)
    else
      (0 < a.payloadLen → a.offset + a.payloadLen ≤ n)
        ∧ (t.state = .halfClosed → a.header.isAck = true → ¬Stale arrivals n t.rcvWnd a)

/-- Runs in which every segment is one that is expected. The stream starts behind the initial
sequence number `isn` of the peer. -/
inductive Orderly (checks : Bool) (isn : UInt32) (t₀ : TcpControlBlock) :
    List Arrival → TcpControlBlock → Prop
  | start : Orderly checks isn t₀ [] t₀
  | segment {arrivals : List Arrival} {t t' : TcpControlBlock} {a : Arrival}
      {reply : Option TcpHeader} (run : Orderly checks isn t₀ arrivals t)
      (seqNum : a.header.seqNum = isn + 1 + UInt32.ofNat a.offset)
      (expected : Expected arrivals t a)
      (step : t.processSegment checks a.header a.payloadLen = some (reply, t')) :
      Orderly checks isn t₀ (arrivals ++ [a]) t'

/-- Neither of the two states in which a connection is opened. -/
def Opened (t : TcpControlBlock) : Prop := t.state ≠ .created ∧ t.state ≠ .connecting

/-- Once the connection is no longer established, nothing is counted, and only an acknowledgement
changes the state. -/
theorem processSegment_ended (hopened : t.Opened) (hstate : t.state ≠ .established)
    (h : t.processSegment checks header payloadLen = some (reply, t')) :
    t'.rcvNxt = t.rcvNxt ∧ t'.Opened ∧ t'.state ≠ .established
      ∧ (t'.state = t.state ∨ t.state = .halfClosed ∧ header.isAck = true) := by
  rw [processSegment] at h
  split at h
  · next hs => exact absurd hs hopened.1
  · next hs => exact absurd hs hopened.2
  · next hs => exact absurd hs hstate
  · next hs =>
    obtain ⟨-, rfl⟩ := Prod.mk.inj (Option.some.inj h)
    split_ifs with hack
    · exact ⟨rfl, ⟨nofun, nofun⟩, nofun, .inr ⟨hs, hack⟩⟩
    · exact ⟨rfl, hopened, hstate, .inl rfl⟩
  · obtain ⟨-, rfl⟩ := Prod.mk.inj (Option.some.inj h)
    exact ⟨rfl, hopened, hstate, .inl rfl⟩

/-- **A segment of an established connection** is counted, unless its end of the stream is lost. -/
theorem processSegment_receives (hestablished : t.state = .established)
    (hend : ¬(header.isFin = true ∧ t.ThirdDuplicate header payloadLen))
    (h : t.processSegment checks header payloadLen = some (reply, t')) :
    t'.rcvNxt = t.rcvNxt + UInt32.ofNat payloadLen + (if header.isFin then 1 else 0)
      ∧ t'.Opened ∧ (t'.state = .established ↔ header.isFin = false) := by
  obtain ⟨t₁, hstate₁, hrcvNxt, -, hdata⟩ := processSegment_established hestablished h
  rcases hdata with ⟨rfl, hthird⟩ | rfl
  · -- the call ends with the acknowledgement, so there must have been nothing behind it
    have hfin : header.isFin = false := Bool.eq_false_iff.mpr fun hfin ↦ hend ⟨hfin, hthird⟩
    rw [hrcvNxt, hthird.2.2.1, hfin, hstate₁, Opened, hstate₁]
    simp
  · rw [processData_eq, Opened]
    dsimp only
    rw [hrcvNxt, hstate₁]
    rcases header.isFin <;> simp

theorem LongestPrefix.unique {arrivals : List Arrival} {n m : ℕ} (h : LongestPrefix arrivals n)
    (h' : LongestPrefix arrivals m) : n = m := by
  rcases Nat.lt_trichotomy n m with hlt | heq | hlt
  · exact absurd ((h'.1 n hlt).symm.trans h.2) nofun
  · exact heq
  · exact absurd ((h.1 m hlt).symm.trans h'.2) nofun

/-- What was received is the first `n` bytes of the stream, and they are counted. -/
structure Counts (isn : UInt32) (arrivals : List Arrival) (t : TcpControlBlock) (n : ℕ) : Prop where
  received : ∀ position, received arrivals position = true ↔ position < n
  rcvNxt : t.rcvNxt = isn + 1 + UInt32.ofNat n + if finished arrivals then 1 else 0
  opened : t.Opened
  finished : t.state = .established ↔ finished arrivals = false

variable {isn : UInt32} {t₀ : TcpControlBlock} {arrivals : List Arrival} {n : ℕ} {a : Arrival}

theorem Counts.longestPrefix (h : Counts isn arrivals t n) : LongestPrefix arrivals n :=
  ⟨fun position hlt ↦ (h.received position).mpr hlt,
    Bool.eq_false_iff.mpr fun hn ↦ Nat.lt_irrefl n ((h.received n).mp hn)⟩

/-- **An expected segment** moves the count by the data in it that is new. -/
theorem Counts.step (h : Counts isn arrivals t n) (hexpected : Expected arrivals t a)
    (hstep : t.processSegment checks a.header a.payloadLen = some (reply, t')) :
    ∃ n', Counts isn (arrivals ++ [a]) t' n' := by
  obtain ⟨m, hm, hexpected⟩ := hexpected
  obtain rfl := h.longestPrefix.unique hm
  have hfin : TcpControlBlock.finished (arrivals ++ [a]) =
      (TcpControlBlock.finished arrivals || a.header.isFin) := by
    simp [TcpControlBlock.finished]
  have hin (position : ℕ) : TcpControlBlock.received (arrivals ++ [a]) position = true ↔
      position < n ∨ a.offset ≤ position ∧ position < a.offset + a.payloadLen := by
    rw [← h.received]
    simp [TcpControlBlock.received]
  by_cases hestablished : t.state = .established
  · rw [if_pos hestablished] at hexpected
    have hopen := h.finished.mp hestablished
    obtain ⟨hcount, hopened, hstate⟩ := processSegment_receives hestablished
      (fun hend ↦ (hexpected (.inr hend.1)).2.2 hend) hstep
    refine ⟨n + a.payloadLen, fun position ↦ ?_, ?_, hopened, ?_⟩
    · rw [hin]
      rcases Nat.eq_zero_or_pos a.payloadLen with hzero | hpos
      · omega
      · have hoffset := (hexpected (.inl hpos)).1
        omega
    · rw [hcount, h.rcvNxt, hfin, hopen, Bool.false_or, UInt32.ofNat_add]
      simp [UInt32.add_assoc]
    · rw [hstate, hfin, hopen, Bool.false_or]
  · rw [if_neg hestablished] at hexpected
    have hended := Bool.of_not_eq_false fun hopen ↦ hestablished (h.finished.mpr hopen)
    obtain ⟨hcount, hopened, hstate, -⟩ := processSegment_ended h.opened hestablished hstep
    refine ⟨n, fun position ↦ ?_, ?_, hopened, ?_⟩
    · rw [hin]
      have := hexpected.1
      omega
    · rw [hcount, h.rcvNxt, hfin, hended, Bool.true_or]
    · rw [hfin, hended]
      exact iff_of_false hstate nofun

/-- A stale segment that is expected has neither data nor an end while the connection is
established, and no acknowledgement when that would close it. -/
theorem Counts.stale (h : Counts isn arrivals t n) (hexpected : Expected arrivals t a)
    (hstale : Stale arrivals n t.rcvWnd a)
    (hstep : t.processSegment checks a.header a.payloadLen = some (reply, t')) :
    t'.rcvNxt = t.rcvNxt ∧ t'.state = t.state := by
  obtain ⟨m, hm, hexpected⟩ := hexpected
  obtain rfl := h.longestPrefix.unique hm
  by_cases hestablished : t.state = .established
  · rw [if_pos hestablished] at hexpected
    have hopen := h.finished.mp hestablished
    -- what starts at the first byte missing is new, and inside an open window
    have hnothing : ¬(0 < a.payloadLen ∨ a.header.isFin = true) := by
      intro hsome
      obtain ⟨hoffset, hwindow, -⟩ := hexpected hsome
      rcases hstale with hagain | hout
      · rcases hsome with hdata | hend
        · have hold := (h.received a.offset).mp
            (List.any_eq_true.mpr ⟨a, hagain, decide_eq_true ⟨le_rfl, by omega⟩⟩)
          omega
        · exact absurd (List.any_eq_true.mpr ⟨a, hagain, hend⟩) (Bool.not_eq_true _ ▸ hopen)
      · refine hout (.inl ?_)
        rw [hopen]
        exact ⟨by simp [hoffset], by simpa [hoffset] using hwindow⟩
    rw [not_or, Nat.not_lt, Nat.le_zero, Bool.not_eq_true] at hnothing
    obtain ⟨hcount, -, hstate⟩ := processSegment_receives hestablished
      (fun hend ↦ absurd hend.1 (by simp [hnothing.2])) hstep
    rw [hcount, hnothing.1, hnothing.2, hstate.mpr hnothing.2, hestablished]
    exact ⟨by simp, rfl⟩
  · rw [if_neg hestablished] at hexpected
    obtain ⟨hcount, -, -, hstate⟩ := processSegment_ended h.opened hestablished hstep
    exact ⟨hcount, hstate.resolve_right fun hcloses ↦ hexpected.2 hcloses.1 hcloses.2 hstale⟩

/-- **The receiver counts what arrives in order.** In every run of expected segments on an
established connection, the next number expected is behind the longest beginning of the stream that
was received, and behind its end if that has arrived; and whatever state the connection has come to,
an expected segment that has arrived before or is not in the window changes neither that number nor
the state. -/
theorem receiver_counts_stream_in_order (checks : Bool) (isn : UInt32) (t₀ : TcpControlBlock)
    (hstate : t₀.state = .established) (hrcvNxt : t₀.rcvNxt = isn + 1) (arrivals : List Arrival)
    (t : TcpControlBlock) (hrun : Orderly checks isn t₀ arrivals t) :
    ∃ n, LongestPrefix arrivals n
      ∧ t.rcvNxt = isn + 1 + UInt32.ofNat n + (if finished arrivals then 1 else 0)
      ∧ ∀ a reply t', Expected arrivals t a → Stale arrivals n t.rcvWnd a →
        t.processSegment checks a.header a.payloadLen = some (reply, t') →
          t'.rcvNxt = t.rcvNxt ∧ t'.state = t.state := by
  have hcounts : ∃ n, Counts isn arrivals t n := by
    induction hrun with
    | start => exact ⟨0, by simp [received], by simp [finished, hrcvNxt], by simp [Opened, hstate],
        by simp [finished, hstate]⟩
    | segment _ _ expected step ih =>
      obtain ⟨n, hn⟩ := ih
      exact hn.step expected step
  obtain ⟨n, hn⟩ := hcounts
  exact ⟨n, hn.longestPrefix, hn.rcvNxt, fun a reply t' hexpected hstale hstep ↦
    hn.stale hexpected hstale hstep⟩

/-- An established connection that expects byte 101, and four bytes that start there. -/
def sample : TcpControlBlock := { new 80 54321 with state := .established, rcvNxt := 101 }

def fourBytes : Arrival := ⟨⟨54321, 80, 101, 1000, 0x50, TcpHeader.ackFlag, 65535, 0, 0⟩, 4, 0⟩

theorem receiver_counts_four_bytes :
    ∃ reply t, sample.processSegment true fourBytes.header 4 = some (reply, t)
      ∧ t.rcvNxt = 105 := by
  obtain ⟨reply, t, hstep⟩ : ∃ reply t, sample.processSegment true fourBytes.header 4
      = some (reply, t) := ⟨_, _, rfl⟩
  have hexpected : Expected [] sample fourBytes :=
    ⟨0, ⟨nofun, rfl⟩, fun _ ↦ ⟨rfl, by decide, fun h ↦ absurd h.1 (by decide)⟩⟩
  obtain ⟨n, hn, hcount, -⟩ := receiver_counts_stream_in_order true 100 sample rfl rfl _ t
    (.segment .start rfl hexpected hstep)
  obtain rfl := hn.unique (m := 4) ⟨by decide, by decide⟩
  exact ⟨reply, t, hstep, hcount⟩

/-- The same four bytes arrive twice, and are counted twice. -/
theorem duplicate_is_counted_again :
    ∃ t t', (sample.processSegment true fourBytes.header 4).map Prod.snd = some t
      ∧ (t.processSegment true fourBytes.header 4).map Prod.snd = some t'
      ∧ LongestPrefix [fourBytes, fourBytes] 4 ∧ t.rcvNxt = 105 ∧ t'.rcvNxt = 109 :=
  ⟨_, _, rfl, rfl, ⟨by decide, by decide⟩, by decide, by decide⟩

/-! ## Sending -/

/-- **What a segment does to the sender**, in any state. -/
theorem processSegment_sender (h : t.processSegment checks header payloadLen = some (reply, t')) :
    t.SameSender t' ∨ header.isAck = true ∧ t.Acknowledges checks header.ackNum t' := by
  by_cases hestablished : t.state = .established
  · obtain ⟨t₁, -, -, hsender, hdata⟩ := processSegment_established hestablished h
    rcases hdata with ⟨rfl, -⟩ | rfl
    · exact hsender.imp_left SameStreams.toSameSender
    · rw [processData_eq]
      rcases hsender with hsame | ⟨hack, hmoves⟩
      · exact .inl ⟨hsame.sndNxt, hsame.sndUna, hsame.lastAckNum, hsame.retransmitQueue⟩
      · exact .inr ⟨hack, hmoves.lt, hmoves.sndUna, hmoves.lastAckNum, hmoves.sndNxt,
          hmoves.retain⟩
  · -- in the other states at most `rcvNxt` and `state` change
    left
    have hkeeps {r : Option TcpHeader} {u : TcpControlBlock}
        (h : some (r, u) = some (reply, t')) (hu : t.SameSender u) : t.SameSender t' :=
      (Prod.mk.inj (Option.some.inj h)).2 ▸ hu
    rw [processSegment] at h
    split at h
    · split_ifs at h
      · exact hkeeps h ⟨rfl, rfl, rfl, rfl⟩
      · exact hkeeps h ⟨rfl, rfl, rfl, rfl⟩
    · split_ifs at h
      · exact hkeeps h ⟨rfl, rfl, rfl, rfl⟩
      · exact hkeeps h ⟨rfl, rfl, rfl, rfl⟩
    · next hs => exact absurd hs hestablished
    · refine hkeeps h ?_
      split_ifs
      · exact ⟨rfl, rfl, rfl, rfl⟩
      · exact ⟨rfl, rfl, rfl, rfl⟩
    · exact hkeeps h ⟨rfl, rfl, rfl, rfl⟩

/-- Segments one behind the other, from one sequence number to another. -/
def Queued (start : UInt32) : List PendingSegment → UInt32 → Prop
  | [], stop => start = stop
  | seg :: segs, stop => seg.seqNum = start ∧ Queued (start + seg.length) segs stop

def bytesQueued (segs : List PendingSegment) : ℕ := (segs.map fun seg ↦ seg.length.toNat).sum

/-- How far a sequence number is behind `base`. -/
def offset (base x : UInt32) : ℕ := (x - base).toNat

/-- Some byte of the segment is not acknowledged yet. -/
def unacked (base una : UInt32) (seg : PendingSegment) : Bool :=
  offset base una < offset base seg.seqNum + seg.length.toNat

/-- What is acknowledged was sent, the queue has exactly the segments that are not acknowledged
entirely, and every byte on its way is in one of them. -/
structure SendsSafely (base : UInt32) (queued : List PendingSegment) (t : TcpControlBlock) :
    Prop where
  una_le : offset base t.sndUna ≤ offset base t.lastAckNum
  last_le : offset base t.lastAckNum ≤ offset base t.sndNxt
  queue : t.sndUna = base ∧ t.retransmitQueue = queued
    ∨ t.retransmitQueue = queued.filter (unacked base t.sndUna)
  covered : ∀ p, offset base t.sndUna ≤ p → p < offset base t.sndNxt →
    ∃ seg ∈ t.retransmitQueue, offset base seg.seqNum ≤ p
      ∧ p < offset base seg.seqNum + seg.length.toNat

/-- An acknowledgement of something that is on its way. -/
def InFlight (t : TcpControlBlock) (ack : UInt32) : Prop :=
  ack ≠ t.sndUna ∧ offset t.sndUna ack ≤ offset t.sndUna t.sndNxt

theorem offset_of_le {base x : UInt32} (h : base.toNat ≤ x.toNat) :
    offset base x = x.toNat - base.toNat :=
  UInt32.toNat_sub_of_le x base (UInt32.le_iff_toNat_le.mpr h)

theorem Queued.toNat_stop {start stop : UInt32} {segs : List PendingSegment}
    (h : Queued start segs stop) : stop.toNat = (start.toNat + bytesQueued segs) % 2 ^ 32 := by
  induction segs generalizing start with
  | nil =>
    obtain rfl : start = stop := h
    exact (Nat.mod_eq_of_lt start.toNat_lt).symm
  | cons seg segs ih =>
    rw [ih h.2, UInt32.toNat_add]
    simp only [bytesQueued, List.map_cons, List.sum_cons]
    omega

/-- Without a wrap, the segments lie side by side between two numbers. -/
theorem Queued.plain {start stop : UInt32} {segs : List PendingSegment} (h : Queued start segs stop)
    (hwrap : start.toNat + bytesQueued segs < 2 ^ 32) :
    (∀ seg ∈ segs, start.toNat ≤ seg.seqNum.toNat
      ∧ seg.seqNum.toNat + seg.length.toNat ≤ stop.toNat)
      ∧ ∀ p, start.toNat ≤ p → p < stop.toNat →
        ∃ seg ∈ segs, seg.seqNum.toNat ≤ p ∧ p < seg.seqNum.toNat + seg.length.toNat := by
  induction segs generalizing start with
  | nil =>
    obtain rfl : start = stop := h
    exact ⟨nofun, fun p hlo hhi ↦ absurd hhi (Nat.not_lt.mpr hlo)⟩
  | cons seg segs ih =>
    obtain ⟨rfl, hrest⟩ := h
    have hbytes : bytesQueued (seg :: segs) = seg.length.toNat + bytesQueued segs := rfl
    have hnext : (seg.seqNum + seg.length).toNat = seg.seqNum.toNat + seg.length.toNat := by
      rw [UInt32.toNat_add, Nat.mod_eq_of_lt (by omega)]
    have hstop := hrest.toNat_stop
    -- the first segment reaches to where the others begin
    obtain ⟨hinside, hcover⟩ := ih hrest (by omega)
    rw [hnext] at hinside hcover hstop
    rw [Nat.mod_eq_of_lt (by omega)] at hstop
    refine ⟨fun seg' hseg' ↦ ?_, fun p hlo hhi ↦ ?_⟩
    · rcases List.mem_cons.mp hseg' with rfl | hseg'
      · omega
      · have hseg := hinside seg' hseg'
        omega
    · by_cases hp : p < seg.seqNum.toNat + seg.length.toNat
      · exact ⟨seg, List.mem_cons_self, hlo, hp⟩
      · obtain ⟨seg', hseg', hp'⟩ := hcover p (Nat.not_lt.mp hp) hhi
        exact ⟨seg', List.mem_cons_of_mem _ hseg', hp'⟩

/-- Where no end wraps, the segments that are retained are those that end behind the number. -/
theorem retainUnacked_eq {segs segs' : List PendingSegment}
    (hends : ∀ seg ∈ segs, seg.seqNum.toNat + seg.length.toNat < 2 ^ 32)
    (h : retainUnacked checks ack segs = some segs') :
    segs' = segs.filter fun seg ↦ ack.toNat < seg.seqNum.toNat + seg.length.toNat := by
  induction segs generalizing segs' with
  | nil => exact (Option.some.inj h).symm
  | cons seg segs ih =>
    obtain ⟨stop, hstop, h⟩ := Option.bind_eq_some_iff.mp h
    obtain ⟨rest, hrest, rfl⟩ := Option.map_eq_some_iff.mp h
    obtain ⟨-, hstop⟩ := Option.ite_none_left_eq_some.mp hstop
    obtain rfl := Option.some.inj hstop
    have hend := hends seg List.mem_cons_self
    rw [ih (fun seg' hseg' ↦ hends seg' (List.mem_cons_of_mem _ hseg')) hrest, List.filter_cons]
    simp only [UInt32.lt_iff_toNat_lt, UInt32.toNat_add, Nat.mod_eq_of_lt hend, decide_eq_true_eq]

/-- The connection at the start of a run: its last acknowledgement is the oldest number on its way,
segments are queued from there to the next number, and there is no wrap between the two. -/
structure Sending (t : TcpControlBlock) : Prop where
  last : t.lastAckNum = t.sndUna
  queued : Queued t.sndUna t.retransmitQueue t.sndNxt
  bytes : bytesQueued t.retransmitQueue < 2 ^ 32
  plain : t.sndUna ≤ t.sndNxt

/-- Runs in which nobody acknowledges a number behind the next one to be sent. -/
inductive Acked (checks : Bool) (t₀ : TcpControlBlock) : TcpControlBlock → Prop
  | start : Acked checks t₀ t₀
  | segment {t t' : TcpControlBlock} {header : TcpHeader} {payloadLen : ℕ}
      {reply : Option TcpHeader} (run : Acked checks t₀ t)
      (sent : header.isAck = true → header.ackNum ≤ t.sndNxt)
      (step : t.processSegment checks header payloadLen = some (reply, t')) : Acked checks t₀ t'

/-- The sender as plain numbers. -/
structure Plain (t₀ t : TcpControlBlock) : Prop where
  sndNxt : t.sndNxt = t₀.sndNxt
  last : t.lastAckNum = t.sndUna
  una_ge : t₀.sndUna.toNat ≤ t.sndUna.toNat
  una_le : t.sndUna.toNat ≤ t₀.sndNxt.toNat
  queue : t.sndUna = t₀.sndUna ∧ t.retransmitQueue = t₀.retransmitQueue
    ∨ t.retransmitQueue = t₀.retransmitQueue.filter fun seg ↦
      t.sndUna.toNat < seg.seqNum.toNat + seg.length.toNat

variable {t₀ : TcpControlBlock}

theorem Sending.inside (h : t₀.Sending) :
    (∀ seg ∈ t₀.retransmitQueue, t₀.sndUna.toNat ≤ seg.seqNum.toNat
        ∧ seg.seqNum.toNat + seg.length.toNat ≤ t₀.sndNxt.toNat)
      ∧ ∀ p, t₀.sndUna.toNat ≤ p → p < t₀.sndNxt.toNat → ∃ seg ∈ t₀.retransmitQueue,
        seg.seqNum.toNat ≤ p ∧ p < seg.seqNum.toNat + seg.length.toNat := by
  apply h.queued.plain
  have hstop := h.queued.toNat_stop
  have hbytes := h.bytes
  have hle := UInt32.le_iff_toNat_le.mp h.plain
  have hlt := t₀.sndUna.toNat_lt
  omega

/-- **A segment** whose acknowledgement is not behind the next number to be sent. -/
theorem Plain.step (h : t₀.Plain t) (h₀ : t₀.Sending)
    (hsent : header.isAck = true → header.ackNum ≤ t.sndNxt)
    (hstep : t.processSegment checks header payloadLen = some (reply, t')) :
    t₀.Plain t' ∧ (¬t.InFlight header.ackNum → t.SameSender t') := by
  rcases processSegment_sender hstep with hsame | ⟨hack, hmoves⟩
  · refine ⟨⟨hsame.sndNxt.trans h.sndNxt, ?_, ?_, ?_, ?_⟩, fun _ ↦ hsame⟩
    · rw [hsame.lastAckNum, hsame.sndUna, h.last]
    · rw [hsame.sndUna]
      exact h.una_ge
    · rw [hsame.sndUna]
      exact h.una_le
    · rw [hsame.sndUna, hsame.retransmitQueue]
      exact h.queue
  · have hlt := UInt32.lt_iff_toNat_lt.mp hmoves.lt
    have hle := UInt32.le_iff_toNat_le.mp (hsent hack)
    have hends : ∀ seg ∈ t.retransmitQueue, seg.seqNum.toNat + seg.length.toNat < 2 ^ 32 := by
      intro seg hseg
      have hmem : seg ∈ t₀.retransmitQueue := by
        rcases h.queue with ⟨-, heq⟩ | heq
        · exact heq ▸ hseg
        · exact (List.mem_filter.mp (heq ▸ hseg)).1
      exact Nat.lt_of_le_of_lt (h₀.inside.1 seg hmem).2 t₀.sndNxt.toNat_lt
    have hretain := retainUnacked_eq hends hmoves.retain
    refine ⟨⟨hmoves.sndNxt.trans h.sndNxt, ?_, ?_, ?_, .inr ?_⟩, fun hout ↦ absurd ?_ hout⟩
    · rw [hmoves.lastAckNum, hmoves.sndUna]
    · rw [hmoves.sndUna]
      exact Nat.le_trans h.una_ge (Nat.le_of_lt hlt)
    · rw [hmoves.sndUna, ← h.sndNxt]
      exact hle
    · rw [hretain, hmoves.sndUna]
      rcases h.queue with ⟨-, heq⟩ | heq
      · rw [heq]
      · -- what was acknowledged before is acknowledged now
        rw [heq, List.filter_filter]
        refine List.filter_congr fun seg _ ↦ ?_
        rw [← Bool.decide_and, decide_eq_decide]
        omega
    · refine ⟨fun heq ↦ absurd (heq ▸ hlt) (Nat.lt_irrefl _), ?_⟩
      rw [offset_of_le (Nat.le_of_lt hlt), offset_of_le (Nat.le_trans (Nat.le_of_lt hlt) hle)]
      omega

theorem Acked.plain (h : Acked checks t₀ t) (h₀ : t₀.Sending) : t₀.Plain t := by
  induction h with
  | start =>
    exact ⟨rfl, h₀.last, Nat.le_refl _, UInt32.le_iff_toNat_le.mp h₀.plain, .inl ⟨rfl, rfl⟩⟩
  | segment run sent step ih => exact (ih.step h₀ sent step).1

theorem Plain.sendsSafely (h : t₀.Plain t) (h₀ : t₀.Sending) :
    SendsSafely t₀.sndUna t₀.retransmitQueue t := by
  obtain ⟨hinside, hcover⟩ := h₀.inside
  have huna := offset_of_le h.una_ge
  have hnxt : offset t₀.sndUna t.sndNxt = t₀.sndNxt.toNat - t₀.sndUna.toNat := by
    rw [h.sndNxt]
    exact offset_of_le (UInt32.le_iff_toNat_le.mp h₀.plain)
  have hge := h.una_ge
  have hle := h.una_le
  -- `unacked` counts from `t₀.sndUna`, the queue was filtered by plain numbers
  have hunacked : ∀ seg ∈ t₀.retransmitQueue, unacked t₀.sndUna t.sndUna seg
      = decide (t.sndUna.toNat < seg.seqNum.toNat + seg.length.toNat) := by
    intro seg hseg
    have hseg' := (hinside seg hseg).1
    rw [unacked, huna, offset_of_le hseg', decide_eq_decide]
    omega
  refine ⟨?_, ?_, h.queue.imp_right ?_, fun p hlo hhi ↦ ?_⟩
  · exact Nat.le_of_eq (by rw [h.last])
  · rw [h.last, huna, hnxt]
    omega
  · intro hqueue
    rw [hqueue]
    exact (List.filter_congr hunacked).symm
  · obtain ⟨seg, hseg, hlo', hhi'⟩ := hcover (t₀.sndUna.toNat + p) (by omega) (by omega)
    have hmem : seg ∈ t.retransmitQueue := by
      rcases h.queue with ⟨-, heq⟩ | heq
      · exact heq ▸ hseg
      · rw [heq, List.mem_filter, decide_eq_true_eq]
        exact ⟨hseg, by omega⟩
    refine ⟨seg, hmem, ?_⟩
    rw [offset_of_le (hinside seg hseg).1]
    have hseg' := (hinside seg hseg).1
    omega

/-- **The sender is safe while nothing wraps and nothing is acknowledged that was not sent.** In
every such run the acknowledged numbers stay in order, the queue has exactly the segments that are
not acknowledged entirely, and they cover every byte on its way; and an acknowledgement of anything
else changes nothing. -/
theorem sender_safe_while_nothing_wraps (checks : Bool) (t₀ : TcpControlBlock) (h₀ : t₀.Sending)
    (t : TcpControlBlock) (hrun : Acked checks t₀ t) :
    SendsSafely t₀.sndUna t₀.retransmitQueue t
      ∧ ∀ header payloadLen reply t', (header.isAck = true → header.ackNum ≤ t.sndNxt) →
          t.processSegment checks header payloadLen = some (reply, t') →
          ¬t.InFlight header.ackNum →
            t'.sndUna = t.sndUna ∧ t'.retransmitQueue = t.retransmitQueue := by
  have h := hrun.plain h₀
  refine ⟨h.sendsSafely h₀, fun header payloadLen reply t' hsent hstep hout ↦ ?_⟩
  have hsame := (h.step h₀ hsent hstep).2 hout
  exact ⟨hsame.sndUna, hsame.retransmitQueue⟩

/-- Two segments are on their way, and the first of them is acknowledged. -/
theorem sender_of_two_segments :
    let t₀ := { sample with
      sndNxt := 1030, retransmitQueue := [⟨1000, 10, 0, 0⟩, ⟨1010, 20, 0, 0⟩] }
    let ack : TcpHeader := ⟨54321, 80, 101, 1010, 0x50, TcpHeader.ackFlag, 0, 0, 0⟩
    ((t₀.processSegment true ack 0).map fun r ↦ r.2.retransmitQueue) = some [⟨1010, 20, 0, 0⟩]
      ∧ ∀ reply t, t₀.processSegment true ack 0 = some (reply, t) →
        SendsSafely 1000 t₀.retransmitQueue t := by
  intro t₀ ack
  have h₀ : t₀.Sending := ⟨rfl, ⟨rfl, rfl, rfl⟩, by decide, by decide⟩
  refine ⟨by decide, fun reply t hstep ↦ ?_⟩
  exact (sender_safe_while_nothing_wraps true t₀ h₀ t (.segment .start (fun _ ↦ by decide) hstep)).1

/-- Nothing is on its way, and a forged acknowledgement moves the sender past all it has sent. -/
theorem forged_ack_is_accepted :
    sample.sndNxt = 1000 ∧ ¬sample.InFlight 5000
      ∧ ∃ t, (sample.processSegment true ⟨54321, 80, 101, 5000, 0x50, TcpHeader.ackFlag, 0, 0, 0⟩
          0).map Prod.snd = some t
        ∧ t.sndUna = 5000 ∧ ¬SendsSafely sample.sndUna sample.retransmitQueue t := by
  refine ⟨rfl, fun h ↦ absurd h.2 (by decide), _, rfl, rfl, fun h ↦ absurd h.last_le (by decide)⟩

end TcpControlBlock

end Gaxera
