import Gaxera.Data.BigEndian
import Gaxera.Net.Address
import Gaxera.Net.Tcp

/-!
# Packet headers

The parsers of the headers read fields at fixed places and hand on what comes behind the header. The
header of an IPv4 packet and that of a TCP segment say themselves how long they are, in words of
four bytes, in half a byte. Both parsers demand the 20 bytes that the fields take, and that the
length they are told is there; neither demands that this length is 20 bytes at least.

An access outside of the slice would stop the program. Here it is `none`, and `some none` is a
header that is refused.
-/

namespace Gaxera

/-! ## The code -/

def beU16At (bytes : List UInt8) (i : ℕ) : Option UInt16 := do
  let a ← bytes[i]?
  let b ← bytes[i + 1]?
  some (fromBeBytes16 a b)

def beU32At (bytes : List UInt8) (i : ℕ) : Option UInt32 := do
  let a ← bytes[i]?
  let b ← bytes[i + 1]?
  let c ← bytes[i + 2]?
  let d ← bytes[i + 3]?
  some (fromBeBytes32 a b c d)

/-- `&bytes[start..stop]`. -/
def slice (bytes : List UInt8) (start stop : ℕ) : Option (List UInt8) :=
  if start ≤ stop ∧ stop ≤ bytes.length then some ((bytes.take stop).drop start) else none

structure IcmpHeader where
  icmpType : UInt8
  code : UInt8
  checksum : UInt16
  restOfHeader : Vector UInt8 4
deriving DecidableEq, Repr

def IcmpHeader.parse (bytes : List UInt8) : Option (Option (IcmpHeader × List UInt8)) :=
  if bytes.length < 8 then some none
  else do
    let checksum ← beU16At bytes 2
    let rest ← fourAt bytes 4
    let icmpType ← bytes[0]?
    let code ← bytes[1]?
    let payload ← slice bytes 8 bytes.length
    some (some (⟨icmpType, code, checksum, rest⟩, payload))

structure Ipv4Header where
  versionIhl : UInt8
  dscpEcn : UInt8
  totalLen : UInt16
  identification : UInt16
  flagsFragment : UInt16
  ttl : UInt8
  protocol : UInt8
  checksum : UInt16
  srcIp : Ipv4Addr
  dstIp : Ipv4Addr
deriving DecidableEq, Repr

namespace Ipv4Header

/-- The length that a header gives itself. -/
def headerLen (versionIhl : UInt8) : ℕ := ((versionIhl &&& (0x0F : UInt8)) * 4).toNat

def parse (bytes : List UInt8) : Option (Option (Ipv4Header × List UInt8)) :=
  if bytes.length < 20 then some none
  else do
    let versionIhl ← bytes[0]?
    let totalLen ← beU16At bytes 2
    let protocol ← bytes[9]?
    let checksum ← beU16At bytes 10
    let srcIp ← fourAt bytes 12
    let dstIp ← fourAt bytes 16
    if bytes.length < headerLen versionIhl ∨ totalLen.toNat < headerLen versionIhl then some none
    else
      let payloadLen := totalLen.toNat - headerLen versionIhl
      if bytes.length < headerLen versionIhl + payloadLen then some none
      else do
        let payload ← slice bytes (headerLen versionIhl) (headerLen versionIhl + payloadLen)
        let dscpEcn ← bytes[1]?
        let identification ← beU16At bytes 4
        let flagsFragment ← beU16At bytes 6
        let ttl ← bytes[8]?
        some (some (⟨versionIhl, dscpEcn, totalLen, identification, flagsFragment, ttl, protocol,
          checksum, ⟨srcIp⟩, ⟨dstIp⟩⟩, payload))

end Ipv4Header

namespace TcpHeader

def headerLen (dataOffsetReserved : UInt8) : ℕ := ((dataOffsetReserved >>> 4) * 4).toNat

def parse (bytes : List UInt8) : Option (Option (TcpHeader × List UInt8)) :=
  if bytes.length < 20 then some none
  else do
    let srcPort ← beU16At bytes 0
    let dstPort ← beU16At bytes 2
    let seqNum ← beU32At bytes 4
    let ackNum ← beU32At bytes 8
    let dataOffsetReserved ← bytes[12]?
    let flags ← bytes[13]?
    let windowSize ← beU16At bytes 14
    let checksum ← beU16At bytes 16
    let urgentPointer ← beU16At bytes 18
    if bytes.length < headerLen dataOffsetReserved then some none
    else do
      let payload ← slice bytes (headerLen dataOffsetReserved) bytes.length
      some (some (⟨srcPort, dstPort, seqNum, ackNum, dataOffsetReserved, flags, windowSize,
        checksum, urgentPointer⟩, payload))

end TcpHeader

/-! ## What the parsers return -/

theorem slice_of_le {bytes : List UInt8} {start stop : ℕ} (h : start ≤ stop)
    (hstop : stop ≤ bytes.length) : slice bytes start stop = some ((bytes.take stop).drop start) :=
  if_pos ⟨h, hstop⟩

section Inside

-- of the bytes there are `n` at least
variable {bytes : List UInt8} {i n : ℕ} (hn : n ≤ bytes.length)

include hn

theorem byteAt_eq (h : i < n) : bytes[i]? = some (bytes.getD i 0) := by
  have hlt := Nat.lt_of_lt_of_le h hn
  rw [List.getElem?_eq_getElem hlt, List.getD_eq_getElem _ _ hlt]

theorem beU16At_eq (h : i + 1 < n) :
    beU16At bytes i = some (fromBeBytes16 (bytes.getD i 0) (bytes.getD (i + 1) 0)) := by
  rw [beU16At, byteAt_eq hn (Nat.lt_of_succ_lt h), byteAt_eq hn h]
  rfl

theorem beU32At_eq (h : i + 3 < n) : beU32At bytes i
    = some (fromBeBytes32 (bytes.getD i 0) (bytes.getD (i + 1) 0) (bytes.getD (i + 2) 0)
      (bytes.getD (i + 3) 0)) := by
  rw [beU32At, byteAt_eq hn (by omega), byteAt_eq hn (by omega), byteAt_eq hn (by omega),
    byteAt_eq hn h]
  rfl

theorem fourAt_eq (h : i + 3 < n) : fourAt bytes i
    = some #v[bytes.getD i 0, bytes.getD (i + 1) 0, bytes.getD (i + 2) 0,
      bytes.getD (i + 3) 0] := by
  rw [fourAt, byteAt_eq hn (by omega), byteAt_eq hn (by omega), byteAt_eq hn (by omega),
    byteAt_eq hn h]
  rfl

end Inside

theorem IcmpHeader.parse_of_le {bytes : List UInt8} (h : 8 ≤ bytes.length) : parse bytes
    = some (some (⟨bytes.getD 0 0, bytes.getD 1 0,
        fromBeBytes16 (bytes.getD 2 0) (bytes.getD 3 0),
        #v[bytes.getD 4 0, bytes.getD 5 0, bytes.getD 6 0, bytes.getD 7 0]⟩, bytes.drop 8)) := by
  rw [parse, if_neg (by omega), beU16At_eq h (by decide), fourAt_eq h (by decide),
    byteAt_eq h (by decide), byteAt_eq h (by decide), slice_of_le h (Nat.le_refl _),
    List.take_length]
  rfl

/-- The bytes of an ICMP header. -/
def IcmpHeader.bytes (header : IcmpHeader) : List UInt8 :=
  [header.icmpType, header.code] ++ toBeBytes16 header.checksum ++ header.restOfHeader.toList

@[simp] theorem IcmpHeader.length_bytes (header : IcmpHeader) : header.bytes.length = 8 := by
  simp [bytes, toBeBytes16]

/-- **An ICMP header is read back**, and nothing else is. -/
theorem IcmpHeader.parse_eq_some_iff {packet payload : List UInt8} {header : IcmpHeader} :
    parse packet = some (some (header, payload)) ↔ packet = header.bytes ++ payload := by
  constructor
  · intro hparse
    match packet, hparse with
    | a :: b :: c :: d :: e :: f :: g :: h :: data, hparse =>
      rw [parse_of_le (by simp)] at hparse
      obtain ⟨rfl, rfl⟩ := Prod.mk.inj (Option.some.inj (Option.some.inj hparse))
      simp [bytes]
  · rintro rfl
    rw [parse_of_le (by simp), List.drop_left' header.length_bytes]
    simp [bytes, toBeBytes16, toList_four, eq_four]

namespace Ipv4Header

theorem headerLen_eq (versionIhl : UInt8) : headerLen versionIhl = 4 * (versionIhl.toNat % 16) := by
  have hlow : (versionIhl &&& (0x0F : UInt8)).toNat = versionIhl.toNat % 16 :=
    Nat.and_two_pow_sub_one_eq_mod versionIhl.toNat 4
  rw [headerLen, UInt8.toNat_mul, hlow]
  change versionIhl.toNat % 16 * 4 % 2 ^ 8 = _
  omega

/-- The length of the whole packet, and the length of its header. -/
def totalLenOf (bytes : List UInt8) : ℕ :=
  (bytes.getD 2 0).toNat * 256 + (bytes.getD 3 0).toNat

def headerLenOf (bytes : List UInt8) : ℕ := 4 * ((bytes.getD 0 0).toNat % 16)

/-- The bytes are enough for the packet, and the packet for its header. -/
def Fits (bytes : List UInt8) : Prop :=
  20 ≤ bytes.length ∧ headerLenOf bytes ≤ totalLenOf bytes ∧ totalLenOf bytes ≤ bytes.length

instance (bytes : List UInt8) : Decidable (Fits bytes) := inferInstanceAs (Decidable (_ ∧ _ ∧ _))

/-- The fields at their places. -/
def fieldsOf (bytes : List UInt8) : Ipv4Header where
  versionIhl := bytes.getD 0 0
  dscpEcn := bytes.getD 1 0
  totalLen := fromBeBytes16 (bytes.getD 2 0) (bytes.getD 3 0)
  identification := fromBeBytes16 (bytes.getD 4 0) (bytes.getD 5 0)
  flagsFragment := fromBeBytes16 (bytes.getD 6 0) (bytes.getD 7 0)
  ttl := bytes.getD 8 0
  protocol := bytes.getD 9 0
  checksum := fromBeBytes16 (bytes.getD 10 0) (bytes.getD 11 0)
  srcIp := ⟨#v[bytes.getD 12 0, bytes.getD 13 0, bytes.getD 14 0, bytes.getD 15 0]⟩
  dstIp := ⟨#v[bytes.getD 16 0, bytes.getD 17 0, bytes.getD 18 0, bytes.getD 19 0]⟩

def payloadOf (bytes : List UInt8) : List UInt8 :=
  (bytes.take (totalLenOf bytes)).drop (headerLenOf bytes)

/-- **What is accepted**, and what it is taken for. -/
theorem parse_eq (bytes : List UInt8) :
    parse bytes = some (if Fits bytes then some (fieldsOf bytes, payloadOf bytes) else none) := by
  by_cases hshort : bytes.length < 20
  · rw [if_neg fun h : Fits bytes ↦ absurd h.1 (by omega)]
    exact if_pos hshort
  -- all the fields are there
  have hparse : parse bytes = _ := if_neg hshort
  have hlength := Nat.not_lt.mp hshort
  simp only [byteAt_eq hlength, beU16At_eq hlength, fourAt_eq hlength, Option.bind_eq_bind,
    Option.bind_some, toNat_fromBeBytes16, Nat.reduceAdd, Nat.reduceLT] at hparse
  have hheaderLen : headerLen (bytes.getD 0 0) = headerLenOf bytes := headerLen_eq _
  have htotalLen : (bytes.getD 2 0).toNat * 256 + (bytes.getD 3 0).toNat = totalLenOf bytes := rfl
  rw [hheaderLen, htotalLen] at hparse
  rw [hparse]
  by_cases hheader : bytes.length < headerLenOf bytes ∨ totalLenOf bytes < headerLenOf bytes
  · rw [if_pos hheader, if_neg fun h : Fits bytes ↦ ?_]
    have hle := h.2.1.trans h.2.2
    exact hheader.elim (Nat.not_lt.mpr hle) (Nat.not_lt.mpr h.2.1)
  rw [not_or, Nat.not_lt, Nat.not_lt] at hheader
  rw [if_neg (by omega), Nat.add_sub_cancel' hheader.2]
  by_cases htotal : bytes.length < totalLenOf bytes
  · rw [if_pos htotal, if_neg fun h : Fits bytes ↦ Nat.not_lt.mpr h.2.2 htotal]
  have hfits : Fits bytes := ⟨hlength, hheader.2, Nat.not_lt.mp htotal⟩
  rw [if_neg htotal, if_pos hfits, slice_of_le hheader.2 (Nat.not_lt.mp htotal)]
  rfl

end Ipv4Header

namespace TcpHeader

theorem headerLen_eq (dataOffsetReserved : UInt8) :
    headerLen dataOffsetReserved = 4 * (dataOffsetReserved.toNat / 16) := by
  have hlt := dataOffsetReserved.toNat_lt
  have hhigh : (dataOffsetReserved >>> 4).toNat = dataOffsetReserved.toNat / 16 :=
    Nat.shiftRight_eq_div_pow dataOffsetReserved.toNat 4
  rw [headerLen, UInt8.toNat_mul, hhigh]
  change dataOffsetReserved.toNat / 16 * 4 % 2 ^ 8 = _
  omega

def headerLenOf (bytes : List UInt8) : ℕ := 4 * ((bytes.getD 12 0).toNat / 16)

def Fits (bytes : List UInt8) : Prop := 20 ≤ bytes.length ∧ headerLenOf bytes ≤ bytes.length

instance (bytes : List UInt8) : Decidable (Fits bytes) := inferInstanceAs (Decidable (_ ∧ _))

def fieldsOf (bytes : List UInt8) : TcpHeader where
  srcPort := fromBeBytes16 (bytes.getD 0 0) (bytes.getD 1 0)
  dstPort := fromBeBytes16 (bytes.getD 2 0) (bytes.getD 3 0)
  seqNum :=
    fromBeBytes32 (bytes.getD 4 0) (bytes.getD 5 0) (bytes.getD 6 0) (bytes.getD 7 0)
  ackNum :=
    fromBeBytes32 (bytes.getD 8 0) (bytes.getD 9 0) (bytes.getD 10 0) (bytes.getD 11 0)
  dataOffsetReserved := bytes.getD 12 0
  flags := bytes.getD 13 0
  windowSize := fromBeBytes16 (bytes.getD 14 0) (bytes.getD 15 0)
  checksum := fromBeBytes16 (bytes.getD 16 0) (bytes.getD 17 0)
  urgentPointer := fromBeBytes16 (bytes.getD 18 0) (bytes.getD 19 0)

theorem parse_eq (bytes : List UInt8) :
    parse bytes = some (if Fits bytes then some (fieldsOf bytes, bytes.drop (headerLenOf bytes))
      else none) := by
  by_cases hshort : bytes.length < 20
  · rw [if_neg fun h : Fits bytes ↦ absurd h.1 (by omega)]
    exact if_pos hshort
  have hparse : parse bytes = _ := if_neg hshort
  have hlength := Nat.not_lt.mp hshort
  simp only [byteAt_eq hlength, beU16At_eq hlength, beU32At_eq hlength, Option.bind_eq_bind,
    Option.bind_some, Nat.reduceAdd, Nat.reduceLT] at hparse
  have hheaderLen : headerLen (bytes.getD 12 0) = headerLenOf bytes := headerLen_eq _
  rw [hheaderLen] at hparse
  rw [hparse]
  by_cases hheader : bytes.length < headerLenOf bytes
  · rw [if_pos hheader, if_neg fun h : Fits bytes ↦ Nat.not_lt.mpr h.2 hheader]
  have hfits : Fits bytes := ⟨hlength, Nat.not_lt.mp hheader⟩
  rw [if_neg hheader, if_pos hfits, slice_of_le hfits.2 (Nat.le_refl _), List.take_length]
  rfl

end TcpHeader

/-! ## Header lengths -/

section Lengths

variable {H : Type} {fits : Prop} {bytes : List UInt8} {fields : H} {data : List UInt8}

/-- What is accepted has a header of 20 bytes at least that is there, and the payload is what lies
between its end and `stop`. -/
def RespectsLength (result : Option (Option (H × List UInt8))) (bytes : List UInt8)
    (encodedLen stop : H → ℕ) : Prop :=
  ∀ header payload, result = some (some (header, payload)) →
    20 ≤ encodedLen header ∧ encodedLen header ≤ stop header ∧ stop header ≤ bytes.length
    ∧ payload = (bytes.take (stop header)).drop (encodedLen header)

theorem accepted_iff [Decidable fits] {header : H} {payload : List UInt8} :
    some (if fits then some (fields, data) else none) = some (some (header, payload))
      ↔ fits ∧ header = fields ∧ payload = data := by
  split_ifs with hfits
  · simp [hfits, eq_comm]
  · simp [hfits]

/-- A header that fits is respected unless it says that it is shorter than its fields. -/
theorem respectsLength_iff [Decidable fits] {encodedLen stop : H → ℕ}
    (hfits : fits → encodedLen fields ≤ stop fields ∧ stop fields ≤ bytes.length
      ∧ data = (bytes.take (stop fields)).drop (encodedLen fields)) :
    RespectsLength (some (if fits then some (fields, data) else none)) bytes encodedLen stop
      ↔ ¬(fits ∧ encodedLen fields < 20) := by
  constructor
  · rintro hrespects ⟨hfit, hlt⟩
    have hlen := (hrespects _ _ (accepted_iff.mpr ⟨hfit, rfl, rfl⟩)).1
    exact absurd hlt (Nat.not_lt.mpr hlen)
  · intro hnot header payload hparse
    obtain ⟨hfit, rfl, rfl⟩ := accepted_iff.mp hparse
    exact ⟨Nat.not_lt.mp fun hlt ↦ hnot ⟨hfit, hlt⟩, hfits hfit⟩

end Lengths

namespace Ipv4Header

/-- The length that a header encodes. -/
def encodedLen (header : Ipv4Header) : ℕ := 4 * (header.versionIhl.toNat % 16)

def Respected (bytes : List UInt8) : Prop :=
  RespectsLength (parse bytes) bytes encodedLen fun header ↦ header.totalLen.toNat

/-- The packet fits, with a header that says it is shorter than its fields. -/
def Undersized (bytes : List UInt8) : Prop := Fits bytes ∧ headerLenOf bytes < 20

theorem totalLen_fieldsOf (bytes : List UInt8) :
    (fieldsOf bytes).totalLen.toNat = totalLenOf bytes := toNat_fromBeBytes16 _ _

theorem length_payloadOf {bytes : List UInt8} (hfits : Fits bytes) :
    (payloadOf bytes).length = totalLenOf bytes - headerLenOf bytes := by
  rw [payloadOf, List.length_drop, List.length_take_of_le hfits.2.2]

theorem respected_iff (bytes : List UInt8) : Respected bytes ↔ ¬Undersized bytes := by
  rw [Respected, parse_eq]
  apply respectsLength_iff
  rw [totalLen_fieldsOf]
  exact fun hfits ↦ ⟨hfits.2.1, hfits.2.2, rfl⟩

end Ipv4Header

namespace TcpHeader

def encodedLen (header : TcpHeader) : ℕ := 4 * (header.dataOffsetReserved.toNat / 16)

def Respected (bytes : List UInt8) : Prop :=
  RespectsLength (parse bytes) bytes encodedLen fun _ ↦ bytes.length

def Undersized (bytes : List UInt8) : Prop := Fits bytes ∧ headerLenOf bytes < 20

theorem respected_iff (bytes : List UInt8) : Respected bytes ↔ ¬Undersized bytes := by
  rw [Respected, parse_eq]
  apply respectsLength_iff
  rw [List.take_length]
  exact fun hfits ↦ ⟨hfits.2, Nat.le_refl _, rfl⟩

end TcpHeader

/-- The data of a segment in a packet is the end of the packet, from a place on that is behind both
headers: behind the 20 bytes of fields of each, and behind the length that each gives itself. -/
def DataBehindHeaders (bytes : List UInt8) : Prop :=
  ∀ ip packet tcp data, Ipv4Header.parse bytes = some (some (ip, packet)) →
    TcpHeader.parse packet = some (some (tcp, data)) →
    ∃ start, data = (bytes.take ip.totalLen.toNat).drop start
      ∧ max 20 ip.encodedLen ≤ start ∧ ip.encodedLen + max 20 tcp.encodedLen ≤ start

theorem dataBehindHeaders_iff (bytes : List UInt8) : DataBehindHeaders bytes
    ↔ ¬(Ipv4Header.Fits bytes ∧ TcpHeader.Undersized (Ipv4Header.payloadOf bytes)) := by
  simp only [DataBehindHeaders, Ipv4Header.parse_eq, TcpHeader.parse_eq, accepted_iff]
  constructor
  · rintro hbehind ⟨hfits, htcp, hlt⟩
    obtain ⟨start, hdata, -, hstart⟩ := hbehind _ _ _ _ ⟨hfits, rfl, rfl⟩ ⟨htcp, rfl, rfl⟩
    -- the data has more bytes than are left from there on
    have hlong := htcp.1
    have hlength := congrArg List.length hdata
    have hstart' : Ipv4Header.headerLenOf bytes + 20 ≤ start :=
      Nat.le_trans (Nat.add_le_add_left (Nat.le_max_left _ _) _) hstart
    rw [Ipv4Header.length_payloadOf hfits] at hlong
    rw [Ipv4Header.totalLen_fieldsOf, List.length_drop, Ipv4Header.length_payloadOf hfits,
      List.length_drop, List.length_take_of_le hfits.2.2] at hlength
    omega
  · rintro hnot ip packet tcp data ⟨hfits, rfl, rfl⟩ ⟨hsegment, rfl, rfl⟩
    have hge : 20 ≤ TcpHeader.headerLenOf (Ipv4Header.payloadOf bytes) :=
      Nat.not_lt.mp fun hlt ↦ hnot ⟨hfits, hsegment, hlt⟩
    refine ⟨Ipv4Header.headerLenOf bytes
      + TcpHeader.headerLenOf (Ipv4Header.payloadOf bytes), ?_, ?_, ?_⟩
    · rw [Ipv4Header.totalLen_fieldsOf]
      conv_lhs => rw [Ipv4Header.payloadOf, List.drop_drop]
      rfl
    · change max 20 (Ipv4Header.headerLenOf bytes) ≤ _
      omega
    · change Ipv4Header.headerLenOf bytes
        + max 20 (TcpHeader.headerLenOf (Ipv4Header.payloadOf bytes)) ≤ _
      omega

/-- **Header lengths are respected unless one below 20 is accepted.** Neither parser reads outside
of its slice. What the IPv4 parser accepts has a header of 20 bytes at least that fits, and the
payload is exactly what follows it up to the end of the packet, unless the packet fits and its
header gives itself fewer than 20 bytes; the same holds of TCP; and the data of a segment in an
accepted packet is an end of the packet that overlaps no header, unless the segment is such a
one. -/
theorem header_lengths_respected_iff (bytes : List UInt8) :
    ((∃ result, Ipv4Header.parse bytes = some result) ∧
      ∃ result, TcpHeader.parse bytes = some result)
    ∧ (Ipv4Header.Respected bytes ↔ ¬Ipv4Header.Undersized bytes)
    ∧ (TcpHeader.Respected bytes ↔ ¬TcpHeader.Undersized bytes)
    ∧ (DataBehindHeaders bytes
      ↔ ¬(Ipv4Header.Fits bytes ∧ TcpHeader.Undersized (Ipv4Header.payloadOf bytes))) :=
  ⟨⟨⟨_, Ipv4Header.parse_eq bytes⟩, _, TcpHeader.parse_eq bytes⟩, Ipv4Header.respected_iff bytes,
    TcpHeader.respected_iff bytes, dataBehindHeaders_iff bytes⟩

/-- A packet of 20 bytes whose header says it has none: all of it is handed on as payload. The same
bytes are a segment without a header, and in a packet of 40 bytes its data begins with the ports. -/
theorem short_header_is_accepted :
    let bytes : List UInt8 := [0x40, 0, 0, 20, 0, 0, 0, 0, 64, 6, 0, 0, 10, 0, 2, 15, 10, 0, 2, 2]
    let outer : List UInt8 := [0x45, 0, 0, 40, 0, 0, 0, 0, 64, 6, 0, 0, 10, 0, 2, 15, 10, 0, 2, 2]
    Ipv4Header.parse bytes = some (some (Ipv4Header.fieldsOf bytes, bytes))
      ∧ ¬Ipv4Header.Respected bytes ∧ ¬TcpHeader.Respected bytes
      ∧ ¬DataBehindHeaders (outer ++ bytes) := by
  intro bytes outer
  refine ⟨by decide, ?_, ?_, ?_⟩
  · rw [Ipv4Header.respected_iff, not_not]
    exact ⟨by decide, by decide⟩
  · rw [TcpHeader.respected_iff, not_not]
    exact ⟨by decide, by decide⟩
  · rw [dataBehindHeaders_iff, not_not]
    exact ⟨by decide, by decide, by decide⟩

end Gaxera
