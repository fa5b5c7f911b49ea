import Gaxera.Net.Checksum
import Gaxera.Net.Headers

/-!
# Echo replies

A reply to an echo request is the request with another type, and with code zero. The checksum is
copied along. It covers the type and the code, and the sum of a reply is therefore smaller than that
of the request by `0x0800` and the code, which is never a multiple of 65535. Of a request whose
checksum is correct, the reply has one that is not.
-/

namespace Gaxera

namespace IcmpHeader

def typeEchoReply : UInt8 := 0
def typeEchoRequest : UInt8 := 8

end IcmpHeader

/-- The number of bytes written, and the buffer. The two headers of the layers around it are not
looked at. -/
def processIcmpPacket (icmpHdr : IcmpHeader) (payload outBuf : List UInt8) :
    Option ℕ × List UInt8 :=
  if icmpHdr.icmpType = IcmpHeader.typeEchoRequest then
    let replyHdr : IcmpHeader :=
      ⟨IcmpHeader.typeEchoReply, 0, icmpHdr.checksum, icmpHdr.restOfHeader⟩
    let totalLen := 8 + payload.length
    if outBuf.length < totalLen then (none, outBuf)
    else
      (some totalLen, replyHdr.bytes ++ payload ++ outBuf.drop totalLen)
  else (none, outBuf)

theorem wordSum_chunkWords_cons (a b : UInt8) (bytes : List UInt8) :
    wordSum (chunkWords (a :: b :: bytes))
      = a.toNat * 256 + b.toNat + wordSum (chunkWords bytes) := by
  rw [chunkWords, wordSum_cons, toNat_toUInt32_fromBeBytes16]

/-- Two packets that differ in type and code only, by these numbers, are not both correct. -/
theorem not_checksumCorrect_of_type {code : UInt8} {bytes : List UInt8}
    (h : ChecksumCorrect (IcmpHeader.typeEchoRequest :: code :: bytes)) :
    ¬ChecksumCorrect (IcmpHeader.typeEchoReply :: 0 :: bytes) := by
  have hcode := code.toNat_lt
  rw [checksumCorrect_iff, wordSum_chunkWords_cons] at h ⊢
  rintro ⟨-, hreply⟩
  have hrequest : 65535 ∣ 8 * 256 + code.toNat + wordSum (chunkWords bytes) := h.2
  have hreply' : 65535 ∣ 0 * 256 + 0 + wordSum (chunkWords bytes) := hreply
  omega

/-- **An echo reply never has a correct checksum.** Of every request whose own checksum is correct,
the packet that is written has the type of a reply and the identifier, sequence number and payload
of the request, and a checksum that is wrong. -/
theorem echo_reply_never_correct (request outBuf : List UInt8) (icmpHdr : IcmpHeader)
    (payload : List UInt8) (hparse : IcmpHeader.parse request = some (some (icmpHdr, payload)))
    (htype : icmpHdr.icmpType = IcmpHeader.typeEchoRequest) (hcorrect : ChecksumCorrect request)
    (hroom : request.length ≤ outBuf.length) :
    ∃ reply replyHdr, processIcmpPacket icmpHdr payload outBuf
        = (some reply.length, reply ++ outBuf.drop reply.length)
      ∧ IcmpHeader.parse reply = some (some (replyHdr, payload))
      ∧ replyHdr.icmpType = IcmpHeader.typeEchoReply
      ∧ replyHdr.restOfHeader = icmpHdr.restOfHeader ∧ ¬ChecksumCorrect reply := by
  obtain rfl := IcmpHeader.parse_eq_some_iff.mp hparse
  let replyHdr : IcmpHeader :=
    ⟨IcmpHeader.typeEchoReply, 0, icmpHdr.checksum, icmpHdr.restOfHeader⟩
  have hlength : (replyHdr.bytes ++ payload).length = 8 + payload.length := by
    rw [List.length_append, IcmpHeader.length_bytes]
  rw [List.length_append, IcmpHeader.length_bytes] at hroom
  refine ⟨replyHdr.bytes ++ payload, replyHdr, ?_, IcmpHeader.parse_eq_some_iff.mpr rfl, rfl, rfl,
    ?_⟩
  · rw [processIcmpPacket, if_pos htype, hlength]
    exact if_neg (Nat.not_lt.mpr hroom)
  · obtain ⟨icmpType, code, checksum, restOfHeader⟩ := icmpHdr
    obtain rfl : icmpType = IcmpHeader.typeEchoRequest := htype
    exact not_checksumCorrect_of_type hcorrect

/-- A request of eight bytes, and a buffer of eight. -/
theorem echo_reply_never_correct_empty :
    let request : IcmpHeader := ⟨8, 0, 0xF7FE, #v[0, 1, 0, 0]⟩
    ChecksumCorrect request.bytes ∧ ∃ reply replyHdr,
      processIcmpPacket request [] (List.replicate 8 0)
        = (some reply.length, reply ++ (List.replicate 8 0).drop reply.length)
      ∧ IcmpHeader.parse reply = some (some (replyHdr, []))
      ∧ replyHdr.icmpType = IcmpHeader.typeEchoReply
      ∧ replyHdr.restOfHeader = request.restOfHeader ∧ ¬ChecksumCorrect reply := by
  intro request
  have hcorrect : ChecksumCorrect request.bytes := by decide
  exact ⟨hcorrect, echo_reply_never_correct request.bytes (List.replicate 8 0) request []
    (IcmpHeader.parse_eq_some_iff.mpr rfl) rfl hcorrect (by decide)⟩

/-- The sum of this request is 65535, and that of its reply is `0xF7FF`. -/
theorem echo_reply_copies_checksum :
    ChecksumCorrect [8, 0, 0xF7, 0xFE, 0, 1, 0, 0]
      ∧ processIcmpPacket ⟨8, 0, 0xF7FE, #v[0, 1, 0, 0]⟩ [] (List.replicate 8 0)
        = (some 8, [0, 0, 0xF7, 0xFE, 0, 1, 0, 0])
      ∧ ¬ChecksumCorrect [0, 0, 0xF7, 0xFE, 0, 1, 0, 0] := by
  decide

end Gaxera
