import Gaxera.Data.Decoder
import Gaxera.Net.Address

/-!
# DNS responses

The resolver reads a response from the front: a header with the number of questions and answers, the
questions, which are skipped, and the answers, of which the IPv4 addresses are kept. A name is a row
of labels, each behind its length; in the place of a length a byte with both top bits set announces
a pointer of two bytes.

Every slice is a step that can leave the packet. All of them are behind a test of the length but
one, that of the two bytes of a pointer. Whether a packet makes the parser fail there is followed
exactly: it ends with the first byte of a pointer, and the parser comes to that byte as the
beginning of a name, or in a question as the next label of one.
-/

namespace Gaxera

/-- The error of a resolver; the other providers have errors of their own. -/
inductive ProviderError
  | resolverError
deriving DecidableEq, Repr

structure DnsHeader where
  id : ℕ
  flags : ℕ
  qdcount : ℕ
  ancount : ℕ
  nscount : ℕ
  arcount : ℕ
deriving DecidableEq, Repr

namespace DnsResolverServer

open Decoder

/-- `u16::from_be_bytes` of the bytes at `i` and `i + 1`. -/
def wordAt (bytes : List UInt8) (i : ℕ) : ℕ :=
  (bytes.getD i 0).toNat * 256 + (bytes.getD (i + 1) 0).toNat

def require (n : ℕ) : Decoder ProviderError Unit := fun rest ↦
  if rest.length < n then .error .resolverError else .ok () rest

/-- `DnsHeader::parse`. -/
def parseHeader : Decoder ProviderError DnsHeader := do
  require 12
  let fields ← readBytes 12
  pure
    { id := wordAt fields 0
      flags := wordAt fields 2
      qdcount := wordAt fields 4
      ancount := wordAt fields 6
      nscount := wordAt fields 8
      arcount := wordAt fields 10 }

def isPointer (b : UInt8) : Bool := decide (b &&& 0xC0 = 0xC0)

/-- The loop over the labels of a name. In a question it ends at a pointer as well; in an answer
such a byte is taken for a length. -/
def labelsLoop (pointers : Bool) : List UInt8 → Decoded ProviderError Unit
  | [] => .ok () []
  | b :: tail =>
    if b = 0 then .ok () (b :: tail)
    else if pointers && isPointer b then skipBytes 2 (b :: tail)
    else if (b :: tail).length < b.toNat + 1 then .error .resolverError
    else if b.toNat + 1 ≤ (b :: tail).length then
      labelsLoop pointers ((b :: tail).drop (b.toNat + 1))
    else .outOfBounds
termination_by rest => rest.length
decreasing_by simp only [List.length_drop, List.length_cons]; omega

def skipLabels (pointers : Bool) : Decoder ProviderError Unit := fun rest ↦
  labelsLoop pointers rest

/-- The byte that ends a name, where there is one. -/
def skipZero : Decoder ProviderError Unit
  | [] => .ok () []
  | b :: tail => .ok () (if b = 0 then tail else b :: tail)

def skipQuestion : Decoder ProviderError Unit := do
  skipLabels true
  skipZero
  require 4
  skipBytes 4

/-- The name of an answer is a pointer, or labels. -/
def skipAnswerName : Decoder ProviderError Unit
  | [] => .outOfBounds
  | b :: tail =>
    if isPointer b then skipBytes 2 (b :: tail)
    else
      (do
        skipLabels false
        skipZero : Decoder ProviderError Unit) (b :: tail)

/-- What follows the name: type, class, lifetime, length, and the data. -/
def readRecord : Decoder ProviderError (List IpAddr) := do
  require 10
  let fields ← readBytes 10
  let rdlength := wordAt fields 8
  require rdlength
  let rdata ← readBytes rdlength
  pure (if wordAt fields 0 = 1 ∧ rdlength = 4 then
    [.v4 (Ipv4Addr.new (rdata.getD 0 0) (rdata.getD 1 0) (rdata.getD 2 0) (rdata.getD 3 0))]
    else [])

/-- One round of the loop over the answers. With nothing left the loop ends; the rounds that remain
would find nothing either. -/
def readAnswer : Decoder ProviderError (List IpAddr)
  | [] => .ok [] []
  | b :: tail =>
    (do
      skipAnswerName
      readRecord : Decoder ProviderError (List IpAddr)) (b :: tail)

def parseResponsePacket : Decoder ProviderError (List IpAddr) := do
  let header ← parseHeader
  if header.ancount = 0 then fail .resolverError
  else do
    let _ ← times skipQuestion header.qdcount
    let answers ← times readAnswer header.ancount
    if answers.flatten.isEmpty then fail .resolverError else pure answers.flatten

/-! ## Names -/

section Names

variable {rest : List UInt8}

theorem answers_require {n : ℕ} {post : Unit → List UInt8 → Prop} :
    (require n).Answers rest post ↔ (n ≤ rest.length → post () rest) := by
  by_cases h : rest.length < n
  · simp [Answers, require, h]
  · simp [Answers, require, h, Nat.not_lt.mp h]

theorem answers_skipZero {post : List UInt8 → Prop} (hpost : ∀ rest, post rest) :
    skipZero.Answers rest fun _ rest ↦ post rest := by
  rcases rest with - | ⟨b, tail⟩
  · exact hpost []
  · exact hpost _

/-- Some labels are skipped, with no pointer among their lengths. -/
inductive Labels : List UInt8 → List UInt8 → Prop
  | refl (rest : List UInt8) : Labels rest rest
  | label {b : UInt8} {tail rest : List UInt8} (hb : b ≠ 0) (hpointer : isPointer b = false)
      (hlength : b.toNat ≤ tail.length) (hnext : Labels (tail.drop b.toNat) rest) :
      Labels (b :: tail) rest

/-- The bytes end with the first byte of a pointer, behind whole labels. -/
def EndsInPointer (rest : List UInt8) : Prop :=
  ∃ marker, isPointer marker = true ∧ Labels rest [marker]

theorem not_endsInPointer_nil : ¬ EndsInPointer [] := fun ⟨_, _, h⟩ ↦ nomatch h

theorem endsInPointer_cons {b : UInt8} {tail : List UInt8} : EndsInPointer (b :: tail)
    ↔ (isPointer b = true ∧ tail = [])
      ∨ b ≠ 0 ∧ isPointer b = false ∧ b.toNat ≤ tail.length
        ∧ EndsInPointer (tail.drop b.toNat) := by
  constructor
  · rintro ⟨marker, hmarker, hlabels⟩
    rcases hlabels with _ | ⟨hb, hpointer, hlength, hnext⟩
    · exact .inl ⟨hmarker, rfl⟩
    · exact .inr ⟨hb, hpointer, hlength, marker, hmarker, hnext⟩
  · rintro (⟨hpointer, rfl⟩ | ⟨hb, hpointer, hlength, marker, hmarker, hnext⟩)
    · exact ⟨b, hpointer, .refl [b]⟩
    · exact ⟨marker, hmarker, .label hb hpointer hlength hnext⟩

/-- **Labels leave the packet** exactly where it ends in a pointer; in an answer they never do. -/
theorem answers_skipLabels (pointers : Bool) (rest : List UInt8) :
    (skipLabels pointers).Answers rest (fun _ _ ↦ True)
      ↔ ¬ (pointers = true ∧ EndsInPointer rest) := by
  rw [answers_true_iff, skipLabels]
  -- the induction follows the loop: it ends, stops at a pointer, gives up, or skips a label
  fun_induction labelsLoop pointers rest with
  | case1 => simp [not_endsInPointer_nil]
  | case2 tail =>
    have hzero : isPointer 0 = false := by decide
    simp [endsInPointer_cons, hzero]
  | case3 b tail hb hpointer =>
    obtain ⟨rfl, hmarker⟩ := Bool.and_eq_true_iff.mp hpointer
    rw [endsInPointer_cons, skipBytes]
    rcases tail with - | ⟨c, tail⟩
    · simp [hmarker]
    · simp [hmarker]
  | case4 b tail hb hpointer hshort =>
    refine iff_of_true (by simp) ?_
    rintro ⟨rfl, hends⟩
    rw [Bool.true_and, Bool.not_eq_true] at hpointer
    rw [List.length_cons] at hshort
    rcases endsInPointer_cons.mp hends with ⟨hmarker, -⟩ | ⟨-, -, hlength, -⟩
    · simp [hpointer] at hmarker
    · omega
  | case5 b tail hb hpointer hshort hslice ih =>
    rw [ih, List.drop_succ_cons, endsInPointer_cons]
    rw [List.length_cons] at hslice
    rcases pointers with - | -
    · simp
    · rw [Bool.true_and, Bool.not_eq_true] at hpointer
      simp [hpointer, hb, Nat.le_of_succ_le_succ hslice]
  | case6 b tail hb hpointer hshort hslice => exact absurd (Nat.not_lt.mp hshort) hslice

end Names

/-! ## Questions and answers -/

section Sections

variable {rest : List UInt8}

theorem answers_skipQuestion :
    skipQuestion.Answers rest (fun _ _ ↦ True) ↔ ¬ EndsInPointer rest := by
  have htail : ∀ rest,
      Decoder.Answers (do skipZero; require 4; skipBytes 4) rest fun _ _ ↦ True := by
    intro rest
    rw [answers_bind]
    refine answers_skipZero fun rest ↦ ?_
    rw [answers_bind, answers_require]
    intro hlength
    exact answers_skipBytes.mpr ⟨hlength, trivial⟩
  rw [skipQuestion, answers_bind, answers_iff, answers_skipLabels true, and_iff_left]
  · simp
  · exact fun _ rest _ ↦ htail rest

theorem answers_readRecord : readRecord.Answers rest fun _ _ ↦ True := by
  rw [readRecord, answers_bind, answers_require]
  intro hfields
  rw [answers_bind, answers_readBytes]
  refine ⟨hfields, ?_⟩
  rw [answers_bind, answers_require]
  intro hdata
  rw [answers_bind, answers_readBytes]
  exact ⟨hdata, trivial⟩

theorem answers_readAnswer : readAnswer.Answers rest (fun _ _ ↦ True)
    ↔ ¬ ∃ marker, isPointer marker = true ∧ rest = [marker] := by
  rcases rest with - | ⟨b, tail⟩
  · exact iff_of_true trivial (by simp)
  change Decoder.Answers (do skipAnswerName; readRecord) (b :: tail) (fun _ _ ↦ True) ↔ _
  rw [answers_bind, answers_iff, and_iff_left fun _ _ _ ↦ answers_readRecord]
  have hname : skipAnswerName (b :: tail) = if isPointer b then skipBytes 2 (b :: tail)
      else (do skipLabels false; skipZero : Decoder ProviderError Unit) (b :: tail) := rfl
  by_cases hpointer : isPointer b = true
  · rw [answers_true_iff, hname, if_pos hpointer, ← answers_true_iff, answers_skipBytes]
    rcases tail with - | ⟨c, tail⟩
    · simp [hpointer]
    · simp
  · rw [answers_true_iff, hname, if_neg hpointer, ← answers_true_iff, answers_bind, answers_iff]
    refine iff_of_true ⟨(answers_skipLabels false _).mpr (by simp), fun _ rest _ ↦ ?_⟩ ?_
    · exact answers_skipZero fun _ ↦ trivial
    · rintro ⟨marker, hmarker, heq⟩
      simp_all

end Sections

/-! ## The whole packet -/

/-- The parser comes to a name, of a question or of an answer, of which the packet has only the
first byte of a pointer. -/
def CutInPointer (bytes : List UInt8) : Prop :=
  ∃ header body, parseHeader bytes = .ok header body ∧ header.ancount ≠ 0
    ∧ ((∃ k < header.qdcount, ∃ skipped name,
        times skipQuestion k body = .ok skipped name ∧ EndsInPointer name)
      ∨ ∃ skipped records, times skipQuestion header.qdcount body = .ok skipped records
        ∧ ∃ k < header.ancount, ∃ found marker,
          times readAnswer k records = .ok found [marker] ∧ isPointer marker = true)

/-- **A response is parsed without leaving the packet** exactly if it does not end in the middle of
a pointer that the parser comes to. -/
theorem parseResponsePacket_answers_iff (bytes : List UInt8) :
    ((∃ answers rest, parseResponsePacket bytes = .ok answers rest)
        ∨ ∃ e, parseResponsePacket bytes = .error e)
      ↔ ¬ CutInPointer bytes := by
  have hresult : ((∃ answers rest, parseResponsePacket bytes = .ok answers rest)
      ∨ ∃ e, parseResponsePacket bytes = .error e)
        ↔ parseResponsePacket.Answers bytes fun _ _ ↦ True := by
    rw [Answers]
    rcases parseResponsePacket bytes with ⟨value, rest⟩ | e | - | -
    · simp
    · exact iff_of_true (.inr ⟨e, rfl⟩) trivial
    · simp
    · simp
  have hlast : ∀ (answers : List (List IpAddr)) (rest : List UInt8),
      Decoder.Answers (if answers.flatten.isEmpty then fail .resolverError
        else pure answers.flatten : Decoder ProviderError _) rest fun _ _ ↦ True := by
    intro answers rest
    split <;> trivial
  have hheader : parseHeader.Answers bytes fun _ _ ↦ True := by
    rw [parseHeader, answers_bind, answers_require]
    intro hlength
    rw [answers_bind, answers_readBytes]
    exact ⟨hlength, trivial⟩
  rw [hresult, parseResponsePacket, answers_bind, answers_iff, and_iff_right hheader]
  constructor
  · rintro hall ⟨header, body, hparse, hcount, hcut⟩
    have hbody := hall header body hparse
    rw [if_neg hcount, answers_bind, answers_iff, answers_times_iff] at hbody
    rcases hcut with ⟨k, hk, skipped, name, hrun, hends⟩
      | ⟨skipped, records, hrun, k, hk, found, marker, hrecords, hmarker⟩
    · exact answers_skipQuestion.mp (hbody.1 k hk skipped name hrun) hends
    · have hrest := hbody.2 skipped records hrun
      rw [answers_bind, answers_iff, answers_times_iff] at hrest
      exact answers_readAnswer.mp (hrest.1 k hk found [marker] hrecords) ⟨marker, hmarker, rfl⟩
  · intro hcut header body hparse
    by_cases hcount : header.ancount = 0
    · rw [if_pos hcount]
      trivial
    rw [if_neg hcount, answers_bind, answers_iff, answers_times_iff]
    refine ⟨fun k hk skipped name hrun ↦ answers_skipQuestion.mpr fun hends ↦ ?_,
      fun skipped records hrun ↦ ?_⟩
    · exact hcut ⟨header, body, hparse, hcount, .inl ⟨k, hk, skipped, name, hrun, hends⟩⟩
    · rw [answers_bind, answers_iff, answers_times_iff]
      refine ⟨fun k hk found rest hrecords ↦ answers_readAnswer.mpr ?_,
        fun answers rest _ ↦ hlast answers rest⟩
      rintro ⟨marker, hmarker, rfl⟩
      exact hcut ⟨header, body, hparse, hcount,
        .inr ⟨skipped, records, hrun, k, hk, found, marker, hrecords, hmarker⟩⟩

/-- A header with one answer and no question, and one byte. -/
theorem parseResponsePacket_leaves_truncated_packet :
    parseResponsePacket [0, 0, 0x80, 0, 0, 0, 0, 1, 0, 0, 0, 0, 0xC0] = .outOfBounds := by
  decide +kernel

end DnsResolverServer

end Gaxera
