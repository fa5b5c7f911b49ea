import Gaxera.Crypto.Poly1305

/-!
# Encryption over a session

The crypto server encrypts with ChaCha20 and appends the Poly1305 tag of the ciphertext. The nonce
is a counter that is advanced with every message. It is not part of the message: to decrypt, the
server takes the counter as it is, less one. So it can decrypt the last message it has encrypted,
as often as it likes, and no message before it.

The block number within a message has 32 bits and is advanced after the last block as well; where
sums are checked for overflow, the longest messages stop the server there.
-/

namespace Gaxera

open Decoder (word)
open Poly1305 (wordAt macWithKey)

/-- What a call comes to: a result, the error of the server, or a sum that overflows. -/
inductive CryptoOutcome (α : Type)
  | ok (value : α)
  | cryptoError
  | panicked
deriving DecidableEq, Repr

/-! ## The key stream -/

namespace ChaCha20

def rotateLeft (x n : UInt32) : UInt32 := (x <<< n) ||| (x >>> (32 - n))

def quarterRound (a b c d : UInt32) : UInt32 × UInt32 × UInt32 × UInt32 :=
  let a := a + b
  let d := rotateLeft (d ^^^ a) 16
  let c := c + d
  let b := rotateLeft (b ^^^ c) 12
  let a := a + b
  let d := rotateLeft (d ^^^ a) 8
  let c := c + d
  let b := rotateLeft (b ^^^ c) 7
  (a, b, c, d)

/-- A quarter round on four words of the state. -/
def roundAt (state : List UInt32) (places : ℕ × ℕ × ℕ × ℕ) : List UInt32 :=
  let (i, j, k, l) := places
  let (a, b, c, d) := quarterRound (state.getD i 0) (state.getD j 0) (state.getD k 0)
    (state.getD l 0)
  (((state.set i a).set j b).set k c).set l d

/-- The columns, and then the diagonals. -/
def doubleRound (state : List UInt32) : List UInt32 :=
  [(0, 4, 8, 12), (1, 5, 9, 13), (2, 6, 10, 14), (3, 7, 11, 15), (0, 5, 10, 15), (1, 6, 11, 12),
    (2, 7, 8, 13), (3, 4, 9, 14)].foldl roundAt state

def constants : List UInt32 := [0x61707865, 0x3320646e, 0x79622d32, 0x6b206574]

/-- The little-endian words of a byte string. -/
def words (bytes : List UInt8) (count : ℕ) : List UInt32 :=
  (List.range count).map fun i ↦ UInt32.ofNat (wordAt bytes (4 * i) 4)

def block (key : Vector UInt8 32) (blockCounter : UInt32) (nonce : List UInt8) : List UInt8 :=
  let state := constants ++ words key.toList 8 ++ [blockCounter] ++ words nonce 3
  let working := (List.range 10).foldl (fun state _ ↦ doubleRound state) state
  (List.zipWith (· + ·) working state).flatMap fun sum ↦ word 4 sum.toNat

/-- Byte `i` of the key stream that begins with block `counter`. -/
def keystreamByte (key : Vector UInt8 32) (nonce : List UInt8) (counter i : ℕ) : UInt8 :=
  (block key (UInt32.ofNat (counter + i / 64)) nonce).getD (i % 64) 0

/-- `chacha20_encrypt` of the standard. -/
def encrypt (key : Vector UInt8 32) (counter : ℕ) (nonce bytes : List UInt8) : List UInt8 :=
  bytes.mapIdx fun i b ↦ b ^^^ keystreamByte key nonce counter i

end ChaCha20

/-! ## The server -/

structure TlsCryptoServer where
  key : Vector UInt8 32
  sequenceNonceCounter : ℕ

namespace TlsCryptoServer

def tagLen : ℕ := 16

def new : TlsCryptoServer where
  key := #v[0x1B, 0x2C, 0x3D, 0x4E, 0x5F, 0x60, 0x71, 0x82, 0x93, 0xA4, 0xB5, 0xC6, 0xD7, 0xE8,
    0xF9, 0x0A, 0x11, 0x22, 0x33, 0x44, 0x55, 0x66, 0x77, 0x88, 0x99, 0xAA, 0xBB, 0xCC, 0xDD, 0xEE,
    0xFF, 0x00]
  sequenceNonceCounter := 1

/-- `+= 1` on a word of `w` bits: with overflow checks nothing follows the last word, without them
zero does. -/
def increment (checks : Bool) (w n : ℕ) : Option ℕ :=
  if n + 1 < 2 ^ w then some (n + 1) else if checks then none else some 0

def makeNonce (seq : ℕ) : List UInt8 := word 8 seq ++ [0xA1, 0xB2, 0xC3, 0xD4]

/-- The first 32 bytes of block 0 are the key. -/
def poly1305Mac (s : TlsCryptoServer) (ciphertext nonce : List UInt8) : Option (List UInt8) :=
  let block := ChaCha20.block s.key 0 nonce
  macWithKey ciphertext (Vector.ofFn fun i : Fin 32 ↦ block.getD i 0)

def ctEq (a b : List UInt8) : Bool :=
  if b.length ≠ 16 then false
  else (List.zipWith (· ^^^ ·) a b).foldl (· ||| ·) 0 = 0

/-- The loop that adds the key stream, the same in both directions. -/
def xorKeystream (checks : Bool) (key : Vector UInt8 32) (nonce : List UInt8) (blockIdx : ℕ)
    (bytes : List UInt8) : Option (List UInt8) :=
  if bytes = [] then some []
  else do
    let ks := ChaCha20.block key (UInt32.ofNat blockIdx) nonce
    let blockIdx ← increment checks 32 blockIdx
    let rest ← xorKeystream checks key nonce blockIdx (bytes.drop 64)
    return List.zipWith (· ^^^ ·) (bytes.take 64) ks ++ rest
termination_by bytes.length
decreasing_by
  rw [List.length_drop]
  have := List.length_pos_of_ne_nil ‹_›
  omega

/-- The result is the length, and the buffer with what was written into it. -/
def encryptPayload (checks : Bool) (s : TlsCryptoServer) (plaintext ciphertext : List UInt8) :
    CryptoOutcome (ℕ × List UInt8) × TlsCryptoServer :=
  let requiredLen := plaintext.length + tagLen
  if ciphertext.length < requiredLen then (.cryptoError, s)
  else
    let seq := s.sequenceNonceCounter
    match increment checks 64 seq with
    | none => (.panicked, s)
    | some counter =>
      let s := { s with sequenceNonceCounter := counter }
      let nonce := makeNonce seq
      let message := do
        let body ← xorKeystream checks s.key nonce 1 plaintext
        let tag ← s.poly1305Mac body nonce
        return body ++ tag
      match message with
      | none => (.panicked, s)
      | some message => (.ok (requiredLen, message ++ ciphertext.drop requiredLen), s)

def decryptPayload (checks : Bool) (s : TlsCryptoServer) (ciphertext plaintext : List UInt8) :
    CryptoOutcome (ℕ × List UInt8) :=
  if ciphertext.length < tagLen then .cryptoError
  else
    let payloadLen := ciphertext.length - tagLen
    if plaintext.length < payloadLen then .cryptoError
    else
      let nonce := makeNonce (s.sequenceNonceCounter - 1)
      let payload := ciphertext.take payloadLen
      match s.poly1305Mac payload nonce with
      | none => .panicked
      | some expectedTag =>
        if ctEq expectedTag (ciphertext.drop payloadLen) = false then .cryptoError
        else
          match xorKeystream checks s.key nonce 1 payload with
          | none => .panicked
          | some bytes => .ok (payloadLen, bytes ++ plaintext.drop payloadLen)

/-! ## The key stream cancels -/

theorem length_roundAt (state : List UInt32) (places : ℕ × ℕ × ℕ × ℕ) :
    (ChaCha20.roundAt state places).length = state.length := by
  simp [ChaCha20.roundAt]

theorem length_doubleRound (state : List UInt32) :
    (ChaCha20.doubleRound state).length = state.length := by
  simp only [ChaCha20.doubleRound, List.foldl_cons, List.foldl_nil, length_roundAt]

theorem length_block (key : Vector UInt8 32) (blockCounter : UInt32) (nonce : List UInt8) :
    (ChaCha20.block key blockCounter nonce).length = 64 := by
  have hrounds : ∀ (rounds : List ℕ) (state : List UInt32),
      (rounds.foldl (fun state _ ↦ ChaCha20.doubleRound state) state).length = state.length := by
    intro rounds
    induction rounds with
    | nil => intro state; rfl
    | cons _ rounds ih => intro state; rw [List.foldl_cons, ih, length_doubleRound]
  have hwords : ∀ sums : List UInt32,
      (sums.flatMap fun sum ↦ word 4 sum.toNat).length = 4 * sums.length := by
    intro sums
    induction sums with
    | nil => rfl
    | cons sum sums ih =>
      rw [List.flatMap_cons, List.length_append, ih, Decoder.length_word, List.length_cons]
      omega
  rw [ChaCha20.block, hwords, List.length_zipWith, hrounds]
  simp [ChaCha20.constants, ChaCha20.words]

theorem keystreamByte_of_lt (key : Vector UInt8 32) (nonce : List UInt8) (counter : ℕ) {i : ℕ}
    (hi : i < 64) : ChaCha20.keystreamByte key nonce counter i
      = (ChaCha20.block key (UInt32.ofNat counter) nonce).getD i 0 := by
  rw [ChaCha20.keystreamByte, Nat.div_eq_of_lt hi, Nat.mod_eq_of_lt hi, Nat.add_zero]

theorem keystreamByte_add (key : Vector UInt8 32) (nonce : List UInt8) (counter i : ℕ) :
    ChaCha20.keystreamByte key nonce counter (i + 64)
      = ChaCha20.keystreamByte key nonce (counter + 1) i := by
  rw [ChaCha20.keystreamByte, ChaCha20.keystreamByte, Nat.add_mod_right,
    Nat.add_div_right i (by decide), Nat.add_assoc, Nat.add_comm 1]

/-- The standard, one block at a time. -/
theorem encrypt_eq_append (key : Vector UInt8 32) (counter : ℕ) (nonce bytes : List UInt8) :
    ChaCha20.encrypt key counter nonce bytes
      = List.zipWith (· ^^^ ·) (bytes.take 64) (ChaCha20.block key (UInt32.ofNat counter) nonce)
        ++ ChaCha20.encrypt key (counter + 1) nonce (bytes.drop 64) := by
  rw [ChaCha20.encrypt]
  nth_rewrite 1 [← List.take_append_drop 64 bytes]
  rw [List.mapIdx_append]
  refine congrArg₂ _ ?_ ?_
  · have hfirst := @keystreamByte_of_lt key nonce counter
    have hblock := length_block key (UInt32.ofNat counter) nonce
    generalize ChaCha20.block key (UInt32.ofNat counter) nonce = ks at hfirst hblock ⊢
    refine List.ext_getElem (by simp [hblock]) fun i h₁ h₂ ↦ ?_
    have hi : i < ks.length := (List.length_zipWith ▸ h₂).trans_le (Nat.min_le_right _ _)
    rw [List.getElem_mapIdx, List.getElem_zipWith, hfirst (hblock ▸ hi),
      List.getD_eq_getElem?_getD, List.getElem?_eq_getElem hi, Option.getD_some]
  · -- nothing is left behind a front that is no whole block
    by_cases hlong : 64 ≤ bytes.length
    · simp only [List.length_take, Nat.min_eq_left hlong, keystreamByte_add, ChaCha20.encrypt]
    · rw [List.drop_of_length_le (by omega), ChaCha20.encrypt, List.mapIdx_nil, List.mapIdx_nil]

/-- The block number of the standard wraps as well. -/
theorem encrypt_wrap (key : Vector UInt8 32) (nonce bytes : List UInt8) :
    ChaCha20.encrypt key (2 ^ 32) nonce bytes = ChaCha20.encrypt key 0 nonce bytes := by
  have hwrap : ∀ n, UInt32.ofNat (2 ^ 32 + n) = UInt32.ofNat (0 + n) := by
    intro n
    refine UInt32.toNat_inj.mp ?_
    rw [UInt32.toNat_ofNat', UInt32.toNat_ofNat', Nat.add_mod_left, Nat.zero_add]
  simp only [ChaCha20.encrypt, ChaCha20.keystreamByte, hwrap]

/-- **The key stream is added** as the standard has it, as long as the block numbers suffice. -/
theorem xorKeystream_eq (checks : Bool) (key : Vector UInt8 32) (nonce bytes : List UInt8)
    {blockIdx : ℕ} (hidx : blockIdx < 2 ^ 32) : xorKeystream checks key nonce blockIdx bytes
      = if checks = true ∧ 64 * (2 ^ 32 - 1 - blockIdx) < bytes.length then none
        else some (ChaCha20.encrypt key blockIdx nonce bytes) := by
  induction hlength : bytes.length using Nat.strong_induction_on generalizing bytes blockIdx with
  | _ n ih =>
    subst hlength
    rw [xorKeystream]
    by_cases hnil : bytes = []
    · rw [if_pos hnil, hnil, if_neg fun h ↦ absurd h.2 (Nat.not_lt_zero _)]
      rfl
    have hpos := List.length_pos_of_ne_nil hnil
    have hdrop : (bytes.drop 64).length = bytes.length - 64 := List.length_drop
    rw [if_neg hnil, encrypt_eq_append, increment]
    by_cases hlt : blockIdx + 1 < 2 ^ 32
    · simp only [if_pos hlt, Option.bind_eq_bind, Option.bind_some]
      rw [ih _ (by omega) _ hlt hdrop]
      by_cases hroom : checks = true ∧ 64 * (2 ^ 32 - 1 - blockIdx) < bytes.length
      · rw [if_pos hroom, if_pos ⟨hroom.1, by omega⟩]
        rfl
      · rw [if_neg hroom, if_neg fun h ↦ hroom ⟨h.1, by omega⟩]
        rfl
    · have hlast : blockIdx + 1 = 2 ^ 32 := by omega
      rw [if_neg hlt, hlast, encrypt_wrap]
      rcases checks with - | -
      · simp only [Bool.false_eq_true, if_false, false_and, Option.bind_eq_bind, Option.bind_some]
        rw [ih _ (by omega) _ (by decide) hdrop]
        simp
      · rw [if_pos rfl, if_pos ⟨rfl, by omega⟩]
        rfl

theorem xorKeystream_one (checks : Bool) (key : Vector UInt8 32) (nonce bytes : List UInt8) :
    xorKeystream checks key nonce 1 bytes
      = if checks = true ∧ 64 * (2 ^ 32 - 2) < bytes.length then none
        else some (ChaCha20.encrypt key 1 nonce bytes) :=
  xorKeystream_eq checks key nonce bytes (by decide)

theorem encrypt_encrypt (key : Vector UInt8 32) (counter : ℕ) (nonce bytes : List UInt8) :
    ChaCha20.encrypt key counter nonce (ChaCha20.encrypt key counter nonce bytes) = bytes := by
  refine List.ext_getElem (by simp [ChaCha20.encrypt]) fun i _ _ ↦ ?_
  simp only [ChaCha20.encrypt, List.getElem_mapIdx]
  rw [UInt8.xor_assoc, UInt8.xor_self, UInt8.xor_zero]

/-! ## One message -/

/-- The one-time key of a message. -/
def oneTimeKey (key : Vector UInt8 32) (nonce : List UInt8) : Vector UInt8 32 :=
  Vector.ofFn fun i : Fin 32 ↦ (ChaCha20.block key 0 nonce).getD i 0

/-- What is written for a message. -/
def record (s : TlsCryptoServer) (plaintext : List UInt8) : List UInt8 :=
  let nonce := makeNonce s.sequenceNonceCounter
  let body := ChaCha20.encrypt s.key 1 nonce plaintext
  body ++ Poly1305.tag body (oneTimeKey s.key nonce)

theorem poly1305Mac_eq (s : TlsCryptoServer) (ciphertext nonce : List UInt8) :
    s.poly1305Mac ciphertext nonce = some (Poly1305.tag ciphertext (oneTimeKey s.key nonce)) :=
  Poly1305.macWithKey_eq ..

theorem ctEq_self {tag : List UInt8} (h : tag.length = 16) : ctEq tag tag = true := by
  have hzero : ∀ (tag : List UInt8),
      (List.zipWith (· ^^^ ·) tag tag).foldl (· ||| ·) (0 : UInt8) = 0 := by
    intro tag
    induction tag with
    | nil => rfl
    | cons b tag ih => rw [List.zipWith_cons_cons, List.foldl_cons, UInt8.xor_self]; exact ih
  rw [ctEq, if_neg (not_not.mpr h), hzero tag]
  rfl

/-- The longest message whose blocks can be counted. -/
def Countable (checks : Bool) (plaintext : List UInt8) : Prop :=
  checks = true → plaintext.length ≤ 64 * (2 ^ 32 - 2)

/-- The ciphertext is accepted and gives back the plaintext, in any buffer that is long enough. -/
def Opens (checks : Bool) (s : TlsCryptoServer) (ciphertext plaintext : List UInt8) : Prop :=
  ∀ buffer : List UInt8, plaintext.length ≤ buffer.length →
    s.decryptPayload checks ciphertext buffer
      = .ok (plaintext.length, plaintext ++ buffer.drop plaintext.length)

/-- **What a call comes to**, for every message and buffer. -/
theorem encryptPayload_eq (checks : Bool) (s : TlsCryptoServer) (plaintext buffer : List UInt8) :
    s.encryptPayload checks plaintext buffer =
      if buffer.length < plaintext.length + 16 then (.cryptoError, s)
      else match increment checks 64 s.sequenceNonceCounter with
        | none => (.panicked, s)
        | some counter => (if checks = true ∧ 64 * (2 ^ 32 - 2) < plaintext.length then .panicked
            else .ok (plaintext.length + 16,
              s.record plaintext ++ buffer.drop (plaintext.length + 16)),
            { s with sequenceNonceCounter := counter }) := by
  rw [encryptPayload, tagLen]
  dsimp only
  cases increment checks 64 s.sequenceNonceCounter with
  | none => rfl
  | some counter =>
    simp only [xorKeystream_one, poly1305Mac_eq]
    by_cases hlong : checks = true ∧ 64 * (2 ^ 32 - 2) < plaintext.length
    · rw [if_pos hlong, if_pos hlong]
      rfl
    · rw [if_neg hlong, if_neg hlong]
      rfl

/-- **A message that was just encrypted can be decrypted.** -/
theorem encryptPayload_spec {checks : Bool} {s : TlsCryptoServer} {plaintext buffer : List UInt8}
    (hbuffer : plaintext.length + 16 ≤ buffer.length)
    (hcounter : s.sequenceNonceCounter + 1 < 2 ^ 64) (hcountable : Countable checks plaintext) :
    ∃ ciphertext, s.encryptPayload checks plaintext buffer
        = (.ok (plaintext.length + 16, ciphertext ++ buffer.drop (plaintext.length + 16)),
          { s with sequenceNonceCounter := s.sequenceNonceCounter + 1 })
      ∧ ciphertext.length = plaintext.length + 16
      ∧ Opens checks { s with sequenceNonceCounter := s.sequenceNonceCounter + 1 } ciphertext
        plaintext := by
  have hcount : ¬ (checks = true ∧ 64 * (2 ^ 32 - 2) < plaintext.length) :=
    fun h ↦ absurd (hcountable h.1) (Nat.not_le.mpr h.2)
  have hnext : increment checks 64 s.sequenceNonceCounter = some (s.sequenceNonceCounter + 1) :=
    if_pos hcounter
  obtain ⟨body, hbody⟩ :
      ∃ body, ChaCha20.encrypt s.key 1 (makeNonce s.sequenceNonceCounter) plaintext = body :=
    ⟨_, rfl⟩
  have hlength : body.length = plaintext.length := hbody ▸ List.length_mapIdx
  obtain ⟨tag, htag⟩ : ∃ tag,
    Poly1305.tag body (oneTimeKey s.key (makeNonce s.sequenceNonceCounter)) = tag := ⟨_, rfl⟩
  have htagLength : tag.length = 16 := htag ▸ Decoder.length_word ..
  refine ⟨s.record plaintext, ?_, ?_, fun out hout ↦ ?_⟩
  · rw [encryptPayload_eq, if_neg (Nat.not_lt.mpr hbuffer), hnext]
    dsimp only
    rw [if_neg hcount]
  · rw [record, hbody, htag, List.length_append, hlength, htagLength]
  · rw [record, hbody, htag]
    have hpayload : (body ++ tag).length - 16 = plaintext.length := by
      rw [List.length_append, hlength, htagLength]
      omega
    have hlong : ¬ (body ++ tag).length < 16 := by
      rw [List.length_append, htagLength]
      omega
    have hback : xorKeystream checks s.key (makeNonce s.sequenceNonceCounter) 1 body
        = some plaintext := by
      rw [xorKeystream_one, hlength, if_neg hcount, ← hbody, encrypt_encrypt]
    simp only [decryptPayload, tagLen, if_neg hlong, hpayload, if_neg (Nat.not_lt.mpr hout),
      Nat.add_sub_cancel, List.take_left' hlength, List.drop_left' hlength, poly1305Mac_eq, htag,
      ctEq_self htagLength, Bool.true_eq_false, if_false, hback]

theorem makeNonce_inj {m n : ℕ} (hm : m < 2 ^ 64) (hn : n < 2 ^ 64)
    (h : makeNonce m = makeNonce n) : m = n := by
  have hlength : (word 8 m).length = (word 8 n).length := by
    rw [Decoder.length_word, Decoder.length_word]
  rw [makeNonce, makeNonce] at h
  have hword : Decoder.wordOf 8 (word 8 m ++ []) = Decoder.wordOf 8 (word 8 n ++ []) :=
    congrArg (fun bytes ↦ Decoder.wordOf 8 (bytes ++ [])) (List.append_inj h hlength).1
  have hpow : 256 ^ 8 = 2 ^ 64 := by norm_num
  rwa [Decoder.wordOf_word_append, Decoder.wordOf_word_append, hpow, Nat.mod_eq_of_lt hm,
    Nat.mod_eq_of_lt hn] at hword

end TlsCryptoServer

/-! ## A whole session -/

structure Encryption where
  nonce : List UInt8
  plaintext : List UInt8
  ciphertext : List UInt8

/-- The server, and what it has encrypted so far. -/
structure CryptoSession where
  server : TlsCryptoServer
  log : List Encryption

inductive CryptoOp
  | encrypt (plaintext ciphertext : List UInt8)
  | decrypt (ciphertext plaintext : List UInt8)

def CryptoOp.isEncrypt : CryptoOp → Bool
  | .encrypt _ _ => true
  | .decrypt _ _ => false

/-- The messages are short enough for their blocks to be counted. -/
def CryptoOp.Countable (checks : Bool) : CryptoOp → Prop
  | .encrypt plaintext _ => TlsCryptoServer.Countable checks plaintext
  | .decrypt _ _ => True

namespace CryptoSession

open TlsCryptoServer

def start : CryptoSession := ⟨TlsCryptoServer.new, []⟩

def step (checks : Bool) (s : CryptoSession) : CryptoOp → CryptoSession
  | .encrypt plaintext buffer =>
    match s.server.encryptPayload checks plaintext buffer with
    | (.ok (length, bytes), server) =>
      ⟨server, s.log ++
        [⟨makeNonce s.server.sequenceNonceCounter, plaintext, bytes.take length⟩]⟩
    | (_, server) => ⟨server, s.log⟩
  | .decrypt _ _ => s

def run (checks : Bool) (s : CryptoSession) (ops : List CryptoOp) : CryptoSession :=
  ops.foldl (step checks) s

/-- The counter is one ahead of the messages, whose nonces are the counters before it; and the last
message can be decrypted. -/
structure Inv (checks : Bool) (s : CryptoSession) : Prop where
  counter : s.server.sequenceNonceCounter = s.log.length + 1
  nonces : s.log.map Encryption.nonce = (List.range s.log.length).map fun k ↦ makeNonce (k + 1)
  latest : ∀ e, s.log.getLast? = some e → Opens checks s.server e.ciphertext e.plaintext

theorem inv_start (checks : Bool) : Inv checks start := ⟨rfl, rfl, nofun⟩

variable {checks : Bool} {s : CryptoSession}

theorem Inv.step (h : Inv checks s) {op : CryptoOp} (hop : op.Countable checks)
    (hroom : op.isEncrypt = true → s.log.length + 2 < 2 ^ 64) : Inv checks (s.step checks op) := by
  rcases op with ⟨plaintext, buffer⟩ | ⟨_, _⟩
  swap
  · exact h
  rw [CryptoSession.step]
  by_cases hbuffer : plaintext.length + 16 ≤ buffer.length
  · have hcounter : s.server.sequenceNonceCounter + 1 < 2 ^ 64 := by
      rw [h.counter]
      exact hroom rfl
    obtain ⟨ciphertext, hencrypt, hlength, hopens⟩ := encryptPayload_spec hbuffer hcounter hop
    rw [hencrypt]
    refine ⟨?_, ?_, ?_⟩
    · simp [h.counter]
    · rw [List.map_append, h.nonces, List.length_append, List.length_singleton, List.range_succ,
        List.map_append, h.counter]
      rfl
    · intro e he
      rw [List.getLast?_concat] at he
      obtain rfl := Option.some.inj he
      rw [List.take_left' hlength]
      exact hopens
  · have hshort : buffer.length < plaintext.length + tagLen := Nat.not_le.mp hbuffer
    rw [encryptPayload, if_pos hshort]
    exact h

theorem Inv.run (h : Inv checks s) {ops : List CryptoOp} (hops : ∀ op ∈ ops, op.Countable checks)
    (hroom : s.log.length + ops.countP CryptoOp.isEncrypt < 2 ^ 64 - 1) :
    Inv checks (s.run checks ops)
      ∧ (s.run checks ops).log.length ≤ s.log.length + ops.countP CryptoOp.isEncrypt := by
  induction ops generalizing s with
  | nil => exact ⟨h, Nat.le_refl _⟩
  | cons op ops ih =>
    obtain ⟨hop, hops⟩ := List.forall_mem_cons.mp hops
    rw [List.countP_cons] at hroom ⊢
    have hstep : (s.step checks op).log.length
        ≤ s.log.length + if op.isEncrypt = true then 1 else 0 := by
      rcases op with ⟨plaintext, buffer⟩ | ⟨_, _⟩
      · rw [CryptoSession.step]
        split <;> simp [CryptoOp.isEncrypt]
      · exact Nat.le_refl _
    have hnext : Inv checks (s.step checks op) := by
      refine h.step hop fun hencrypt ↦ ?_
      rw [if_pos hencrypt] at hroom
      omega
    obtain ⟨hinv, hlength⟩ := ih hnext hops (by omega)
    exact ⟨hinv, hlength.trans (by omega)⟩

/-- **The latest message can be decrypted**, in every session of fewer than `2 ^ 64 - 1` messages,
after any sequence of calls: no nonce was used twice, a message is encrypted if the buffer has room
for it, and the ciphertext of the last encryption is accepted and gives back its plaintext. With
overflow checks the messages must be short enough for their blocks to be counted. -/
theorem latest_message_decrypts (checks : Bool) (ops : List CryptoOp)
    (hops : ∀ op ∈ ops, op.Countable checks)
    (hcount : ops.countP CryptoOp.isEncrypt < 2 ^ 64 - 1) :
    let s := start.run checks ops
    (s.log.map Encryption.nonce).Nodup
      ∧ (∀ plaintext buffer, ops.countP CryptoOp.isEncrypt + 1 < 2 ^ 64 - 1 →
        plaintext.length + 16 ≤ buffer.length → Countable checks plaintext →
        (s.step checks (.encrypt plaintext buffer)).log.map Encryption.plaintext
          = s.log.map Encryption.plaintext ++ [plaintext])
      ∧ ∀ e, s.log.getLast? = some e → Opens checks s.server e.ciphertext e.plaintext := by
  intro s
  have hempty : start.log.length = 0 := rfl
  obtain ⟨h, hlength⟩ := (inv_start checks).run hops (by rw [hempty]; omega)
  rw [hempty, Nat.zero_add] at hlength
  refine ⟨?_, fun plaintext buffer hnext hbuffer hcountable ↦ ?_, h.latest⟩
  · change ((start.run checks ops).log.map Encryption.nonce).Nodup
    rw [h.nonces]
    refine List.nodup_range.map_on fun m hm n hn heq ↦ ?_
    rw [List.mem_range] at hm hn
    exact Nat.succ.inj (makeNonce_inj (by omega) (by omega) heq)
  · have hcounter : s.server.sequenceNonceCounter + 1 < 2 ^ 64 := by
      rw [h.counter]
      omega
    obtain ⟨ciphertext, hencrypt, -⟩ := encryptPayload_spec hbuffer hcounter hcountable
    rw [step, hencrypt]
    simp

/-- One message, decrypted at once. -/
theorem latest_message_decrypts_hello :
    let s := start.run true [.encrypt [104, 105] (List.replicate 20 0)]
    s.log.map Encryption.plaintext = [[104, 105]]
      ∧ ∀ e, s.log.getLast? = some e → Opens true s.server e.ciphertext e.plaintext := by
  refine ⟨by decide +kernel, (latest_message_decrypts true _ ?_ (by decide)).2.2⟩
  intro op hop
  obtain rfl := List.mem_singleton.mp hop
  exact fun _ ↦ by decide

/-- After a second message the first one is refused. -/
theorem earlier_message_is_refused :
    let s := start.run true [.encrypt [] (List.replicate 16 0), .encrypt [] (List.replicate 16 0)]
    s.log.length = 2 ∧ (s.log.map Encryption.plaintext) = [[], []]
      ∧ s.log.head?.map (fun e ↦ s.server.decryptPayload true e.ciphertext [])
        = some .cryptoError := by
  decide +kernel

end CryptoSession

end Gaxera
