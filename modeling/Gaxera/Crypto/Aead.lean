import Gaxera.Crypto.Session

/-!
# Records and the standard

RFC 8439 authenticates more than the ciphertext: the associated data before it, zeros up to a
multiple of 16 behind each of the two, and their lengths. The server authenticates the ciphertext
alone. So what it writes has the ciphertext of the standard, and has its tag only where the two sums
collide.
-/

namespace Gaxera

open Decoder (word)
open Poly1305 (blocks clampedR polynomial prime tag)

/-- Zeros up to a multiple of 16. -/
def pad16 (bytes : List UInt8) : List UInt8 := List.replicate ((16 - bytes.length % 16) % 16) 0

/-- What the standard authenticates. -/
def macData (aad ciphertext : List UInt8) : List UInt8 :=
  aad ++ pad16 aad ++ ciphertext ++ pad16 ciphertext ++ word 8 aad.length ++
    word 8 ciphertext.length

namespace TlsCryptoServer

/-- `AEAD_CHACHA20_POLY1305` of the standard. -/
def aead (key : Vector UInt8 32) (nonce aad plaintext : List UInt8) : List UInt8 :=
  let ciphertext := ChaCha20.encrypt key 1 nonce plaintext
  ciphertext ++ tag (macData aad ciphertext) (oneTimeKey key nonce)

/-- The sums over the ciphertext and over what the standard authenticates have the same last 128
bits. -/
def SumsCollide (s : TlsCryptoServer) (plaintext : List UInt8) : Prop :=
  let nonce := makeNonce s.sequenceNonceCounter
  let ciphertext := ChaCha20.encrypt s.key 1 nonce plaintext
  let r := clampedR (oneTimeKey s.key nonce)
  polynomial r (blocks ciphertext) % prime
    ≡ polynomial r (blocks (macData [] ciphertext)) % prime [MOD 2 ^ 128]

theorem tag_eq_tag_iff {key : Vector UInt8 32} {m m' : List UInt8} :
    tag m key = tag m' key ↔ polynomial (clampedR key) (blocks m) % prime
      ≡ polynomial (clampedR key) (blocks m') % prime [MOD 2 ^ 128] := by
  have hword {a b : ℕ} :
      word 16 (a % 2 ^ 128) = word 16 (b % 2 ^ 128) ↔ a ≡ b [MOD 2 ^ 128] := by
    refine ⟨fun h ↦ ?_, fun h ↦ congrArg (word 16) h⟩
    have hback : ∀ k : ℕ, Decoder.wordOf 16 (word 16 (k % 2 ^ 128) ++ []) = k % 2 ^ 128 := by
      intro k
      rw [Decoder.wordOf_word_append]
      exact Nat.mod_mod k (2 ^ 128)
    rw [Nat.ModEq, ← hback a, h, hback]
  rw [tag, tag, hword]
  exact ⟨Nat.ModEq.add_right_cancel' _, Nat.ModEq.add_right _⟩

theorem increment_eq_none_iff {checks : Bool} {w n : ℕ} :
    increment checks w n = none ↔ ¬ (checks = true → n + 1 < 2 ^ w) := by
  rw [increment]
  by_cases hlt : n + 1 < 2 ^ w
  · simp [hlt]
  · simp [hlt]

/-- **A record is the standard's exactly if the sums collide**, where there is a record at all: the
buffer has room, and with overflow checks the messages and the blocks can be counted. -/
theorem encryptPayload_is_aead_iff (checks : Bool) (s : TlsCryptoServer)
    (plaintext buffer : List UInt8) :
    (s.encryptPayload checks plaintext buffer).1 = .ok (plaintext.length + 16,
        aead s.key (makeNonce s.sequenceNonceCounter) [] plaintext
          ++ buffer.drop (plaintext.length + 16))
      ↔ plaintext.length + 16 ≤ buffer.length
        ∧ (checks = true → s.sequenceNonceCounter + 1 < 2 ^ 64) ∧ Countable checks plaintext
        ∧ s.SumsCollide plaintext := by
  rw [encryptPayload_eq]
  by_cases hbuffer : buffer.length < plaintext.length + 16
  · rw [if_pos hbuffer]
    exact iff_of_false nofun fun h ↦ absurd h.1 (Nat.not_le.mpr hbuffer)
  rw [if_neg hbuffer, and_iff_right (Nat.not_lt.mp hbuffer)]
  cases hnext : increment checks 64 s.sequenceNonceCounter with
  | none => exact iff_of_false nofun fun h ↦ increment_eq_none_iff.mp hnext h.1
  | some counter =>
    have hcounter : checks = true → s.sequenceNonceCounter + 1 < 2 ^ 64 := by
      refine not_not.mp fun h ↦ ?_
      rw [increment_eq_none_iff.mpr h] at hnext
      cases hnext
    rw [and_iff_right hcounter]
    dsimp only
    by_cases hlong : checks = true ∧ 64 * (2 ^ 32 - 2) < plaintext.length
    · rw [if_pos hlong]
      exact iff_of_false nofun fun h ↦ absurd (h.1 hlong.1) (Nat.not_le.mpr hlong.2)
    · have hcountable : Countable checks plaintext :=
        fun h ↦ Nat.not_lt.mp fun hlt ↦ hlong ⟨h, hlt⟩
      rw [if_neg hlong, and_iff_right hcountable, CryptoOutcome.ok.injEq, Prod.mk.injEq,
        and_iff_right rfl, List.append_cancel_right_eq, record, aead, List.append_cancel_left_eq]
      exact tag_eq_tag_iff

/-- The tag of the empty message is that of no block, where the standard has one for the lengths. -/
theorem empty_record_is_not_aead :
    (new.encryptPayload true [] (List.replicate 16 0)).1
      ≠ .ok (16, aead new.key (makeNonce new.sequenceNonceCounter) [] []) := by
  decide +kernel

end TlsCryptoServer

end Gaxera
