import Mathlib.Data.Nat.Notation

/-!
# Addresses

Addresses of IPv4 and IPv6.
-/

namespace Gaxera

theorem toList_four (v : Vector UInt8 4) : v.toList = [v[0], v[1], v[2], v[3]] := by
  apply List.ext_getElem
  · simp
  · intro i hi _
    obtain rfl | rfl | rfl | rfl : i = 0 ∨ i = 1 ∨ i = 2 ∨ i = 3 := by
      simp only [Vector.length_toList] at hi
      omega
    all_goals simp

theorem eq_four (v : Vector UInt8 4) : #v[v[0], v[1], v[2], v[3]] = v := by
  apply Vector.toList_inj.mp
  rw [toList_four v]
  rfl

structure Ipv4Addr where
  octets : Vector UInt8 4
deriving DecidableEq, Repr

def Ipv4Addr.new (a b c d : UInt8) : Ipv4Addr := ⟨#v[a, b, c, d]⟩

def fourAt (bytes : List UInt8) (i : ℕ) : Option (Vector UInt8 4) := do
  let a ← bytes[i]?
  let b ← bytes[i + 1]?
  let c ← bytes[i + 2]?
  let d ← bytes[i + 3]?
  some #v[a, b, c, d]

structure Ipv6Addr where
  octets : Vector UInt8 16
deriving DecidableEq, Repr

inductive IpAddr
  | v4 (ip : Ipv4Addr)
  | v6 (ip : Ipv6Addr)
deriving DecidableEq, Repr

end Gaxera
