import Mathlib.Data.Nat.Bitwise

/-!
# Numbers in network order

The highest byte of a number comes first. Numbers of 16 and of 32 bits are put together from bytes
and taken apart again.
-/

namespace Gaxera

def fromBeBytes16 (a b : UInt8) : UInt16 := UInt16.ofNat (a.toNat * 256 + b.toNat)

def toBeBytes16 (w : UInt16) : List UInt8 := [(w >>> 8).toUInt8, w.toUInt8]

def fromBeBytes32 (a b c d : UInt8) : UInt32 :=
  UInt32.ofNat (((a.toNat * 256 + b.toNat) * 256 + c.toNat) * 256 + d.toNat)

@[simp] theorem toNat_fromBeBytes16 (a b : UInt8) :
    (fromBeBytes16 a b).toNat = a.toNat * 256 + b.toNat := by
  have ha := a.toNat_lt
  have hb := b.toNat_lt
  rw [fromBeBytes16, UInt16.toNat_ofNat', Nat.mod_eq_of_lt (by omega)]

@[simp] theorem fromBeBytes16_toBeBytes16 (w : UInt16) :
    fromBeBytes16 (w >>> 8).toUInt8 w.toUInt8 = w := by
  have hw := w.toNat_lt
  have hhigh : (w >>> 8).toNat = w.toNat / 2 ^ 8 := Nat.shiftRight_eq_div_pow w.toNat 8
  apply UInt16.toNat_inj.mp
  rw [toNat_fromBeBytes16, UInt16.toNat_toUInt8, UInt16.toNat_toUInt8, hhigh]
  omega

@[simp] theorem toBeBytes16_fromBeBytes16 (a b : UInt8) :
    toBeBytes16 (fromBeBytes16 a b) = [a, b] := by
  have ha := a.toNat_lt
  have hb := b.toNat_lt
  have hhigh : (fromBeBytes16 a b >>> 8).toNat = (fromBeBytes16 a b).toNat / 2 ^ 8 :=
    Nat.shiftRight_eq_div_pow _ 8
  rw [toNat_fromBeBytes16] at hhigh
  have hfirst : (fromBeBytes16 a b >>> 8).toUInt8 = a := by
    apply UInt8.toNat_inj.mp
    rw [UInt16.toNat_toUInt8, hhigh]
    omega
  have hsecond : (fromBeBytes16 a b).toUInt8 = b := by
    apply UInt8.toNat_inj.mp
    rw [UInt16.toNat_toUInt8, toNat_fromBeBytes16]
    omega
  rw [toBeBytes16, hfirst, hsecond]

end Gaxera
