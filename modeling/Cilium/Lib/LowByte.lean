import Mathlib.Data.Nat.Bitwise
import Mathlib.Data.UInt

/-! A 32-bit word as a high part, a multiple of 256, and a low byte: `y &&& 255` is the low byte,
`y &&& ~~~255` the high part, and a high part or-ed with a byte below 256 is their sum. -/

namespace LowByte

theorem toNat_and_255 (y : UInt32) : (y &&& 255).toNat = y.toNat % 256 := by
  rw [UInt32.toNat_and, show (255 : UInt32).toNat = 2 ^ 8 - 1 from rfl,
    Nat.and_two_pow_sub_one_eq_mod]

theorem and_255_eq_zero_iff (y : UInt32) : y &&& 255 = 0 ↔ y.toNat % 256 = 0 := by
  rw [← toNat_and_255, ← UInt32.toNat_inj]
  rfl

theorem toNat_or_of_and_255 {x c : UInt32} (hx : x &&& 255 = 0) (hc : c.toNat < 256) :
    (x ||| c).toNat = x.toNat + c.toNat := by
  have hx : x.toNat % 256 = 0 := (and_255_eq_zero_iff x).mp hx
  have hsplit : x.toNat = (x.toNat / 256) <<< 8 := by
    rw [Nat.shiftLeft_eq]; omega
  rw [UInt32.toNat_or, hsplit, ← Nat.shiftLeft_add_eq_or_of_lt (by simpa using hc)]

theorem and_not_and (y c : UInt32) : (y &&& ~~~c) &&& c = 0 := by
  apply UInt32.toBitVec_inj.mp
  ext i
  simp

theorem and_not_or_and (y c : UInt32) : (y &&& ~~~c) ||| (y &&& c) = y := by
  apply UInt32.toBitVec_inj.mp
  ext i
  simp only [UInt32.toBitVec_or, UInt32.toBitVec_and, UInt32.toBitVec_not, BitVec.getElem_or,
    BitVec.getElem_and, BitVec.getElem_not]
  cases y.toBitVec[i] <;> cases c.toBitVec[i] <;> rfl

theorem toNat_and_not_255 (y : UInt32) : (y &&& ~~~255).toNat = y.toNat - y.toNat % 256 := by
  have h := toNat_or_of_and_255 (and_not_and y 255) (c := y &&& 255)
    (by rw [toNat_and_255]; omega)
  rw [and_not_or_and, toNat_and_255] at h
  omega

theorem shiftLeft_8_and_255 (a : UInt32) : (a <<< 8) &&& 255 = 0 := by
  rw [and_255_eq_zero_iff, UInt32.toNat_shiftLeft, Nat.shiftLeft_eq,
    show (8 : UInt32).toNat % 32 = 8 from rfl]
  omega

theorem toNat_or_add_of_and_255 {x c d : UInt32} (hx : x &&& 255 = 0)
    (hcd : c.toNat + d.toNat < 256) : ((x ||| c) + d).toNat = x.toNat + c.toNat + d.toNat := by
  have hxm : x.toNat % 256 = 0 := (and_255_eq_zero_iff x).mp hx
  have hlt := x.toNat_lt
  rw [UInt32.toNat_add, toNat_or_of_and_255 hx (by omega)]
  omega

end LowByte
