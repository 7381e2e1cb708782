import Cilium.Bitlpm.Invariant
import Mathlib.Data.Nat.Bitwise

/-! The keys of `UintTrie` (`pkg/container/bitlpm/unsigned.go`): an unsigned integer of `w` bits
read from the most significant bit down.  `CommonPrefix` is the number of leading zeros of the
exclusive or of two keys, and the key meets the trie's `Contract` at `maxPrefix = w`, the maximum
prefix that `NewUintTrie` gives its trie. -/

namespace Cilium.Bitlpm

open Key

/-- `unsignedKey[U]`, for `U` an unsigned integer type of `w` bits. -/
structure UnsignedKey (w : Nat) where
  value : BitVec w
  deriving DecidableEq

/-- `CommonPrefix` counts `bits.LeadingZeros` of `u.value ^ v.value`; `BitValueAt(i)` tests the
mask `1 << (w-1-i)`.  For `i ≥ w` the Go shift count wraps around, the mask is zero and the bit
is `0`. -/
instance (w : Nat) : Key (UnsignedKey w) where
  commonPrefix u v := (u.value ^^^ v.value).clz.toNat
  bitValueAt u i := if i < w then !((u.value &&& (1#w <<< (w - 1 - i))) == 0#w) else false

/-- The mask of bit `j` is zero on `x` exactly when bit `j` of `x` is clear. -/
theorem mask_beq_zero {w j : Nat} (x : BitVec w) (hj : j < w) :
    ((x &&& (1#w <<< j)) == 0#w) = !x.getLsbD j := by
  rw [BitVec.getLsbD_eq_getElem hj]
  by_cases h : x[j]
  · simp only [h, Bool.not_true, beq_eq_false_iff_ne, ne_eq]
    intro h0
    have := congrArg (fun y => y[j]) h0
    simp [h] at this
  · simp only [h, Bool.not_false, beq_iff_eq]
    ext i hi
    simp only [BitVec.getElem_and, BitVec.getElem_shiftLeft, BitVec.getElem_zero]
    by_cases hij : i = j
    · subst hij
      simp [h]
    · simp
      omega

theorem bitValueAt_unsigned {w : Nat} (u : UnsignedKey w) (i : Nat) :
    bitValueAt u i = (decide (i < w) && u.value.getLsbD (w - 1 - i)) := by
  change (if i < w then _ else false) = _
  split
  next h => simp [mask_beq_zero _ (show w - 1 - i < w by omega), h]
  next h => simp [h]

theorem clz_toNat_le {w : Nat} (x : BitVec w) : x.clz.toNat ≤ w := by
  have h := BitVec.le_def.mp (BitVec.clz_le (x := x))
  simpa [Nat.mod_eq_of_lt Nat.lt_two_pow_self] using h

/-- The leading zeros of `x` reach `n` exactly when its top `n` bits are clear. -/
theorem le_clz_iff {w n : Nat} (x : BitVec w) (hn : n ≤ w) :
    n ≤ x.clz.toNat ↔ ∀ i < n, x.getLsbD (w - 1 - i) = false := by
  constructor
  · -- below `2 ^ (w - clz)`, every bit from `w - clz` up is clear
    intro h i hi
    have hlt : x.toNat < 2 ^ (w - 1 - i) :=
      lt_of_lt_of_le BitVec.toNat_lt_two_pow_sub_clz (Nat.pow_le_pow_right (by omega) (by omega))
    rw [BitVec.getLsbD, Nat.testBit_eq_false_of_lt hlt]
  · -- otherwise the bit at `w - 1 - clz` is set and lies among the top `n`
    intro h
    by_contra hlt
    have hx : x ≠ 0#w := by
      rintro rfl
      have := BitVec.clz_eq_iff_eq_zero.mpr (rfl : (0#w) = 0#w)
      rw [this] at hlt
      simp [Nat.mod_eq_of_lt Nat.lt_two_pow_self] at hlt
      omega
    have hset := BitVec.getLsbD_true_clz_of_ne_zero (by omega) hx
    rw [h _ (by omega)] at hset
    exact Bool.false_ne_true hset

/-- The unsigned keys meet the trie's contract at their width. -/
theorem unsigned_contract (w : Nat) : Contract (UnsignedKey w) w where
  le_max a b := clz_toNat_le _
  le_iff a b n hn := by
    change n ≤ (a.value ^^^ b.value).clz.toNat ↔ _
    rw [le_clz_iff _ hn]
    refine forall_congr' fun i => imp_congr_right fun hi => ?_
    simp [bitValueAt_unsigned, show i < w by omega]

end Cilium.Bitlpm
