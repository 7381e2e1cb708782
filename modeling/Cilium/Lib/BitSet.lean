import Mathlib.Data.Nat.Bitwise
import Mathlib.Data.Nat.Digits.Lemmas
import Mathlib.Data.Finset.Card
import Mathlib.Data.UInt

/-! A natural number as a set of bits, the way a bitmap is kept in a non-negative `big.Int`:
`Nat.testBit` reads a bit, `setBit` sets or clears one (`big.Int.SetBit`), and `bitsOf n` is
the set of the positions of its set bits.  `toBytes` and `ofBytes` are `big.Int.Bytes` and
`big.Int.SetBytes` (big-endian bytes without leading zeros), with `ofBytes (toBytes n) = n`.
`words n` is `big.Int.Bits`, the 64-bit words of `n` from the least significant, and a sum of
`onesCount64` over them, as a loop over the words counts bits, is the number of elements of
`bitsOf n`.  Last, masking a bit vector to a prefix and comparing two of them above a bit are
read as division by a power of two. -/

namespace BitSet

/-- The positions of the set bits of `n`. -/
def bitsOf (n : ℕ) : Finset ℕ := (Finset.range n).filter fun i => n.testBit i

/-- `big.Int.SetBit` on a non-negative integer. -/
def setBit (n i : ℕ) (b : Bool) : ℕ :=
  if b then n ||| 2 ^ i else if n.testBit i then n ^^^ 2 ^ i else n

/-- `big.Int.Bytes`: the big-endian bytes of `n`, without leading zeros. -/
def toBytes (n : ℕ) : List UInt8 := ((Nat.digits 256 n).map UInt8.ofNat).reverse

/-- `big.Int.SetBytes`: the number whose big-endian bytes these are. -/
def ofBytes (bs : List UInt8) : ℕ := bs.foldl (fun acc b => acc * 256 + b.toNat) 0

/-- `big.Int.Bits`: the 64-bit words of `n`, least significant first. -/
def words (n : ℕ) : List ℕ := Nat.digits (2 ^ 64) n

/-- `bits.OnesCount64`: the number of set bits of a word. -/
def onesCount64 (w : UInt64) : ℕ := (bitsOf w.toNat).card

theorem mem_bitsOf {n i : ℕ} : i ∈ bitsOf n ↔ n.testBit i = true := by
  rw [bitsOf, Finset.mem_filter, Finset.mem_range]
  constructor
  · exact fun h => h.2
  · intro h
    exact ⟨Nat.lt_of_lt_of_le Nat.lt_two_pow_self (Nat.ge_two_pow_of_testBit h), h⟩

@[simp]
theorem bitsOf_zero : bitsOf 0 = ∅ := rfl

theorem testBit_setBit (n i j : ℕ) (b : Bool) :
    (setBit n i b).testBit j = if i = j then b else n.testBit j := by
  unfold setBit
  cases b with
  | true =>
    rw [if_pos rfl, Nat.testBit_or, Nat.testBit_two_pow]
    by_cases hij : i = j <;> simp [hij]
  | false =>
    rw [if_neg Bool.false_ne_true]
    by_cases hset : n.testBit i = true
    · rw [if_pos hset, Nat.testBit_xor, Nat.testBit_two_pow]
      by_cases hij : i = j
      · subst hij
        simp [hset]
      · simp [hij]
    · rw [if_neg hset]
      by_cases hij : i = j
      · subst hij
        simpa using hset
      · rw [if_neg hij]

theorem bitsOf_setBit_true (n i : ℕ) : bitsOf (setBit n i true) = insert i (bitsOf n) := by
  ext j
  rw [mem_bitsOf, testBit_setBit, Finset.mem_insert, mem_bitsOf]
  by_cases hij : i = j
  · subst hij
    simp
  · rw [if_neg hij]
    exact ⟨Or.inr, fun h => h.resolve_left (Ne.symm hij)⟩

theorem bitsOf_setBit_false (n i : ℕ) : bitsOf (setBit n i false) = (bitsOf n).erase i := by
  ext j
  rw [mem_bitsOf, testBit_setBit, Finset.mem_erase, mem_bitsOf]
  by_cases hij : i = j
  · subst hij
    simp
  · rw [if_neg hij]
    exact ⟨fun h => ⟨Ne.symm hij, h⟩, fun h => h.2⟩

/-- The bits of `n`, all below `m`, number `m` exactly when every bit below `m` is set. -/
theorem card_bitsOf_eq_iff {n m : ℕ} (h : ∀ i ∈ bitsOf n, i < m) :
    (bitsOf n).card = m ↔ ∀ i < m, n.testBit i = true := by
  have hsub : bitsOf n ⊆ Finset.range m := fun i hi => Finset.mem_range.mpr (h i hi)
  constructor
  · intro hcard i hi
    have heq := Finset.eq_of_subset_of_card_le hsub (by rw [Finset.card_range, hcard])
    rw [← mem_bitsOf, heq]
    exact Finset.mem_range.mpr hi
  · intro hall
    have hsup : Finset.range m ⊆ bitsOf n := fun i hi =>
      mem_bitsOf.mpr (hall i (Finset.mem_range.mp hi))
    rw [Finset.Subset.antisymm hsub hsup, Finset.card_range]

/-! ### Bytes -/

theorem foldl_reverse_eq_ofDigits :
    ∀ L : List ℕ, (∀ d ∈ L, d < 256) →
      ((L.map UInt8.ofNat).reverse.foldl (fun acc b => acc * 256 + b.toNat) 0) =
        Nat.ofDigits 256 L
  | [], _ => rfl
  | d :: L, hL => by
    have ih := foldl_reverse_eq_ofDigits L fun e he => hL e (List.mem_cons_of_mem d he)
    have hd : (UInt8.ofNat d).toNat = d := by
      rw [UInt8.toNat_ofNat', Nat.mod_eq_of_lt (hL d List.mem_cons_self)]
    rw [List.map_cons, List.reverse_cons, List.foldl_append, ih, List.foldl_cons,
      List.foldl_nil, hd, Nat.ofDigits_cons]
    omega

/-- Restoring the bytes of a number gives the number back. -/
theorem ofBytes_toBytes (n : ℕ) : ofBytes (toBytes n) = n := by
  rw [toBytes, ofBytes,
    foldl_reverse_eq_ofDigits _ fun d hd => Nat.digits_lt_base (by norm_num) hd,
    Nat.ofDigits_digits]

/-! ### Counting by words -/

/-- The set bits of `n` are those of its low `k` bits and, moved up by `k`, those above. -/
theorem card_bitsOf_eq (n k : ℕ) :
    (bitsOf n).card = (bitsOf (n % 2 ^ k)).card + (bitsOf (n / 2 ^ k)).card := by
  have hsplit : bitsOf n =
      bitsOf (n % 2 ^ k) ∪ (bitsOf (n / 2 ^ k)).map (addRightEmbedding k) := by
    ext j
    rw [Finset.mem_union, Finset.mem_map, mem_bitsOf, mem_bitsOf, Nat.testBit_mod_two_pow]
    constructor
    · intro h
      by_cases hjk : j < k
      · exact Or.inl (by simp [hjk, h])
      · refine Or.inr ⟨j - k, mem_bitsOf.mpr ?_, ?_⟩
        · rw [Nat.testBit_div_two_pow, Nat.sub_add_cancel (Nat.le_of_not_lt hjk)]
          exact h
        · simp only [addRightEmbedding_apply]
          omega
    · rintro (h | ⟨i, hi, rfl⟩)
      · simp only [Bool.and_eq_true] at h
        exact h.2
      · rw [mem_bitsOf, Nat.testBit_div_two_pow] at hi
        exact hi
  have hdisj : Disjoint (bitsOf (n % 2 ^ k)) ((bitsOf (n / 2 ^ k)).map (addRightEmbedding k)) := by
    rw [Finset.disjoint_left]
    intro j hlow hhigh
    rw [mem_bitsOf, Nat.testBit_mod_two_pow] at hlow
    obtain ⟨i, -, rfl⟩ := Finset.mem_map.mp hhigh
    simp only [addRightEmbedding_apply, Bool.and_eq_true, decide_eq_true_eq] at hlow
    omega
  rw [hsplit, Finset.card_union_of_disjoint hdisj, Finset.card_map]

theorem words_of_pos {n : ℕ} (hn : 0 < n) : words n = n % 2 ^ 64 :: words (n / 2 ^ 64) :=
  Nat.digits_def' (by norm_num) hn

/-- Counting the bits of each word of `n` and adding them up counts the set bits of `n`. -/
theorem foldl_onesCount64_words (n a : ℕ) :
    (words n).foldl (fun c w => c + onesCount64 (UInt64.ofNat w)) a = a + (bitsOf n).card := by
  induction n using Nat.strong_induction_on generalizing a with
  | _ n ih =>
    rcases Nat.eq_zero_or_pos n with rfl | hn
    · rfl
    · have hlt : n / 2 ^ 64 < n := Nat.div_lt_self hn (by norm_num)
      have hword : onesCount64 (UInt64.ofNat (n % 2 ^ 64)) = (bitsOf (n % 2 ^ 64)).card := by
        rw [onesCount64, UInt64.toNat_ofNat', Nat.mod_mod]
      rw [words_of_pos hn, List.foldl_cons, ih _ hlt, hword, card_bitsOf_eq n 64]
      omega

/-! ### Prefixes of bit vectors -/

/-- Shifting the low `k` bits out and back clears them. -/
theorem toNat_ushiftRight_shiftLeft {w : ℕ} (b : BitVec w) (k : ℕ) :
    ((b >>> k) <<< k).toNat = b.toNat / 2 ^ k * 2 ^ k := by
  have hle : b.toNat / 2 ^ k * 2 ^ k ≤ b.toNat := Nat.div_mul_le_self _ _
  rw [BitVec.toNat_shiftLeft, BitVec.toNat_ushiftRight, Nat.shiftLeft_eq, Nat.shiftRight_eq_div_pow,
    Nat.mod_eq_of_lt (lt_of_le_of_lt hle b.isLt)]

/-- Two bit vectors agree above bit `k` when their xor shifted right by `k` is zero. -/
theorem xor_ushiftRight_eq_zero_iff {w : ℕ} (a b : BitVec w) (k : ℕ) :
    (a ^^^ b) >>> k = 0 ↔ a.toNat / 2 ^ k = b.toNat / 2 ^ k := by
  rw [← BitVec.toNat_inj, BitVec.toNat_ushiftRight, BitVec.toNat_xor, BitVec.ofNat_eq_ofNat,
    BitVec.toNat_zero, Nat.shiftRight_xor_distrib, Nat.xor_eq_zero_iff,
    Nat.shiftRight_eq_div_pow, Nat.shiftRight_eq_div_pow]

/-- On a number aligned at `2 ^ k`, or-ing in a number below `2 ^ k` adds it. -/
theorem two_pow_mul_or_of_lt {k x : ℕ} (q : ℕ) (hx : x < 2 ^ k) :
    2 ^ k * q ||| x = 2 ^ k * q + x :=
  (Nat.two_pow_add_eq_or_of_lt hx q).symm

/-- An aligned number xor itself plus a number below the alignment is that number. -/
theorem two_pow_mul_xor_add_of_lt {k x : ℕ} (q : ℕ) (hx : x < 2 ^ k) :
    2 ^ k * q ^^^ (2 ^ k * q + x) = x := by
  have hdiv : (2 ^ k * q ^^^ (2 ^ k * q + x)) / 2 ^ k = 0 := by
    rw [Nat.xor_div_two_pow, Nat.mul_div_cancel_left q (Nat.two_pow_pos k),
      Nat.mul_add_div (Nat.two_pow_pos k), Nat.div_eq_of_lt hx, Nat.add_zero, Nat.xor_self]
  have hmod : (2 ^ k * q ^^^ (2 ^ k * q + x)) % 2 ^ k = x := by
    rw [Nat.xor_mod_two_pow, Nat.mul_mod_right, Nat.mul_add_mod, Nat.mod_eq_of_lt hx,
      Nat.zero_xor]
  rw [← Nat.div_add_mod (2 ^ k * q ^^^ (2 ^ k * q + x)) (2 ^ k), hdiv, hmod, Nat.mul_zero,
    Nat.zero_add]

end BitSet
