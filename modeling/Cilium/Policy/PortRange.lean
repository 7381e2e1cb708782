import Cilium.Policy.Types
import Cilium.Bitlpm.Unsigned
import Cilium.Lib.Dyadic
import Mathlib.Data.List.Pairwise
import Mathlib.Tactic.IntervalCases

/-! Port ranges as masked ports (`pkg/policy/portrange.go`) and the keys of a port range
(`keysForRange` of `pkg/policy/l4.go`).  A masked port stands for the ports `p` with
`p & mask == port`.  `PortRangeToMaskedPorts` finds the highest bit in which the two ends differ,
the middle bit, and covers the lower half from the start up to it and the upper half from the end
down to it.  Read as numbers, the masked ports of the lower half are a `Dyadic.ladder` from the
start: the start's own block of trailing zeros, then one block for each clear bit up to the
middle bit.  The upper half is the same ladder from the complement of the end, complemented, as
the source builds it from `^end`.  The ports are `UInt16` and Go's shifts are `shl16`, so the
wildcard of 16 bits is the mask 0. -/

namespace Cilium.Policy

open Cilium.Policy.Types Dyadic

/-- `bits.TrailingZeros16`. -/
def trailingZeros16 (x : UInt16) : Nat := x.toBitVec.ctz.toNat

/-- `MaskedPort`. -/
structure MaskedPort where
  port : UInt16
  mask : UInt16
  deriving DecidableEq, Repr

/-- `maskedPort`: the port with its `wildcardBits` lowest bits wildcarded. -/
def maskedPort (port : UInt16) (wildcardBits : Nat) : MaskedPort :=
  let mask := shl16 0xffff wildcardBits
  ⟨port &&& mask, mask⟩

/-- The first loop of `PortRangeToMaskedPorts`: a masked port for each clear bit of `start` from
`bit` below `middleBit`, with that bit set and the lower bits wildcarded. -/
def lowerLoop (start : UInt16) (bit middleBit : Nat) : List MaskedPort :=
  (List.range' bit (middleBit - bit)).filterMap fun bit =>
    if start &&& shl16 1 bit = 0 then some (maskedPort (start + shl16 1 bit) bit) else none

/-- The second loop: a masked port for each set bit of `end` from `bit` below `middleBit`, with
that bit cleared and the lower bits wildcarded. -/
def upperLoop (endPort : UInt16) (bit middleBit : Nat) : List MaskedPort :=
  (List.range' bit (middleBit - bit)).filterMap fun bit =>
    if endPort &&& shl16 1 bit ≠ 0 then some (maskedPort (endPort - shl16 1 bit) bit) else none

/-- `PortRangeToMaskedPorts`. -/
def portRangeToMaskedPorts (start endPort : UInt16) : List MaskedPort :=
  if start = 0 ∧ (endPort = 0 ∨ endPort = 0xffff) then [⟨0, 0⟩]
  else if endPort ≤ start then [⟨start, 0xffff⟩]
  else
    let commonBits := leadingZeros16 (start ^^^ endPort)
    let mask := shr16 0xffff commonBits
    -- the range is one block when the start has zeros and the end ones below the common bits
    if start &&& mask = 0 ∧ ~~~endPort &&& mask = 0 then [maskedPort start (16 - commonBits)]
    else
      let middleBit := 16 - 1 - commonBits
      let middle := shl16 1 middleBit
      let bit := trailingZeros16 (start ||| middle)
      let lower := maskedPort start bit :: lowerLoop start (bit + 1) middleBit
      let bit := trailingZeros16 (~~~endPort ||| middle)
      lower ++ maskedPort endPort bit :: upperLoop endPort (bit + 1) middleBit

/-- From 5 to 10: the start's own port, 6 and 7, then the end's own port, 8 and 9. -/
example : portRangeToMaskedPorts 5 10 = [⟨5, 0xffff⟩, ⟨6, 0xfffe⟩, ⟨10, 0xffff⟩, ⟨8, 0xfffe⟩] := by
  decide

/-- `keysForRange`: the key itself for a single port, else one key for each masked port, with
the port prefix of the mask. -/
def keysForRange (key : Key) (port endPort : UInt16) : List Key :=
  if port = 0 ∨ endPort ≤ port then [key]
  else (portRangeToMaskedPorts port endPort).map fun mp =>
    key.withPortPrefix mp.port (leadingZeros16 (~~~mp.mask)).toUInt8

namespace MaskedPort

/-- The ports of a masked port: `p & mask == port`. -/
def Matches (m : MaskedPort) (p : UInt16) : Prop := p &&& m.mask = m.port

instance (m : MaskedPort) (p : UInt16) : Decidable (m.Matches p) :=
  inferInstanceAs (Decidable (_ = _))

/-- A mask of leading ones, as `maskedPort` makes. -/
def IsPrefixMasked (m : MaskedPort) : Prop := ∃ b ≤ 16, m.mask = shl16 0xffff b

end MaskedPort

/-! ### Masked ports as blocks of ports -/

theorem toNat_and_shl16_allOnes (p : UInt16) (b : Nat) :
    (p &&& shl16 0xffff b).toNat = p.toNat / 2 ^ b * 2 ^ b := by
  -- the mask clears the low `b` bits, as a shift down and back up does
  have hall : (0xffff : UInt16).toBitVec = BitVec.allOnes 16 := by decide
  have hmask : p.toBitVec &&& ((0xffff : UInt16).toBitVec <<< b) = (p.toBitVec >>> b) <<< b := by
    ext i hi
    simp only [hall, BitVec.getElem_and, BitVec.getElem_shiftLeft, BitVec.getElem_ushiftRight,
      BitVec.getElem_allOnes]
    by_cases hib : i < b
    · simp [hib]
    · simp [hib, show b + (i - b) = i by omega, BitVec.getLsbD_eq_getElem hi]
  change (p.toBitVec &&& ((0xffff : UInt16).toBitVec <<< b)).toNat = _
  rw [hmask, BitVec.toNat_shiftLeft, BitVec.toNat_ushiftRight, Nat.shiftLeft_eq,
    Nat.shiftRight_eq_div_pow]
  exact Nat.mod_eq_of_lt (lt_of_le_of_lt (Nat.div_mul_le_self _ _) p.toBitVec.isLt)

/-- A masked port stands for the block of `2 ^ b` ports around its port. -/
theorem matches_maskedPort (x p : UInt16) (b : Nat) :
    (maskedPort x b).Matches p ↔ InBlock b x.toNat p.toNat := by
  have hpos := Nat.two_pow_pos b
  change p &&& shl16 0xffff b = x &&& shl16 0xffff b ↔ _
  rw [← UInt16.toNat_inj, toNat_and_shl16_allOnes, toNat_and_shl16_allOnes]
  exact Nat.mul_right_cancel_iff hpos

/-- A prefix-masked port that holds `a` stands for the block of `a`. -/
theorem matches_iff_of_matches {m : MaskedPort} {b : Nat} (hm : m.mask = shl16 0xffff b)
    {a : UInt16} (ha : m.Matches a) (p : UInt16) : m.Matches p ↔ InBlock b a.toNat p.toNat := by
  have hm' : m = maskedPort a b := by
    cases m
    simp only [MaskedPort.Matches] at ha hm
    subst hm
    simp [maskedPort, ← ha]
  rw [hm', matches_maskedPort]

theorem toNat_not_eq (x : UInt16) : (~~~x).toNat = 2 ^ 16 - (x.toNat + 1) := by
  rw [UInt16.toNat_not]
  simp only [UInt16.size]
  omega

/-- The complement maps the block of `x` to the block of `~x`. -/
theorem matches_maskedPort_not (x p : UInt16) {b : Nat} (hb : b ≤ 16) :
    (maskedPort (~~~x) b).Matches p ↔ InBlock b x.toNat (~~~p).toNat := by
  have hx := x.toNat_lt
  have hp := p.toNat_lt
  rw [matches_maskedPort, toNat_not_eq, toNat_not_eq,
    ← inBlock_compl (w := 16) hx (show 2 ^ 16 - (p.toNat + 1) < 2 ^ 16 by omega) hb,
    show 2 ^ 16 - (2 ^ 16 - (p.toNat + 1) + 1) = p.toNat by omega]

/-! ### The bits that the loops test -/

theorem toNat_shl16_one {b : Nat} (hb : b < 16) : (shl16 1 b).toNat = 2 ^ b := by
  change (1#16 <<< b).toNat = _
  rw [BitVec.toNat_shiftLeft, Nat.shiftLeft_eq, BitVec.toNat_ofNat, Nat.one_mod_two_pow (by omega),
    Nat.one_mul]
  exact Nat.mod_eq_of_lt (Nat.pow_lt_pow_right (by omega) hb)

theorem and_shl16_one_eq_zero {x : UInt16} {b : Nat} (hb : b < 16) :
    x &&& shl16 1 b = 0 ↔ x.toNat.testBit b = false := by
  have h := Bitlpm.mask_beq_zero x.toBitVec hb
  change (x.toBitVec &&& 1#16 <<< b == 0#16) = !x.toNat.testBit b at h
  rw [← UInt16.toBitVec_inj]
  change x.toBitVec &&& 1#16 <<< b = 0#16 ↔ _
  rw [← beq_iff_eq, h]
  simp

/-- Setting a clear bit adds its power of two. -/
theorem toNat_add_shl16_one {x : UInt16} {b : Nat} (hb : b < 16) (h : x &&& shl16 1 b = 0) :
    (x + shl16 1 b).toNat = x.toNat + 2 ^ b := by
  rw [← toNat_shl16_one hb]
  exact BitVec.toNat_add_of_and_eq_zero (congrArg UInt16.toBitVec h)

/-- The first loop yields the climb of the start, block by block. -/
theorem lowerLoop_eq (start : UInt16) (lo M : Nat) (hM : M ≤ 16) :
    lowerLoop start lo M =
      (climb start.toNat lo (M - lo)).map fun β => maskedPort (UInt16.ofNat β.2) β.1 := by
  unfold lowerLoop climb
  have hbits : ∀ b ∈ List.range' lo (M - lo), b < 16 := fun b hb => by
    simp only [List.mem_range'] at hb
    omega
  generalize List.range' lo (M - lo) = l at hbits
  induction l with
  | nil => rfl
  | cons b l ih =>
    have hb := hbits b List.mem_cons_self
    have ih := ih fun c hc => hbits c (List.mem_cons_of_mem _ hc)
    by_cases hclear : start &&& shl16 1 b = 0
    · -- a clear bit: the masked port of the bit set, which is the block past the start's own
      have hsum := toNat_add_shl16_one hb hclear
      have hofNat : start + shl16 1 b = UInt16.ofNat (start.toNat + 2 ^ b) := by
        rw [← UInt16.toNat_inj, UInt16.toNat_ofNat', hsum]
        exact (Nat.mod_eq_of_lt (hsum ▸ (start + shl16 1 b).toNat_lt)).symm
      rw [List.filterMap_cons, List.filter_cons_of_pos
        (by simp [(and_shl16_one_eq_zero hb).mp hclear]), List.map_cons, List.map_cons, ← ih]
      simp only [if_pos hclear, hofNat]
    · have hset : start.toNat.testBit b = true := by
        simpa [and_shl16_one_eq_zero hb] using hclear
      rw [List.filterMap_cons, List.filter_cons_of_neg (by simp [hset]), ← ih]
      simp only [if_neg hclear]

/-- The second loop yields the climb of the complement of the end, complemented. -/
theorem upperLoop_eq (endPort : UInt16) (lo M : Nat) (hM : M ≤ 16) :
    upperLoop endPort lo M =
      (climb (~~~endPort).toNat lo (M - lo)).map
        fun β => maskedPort (~~~UInt16.ofNat β.2) β.1 := by
  unfold upperLoop climb
  have hbits : ∀ b ∈ List.range' lo (M - lo), b < 16 := fun b hb => by
    simp only [List.mem_range'] at hb
    omega
  generalize List.range' lo (M - lo) = l at hbits
  induction l with
  | nil => rfl
  | cons b l ih =>
    have hb := hbits b List.mem_cons_self
    have ih := ih fun c hc => hbits c (List.mem_cons_of_mem _ hc)
    -- a bit of the end is set exactly when it is clear in the complement
    have hnot : (~~~endPort).toNat.testBit b = !endPort.toNat.testBit b := by
      rw [toNat_not_eq, Nat.testBit_two_pow_sub_succ endPort.toNat_lt]
      simp [hb]
    by_cases hset : endPort &&& shl16 1 b = 0
    · have hclear := (and_shl16_one_eq_zero hb).mp hset
      rw [List.filterMap_cons, List.filter_cons_of_neg (by rw [hnot, hclear]; decide), ← ih]
      simp only [if_neg (not_not.mpr hset)]
    · -- a set bit: the masked port of the bit cleared, the complement of the climb's block
      have hbit : endPort.toNat.testBit b = true := by
        simpa [and_shl16_one_eq_zero hb] using hset
      have hge : 2 ^ b ≤ endPort.toNat := Nat.ge_two_pow_of_testBit hbit
      have hsum : (~~~endPort).toNat + 2 ^ b < 2 ^ 16 := by
        have := endPort.toNat_lt
        rw [toNat_not_eq]
        omega
      have hsub : endPort - shl16 1 b = ~~~UInt16.ofNat ((~~~endPort).toNat + 2 ^ b) := by
        rw [← UInt16.toNat_inj, toNat_not_eq, UInt16.toNat_ofNat', Nat.mod_eq_of_lt hsum,
          UInt16.toNat_sub_of_le _ _ (by rw [UInt16.le_iff_toNat_le, toNat_shl16_one hb]; exact hge),
          toNat_shl16_one hb, toNat_not_eq]
        have := endPort.toNat_lt
        omega
      rw [List.filterMap_cons, List.filter_cons_of_pos (by rw [hnot, hbit]; rfl), List.map_cons,
        List.map_cons, ← ih]
      simp only [if_pos hset, hsub]

/-! ### The middle bit and the two ladders -/

/-- The bit of `x` at `i`, read through its `BitVec`. -/
theorem getLsbD_toBitVec (x : UInt16) (i : Nat) : x.toBitVec.getLsbD i = x.toNat.testBit i := rfl

/-- The common leading bits of two different ends stop at the middle bit, which is clear in the
start and set in the end. -/
theorem straddle_of_lt {start endPort : UInt16} (hlt : start < endPort) :
    leadingZeros16 (start ^^^ endPort) < 16 ∧
      Straddle (16 - 1 - leadingZeros16 (start ^^^ endPort)) start.toNat endPort.toNat := by
  have hx : (start ^^^ endPort).toBitVec ≠ 0#16 := by
    intro h0
    have : start = endPort := by
      apply UInt16.toBitVec_inj.mp
      rw [UInt16.toBitVec_xor] at h0
      exact BitVec.xor_eq_zero_iff.mp h0
    exact absurd (UInt16.lt_iff_toNat_lt.mp hlt) (by rw [this]; exact Nat.lt_irrefl _)
  have hc : leadingZeros16 (start ^^^ endPort) < 16 := by
    have := BitVec.clz_lt_iff_ne_zero.mpr hx
    rw [BitVec.lt_def] at this
    simpa [leadingZeros16] using this
  set c := leadingZeros16 (start ^^^ endPort) with hcdef
  have hxor : ∀ i, (start ^^^ endPort).toBitVec.getLsbD i =
      (start.toNat.testBit i ^^ endPort.toNat.testBit i) := fun i => by
    rw [UInt16.toBitVec_xor, BitVec.getLsbD_xor]
    rfl
  -- above the middle bit the ends agree
  have habove : ∀ i, 16 - 1 - c < i → start.toNat.testBit i = endPort.toNat.testBit i := by
    intro i hi
    rcases Nat.lt_or_ge i 16 with hi16 | hi16
    · have h := (Bitlpm.le_clz_iff (start ^^^ endPort).toBitVec (show c ≤ 16 by omega)).mp le_rfl
        (15 - i) (by omega)
      rw [show 16 - 1 - (15 - i) = i by omega, hxor] at h
      simpa using h
    · rw [Nat.testBit_lt_two_pow (lt_of_lt_of_le start.toNat_lt (Nat.pow_le_pow_right (by omega) hi16)),
        Nat.testBit_lt_two_pow (lt_of_lt_of_le endPort.toNat_lt (Nat.pow_le_pow_right (by omega) hi16))]
  have hmid : start.toNat.testBit (16 - 1 - c) ≠ endPort.toNat.testBit (16 - 1 - c) := by
    have h : (start ^^^ endPort).toBitVec.getLsbD (16 - 1 - c) = true :=
      BitVec.getLsbD_true_clz_of_ne_zero (by omega) hx
    rw [hxor] at h
    intro heq
    rw [heq] at h
    simp at h
  have hdiv : start.toNat / 2 ^ (16 - 1 - c + 1) = endPort.toNat / 2 ^ (16 - 1 - c + 1) :=
    Nat.eq_of_testBit_eq fun i => by
      rw [Nat.testBit_div_two_pow, Nat.testBit_div_two_pow]
      exact habove _ (by omega)
  refine ⟨hc, hdiv, ?_, ?_⟩ <;>
  · -- a set bit in the start and a clear one in the end would put the start past the end
    have hs := div_two_pow_succ start.toNat (16 - 1 - c)
    have he := div_two_pow_succ endPort.toNat (16 - 1 - c)
    have hle := Nat.div_le_div_right (c := 2 ^ (16 - 1 - c)) (UInt16.lt_iff_toNat_lt.mp hlt).le
    rw [hdiv] at hs
    cases h1 : start.toNat.testBit (16 - 1 - c) <;> cases h2 : endPort.toNat.testBit (16 - 1 - c) <;>
      simp_all

/-- The trailing zeros of `x | 1 << m` start a ladder of `x` towards `m`. -/
theorem ladderStart_trailingZeros (x : UInt16) {m : Nat} (hm : m < 16) :
    LadderStart x.toNat (trailingZeros16 (x ||| shl16 1 m)) m := by
  have hbit : ∀ i, (x ||| shl16 1 m).toBitVec.getLsbD i = (x.toNat.testBit i || decide (m = i)) :=
    fun i => by
      rw [UInt16.toBitVec_or, BitVec.getLsbD_or, getLsbD_toBitVec, getLsbD_toBitVec,
        toNat_shl16_one hm, Nat.testBit_two_pow]
  have hne : (x ||| shl16 1 m).toBitVec ≠ 0#16 := by
    intro h0
    have := hbit m
    rw [h0] at this
    simp at this
  have hlow : ∀ i < trailingZeros16 (x ||| shl16 1 m), x.toNat.testBit i = false ∧ m ≠ i :=
    fun i hi => by
      have := BitVec.getLsbD_false_of_lt_ctz hi
      rw [hbit] at this
      simpa using this
  have hle : trailingZeros16 (x ||| shl16 1 m) ≤ m := by
    by_contra h
    exact (hlow m (by omega)).2 rfl
  refine ⟨?_, hle, fun hlt => ?_⟩
  · -- the bits below the trailing zeros are clear
    apply Nat.dvd_of_mod_eq_zero
    apply Nat.eq_of_testBit_eq
    intro i
    rw [Nat.testBit_mod_two_pow, Nat.zero_testBit]
    by_cases hi : i < trailingZeros16 (x ||| shl16 1 m)
    · simp [hi, (hlow i hi).1]
    · simp [hi]
  · have h1 : (x ||| shl16 1 m).toBitVec.getLsbD (trailingZeros16 (x ||| shl16 1 m)) = true :=
      BitVec.getLsbD_true_ctz_of_ne_zero hne
    rw [hbit] at h1
    simpa [show m ≠ trailingZeros16 (x ||| shl16 1 m) by omega] using h1

/-- The mask of `PortRangeToMaskedPorts` below the common bits reads the remainder. -/
theorem and_shr16_eq_zero (x : UInt16) {c : Nat} (hc : c < 16) :
    x &&& shr16 0xffff c = 0 ↔ x.toNat % 2 ^ (16 - 1 - c + 1) = 0 := by
  have hmask : (shr16 0xffff c).toNat = 2 ^ (16 - 1 - c + 1) - 1 := by
    change ((0xffff#16) >>> c).toNat = _
    rw [BitVec.toNat_ushiftRight, Nat.shiftRight_eq_div_pow, BitVec.toNat_ofNat,
      show 16 - 1 - c + 1 = 16 - c by omega]
    have := compl_div_two_pow (w := 16) (k := c) (p := 0) (by omega) (by omega)
    simpa using this
  rw [← UInt16.toNat_inj, UInt16.toNat_and, hmask, Nat.and_two_pow_sub_one_eq_mod]
  rfl

/-- The masked port of a ladder's block at the start's side. -/
def lowerPort (β : Nat × Nat) : MaskedPort := maskedPort (UInt16.ofNat β.2) β.1

/-- The masked port of a ladder's block at the end's side, from the complement of the end. -/
def upperPort (β : Nat × Nat) : MaskedPort := maskedPort (~~~UInt16.ofNat β.2) β.1

theorem matches_lowerPort {β : Nat × Nat} (hβ : β.2 < 2 ^ 16) (p : UInt16) :
    (lowerPort β).Matches p ↔ InBlock β.1 β.2 p.toNat := by
  rw [lowerPort, matches_maskedPort, UInt16.toNat_ofNat', Nat.mod_eq_of_lt hβ]

theorem matches_upperPort {β : Nat × Nat} (hβ : β.2 < 2 ^ 16) (hb : β.1 ≤ 16) (p : UInt16) :
    (upperPort β).Matches p ↔ InBlock β.1 β.2 (~~~p).toNat := by
  rw [upperPort, matches_maskedPort_not _ _ hb, UInt16.toNat_ofNat', Nat.mod_eq_of_lt hβ]

/-- What `PortRangeToMaskedPorts` computes for a range of more than one port: one block, or the
ladder from the start up to the middle bit and the complemented ladder from the end down to it. -/
theorem portRangeToMaskedPorts_cases {start endPort : UInt16} (h0 : 0 < start)
    (hlt : start < endPort) :
    (∃ m < 16, Straddle m start.toNat endPort.toNat ∧ start.toNat % 2 ^ (m + 1) = 0 ∧
        (~~~endPort).toNat % 2 ^ (m + 1) = 0 ∧
        portRangeToMaskedPorts start endPort = [maskedPort start (m + 1)]) ∨
    (∃ m < 16, ∃ t t', Straddle m start.toNat endPort.toNat ∧
        LadderStart start.toNat t m ∧ LadderStart (~~~endPort).toNat t' m ∧
        ¬(start.toNat % 2 ^ (m + 1) = 0 ∧ (~~~endPort).toNat % 2 ^ (m + 1) = 0) ∧
        portRangeToMaskedPorts start endPort =
          (ladder start.toNat t m).map lowerPort ++ (ladder (~~~endPort).toNat t' m).map upperPort) := by
  obtain ⟨hc, hst⟩ := straddle_of_lt hlt
  have hne0 : start ≠ 0 := fun h => by
    rw [h] at h0
    exact Nat.lt_irrefl _ (UInt16.lt_iff_toNat_lt.mp h0)
  have hnle : ¬endPort ≤ start := fun h =>
    absurd (UInt16.lt_iff_toNat_lt.mp hlt) (Nat.not_lt.mpr (UInt16.le_iff_toNat_le.mp h))
  unfold portRangeToMaskedPorts
  rw [if_neg (fun h => hne0 h.1), if_neg hnle]
  simp only [and_shr16_eq_zero _ hc]
  split
  · rename_i hsingle
    exact .inl ⟨_, by omega, hst, hsingle.1, hsingle.2, by rw [show 16 - leadingZeros16 (start ^^^ endPort) = 16 - 1 - leadingZeros16 (start ^^^ endPort) + 1 by omega]⟩
  · rename_i hsplit
    refine .inr ⟨_, by omega, _, _, hst, ladderStart_trailingZeros start (by omega),
      ladderStart_trailingZeros (~~~endPort) (by omega), hsplit, ?_⟩
    have hM : 16 - 1 - leadingZeros16 (start ^^^ endPort) ≤ 16 := by omega
    simp only [ladder, List.map_cons, List.cons_append, lowerLoop_eq _ _ _ hM, upperLoop_eq _ _ _ hM,
      lowerPort, upperPort, UInt16.ofNat_toNat, UInt16.not_not]
    rfl

/-! ### An exact, disjoint and minimal cover -/

section Halves

variable {s t m : Nat}

theorem lt_of_mem_ladder (hs : LadderStart s t m) (hs16 : s < 2 ^ 16) (hm : m ≤ 16) :
    ∀ β ∈ ladder s t m, β.2 < 2 ^ 16 ∧ β.1 ≤ m := fun β hβ =>
  ⟨lt_of_le_of_lt (snd_mem_of_mem_ladder hs β hβ).2 (top_lt_two_pow hs16 hm),
    fst_le_of_mem_ladder hs β hβ⟩

theorem exists_lowerPort_iff (hs : LadderStart s t m) (hs16 : s < 2 ^ 16) (hm : m ≤ 16)
    (p : UInt16) :
    (∃ mp ∈ (ladder s t m).map lowerPort, mp.Matches p) ↔
      ∃ β ∈ ladder s t m, InBlock β.1 β.2 p.toNat := by
  simp only [List.mem_map]
  constructor
  · rintro ⟨_, ⟨β, hβ, rfl⟩, h⟩
    exact ⟨β, hβ, (matches_lowerPort (lt_of_mem_ladder hs hs16 hm β hβ).1 p).mp h⟩
  · rintro ⟨β, hβ, h⟩
    exact ⟨_, ⟨β, hβ, rfl⟩, (matches_lowerPort (lt_of_mem_ladder hs hs16 hm β hβ).1 p).mpr h⟩

theorem exists_upperPort_iff (hs : LadderStart s t m) (hs16 : s < 2 ^ 16) (hm : m ≤ 16)
    (p : UInt16) :
    (∃ mp ∈ (ladder s t m).map upperPort, mp.Matches p) ↔
      ∃ β ∈ ladder s t m, InBlock β.1 β.2 (~~~p).toNat := by
  have hb := lt_of_mem_ladder hs hs16 hm
  simp only [List.mem_map]
  constructor
  · rintro ⟨_, ⟨β, hβ, rfl⟩, h⟩
    exact ⟨β, hβ, (matches_upperPort (hb β hβ).1 (le_trans (hb β hβ).2 hm) p).mp h⟩
  · rintro ⟨β, hβ, h⟩
    exact ⟨_, ⟨β, hβ, rfl⟩, (matches_upperPort (hb β hβ).1 (le_trans (hb β hβ).2 hm) p).mpr h⟩

end Halves

/-- The masked ports of a range of more than one port hold exactly the ports of the range. -/
theorem portRangeToMaskedPorts_matches {start endPort : UInt16} (h0 : 0 < start)
    (hlt : start < endPort) (p : UInt16) :
    (∃ mp ∈ portRangeToMaskedPorts start endPort, mp.Matches p) ↔ start ≤ p ∧ p ≤ endPort := by
  have hp := p.toNat_lt
  have he := endPort.toNat_lt
  rw [UInt16.le_iff_toNat_le, UInt16.le_iff_toNat_le]
  rcases portRangeToMaskedPorts_cases h0 hlt with
    ⟨m, hm, hst, hs0, he0, hports⟩ | ⟨m, hm, t, t', hst, hs, hs', -, hports⟩
  · -- one block: the end is the last port of the start's block of `2 ^ (m + 1)`
    rw [hports, List.exists_mem_cons_iff, matches_maskedPort,
      inBlock_iff_of_dvd (Nat.dvd_of_mod_eq_zero hs0)]
    rw [toNat_not_eq, compl_mod_two_pow he (by omega)] at he0
    have := Nat.div_add_mod endPort.toNat (2 ^ (m + 1))
    have := Nat.div_add_mod start.toNat (2 ^ (m + 1))
    have := Nat.mod_lt endPort.toNat (Nat.two_pow_pos (m + 1))
    rw [hst.div_eq] at *
    simp
    omega
  · -- two ladders: up from the start to the middle bit, and down from the end
    simp only [hports, List.mem_append, or_and_right, exists_or]
    rw [exists_lowerPort_iff hs start.toNat_lt (by omega),
      exists_upperPort_iff hs' (~~~endPort).toNat_lt (by omega), toNat_not_eq p, toNat_not_eq]
    rw [toNat_not_eq] at hs'
    have hjoin := hst.top_add_one
    have hcompl := compl_top he (show m ≤ 16 by omega)
    have htop := top_lt_two_pow (show 2 ^ 16 - (endPort.toNat + 1) < 2 ^ 16 by omega)
      (show m ≤ 16 by omega)
    have hlow := Nat.div_mul_le_self endPort.toNat (2 ^ m)
    have hs_top := le_top start.toNat m
    rw [mem_ladder_iff hs, mem_ladder_iff hs']
    omega

/-- Two masked ports with no port in common. -/
def MaskedPort.Disjoint (a b : MaskedPort) : Prop := ∀ p, a.Matches p → ¬b.Matches p

theorem MaskedPort.Disjoint.symm {a b : MaskedPort} (h : a.Disjoint b) : b.Disjoint a :=
  fun p hb ha => h p ha hb

instance : Std.Symm MaskedPort.Disjoint := ⟨fun _ _ h => h.symm⟩

/-- The masked ports of a range of more than one port are pairwise disjoint. -/
theorem portRangeToMaskedPorts_pairwise {start endPort : UInt16} (h0 : 0 < start)
    (hlt : start < endPort) : (portRangeToMaskedPorts start endPort).Pairwise MaskedPort.Disjoint := by
  rcases portRangeToMaskedPorts_cases h0 hlt with
    ⟨m, -, -, -, -, hports⟩ | ⟨m, hm, t, t', hst, hs, hs', -, hports⟩
  · rw [hports]
    exact List.pairwise_singleton _ _
  have hb := lt_of_mem_ladder hs start.toNat_lt (by omega)
  have hb' := lt_of_mem_ladder hs' (~~~endPort).toNat_lt (by omega)
  rw [hports, List.pairwise_append, List.pairwise_map, List.pairwise_map]
  refine ⟨(ladder_pairwise hs).imp_of_mem fun ha hb2 h p hpa hpb => h _
      ((matches_lowerPort (hb _ ha).1 p).mp hpa) ((matches_lowerPort (hb _ hb2).1 p).mp hpb),
    (ladder_pairwise hs').imp_of_mem fun ha hb2 h p hpa hpb => h _
      ((matches_upperPort (hb' _ ha).1 (le_trans (hb' _ ha).2 (by omega)) p).mp hpa)
      ((matches_upperPort (hb' _ hb2).1 (le_trans (hb' _ hb2).2 (by omega)) p).mp hpb), ?_⟩
  -- the lower half ends at the top of the start's block below the middle bit
  intro a ha b hb2 p hpa hpb
  have hl := (exists_lowerPort_iff hs start.toNat_lt (by omega) p).mp ⟨a, ha, hpa⟩
  have hu := (exists_upperPort_iff hs' (~~~endPort).toNat_lt (by omega) p).mp ⟨b, hb2, hpb⟩
  rw [mem_ladder_iff hs] at hl
  rw [mem_ladder_iff hs', toNat_not_eq, toNat_not_eq] at hu
  have hjoin := hst.top_add_one
  have hcompl := compl_top endPort.toNat_lt (show m ≤ 16 by omega)
  have htop := top_lt_two_pow (show 2 ^ 16 - (endPort.toNat + 1) < 2 ^ 16 by omega)
    (show m ≤ 16 by omega)
  have := p.toNat_lt
  omega

/-- A list of pairwise disjoint masked ports, each a block of ports in `I` whose parent block
leaves `I`, is no longer than a cover of `I` by prefix-masked ports: each of its blocks holds,
whole, a member of the cover. -/
theorem length_le_card_of_maximal {ports : List MaskedPort} {I : UInt16 → Prop}
    (hdisj : ports.Pairwise MaskedPort.Disjoint)
    (hmax : ∀ mp ∈ ports, ∃ x b, mp = maskedPort x b ∧ b < 16 ∧ (∀ p, mp.Matches p → I p) ∧
      ∃ q : UInt16, InBlock (b + 1) x.toNat q.toNat ∧ ¬I q)
    {S : Finset MaskedPort} (hS : ∀ γ ∈ S, γ.IsPrefixMasked)
    (hSI : ∀ p, (∃ γ ∈ S, γ.Matches p) ↔ I p) : ports.length ≤ S.card := by
  have hown : ∀ mp ∈ ports, ∃ x, mp.Matches x := fun mp hmp => by
    obtain ⟨x, b, rfl, -⟩ := hmax mp hmp
    exact ⟨x, (matches_maskedPort x x b).mpr (InBlock.refl _ _)⟩
  have hnodup : ports.Nodup := hdisj.imp_of_mem fun ha _ h heq => by
    subst heq
    obtain ⟨x, hx⟩ := hown _ ha
    exact h x hx hx
  rw [← List.toFinset_card_of_nodup hnodup]
  refine card_le_of_forall_exists_subset (A := fun mp => {p | mp.Matches p})
    (B := fun mp => {p | mp.Matches p}) ?_ ?_
  · intro a ha b hb hab
    have h := hdisj.forall (List.mem_toFinset.mp ha) (List.mem_toFinset.mp hb) hab
    exact Set.disjoint_left.mpr fun p hpa hpb => h p hpa hpb
  · intro mp hmp
    obtain ⟨x, b, rfl, hb, hcov, q, hq, hnq⟩ := hmax _ (List.mem_toFinset.mp hmp)
    have hx : (maskedPort x b).Matches x := (matches_maskedPort x x b).mpr (InBlock.refl _ _)
    obtain ⟨γ, hγ, hγx⟩ := (hSI x).mpr (hcov x hx)
    obtain ⟨j, hj, hmask⟩ := hS γ hγ
    have hγp := matches_iff_of_matches hmask hγx
    refine ⟨γ, hγ, ⟨x, hγx⟩, fun p hp => ?_⟩
    -- the ports of `γ` are in `I`, and the parent of `x`'s block reaches `q`, which is not
    have hsub : ∀ n, InBlock j x.toNat n → ∃ p : UInt16, p.toNat = n ∧ I p := fun n hn => by
      have hn16 := hn.lt_two_pow x.toNat_lt hj
      refine ⟨UInt16.ofNat n, by rw [UInt16.toNat_ofNat', Nat.mod_eq_of_lt hn16], ?_⟩
      refine (hSI _).mp ⟨γ, hγ, (hγp _).mpr ?_⟩
      rwa [UInt16.toNat_ofNat', Nat.mod_eq_of_lt hn16]
    have hnq' : ¬∃ p : UInt16, p.toNat = q.toNat ∧ I p := fun ⟨p, hpq, hp⟩ =>
      hnq (UInt16.toNat_inj.mp hpq ▸ hp)
    exact (matches_maskedPort x p b).mpr
      (InBlock.of_parent_not_subset hq hnq' hsub (InBlock.refl _ _) ((hγp p).mp hp))

/-- No cover of a range of more than one port by prefix-masked ports has fewer members than the
masked ports of the range. -/
theorem portRangeToMaskedPorts_minimal {start endPort : UInt16} (h0 : 0 < start)
    (hlt : start < endPort) {S : Finset MaskedPort} (hS : ∀ γ ∈ S, γ.IsPrefixMasked)
    (hSI : ∀ p, (∃ γ ∈ S, γ.Matches p) ↔ start ≤ p ∧ p ≤ endPort) :
    (portRangeToMaskedPorts start endPort).length ≤ S.card := by
  have hs16 := start.toNat_lt
  have he16 := endPort.toNat_lt
  have hse := UInt16.lt_iff_toNat_lt.mp hlt
  rcases portRangeToMaskedPorts_cases h0 hlt with
    ⟨m, -, -, -, -, hports⟩ | ⟨m, hm, t, t', hst, hs, hs', hsplit, hports⟩
  · -- one block: any cover has a member, the one that holds the start
    obtain ⟨γ, hγ, -⟩ := (hSI start).mpr ⟨UInt16.le_iff_toNat_le.mpr le_rfl, UInt16.le_iff_toNat_le.mpr hse.le⟩
    rw [hports]
    exact Finset.card_pos.mpr ⟨γ, hγ⟩
  refine length_le_card_of_maximal (portRangeToMaskedPorts_pairwise h0 hlt) ?_ hS hSI
  have hcov : ∀ mp ∈ portRangeToMaskedPorts start endPort, ∀ p, mp.Matches p →
      start ≤ p ∧ p ≤ endPort := fun mp hmp p hp =>
    (portRangeToMaskedPorts_matches h0 hlt p).mp ⟨mp, hmp, hp⟩
  rw [toNat_not_eq] at hs' hports
  rw [toNat_not_eq, compl_mod_two_pow he16 (by omega)] at hsplit
  have hb := lt_of_mem_ladder hs hs16 (by omega)
  have hb' := lt_of_mem_ladder hs' (show 2 ^ 16 - (endPort.toNat + 1) < 2 ^ 16 by omega) (by omega)
  -- each half's first block is maximal unless the range is one block, which it is not
  have hlow := ladder_parent_outside hs (hst.lt_top_succ hs fun h hwhole => hsplit ⟨h, by
    have := Nat.mod_lt endPort.toNat (Nat.two_pow_pos (m + 1))
    omega⟩)
  have hhigh := ladder_parent_outside hs' ((hst.compl hs16 he16 (by omega)).lt_top_succ hs'
    fun h hwhole => hsplit ⟨by
      rw [compl_mod_two_pow hs16 (by omega)] at hwhole
      have := Nat.mod_lt start.toNat (Nat.two_pow_pos (m + 1))
      omega, by rw [compl_mod_two_pow he16 (by omega)] at h; omega⟩)
  intro mp hmp
  have hmp' := hmp
  rw [hports, List.mem_append, List.mem_map, List.mem_map] at hmp'
  rcases hmp' with ⟨β, hβ, rfl⟩ | ⟨β, hβ, rfl⟩
  · -- a block of the lower half: its parent reaches below the start or past the end
    obtain ⟨n, hn, hout⟩ := hlow β hβ
    have hn16 := hn.lt_two_pow (hb β hβ).1 (by have := (hb β hβ).2; omega)
    refine ⟨UInt16.ofNat β.2, β.1, rfl, by have := (hb β hβ).2; omega, hcov _ hmp, UInt16.ofNat n, ?_, ?_⟩
    · rwa [UInt16.toNat_ofNat', UInt16.toNat_ofNat', Nat.mod_eq_of_lt (hb β hβ).1,
        Nat.mod_eq_of_lt hn16]
    · rw [UInt16.le_iff_toNat_le, UInt16.le_iff_toNat_le, UInt16.toNat_ofNat', Nat.mod_eq_of_lt hn16]
      omega
  · -- a block of the upper half: the same, through the complement
    obtain ⟨n, hn, hout⟩ := hhigh β hβ
    have hn16 := hn.lt_two_pow (hb' β hβ).1 (by have := (hb' β hβ).2; omega)
    refine ⟨~~~UInt16.ofNat β.2, β.1, rfl, by have := (hb' β hβ).2; omega, hcov _ hmp,
      UInt16.ofNat (2 ^ 16 - (n + 1)), ?_, ?_⟩
    · rw [toNat_not_eq, UInt16.toNat_ofNat', UInt16.toNat_ofNat', Nat.mod_eq_of_lt (hb' β hβ).1,
        Nat.mod_eq_of_lt (show 2 ^ 16 - (n + 1) < 2 ^ 16 by omega),
        inBlock_compl (hb' β hβ).1 hn16 (by have := (hb' β hβ).2; omega)]
      exact hn
    · rw [UInt16.le_iff_toNat_le, UInt16.le_iff_toNat_le, UInt16.toNat_ofNat',
        Nat.mod_eq_of_lt (show 2 ^ 16 - (n + 1) < 2 ^ 16 by omega)]
      omega

/-! ### The keys of a port range -/

/-- Every masked port of a range of more than one port wildcards fewer than 16 bits. -/
theorem exists_maskedPort_of_mem {start endPort : UInt16} (h0 : 0 < start) (hlt : start < endPort) :
    ∀ mp ∈ portRangeToMaskedPorts start endPort, ∃ x b, b < 16 ∧ mp = maskedPort x b := by
  rcases portRangeToMaskedPorts_cases h0 hlt with
    ⟨m, hm, -, hs0, -, hports⟩ | ⟨m, hm, t, t', -, hs, hs', -, hports⟩
  · -- the one block is not all the ports, as the start is not 0
    intro mp hmp
    rw [hports, List.mem_singleton] at hmp
    refine ⟨start, m + 1, ?_, hmp⟩
    by_contra hge
    have : start.toNat % 2 ^ 16 = start.toNat := Nat.mod_eq_of_lt start.toNat_lt
    rw [show m + 1 = 16 by omega] at hs0
    have := UInt16.lt_iff_toNat_lt.mp h0
    simp_all
  · intro mp hmp
    rw [hports, List.mem_append, List.mem_map, List.mem_map] at hmp
    rcases hmp with ⟨β, hβ, rfl⟩ | ⟨β, hβ, rfl⟩
    · exact ⟨_, β.1, by have := fst_le_of_mem_ladder hs β hβ; omega, rfl⟩
    · exact ⟨_, β.1, by have := fst_le_of_mem_ladder hs' β hβ; omega, rfl⟩

/-- The port prefix is read back from the bits below the direction bit. -/
theorem portPrefixLen_bits (a c : UInt8) (hc : c.toNat < 2 ^ 7) :
    (a &&& directionBitMask ||| c) &&& ~~~directionBitMask = c := by
  apply UInt8.toNat_inj.mp
  rw [UInt8.toNat_and, UInt8.toNat_or, UInt8.toNat_and,
    show (~~~directionBitMask).toNat = 2 ^ 7 - 1 from rfl, Nat.and_two_pow_sub_one_eq_mod,
    Nat.or_mod_two_pow, Nat.and_mod_two_pow, show directionBitMask.toNat % 2 ^ 7 = 0 from rfl,
    Nat.and_zero, Nat.zero_or, Nat.mod_eq_of_lt hc]

/-- The key of a masked port that wildcards `b < 16` bits spans the ports of the masked port. -/
theorem withPortPrefix_maskedPort (key : Key) (x : UInt16) {b : Nat} (hb : b < 16) (p : UInt16) :
    let k := key.withPortPrefix (maskedPort x b).port
      (leadingZeros16 (~~~(maskedPort x b).mask)).toUInt8
    k.destPort ≤ p ∧ p ≤ k.endPort ↔ (maskedPort x b).Matches p := by
  -- the mask of `b` wildcard bits has `16 - b` leading ones, and spans `2 ^ b - 1` past its port
  have hlz : leadingZeros16 (~~~(shl16 0xffff b)) = 16 - b := by interval_cases b <;> decide
  have hspan : (shr16 0xffff (16 - b)).toNat = 2 ^ b - 1 := by interval_cases b <;> decide
  have hlen : (16 - b).toUInt8.toNat = 16 - b := by
    rw [Nat.toUInt8, UInt8.toNat_ofNat', Nat.mod_eq_of_lt (by omega)]
  have hguard : ((16 - b).toUInt8 > 16 || (x &&& shl16 0xffff b) != 0 && (16 - b).toUInt8 == 0)
      = false := by
    interval_cases b <;> simp
  intro k
  have hdest : k.destPort = x &&& shl16 0xffff b := by
    simp only [k, Key.withPortPrefix, maskedPort, hlz, hguard, Bool.false_eq_true, if_false, hlen,
      show 16 - (16 - b) = b by omega, UInt16.and_assoc, UInt16.and_self]
  have hprefix : k.portPrefixLen = (16 - b).toUInt8 := by
    simp only [k, Key.withPortPrefix, LPMKey.portPrefixLen, maskedPort, hlz, hguard,
      Bool.false_eq_true, if_false]
    exact portPrefixLen_bits _ _ (by rw [hlen]; omega)
  have hx := toNat_and_shl16_allOnes x b
  have hfit : x.toNat / 2 ^ b * 2 ^ b + 2 ^ b ≤ 2 ^ 16 := by
    have := Nat.lt_div_mul_add (a := x.toNat) (Nat.two_pow_pos b)
    have hq : x.toNat / 2 ^ b < 2 ^ (16 - b) := by
      rw [Nat.div_lt_iff_lt_mul (Nat.two_pow_pos b), ← pow_add, Nat.sub_add_cancel hb.le]
      exact x.toNat_lt
    calc x.toNat / 2 ^ b * 2 ^ b + 2 ^ b = (x.toNat / 2 ^ b + 1) * 2 ^ b := by ring
      _ ≤ 2 ^ (16 - b) * 2 ^ b := Nat.mul_le_mul_right _ hq
      _ = 2 ^ 16 := by rw [← pow_add, Nat.sub_add_cancel hb.le]
  have hend : k.endPort.toNat = x.toNat / 2 ^ b * 2 ^ b + (2 ^ b - 1) := by
    have := Nat.two_pow_pos b
    simp only [LPMKey.endPort, hprefix, hlen]
    rw [UInt16.toNat_add, hdest, hx, hspan, Nat.mod_eq_of_lt (by omega)]
  rw [UInt16.le_iff_toNat_le, UInt16.le_iff_toNat_le, hend, hdest, hx, matches_maskedPort,
    inBlock_iff]
  have := Nat.two_pow_pos b
  omega

/-- The keys of a range of more than one port span disjoint stretches of ports that together
are the range. -/
theorem keysForRange_partition (key : Key) {start endPort : UInt16} (h0 : 0 < start)
    (hlt : start < endPort) :
    (keysForRange key start endPort).Pairwise
        (fun a b => ∀ p, a.destPort ≤ p ∧ p ≤ a.endPort → ¬(b.destPort ≤ p ∧ p ≤ b.endPort)) ∧
      ∀ p, (∃ k ∈ keysForRange key start endPort, k.destPort ≤ p ∧ p ≤ k.endPort) ↔
        start ≤ p ∧ p ≤ endPort := by
  have hne0 : ¬(start = 0 ∨ endPort ≤ start) := by
    rintro (h | h)
    · rw [h] at h0
      exact Nat.lt_irrefl _ (UInt16.lt_iff_toNat_lt.mp h0)
    · exact absurd (UInt16.lt_iff_toNat_lt.mp hlt) (Nat.not_lt.mpr (UInt16.le_iff_toNat_le.mp h))
  -- each key spans the ports of its masked port
  have hkey : ∀ mp ∈ portRangeToMaskedPorts start endPort, ∀ p,
      (key.withPortPrefix mp.port (leadingZeros16 (~~~mp.mask)).toUInt8).destPort ≤ p ∧
        p ≤ (key.withPortPrefix mp.port (leadingZeros16 (~~~mp.mask)).toUInt8).endPort ↔
        mp.Matches p := by
    intro mp hmp p
    obtain ⟨x, b, hb, rfl⟩ := exists_maskedPort_of_mem h0 hlt mp hmp
    exact withPortPrefix_maskedPort key x hb p
  unfold keysForRange
  rw [if_neg hne0]
  refine ⟨List.pairwise_map.mpr ((portRangeToMaskedPorts_pairwise h0 hlt).imp_of_mem
    fun ha hb h p hpa hpb => h p ((hkey _ ha p).mp hpa) ((hkey _ hb p).mp hpb)), fun p => ?_⟩
  rw [← portRangeToMaskedPorts_matches h0 hlt p]
  simp only [List.mem_map]
  constructor
  · rintro ⟨_, ⟨mp, hmp, rfl⟩, h⟩
    exact ⟨mp, hmp, (hkey mp hmp p).mp h⟩
  · rintro ⟨mp, hmp, h⟩
    exact ⟨_, ⟨mp, hmp, rfl⟩, (hkey mp hmp p).mpr h⟩

/-- `PortRangeToMaskedPorts` of a range of more than one port is an exact, disjoint and minimal
cover of the range by masked ports, and the keys that `keysForRange` makes of them span disjoint
stretches of ports that together are the range. -/
theorem portRangeToMaskedPorts_exact_minimal_cover {start endPort : UInt16} (h0 : 0 < start)
    (hlt : start < endPort) :
    (portRangeToMaskedPorts start endPort).Pairwise MaskedPort.Disjoint ∧
      (∀ p, (∃ mp ∈ portRangeToMaskedPorts start endPort, mp.Matches p) ↔
        start ≤ p ∧ p ≤ endPort) ∧
      (∀ S : Finset MaskedPort, (∀ γ ∈ S, γ.IsPrefixMasked) →
        (∀ p, (∃ γ ∈ S, γ.Matches p) ↔ start ≤ p ∧ p ≤ endPort) →
        (portRangeToMaskedPorts start endPort).length ≤ S.card) ∧
      ∀ key : Key,
        (keysForRange key start endPort).Pairwise
          (fun a b => ∀ p, a.destPort ≤ p ∧ p ≤ a.endPort → ¬(b.destPort ≤ p ∧ p ≤ b.endPort)) ∧
        ∀ p, (∃ k ∈ keysForRange key start endPort, k.destPort ≤ p ∧ p ≤ k.endPort) ↔
          start ≤ p ∧ p ≤ endPort :=
  ⟨portRangeToMaskedPorts_pairwise h0 hlt, portRangeToMaskedPorts_matches h0 hlt,
    fun _ hS hSI => portRangeToMaskedPorts_minimal h0 hlt hS hSI,
    fun key => keysForRange_partition key h0 hlt⟩

/-- The range from 5 to 10: four masked ports. -/
theorem portRangeToMaskedPorts_five_ten :
    0 < (5 : UInt16) ∧ (5 : UInt16) < 10 ∧
      ((portRangeToMaskedPorts 5 10).Pairwise MaskedPort.Disjoint ∧
        (∀ p, (∃ mp ∈ portRangeToMaskedPorts 5 10, mp.Matches p) ↔ 5 ≤ p ∧ p ≤ 10) ∧
        (∀ S : Finset MaskedPort, (∀ γ ∈ S, γ.IsPrefixMasked) →
          (∀ p, (∃ γ ∈ S, γ.Matches p) ↔ 5 ≤ p ∧ p ≤ 10) →
          (portRangeToMaskedPorts 5 10).length ≤ S.card) ∧
        ∀ key : Key,
          (keysForRange key 5 10).Pairwise
            (fun a b => ∀ p, a.destPort ≤ p ∧ p ≤ a.endPort → ¬(b.destPort ≤ p ∧ p ≤ b.endPort)) ∧
          ∀ p, (∃ k ∈ keysForRange key 5 10, k.destPort ≤ p ∧ p ≤ k.endPort) ↔ 5 ≤ p ∧ p ≤ 10) :=
  ⟨by decide, by decide, portRangeToMaskedPorts_exact_minimal_cover (by decide) (by decide)⟩

end Cilium.Policy
