import Cilium.Ipam.Bitmap
import Cilium.Policy.Selector

/-! The service IP range allocator (pkg/ipam/service/ipallocator/allocator.go).  A Range is a
prefix, the first allocatable address `base`, the number `max` of allocatable addresses, and an
allocation bitmap over the offsets `0 … max - 1` from `base`.  NewCIDRRange drops the network
and the broadcast address of prefixes with more than two addresses unless the options allow
them, and RangeSize caps IPv6 ranges at `2 ^ 16` addresses.  addOffset and addrOffset do the
address arithmetic, for IPv6 on the two 64-bit halves with a carry and a borrow; here they are
shown to be `base + offset` and `addr - base` on the numeric value of the address.

The zone of an IPv6 address is left out, as in the rest of the model. -/

namespace Cilium

open Cilium.Ipcache BitSet

/-- `Addr.Next`, with wrap-around: netip returns the invalid address after the last one, which
no range reaches. -/
def Ipcache.Addr.next : Addr → Addr
  | .v4 b => .v4 (b + 1)
  | .v6 b => .v6 (b + 1)

/-- `Addr.As16`: an IPv4 address is returned in its IPv4-mapped form. -/
def Ipcache.Addr.as16 : Addr → BitVec 128
  | .v4 b => BitVec.ofNat 128 (0xffff * 2 ^ 32 + b.toNat)
  | .v6 b => b

/-- The numeric value of an address. -/
def Ipcache.Addr.val : Addr → ℕ
  | .v4 b => b.toNat
  | .v6 b => b.toNat

/-- `Prefix.String`. -/
def Prefix.toString (p : Prefix) : String := p.addr.toString ++ "/" ++ ToString.toString p.bits

/-- The last address of a prefix: the broadcast address of an IPv4 network. -/
def Prefix.lastAddr (p : Prefix) : ℕ := p.addr.val + 2 ^ (p.addr.bitLen - p.bits) - 1

/-- The number of host bits of a prefix. -/
def Prefix.hostBits (p : Prefix) : ℕ := p.addr.bitLen - p.bits

/-! ### Addresses and prefixes on numbers -/

theorem Ipcache.Addr.bitLen_cases (a : Addr) : a.bitLen = 32 ∨ a.bitLen = 128 := by
  cases a
  · exact Or.inl rfl
  · exact Or.inr rfl

theorem Ipcache.Addr.val_lt (a : Addr) : a.val < 2 ^ a.bitLen := by
  cases a with
  | v4 b => exact b.isLt
  | v6 b => exact b.isLt

/-- Two addresses of one family with one value are equal. -/
theorem Ipcache.Addr.eq_of_val {a b : Addr} (hfam : a.bitLen = b.bitLen) (hval : a.val = b.val) :
    a = b := by
  cases a with
  | v4 x =>
    cases b with
    | v4 y => exact congrArg Addr.v4 (BitVec.eq_of_toNat_eq hval)
    | v6 y => cases hfam
  | v6 x =>
    cases b with
    | v4 y => cases hfam
    | v6 y => exact congrArg Addr.v6 (BitVec.eq_of_toNat_eq hval)

/-- A valid prefix contains the addresses of its family that agree with it above the host
bits. -/
theorem Prefix.contains_iff {p : Prefix} (hv : p.isValid = true) {ip : Addr} :
    p.contains ip = true ↔
      p.addr.bitLen = ip.bitLen ∧ ip.val / 2 ^ p.hostBits = p.addr.val / 2 ^ p.hostBits := by
  obtain ⟨a, bits⟩ := p
  unfold Prefix.contains
  rw [hv, Bool.true_and]
  cases a with
  | v4 a =>
    cases ip with
    | v4 b =>
      show ((a ^^^ b) >>> (32 - bits) == 0) = true ↔
        32 = 32 ∧ b.toNat / 2 ^ (32 - bits) = a.toNat / 2 ^ (32 - bits)
      rw [beq_iff_eq, xor_ushiftRight_eq_zero_iff]
      exact ⟨fun h => ⟨rfl, h.symm⟩, fun h => h.2.symm⟩
    | v6 b => simp [Addr.bitLen]
  | v6 a =>
    cases ip with
    | v4 b => simp [Addr.bitLen]
    | v6 b =>
      show ((a ^^^ b) >>> (128 - bits) == 0) = true ↔
        128 = 128 ∧ b.toNat / 2 ^ (128 - bits) = a.toNat / 2 ^ (128 - bits)
      rw [beq_iff_eq, xor_ushiftRight_eq_zero_iff]
      exact ⟨fun h => ⟨rfl, h.symm⟩, fun h => h.2.symm⟩

/-- Masking a valid prefix keeps its family and length and clears its host bits. -/
theorem Prefix.masked_of_valid {p : Prefix} (hv : p.isValid = true) :
    p.masked.bits = p.bits ∧ p.masked.addr.bitLen = p.addr.bitLen ∧
      p.masked.addr.val = p.addr.val / 2 ^ p.hostBits * 2 ^ p.hostBits := by
  obtain ⟨a, bits⟩ := p
  have hle : bits ≤ a.bitLen := of_decide_eq_true hv
  unfold Prefix.masked Addr.prefixOf
  rw [if_pos hle]
  cases a with
  | v4 b => exact ⟨rfl, rfl, toNat_ushiftRight_shiftLeft b (32 - bits)⟩
  | v6 b =>
    refine ⟨rfl, by simp only [Option.getD_some, Addr.bitLen], ?_⟩
    exact toNat_ushiftRight_shiftLeft b (128 - bits)

/-- An aligned block of `2 ^ h` addresses below `2 ^ L` ends at or below `2 ^ L`. -/
theorem add_two_pow_le {N h L : ℕ} (hh : h ≤ L) (hN : N < 2 ^ L) (hmod : N % 2 ^ h = 0) :
    N + 2 ^ h ≤ 2 ^ L := by
  obtain ⟨k, rfl⟩ := Nat.dvd_of_mod_eq_zero hmod
  have hL : 2 ^ L = 2 ^ h * 2 ^ (L - h) := by
    rw [← pow_add, Nat.add_sub_cancel' hh]
  rw [hL] at hN ⊢
  have hk : k < 2 ^ (L - h) := Nat.lt_of_mul_lt_mul_left hN
  calc 2 ^ h * k + 2 ^ h = 2 ^ h * (k + 1) := by ring
    _ ≤ 2 ^ h * 2 ^ (L - h) := Nat.mul_le_mul_left _ hk

namespace Ipam.IPAllocator

open Cilium.Ipam.Allocator BitSet

/-- The largest `int`, `^uint(0) >> 1`, on a 64-bit platform. -/
def maxInt : ℕ := 2 ^ 63 - 1

/-- The first eight bytes of a 16-byte address, as a big-endian word. -/
def hi64 (b : BitVec 128) : UInt64 := UInt64.ofNat (b.toNat / 2 ^ 64)

/-- The last eight bytes of a 16-byte address, as a big-endian word. -/
def lo64 (b : BitVec 128) : UInt64 := UInt64.ofNat (b.toNat % 2 ^ 64)

/-- `AddrFrom16` of the two big-endian words. -/
def from64 (hi lo : UInt64) : BitVec 128 := BitVec.ofNat 128 (hi.toNat * 2 ^ 64 + lo.toNat)

/-- addOffset: `base + offset`, for IPv6 on the low word with a carry into the high word. -/
def addOffset (base : Addr) (offset : ℕ) : Addr :=
  match base with
  | .v4 b => .v4 (b + BitVec.ofNat 32 offset)
  | .v6 b =>
    let hi := hi64 b
    let lo := lo64 b
    let newLo := lo + UInt64.ofNat offset
    let hi := if newLo < lo then hi + 1 else hi
    .v6 (from64 hi newLo)

/-- addrOffset: `addr - base`, none when `addr` is before `base` or the offset does not fit in
an `int`. -/
def addrOffset (base addr : Addr) : Option ℕ :=
  match base with
  | .v4 b =>
    match addr with
    | .v4 a =>
      if a < b then none
      else
        let offset := a - b
        if offset.toNat > maxInt then none else some offset.toNat
    -- `As4` of an IPv6 address panics
    | .v6 _ => none
  | .v6 b =>
    let a := addr.as16
    let baseHi := hi64 b
    let baseLo := lo64 b
    let addrHi := hi64 a
    let addrLo := lo64 a
    if addrHi < baseHi || (addrHi == baseHi && addrLo < baseLo) then none
    else
      let hi := addrHi - baseHi
      let lo := addrLo - baseLo
      let hi := if addrLo < baseLo then hi - 1 else hi
      if hi ≠ 0 then none else if lo.toNat > maxInt then none else some lo.toNat

/-- RangeSize: the number of addresses of the prefix, `0` for IPv4 `/0` and `/1` and IPv6 `/0`
and `/1`, and at most `2 ^ 16` for IPv6. -/
def RangeSize (cidr : Prefix) : ℕ :=
  let bits := cidr.addr.bitLen
  let ones := cidr.bits
  if bits = 32 ∧ bits - ones ≥ 31 ∨ bits = 128 ∧ bits - ones ≥ 127 then 0
  else if bits = 128 ∧ bits - ones ≥ 16 then 2 ^ 16
  else 2 ^ (bits - ones)

/-- The functional options of NewCIDRRange. -/
inductive CIDRRangeOption where
  | WithAllowFirstIP
  | WithAllowLastIP
  | WithAllowFirstLastIPs
  deriving DecidableEq, Repr

structure cidrRangeOptions where
  allowFirstIP : Bool := false
  allowLastIP : Bool := false
  deriving DecidableEq, Repr

def CIDRRangeOption.apply : CIDRRangeOption → cidrRangeOptions → cidrRangeOptions
  | .WithAllowFirstIP, o => { o with allowFirstIP := true }
  | .WithAllowLastIP, o => { o with allowLastIP := true }
  | .WithAllowFirstLastIPs, _ => { allowFirstIP := true, allowLastIP := true }

def applyOptions (opts : List CIDRRangeOption) : cidrRangeOptions :=
  opts.foldl (fun o opt => opt.apply o) {}

/-- Range.  The prefix is the field `cidr` (the source's `prefix`, which `CIDR()` returns). -/
structure Range where
  cidr : Prefix
  base : Addr
  max : ℕ
  alloc : AllocationBitmap
  deriving DecidableEq, Repr

def NewCIDRRange (cidr : Prefix) (opts : List CIDRRangeOption) : Range :=
  let o := applyOptions opts
  let cidr := cidr.masked
  let base := cidr.addr
  let size := RangeSize cidr
  -- for any CIDR other than /31, /32, /127 or /128
  let (size, base) :=
    if size > 2 then
      let (size, base) := if !o.allowFirstIP then (size - 1, base.next) else (size, base)
      (if !o.allowLastIP then size - 1 else size, base)
    else (size, base)
  ⟨cidr, base, size, NewAllocationMap size cidr.toString⟩

/-- The errors of a Range. -/
inductive AllocError where
  | ErrFull
  | ErrAllocated
  | ErrMismatchedNetwork
  | ErrNotInRange (ValidRange : String)
  | restoreFailed (err : String)
  deriving DecidableEq, Repr

namespace Range

def Free (r : Range) : ℤ := r.alloc.Free

def Used (r : Range) : ℤ := r.max - r.alloc.Free

/-- contains: the offset of `ip` when it is in the range. -/
def contains (r : Range) (ip : Addr) : Option ℕ :=
  if !r.cidr.contains ip then none
  else
    match addrOffset r.base ip with
    | none => none
    | some offset => if offset ≥ r.max then none else some offset

def Allocate (r : Range) (ip : Addr) : Except AllocError Range :=
  match r.contains ip with
  | none => .error (.ErrNotInRange r.cidr.toString)
  | some offset =>
    let (allocated, alloc) := r.alloc.Allocate offset
    if !allocated then .error .ErrAllocated else .ok { r with alloc }

/-- AllocateNext, with `rnd` the value of `rand.IntN(max)` in the bitmap's random scan. -/
def AllocateNext (r : Range) (rnd : ℕ) : Except AllocError (Addr × Range) :=
  match r.alloc.AllocateNext rnd with
  | (none, _) => .error .ErrFull
  | (some offset, alloc) => .ok (addOffset r.base offset, { r with alloc })

def Release (r : Range) (ip : Addr) : Range :=
  match r.contains ip with
  | none => r
  | some offset => { r with alloc := r.alloc.Release offset }

def Has (r : Range) (ip : Addr) : Bool :=
  match r.contains ip with
  | none => false
  | some offset => r.alloc.Has offset

def Snapshot (r : Range) : String × List UInt8 := r.alloc.Snapshot

def Restore (r : Range) (cidr : Prefix) (data : List UInt8) : Except AllocError Range :=
  if cidr ≠ r.cidr then .error .ErrMismatchedNetwork
  else
    match r.alloc.Restore cidr.toString data with
    | .error e => .error (.restoreFailed ("restoring snapshot encountered: " ++ e))
    | .ok alloc => .ok { r with alloc }

end Range

/-! ### The address arithmetic on numbers -/

theorem hi64_toNat (b : BitVec 128) : (hi64 b).toNat = b.toNat / 2 ^ 64 := by
  have := b.isLt
  rw [hi64, UInt64.toNat_ofNat', Nat.mod_eq_of_lt (by omega)]

theorem lo64_toNat (b : BitVec 128) : (lo64 b).toNat = b.toNat % 2 ^ 64 := by
  rw [lo64, UInt64.toNat_ofNat', Nat.mod_mod]

theorem from64_toNat (hi lo : UInt64) :
    (from64 hi lo).toNat = hi.toNat * 2 ^ 64 + lo.toNat := by
  have := hi.toNat_lt
  have := lo.toNat_lt
  rw [from64, BitVec.toNat_ofNat, Nat.mod_eq_of_lt (by omega)]

-- the kernel compares the two addresses before their lengths, so reduce both lengths first
theorem bitLen_addOffset (base : Addr) (o : ℕ) : (addOffset base o).bitLen = base.bitLen := by
  cases base <;> simp only [addOffset, Addr.bitLen]

/-- addOffset adds the offset to the value while the sum stays below the top of the address
space; for IPv6 the carry out of the low word goes into the high word. -/
theorem addOffset_val {base : Addr} {o : ℕ} (ho : o < 2 ^ 32)
    (hlt : base.val + o < 2 ^ base.bitLen) :
    (addOffset base o).val = base.val + o := by
  cases base with
  | v4 b =>
    show (b + BitVec.ofNat 32 o).toNat = b.toNat + o
    have hlt' : b.toNat + o < 2 ^ 32 := hlt
    rw [BitVec.toNat_add, BitVec.toNat_ofNat, Nat.mod_eq_of_lt ho, Nat.mod_eq_of_lt hlt']
  | v6 b =>
    have hlt' : b.toNat + o < 2 ^ 128 := hlt
    have hsplit := Nat.div_add_mod b.toNat (2 ^ 64)
    have hlo : (lo64 b + UInt64.ofNat o).toNat = (b.toNat % 2 ^ 64 + o) % 2 ^ 64 := by
      rw [UInt64.toNat_add, lo64_toNat, UInt64.toNat_ofNat',
        Nat.mod_eq_of_lt (show o < 2 ^ 64 by omega)]
    show (from64 (if lo64 b + UInt64.ofNat o < lo64 b then hi64 b + 1 else hi64 b)
      (lo64 b + UInt64.ofNat o)).toNat = b.toNat + o
    by_cases hcarry : b.toNat % 2 ^ 64 + o < 2 ^ 64
    · -- no carry: the high word stays
      have hnot : ¬ lo64 b + UInt64.ofNat o < lo64 b := by
        rw [UInt64.lt_iff_toNat_lt, hlo, lo64_toNat, Nat.mod_eq_of_lt hcarry]
        omega
      rw [if_neg hnot, from64_toNat, hlo, hi64_toNat, Nat.mod_eq_of_lt hcarry]
      omega
    · -- a carry: the high word goes up by one, which does not wrap below the top
      have hcarry' : (b.toNat % 2 ^ 64 + o) % 2 ^ 64 = b.toNat % 2 ^ 64 + o - 2 ^ 64 := by
        rw [Nat.mod_eq_sub_mod (by omega), Nat.mod_eq_of_lt (by omega)]
      have hlow : lo64 b + UInt64.ofNat o < lo64 b := by
        rw [UInt64.lt_iff_toNat_lt, hlo, lo64_toNat, hcarry']
        omega
      have hhi : (hi64 b + 1).toNat = b.toNat / 2 ^ 64 + 1 := by
        rw [UInt64.toNat_add, hi64_toNat, UInt64.toNat_one, Nat.mod_eq_of_lt (by omega)]
      rw [if_pos hlow, from64_toNat, hlo, hhi, hcarry']
      omega

/-- The high and the low word of `a - b`, computed word by word with a borrow as addrOffset
does, are the words of the difference. -/
theorem sub_words {a b : BitVec 128} (hab : b.toNat ≤ a.toNat) :
    (if lo64 a < lo64 b then hi64 a - hi64 b - 1 else hi64 a - hi64 b).toNat =
        (a.toNat - b.toNat) / 2 ^ 64 ∧
      (lo64 a - lo64 b).toNat = (a.toNat - b.toNat) % 2 ^ 64 := by
  have ha := a.isLt
  rw [UInt64.toNat_sub, lo64_toNat, lo64_toNat]
  split_ifs with hborrow
  · rw [UInt64.lt_iff_toNat_lt, lo64_toNat, lo64_toNat] at hborrow
    rw [UInt64.toNat_sub, UInt64.toNat_sub, hi64_toNat, hi64_toNat, UInt64.toNat_one]
    omega
  · rw [UInt64.lt_iff_toNat_lt, lo64_toNat, lo64_toNat] at hborrow
    rw [UInt64.toNat_sub, hi64_toNat, hi64_toNat]
    omega

/-- addrOffset is `addr - base` for an address of the family of `base` at or after it, when
the difference fits in an `int`. -/
theorem addrOffset_eq {base addr : Addr} (hfam : base.bitLen = addr.bitLen) :
    addrOffset base addr =
      if base.val ≤ addr.val ∧ addr.val - base.val ≤ maxInt then some (addr.val - base.val)
      else none := by
  cases base with
  | v4 b =>
    cases addr with
    | v6 a => cases hfam
    | v4 a =>
      show (if a < b then none else if (a - b).toNat > maxInt then none else some (a - b).toNat) =
        if b.toNat ≤ a.toNat ∧ a.toNat - b.toNat ≤ maxInt then some (a.toNat - b.toNat)
        else none
      have ha := a.isLt
      by_cases hab : a < b
      · rw [BitVec.lt_def] at hab
        rw [if_pos (BitVec.lt_def.mpr hab), if_neg (by omega)]
      · rw [BitVec.lt_def] at hab
        have hsub : (a - b).toNat = a.toNat - b.toNat := by
          rw [BitVec.toNat_sub]
          omega
        have hmax : a.toNat - b.toNat ≤ maxInt := by
          unfold maxInt
          omega
        rw [if_neg (by rw [BitVec.lt_def]; exact hab), hsub, if_neg (by omega),
          if_pos ⟨by omega, hmax⟩]
  | v6 b =>
    cases addr with
    | v4 a => cases hfam
    | v6 a =>
      show (if hi64 a < hi64 b || (hi64 a == hi64 b && lo64 a < lo64 b) then none
        else if (if lo64 a < lo64 b then hi64 a - hi64 b - 1 else hi64 a - hi64 b) ≠ 0 then none
        else if (lo64 a - lo64 b).toNat > maxInt then none
        else some (lo64 a - lo64 b).toNat) =
        if b.toNat ≤ a.toNat ∧ a.toNat - b.toNat ≤ maxInt then some (a.toNat - b.toNat)
        else none
      -- the comparison of the two words is the comparison of the values
      have hbefore : (hi64 a < hi64 b || (hi64 a == hi64 b && lo64 a < lo64 b)) = true ↔
          a.toNat < b.toNat := by
        simp only [Bool.or_eq_true, Bool.and_eq_true, beq_iff_eq, decide_eq_true_eq,
          UInt64.lt_iff_toNat_lt, ← UInt64.toNat_inj, hi64_toNat, lo64_toNat]
        omega
      by_cases hab : a.toNat < b.toNat
      · rw [if_pos (hbefore.mpr hab), if_neg (by omega)]
      · rw [if_neg (fun h => hab (hbefore.mp (by simpa using h)))]
        obtain ⟨hhi, hlo⟩ := sub_words (Nat.le_of_not_lt hab)
        generalize (if lo64 a < lo64 b then hi64 a - hi64 b - 1 else hi64 a - hi64 b) = hi
          at hhi ⊢
        have hmax : maxInt < 2 ^ 64 := by
          unfold maxInt
          omega
        by_cases hbig : a.toNat - b.toNat < 2 ^ 64
        · -- the difference fits in the low word
          have hzero : hi = 0 := by
            rw [← UInt64.toNat_inj, hhi, UInt64.toNat_zero]
            omega
          rw [if_neg (not_not.mpr hzero), hlo, Nat.mod_eq_of_lt hbig]
          by_cases hfit : a.toNat - b.toNat ≤ maxInt
          · rw [if_neg (by omega), if_pos ⟨by omega, hfit⟩]
          · rw [if_pos (by omega), if_neg (by omega)]
        · have hne : hi ≠ 0 := by
            rw [Ne, ← UInt64.toNat_inj, hhi, UInt64.toNat_zero]
            omega
          rw [if_pos hne, if_neg (by omega)]

/-! ### Where NewCIDRRange puts the range -/

theorem hostBits_masked {p : Prefix} (hv : p.isValid = true) : p.masked.hostBits = p.hostBits := by
  obtain ⟨hbits, hlen, -⟩ := Prefix.masked_of_valid hv
  unfold Prefix.hostBits
  rw [hbits, hlen]

theorem isValid_masked {p : Prefix} (hv : p.isValid = true) : p.masked.isValid = true := by
  obtain ⟨hbits, hlen, -⟩ := Prefix.masked_of_valid hv
  unfold Prefix.isValid at hv ⊢
  rw [hbits, hlen]
  exact hv

@[simp]
theorem NewCIDRRange_alloc (cidr : Prefix) (opts : List CIDRRangeOption) :
    (NewCIDRRange cidr opts).alloc =
      NewAllocationMap (NewCIDRRange cidr opts).max cidr.masked.toString := by
  unfold NewCIDRRange
  by_cases hsize : 2 < RangeSize cidr.masked
  · cases (applyOptions opts).allowFirstIP <;> cases (applyOptions opts).allowLastIP <;>
      simp [hsize]
  · simp [hsize]

/-- The block of a valid masked prefix: aligned, and within the address space. -/
theorem masked_block {p : Prefix} (hv : p.isValid = true) :
    p.masked.addr.val % 2 ^ p.hostBits = 0 ∧
      p.masked.addr.val + 2 ^ p.hostBits ≤ 2 ^ p.masked.addr.bitLen := by
  obtain ⟨-, hlen, hval⟩ := Prefix.masked_of_valid hv
  have hle : p.bits ≤ p.addr.bitLen := of_decide_eq_true hv
  have haligned : p.masked.addr.val % 2 ^ p.hostBits = 0 := by
    rw [hval]
    exact Nat.mul_mod_left _ _
  refine ⟨haligned, add_two_pow_le ?_ p.masked.addr.val_lt haligned⟩
  rw [hlen]
  exact Nat.sub_le _ _

/-- Where a range lies in its prefix, on numbers: its `max` offsets from `base` stay inside the
aligned block of the prefix, short of its network and its last address when the options exclude
them and the prefix has more than two addresses. -/
structure Range.WellPlaced (r : Range) (o : cidrRangeOptions) : Prop where
  valid : r.cidr.isValid = true
  bitLen_base : r.base.bitLen = r.cidr.addr.bitLen
  aligned : r.cidr.addr.val % 2 ^ r.cidr.hostBits = 0
  top : r.cidr.addr.val + 2 ^ r.cidr.hostBits ≤ 2 ^ r.cidr.addr.bitLen
  network_le : r.cidr.addr.val ≤ r.base.val
  end_le : r.base.val + r.max ≤ r.cidr.addr.val + 2 ^ r.cidr.hostBits
  max_le : r.max ≤ 2 ^ 30
  network_lt : 2 < 2 ^ r.cidr.hostBits → o.allowFirstIP = false → 0 < r.max →
    r.cidr.addr.val < r.base.val
  end_lt : 2 < 2 ^ r.cidr.hostBits → o.allowLastIP = false → 0 < r.max →
    r.base.val + r.max < r.cidr.addr.val + 2 ^ r.cidr.hostBits

/-- An address block of size `H` aligned at `N`: every address of it has the quotient of `N`. -/
theorem div_eq_of_mem_block {N H x : ℕ} (hH : 0 < H) (hmod : N % H = 0) (h1 : N ≤ x)
    (h2 : x < N + H) : x / H = N / H := by
  obtain ⟨q, rfl⟩ := Nat.dvd_of_mod_eq_zero hmod
  rw [Nat.mul_div_cancel_left q hH]
  apply Nat.div_eq_of_lt_le
  · rw [Nat.mul_comm]
    exact h1
  · rw [Nat.succ_mul, Nat.mul_comm]
    exact h2

theorem Prefix.lastAddr_eq (p : Prefix) : p.lastAddr = p.addr.val + 2 ^ p.hostBits - 1 := rfl

namespace Range

/-- contains succeeds exactly on the addresses of the prefix whose offset from the base is below
`max`. -/
theorem contains_eq_some {r : Range} {ip : Addr} {off : ℕ} :
    r.contains ip = some off ↔
      r.cidr.contains ip = true ∧ addrOffset r.base ip = some off ∧ off < r.max := by
  unfold contains
  cases hc : r.cidr.contains ip with
  | false => simp
  | true =>
    cases ha : addrOffset r.base ip with
    | none => simp
    | some off' =>
      by_cases hlt : off' < r.max
      · simp only [Bool.not_true, Bool.false_eq_true, if_false, ge_iff_le,
          if_neg (Nat.not_le_of_lt hlt), Option.some.injEq, true_and, iff_self_and]
        rintro rfl
        exact hlt
      · simp only [Bool.not_true, Bool.false_eq_true, if_false, ge_iff_le,
          if_pos (Nat.le_of_not_lt hlt)]
        simp only [reduceCtorEq, false_iff, not_and, true_and, Option.some.injEq]
        rintro rfl
        exact hlt

/-- What a successful Allocate did: the address had a free offset, which is now taken. -/
theorem allocate_ok {r r' : Range} {ip : Addr} (h : r.Allocate ip = .ok r') :
    ∃ off, r.contains ip = some off ∧ off ∉ r.alloc.allocatedSet ∧
      r' = { r with alloc := (r.alloc.Allocate off).2 } := by
  unfold Allocate at h
  cases hc : r.contains ip with
  | none => rw [hc] at h; cases h
  | some off =>
    rw [hc] at h
    dsimp only at h
    cases hA : r.alloc.Allocate off with
    | mk allocated alloc =>
      rw [hA] at h
      dsimp only at h
      cases allocated with
      | false => cases h
      | true =>
        cases h
        refine ⟨off, rfl, ?_, by rw [hA]⟩
        rw [← AllocationBitmap.allocate_fst, hA]

/-- Allocate takes an address of the range whose offset is free. -/
theorem allocate_of_free {r : Range} {ip : Addr} {off : ℕ} (hc : r.contains ip = some off)
    (hfree : off ∉ r.alloc.allocatedSet) :
    r.Allocate ip = .ok { r with alloc := (r.alloc.Allocate off).2 } := by
  have hfst := AllocationBitmap.allocate_fst.mpr hfree
  unfold Allocate
  rw [hc]
  dsimp only
  cases hA : r.alloc.Allocate off with
  | mk allocated alloc =>
    rw [hA] at hfst
    cases hfst
    rfl

/-- A successful AllocateNext hands out the address of the offset the bitmap picked. -/
theorem allocateNext_ok {r r' : Range} {rnd : ℕ} {ip : Addr}
    (h : r.AllocateNext rnd = .ok (ip, r')) :
    ∃ off alloc', r.alloc.AllocateNext rnd = (some off, alloc') ∧ ip = addOffset r.base off ∧
      r' = { r with alloc := alloc' } := by
  unfold AllocateNext at h
  cases hA : r.alloc.AllocateNext rnd with
  | mk next alloc' =>
    rw [hA] at h
    cases next with
    | none => cases h
    | some off =>
      cases h
      exact ⟨off, alloc', rfl, rfl, rfl⟩

theorem allocateNext_error_iff {r : Range} {rnd : ℕ} :
    r.AllocateNext rnd = .error .ErrFull ↔ (r.alloc.AllocateNext rnd).1 = none := by
  unfold AllocateNext
  cases hA : r.alloc.AllocateNext rnd with
  | mk next alloc' =>
    cases next with
    | none => simp
    | some off => simp

theorem release_cases (r : Range) (ip : Addr) :
    r.Release ip = r ∨
      ∃ off, r.contains ip = some off ∧
        r.Release ip = { r with alloc := r.alloc.Release off } := by
  unfold Release
  cases hc : r.contains ip with
  | none => exact Or.inl rfl
  | some off => exact Or.inr ⟨off, rfl, rfl⟩

/-- A successful Restore was given the range's own prefix and replaced the bitmap only. -/
theorem restore_ok {r r' : Range} {p : Prefix} {data : List UInt8}
    (h : r.Restore p data = .ok r') :
    p = r.cidr ∧ ∃ alloc', r.alloc.Restore p.toString data = .ok alloc' ∧
      r' = { r with alloc := alloc' } := by
  unfold Restore at h
  by_cases hp : p ≠ r.cidr
  · rw [if_pos hp] at h
    cases h
  · rw [if_neg hp] at h
    refine ⟨not_not.mp hp, ?_⟩
    cases hres : r.alloc.Restore p.toString data with
    | error e => rw [hres] at h; cases h
    | ok alloc' =>
      rw [hres] at h
      cases h
      exact ⟨alloc', rfl, rfl⟩

end Range

/-! ### The offsets of a well-placed range are its addresses -/

namespace Range.WellPlaced

variable {r : Range} {o : cidrRangeOptions}

theorem addOffset_val_of_lt (hw : r.WellPlaced o) {off : ℕ} (hoff : off < r.max) :
    (addOffset r.base off).val = r.base.val + off := by
  have hend := hw.end_le
  have htop := hw.top
  have hmax := hw.max_le
  refine addOffset_val (by omega) ?_
  rw [hw.bitLen_base]
  omega

theorem bitLen_addOffset_eq (hw : r.WellPlaced o) (off : ℕ) :
    (addOffset r.base off).bitLen = r.cidr.addr.bitLen := by
  rw [bitLen_addOffset, hw.bitLen_base]

/-- Every offset below `max` names an address of the prefix. -/
theorem contains_addOffset (hw : r.WellPlaced o) {off : ℕ} (hoff : off < r.max) :
    r.cidr.contains (addOffset r.base off) = true := by
  rw [Prefix.contains_iff hw.valid, hw.addOffset_val_of_lt hoff]
  refine ⟨(hw.bitLen_addOffset_eq off).symm, ?_⟩
  have hle := hw.network_le
  have hend := hw.end_le
  exact div_eq_of_mem_block (Nat.two_pow_pos _) hw.aligned (by omega) (by omega)

/-- addrOffset undoes addOffset on the offsets of the range, across the carry of IPv6. -/
theorem addrOffset_addOffset (hw : r.WellPlaced o) {off : ℕ} (hoff : off < r.max) :
    addrOffset r.base (addOffset r.base off) = some off := by
  have hmax := hw.max_le
  have hfit : off ≤ maxInt := by
    unfold maxInt
    omega
  rw [addrOffset_eq (by rw [bitLen_addOffset]), hw.addOffset_val_of_lt hoff,
    if_pos ⟨by omega, by omega⟩, Nat.add_sub_cancel_left]

theorem contains_addOffset_eq (hw : r.WellPlaced o) {off : ℕ} (hoff : off < r.max) :
    r.contains (addOffset r.base off) = some off :=
  Range.contains_eq_some.mpr ⟨hw.contains_addOffset hoff, hw.addrOffset_addOffset hoff, hoff⟩

/-- The addresses the range contains are those of its offsets. -/
theorem eq_addOffset_of_contains (hw : r.WellPlaced o) {ip : Addr} {off : ℕ}
    (h : r.contains ip = some off) : off < r.max ∧ ip = addOffset r.base off := by
  obtain ⟨hin, hoffset, hlt⟩ := Range.contains_eq_some.mp h
  have hfam : r.base.bitLen = ip.bitLen := by
    rw [hw.bitLen_base]
    exact ((Prefix.contains_iff hw.valid).mp hin).1
  rw [addrOffset_eq hfam] at hoffset
  split_ifs at hoffset with hle
  · cases hoffset
    refine ⟨hlt, Ipcache.Addr.eq_of_val ?_ ?_⟩
    · rw [bitLen_addOffset, hfam]
    · rw [hw.addOffset_val_of_lt hlt]
      omega

theorem addOffset_ne_network (hw : r.WellPlaced o) (hbig : 2 < 2 ^ r.cidr.hostBits)
    (hallow : o.allowFirstIP = false) {off : ℕ} (hoff : off < r.max) :
    addOffset r.base off ≠ r.cidr.addr := by
  intro heq
  have hval := congrArg Ipcache.Addr.val heq
  rw [hw.addOffset_val_of_lt hoff] at hval
  have := hw.network_lt hbig hallow (by omega)
  omega

theorem addOffset_ne_last (hw : r.WellPlaced o) (hbig : 2 < 2 ^ r.cidr.hostBits)
    (hallow : o.allowLastIP = false) {off : ℕ} (hoff : off < r.max) :
    (addOffset r.base off).val ≠ r.cidr.lastAddr := by
  rw [Prefix.lastAddr_eq, hw.addOffset_val_of_lt hoff]
  have := hw.end_lt hbig hallow (by omega)
  omega

end Range.WellPlaced

end Ipam.IPAllocator

end Cilium
