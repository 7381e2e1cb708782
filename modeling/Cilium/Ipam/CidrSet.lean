import Cilium.Ipam.Bitmap
import Cilium.Ipam.IPAllocator

/-! The pod-CIDR set of a cluster (pkg/ipam/cidrset/cidr_set.go).  The cluster prefix is cut into
`maxCIDRs` node blocks of length `nodeMaskSize`, block `i` at the cluster address plus `i` times
the block size, and a bitmap `used` in a non-negative `big.Int` records which are taken, with the
counter `allocatedCIDRs` beside it.

The mask size is a natural number here; the source takes any `int`. -/

namespace Cilium

open Cilium.Ipcache BitSet

def Ipcache.Addr.is6 : Addr → Bool
  | .v4 _ => false
  | .v6 _ => true

theorem Ipcache.Addr.is6_eq_true_iff (a : Addr) : a.is6 = true ↔ a.bitLen = 128 := by
  cases a <;> simp [Ipcache.Addr.is6, Addr.bitLen]

namespace Ipam

open Cilium.Ipam.Allocator Cilium.Ipam.IPAllocator

/-- CidrSet, without its lock. -/
structure CidrSet where
  clusterPrefix : Prefix
  nodeMaskSize : ℕ
  maxCIDRs : ℕ
  allocatedCIDRs : ℕ
  nextCandidate : ℕ
  used : ℕ
  deriving DecidableEq, Repr

inductive CidrSetError where
  | ErrCIDRRangeNoCIDRsRemaining
  | ErrCIDRSetSubNetTooBig
  | ErrSubNetMaskSizeInvalid
  | other (msg : String)
  deriving DecidableEq, Repr

def clusterSubnetMaxDiff : ℕ := 16
def maxSubNetMaskSizeIPv4 : ℕ := 32
def maxSubNetMaskSizeIPv6 : ℕ := 128

/-- NewCIDRSet.  `1 << uint32(d)` is `2 ^ d` for the differences `0 ≤ d ≤ 32` that pass the
checks, and `0` for a negative `d`, which as a `uint32` is a shift past the width. -/
def NewCIDRSet (clusterPrefix : Prefix) (subNetMaskSize : ℕ) : Except CidrSetError CidrSet :=
  let clusterPrefix := clusterPrefix.masked
  let clusterMaskSize := clusterPrefix.bits
  if clusterPrefix.addr.is6 ∧ subNetMaskSize > maxSubNetMaskSizeIPv6 then
    .error .ErrSubNetMaskSizeInvalid
  else if clusterPrefix.addr.is6 ∧ subNetMaskSize - clusterMaskSize > clusterSubnetMaxDiff then
    .error .ErrCIDRSetSubNetTooBig
  else if ¬ clusterPrefix.addr.is6 ∧ subNetMaskSize > maxSubNetMaskSizeIPv4 then
    .error .ErrSubNetMaskSizeInvalid
  else
    let maxCIDRs :=
      if clusterMaskSize ≤ subNetMaskSize then 2 ^ (subNetMaskSize - clusterMaskSize) else 0
    .ok ⟨clusterPrefix, subNetMaskSize, maxCIDRs, 0, 0, 0⟩

namespace CidrSet

/-- indexToCIDRBlock.  For IPv6 the index is put into the two 64-bit halves of the cluster
address; a node mask past bit 64 with a cluster mask before it splits the index between them. -/
def indexToCIDRBlock (s : CidrSet) (index : ℕ) : Prefix :=
  match s.clusterPrefix.addr with
  | .v4 clusterBytes =>
    let j : BitVec 32 := BitVec.ofNat 32 index <<< (32 - s.nodeMaskSize)
    ⟨.v4 (clusterBytes ||| j), s.nodeMaskSize⟩
  | .v6 clusterBytes =>
    let leftClusterIP : BitVec 64 := BitVec.ofNat 64 (clusterBytes.toNat / 2 ^ 64)
    let rightClusterIP : BitVec 64 := BitVec.ofNat 64 (clusterBytes.toNat % 2 ^ 64)
    let idx : BitVec 64 := BitVec.ofNat 64 index
    let (leftClusterIP, rightClusterIP) :=
      if s.nodeMaskSize ≤ 64 then
        (leftClusterIP ||| idx <<< (64 - s.nodeMaskSize), rightClusterIP)
      else
        let leftClusterIP :=
          if s.clusterPrefix.bits < 64 then
            let btl := s.nodeMaskSize - 64
            let indexMaxBit := 64 - idx.clz.toNat
            if indexMaxBit > btl then leftClusterIP ||| idx >>> btl else leftClusterIP
          else leftClusterIP
        (leftClusterIP, rightClusterIP ||| idx <<< (128 - s.nodeMaskSize))
    ⟨.v6 (BitVec.ofNat 128 (leftClusterIP.toNat * 2 ^ 64 + rightClusterIP.toNat)),
      s.nodeMaskSize⟩

def IsFull (s : CidrSet) : Bool := s.allocatedCIDRs = s.maxCIDRs

/-- The candidate loop of AllocateNext: from `candidate`, the first clear bit in `n` steps. -/
def scanCandidate (used maxCIDRs : ℕ) : ℕ → ℕ → ℕ
  | 0, candidate => candidate
  | n + 1, candidate =>
    if used.testBit candidate = false then candidate
    else scanCandidate used maxCIDRs n ((candidate + 1) % maxCIDRs)

def AllocateNext (s : CidrSet) : Except CidrSetError (Prefix × CidrSet) :=
  if s.allocatedCIDRs = s.maxCIDRs then .error .ErrCIDRRangeNoCIDRsRemaining
  else
    let candidate := scanCandidate s.used s.maxCIDRs s.maxCIDRs s.nextCandidate
    .ok (s.indexToCIDRBlock candidate,
      { s with nextCandidate := (candidate + 1) % s.maxCIDRs,
               used := setBit s.used candidate true,
               allocatedCIDRs := s.allocatedCIDRs + 1 })

def InRange (s : CidrSet) (p : Prefix) : Bool :=
  s.clusterPrefix.contains p.addr || p.contains s.clusterPrefix.addr

/-- getIndexForAddr.  `uint32(s.maxCIDRs)` and `Uint64()` keep the low bits. -/
def getIndexForAddr (s : CidrSet) (addr : Addr) : Except CidrSetError ℕ :=
  let outOfRange : CidrSetError := .other ("CIDR: " ++ addr.toString ++ "/" ++
    ToString.toString s.nodeMaskSize ++ " is out of the range of CIDR allocator")
  match addr, s.clusterPrefix.addr with
  | .v4 addrBytes, .v4 clusterBytes =>
    let cidrIndex := (clusterBytes ^^^ addrBytes) >>> (32 - s.nodeMaskSize)
    if cidrIndex.toNat ≥ s.maxCIDRs % 2 ^ 32 then .error outOfRange else .ok cidrIndex.toNat
  | .v4 _, .v6 _ => .error (.other "As4 called on IPv6 address")
  | .v6 addrBytes, clusterAddr =>
    let bigIP := clusterAddr.as16.toNat ^^^ addrBytes.toNat
    let cidrIndex := (bigIP >>> (128 - s.nodeMaskSize)) % 2 ^ 64
    if cidrIndex ≥ s.maxCIDRs % 2 ^ 64 then .error outOfRange else .ok cidrIndex

/-- `netipx.PrefixLastIP`: the last address of the prefix. -/
def prefixLastIP (p : Prefix) : Addr :=
  match p.masked.addr with
  | .v4 b => .v4 (b ||| BitVec.allOnes 32 >>> p.bits)
  | .v6 b => .v6 (b ||| BitVec.allOnes 128 >>> p.bits)

/-- getBeginningAndEndIndices: the first and the last index of the node blocks of `p`. -/
def getBeginningAndEndIndices (s : CidrSet) (p : Prefix) : Except CidrSetError (ℕ × ℤ) :=
  if !s.InRange p then
    .error (.other ("cidr " ++ p.toString ++ " is out the range of cluster cidr " ++
      s.clusterPrefix.toString))
  else if s.clusterPrefix.bits < p.bits then
    let beginAddr := (⟨p.addr, s.nodeMaskSize⟩ : Prefix).masked.addr
    match s.getIndexForAddr beginAddr with
    | .error e => .error e
    | .ok begin =>
      let endAddr := (⟨prefixLastIP p, s.nodeMaskSize⟩ : Prefix).masked.addr
      match s.getIndexForAddr endAddr with
      | .error e => .error e
      | .ok e => .ok (begin, e)
  else .ok (0, (s.maxCIDRs : ℤ) - 1)

/-- The indices `begin, begin + 1, …, end` of a loop `for i := begin; i <= end; i++`. -/
def indices (begin : ℕ) (e : ℤ) : List ℕ := List.range' begin (e + 1 - begin).toNat

def IsAllocated (s : CidrSet) (p : Prefix) : Except CidrSetError Bool :=
  match s.getBeginningAndEndIndices p with
  | .error e => .error e
  | .ok (begin, e) => .ok ((indices begin e).all fun i => s.used.testBit i)

/-- One step of the loop of Release: clear a set bit and count it. -/
def releaseIndex (s : CidrSet) (i : ℕ) : CidrSet :=
  if s.used.testBit i then
    { s with used := setBit s.used i false, allocatedCIDRs := s.allocatedCIDRs - 1 }
  else s

/-- One step of the loop of Occupy: set a clear bit and count it. -/
def occupyIndex (s : CidrSet) (i : ℕ) : CidrSet :=
  if s.used.testBit i = false then
    { s with used := setBit s.used i true, allocatedCIDRs := s.allocatedCIDRs + 1 }
  else s

def Release (s : CidrSet) (p : Prefix) : Except CidrSetError CidrSet :=
  match s.getBeginningAndEndIndices p with
  | .error e => .error e
  | .ok (begin, e) => .ok ((indices begin e).foldl releaseIndex s)

def Occupy (s : CidrSet) (p : Prefix) : Except CidrSetError CidrSet :=
  match s.getBeginningAndEndIndices p with
  | .error e => .error e
  | .ok (begin, e) => .ok ((indices begin e).foldl occupyIndex s)

end CidrSet

/-- The shape NewCIDRSet gives a set: a valid aligned cluster prefix, node blocks no longer than
an address, `2 ^ (nodeMaskSize - clusterMaskSize)` of them when the node mask is the longer one and
none otherwise, and at most `2 ^ 16` for IPv6. -/
structure CidrSet.WF (s : CidrSet) : Prop where
  valid : s.clusterPrefix.isValid = true
  aligned : s.clusterPrefix.addr.val % 2 ^ s.clusterPrefix.hostBits = 0
  node_le : s.nodeMaskSize ≤ s.clusterPrefix.addr.bitLen
  maxCIDRs_eq : s.maxCIDRs = if s.clusterPrefix.bits ≤ s.nodeMaskSize then
    2 ^ (s.nodeMaskSize - s.clusterPrefix.bits) else 0
  diff_le : s.clusterPrefix.addr.bitLen = 128 → s.nodeMaskSize - s.clusterPrefix.bits ≤ 16

theorem NewCIDRSet_ok {p : Prefix} (hv : p.isValid = true) {n : ℕ} {s : CidrSet}
    (h : NewCIDRSet p n = .ok s) :
    s.WF ∧ s.clusterPrefix = p.masked ∧ s.nodeMaskSize = n ∧ s.allocatedCIDRs = 0 ∧
      s.nextCandidate = 0 ∧ s.used = 0 := by
  have h6 := p.masked.addr.is6_eq_true_iff
  have hlen := p.masked.addr.bitLen_cases
  have haligned : p.masked.addr.val % 2 ^ p.masked.hostBits = 0 := by
    rw [hostBits_masked hv]
    exact (masked_block hv).1
  have hnode : ¬(p.masked.addr.is6 = true ∧ n > maxSubNetMaskSizeIPv6) →
      ¬(¬p.masked.addr.is6 = true ∧ n > maxSubNetMaskSizeIPv4) →
        n ≤ p.masked.addr.bitLen := by
    unfold maxSubNetMaskSizeIPv6 maxSubNetMaskSizeIPv4
    rw [h6]
    omega
  have hdiff : ¬(p.masked.addr.is6 = true ∧ n - p.masked.bits > clusterSubnetMaxDiff) →
      p.masked.addr.bitLen = 128 → n - p.masked.bits ≤ 16 := by
    unfold clusterSubnetMaxDiff
    rw [h6]
    omega
  unfold NewCIDRSet at h
  dsimp only at h
  split_ifs at h with hbig hsub hsmall hle <;> cases h <;>
    exact ⟨⟨isValid_masked hv, haligned, hnode hbig hsmall, by simp [hle], hdiff hsub⟩,
      rfl, rfl, rfl, rfl, rfl⟩


/-! ### The node blocks -/

namespace CidrSet

variable {s : CidrSet}

theorem toNat_ofNat_of_lt {w x : ℕ} (h : x < 2 ^ w) : (BitVec.ofNat w x).toNat = x := by
  rw [BitVec.toNat_ofNat, Nat.mod_eq_of_lt h]

theorem mul_two_pow_lt {i a b : ℕ} (hi : i < 2 ^ a) : i * 2 ^ b < 2 ^ (a + b) := by
  rw [Nat.pow_add]
  exact Nat.mul_lt_mul_of_pos_right hi (Nat.two_pow_pos b)

theorem WF.lt_of_lt_maxCIDRs (hw : s.WF) {i : ℕ} (hi : i < s.maxCIDRs) :
    s.clusterPrefix.bits ≤ s.nodeMaskSize ∧
      i * 2 ^ (s.clusterPrefix.addr.bitLen - s.nodeMaskSize) < 2 ^ s.clusterPrefix.hostBits := by
  rw [hw.maxCIDRs_eq] at hi
  split_ifs at hi with hc
  · refine ⟨hc, ?_⟩
    have hn := hw.node_le
    have := mul_two_pow_lt (b := s.clusterPrefix.addr.bitLen - s.nodeMaskSize) hi
    rwa [show s.nodeMaskSize - s.clusterPrefix.bits +
      (s.clusterPrefix.addr.bitLen - s.nodeMaskSize) = s.clusterPrefix.hostBits by
        unfold Prefix.hostBits; omega] at this
  · omega
theorem WF.exists_mul (hw : s.WF) :
    ∃ q, s.clusterPrefix.addr.val = 2 ^ s.clusterPrefix.hostBits * q :=
  ⟨_, (Nat.mul_div_cancel' (Nat.dvd_of_mod_eq_zero hw.aligned)).symm⟩

theorem WF.top (hw : s.WF) :
    s.clusterPrefix.addr.val + 2 ^ s.clusterPrefix.hostBits ≤ 2 ^ s.clusterPrefix.addr.bitLen :=
  add_two_pow_le (Nat.sub_le _ _) s.clusterPrefix.addr.val_lt hw.aligned

theorem indexToCIDRBlock_v4 (hw : s.WF) {b : BitVec 32} (hb : s.clusterPrefix.addr = .v4 b)
    {i : ℕ} (hi : i < s.maxCIDRs) :
    s.indexToCIDRBlock i =
      ⟨.v4 (BitVec.ofNat 32 (b.toNat + i * 2 ^ (32 - s.nodeMaskSize))), s.nodeMaskSize⟩ := by
  obtain ⟨-, hj⟩ := hw.lt_of_lt_maxCIDRs hi
  obtain ⟨q, hq⟩ := hw.exists_mul
  have htop := hw.top
  simp only [hb, Prefix.hostBits, Addr.bitLen, Ipcache.Addr.val] at hj hq htop
  have hi32 : i < 2 ^ 32 := by
    have := Nat.le_mul_of_pos_right i (Nat.two_pow_pos (32 - s.nodeMaskSize))
    have := Nat.pow_le_pow_right (show 0 < 2 by norm_num) (Nat.sub_le 32 s.clusterPrefix.bits)
    omega
  unfold indexToCIDRBlock
  rw [hb]
  dsimp only
  congr 2
  apply BitVec.eq_of_toNat_eq
  rw [BitVec.toNat_or, BitVec.toNat_shiftLeft, BitVec.toNat_ofNat, BitVec.toNat_ofNat,
    Nat.shiftLeft_eq, Nat.mod_eq_of_lt hi32, Nat.mod_eq_of_lt (by omega), hq,
    two_pow_mul_or_of_lt q hj, Nat.mod_eq_of_lt (by omega)]

/-- The left half of the block address, while the node mask lies in the left half. -/
theorem left_of_node_le {bv q c n i : ℕ} (hq : bv = 2 ^ (128 - c) * q) (hc : c ≤ n)
    (hn : n ≤ 64) (hj : i * 2 ^ (128 - n) < 2 ^ (128 - c)) (hbv : bv < 2 ^ 128) :
    (BitVec.ofNat 64 (bv / 2 ^ 64) ||| BitVec.ofNat 64 i <<< (64 - n)).toNat * 2 ^ 64 +
      (BitVec.ofNat 64 (bv % 2 ^ 64)).toNat = bv + i * 2 ^ (128 - n) := by
  have ec : 2 ^ (128 - c) = 2 ^ (64 - c) * 2 ^ 64 := by
    rw [← Nat.pow_add]
    congr 1
    omega
  have en : 2 ^ (128 - n) = 2 ^ (64 - n) * 2 ^ 64 := by
    rw [← Nat.pow_add]
    congr 1
    omega
  have hbv' : bv = 2 ^ (64 - c) * q * 2 ^ 64 := by rw [hq, ec, Nat.mul_right_comm]
  have hj' : i * 2 ^ (64 - n) < 2 ^ (64 - c) := by
    rw [en, ec, ← Nat.mul_assoc] at hj
    exact Nat.lt_of_mul_lt_mul_right hj
  have hc64 : 2 ^ (64 - c) ≤ 2 ^ 64 := Nat.pow_le_pow_right (by norm_num) (by omega)
  have hi : i < 2 ^ 64 := lt_of_le_of_lt (Nat.le_mul_of_pos_right i (Nat.two_pow_pos _))
    (lt_of_lt_of_le hj' hc64)
  have hH : bv / 2 ^ 64 = 2 ^ (64 - c) * q := by
    rw [hbv', Nat.mul_div_cancel _ (Nat.two_pow_pos 64)]
  have hL : bv % 2 ^ 64 = 0 := by
    rw [hbv', Nat.mul_mod_left]
  rw [BitVec.toNat_or, BitVec.toNat_shiftLeft, toNat_ofNat_of_lt hi, Nat.shiftLeft_eq, hH, hL,
    toNat_ofNat_of_lt (by omega), Nat.mod_eq_of_lt (by omega),
    toNat_ofNat_of_lt (Nat.two_pow_pos 64),
    two_pow_mul_or_of_lt q hj', hbv', en]
  ring

/-- The two halves of the block address when the node mask lies past bit 64 and the cluster mask
before it: the high bits of the index go to the left half, the low bits to the right half. -/
theorem halves_of_straddle {bv q c n i : ℕ} (hq : bv = 2 ^ (128 - c) * q) (hc : c < 64)
    (hn : 64 < n) (hn' : n ≤ 128) (hj : i * 2 ^ (128 - n) < 2 ^ (128 - c)) (hi : i < 2 ^ 64)
    (hbv : bv < 2 ^ 128) :
    (BitVec.ofNat 64 (bv / 2 ^ 64) ||| BitVec.ofNat 64 i >>> (n - 64)).toNat * 2 ^ 64 +
      (BitVec.ofNat 64 (bv % 2 ^ 64) ||| BitVec.ofNat 64 i <<< (128 - n)).toNat =
        bv + i * 2 ^ (128 - n) := by
  have ec : 2 ^ (128 - c) = 2 ^ (64 - c) * 2 ^ 64 := by
    rw [← Nat.pow_add]
    congr 1
    omega
  have e64 : 2 ^ 64 = 2 ^ (n - 64) * 2 ^ (128 - n) := by
    rw [← Nat.pow_add]
    congr 1
    omega
  have ecn : 2 ^ (128 - c) = 2 ^ (n - 64) * 2 ^ (64 - c) * 2 ^ (128 - n) := by
    rw [ec, e64]
    ring
  have hbv' : bv = 2 ^ (64 - c) * q * 2 ^ 64 := by rw [hq, ec, Nat.mul_right_comm]
  have hH : bv / 2 ^ 64 = 2 ^ (64 - c) * q := by
    rw [hbv', Nat.mul_div_cancel _ (Nat.two_pow_pos 64)]
  have hL : bv % 2 ^ 64 = 0 := by
    rw [hbv', Nat.mul_mod_left]
  -- the index bits past the node mask's part of the right half
  have hhigh : i / 2 ^ (n - 64) < 2 ^ (64 - c) := by
    rw [ecn] at hj
    rw [Nat.div_lt_iff_lt_mul (Nat.two_pow_pos _), Nat.mul_comm]
    exact Nat.lt_of_mul_lt_mul_right hj
  have hlow : i * 2 ^ (128 - n) % 2 ^ 64 = i % 2 ^ (n - 64) * 2 ^ (128 - n) := by
    rw [e64, Nat.mul_mod_mul_right]
  rw [BitVec.toNat_or, BitVec.toNat_or, BitVec.toNat_ushiftRight, BitVec.toNat_shiftLeft,
    toNat_ofNat_of_lt hi, Nat.shiftRight_eq_div_pow, Nat.shiftLeft_eq, hH, hL, hlow,
    toNat_ofNat_of_lt (by omega), toNat_ofNat_of_lt (Nat.two_pow_pos 64), Nat.zero_or,
    two_pow_mul_or_of_lt q hhigh]
  calc (2 ^ (64 - c) * q + i / 2 ^ (n - 64)) * 2 ^ 64 + i % 2 ^ (n - 64) * 2 ^ (128 - n)
      = 2 ^ (64 - c) * q * 2 ^ 64 +
          (i / 2 ^ (n - 64) * 2 ^ (n - 64) + i % 2 ^ (n - 64)) * 2 ^ (128 - n) := by
        rw [e64]
        ring
    _ = bv + i * 2 ^ (128 - n) := by rw [Nat.div_add_mod', hbv']

/-- The two halves of the block address when both masks lie past bit 64: the index goes to the
right half only. -/
theorem halves_of_right {bv q c n i : ℕ} (hq : bv = 2 ^ (128 - c) * q) (hc : 64 ≤ c)
    (hj : i * 2 ^ (128 - n) < 2 ^ (128 - c)) (hi : i < 2 ^ 64) (hbv : bv < 2 ^ 128) :
    (BitVec.ofNat 64 (bv / 2 ^ 64)).toNat * 2 ^ 64 +
      (BitVec.ofNat 64 (bv % 2 ^ 64) ||| BitVec.ofNat 64 i <<< (128 - n)).toNat =
        bv + i * 2 ^ (128 - n) := by
  have hc64 : 2 ^ (128 - c) ≤ 2 ^ 64 := Nat.pow_le_pow_right (by norm_num) (by omega)
  have hdvd : 2 ^ (128 - c) ∣ bv % 2 ^ 64 :=
    (Nat.dvd_mod_iff (Nat.pow_dvd_pow 2 (by omega))).mpr ⟨q, hq⟩
  obtain ⟨q', hq'⟩ := hdvd
  have hH : (BitVec.ofNat 64 (bv / 2 ^ 64)).toNat = bv / 2 ^ 64 := toNat_ofNat_of_lt (by omega)
  have hL : (BitVec.ofNat 64 (bv % 2 ^ 64)).toNat = bv % 2 ^ 64 :=
    toNat_ofNat_of_lt (Nat.mod_lt bv (Nat.two_pow_pos 64))
  rw [BitVec.toNat_or, BitVec.toNat_shiftLeft, toNat_ofNat_of_lt hi, Nat.shiftLeft_eq, hH, hL,
    Nat.mod_eq_of_lt (show i * 2 ^ (128 - n) < 2 ^ 64 by omega), hq',
    two_pow_mul_or_of_lt q' hj, ← hq', ← Nat.add_assoc, Nat.div_add_mod']

theorem ushiftRight_eq_zero_of_clz {x : BitVec 64} {k : ℕ} (h : ¬ 64 - x.clz.toNat > k) :
    x >>> k = 0#64 := by
  apply BitVec.eq_of_toNat_eq
  rw [BitVec.toNat_ushiftRight, Nat.shiftRight_eq_div_pow, BitVec.toNat_zero]
  exact Nat.div_eq_of_lt (lt_of_lt_of_le BitVec.toNat_lt_two_pow_sub_clz
    (Nat.pow_le_pow_right (by norm_num) (by omega)))

theorem indexToCIDRBlock_v6 (hw : s.WF) {b : BitVec 128} (hb : s.clusterPrefix.addr = .v6 b)
    {i : ℕ} (hi : i < s.maxCIDRs) :
    s.indexToCIDRBlock i =
      ⟨.v6 (BitVec.ofNat 128 (b.toNat + i * 2 ^ (128 - s.nodeMaskSize))), s.nodeMaskSize⟩ := by
  obtain ⟨hcn, hj⟩ := hw.lt_of_lt_maxCIDRs hi
  obtain ⟨q, hq⟩ := hw.exists_mul
  have hdiff := hw.diff_le
  have hnode := hw.node_le
  have hmax := hw.maxCIDRs_eq
  simp only [hb, Prefix.hostBits, Addr.bitLen, Ipcache.Addr.val] at hj hq hdiff hnode
  have hi64 : i < 2 ^ 64 := by
    rw [hmax, if_pos hcn] at hi
    have := Nat.pow_le_pow_right (show 0 < 2 by norm_num) (hdiff trivial)
    omega
  have hbv := b.isLt
  unfold indexToCIDRBlock
  rw [hb]
  dsimp only
  split_ifs with hn hc hbit
  · rw [left_of_node_le hq hcn hn hj hbv]
  · rw [halves_of_straddle hq hc (by omega) hnode hj hi64 hbv]
  · have := halves_of_straddle hq hc (by omega) hnode hj hi64 hbv
    rw [ushiftRight_eq_zero_of_clz hbit, BitVec.or_zero] at this
    rw [this]
  · rw [halves_of_right hq (by omega) hj hi64 hbv]
/-- Block `i` is the cluster address plus `i` block sizes, for IPv4 and IPv6 alike. -/
theorem indexToCIDRBlock_val (hw : s.WF) {i : ℕ} (hi : i < s.maxCIDRs) :
    (s.indexToCIDRBlock i).bits = s.nodeMaskSize ∧
      (s.indexToCIDRBlock i).addr.bitLen = s.clusterPrefix.addr.bitLen ∧
      (s.indexToCIDRBlock i).addr.val = s.clusterPrefix.addr.val +
        i * 2 ^ (s.clusterPrefix.addr.bitLen - s.nodeMaskSize) := by
  have hj := (hw.lt_of_lt_maxCIDRs hi).2
  have htop := hw.top
  cases hb : s.clusterPrefix.addr with
  | v4 b =>
    rw [indexToCIDRBlock_v4 hw hb hi]
    simp only [hb, Prefix.hostBits, Addr.bitLen, Ipcache.Addr.val] at hj htop ⊢
    exact ⟨trivial, trivial, toNat_ofNat_of_lt (by omega)⟩
  | v6 b =>
    rw [indexToCIDRBlock_v6 hw hb hi]
    simp only [hb, Prefix.hostBits, Addr.bitLen, Ipcache.Addr.val] at hj htop ⊢
    exact ⟨trivial, trivial, toNat_ofNat_of_lt (by omega)⟩

/-- Every block lies within the cluster prefix. -/
theorem within_indexToCIDRBlock (hw : s.WF) {i : ℕ} (hi : i < s.maxCIDRs) :
    (s.indexToCIDRBlock i).within s.clusterPrefix = true := by
  obtain ⟨hbits, hlen, hval⟩ := indexToCIDRBlock_val hw hi
  obtain ⟨hcn, hj⟩ := hw.lt_of_lt_maxCIDRs hi
  unfold Prefix.within
  rw [Bool.and_eq_true, decide_eq_true_eq, hbits, Prefix.contains_iff hw.valid, hval]
  exact ⟨hcn, hlen.symm,
    div_eq_of_mem_block (Nat.two_pow_pos _) hw.aligned (by omega) (by omega)⟩

/-- Distinct indices give distinct blocks. -/
theorem indexToCIDRBlock_injOn (hw : s.WF) {i j : ℕ} (hi : i < s.maxCIDRs) (hj : j < s.maxCIDRs)
    (h : s.indexToCIDRBlock i = s.indexToCIDRBlock j) : i = j := by
  have hvi := (indexToCIDRBlock_val hw hi).2.2
  have hvj := (indexToCIDRBlock_val hw hj).2.2
  rw [h, hvj] at hvi
  exact (Nat.eq_of_mul_eq_mul_right (Nat.two_pow_pos _) (Nat.add_left_cancel hvi)).symm

/-- getIndexForAddr reads the index back from the address of its block, unless the bound check
of IPv4 cuts `maxCIDRs` to 32 bits. -/
theorem getIndexForAddr_indexToCIDRBlock (hw : s.WF) (hmax : s.maxCIDRs < 2 ^ 32) {i : ℕ}
    (hi : i < s.maxCIDRs) : s.getIndexForAddr (s.indexToCIDRBlock i).addr = .ok i := by
  obtain ⟨hcn, hj⟩ := hw.lt_of_lt_maxCIDRs hi
  obtain ⟨q, hq⟩ := hw.exists_mul
  have hnode := hw.node_le
  cases hb : s.clusterPrefix.addr with
  | v4 b =>
    rw [indexToCIDRBlock_v4 hw hb hi]
    have htop := hw.top
    simp only [hb, Prefix.hostBits, Addr.bitLen, Ipcache.Addr.val] at hj hq htop hnode
    have hindex : ((b ^^^ BitVec.ofNat 32 (b.toNat + i * 2 ^ (32 - s.nodeMaskSize))) >>>
        (32 - s.nodeMaskSize)).toNat = i := by
      rw [BitVec.toNat_ushiftRight, BitVec.toNat_xor, toNat_ofNat_of_lt (by omega), hq,
        two_pow_mul_xor_add_of_lt q hj, Nat.shiftRight_eq_div_pow,
        Nat.mul_div_cancel _ (Nat.two_pow_pos _)]
    unfold getIndexForAddr
    rw [hb]
    dsimp only
    rw [hindex, Nat.mod_eq_of_lt hmax, if_neg (by omega)]
  | v6 b =>
    rw [indexToCIDRBlock_v6 hw hb hi]
    have htop := hw.top
    simp only [hb, Prefix.hostBits, Addr.bitLen, Ipcache.Addr.val] at hj hq htop hnode
    have hindex : ((b.toNat ^^^
        (BitVec.ofNat 128 (b.toNat + i * 2 ^ (128 - s.nodeMaskSize))).toNat) >>>
        (128 - s.nodeMaskSize)) % 2 ^ 64 = i := by
      rw [toNat_ofNat_of_lt (by omega), hq, two_pow_mul_xor_add_of_lt q hj,
        Nat.shiftRight_eq_div_pow, Nat.mul_div_cancel _ (Nat.two_pow_pos _),
        Nat.mod_eq_of_lt (by omega)]
    unfold getIndexForAddr
    rw [hb]
    dsimp only
    rw [show (Addr.v6 b).as16 = b from rfl, hindex, Nat.mod_eq_of_lt (by omega), if_neg (by omega)]

theorem getIndexForAddr_slash0_slash32 :
    ∃ s, NewCIDRSet ⟨.v4 0#32, 0⟩ 32 = .ok s ∧ 0 < s.maxCIDRs ∧
      s.getIndexForAddr (s.indexToCIDRBlock 0).addr ≠ .ok 0 :=
  ⟨_, rfl, by decide, by decide⟩

end CidrSet

/-! ### The bitmap along a run -/

/-- What a set keeps from `s0`, the set NewCIDRSet made: the cluster prefix, the node mask and the
number of blocks, a bitmap whose bits are block indices and are counted by `allocatedCIDRs`, and a
next candidate that is a block index. -/
structure CidrSet.Inv (s0 s : CidrSet) : Prop where
  clusterPrefix_eq : s.clusterPrefix = s0.clusterPrefix
  nodeMaskSize_eq : s.nodeMaskSize = s0.nodeMaskSize
  maxCIDRs_eq : s.maxCIDRs = s0.maxCIDRs
  lt_max : ∀ i ∈ bitsOf s.used, i < s.maxCIDRs
  count_eq : s.allocatedCIDRs = (bitsOf s.used).card
  next_lt : 0 < s.maxCIDRs → s.nextCandidate < s.maxCIDRs

namespace CidrSet

variable {s0 s s' : CidrSet}

/-- The candidate loop finds a clear bit below `maxCIDRs` when one lies within its steps. -/
theorem scanCandidate_spec {used m : ℕ} (n : ℕ) :
    ∀ c, c < m → (∃ j < n, used.testBit ((c + j) % m) = false) →
      scanCandidate used m n c < m ∧ used.testBit (scanCandidate used m n c) = false := by
  induction n with
  | zero => exact fun _ _ ⟨j, hj, _⟩ => absurd hj (Nat.not_lt_zero j)
  | succ n ih =>
    intro c hc ⟨j, hj, hclear⟩
    unfold scanCandidate
    by_cases hbit : used.testBit c = false
    · rw [if_pos hbit]
      exact ⟨hc, hbit⟩
    · rw [if_neg hbit]
      refine ih _ (Nat.mod_lt _ (by omega)) ?_
      cases j with
      | zero =>
        rw [Nat.add_zero, Nat.mod_eq_of_lt hc] at hclear
        exact absurd hclear hbit
      | succ j =>
        refine ⟨j, by omega, ?_⟩
        rw [Nat.mod_add_mod, show c + 1 + j = c + (j + 1) by omega]
        exact hclear

theorem Inv.card_le (hi : Inv s0 s) : (bitsOf s.used).card ≤ s.maxCIDRs :=
  card_le_of_lt_max hi.lt_max

/-- A set that is not full has a clear block, and the candidate loop finds one. -/
theorem Inv.scanCandidate (hi : Inv s0 s) (hfree : s.allocatedCIDRs ≠ s.maxCIDRs) :
    scanCandidate s.used s.maxCIDRs s.maxCIDRs s.nextCandidate < s.maxCIDRs ∧
      s.used.testBit (scanCandidate s.used s.maxCIDRs s.maxCIDRs s.nextCandidate) = false := by
  have hlt : (bitsOf s.used).card < s.maxCIDRs := by
    have := hi.card_le
    rw [← hi.count_eq] at this ⊢
    omega
  obtain ⟨i, hi', hclear⟩ := exists_clear_of_card_lt hlt
  have hnext := hi.next_lt (by omega)
  refine scanCandidate_spec _ _ hnext ⟨(i + s.maxCIDRs - s.nextCandidate) % s.maxCIDRs,
    Nat.mod_lt _ (by omega), ?_⟩
  rw [Nat.add_mod_mod, show s.nextCandidate + (i + s.maxCIDRs - s.nextCandidate) =
    i + s.maxCIDRs by omega, Nat.add_mod_right, Nat.mod_eq_of_lt hi']
  exact hclear

theorem AllocateNext_ok (hi : Inv s0 s) {p : Prefix} (h : s.AllocateNext = .ok (p, s')) :
    ∃ i < s.maxCIDRs, s.used.testBit i = false ∧ p = s.indexToCIDRBlock i ∧
      s' = { s with nextCandidate := (i + 1) % s.maxCIDRs,
                    used := setBit s.used i true,
                    allocatedCIDRs := s.allocatedCIDRs + 1 } := by
  unfold AllocateNext at h
  split_ifs at h with hfull
  cases h
  obtain ⟨hlt, hclear⟩ := hi.scanCandidate hfull
  exact ⟨_, hlt, hclear, rfl, rfl⟩

theorem AllocateNext_error_iff {e : CidrSetError} :
    s.AllocateNext = .error e ↔
      e = .ErrCIDRRangeNoCIDRsRemaining ∧ s.allocatedCIDRs = s.maxCIDRs := by
  unfold AllocateNext
  by_cases hfull : s.allocatedCIDRs = s.maxCIDRs
  · rw [if_pos hfull]
    exact ⟨fun h => ⟨(Except.error.inj h).symm, hfull⟩, fun ⟨he, _⟩ => he ▸ rfl⟩
  · rw [if_neg hfull]
    exact ⟨fun h => absurd h (by simp), fun ⟨_, h⟩ => absurd h hfull⟩

theorem Inv.allocateNext (hi : Inv s0 s) {p : Prefix} (h : s.AllocateNext = .ok (p, s')) :
    Inv s0 s' := by
  obtain ⟨i, hlt, hclear, -, rfl⟩ := AllocateNext_ok hi h
  have hnot : i ∉ bitsOf s.used := by
    rw [mem_bitsOf, hclear]
    exact Bool.false_ne_true
  refine ⟨hi.clusterPrefix_eq, hi.nodeMaskSize_eq, hi.maxCIDRs_eq, ?_, ?_, ?_⟩
  · show ∀ j ∈ bitsOf (setBit s.used i true), j < s.maxCIDRs
    rw [bitsOf_setBit_true]
    intro j hj
    rcases Finset.mem_insert.mp hj with rfl | hj
    · exact hlt
    · exact hi.lt_max j hj
  · show s.allocatedCIDRs + 1 = (bitsOf (setBit s.used i true)).card
    rw [bitsOf_setBit_true, Finset.card_insert_of_notMem hnot, hi.count_eq]
  · exact fun hpos => Nat.mod_lt _ hpos

theorem Inv.occupyIndex (hi : Inv s0 s) {i : ℕ} (hlt : i < s.maxCIDRs) :
    Inv s0 (s.occupyIndex i) := by
  unfold CidrSet.occupyIndex
  split_ifs with hclear
  · have hnot : i ∉ bitsOf s.used := by
      rw [mem_bitsOf, hclear]
      exact Bool.false_ne_true
    refine ⟨hi.clusterPrefix_eq, hi.nodeMaskSize_eq, hi.maxCIDRs_eq, ?_, ?_, hi.next_lt⟩
    · show ∀ j ∈ bitsOf (setBit s.used i true), j < s.maxCIDRs
      rw [bitsOf_setBit_true]
      intro j hj
      rcases Finset.mem_insert.mp hj with rfl | hj
      · exact hlt
      · exact hi.lt_max j hj
    · show s.allocatedCIDRs + 1 = (bitsOf (setBit s.used i true)).card
      rw [bitsOf_setBit_true, Finset.card_insert_of_notMem hnot, hi.count_eq]
  · exact hi

theorem Inv.releaseIndex (hi : Inv s0 s) (i : ℕ) : Inv s0 (s.releaseIndex i) := by
  unfold CidrSet.releaseIndex
  split_ifs with hset
  · have hmem : i ∈ bitsOf s.used := mem_bitsOf.mpr hset
    refine ⟨hi.clusterPrefix_eq, hi.nodeMaskSize_eq, hi.maxCIDRs_eq, ?_, ?_, hi.next_lt⟩
    · show ∀ j ∈ bitsOf (setBit s.used i false), j < s.maxCIDRs
      rw [bitsOf_setBit_false]
      exact fun j hj => hi.lt_max j (Finset.mem_of_mem_erase hj)
    · show s.allocatedCIDRs - 1 = (bitsOf (setBit s.used i false)).card
      rw [bitsOf_setBit_false, Finset.card_erase_of_mem hmem, hi.count_eq]
  · exact hi

theorem Inv.foldl_occupyIndex {l : List ℕ} (hl : ∀ i ∈ l, i < s0.maxCIDRs) :
    ∀ {s}, Inv s0 s → Inv s0 (l.foldl CidrSet.occupyIndex s) := by
  induction l with
  | nil => exact fun hi => hi
  | cons i l ih =>
    intro s hi
    rw [List.foldl_cons]
    refine ih (fun j hj => hl j (List.mem_cons_of_mem i hj)) (hi.occupyIndex ?_)
    rw [hi.maxCIDRs_eq]
    exact hl i List.mem_cons_self

theorem Inv.foldl_releaseIndex (l : List ℕ) :
    ∀ {s}, Inv s0 s → Inv s0 (l.foldl CidrSet.releaseIndex s) := by
  induction l with
  | nil => exact fun hi => hi
  | cons i l ih =>
    intro s hi
    rw [List.foldl_cons]
    exact ih (hi.releaseIndex i)

theorem getIndexForAddr_lt {a : Addr} {i : ℕ} (h : s.getIndexForAddr a = .ok i) :
    i < s.maxCIDRs := by
  unfold getIndexForAddr at h
  dsimp only at h
  split at h
  · split_ifs at h with hge
    cases h
    exact lt_of_lt_of_le (Nat.lt_of_not_le hge) (Nat.mod_le _ _)
  · cases h
  · split_ifs at h with hge
    cases h
    exact lt_of_lt_of_le (Nat.lt_of_not_le hge) (Nat.mod_le _ _)

/-- The loops of Release, Occupy and IsAllocated run over block indices only. -/
theorem lt_of_mem_indices {p : Prefix} {b : ℕ} {e : ℤ}
    (h : s.getBeginningAndEndIndices p = .ok (b, e)) {i : ℕ} (hi : i ∈ indices b e) :
    i < s.maxCIDRs := by
  rw [indices, List.mem_range'_1] at hi
  unfold getBeginningAndEndIndices at h
  dsimp only at h
  split_ifs at h with hout hlong
  · split at h
    · cases h
    · rename_i begin hbegin
      split at h
      · cases h
      · rename_i e' he
        cases h
        have := getIndexForAddr_lt he
        omega
  · cases h
    omega

theorem Inv.occupy (hi : Inv s0 s) {p : Prefix} (h : s.Occupy p = .ok s') : Inv s0 s' := by
  unfold Occupy at h
  split at h
  · cases h
  · rename_i b e hbe
    cases h
    refine hi.foldl_occupyIndex fun i hmem => ?_
    rw [← hi.maxCIDRs_eq]
    exact lt_of_mem_indices hbe hmem

theorem Inv.release (hi : Inv s0 s) {p : Prefix} (h : s.Release p = .ok s') : Inv s0 s' := by
  unfold Release at h
  split at h
  · cases h
  · cases h
    exact hi.foldl_releaseIndex _

end CidrSet

/-- The sets reached from `s0` by AllocateNext, Occupy and Release; IsAllocated changes nothing,
and a call that fails leaves the set as it was. -/
inductive CidrSet.Reachable (s0 : CidrSet) : CidrSet → Prop
  | init : Reachable s0 s0
  | allocateNext {s s' : CidrSet} {p : Prefix} :
      Reachable s0 s → s.AllocateNext = .ok (p, s') → Reachable s0 s'
  | occupy {s s' : CidrSet} {p : Prefix} :
      Reachable s0 s → s.Occupy p = .ok s' → Reachable s0 s'
  | release {s s' : CidrSet} {p : Prefix} :
      Reachable s0 s → s.Release p = .ok s' → Reachable s0 s'

/-- What a set promises: (a) its blocks are distinct, lie within the cluster prefix, and are read
back by getIndexForAddr when `maxCIDRs` fits the IPv4 bound check; (b) its bits are block indices
counted by `allocatedCIDRs`; (c) AllocateNext takes a clear block and fails exactly when every
block is taken. -/
structure CidrSet.Correct (s : CidrSet) : Prop where
  injOn : ∀ i < s.maxCIDRs, ∀ j < s.maxCIDRs,
    s.indexToCIDRBlock i = s.indexToCIDRBlock j → i = j
  within : ∀ i < s.maxCIDRs, (s.indexToCIDRBlock i).within s.clusterPrefix = true
  getIndexForAddr_eq : s.maxCIDRs < 2 ^ 32 →
    ∀ i < s.maxCIDRs, s.getIndexForAddr (s.indexToCIDRBlock i).addr = .ok i
  lt_max : ∀ i ∈ bitsOf s.used, i < s.maxCIDRs
  count_eq : s.allocatedCIDRs = (bitsOf s.used).card
  allocateNext_ok : ∀ p s', s.AllocateNext = .ok (p, s') →
    ∃ i < s.maxCIDRs, s.used.testBit i = false ∧ p = s.indexToCIDRBlock i ∧
      bitsOf s'.used = insert i (bitsOf s.used)
  allocateNext_full :
    s.AllocateNext = .error .ErrCIDRRangeNoCIDRsRemaining ↔ ∀ i < s.maxCIDRs, s.used.testBit i

namespace CidrSet

variable {s0 s : CidrSet}

theorem Inv.newCIDRSet {p : Prefix} (hv : p.isValid = true) {n : ℕ}
    (h0 : NewCIDRSet p n = .ok s0) : Inv s0 s0 := by
  obtain ⟨-, -, -, hcount, hnext, hused⟩ := NewCIDRSet_ok hv h0
  refine ⟨rfl, rfl, rfl, ?_, ?_, fun hpos => ?_⟩
  · rw [hused, bitsOf_zero]
    exact fun i hi => absurd hi (Finset.notMem_empty i)
  · rw [hcount, hused, bitsOf_zero, Finset.card_empty]
  · rw [hnext]
    exact hpos

theorem Reachable.inv {p : Prefix} (hv : p.isValid = true) {n : ℕ}
    (h0 : NewCIDRSet p n = .ok s0) (hr : Reachable s0 s) : Inv s0 s := by
  induction hr with
  | init => exact Inv.newCIDRSet hv h0
  | allocateNext _ hstep ih => exact ih.allocateNext hstep
  | occupy _ hstep ih => exact ih.occupy hstep
  | release _ hstep ih => exact ih.release hstep

/-- The shape reads only the cluster prefix, the node mask and the number of blocks. -/
theorem WF.of_inv (hw : s0.WF) (hi : Inv s0 s) : s.WF := by
  obtain ⟨hvalid, haligned, hnode, hmax, hdiff⟩ := hw
  rw [← hi.clusterPrefix_eq, ← hi.nodeMaskSize_eq, ← hi.maxCIDRs_eq] at *
  exact ⟨hvalid, haligned, hnode, hmax, hdiff⟩

theorem Inv.correct (hi : Inv s0 s) (hw : s.WF) : s.Correct where
  injOn _ hi' _ hj h := indexToCIDRBlock_injOn hw hi' hj h
  within _ hi' := within_indexToCIDRBlock hw hi'
  getIndexForAddr_eq hmax _ hi' := getIndexForAddr_indexToCIDRBlock hw hmax hi'
  lt_max := hi.lt_max
  count_eq := hi.count_eq
  allocateNext_ok p s' h := by
    obtain ⟨i, hlt, hclear, rfl, rfl⟩ := AllocateNext_ok hi h
    exact ⟨i, hlt, hclear, rfl, bitsOf_setBit_true _ _⟩
  allocateNext_full := by
    rw [AllocateNext_error_iff, hi.count_eq, card_bitsOf_eq_iff hi.lt_max]
    exact ⟨fun h => h.2, fun h => ⟨rfl, h⟩⟩

end CidrSet

/-- Every set NewCIDRSet makes from a valid cluster prefix, and every set reached from it by
AllocateNext, Occupy and Release, keeps the promises of `CidrSet.Correct`. -/
theorem reachable_cidrSet_correct {p : Prefix} (hv : p.isValid = true) {n : ℕ} {s0 s : CidrSet}
    (h0 : NewCIDRSet p n = .ok s0) (hr : CidrSet.Reachable s0 s) : s.Correct :=
  have hi := hr.inv hv h0
  hi.correct ((NewCIDRSet_ok hv h0).1.of_inv hi)

/-- A `/16` cut into `/24`s, after one AllocateNext, an Occupy of a `/23` and the Release of the
first block. -/
theorem reachable_cidrSet_correct_after_release :
    let q : Prefix := ⟨.v4 0x0a000000#32, 16⟩
    let s0 : CidrSet := ⟨q, 24, 256, 0, 0, 0⟩
    let s1 : CidrSet := ⟨q, 24, 256, 1, 1, 1⟩
    let s2 : CidrSet := ⟨q, 24, 256, 3, 1, 13⟩
    let s3 : CidrSet := ⟨q, 24, 256, 2, 1, 12⟩
    q.isValid = true ∧ NewCIDRSet q 24 = .ok s0 ∧
      s0.AllocateNext = .ok (⟨.v4 0x0a000000#32, 24⟩, s1) ∧
      s1.Occupy ⟨.v4 0x0a000200#32, 23⟩ = .ok s2 ∧ s2.Release ⟨.v4 0x0a000000#32, 24⟩ = .ok s3 ∧
      s3.Correct := by
  intro q s0 s1 s2 s3
  have hv : q.isValid = true := by decide
  have h0 : NewCIDRSet q 24 = .ok s0 := by decide
  have h1 : s0.AllocateNext = .ok (⟨.v4 0x0a000000#32, 24⟩, s1) := by decide
  have h2 : s1.Occupy ⟨.v4 0x0a000200#32, 23⟩ = .ok s2 := by decide
  have h3 : s2.Release ⟨.v4 0x0a000000#32, 24⟩ = .ok s3 := by decide
  exact ⟨hv, h0, h1, h2, h3,
    reachable_cidrSet_correct hv h0 (.release (.occupy (.allocateNext .init h1) h2) h3)⟩

end Ipam

end Cilium
