import Cilium.Ipam.IPAllocator

/-! The runs of a service IP range: the ranges reached from NewCIDRRange by Allocate,
AllocateNext, Release and by Restore of the snapshot of a range of the same prefix and options.
Every such range keeps the prefix, the base and the size it was made with and a consistent bitmap
(`Range.Inv`), and from that and where NewCIDRRange placed it (`Range.WellPlaced`) follows what
the allocator promises (`Range.Correct`): the allocated offsets lie below `max` and are counted,
AllocateNext hands out a fresh offset inside the prefix, off its network and last address unless
the options allow them, and fails exactly on a full range, and Allocate takes exactly the free
offsets of the range. -/

namespace Cilium.Ipam.IPAllocator

open Cilium.Ipcache Cilium.Ipam.Allocator BitSet

/-- The ranges reached from NewCIDRRange cidr opts.  A Restore is given the data of the Snapshot
of a range reached the same way; a call that fails leaves the range as it was. -/
inductive Reachable (cidr : Prefix) (opts : List CIDRRangeOption) : Range → Prop
  | init : Reachable cidr opts (NewCIDRRange cidr opts)
  | allocate {r r' : Range} {ip : Addr} :
      Reachable cidr opts r → r.Allocate ip = .ok r' → Reachable cidr opts r'
  | allocateNext {r r' : Range} {rnd : ℕ} {ip : Addr} :
      Reachable cidr opts r → r.AllocateNext rnd = .ok (ip, r') → Reachable cidr opts r'
  | release {r : Range} (ip : Addr) : Reachable cidr opts r → Reachable cidr opts (r.Release ip)
  | restore {r r' s : Range} {p : Prefix} :
      Reachable cidr opts r → Reachable cidr opts s → r.Restore p s.Snapshot.2 = .ok r' →
      Reachable cidr opts r'

/-- What a range keeps from `r0`, the range it was made as: the prefix, the base and the size,
a bitmap of that size, and the consistency of the bitmap. -/
structure Range.Inv (r0 r : Range) : Prop where
  cidr_eq : r.cidr = r0.cidr
  base_eq : r.base = r0.base
  max_eq : r.max = r0.max
  alloc_max : r.alloc.max = r.max
  valid : r.alloc.Valid

namespace Range.Inv

variable {r0 r r' s : Range}

theorem newCIDRRange (cidr : Prefix) (opts : List CIDRRangeOption) :
    Inv (NewCIDRRange cidr opts) (NewCIDRRange cidr opts) := by
  refine ⟨rfl, rfl, rfl, ?_, ?_⟩
  · rw [NewCIDRRange_alloc]
    rfl
  · rw [NewCIDRRange_alloc]
    exact AllocationBitmap.valid_newAllocationMap _ _

theorem allocate (hi : Inv r0 r) {ip : Addr} (h : r.Allocate ip = .ok r') : Inv r0 r' := by
  obtain ⟨off, hc, -, rfl⟩ := Range.allocate_ok h
  have hlt : off < r.alloc.max := by
    rw [hi.alloc_max]
    exact (Range.contains_eq_some.mp hc).2.2
  exact ⟨hi.cidr_eq, hi.base_eq, hi.max_eq,
    (AllocationBitmap.max_allocate off).trans hi.alloc_max, hi.valid.allocate hlt⟩

theorem allocateNext (hi : Inv r0 r) {rnd : ℕ} {ip : Addr}
    (h : r.AllocateNext rnd = .ok (ip, r')) : Inv r0 r' := by
  obtain ⟨off, alloc', hA, -, rfl⟩ := Range.allocateNext_ok h
  have hspec := hi.valid.allocateNext rnd
  rw [hA] at hspec
  obtain ⟨-, -, -, hmax, hvalid⟩ := hspec
  exact ⟨hi.cidr_eq, hi.base_eq, hi.max_eq, hmax.trans hi.alloc_max, hvalid⟩

theorem release (hi : Inv r0 r) (ip : Addr) : Inv r0 (r.Release ip) := by
  rcases Range.release_cases r ip with h | ⟨off, -, h⟩
  · rw [h]
    exact hi
  · rw [h]
    exact ⟨hi.cidr_eq, hi.base_eq, hi.max_eq,
      (AllocationBitmap.max_release off).trans hi.alloc_max, hi.valid.release off⟩

/-- Restoring the snapshot of a range made as the same `r0`: its bits lie below the same size. -/
theorem restore (hi : Inv r0 r) (hs : Inv r0 s) {p : Prefix}
    (h : r.Restore p s.Snapshot.2 = .ok r') : Inv r0 r' := by
  obtain ⟨-, alloc', hres, rfl⟩ := Range.restore_ok h
  have hdata : ∀ i ∈ bitsOf (ofBytes s.Snapshot.2), i < r.alloc.max := by
    intro i hmem
    rw [Range.Snapshot, AllocationBitmap.Snapshot, ofBytes_toBytes] at hmem
    rw [hi.alloc_max, hi.max_eq, ← hs.max_eq, ← hs.alloc_max]
    exact hs.valid.lt_max i hmem
  obtain ⟨hvalid, -, hmax⟩ := AllocationBitmap.Valid.restore hres hdata
  exact ⟨hi.cidr_eq, hi.base_eq, hi.max_eq, hmax.trans hi.alloc_max, hvalid⟩

end Range.Inv

variable {cidr : Prefix} {opts : List CIDRRangeOption} {r : Range}

theorem Reachable.inv (h : Reachable cidr opts r) : Range.Inv (NewCIDRRange cidr opts) r := by
  induction h with
  | init => exact Range.Inv.newCIDRRange cidr opts
  | allocate _ hstep ih => exact ih.allocate hstep
  | allocateNext _ hstep ih => exact ih.allocateNext hstep
  | release ip _ ih => exact ih.release ip
  | restore _ _ hstep ihr ihs => exact ihr.restore ihs hstep

/-- What a range promises, with `S` its set of allocated offsets: `S` lies below `max` and the
counter is `|S|`, so that Free is `max - |S|` and Used is `|S|`; AllocateNext hands out the address
of an offset not in `S`, inside the prefix and, in a prefix of more than two addresses, neither
its network nor its last address unless the options allow it, and fails with ErrFull exactly when
`|S| = max`; Allocate succeeds exactly on the addresses of the offsets below `max` not in `S`;
and addrOffset undoes addOffset on every offset below `max`. -/
structure Range.Correct (r : Range) (o : cidrRangeOptions) : Prop where
  lt_max : ∀ i ∈ r.alloc.allocatedSet, i < r.max
  count_eq : r.alloc.count = r.alloc.allocatedSet.card
  free_eq : r.Free = r.max - r.alloc.allocatedSet.card
  used_eq : r.Used = r.alloc.allocatedSet.card
  allocateNext_ok : ∀ rnd ip r', r.AllocateNext rnd = .ok (ip, r') →
    ∃ off < r.max, off ∉ r.alloc.allocatedSet ∧ ip = addOffset r.base off ∧
      r'.alloc.allocatedSet = insert off r.alloc.allocatedSet ∧ r.cidr.contains ip = true ∧
      (2 < 2 ^ r.cidr.hostBits → o.allowFirstIP = false → ip ≠ r.cidr.addr) ∧
      (2 < 2 ^ r.cidr.hostBits → o.allowLastIP = false → ip.val ≠ r.cidr.lastAddr)
  allocateNext_full : ∀ rnd,
    r.AllocateNext rnd = .error .ErrFull ↔ r.alloc.allocatedSet.card = r.max
  allocate_iff : ∀ ip, (∃ r', r.Allocate ip = .ok r') ↔
    ∃ off < r.max, off ∉ r.alloc.allocatedSet ∧ ip = addOffset r.base off
  addrOffset_addOffset : ∀ off < r.max, addrOffset r.base (addOffset r.base off) = some off

namespace Range

variable {r0 : Range} {o : cidrRangeOptions}

theorem allocateNext_full_iff (hi : Inv r0 r) (rnd : ℕ) :
    r.AllocateNext rnd = .error .ErrFull ↔ r.alloc.allocatedSet.card = r.max := by
  rw [allocateNext_error_iff, ← hi.alloc_max]
  have hspec := hi.valid.allocateNext rnd
  cases hA : r.alloc.AllocateNext rnd with
  | mk next alloc' =>
    rw [hA] at hspec
    cases next with
    | none => exact ⟨fun _ => hspec.1, fun _ => rfl⟩
    | some off =>
      -- a fresh offset below the size: the bitmap was not full
      obtain ⟨hlt, hfresh, -⟩ := hspec
      exact ⟨fun h => absurd h (by simp),
        fun hfull => absurd (hi.valid.mem_of_full hfull hlt) hfresh⟩

theorem Inv.correct (hi : Inv r0 r) (hw : r.WellPlaced o) : r.Correct o where
  lt_max i hmem := hi.alloc_max ▸ hi.valid.lt_max i hmem
  count_eq := hi.valid.count_eq
  free_eq := by rw [Range.Free, hi.valid.free_eq, hi.alloc_max]
  used_eq := by
    rw [Range.Used, hi.valid.free_eq, hi.alloc_max]
    ring
  allocateNext_ok rnd ip r' h := by
    obtain ⟨off, alloc', hA, rfl, rfl⟩ := allocateNext_ok h
    have hspec := hi.valid.allocateNext rnd
    rw [hA] at hspec
    obtain ⟨hlt, hfresh, hset, -⟩ := hspec
    rw [hi.alloc_max] at hlt
    exact ⟨off, hlt, hfresh, rfl, hset, hw.contains_addOffset hlt,
      fun hbig hallow => hw.addOffset_ne_network hbig hallow hlt,
      fun hbig hallow => hw.addOffset_ne_last hbig hallow hlt⟩
  allocateNext_full rnd := allocateNext_full_iff hi rnd
  allocate_iff ip := by
    constructor
    · rintro ⟨r', h⟩
      obtain ⟨off, hc, hfresh, -⟩ := allocate_ok h
      obtain ⟨hlt, rfl⟩ := hw.eq_addOffset_of_contains hc
      exact ⟨off, hlt, hfresh, rfl⟩
    · rintro ⟨off, hlt, hfresh, rfl⟩
      exact ⟨_, allocate_of_free (hw.contains_addOffset_eq hlt) hfresh⟩
  addrOffset_addOffset _ hoff := hw.addrOffset_addOffset hoff

end Range

end Cilium.Ipam.IPAllocator
