import Cilium.Ipam.IPAllocator

/-! The CIDR pool of multi-pool IPAM (`pkg/ipam/pool.go`): one range allocator per CIDR that the
node's spec lists, in the spec's order; the CIDRs given back to the operator (`released`); and the
CIDRs that left the spec while addresses of them were in use (`removed`), whose allocators stay
but hand out nothing new.  The sets of prefixes are lists without repeats; the pool's mutex is
left out, as every method holds it throughout, and so are the logging and the unreachable routes
that `updatePool` cleans up. -/

namespace Cilium

open Cilium.Ipcache

/-- `netip.Addr.Compare`: by family, then by value. -/
def Ipcache.Addr.compare (a b : Addr) : Ordering :=
  if a.bitLen ≠ b.bitLen then Ord.compare a.bitLen b.bitLen else Ord.compare a.val b.val

namespace Ipam

open Cilium.Ipam.IPAllocator

/-- `cidrPool`, without its lock and logger. -/
structure cidrPool where
  ipAllocators : List Range
  released : List Prefix
  removed : List Prefix
  allowFirstIP : Bool
  allowLastIP : Bool

/-- The errors of the pool: a range's, or its own. -/
inductive PoolError where
  | range (e : AllocError)
  | pool (msg : String)

namespace cidrPool

/-- `newCIDRPool`. -/
def newCIDRPool (allowFirstIP allowLastIP : Bool) : cidrPool := ⟨[], [], [], allowFirstIP, allowLastIP⟩

/-- `cidrPool.cidrRangeOpts`. -/
def cidrRangeOpts (p : cidrPool) : List CIDRRangeOption :=
  (if p.allowFirstIP then [.WithAllowFirstIP] else []) ++
    (if p.allowLastIP then [.WithAllowLastIP] else [])

/-- The loop of `allocate` over the allocators: the first whose CIDR holds the address. -/
def allocateIn (addr : Addr) : List Range → Option (Except AllocError (List Range))
  | [] => none
  | r :: rs =>
    if r.cidr.contains addr then some ((r.Allocate addr).map (· :: rs))
    else (allocateIn addr rs).map (·.map (r :: ·))

/-- `cidrPool.allocate`. -/
def allocate (p : cidrPool) (addr : Addr) : Except PoolError cidrPool :=
  match allocateIn addr p.ipAllocators with
  | some (.ok rs) => .ok { p with ipAllocators := rs }
  | some (.error e) => .error (.range e)
  | none => .error (.pool ("IP " ++ addr.toString ++ " not in range of any CIDR"))

/-- The loop of `allocateNext`: the first allocator that is not removed and has a free address
hands out the next one, `rnd` being its random start. -/
def allocateNextIn (removed : List Prefix) (rnd : ℕ) :
    List Range → Option (Except AllocError (Addr × List Range))
  | [] => none
  | r :: rs =>
    if r.cidr ∈ removed ∨ r.Free = 0 then
      (allocateNextIn removed rnd rs).map (·.map fun (a, rs) => (a, r :: rs))
    else some ((r.AllocateNext rnd).map fun (a, r) => (a, r :: rs))

/-- `cidrPool.allocateNext`. -/
def allocateNext (p : cidrPool) (rnd : ℕ) : Except PoolError (Addr × cidrPool) :=
  match allocateNextIn p.removed rnd p.ipAllocators with
  | some (.ok (a, rs)) => .ok (a, { p with ipAllocators := rs })
  | some (.error e) => .error (.range e)
  | none => .error (.pool "all CIDR ranges are exhausted")

/-- The loop of `release`: the first allocator whose CIDR holds the address. -/
def releaseIn (addr : Addr) : List Range → List Range
  | [] => []
  | r :: rs => if r.cidr.contains addr then r.Release addr :: rs else r :: releaseIn addr rs

/-- `cidrPool.release`. -/
def release (p : cidrPool) (addr : Addr) : cidrPool :=
  { p with ipAllocators := releaseIn addr p.ipAllocators }

/-- `cidrPool.capacity`: the free addresses of the allocators that are not removed. -/
def capacity (p : cidrPool) : ℤ :=
  ((p.ipAllocators.filter fun r => r.cidr ∉ p.removed).map (·.Free)).sum

/-- The order in which `releaseExcessCIDRsMultiPool` reclaims: by address, then by length. -/
def reclaimLE (a b : Prefix) : Bool :=
  match a.addr.compare b.addr with
  | .lt => true
  | .gt => false
  | .eq => a.bits ≤ b.bits

/-- The reclaim loop of `releaseExcessCIDRsMultiPool`: released CIDRs come back, in order, while
the free addresses are short of the need; a CIDR too small for any address stays released. -/
def reclaimLoop (opts : List CIDRRangeOption) (neededIPs : ℤ) :
    List Prefix → cidrPool × ℤ → cidrPool × ℤ
  | [], acc => acc
  | pfx :: rest, (p, totalFree) =>
    if totalFree ≥ neededIPs then (p, totalFree)
    else
      let ipAllocator := NewCIDRRange pfx opts
      if ipAllocator.Free = 0 then reclaimLoop opts neededIPs rest (p, totalFree)
      else reclaimLoop opts neededIPs rest
        ({ p with ipAllocators := p.ipAllocators ++ [ipAllocator],
                  released := p.released.erase pfx }, totalFree + ipAllocator.Free)

/-- The release loop of `releaseExcessCIDRsMultiPool`, over the allocators from the last: an
unused one goes to `released` when the free addresses stay at the need without it; the rest are
kept, in the order the loop meets them. -/
def releaseLoop (neededIPs : ℤ) :
    List Range → List Prefix × ℤ × List Range → List Prefix × ℤ × List Range
  | [], acc => acc
  | ipAllocator :: rest, (released, totalFree, retained) =>
    let free := ipAllocator.Free
    if ipAllocator.Used = 0 ∧ totalFree - free ≥ neededIPs then
      releaseLoop neededIPs rest (released.insert ipAllocator.cidr, totalFree - free, retained)
    else releaseLoop neededIPs rest (released, totalFree, retained ++ [ipAllocator])

/-- `cidrPool.releaseExcessCIDRsMultiPool`. -/
def releaseExcessCIDRsMultiPool (p : cidrPool) (neededIPs : ℤ) : cidrPool :=
  let totalFree := (p.ipAllocators.map (·.Free)).sum
  let (p, totalFree) :=
    if totalFree < neededIPs ∧ p.released ≠ [] then
      reclaimLoop p.cidrRangeOpts neededIPs (p.released.insertionSort fun a b => reclaimLE a b) (p, totalFree)
    else (p, totalFree)
  let (released, _, retained) := releaseLoop neededIPs p.ipAllocators.reverse (p.released, totalFree, [])
  { p with released, ipAllocators := retained }

/-- The loop of `updatePool` over the allocators: one whose CIDR left the spec goes when unused
and is marked removed otherwise; the kept ones, and their CIDRs. -/
def keepLoop (prefixSet : List Prefix) :
    List Range → List Prefix × List Range × List Prefix → List Prefix × List Range × List Prefix
  | [], acc => acc
  | ipAllocator :: rest, (removed, kept, existing) =>
    let cidr := ipAllocator.cidr
    if cidr ∉ prefixSet then
      if ipAllocator.Used = 0 then keepLoop prefixSet rest (removed, kept, existing)
      else keepLoop prefixSet rest (removed.insert cidr, kept ++ [ipAllocator], existing.insert cidr)
    else keepLoop prefixSet rest (removed, kept ++ [ipAllocator], existing.insert cidr)

/-- The loop of `updatePool` over the spec: a new allocator for each CIDR that has none and is not
released; a CIDR too small for any address is released instead. -/
def createLoop (opts : List CIDRRangeOption) :
    List Prefix → List Prefix × List Range × List Prefix → List Prefix × List Range × List Prefix
  | [], acc => acc
  | pfx :: rest, (released, newIPAllocators, existing) =>
    if pfx ∈ existing ∨ pfx ∈ released then
      createLoop opts rest (released, newIPAllocators, existing)
    else
      let ipAllocator := NewCIDRRange pfx opts
      if ipAllocator.Free = 0 then
        createLoop opts rest (released.insert pfx, newIPAllocators, existing)
      else createLoop opts rest (released, newIPAllocators ++ [ipAllocator], existing.insert pfx)

/-- `cidrPool.updatePool`: the allocators follow the spec's CIDRs. -/
def updatePool (p : cidrPool) (prefixes : List Prefix) : cidrPool :=
  let prefixSet := prefixes.dedup
  let released := p.released.filter (· ∈ prefixSet)
  let (removed, newIPAllocators, existing) := keepLoop prefixSet p.ipAllocators (p.removed, [], [])
  let (released, newIPAllocators, _) :=
    createLoop p.cidrRangeOpts prefixes (released, newIPAllocators, existing)
  { p with ipAllocators := newIPAllocators, released, removed }

/-- The exported calls that change a `cidrPool`. -/
inductive Op where
  | allocate (addr : Addr)
  | allocateNext (rnd : ℕ)
  | release (addr : Addr)
  | updatePool (prefixes : List Prefix)
  | releaseExcessCIDRsMultiPool (neededIPs : ℤ)

/-- One call; a call that fails leaves the pool as it was. -/
def apply (p : cidrPool) : Op → cidrPool
  | .allocate addr => match p.allocate addr with
    | .ok p' => p'
    | .error _ => p
  | .allocateNext rnd => match p.allocateNext rnd with
    | .ok (_, p') => p'
    | .error _ => p
  | .release addr => p.release addr
  | .updatePool prefixes => p.updatePool prefixes
  | .releaseExcessCIDRsMultiPool n => p.releaseExcessCIDRsMultiPool n

/-- A sequence of calls. -/
def run (p : cidrPool) (ops : List Op) : cidrPool := ops.foldl apply p

theorem allocateNextIn_eq_none {removed : List Prefix} {rnd : ℕ} {rs : List Range}
    (h : ∀ r ∈ rs, r.cidr ∈ removed ∨ r.Free = 0) : allocateNextIn removed rnd rs = none := by
  induction rs with
  | nil => rfl
  | cons r rs ih =>
    rw [allocateNextIn, if_pos (h r List.mem_cons_self),
      ih fun r' hr' => h r' (List.mem_cons_of_mem r hr')]
    rfl

/-- Two ways the pool loses track of its CIDRs.  A CIDR that leaves the spec while in use and
comes back stays marked removed, since nothing clears `removed`: `allocateNext` skips its
allocator for good, though the latest spec lists the CIDR and it has a free address.  And the
allocator of a removed CIDR stays beside the allocator of a larger CIDR of a later spec, which
hands out again an address that the first still holds. -/
theorem readded_cidr_stays_removed (rnd : ℕ) :
    let c : Prefix := ⟨.v4 0x0A000000, 30⟩
    let p := (newCIDRPool false false).run
      [.updatePool [c], .allocate (.v4 0x0A000001), .updatePool [], .updatePool [c]]
    let q := (newCIDRPool false false).run
      [.updatePool [c], .allocate (.v4 0x0A000001), .updatePool [⟨.v4 0x0A000000, 29⟩]]
    (c ∈ p.removed ∧ (p.ipAllocators.map fun r => (r.cidr, r.Free)) = [(c, 1)] ∧
      p.allocateNext rnd = .error (.pool "all CIDR ranges are exhausted")) ∧
    (match q.allocateNext 0 with
      | .ok (a, q') => (a, q'.ipAllocators.map fun r => (r.cidr, r.Has (.v4 0x0A000001)))
      | .error _ => (.v4 0, [])) =
      (.v4 0x0A000001, [(c, true), (⟨.v4 0x0A000000, 29⟩, true)]) := by
  dsimp only
  refine ⟨⟨by decide +kernel, by decide +kernel, ?_⟩, by decide +kernel⟩
  -- every allocator left is removed, whatever the random start
  rw [allocateNext, allocateNextIn_eq_none (by decide +kernel)]

end cidrPool

end Ipam

end Cilium
