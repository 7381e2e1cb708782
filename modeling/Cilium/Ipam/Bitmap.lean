import Cilium.Lib.BitSet

/-! The allocation bitmap of the service IP allocator (pkg/ipam/service/allocator/bitmap.go and
utils.go).  The bitmap is a non-negative `big.Int` with one bit per offset and a separate
counter `count`.  The comment on AllocationBitmap says that `count` always equals the number of
set bits; `Valid` states that, together with the fact that every set bit lies below `max`.
Allocate does not check its offset against `max`, so `Valid.allocate` needs the caller to have
checked it; AllocateNext, Release and Restore of bits below `max` keep `Valid` on their own.

`rand.IntN(max)` of the random scan is the argument `rnd`: every result holds for every value it
returns. -/

namespace Cilium.Ipam.Allocator

open BitSet

/-- The search strategy of a bitmap: `randomScanStrategy` or `contiguousScanStrategy`. -/
inductive Strategy where
  | randomScan
  | contiguousScan
  deriving DecidableEq, Repr

/-- AllocationBitmap, without its lock. -/
structure AllocationBitmap where
  strategy : Strategy
  max : ℕ
  rangeSpec : String
  count : ℕ
  allocated : ℕ
  deriving DecidableEq, Repr

def NewAllocationMap (max : ℕ) (rangeSpec : String) : AllocationBitmap :=
  ⟨.randomScan, max, rangeSpec, 0, 0⟩

def NewContiguousAllocationMap (max : ℕ) (rangeSpec : String) : AllocationBitmap :=
  ⟨.contiguousScan, max, rangeSpec, 0, 0⟩

/-- randomScanStrategy.AllocateBit: from `offset`, the first clear bit, wrapping at `max`. -/
def randomScanAllocateBit (allocated max count offset : ℕ) : Option ℕ :=
  if count ≥ max then none
  else ((List.range max).map fun i => (offset + i) % max).find? fun pos => !allocated.testBit pos

/-- contiguousScanStrategy.AllocateBit: the first clear bit from `0`. -/
def contiguousScanAllocateBit (allocated max count : ℕ) : Option ℕ :=
  if count ≥ max then none else (List.range max).find? fun i => !allocated.testBit i

def Strategy.allocateBit : Strategy → ℕ → ℕ → ℕ → ℕ → Option ℕ
  | .randomScan, allocated, max, count, rnd => randomScanAllocateBit allocated max count rnd
  | .contiguousScan, allocated, max, count, _ => contiguousScanAllocateBit allocated max count

namespace AllocationBitmap

/-- Allocate: `true` when the offset was free and is now taken. -/
def Allocate (r : AllocationBitmap) (offset : ℕ) : Bool × AllocationBitmap :=
  if r.allocated.testBit offset then (false, r)
  else (true, { r with allocated := setBit r.allocated offset true, count := r.count + 1 })

/-- AllocateNext, with `rnd` the value of `rand.IntN(max)`. -/
def AllocateNext (r : AllocationBitmap) (rnd : ℕ) : Option ℕ × AllocationBitmap :=
  match r.strategy.allocateBit r.allocated r.max r.count rnd with
  | none => (none, r)
  | some next =>
    (some next, { r with count := r.count + 1, allocated := setBit r.allocated next true })

def Release (r : AllocationBitmap) (offset : ℕ) : AllocationBitmap :=
  if r.allocated.testBit offset = false then r
  else { r with allocated := setBit r.allocated offset false, count := r.count - 1 }

def Has (r : AllocationBitmap) (offset : ℕ) : Bool := r.allocated.testBit offset

def Free (r : AllocationBitmap) : ℤ := r.max - r.count

def Snapshot (r : AllocationBitmap) : String × List UInt8 := (r.rangeSpec, toBytes r.allocated)

end AllocationBitmap

/-- countBits: the set bits of each 64-bit word, added up. -/
def countBits (n : ℕ) : ℕ :=
  (words n).foldl (fun count w => count + onesCount64 (UInt64.ofNat w)) 0

namespace AllocationBitmap

def Restore (r : AllocationBitmap) (rangeSpec : String) (data : List UInt8) :
    Except String AllocationBitmap :=
  if r.rangeSpec ≠ rangeSpec then .error "the provided range does not match the current range"
  else .ok { r with allocated := ofBytes data, count := countBits (ofBytes data) }

/-- The set of the allocated offsets. -/
def allocatedSet (r : AllocationBitmap) : Finset ℕ := bitsOf r.allocated

/-- The bitmap is consistent: the counter is the number of set bits, and they all lie below
`max`. -/
structure Valid (r : AllocationBitmap) : Prop where
  lt_max : ∀ i ∈ r.allocatedSet, i < r.max
  count_eq : r.count = r.allocatedSet.card

end AllocationBitmap

theorem countBits_eq_card (n : ℕ) : countBits n = (bitsOf n).card := by
  rw [countBits, foldl_onesCount64_words, Nat.zero_add]

/-! ### The search strategies -/

/-- A clear bit below `max` exists once fewer bits than `max` are set. -/
theorem exists_clear_of_card_lt {allocated max : ℕ} (hcard : (bitsOf allocated).card < max) :
    ∃ pos < max, allocated.testBit pos = false := by
  have hsub : ¬ Finset.range max ⊆ bitsOf allocated := fun h => by
    have := Finset.card_le_card h
    rw [Finset.card_range] at this
    omega
  obtain ⟨pos, hpos, hnot⟩ := Finset.not_subset.mp hsub
  refine ⟨pos, Finset.mem_range.mp hpos, ?_⟩
  cases hb : allocated.testBit pos with
  | false => rfl
  | true => exact absurd (mem_bitsOf.mpr hb) hnot

theorem card_le_of_lt_max {allocated max : ℕ} (hlt : ∀ i ∈ bitsOf allocated, i < max) :
    (bitsOf allocated).card ≤ max := by
  have := Finset.card_le_card fun i hi => Finset.mem_range.mpr (hlt i hi)
  rwa [Finset.card_range] at this

/-- A search strategy returns a clear bit below `max`, and fails only when `count ≥ max`. -/
theorem allocateBit_spec (s : Strategy) (max rnd : ℕ) {allocated count : ℕ}
    (hcount : count = (bitsOf allocated).card) :
    match s.allocateBit allocated max count rnd with
    | some pos => pos < max ∧ allocated.testBit pos = false
    | none => max ≤ count := by
  have hsound : ∀ (l : List ℕ), (∀ x ∈ l, x < max) →
      ∀ pos, l.find? (fun pos => !allocated.testBit pos) = some pos →
        pos < max ∧ allocated.testBit pos = false := by
    intro l hl pos hpos
    have hp := List.find?_some hpos
    exact ⟨hl pos (List.mem_of_find?_eq_some hpos), by simpa using hp⟩
  -- when the count is below `max`, a clear bit is reachable from every start
  have hfound : ∀ (l : List ℕ), count < max → (∀ pos < max, pos ∈ l) →
      (l.find? fun pos => !allocated.testBit pos).isSome := by
    intro l hc hall
    obtain ⟨pos, hpos, hclear⟩ := exists_clear_of_card_lt
      (show (bitsOf allocated).card < max by omega)
    exact List.find?_isSome.mpr ⟨pos, hall pos hpos, by simp [hclear]⟩
  cases s with
  | randomScan =>
    have hmem : ∀ x ∈ (List.range max).map (fun i => (rnd + i) % max), x < max := by
      intro x hx
      obtain ⟨i, hi, rfl⟩ := List.mem_map.mp hx
      exact Nat.mod_lt _ (by have := List.mem_range.mp hi; omega)
    have hall : ∀ pos < max, pos ∈ (List.range max).map (fun i => (rnd + i) % max) := by
      intro pos hpos
      refine List.mem_map.mpr ⟨(pos + max - rnd % max) % max,
        List.mem_range.mpr (Nat.mod_lt _ (by omega)), ?_⟩
      rw [Nat.add_mod_mod, show rnd + (pos + max - rnd % max) =
          pos + max + (rnd / max) * max by
        have := Nat.mod_lt rnd (show 0 < max by omega)
        have := Nat.div_add_mod rnd max
        rw [Nat.mul_comm] at this
        omega, Nat.add_mul_mod_self_right, Nat.add_mod_right, Nat.mod_eq_of_lt hpos]
    show match randomScanAllocateBit allocated max count rnd with
      | some pos => pos < max ∧ allocated.testBit pos = false
      | none => max ≤ count
    unfold randomScanAllocateBit
    by_cases hc : count ≥ max
    · rw [if_pos hc]
      exact hc
    · rw [if_neg hc]
      obtain ⟨pos, hpos⟩ := Option.isSome_iff_exists.mp (hfound _ (by omega) hall)
      rw [hpos]
      exact hsound _ hmem pos hpos
  | contiguousScan =>
    show match contiguousScanAllocateBit allocated max count with
      | some pos => pos < max ∧ allocated.testBit pos = false
      | none => max ≤ count
    unfold contiguousScanAllocateBit
    by_cases hc : count ≥ max
    · rw [if_pos hc]
      exact hc
    · rw [if_neg hc]
      obtain ⟨pos, hpos⟩ := Option.isSome_iff_exists.mp
        (hfound _ (by omega) fun pos hp => List.mem_range.mpr hp)
      rw [hpos]
      exact hsound _ (fun x hx => List.mem_range.mp hx) pos hpos

/-! ### The operations keep the bitmap consistent -/

namespace AllocationBitmap

variable {r : AllocationBitmap}

theorem valid_newAllocationMap (max : ℕ) (rangeSpec : String) :
    (NewAllocationMap max rangeSpec).Valid :=
  ⟨fun i hi => absurd hi (by simp [allocatedSet, NewAllocationMap]), by
    simp [allocatedSet, NewAllocationMap]⟩

@[simp]
theorem max_allocate (offset : ℕ) : (r.Allocate offset).2.max = r.max := by
  unfold Allocate
  split <;> rfl

@[simp]
theorem max_release (offset : ℕ) : (r.Release offset).max = r.max := by
  unfold Release
  split <;> rfl

theorem allocatedSet_allocate_of_clear {offset : ℕ} (h : r.allocated.testBit offset = false) :
    (r.Allocate offset).2.allocatedSet = insert offset r.allocatedSet := by
  rw [Allocate, if_neg (by simp [h])]
  exact bitsOf_setBit_true _ _

theorem allocate_fst {offset : ℕ} :
    (r.Allocate offset).1 = true ↔ offset ∉ r.allocatedSet := by
  rw [allocatedSet, mem_bitsOf]
  unfold Allocate
  by_cases h : r.allocated.testBit offset = true
  · simp [h]
  · simp [h]

theorem Valid.allocate (hv : r.Valid) {offset : ℕ} (hoff : offset < r.max) :
    (r.Allocate offset).2.Valid := by
  by_cases h : r.allocated.testBit offset = true
  · rw [Allocate, if_pos h]
    exact hv
  · have hclear : r.allocated.testBit offset = false := by simpa using h
    have hnot : offset ∉ r.allocatedSet := by
      rw [allocatedSet, mem_bitsOf]
      exact h
    refine ⟨?_, ?_⟩
    · rw [allocatedSet_allocate_of_clear hclear, max_allocate]
      intro i hi
      rcases Finset.mem_insert.mp hi with rfl | hi
      · exact hoff
      · exact hv.lt_max i hi
    · rw [allocatedSet_allocate_of_clear hclear, Finset.card_insert_of_notMem hnot,
        ← hv.count_eq, Allocate, if_neg h]

/-- AllocateNext takes a free offset below `max` and fails only on a full bitmap. -/
theorem Valid.allocateNext (hv : r.Valid) (rnd : ℕ) :
    match r.AllocateNext rnd with
    | (some next, r') => next < r.max ∧ next ∉ r.allocatedSet ∧
        r'.allocatedSet = insert next r.allocatedSet ∧ r'.max = r.max ∧ r'.Valid
    | (none, r') => r.allocatedSet.card = r.max ∧ r' = r := by
  have hspec := allocateBit_spec r.strategy r.max rnd hv.count_eq
  unfold AllocateNext
  revert hspec
  cases hbit : r.strategy.allocateBit r.allocated r.max r.count rnd with
  | none =>
    intro hfull
    have := card_le_of_lt_max hv.lt_max
    exact ⟨by rw [← allocatedSet] at this; rw [← hv.count_eq] at *; omega, rfl⟩
  | some next =>
    rintro ⟨hlt, hclear⟩
    have hnot : next ∉ r.allocatedSet := by
      rw [allocatedSet, mem_bitsOf, hclear]
      exact Bool.false_ne_true
    have hset : bitsOf (setBit r.allocated next true) = insert next r.allocatedSet :=
      bitsOf_setBit_true _ _
    refine ⟨hlt, hnot, hset, rfl, ?_, ?_⟩
    · show ∀ i ∈ bitsOf (setBit r.allocated next true), i < r.max
      rw [hset]
      intro i hi
      rcases Finset.mem_insert.mp hi with rfl | hi
      · exact hlt
      · exact hv.lt_max i hi
    · show r.count + 1 = (bitsOf (setBit r.allocated next true)).card
      rw [hset, Finset.card_insert_of_notMem hnot, hv.count_eq]

theorem Valid.release (hv : r.Valid) (offset : ℕ) : (r.Release offset).Valid := by
  unfold Release
  by_cases h : r.allocated.testBit offset = false
  · rw [if_pos h]
    exact hv
  · rw [if_neg h]
    have hmem : offset ∈ r.allocatedSet := by
      rw [allocatedSet, mem_bitsOf]
      simpa using h
    have hset : bitsOf (setBit r.allocated offset false) = r.allocatedSet.erase offset :=
      bitsOf_setBit_false _ _
    refine ⟨?_, ?_⟩
    · show ∀ i ∈ bitsOf (setBit r.allocated offset false), i < r.max
      rw [hset]
      exact fun i hi => hv.lt_max i (Finset.mem_of_mem_erase hi)
    · show r.count - 1 = (bitsOf (setBit r.allocated offset false)).card
      rw [hset, Finset.card_erase_of_mem hmem, hv.count_eq]

theorem allocatedSet_release (offset : ℕ) :
    (r.Release offset).allocatedSet = r.allocatedSet.erase offset := by
  unfold Release
  by_cases h : r.allocated.testBit offset = false
  · rw [if_pos h]
    have hnot : offset ∉ r.allocatedSet := by
      rw [allocatedSet, mem_bitsOf, h]
      exact Bool.false_ne_true
    exact (Finset.erase_eq_of_notMem hnot).symm
  · rw [if_neg h]
    exact bitsOf_setBit_false _ _

/-- Restoring the bytes of a bitmap whose bits lie below `max` gives a consistent bitmap with
those bits: the counter is recounted from the words. -/
theorem Valid.restore {spec : String} {data : List UInt8} {r' : AllocationBitmap}
    (hres : r.Restore spec data = .ok r') (hdata : ∀ i ∈ bitsOf (ofBytes data), i < r.max) :
    r'.Valid ∧ r'.allocatedSet = bitsOf (ofBytes data) ∧ r'.max = r.max := by
  unfold Restore at hres
  by_cases hspec : r.rangeSpec ≠ spec
  · rw [if_pos hspec] at hres
    cases hres
  · rw [if_neg hspec] at hres
    cases hres
    exact ⟨⟨hdata, countBits_eq_card _⟩, rfl, rfl⟩

/-- A consistent bitmap has `max - |S|` free offsets. -/
theorem Valid.free_eq (hv : r.Valid) : r.Free = (r.max : ℤ) - r.allocatedSet.card := by
  rw [Free, hv.count_eq]

theorem Valid.card_le (hv : r.Valid) : r.allocatedSet.card ≤ r.max :=
  card_le_of_lt_max hv.lt_max

/-- A full consistent bitmap has every offset below its size. -/
theorem Valid.mem_of_full (hv : r.Valid) (hfull : r.allocatedSet.card = r.max) {offset : ℕ}
    (hoff : offset < r.max) : offset ∈ r.allocatedSet := by
  have hsub : r.allocatedSet ⊆ Finset.range r.max := fun i hi =>
    Finset.mem_range.mpr (hv.lt_max i hi)
  have heq := Finset.eq_of_subset_of_card_le hsub (by rw [Finset.card_range, hfull])
  rw [heq]
  exact Finset.mem_range.mpr hoff

end AllocationBitmap

end Cilium.Ipam.Allocator
