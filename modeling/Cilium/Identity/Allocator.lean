import Cilium.Identity.Labels
import Cilium.Lib.AListSum

/-! The local identity allocator (`pkg/identity/cache/local.go`, `allocator.go`): a table from a
label set to its identity and reference count.  `lookupOrCreate` takes a reference, creating the
identity with a free numeric ID if its labels are new, and `release` gives one back, forgetting
the identity with its last reference.  The table is keyed by the sorted labels; the source's
second index by numeric ID is read off it.  `AllocateLocalIdentity` is taken as `lookupOrCreate`
on the local-scope table: the lookup of reserved label sets and the table of the remote-node scope
are left out, and so are withheld IDs and the change stream.

`refs l nid` is the number of references the table holds on `nid`; `refs_lookupOrCreate`,
`refs_release` and `refs_releaseLocalIdentities` say how each call moves it. -/

namespace Cilium.IdentityCache

open Cilium.Policy

/-- `identity.Identity` as the local table holds it: its labels and its reference count, which
the table never lets reach zero. -/
structure Identity where
  id : NumericIdentity
  labels : Labels
  referenceCount : Nat
  referenceCount_pos : 0 < referenceCount

/-- `identity.ReservedIdentityHost`. -/
def reservedIdentityHost : NumericIdentity := 1

/-- Whether `LookupReservedIdentity` finds the ID: the keys of `reservedIdentityLabels`, from the
host (1) to world-ipv6 (10), and the four aggregates (11 to 14). -/
def isReservedIdentity (nid : NumericIdentity) : Bool := 1 ≤ nid && nid ≤ 14

/-- `NumericIdentity.HasLocalScope`. -/
def hasLocalScope (nid : NumericIdentity) : Bool := nid &&& identityScopeMask == identityScopeLocal

/-- `localIdentityCache`: the identities by their sorted labels, and the next numeric ID to try
in `[minID, maxID]`, tagged with `scope`. -/
structure localIdentityCache where
  identitiesByLabels : AList fun _ : List Label => Identity
  nextNumericIdentity : NumericIdentity
  scope : NumericIdentity
  minID : NumericIdentity
  maxID : NumericIdentity

/-- `newLocalIdentityCache`. -/
def newLocalIdentityCache (scope minID maxID : NumericIdentity) : localIdentityCache :=
  ⟨∅, minID, scope, minID, maxID⟩

namespace localIdentityCache

/-- The identity of a numeric ID, with its labels key (`identitiesByID`). -/
def lookupByID (l : localIdentityCache) (nid : NumericIdentity) :
    Option ((_ : List Label) × Identity) :=
  l.identitiesByLabels.entries.find? (·.2.id == nid)

/-- `bumpNextNumericIdentity`: the next ID, back to `minID` after `maxID`. -/
def bumpNextNumericIdentity (l : localIdentityCache) : localIdentityCache :=
  { l with nextNumericIdentity :=
      if l.nextNumericIdentity = l.maxID then l.minID else l.nextNumericIdentity + 1 }

/-- The search of `getNextFreeNumericIdentity` from the next ID on, until it comes back to
`firstID`; the fuel is the size of the range, which the search never exceeds. -/
def nextFreeLoop (firstID : NumericIdentity) :
    Nat → localIdentityCache → Except String (NumericIdentity × localIdentityCache)
  | 0, _ => .error "out of local identity space"
  | fuel + 1, l =>
    let idCandidate := l.nextNumericIdentity ||| l.scope
    if (l.lookupByID idCandidate).isNone then .ok (idCandidate, l.bumpNextNumericIdentity)
    else
      let l := l.bumpNextNumericIdentity
      if l.nextNumericIdentity = firstID then .error "out of local identity space"
      else nextFreeLoop firstID fuel l

/-- `getNextFreeNumericIdentity`: the candidate if it is of the table's scope and free, else the
next free ID. -/
def getNextFreeNumericIdentity (l : localIdentityCache) (idCandidate : NumericIdentity) :
    Except String (NumericIdentity × localIdentityCache) :=
  if idCandidate &&& identityScopeMask = l.scope ∧ (l.lookupByID idCandidate).isNone then
    .ok (idCandidate, l)
  else nextFreeLoop l.nextNumericIdentity ((l.maxID - l.minID).toNat + 1) l

/-- `lookupOrCreate`: one more reference on the identity of the labels, created if new; whether
it was created. -/
def lookupOrCreate (l : localIdentityCache) (lbls : Labels) (oldNID : NumericIdentity) :
    Except String (Identity × Bool × localIdentityCache) :=
  let repr := lbls.sortedList
  match l.identitiesByLabels.lookup repr with
  | some id =>
    let id := { id with referenceCount := id.referenceCount + 1,
                        referenceCount_pos := Nat.succ_pos _ }
    .ok (id, false, { l with identitiesByLabels := l.identitiesByLabels.insert repr id })
  | none =>
    match l.getNextFreeNumericIdentity oldNID with
    | .error e => .error e
    | .ok (numericIdentity, l) =>
      let id : Identity := ⟨numericIdentity, lbls, 1, Nat.one_pos⟩
      .ok (id, true, { l with identitiesByLabels := l.identitiesByLabels.insert repr id })

/-- `release` of the identity found under labels key `repr`: one reference less, and the
identity forgotten with its last one, which is then reported. -/
def release (l : localIdentityCache) (e : (_ : List Label) × Identity) : localIdentityCache × Bool :=
  match l.identitiesByLabels.lookup e.1 with
  | none => (l, false)
  | some id =>
    if h : 1 < id.referenceCount then
      let id := { id with referenceCount := id.referenceCount - 1, referenceCount_pos := by omega }
      ({ l with identitiesByLabels := l.identitiesByLabels.insert e.1 id }, false)
    else ({ l with identitiesByLabels := l.identitiesByLabels.erase e.1 }, true)

/-- The references the table holds on `nid`. -/
def refs (l : localIdentityCache) (nid : NumericIdentity) : Nat :=
  l.identitiesByLabels.sumBy fun _ i => if i.id = nid then i.referenceCount else 0

end localIdentityCache

open localIdentityCache

/-- `CachingIdentityAllocator.AllocateLocalIdentity` on the local-scope table. -/
def allocateLocalIdentity (l : localIdentityCache) (lbls : Labels) (oldNID : NumericIdentity) :
    Except String (Identity × Bool × localIdentityCache) :=
  l.lookupOrCreate lbls oldNID

/-- `CachingIdentityAllocator.ReleaseLocalIdentities`: one reference less on each ID; reserved
IDs are skipped, and IDs of another scope are errors that the loop steps over.  Gives the IDs
whose last reference went. -/
def releaseLocalIdentities (l : localIdentityCache) :
    List NumericIdentity → localIdentityCache × List NumericIdentity
  | [] => (l, [])
  | nid :: nids =>
    if isReservedIdentity nid || !hasLocalScope nid then releaseLocalIdentities l nids
    else match l.lookupByID nid with
      | none => releaseLocalIdentities l nids
      | some e =>
        let (l, released) := l.release e
        let (l, dealloc) := releaseLocalIdentities l nids
        (l, if released then nid :: dealloc else dealloc)

namespace localIdentityCache

theorem lookupByID_some {l : localIdentityCache} {nid : NumericIdentity}
    {e : (_ : List Label) × Identity} (h : l.lookupByID nid = some e) :
    e.2.id = nid ∧ l.identitiesByLabels.lookup e.1 = some e.2 := by
  have hmem := List.mem_of_find?_eq_some h
  have hid := List.find?_some h
  exact ⟨by simpa using hid, AList.mem_lookup_iff.mpr hmem⟩

theorem refs_eq_zero_of_lookupByID {l : localIdentityCache} {nid : NumericIdentity}
    (h : l.lookupByID nid = none) : l.refs nid = 0 := by
  refine AList.sumBy_eq_zero fun labels i hi => ?_
  have hmem : (⟨labels, i⟩ : (_ : List Label) × Identity) ∈ l.identitiesByLabels.entries :=
    AList.mem_lookup_iff.mp hi
  have hne := List.find?_eq_none.mp h _ hmem
  simp only [beq_iff_eq] at hne
  simp [hne]

/-- The search for a free ID changes only the next ID to try. -/
theorem nextFreeLoop_identitiesByLabels {firstID : NumericIdentity} {fuel : Nat}
    {l l' : localIdentityCache} {nid : NumericIdentity}
    (h : nextFreeLoop firstID fuel l = .ok (nid, l')) :
    l'.identitiesByLabels = l.identitiesByLabels := by
  induction fuel generalizing l with
  | zero => simp [nextFreeLoop] at h
  | succ fuel ih =>
    simp only [nextFreeLoop] at h
    split at h
    · cases h
      rfl
    · split at h
      · cases h
      · have := ih h
        exact this

theorem getNextFreeNumericIdentity_identitiesByLabels {l l' : localIdentityCache}
    {c nid : NumericIdentity} (h : l.getNextFreeNumericIdentity c = .ok (nid, l')) :
    l'.identitiesByLabels = l.identitiesByLabels := by
  unfold getNextFreeNumericIdentity at h
  split at h
  · cases h
    rfl
  · exact nextFreeLoop_identitiesByLabels h

/-- A reference taken by `lookupOrCreate` is one more on the ID it returns. -/
theorem refs_lookupOrCreate {l l' : localIdentityCache} {lbls : Labels} {oldNID : NumericIdentity}
    {i : Identity} {isNew : Bool} (h : l.lookupOrCreate lbls oldNID = .ok (i, isNew, l'))
    (x : NumericIdentity) : l'.refs x = l.refs x + if i.id = x then 1 else 0 := by
  simp only [refs]
  rcases hfound : l.identitiesByLabels.lookup lbls.sortedList with _ | id
  · -- new labels: a fresh entry with one reference
    rcases hnext : l.getNextFreeNumericIdentity oldNID with _ | ⟨nid, l1⟩
    · simp [lookupOrCreate, hfound, hnext] at h
    · simp only [lookupOrCreate, hfound, hnext, Except.ok.injEq, Prod.mk.injEq] at h
      obtain ⟨rfl, -, rfl⟩ := h
      have hsame := getNextFreeNumericIdentity_identitiesByLabels hnext
      show AList.sumBy _ (l1.identitiesByLabels.insert _ _) = _
      rw [hsame, AList.sumBy_insert_of_lookup_eq_none _ hfound]
  · -- known labels: one more reference on the entry
    simp only [lookupOrCreate, hfound, Except.ok.injEq, Prod.mk.injEq] at h
    obtain ⟨rfl, -, rfl⟩ := h
    have := AList.sumBy_insert (fun _ (i : Identity) => if i.id = x then i.referenceCount else 0)
      l.identitiesByLabels lbls.sortedList
      { id with referenceCount := id.referenceCount + 1, referenceCount_pos := Nat.succ_pos _ }
    rw [AList.sumAt_of_lookup_eq_some hfound] at this
    split at this <;> simp_all; omega

/-- Releasing the identity of a table entry takes one reference off its ID. -/
theorem refs_release {l : localIdentityCache} {e : (_ : List Label) × Identity}
    (he : l.identitiesByLabels.lookup e.1 = some e.2) (x : NumericIdentity) :
    (l.release e).1.refs x + (if e.2.id = x then 1 else 0) = l.refs x := by
  have hpos := e.2.referenceCount_pos
  unfold release
  rw [he]
  simp only
  split
  · rename_i hgt
    have := AList.sumBy_insert (fun _ (i : Identity) => if i.id = x then i.referenceCount else 0)
      l.identitiesByLabels e.1
      { e.2 with referenceCount := e.2.referenceCount - 1, referenceCount_pos := by omega }
    rw [AList.sumAt_of_lookup_eq_some he] at this
    simp only [refs]
    split at this <;> simp_all; omega
  · rename_i hle
    have := AList.sumBy_erase (fun _ (i : Identity) => if i.id = x then i.referenceCount else 0)
      l.identitiesByLabels e.1
    rw [AList.sumAt_of_lookup_eq_some he] at this
    simp only [refs]
    split at this <;> simp_all; omega

end localIdentityCache

/-- A reserved ID is of the global scope, never the local one. -/
theorem not_hasLocalScope_of_isReservedIdentity {nid : NumericIdentity}
    (h : isReservedIdentity nid = true) : hasLocalScope nid = false := by
  simp only [isReservedIdentity, Bool.and_eq_true, decide_eq_true_eq] at h
  simp only [hasLocalScope, identityScopeMask, identityScopeLocal, beq_eq_false_iff_ne]
  intro heq
  have h1 : nid.toNat ≤ 14 := by simpa [UInt32.le_iff_toNat_le] using h.2
  have h2 := congrArg UInt32.toNat heq
  simp only [UInt32.toNat_and] at h2
  have h3 := Nat.and_le_left (n := nid.toNat) (m := (0xFF000000 : UInt32).toNat)
  rw [h2] at h3
  have : ((1 : UInt32) <<< 24).toNat = 16777216 := by decide
  omega

/-- `ReleaseLocalIdentities` takes one reference off a local-scope ID for each time the list
names it. -/
theorem refs_releaseLocalIdentities (l : localIdentityCache) (nids : List NumericIdentity)
    {x : NumericIdentity} (hx : hasLocalScope x = true) :
    (releaseLocalIdentities l nids).1.refs x = l.refs x - nids.count x := by
  induction nids generalizing l with
  | nil => simp [releaseLocalIdentities]
  | cons nid nids ih =>
    simp only [releaseLocalIdentities]
    by_cases hskip : (isReservedIdentity nid || !hasLocalScope nid) = true
    · -- a skipped ID is not the local-scope `x`
      have hne : nid ≠ x := by
        rintro rfl
        simp only [Bool.or_eq_true, Bool.not_eq_true'] at hskip
        rcases hskip with h | h
        · simp [not_hasLocalScope_of_isReservedIdentity h] at hx
        · simp [h] at hx
      rw [if_pos hskip, ih, List.count_cons_of_ne hne]
    · rw [if_neg hskip]
      split
      · rename_i hnone
        rw [ih, List.count_cons]
        by_cases hnx : nid = x
        · subst hnx
          simp [refs_eq_zero_of_lookupByID hnone]
        · simp [hnx]
      · rename_i e hsome
        obtain ⟨hid, hlook⟩ := lookupByID_some hsome
        have hrel := refs_release hlook x
        simp only
        rw [ih, List.count_cons]
        subst hid
        by_cases hnx : e.2.id = x
        · simp only [hnx, if_true] at hrel
          simp [hnx]
          omega
        · simp only [hnx, if_false, Nat.add_zero] at hrel
          simp [hnx, hrel]

end Cilium.IdentityCache
