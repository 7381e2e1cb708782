import Cilium.Identity.Labels
import Cilium.Lib.MapHistory

/-! The metadata layer of the IP cache (`pkg/ipcache/metadata.go`, `pkg/ipcache/types.go`): what
each resource says about a prefix, merged into one `resourceInfo` by source precedence, the map
from a prefix to it, and the queue of prefixes whose labels must be injected again.  The queue, a
Go set, is an association list to `Unit`; the `prefixes` trie that mirrors the keys of the map
is read off the map; the flattened `resourceInfo` that the source caches and drops on every change
is computed on each read. -/

namespace Cilium

/-- `counter.Counter`: a reference count per key. -/
abbrev Counter (T : Type) [DecidableEq T] := AList fun _ : T => Int

namespace Counter

variable {T : Type} [DecidableEq T]

/-- `Counter.Add`: whether the key is new. -/
def add (c : Counter T) (key : T) : Counter T × Bool :=
  (c.insert key ((c.lookup key).getD 0 + 1), (c.lookup key).isNone)

/-- `Counter.Delete`: whether the key's last reference went. -/
def delete (c : Counter T) (key : T) : Counter T × Bool :=
  let value := (c.lookup key).getD 0
  if value ≤ 1 then (c.erase key, true) else (c.insert key (value - 1), false)

end Counter

namespace Ipcache

open Cilium.Policy

/-- `ipcachetypes.ResourceID`. -/
abbrev ResourceID := String

/-- `ipcachetypes.EndpointFlags`; `isInit` tells a set value from the zero one. -/
structure EndpointFlags where
  isInit : Bool
  flagSkipTunnel : Bool
  flagRemoteCluster : Bool
  deriving DecidableEq, Repr

def EndpointFlags.isValid (e : EndpointFlags) : Bool := e.isInit

/-- `EndpointFlags.Uint8`, in the bits of the datapath's flags. -/
def EndpointFlags.uint8 (e : EndpointFlags) : UInt8 :=
  (if e.flagSkipTunnel then 1 else 0) ||| (if e.flagRemoteCluster then 8 else 0)

/-- The kinds of `IPMetadata`; a tunnel peer is `none` for the zero address. -/
inductive IPMetadata where
  | labels (l : Labels)
  | overrideIdentity (b : Bool)
  | tunnelPeer (ip : Option Addr)
  | encryptKey (k : UInt8)
  | requestedIdentity (id : NumericIdentity)
  | endpointFlags (f : EndpointFlags)

/-- `resourceInfo`: what one resource says about a prefix; `labels` is `none` for a `nil` map. -/
structure resourceInfo where
  labels : Option Labels
  source : Source
  identityOverride : Bool
  tunnelPeer : Option Addr
  encryptKey : UInt8
  requestedIdentity : NumericIdentity
  endpointFlags : EndpointFlags

/-- The zero `resourceInfo`, with the given source. -/
def resourceInfo.empty (src : Source) : resourceInfo :=
  ⟨none, src, false, none, 0, 0, ⟨false, false, false⟩⟩

/-- `resourceInfo.merge`: set the field of `info`, and say whether anything changed. -/
def resourceInfo.merge (m : resourceInfo) (info : IPMetadata) (src : Source) :
    resourceInfo × Bool :=
  let (m, changed) : resourceInfo × Bool := match info with
    | .labels l => ({ m with labels := some l }, !l.deepEqual (m.labels.getD ∅))
    | .overrideIdentity b => ({ m with identityOverride := b }, m.identityOverride != b)
    | .tunnelPeer t => ({ m with tunnelPeer := t }, m.tunnelPeer != t)
    | .encryptKey k => ({ m with encryptKey := k }, m.encryptKey != k)
    | .requestedIdentity i => ({ m with requestedIdentity := i }, m.requestedIdentity != i)
    | .endpointFlags f => ({ m with endpointFlags := f }, m.endpointFlags != f)
  ({ m with source := src }, changed || m.source != src)

/-- `resourceInfo.unmerge`: clear the field of the kind of `info`. -/
def resourceInfo.unmerge (m : resourceInfo) : IPMetadata → resourceInfo
  | .labels _ => { m with labels := none }
  | .overrideIdentity _ => { m with identityOverride := false }
  | .tunnelPeer _ => { m with tunnelPeer := none }
  | .encryptKey _ => { m with encryptKey := 0 }
  | .requestedIdentity _ => { m with requestedIdentity := 0 }
  | .endpointFlags _ => { m with endpointFlags := ⟨false, false, false⟩ }

/-- `resourceInfo.isValid`: some field is set. -/
def resourceInfo.isValid (m : resourceInfo) : Bool :=
  m.labels.isSome || m.identityOverride || m.tunnelPeer.isSome || m.encryptKey != 0 ||
    m.requestedIdentity != 0 || m.endpointFlags.isValid

/-- `resourceInfo.ToLabels`: a `nil` map reads as the empty one. -/
def resourceInfo.toLabels (m : resourceInfo) : Labels := m.labels.getD ∅

/-- The number of labels, `0` for a `nil` map. -/
def resourceInfo.labelCount (m : resourceInfo) : Nat := m.toLabels.entries.length

/-- `prefixInfo`: the information of each resource about one prefix. -/
structure prefixInfo where
  byResource : AList fun _ : ResourceID => resourceInfo

def newPrefixInfo : prefixInfo := ⟨∅⟩

/-- `prefixInfo.isValid`: some resource's information is. -/
def prefixInfo.isValid (s : prefixInfo) : Bool := s.byResource.entries.any (·.2.isValid)

/-- The order of `sortedBySourceThenResourceID`: the higher-precedence source first, and for one
source the smaller resource ID. -/
def sourceThenResourceIDLE (a b : (_ : ResourceID) × resourceInfo) : Bool :=
  if a.2.source ≠ b.2.source then !allowOverwrite a.2.source b.2.source else a.1 ≤ b.1

/-- `prefixInfo.sortedBySourceThenResourceID`, with each resource's information. -/
def prefixInfo.sortedBySourceThenResourceID (s : prefixInfo) :
    List ((_ : ResourceID) × resourceInfo) :=
  s.byResource.entries.insertionSort fun a b => sourceThenResourceIDLE a b = true

/-- One round of `prefixInfo.flatten`: the first source wins; labels are merged unless an
override fixed them, and an override with labels replaces them; every other field is taken from
the first resource that sets it. -/
def flattenStep (out info : resourceInfo) : resourceInfo :=
  let out := if out.source = noSource then { out with source := info.source } else out
  let out := if 0 < info.labelCount && !out.identityOverride then
      if 0 < out.labelCount then { out with labels := some (out.toLabels ∪ info.toLabels) }
      else { out with labels := info.labels }
    else out
  let out := if info.identityOverride && 0 < info.labelCount && !out.identityOverride then
      { out with identityOverride := true, labels := info.labels }
    else out
  let out := if info.tunnelPeer.isSome && info.tunnelPeer != out.tunnelPeer && out.tunnelPeer.isNone
    then { out with tunnelPeer := info.tunnelPeer } else out
  let out := if info.encryptKey != 0 && info.encryptKey != out.encryptKey && out.encryptKey == 0
    then { out with encryptKey := info.encryptKey } else out
  let out := if info.requestedIdentity != 0 && info.requestedIdentity != out.requestedIdentity &&
      out.requestedIdentity == 0 then { out with requestedIdentity := info.requestedIdentity }
    else out
  if info.endpointFlags.isValid && info.endpointFlags != out.endpointFlags &&
      !out.endpointFlags.isValid then { out with endpointFlags := info.endpointFlags }
  else out

/-- `prefixInfo.flatten`. -/
def prefixInfo.flatten (s : prefixInfo) : resourceInfo :=
  s.sortedBySourceThenResourceID.foldl (fun out e => flattenStep out e.2) (resourceInfo.empty noSource)

/-- The `metadata` layer: the information per prefix, the reference counts of the prefixes that
policies name, the queue of prefixes to inject, its revision, and the labels of the prefixes
that resolve to the host. -/
structure metadata where
  m : AList fun _ : PrefixCluster => prefixInfo
  prefixRefCounter : Counter PrefixCluster
  queuedPrefixes : AList fun _ : PrefixCluster => Unit
  queuedRevision : Nat
  reservedHostLabels : AList fun _ : Prefix => Labels

/-- `newMetadata`. -/
def newMetadata : metadata := ⟨∅, ∅, ∅, 1, ∅⟩

/-- `canonicalPrefix`: the prefix with its host bits cleared and an IPv4-mapped address unmapped;
an invalid prefix is left as it is. -/
def canonicalPrefix (p : PrefixCluster) : PrefixCluster :=
  if !p.asPrefix.isValid then p
  else match p.addr.unmap.prefixOf p.bits with
    | none => p
    | some q => ⟨q.addr, q.bits, p.clusterID⟩

namespace metadata

/-- `metadata.getLocked`: the flattened information of the prefix. -/
def getLocked (md : metadata) (pfx : PrefixCluster) : Option resourceInfo :=
  (md.m.lookup (canonicalPrefix pfx)).map (·.flatten)

/-- `metadata.findAffectedChildPrefixes`: a single IP, or the prefixes of the map inside the
parent, the parent among them when it has an entry. -/
def findAffectedChildPrefixes (md : metadata) (parent : PrefixCluster) : List PrefixCluster :=
  if parent.isSingleIP then [parent]
  else md.m.keys.filter fun q =>
    q.clusterID == parent.clusterID && parent.asPrefix.isDescendant q.asPrefix

/-- `metadata.upsertLocked`: the resource's information for the prefix after `info`, and the
affected prefixes if anything changed. -/
def upsertLocked (md : metadata) (pfx : PrefixCluster) (src : Source) (resource : ResourceID)
    (info : List IPMetadata) : metadata × List PrefixCluster :=
  let pfx := canonicalPrefix pfx
  let (pi, changed) := match md.m.lookup pfx with
    | some pi => (pi, false)
    | none => (newPrefixInfo, true)
  let (ri, changed) := match pi.byResource.lookup resource with
    | some ri => (ri, changed)
    | none => (resourceInfo.empty src, true)
  let (ri, changed) := info.foldl (fun (ri, changed) i =>
    let (ri, c) := ri.merge i src
    (ri, changed || c)) (ri, changed)
  let md := { md with m := md.m.insert pfx ⟨pi.byResource.insert resource ri⟩ }
  if !changed then (md, []) else (md, md.findAffectedChildPrefixes pfx)

/-- `metadata.remove`: clear the fields of `aux` from the resource's information, drop what is
left empty, and give the prefixes affected before the removal. -/
def remove (md : metadata) (pfx : PrefixCluster) (resource : ResourceID)
    (aux : List IPMetadata) : metadata × List PrefixCluster :=
  let pfx := canonicalPrefix pfx
  match md.m.lookup pfx with
  | none => (md, [])
  | some pi =>
    match pi.byResource.lookup resource with
    | none => (md, [])
    | some ri =>
      let affected := md.findAffectedChildPrefixes pfx
      let ri := aux.foldl resourceInfo.unmerge ri
      let pi : prefixInfo := ⟨if !ri.isValid then pi.byResource.erase resource
        else pi.byResource.insert resource ri⟩
      let m := if !pi.isValid then md.m.erase pfx else md.m.insert pfx pi
      ({ md with m }, affected)

/-- `metadata.enqueuePrefixUpdates`. -/
def enqueuePrefixUpdates (md : metadata) (prefixes : List PrefixCluster) : metadata :=
  { md with queuedPrefixes := prefixes.foldl (fun q p => q.insert p ()) md.queuedPrefixes }

/-- `metadata.dequeuePrefixUpdates`: the queued prefixes, each once, and the revision they
belong to; the queue is emptied and the revision moves on. -/
def dequeuePrefixUpdates (md : metadata) : List PrefixCluster × Nat × metadata :=
  (md.queuedPrefixes.keys, md.queuedRevision,
    { md with queuedPrefixes := ∅, queuedRevision := md.queuedRevision + 1 })

end metadata

/-- `MU`, one update of a metadata batch; `prefixCluster` is the field `Prefix`. -/
structure MU where
  prefixCluster : PrefixCluster
  source : Source
  resource : ResourceID
  metadata : List IPMetadata
  isCIDR : Bool

/-- `cidrResourceID`, the resource of the prefixes that policies name. -/
def cidrResourceID : ResourceID := "daemon//consolidated-prefix"

/-- One update of `UpsertMetadataBatch`: a prefix that policies name is upserted on its first
reference only, and the prefixes it affects join those to queue. -/
def upsertMetadataStep (acc : metadata × List PrefixCluster) (upd : MU) :
    metadata × List PrefixCluster :=
  let (md, prefixes) := acc
  let (counter, first) := if upd.isCIDR then md.prefixRefCounter.add (canonicalPrefix upd.prefixCluster)
    else (md.prefixRefCounter, true)
  let md := { md with prefixRefCounter := counter }
  if first then
    let resource := if upd.isCIDR then cidrResourceID else upd.resource
    let (md, affected) := md.upsertLocked upd.prefixCluster upd.source resource upd.metadata
    (md, prefixes ++ affected)
  else (md, prefixes)

/-- The metadata after `UpsertMetadataBatch`: the affected prefixes of every update are queued. -/
def upsertMetadataBatch (md : metadata) (updates : List MU) : metadata :=
  let (md, prefixes) := updates.foldl upsertMetadataStep (md, [])
  md.enqueuePrefixUpdates prefixes

/-- One update of `RemoveMetadataBatch`: a prefix that policies name is removed with its last
reference only, and the prefixes it affected join those to queue. -/
def removeMetadataStep (acc : metadata × List PrefixCluster) (upd : MU) :
    metadata × List PrefixCluster :=
  let (md, prefixes) := acc
  let (counter, last) := if upd.isCIDR then md.prefixRefCounter.delete (canonicalPrefix upd.prefixCluster)
    else (md.prefixRefCounter, true)
  let md := { md with prefixRefCounter := counter }
  if last then
    let resource := if upd.isCIDR then cidrResourceID else upd.resource
    let (md, affected) := md.remove upd.prefixCluster resource upd.metadata
    (md, prefixes ++ affected)
  else (md, prefixes)

/-- The metadata after `RemoveMetadataBatch`: the affected prefixes of every update are queued. -/
def removeMetadataBatch (md : metadata) (updates : List MU) : metadata :=
  let (md, prefixes) := updates.foldl removeMetadataStep (md, [])
  md.enqueuePrefixUpdates prefixes

/-- The canonical form of a valid prefix is valid. -/
theorem canonicalPrefix_isValid {p : PrefixCluster} (h : p.asPrefix.isValid = true) :
    (canonicalPrefix p).asPrefix.isValid = true := by
  unfold canonicalPrefix
  simp only [h, Bool.not_true, Bool.false_eq_true, if_false]
  split
  · exact h
  · rename_i q hq
    obtain ⟨hbits, hlen, hle⟩ := Addr.prefixOf_eq_some hq
    simp only [PrefixCluster.asPrefix, Prefix.isValid, decide_eq_true_eq, hlen]
    omega

/-- The canonical form of a prefix is its own canonical form. -/
theorem canonicalPrefix_idem (p : PrefixCluster) : canonicalPrefix (canonicalPrefix p) = canonicalPrefix p := by
  by_cases hv : p.asPrefix.isValid = true
  · rcases hq : p.addr.unmap.prefixOf p.bits with _ | q
    · have hc : canonicalPrefix p = p := by simp [canonicalPrefix, hv, hq]
      rw [hc, hc]
    · obtain ⟨qa, qb⟩ := q
      obtain ⟨hbits, -, -⟩ := Addr.prefixOf_eq_some hq
      dsimp only at hbits
      subst hbits
      have hc : canonicalPrefix p = ⟨qa, p.bits, p.clusterID⟩ := by simp [canonicalPrefix, hv, hq]
      have hv' := canonicalPrefix_isValid hv
      rw [hc] at hv' ⊢
      -- the canonical address is unmapped and masked already
      have hun : qa.unmap = qa := Addr.unmap_of_is4In6_eq_false (Addr.is4In6_prefixOf (Addr.is4In6_unmap _) hq)
      have hidem : qa.prefixOf p.bits = some ⟨qa, p.bits⟩ := Addr.prefixOf_idem hq
      simp only [canonicalPrefix, hv', Bool.not_true, Bool.false_eq_true, if_false, hun, hidem]
  · have hc : canonicalPrefix p = p := by simp [canonicalPrefix, hv]
    rw [hc, hc]

/-- A prefix as the metadata keys it: valid, and its own canonical form. -/
def PrefixCluster.IsCanonical (p : PrefixCluster) : Prop :=
  p.asPrefix.isValid = true ∧ canonicalPrefix p = p

theorem canonicalPrefix_isCanonical {p : PrefixCluster} (h : p.asPrefix.isValid = true) :
    (canonicalPrefix p).IsCanonical :=
  ⟨canonicalPrefix_isValid h, canonicalPrefix_idem p⟩

namespace metadata

/-- Every prefix that the metadata holds information for or queues is canonical. -/
structure Valid (md : metadata) : Prop where
  m_canonical : ∀ p ∈ md.m, p.IsCanonical
  queued_canonical : ∀ p ∈ md.queuedPrefixes, p.IsCanonical

variable {md : metadata}

theorem findAffectedChildPrefixes_valid (hm : ∀ p ∈ md.m, p.IsCanonical)
    {parent : PrefixCluster} (hp : parent.IsCanonical) :
    ∀ q ∈ md.findAffectedChildPrefixes parent, q.IsCanonical := by
  unfold findAffectedChildPrefixes
  split
  · simpa using hp
  · intro q hq
    exact hm q (AList.mem_keys.mp (List.mem_of_mem_filter hq))

/-- What `upsertLocked` can do: set the information of the canonical prefix, and queue nothing
or the prefixes it affects. -/
theorem upsertLocked_eq (md : metadata) (pfx : PrefixCluster) (src : Source) (resource : ResourceID)
    (info : List IPMetadata) :
    ∃ v, (md.upsertLocked pfx src resource info).1 = { md with m := md.m.insert (canonicalPrefix pfx) v } ∧
      ((md.upsertLocked pfx src resource info).2 = [] ∨
        (md.upsertLocked pfx src resource info).2 =
          (md.upsertLocked pfx src resource info).1.findAffectedChildPrefixes (canonicalPrefix pfx)) := by
  unfold upsertLocked
  dsimp only
  repeat' split
  all_goals first | exact ⟨_, rfl, .inl rfl⟩ | exact ⟨_, rfl, .inr rfl⟩

/-- What `remove` can do: nothing, or take the resource's information off the canonical prefix
(dropping the prefix when nothing is left) and queue the prefixes it affected before. -/
theorem remove_eq (md : metadata) (pfx : PrefixCluster) (resource : ResourceID)
    (aux : List IPMetadata) :
    md.remove pfx resource aux = (md, []) ∨
      (canonicalPrefix pfx ∈ md.m ∧
        (md.remove pfx resource aux).2 = md.findAffectedChildPrefixes (canonicalPrefix pfx) ∧
        ((md.remove pfx resource aux).1 = { md with m := md.m.erase (canonicalPrefix pfx) } ∨
          ∃ v, (md.remove pfx resource aux).1 = { md with m := md.m.insert (canonicalPrefix pfx) v })) := by
  unfold remove
  dsimp only
  rcases hc : md.m.lookup (canonicalPrefix pfx) with _ | pi
  · exact .inl rfl
  · have hmem : canonicalPrefix pfx ∈ md.m := AList.lookup_isSome.mp (by rw [hc]; rfl)
    repeat' split
    all_goals first
      | exact .inl rfl
      | exact .inr ⟨hmem, rfl, .inl rfl⟩
      | exact .inr ⟨hmem, rfl, .inr ⟨_, rfl⟩⟩

theorem upsertLocked_valid (md : metadata) (pfx : PrefixCluster) (src : Source)
    (resource : ResourceID) (info : List IPMetadata) (hm : ∀ p ∈ md.m, p.IsCanonical)
    (hp : pfx.asPrefix.isValid = true) :
    (∀ p ∈ (md.upsertLocked pfx src resource info).1.m, p.IsCanonical) ∧
      (md.upsertLocked pfx src resource info).1.queuedPrefixes = md.queuedPrefixes ∧
      ∀ q ∈ (md.upsertLocked pfx src resource info).2, q.IsCanonical := by
  obtain ⟨v, h1, h2⟩ := upsertLocked_eq md pfx src resource info
  have hm' : ∀ p ∈ (md.upsertLocked pfx src resource info).1.m, p.IsCanonical := by
    intro p hp'
    rw [h1, AList.mem_insert] at hp'
    rcases hp' with rfl | hp'
    · exact canonicalPrefix_isCanonical hp
    · exact hm p hp'
  refine ⟨hm', by rw [h1], ?_⟩
  rcases h2 with h2 | h2
  · simp [h2]
  · rw [h2]
    exact findAffectedChildPrefixes_valid hm' (canonicalPrefix_isCanonical hp)

theorem remove_valid (md : metadata) (pfx : PrefixCluster) (resource : ResourceID)
    (aux : List IPMetadata) (hm : ∀ p ∈ md.m, p.IsCanonical) (hp : pfx.asPrefix.isValid = true) :
    (∀ p ∈ (md.remove pfx resource aux).1.m, p.IsCanonical) ∧
      (md.remove pfx resource aux).1.queuedPrefixes = md.queuedPrefixes ∧
      ∀ q ∈ (md.remove pfx resource aux).2, q.IsCanonical := by
  rcases remove_eq md pfx resource aux with h | ⟨-, h2, h1 | ⟨v, h1⟩⟩
  · rw [h]
    exact ⟨hm, rfl, by simp⟩
  · refine ⟨fun p hp' => ?_, by rw [h1], ?_⟩
    · rw [h1, AList.mem_erase] at hp'
      exact hm p hp'.2
    · rw [h2]
      exact findAffectedChildPrefixes_valid hm (canonicalPrefix_isCanonical hp)
  · refine ⟨fun p hp' => ?_, by rw [h1], ?_⟩
    · rw [h1, AList.mem_insert] at hp'
      rcases hp' with rfl | hp'
      · exact canonicalPrefix_isCanonical hp
      · exact hm p hp'
    · rw [h2]
      exact findAffectedChildPrefixes_valid hm (canonicalPrefix_isCanonical hp)

@[simp] theorem enqueuePrefixUpdates_m (prefixes : List PrefixCluster) :
    (md.enqueuePrefixUpdates prefixes).m = md.m := rfl

theorem mem_enqueuePrefixUpdates {prefixes : List PrefixCluster} {p : PrefixCluster} :
    p ∈ (md.enqueuePrefixUpdates prefixes).queuedPrefixes ↔ p ∈ md.queuedPrefixes ∨ p ∈ prefixes := by
  unfold enqueuePrefixUpdates
  dsimp only
  generalize md.queuedPrefixes = q
  induction prefixes generalizing q with
  | nil => simp
  | cons x xs ih =>
    simp only [List.foldl_cons, ih, AList.mem_insert, List.mem_cons]
    tauto

theorem enqueuePrefixUpdates_valid {prefixes : List PrefixCluster} (hmd : md.Valid)
    (hp : ∀ p ∈ prefixes, p.IsCanonical) : (md.enqueuePrefixUpdates prefixes).Valid := by
  refine ⟨hmd.m_canonical, fun p h => ?_⟩
  rcases mem_enqueuePrefixUpdates.mp h with h | h
  · exact hmd.queued_canonical p h
  · exact hp p h

end metadata

/-- What one update of `UpsertMetadataBatch` can do: count the reference, and upsert the
prefix's information with some resource, queueing what that affects. -/
theorem upsertMetadataStep_eq (md : metadata) (prefixes : List PrefixCluster) (upd : MU) :
    ∃ counter resource,
      upsertMetadataStep (md, prefixes) upd = ({ md with prefixRefCounter := counter }, prefixes) ∨
      upsertMetadataStep (md, prefixes) upd =
        (({ md with prefixRefCounter := counter }.upsertLocked upd.prefixCluster upd.source resource
            upd.metadata).1,
          prefixes ++ ({ md with prefixRefCounter := counter }.upsertLocked upd.prefixCluster upd.source
            resource upd.metadata).2) := by
  unfold upsertMetadataStep
  dsimp only
  repeat' split
  all_goals first | exact ⟨_, upd.resource, .inl rfl⟩ | exact ⟨_, _, .inr rfl⟩

/-- What one update of `RemoveMetadataBatch` can do: count the reference off, and remove the
resource's information from the prefix, queueing what that affected. -/
theorem removeMetadataStep_eq (md : metadata) (prefixes : List PrefixCluster) (upd : MU) :
    ∃ counter resource,
      removeMetadataStep (md, prefixes) upd = ({ md with prefixRefCounter := counter }, prefixes) ∨
      removeMetadataStep (md, prefixes) upd =
        (({ md with prefixRefCounter := counter }.remove upd.prefixCluster resource upd.metadata).1,
          prefixes ++ ({ md with prefixRefCounter := counter }.remove upd.prefixCluster resource
            upd.metadata).2) := by
  unfold removeMetadataStep
  dsimp only
  repeat' split
  all_goals first | exact ⟨_, upd.resource, .inl rfl⟩ | exact ⟨_, _, .inr rfl⟩

open metadata

/-- The prefixes of the metadata and those to queue are canonical, and the queue is `q`. -/
def BatchValid (q : AList fun _ : PrefixCluster => Unit) (acc : metadata × List PrefixCluster) : Prop :=
  (∀ p ∈ acc.1.m, p.IsCanonical) ∧ acc.1.queuedPrefixes = q ∧
    ∀ p ∈ acc.2, p.IsCanonical

theorem BatchValid.upsertMetadataStep {q : AList fun _ : PrefixCluster => Unit}
    {acc : metadata × List PrefixCluster} {upd : MU} (h : BatchValid q acc)
    (hu : upd.prefixCluster.asPrefix.isValid = true) : BatchValid q (upsertMetadataStep acc upd) := by
  obtain ⟨md, prefixes⟩ := acc
  obtain ⟨hm, hq, hp⟩ := h
  obtain ⟨counter, resource, heq | heq⟩ := upsertMetadataStep_eq md prefixes upd <;> rw [heq]
  · exact ⟨hm, hq, hp⟩
  · obtain ⟨hm', hq', ha⟩ := upsertLocked_valid { md with prefixRefCounter := counter }
      upd.prefixCluster upd.source resource upd.metadata hm hu
    refine ⟨hm', hq'.trans hq, fun p hp' => ?_⟩
    rcases List.mem_append.mp hp' with h | h
    · exact hp p h
    · exact ha p h

theorem BatchValid.removeMetadataStep {q : AList fun _ : PrefixCluster => Unit}
    {acc : metadata × List PrefixCluster} {upd : MU} (h : BatchValid q acc)
    (hu : upd.prefixCluster.asPrefix.isValid = true) : BatchValid q (removeMetadataStep acc upd) := by
  obtain ⟨md, prefixes⟩ := acc
  obtain ⟨hm, hq, hp⟩ := h
  obtain ⟨counter, resource, heq | heq⟩ := removeMetadataStep_eq md prefixes upd <;> rw [heq]
  · exact ⟨hm, hq, hp⟩
  · obtain ⟨hm', hq', ha⟩ := remove_valid { md with prefixRefCounter := counter }
      upd.prefixCluster resource upd.metadata hm hu
    refine ⟨hm', hq'.trans hq, fun p hp' => ?_⟩
    rcases List.mem_append.mp hp' with h | h
    · exact hp p h
    · exact ha p h

/-- A batch over valid prefixes keeps the metadata valid. -/
theorem upsertMetadataBatch_valid {md : metadata} {updates : List MU} (hmd : md.Valid)
    (hu : ∀ u ∈ updates, u.prefixCluster.asPrefix.isValid = true) :
    (upsertMetadataBatch md updates).Valid := by
  have hfold : ∀ acc, BatchValid md.queuedPrefixes acc →
      BatchValid md.queuedPrefixes (updates.foldl upsertMetadataStep acc) := by
    induction updates with
    | nil => exact fun _ h => h
    | cons u us ih =>
      exact fun acc h => ih (fun u' hu' => hu u' (List.mem_cons_of_mem u hu'))
        _ (h.upsertMetadataStep (hu u List.mem_cons_self))
  obtain ⟨hm, hq, hp⟩ := hfold (md, []) ⟨hmd.m_canonical, rfl, by simp⟩
  exact enqueuePrefixUpdates_valid ⟨hm, hq ▸ hmd.queued_canonical⟩ hp

theorem removeMetadataBatch_valid {md : metadata} {updates : List MU} (hmd : md.Valid)
    (hu : ∀ u ∈ updates, u.prefixCluster.asPrefix.isValid = true) :
    (removeMetadataBatch md updates).Valid := by
  have hfold : ∀ acc, BatchValid md.queuedPrefixes acc →
      BatchValid md.queuedPrefixes (updates.foldl removeMetadataStep acc) := by
    induction updates with
    | nil => exact fun _ h => h
    | cons u us ih =>
      exact fun acc h => ih (fun u' hu' => hu u' (List.mem_cons_of_mem u hu'))
        _ (h.removeMetadataStep (hu u List.mem_cons_self))
  obtain ⟨hm, hq, hp⟩ := hfold (md, []) ⟨hmd.m_canonical, rfl, by simp⟩
  exact enqueuePrefixUpdates_valid ⟨hm, hq ▸ hmd.queued_canonical⟩ hp

theorem metadata.mem_of_getLocked {md : metadata} {p : PrefixCluster} (hp : canonicalPrefix p = p)
    (h : (md.getLocked p).isSome) : p ∈ md.m := by
  unfold getLocked at h
  rw [hp, Option.isSome_map] at h
  exact AList.lookup_isSome.mp h

/-- `getLocked` reads only the map. -/
theorem metadata.getLocked_congr {md md' : metadata} (h : md.m = md'.m) (p : PrefixCluster) :
    md.getLocked p = md'.getLocked p := by
  simp [metadata.getLocked, h]

/-- A prefix of the map is among the prefixes it affects. -/
theorem metadata.self_mem_findAffectedChildPrefixes {md : metadata} {c : PrefixCluster} (hc : c ∈ md.m)
    (hv : c.asPrefix.isValid = true) : c ∈ md.findAffectedChildPrefixes c := by
  unfold findAffectedChildPrefixes
  split
  · exact List.mem_singleton_self c
  · refine List.mem_filter.mpr ⟨AList.mem_keys.mpr hc, ?_⟩
    simp [Prefix.isDescendant, hv]

/-- A batch of upserts only adds information and queued prefixes. -/
theorem upsertMetadataBatch_mono (md : metadata) (updates : List MU) {p : PrefixCluster} :
    (p ∈ md.m → p ∈ (upsertMetadataBatch md updates).m) ∧
      (p ∈ md.queuedPrefixes → p ∈ (upsertMetadataBatch md updates).queuedPrefixes) := by
  have hfold : ∀ acc : metadata × List PrefixCluster, (p ∈ md.m → p ∈ acc.1.m) →
      acc.1.queuedPrefixes = md.queuedPrefixes →
      (p ∈ md.m → p ∈ (updates.foldl upsertMetadataStep acc).1.m) ∧
        (updates.foldl upsertMetadataStep acc).1.queuedPrefixes = md.queuedPrefixes := by
    induction updates with
    | nil => exact fun _ h1 h2 => ⟨h1, h2⟩
    | cons u us ih =>
      rintro ⟨md', ps⟩ h1 h2
      obtain ⟨counter, resource, heq | heq⟩ := upsertMetadataStep_eq md' ps u
      · exact ih _ (by rw [heq]; exact h1) (by rw [heq]; exact h2)
      · obtain ⟨v, hv, -⟩ := upsertLocked_eq { md' with prefixRefCounter := counter } u.prefixCluster
          u.source resource u.metadata
        refine ih _ (fun hp => ?_) ?_ <;> rw [heq] <;> dsimp only <;> rw [hv]
        · exact (AList.mem_insert _).mpr (.inr (h1 hp))
        · exact h2
  obtain ⟨hm, hq⟩ := hfold (md, []) id rfl
  refine ⟨fun hp => hm hp, fun hp => ?_⟩
  exact mem_enqueuePrefixUpdates.mpr (.inl (hq ▸ hp))

/-- A batch of removals over valid prefixes keeps the queue, and a prefix it takes out of the map
is queued. -/
theorem removeMetadataBatch_covers (md : metadata) {updates : List MU}
    (hu : ∀ u ∈ updates, u.prefixCluster.asPrefix.isValid = true) {p : PrefixCluster} :
    (p ∈ md.m → p ∈ (removeMetadataBatch md updates).m ∨
      p ∈ (removeMetadataBatch md updates).queuedPrefixes) ∧
      (p ∈ md.queuedPrefixes → p ∈ (removeMetadataBatch md updates).queuedPrefixes) := by
  have hfold : ∀ acc : metadata × List PrefixCluster, (p ∈ md.m → p ∈ acc.1.m ∨ p ∈ acc.2) →
      acc.1.queuedPrefixes = md.queuedPrefixes →
      (p ∈ md.m → p ∈ (updates.foldl removeMetadataStep acc).1.m ∨
        p ∈ (updates.foldl removeMetadataStep acc).2) ∧
        (updates.foldl removeMetadataStep acc).1.queuedPrefixes = md.queuedPrefixes := by
    induction updates with
    | nil => exact fun _ h1 h2 => ⟨h1, h2⟩
    | cons u us ih =>
      rintro ⟨md', ps⟩ h1 h2
      have ih' := ih fun u' hu' => hu u' (List.mem_cons_of_mem u hu')
      obtain ⟨counter, resource, heq | heq⟩ := removeMetadataStep_eq md' ps u
      · exact ih' _ (by rw [heq]; exact h1) (by rw [heq]; exact h2)
      · refine ih' (removeMetadataStep (md', ps) u) (fun hp => ?_) ?_ <;> rw [heq] <;> dsimp only
        · rcases remove_eq { md' with prefixRefCounter := counter } u.prefixCluster resource u.metadata
            with hr | ⟨hc, haff, hr | ⟨v, hr⟩⟩
          · rw [hr]
            exact (h1 hp).imp id (List.mem_append_left _)
          all_goals
            rw [hr, haff]
            -- the removed prefix is among those it affected, every other one stays
            rcases h1 hp with hp' | hp'
            · by_cases hpc : p = canonicalPrefix u.prefixCluster
              · subst hpc
                exact .inr (List.mem_append_right _ (self_mem_findAffectedChildPrefixes hc
                  (canonicalPrefix_isValid (hu u List.mem_cons_self))))
              · first
                  | exact .inl (AList.mem_erase.mpr ⟨hpc, hp'⟩)
                  | exact .inl ((AList.mem_insert _).mpr (.inr hp'))
            · exact .inr (List.mem_append_left _ hp')
        · rcases remove_eq { md' with prefixRefCounter := counter } u.prefixCluster resource u.metadata
            with hr | ⟨-, -, hr | ⟨v, hr⟩⟩ <;> rw [hr] <;> exact h2
  obtain ⟨hm, hq⟩ := hfold (md, []) .inl rfl
  refine ⟨fun hp => ?_, fun hp => mem_enqueuePrefixUpdates.mpr (.inl (hq ▸ hp))⟩
  rcases hm hp with h | h
  · exact .inl h
  · exact .inr (mem_enqueuePrefixUpdates.mpr (.inr h))

/-! ### The labels of one resource

The name manager and the other writers of the IP cache each own a resource ID and set or
remove their labels for a prefix under it.  The lemmas say that `upsertLocked` and `remove`, and
the batches made of them, act on those labels as calls on a map keyed by the prefix and the
resource, whatever else the prefix holds. -/

namespace metadata

/-- The labels that one resource gives a prefix; `none` when it gives none. -/
def resourceLabels (md : metadata) (pfx : PrefixCluster) (resource : ResourceID) : Option Labels :=
  ((md.m.lookup pfx).bind fun pi => pi.byResource.lookup resource).bind (·.labels)

/-- An upsert of labels: the resource's information on the canonical prefix, or an empty one, with
those labels and the source. -/
theorem upsertLocked_labels (md : metadata) (pfx : PrefixCluster) (src : Source)
    (resource : ResourceID) (L : Labels) :
    let pi := (md.m.lookup (canonicalPrefix pfx)).getD newPrefixInfo
    let ri := (pi.byResource.lookup resource).getD (resourceInfo.empty src)
    (md.upsertLocked pfx src resource [.labels L]).1 = { md with m := (md.m.insert (canonicalPrefix pfx)
      ⟨pi.byResource.insert resource { ri with labels := some L, source := src }⟩) } := by
  unfold upsertLocked
  dsimp only
  repeat' split
  all_goals simp_all [resourceInfo.merge]

theorem resourceLabels_upsertLocked (md : metadata) (pfx : PrefixCluster) (src : Source)
    (resource : ResourceID) (L : Labels) (p : PrefixCluster) (r : ResourceID) :
    (md.upsertLocked pfx src resource [.labels L]).1.resourceLabels p r =
      if (canonicalPrefix pfx, resource) = (p, r) then some L else md.resourceLabels p r := by
  rw [upsertLocked_labels]
  unfold resourceLabels
  by_cases hp : canonicalPrefix pfx = p
  · subst hp
    by_cases hr : resource = r
    · subst hr
      simp
    · rcases hl : md.m.lookup (canonicalPrefix pfx) with _ | pi <;>
        simp only [AList.lookup_insert, Option.bind_some, AList.lookup_insert_ne (Ne.symm hr),
          Option.getD_none, Option.getD_some, newPrefixInfo, AList.lookup_empty, Option.bind_none,
          Prod.mk.injEq, hr, and_false, if_false]
  · simp [hp, AList.lookup_insert_ne (Ne.symm hp)]

/-- A prefix whose information is all invalid carries no labels. -/
theorem labels_of_not_isValid {pi : prefixInfo} (h : pi.isValid = false) {r : ResourceID}
    {ri : resourceInfo} (hr : pi.byResource.lookup r = some ri) : ri.labels = none := by
  have hmem : (⟨r, ri⟩ : (_ : ResourceID) × resourceInfo) ∈ pi.byResource.entries :=
    AList.mem_lookup_iff.mp hr
  have hri : ri.isValid = false := by
    simp only [prefixInfo.isValid, List.any_eq_false] at h
    simpa using h _ hmem
  simp only [resourceInfo.isValid, Bool.or_eq_false_iff] at hri
  exact Option.not_isSome_iff_eq_none.mp (by simp [hri.1.1.1.1.1])

/-- Taking a resource's labels off a prefix, and the resource or the prefix with them when nothing
is left: that resource's labels go, and every other resource keeps its own. -/
theorem resourceLabels_clear (md : metadata) {cp : PrefixCluster} {pi : prefixInfo}
    (hl : md.m.lookup cp = some pi) (resource : ResourceID) {ri' : resourceInfo}
    (hlab : ri'.labels = none) (b : Bool) (p : PrefixCluster) (r : ResourceID) :
    let pi' : prefixInfo := ⟨if b then pi.byResource.erase resource else pi.byResource.insert resource ri'⟩
    ({ md with m := if !pi'.isValid then md.m.erase cp else md.m.insert cp pi' } : metadata).resourceLabels p r =
      if (cp, resource) = (p, r) then none else md.resourceLabels p r := by
  intro pi'
  have hself : (pi'.byResource.lookup resource).bind (·.labels) = none := by
    cases b <;> simp [pi', AList.lookup_erase, AList.lookup_insert, hlab]
  have hother : ∀ r', r' ≠ resource → pi'.byResource.lookup r' = pi.byResource.lookup r' := by
    intro r' hr'
    cases b <;> simp [pi', AList.lookup_erase_ne hr', AList.lookup_insert_ne hr']
  unfold resourceLabels
  by_cases hp : cp = p
  · subst hp
    by_cases hr : resource = r
    · subst hr
      split <;> simp [AList.lookup_erase, AList.lookup_insert, hself]
    · have hne : (cp, resource) ≠ (cp, r) := fun h => hr (Prod.mk.inj h).2
      rw [if_neg hne, hl, Option.bind_some, ← hother r (Ne.symm hr)]
      split
      · next hinv =>
        -- the prefix is dropped: no resource of it had labels left
        rw [AList.lookup_erase, Option.bind_none]
        cases h : pi'.byResource.lookup r with
        | none => rfl
        | some ri2 => simp [labels_of_not_isValid (by simpa using hinv) h]
      · rw [AList.lookup_insert, Option.bind_some]
  · have hne : (cp, resource) ≠ (p, r) := fun h => hp (Prod.mk.inj h).1
    rw [if_neg hne]
    split
    · rw [AList.lookup_erase_ne (Ne.symm hp)]
    · rw [AList.lookup_insert_ne (Ne.symm hp)]

theorem resourceLabels_remove (md : metadata) (pfx : PrefixCluster) (resource : ResourceID)
    (L : Labels) (p : PrefixCluster) (r : ResourceID) :
    (md.remove pfx resource [.labels L]).1.resourceLabels p r =
      if (canonicalPrefix pfx, resource) = (p, r) then none else md.resourceLabels p r := by
  unfold remove
  dsimp only
  rcases hl : md.m.lookup (canonicalPrefix pfx) with _ | pi
  · simp only
    split
    · next h =>
      obtain ⟨rfl, rfl⟩ := Prod.mk.inj h
      simp [resourceLabels, hl]
    · rfl
  rcases hri : pi.byResource.lookup resource with _ | ri
  · simp only [hri]
    split
    · next h =>
      obtain ⟨rfl, rfl⟩ := Prod.mk.inj h
      simp [resourceLabels, hl, hri]
    · rfl
  simp only [hri, List.foldl_cons, List.foldl_nil]
  exact resourceLabels_clear md hl resource rfl _ p r
end metadata

theorem upsertMetadataStep_fst (acc : metadata × List PrefixCluster) {u : MU} (hu : u.isCIDR = false) :
    (upsertMetadataStep acc u).1 = (acc.1.upsertLocked u.prefixCluster u.source u.resource u.metadata).1 := by
  obtain ⟨md, ps⟩ := acc
  simp [upsertMetadataStep, hu]

theorem removeMetadataStep_fst (acc : metadata × List PrefixCluster) {u : MU} (hu : u.isCIDR = false) :
    (removeMetadataStep acc u).1 = (acc.1.remove u.prefixCluster u.resource u.metadata).1 := by
  obtain ⟨md, ps⟩ := acc
  simp [removeMetadataStep, hu]

open metadata in
/-- A batch that sets labels acts on the labels of each prefix and resource as the history of
its sets. -/
theorem resourceLabels_upsertMetadataBatch (md : metadata) (ups : List MU) (f : MU → Labels)
    (hu : ∀ u ∈ ups, u.isCIDR = false ∧ u.metadata = [.labels (f u)]) (p : PrefixCluster)
    (r : ResourceID) :
    (upsertMetadataBatch md ups).resourceLabels p r =
      MapHistory.latestOr (ups.map fun u => .set (canonicalPrefix u.prefixCluster, u.resource) (f u))
        (fun k => md.resourceLabels k.1 k.2) (p, r) := by
  change ((ups.foldl upsertMetadataStep (md, [])).1).resourceLabels p r = _
  refine MapHistory.foldl_view (fun acc k => acc.1.resourceLabels k.1 k.2) upsertMetadataStep _ ups
    (fun acc u hmem k => ?_) (md, []) (p, r)
  obtain ⟨hc, hm⟩ := hu u hmem
  rw [upsertMetadataStep_fst acc hc, hm, resourceLabels_upsertLocked]
  rfl

open metadata in
/-- A batch that removes labels acts on the labels of each prefix and resource as the history of
its erasures. -/
theorem resourceLabels_removeMetadataBatch (md : metadata) (rms : List MU)
    (hu : ∀ u ∈ rms, u.isCIDR = false ∧ ∃ L, u.metadata = [.labels L]) (p : PrefixCluster)
    (r : ResourceID) :
    (removeMetadataBatch md rms).resourceLabels p r =
      MapHistory.latestOr (rms.map fun u => (.erase (canonicalPrefix u.prefixCluster, u.resource) :
        MapHistory.Update _ Labels)) (fun k => md.resourceLabels k.1 k.2) (p, r) := by
  change ((rms.foldl removeMetadataStep (md, [])).1).resourceLabels p r = _
  refine MapHistory.foldl_view (fun acc k => acc.1.resourceLabels k.1 k.2) removeMetadataStep _ rms
    (fun acc u hmem k => ?_) (md, []) (p, r)
  obtain ⟨hc, L, hm⟩ := hu u hmem
  rw [removeMetadataStep_fst acc hc, hm, resourceLabels_remove]
  rfl

end Ipcache

end Cilium
