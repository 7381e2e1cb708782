import Cilium.IPCache.Metadata
import Cilium.Identity.Allocator

/-! Label injection (`IPCache.doInjectLabels` and `handleLabelInjection` of
`pkg/ipcache/metadata.go`): for each queued prefix, resolve the identity its labels call for, then
replace or delete the prefix's IP cache entry, and give back the reference that the prefix's old
identity held.  The loop over the prefixes only reads the IP cache and collects its decisions in
maps (`InjectState`); the IP cache is written after the loop, and the old identities are released
last.  The selector cache update that the source waits for between the two is left out, but not
the cancellation of that wait, after which nothing is written or released.

`IPCacheState` is the IP cache with its metadata layer and its identity allocator, and `Op` the
calls that move it: metadata batches, and a run of the injection controller. -/

namespace Cilium.Ipcache

open Cilium.Policy Cilium.IdentityCache Cilium.Labels

/-- `resolveLabels`: in-cluster entities lose the world labels, and, unless nodes may be
selected by CIDR, their CIDR-like labels; node labels are kept for nodes with node labels on; an
empty set falls back to the prefix's CIDR labels; what is not in-cluster is in the world. -/
def resolveLabels (cfg : DaemonConfig) (lbls : Labels) (pc : PrefixCluster) : Labels :=
  let isNode := lbls.hasRemoteNodeLabel || lbls.hasHostLabel
  let isInCluster := isNode || lbls.hasHealthLabel || lbls.hasIngressLabel
  let lbls := if isInCluster then ((lbls.remove labelWorld).remove labelWorldIPv4).remove labelWorldIPv6
    else lbls
  let lbls := if isInCluster && !(isNode && cfg.policyCIDRMatchesNodes) then
      ((lbls.removeFromSource labelSourceCIDR).removeFromSource labelSourceFQDN).removeFromSource
        labelSourceCIDRGroup
    else lbls
  let lbls := if !(isNode && cfg.perNodeLabelsEnabled) then lbls.removeFromSource labelSourceNode
    else lbls
  let lbls := if lbls.entries.length = 0 then getCIDRLabels cfg pc.asPrefix else lbls
  if !isInCluster then addWorldLabel cfg lbls pc.addr else lbls

namespace metadata

/-- One parent's labels merged in by `mergeLabels`: the labels of keys not yet present, and at
most one CIDR label in all. -/
def mergeParentLabels (acc : Labels × Bool) (info : resourceInfo) : Labels × Bool :=
  info.toLabels.entries.foldl (fun (lbls, hasCIDR) kv =>
    if kv.2.source = labelSourceCIDR && hasCIDR then (lbls, hasCIDR)
    else if (lbls.lookup kv.1).isNone then
      (lbls.insert kv.1 kv.2, hasCIDR || kv.2.source == labelSourceCIDR)
    else (lbls, hasCIDR)) acc

/-- `metadata.mergeLabels`: the labels of every prefix from `pc` itself down to length zero,
the longer prefixes first; a length the unmapped address does not have is skipped. -/
def mergeLabels (md : metadata) (lbls : Labels) (pc : PrefixCluster) : Labels :=
  ((List.range (pc.bits + 1)).reverse.foldl (fun acc bits =>
    match pc.addr.unmap.prefixOf bits with
    | none => acc
    | some parent =>
      match md.getLocked ⟨parent.addr, parent.bits, pc.clusterID⟩ with
      | none => acc
      | some info => mergeParentLabels acc info) (lbls, lbls.hasSource labelSourceCIDR)).1

/-- `IPCache.updateReservedHostLabels` on the metadata: the labels that the prefix gives the host,
or none.  The host identity's merged labels go to the reserved identity table, which is left
out. -/
def updateReservedHostLabels (md : metadata) (p : Prefix) (lbls : Option Labels) : metadata :=
  { md with reservedHostLabels := match lbls with
    | none => md.reservedHostLabels.erase p
    | some l => md.reservedHostLabels.insert p l }

end metadata

/-- `IPCache.resolveIdentity`: an override allocates its labels as they are; otherwise the labels
of the parent prefixes are merged in and resolved, and a prefix of the local cluster with the
host label is the host, which takes no reference.  Gives the ID and whether it is new. -/
def resolveIdentity (cfg : DaemonConfig) (md : metadata) (alloc : localIdentityCache)
    (pc : PrefixCluster) (info : resourceInfo) :
    Except String (NumericIdentity × Bool × metadata × localIdentityCache) :=
  if info.identityOverride then
    match allocateLocalIdentity alloc info.toLabels 0 with
    | .error e => .error e
    | .ok (id, isNew, alloc) => .ok (id.id, isNew, md, alloc)
  else
    let lbls := md.mergeLabels info.toLabels pc
    let lbls := resolveLabels cfg lbls pc
    if pc.clusterID = 0 && lbls.hasHostLabel then
      .ok (reservedIdentityHost, false, md.updateReservedHostLabels pc.asPrefix (some lbls), alloc)
    else
      match allocateLocalIdentity alloc lbls info.requestedIdentity with
      | .error e => .error e
      | .ok (id, isNew, alloc) => .ok (id.id, isNew, md, alloc)

/-- The IP cache key of a prefix: `ParsePrefixCluster` of its text, which for an invalid prefix
is `"invalid Prefix"` and parses as nothing. -/
def PrefixCluster.ipKey (p : PrefixCluster) : IPKey :=
  if p.asPrefix.isValid then .cidr p else .invalid

/-- `ipcacheEntry`: what to write for a prefix. -/
structure ipcacheEntry where
  identity : Identity
  tunnelPeer : Option Addr
  encryptKey : UInt8
  endpointFlags : UInt8
  force : Bool

/-- The state of the loop of `doInjectLabels`: the metadata (whose host labels it updates), the
allocator, and the maps of old identities to release, entries to write or delete, and prefixes
that the legacy API created. -/
structure InjectState where
  metadata : metadata
  identityAllocator : localIdentityCache
  previouslyAllocatedIdentities : AList fun _ : PrefixCluster => Identity
  entriesToReplace : AList fun _ : PrefixCluster => ipcacheEntry
  entriesToDelete : AList fun _ : PrefixCluster => Identity
  unmanagedPrefixes : AList fun _ : PrefixCluster => Identity

/-- The old entry of a prefix as the loop reads it: its identity, host IP and key, and endpoint
flags. -/
abbrev OldEntry := Identity × IPKeyPair × UInt8

/-- The `releaseIdentity` label of the loop, for a prefix with an old entry: the old identity is to
be released unless a legacy-owned entry is being replaced; without metadata the entry is deleted,
handed back to its legacy source, or marked unmanaged.  Then a prefix that stops being the host
drops its host labels. -/
def releaseIdentity (st : InjectState) (pc : PrefixCluster) (old : Option OldEntry)
    (hasInfo : Bool) (newID : Option NumericIdentity) : InjectState :=
  match old with
  | none => st
  | some (oldID, oldHost, oldEndpointFlags) =>
    let entryToBeReplaced := (st.entriesToReplace.lookup pc).isSome
    let st := if oldID.exclusivelyOwnedByLegacyAPI && entryToBeReplaced then st
      else { st with previouslyAllocatedIdentities := st.previouslyAllocatedIdentities.insert pc oldID }
    let st :=
      if hasInfo then st
      else if oldID.exclusivelyOwnedByMetadataAPI then
        { st with entriesToDelete := st.entriesToDelete.insert pc oldID }
      else if oldID.ownedByLegacyAndMetadataAPI then
        let unmanagedEntry : ipcacheEntry :=
          ⟨⟨oldID.id, oldID.overwrittenLegacySource, false, true, noSource⟩, oldHost.ip, oldHost.key,
            oldEndpointFlags, true⟩
        { st with entriesToReplace := st.entriesToReplace.insert pc unmanagedEntry,
                  unmanagedPrefixes := st.unmanagedPrefixes.insert pc unmanagedEntry.identity }
      else if oldID.exclusivelyOwnedByLegacyAPI then
        { st with unmanagedPrefixes := st.unmanagedPrefixes.insert pc oldID }
      else st
    if oldID.id = reservedIdentityHost && newID != some reservedIdentityHost && pc.clusterID = 0 then
      { st with metadata := st.metadata.updateReservedHostLabels pc.asPrefix none }
    else st

/-- The legacy source an entry keeps when the metadata API takes it over. -/
def newOverwrittenLegacySource : Option OldEntry → Source
  | some (oldID, _, _) =>
    if oldID.exclusivelyOwnedByLegacyAPI then oldID.source
    else if oldID.ownedByLegacyAndMetadataAPI then oldID.overwrittenLegacySource
    else noSource
  | none => noSource

/-- The body of the loop of `doInjectLabels` for one prefix.  `endpointPrefixes` are the prefixes
that a CIDR selector allocator claims (`UpdateCIDRLabels`), which need no identity of their own.
An error of the allocator stops the loop. -/
def injectPrefix (cfg : DaemonConfig) (endpointPrefixes : List Prefix) (ipc : IPCache)
    (st : InjectState) (pc : PrefixCluster) : Except String InjectState :=
  let key := pc.ipKey
  let old : Option OldEntry := (ipc.ipToIdentityCache.lookup key).map fun oldID =>
    (oldID, ipc.getHostIP key, ipc.getEndpointFlags key)
  let prefixInfo := if endpointPrefixes.contains pc.asPrefix then none else st.metadata.getLocked pc
  match prefixInfo with
  | none => .ok (releaseIdentity st pc old false none)
  | some info =>
    match resolveIdentity cfg st.metadata st.identityAllocator pc info with
    | .error e => .error e
    | .ok (newID, _, md, alloc) =>
      let st := { st with metadata := md, identityAllocator := alloc }
      let tunnelPeerIP := info.tunnelPeer
      let encryptKeyUint8 := info.encryptKey
      let epFlagsUint8 := info.endpointFlags.uint8
      let legacySource := newOverwrittenLegacySource old
      -- an entry that already is what the metadata says is left alone
      let unchanged := match old with
        | some (oldID, oldHost, oldEndpointFlags) =>
          oldID.id == newID && info.source == oldID.source &&
            oldID.overwrittenLegacySource == legacySource && oldHost.ip == tunnelPeerIP &&
            oldHost.key == encryptKeyUint8 && oldEndpointFlags == epFlagsUint8
        | none => false
      if unchanged then .ok (releaseIdentity st pc old true (some newID))
      else
        let force := match old with
          | some (oldID, _, _) => info.source != oldID.source && oldID.id != newID
          | none => false
        let entry : ipcacheEntry :=
          ⟨⟨newID, info.source, false, false, legacySource⟩, tunnelPeerIP, encryptKeyUint8,
            epFlagsUint8, force⟩
        .ok (releaseIdentity { st with entriesToReplace := st.entriesToReplace.insert pc entry } pc
          old true (some newID))

/-- The loop of `doInjectLabels`: the state after the prefixes it got through, the prefixes left
when an allocation failed, and the error. -/
def injectLoop (cfg : DaemonConfig) (endpointPrefixes : List Prefix) (ipc : IPCache) :
    List PrefixCluster → InjectState → InjectState × List PrefixCluster × Option String
  | [], st => (st, [], none)
  | pc :: rest, st =>
    match injectPrefix cfg endpointPrefixes ipc st pc with
    | .error e => (st, pc :: rest, some ("failed to allocate new identity during label injection: " ++ e))
    | .ok st => injectLoop cfg endpointPrefixes ipc rest st

namespace IPCache

/-- The upserts of `doInjectLabels`, whose errors it only logs. -/
def replaceEntries (ipc : IPCache) (es : List ((_ : PrefixCluster) × ipcacheEntry)) : IPCache :=
  es.foldl (fun ipc e =>
    let key := e.1.ipKey
    (ipc.upsertLocked key e.2.tunnelPeer e.2.encryptKey (ipc.getK8sMetadata key) e.2.identity
      e.2.endpointFlags e.2.force false).1) ipc

/-- The deletions of `doInjectLabels`. -/
def deleteEntries (ipc : IPCache) (es : List ((_ : PrefixCluster) × Identity)) : IPCache :=
  es.foldl (fun ipc e => ipc.deleteLocked e.1.ipKey e.2.source) ipc

/-- The last scan of `doInjectLabels`: a prefix that only the legacy API created goes with the
last reference of its identity. -/
def removeUnmanaged (ipc : IPCache) (unmanagedPrefixes : AList fun _ : PrefixCluster => Identity)
    (deletedNIDs : List NumericIdentity) : IPCache :=
  deletedNIDs.foldl (fun ipc nid =>
    ((ipc.identityToIPCache.lookup nid).getD []).foldl (fun ipc k =>
      match k with
      | .cidr p =>
        match unmanagedPrefixes.lookup p with
        | some oldID => if oldID.id = nid then ipc.deleteLocked p.ipKey oldID.source else ipc
        | none => ipc
      | _ => ipc) ipc) ipc

end IPCache

/-- The IP cache with its metadata layer and its identity allocator. -/
structure IPCacheState where
  ipc : IPCache
  metadata : metadata
  identityAllocator : localIdentityCache

/-- `IPCache.doInjectLabels`: the state, the prefixes to retry, and the error.  When the wait for
the selector cache is cancelled (`ctxDone`), the references the loop took stay taken and every
prefix is to be retried. -/
def doInjectLabels (cfg : DaemonConfig) (endpointPrefixes : List Prefix) (s : IPCacheState)
    (ctxDone : Bool) (modifiedPrefixes : List PrefixCluster) :
    IPCacheState × List PrefixCluster × Option String :=
  let st0 : InjectState := ⟨s.metadata, s.identityAllocator, ∅, ∅, ∅, ∅⟩
  let (st, remainingPrefixes, err) := injectLoop cfg endpointPrefixes s.ipc modifiedPrefixes st0
  if ctxDone then
    ({ s with metadata := st.metadata, identityAllocator := st.identityAllocator }, modifiedPrefixes,
      some "context canceled")
  else
    let ipc := s.ipc.replaceEntries st.entriesToReplace.entries
    let ipc := ipc.deleteEntries st.entriesToDelete.entries
    let (alloc, deletedNIDs) := releaseLocalIdentities st.identityAllocator
      (st.previouslyAllocatedIdentities.entries.map (·.2.id))
    let ipc := ipc.removeUnmanaged st.unmanagedPrefixes deletedNIDs
    (⟨ipc, st.metadata, alloc⟩, remainingPrefixes, err)

/-- `chunkSize`. -/
def chunkSize : Nat := 512

/-- The chunk loop of `handleLabelInjection`: inject chunk after chunk until one fails.  Gives the
state, the prefixes to retry, those not reached, and the error. -/
def injectChunks (cfg : DaemonConfig) (endpointPrefixes : List Prefix) (ctxDone : Bool)
    (cs : Nat) : Nat → IPCacheState → List PrefixCluster → List PrefixCluster →
    IPCacheState × List PrefixCluster × List PrefixCluster × Option String
  | 0, s, ids, retry => (s, retry, ids, none)
  | fuel + 1, s, ids, retry =>
    if ids.isEmpty then (s, retry, [], none)
    else
      let idx := min ids.length cs
      let (s, failed, err) := doInjectLabels cfg endpointPrefixes s ctxDone (ids.take idx)
      let retry := retry ++ failed
      if err.isSome then (s, retry, ids.drop idx, err)
      else injectChunks cfg endpointPrefixes ctxDone cs fuel s (ids.drop idx) retry

/-- `IPCache.handleLabelInjection`: inject the queued prefixes in chunks (all at once on the first
revision) and queue again what failed or was not reached. -/
def handleLabelInjection (cfg : DaemonConfig) (endpointPrefixes : List Prefix) (s : IPCacheState)
    (ctxDone : Bool) : IPCacheState × Option String :=
  let (idsToModify, rev, md) := s.metadata.dequeuePrefixUpdates
  let s := { s with metadata := md }
  let cs := if rev = 1 then idsToModify.length else chunkSize
  let (s, retry, idsToModify, err) :=
    injectChunks cfg endpointPrefixes ctxDone cs (idsToModify.length + 1) s idsToModify []
  let s := if retry.isEmpty then s else { s with metadata := s.metadata.enqueuePrefixUpdates retry }
  let s := if idsToModify.isEmpty then s
    else { s with metadata := s.metadata.enqueuePrefixUpdates idsToModify }
  (s, err)

/-- The calls that move an `IPCacheState`: the metadata batches, and a run of the label injection
controller, with whether its wait is cancelled and the prefixes that in-cluster resources claim. -/
inductive Op where
  | upsertMetadataBatch (updates : List MU)
  | removeMetadataBatch (updates : List MU)
  | handleLabelInjection (ctxDone : Bool) (endpointPrefixes : List Prefix)

namespace IPCacheState

/-- One call. -/
def step (cfg : DaemonConfig) (s : IPCacheState) : Op → IPCacheState
  | .upsertMetadataBatch updates => { s with metadata := upsertMetadataBatch s.metadata updates }
  | .removeMetadataBatch updates => { s with metadata := removeMetadataBatch s.metadata updates }
  | .handleLabelInjection ctxDone endpointPrefixes =>
    (handleLabelInjection cfg endpointPrefixes s ctxDone).1

/-- A sequence of calls. -/
def run (cfg : DaemonConfig) (s : IPCacheState) (ops : List Op) : IPCacheState :=
  ops.foldl (step cfg) s

/-- The state at start: nothing cached, no metadata, and the local allocator of
`NewCachingIdentityAllocator`, over `[1, 0xFFFFFF]` in the local scope. -/
def initial : IPCacheState :=
  ⟨empty, newMetadata, newLocalIdentityCache identityScopeLocal 1 0xFFFFFF⟩

end IPCacheState

end Cilium.Ipcache
