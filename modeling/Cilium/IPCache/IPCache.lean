import Cilium.Policy.Types
import Mathlib.Data.List.AList

/-! The IP cache of `pkg/ipcache/ipcache.go`: the maps from an IP or CIDR key to its security
identity, host IP and encryption key, Kubernetes metadata and endpoint flags, the index from an
identity to its keys, and the stream of `OnIPIdentityCacheChange` events that `upsertLocked`,
`deleteLocked` and `dumpToListenerLocked` send to a listener.  A key string is kept as what it
parses to: a prefix, or an address, both with a cluster ID, or an invalid string; the model
assumes the canonical spelling that `String()` gives.  The named port counts and the prefix
lengths, which only feed other subsystems, are left out. -/

namespace Cilium.Ipcache

open Cilium.Policy

/-- `source.Source`; `other` is any name outside the default sources, the empty one included. -/
inductive Source where
  | kubeAPIServer
  | local
  | kvstore
  | customResource
  | kubernetes
  | clusterMesh
  | directory
  | localAPI
  | generated
  | restored
  | unspec
  | other (name : String)
  deriving DecidableEq, Repr

/-- The index of a source in `defaultSources`; a source outside it comes after all of them. -/
def Source.priority : Source → Nat
  | .kubeAPIServer => 0
  | .local => 1
  | .kvstore => 2
  | .customResource => 3
  | .kubernetes => 4
  | .clusterMesh => 5
  | .directory => 6
  | .localAPI => 7
  | .generated => 8
  | .restored => 9
  | .unspec => 10
  | .other _ => 11

/-- `source.AllowOverwrite`. -/
def allowOverwrite (existing next : Source) : Bool := next.priority ≤ existing.priority

/-- The empty source `""`. -/
def noSource : Source := .other ""

/-- A `netip.Addr`. -/
inductive Addr where
  | v4 (bits : BitVec 32)
  | v6 (bits : BitVec 128)
  deriving DecidableEq, Repr

def Addr.bitLen : Addr → Nat
  | .v4 _ => 32
  | .v6 _ => 128

/-- `cmtypes.AddrCluster`. -/
structure AddrCluster where
  addr : Addr
  clusterID : UInt32
  deriving DecidableEq, Repr

/-- `cmtypes.PrefixCluster`. -/
structure PrefixCluster where
  addr : Addr
  bits : Nat
  clusterID : UInt32
  deriving DecidableEq, Repr

def PrefixCluster.isSingleIP (p : PrefixCluster) : Bool := p.bits == p.addr.bitLen

def PrefixCluster.addrCluster (p : PrefixCluster) : AddrCluster := ⟨p.addr, p.clusterID⟩

def AddrCluster.asPrefixCluster (a : AddrCluster) : PrefixCluster := ⟨a.addr, a.addr.bitLen, a.clusterID⟩

/-- An IP cache key string, as `ParsePrefixCluster` or else `ParseAddrCluster` reads it. -/
inductive IPKey where
  | cidr (p : PrefixCluster)
  | endpoint (a : AddrCluster)
  | invalid
  deriving DecidableEq, Repr

/-- The prefix of a valid key. -/
def IPKey.prefixCluster : IPKey → Option PrefixCluster
  | .cidr p => some p
  | .endpoint a => some a.asPrefixCluster
  | .invalid => none

/-- `ipcache.Identity`. -/
structure Identity where
  id : NumericIdentity
  source : Source
  shadowed : Bool
  modifiedByLegacyAPI : Bool
  overwrittenLegacySource : Source
  deriving DecidableEq, Repr

/-- `Identity.equals`: every field. -/
def Identity.equals (i o : Identity) : Bool := i == o

def Identity.exclusivelyOwnedByLegacyAPI (i : Identity) : Bool :=
  i.modifiedByLegacyAPI && i.overwrittenLegacySource == noSource

def Identity.exclusivelyOwnedByMetadataAPI (i : Identity) : Bool := !i.modifiedByLegacyAPI

def Identity.ownedByLegacyAndMetadataAPI (i : Identity) : Bool :=
  i.modifiedByLegacyAPI && i.overwrittenLegacySource != noSource

/-- `IPKeyPair`: the host IP (`none` for `nil`) and the encryption key. -/
structure IPKeyPair where
  ip : Option Addr
  key : UInt8
  deriving DecidableEq, Repr

/-- `K8sMetadata`: the pod's `Namespace`, its name, and its named ports, a map from a name to a port
and protocol. -/
structure K8sMetadata where
  podNamespace : String
  podName : String
  namedPorts : List (String × UInt16 × UInt8)
  deriving DecidableEq, Repr

/-- `K8sMetadata.Equal` on two pointers: equal when both are `nil`, or both are set with the
same names, and named ports of one length that the other has too. -/
def k8sMetadataEqual : Option K8sMetadata → Option K8sMetadata → Bool
  | none, none => true
  | some m, some o =>
    m.namedPorts.length == o.namedPorts.length &&
      m.namedPorts.all (fun kv => o.namedPorts.lookup kv.1 == some kv.2) &&
      m.podNamespace == o.podNamespace && m.podName == o.podName
  | _, _ => false

/-- `CacheModification`. -/
inductive CacheModification where
  | upsert
  | delete
  deriving DecidableEq, Repr

/-- A call of `OnIPIdentityCacheChange`. -/
structure Event where
  modType : CacheModification
  cidrCluster : PrefixCluster
  oldHostIP : Option Addr
  newHostIP : Option Addr
  oldID : Option Identity
  newID : Identity
  encryptKey : UInt8
  k8sMeta : Option K8sMetadata
  endpointFlags : UInt8
  deriving DecidableEq, Repr

/-- The errors of `upsertLocked`. -/
inductive UpsertError where
  | errOverwrite (existing next : Source)
  | errInvalidIP
  deriving DecidableEq, Repr

/-- The maps of `IPCache` and the events it has sent to its listener. -/
structure IPCache where
  ipToIdentityCache : AList fun _ : IPKey => Identity
  identityToIPCache : AList fun _ : NumericIdentity => List IPKey
  ipToHostIPCache : AList fun _ : IPKey => IPKeyPair
  ipToK8sMetadata : AList fun _ : IPKey => K8sMetadata
  ipToEndpointFlags : AList fun _ : IPKey => UInt8
  events : List Event

/-- An IP cache with no entries and no events. -/
def empty : IPCache := ⟨∅, ∅, ∅, ∅, ∅, []⟩

namespace IPCache

/-- `getHostIPCacheRLocked`: the zero pair for a missing key. -/
def getHostIP (ipc : IPCache) (ip : IPKey) : IPKeyPair := (ipc.ipToHostIPCache.lookup ip).getD ⟨none, 0⟩

def getEndpointFlags (ipc : IPCache) (ip : IPKey) : UInt8 := (ipc.ipToEndpointFlags.lookup ip).getD 0

def getK8sMetadata (ipc : IPCache) (ip : IPKey) : Option K8sMetadata := ipc.ipToK8sMetadata.lookup ip

/-- Remove `ip` from the index entry of `id`, and the entry once it is empty. -/
def unindex (ipc : IPCache) (id : NumericIdentity) (ip : IPKey) : IPCache :=
  let ips := ((ipc.identityToIPCache.lookup id).getD []).erase ip
  { ipc with identityToIPCache :=
      if ips.length = 0 then ipc.identityToIPCache.erase id
      else ipc.identityToIPCache.insert id ips }

/-- Add `ip` to the index entry of `id`. -/
def index (ipc : IPCache) (id : NumericIdentity) (ip : IPKey) : IPCache :=
  { ipc with identityToIPCache :=
      ipc.identityToIPCache.insert id (((ipc.identityToIPCache.lookup id).getD []).insert ip) }

def notify (ipc : IPCache) (e : Event) : IPCache := { ipc with events := ipc.events ++ [e] }

/-- The ownership bookkeeping of `upsertLocked` for a key that has an entry: a legacy call keeps
the source it overwrote, and the legacy mark, once set, stays. -/
def legacyOwnership (cached newIdentity : Identity) (fromLegacyAPI : Bool) : Identity :=
  let newIdentity :=
    if fromLegacyAPI then
      if cached.exclusivelyOwnedByMetadataAPI then
        { newIdentity with overwrittenLegacySource := newIdentity.source }
      else if cached.ownedByLegacyAndMetadataAPI then
        if allowOverwrite cached.overwrittenLegacySource newIdentity.source then
          { newIdentity with overwrittenLegacySource := newIdentity.source }
        else { newIdentity with overwrittenLegacySource := cached.overwrittenLegacySource }
      else newIdentity
    else newIdentity
  if fromLegacyAPI || cached.modifiedByLegacyAPI then { newIdentity with modifiedByLegacyAPI := true }
  else newIdentity

/-- The shadowing step of `upsertLocked`, after the checks: for a single-IP CIDR, whether an
endpoint IP of the same address shadows it; for an endpoint IP without an entry, whether it newly
shadows the CIDR of its address (which is then marked, and is the old identity the listeners are
told of) or has its identity and host IP, in which case the listeners hear nothing.  Gives the
prefix, the new identity, the cache, the old host IP, the old identity and whether to call the
listeners; `none` for an invalid key. -/
def shadowStep (ipc : IPCache) (ip : IPKey) (found : Bool) (hostIP : Option Addr)
    (newIdentity : Identity) (oldHostIP : Option Addr) (oldIdentity : Option Identity) :
    Option (PrefixCluster × Identity × IPCache × Option Addr × Option Identity × Bool) :=
  match ip with
  | .cidr p =>
    let newIdentity := if p.isSingleIP && .endpoint p.addrCluster ∈ ipc.ipToIdentityCache then
      { newIdentity with shadowed := true } else newIdentity
    some (p, newIdentity, ipc, oldHostIP, oldIdentity, true)
  | .endpoint a =>
    let p := a.asPrefixCluster
    if found then some (p, newIdentity, ipc, oldHostIP, oldIdentity, true)
    else match ipc.ipToIdentityCache.lookup (.cidr p) with
      | none => some (p, newIdentity, ipc, oldHostIP, oldIdentity, true)
      | some cidrIdentity =>
        let oldHostIP := (ipc.getHostIP (.cidr p)).ip
        if cidrIdentity.id != newIdentity.id || oldHostIP != hostIP then
          let cidrIdentity := { cidrIdentity with shadowed := true }
          some (p, newIdentity,
            { ipc with ipToIdentityCache := ipc.ipToIdentityCache.insert (.cidr p) cidrIdentity },
            oldHostIP, some cidrIdentity, true)
        else some (p, newIdentity, ipc, oldHostIP, oldIdentity, false)
  | .invalid => none

/-- The update of `upsertLocked` once it goes ahead: the maps, and the event unless the listeners
are not to be called or the new entry is shadowed. -/
def applyUpsert (ipc : IPCache) (ip : IPKey) (cached : Option Identity) (p : PrefixCluster)
    (hostIP : Option Addr) (hostKey : UInt8) (k8sMeta : Option K8sMetadata)
    (newIdentity : Identity) (endpointFlags : UInt8) (metaEqual : Bool) (oldHostIP : Option Addr)
    (oldIdentity : Option Identity) (callbackListeners : Bool) : IPCache :=
  let ipc := { ipc with ipToIdentityCache := ipc.ipToIdentityCache.insert ip newIdentity }
  let ipc := match cached with
    | some c => ipc.unindex c.id ip
    | none => ipc
  let ipc := ipc.index newIdentity.id ip
  let ipc := { ipc with
    ipToHostIPCache := match hostIP with
      | none => ipc.ipToHostIPCache.erase ip
      | some h => ipc.ipToHostIPCache.insert ip ⟨some h, hostKey⟩,
    ipToEndpointFlags := ipc.ipToEndpointFlags.insert ip endpointFlags }
  let idChanged := match cached with
    | some c => c.id != newIdentity.id
    | none => false
  let ipc := if !metaEqual || idChanged then
      { ipc with ipToK8sMetadata := match k8sMeta with
        | none => ipc.ipToK8sMetadata.erase ip
        | some m => ipc.ipToK8sMetadata.insert ip m }
    else ipc
  if callbackListeners && !newIdentity.shadowed then
    ipc.notify ⟨.upsert, p, oldHostIP, hostIP, oldIdentity, newIdentity, hostKey, k8sMeta,
      endpointFlags⟩
  else ipc

/-- `IPCache.upsertLocked`: the cache after the call and its error, if any. -/
def upsertLocked (ipc : IPCache) (ip : IPKey) (hostIP : Option Addr) (hostKey : UInt8)
    (k8sMeta : Option K8sMetadata) (newIdentity : Identity) (endpointFlags : UInt8)
    (force fromLegacyAPI : Bool) : IPCache × Option UpsertError :=
  let oldHost := ipc.getHostIP ip
  let oldEndpointFlags := ipc.getEndpointFlags ip
  -- the stored metadata is read as a value, so its pointer is never `nil`
  let metaEqual := k8sMetadataEqual (some ((ipc.getK8sMetadata ip).getD ⟨"", "", []⟩)) k8sMeta
  let checked : Except (IPCache × Option UpsertError) (Identity × Option Identity) :=
    match ipc.ipToIdentityCache.lookup ip with
    | some cached =>
      let newIdentity := legacyOwnership cached newIdentity fromLegacyAPI
      if !force && !allowOverwrite cached.source newIdentity.source then
        let cached := { cached with modifiedByLegacyAPI := newIdentity.modifiedByLegacyAPI,
                                    overwrittenLegacySource := newIdentity.overwrittenLegacySource }
        .error ({ ipc with ipToIdentityCache := ipc.ipToIdentityCache.insert ip cached },
          some (.errOverwrite cached.source newIdentity.source))
      else if cached.equals newIdentity && oldHost.ip == hostIP && hostKey == oldHost.key &&
          metaEqual && oldEndpointFlags == endpointFlags then .error (ipc, none)
      else .ok (newIdentity, some cached)
    | none =>
      .ok (if fromLegacyAPI then { newIdentity with modifiedByLegacyAPI := true } else newIdentity,
        none)
  match checked with
  | .error r => r
  | .ok (newIdentity, cached) =>
    match ipc.shadowStep ip cached.isSome hostIP newIdentity oldHost.ip cached with
    | none => (ipc, some .errInvalidIP)
    | some (p, newIdentity, ipc, oldHostIP, oldIdentity, callbackListeners) =>
      (ipc.applyUpsert ip cached p hostIP hostKey k8sMeta newIdentity endpointFlags metaEqual
        oldHostIP oldIdentity callbackListeners, none)

/-- `IPCache.deleteLocked`: a deleted endpoint IP that shadowed the CIDR of its address with
another identity or host IP revives it, which the listeners see as an upsert of the CIDR. -/
def deleteLocked (ipc : IPCache) (ip : IPKey) (source : Source) : IPCache :=
  match ipc.ipToIdentityCache.lookup ip with
  | none => ipc
  | some cachedIdentity =>
    if cachedIdentity.source != source then ipc
    else
      let oldHost := ipc.getHostIP ip
      let oldK8sMeta := ipc.getK8sMetadata ip
      let oldEndpointFlags := ipc.getEndpointFlags ip
      -- the prefix, the modification, the revived CIDR's identity and data, and the cache
      let step : Option (PrefixCluster × CacheModification × Option Addr × Option Identity ×
          Identity × UInt8 × Option K8sMetadata × UInt8 × Bool × IPCache) :=
        match ip with
        | .cidr p =>
          some (p, .delete, none, none, cachedIdentity, oldHost.key, oldK8sMeta, oldEndpointFlags,
            .endpoint p.addrCluster ∉ ipc.ipToIdentityCache, ipc)
        | .endpoint a =>
          let p := a.asPrefixCluster
          match ipc.ipToIdentityCache.lookup (.cidr p) with
          | none =>
            some (p, .delete, none, none, cachedIdentity, oldHost.key, oldK8sMeta, oldEndpointFlags,
              true, ipc)
          | some cidrIdentity =>
            let cidrHost := ipc.getHostIP (.cidr p)
            if cidrIdentity.id != cachedIdentity.id || oldHost.ip != cidrHost.ip then
              let cidrIdentity := { cidrIdentity with shadowed := false }
              some (p, .upsert, cidrHost.ip, some cachedIdentity, cidrIdentity, cidrHost.key,
                ipc.getK8sMetadata (.cidr p), ipc.getEndpointFlags (.cidr p), true,
                { ipc with ipToIdentityCache := ipc.ipToIdentityCache.insert (.cidr p) cidrIdentity })
            else
              some (p, .delete, cidrHost.ip, none, cachedIdentity, oldHost.key, oldK8sMeta,
                oldEndpointFlags, false, ipc)
        | .invalid => none
      match step with
      | none => ipc
      | some (p, modType, newHostIP, oldIdentity, newIdentity, encryptKey, k8sMeta, flags,
          callbackListeners, ipc) =>
        let ipc := { ipc with
          ipToIdentityCache := ipc.ipToIdentityCache.erase ip,
          ipToHostIPCache := ipc.ipToHostIPCache.erase ip,
          ipToK8sMetadata := ipc.ipToK8sMetadata.erase ip,
          ipToEndpointFlags := ipc.ipToEndpointFlags.erase ip }
        let ipc := ipc.unindex cachedIdentity.id ip
        if callbackListeners then
          ipc.notify ⟨modType, p, oldHost.ip, newHostIP, oldIdentity, newIdentity, encryptKey,
            k8sMeta, flags⟩
        else ipc

/-- `dumpToListenerLocked`: an upsert for every entry that is not shadowed. -/
def dumpToListenerLocked (ipc : IPCache) : List Event :=
  ipc.ipToIdentityCache.entries.filterMap fun kv =>
    if kv.2.shadowed then none
    else kv.1.prefixCluster.map fun p =>
      let host := ipc.getHostIP kv.1
      ⟨.upsert, p, none, host.ip, none, kv.2, host.key, ipc.getK8sMetadata kv.1,
        ipc.getEndpointFlags kv.1⟩

/-- `applyUpsert` writes the new identity under the key and no other. -/
theorem applyUpsert_ipToIdentityCache (ipc : IPCache) (ip : IPKey) (cached : Option Identity)
    (p : PrefixCluster) (hostIP : Option Addr) (hostKey : UInt8) (k8sMeta : Option K8sMetadata)
    (newIdentity : Identity) (endpointFlags : UInt8) (metaEqual : Bool) (oldHostIP : Option Addr)
    (oldIdentity : Option Identity) (callbackListeners : Bool) :
    (ipc.applyUpsert ip cached p hostIP hostKey k8sMeta newIdentity endpointFlags metaEqual oldHostIP
      oldIdentity callbackListeners).ipToIdentityCache =
      ipc.ipToIdentityCache.insert ip newIdentity := by
  unfold applyUpsert
  cases cached <;> simp only <;> split <;> split <;> rfl

@[simp] theorem legacyOwnership_id (cached newIdentity : Identity) (fromLegacyAPI : Bool) :
    (legacyOwnership cached newIdentity fromLegacyAPI).id = newIdentity.id := by
  unfold legacyOwnership
  split_ifs <;> rfl

@[simp] theorem legacyOwnership_source (cached newIdentity : Identity) (fromLegacyAPI : Bool) :
    (legacyOwnership cached newIdentity fromLegacyAPI).source = newIdentity.source := by
  unfold legacyOwnership
  split_ifs <;> rfl

theorem legacyOwnership_modifiedByLegacyAPI (cached newIdentity : Identity) :
    (legacyOwnership cached newIdentity false).modifiedByLegacyAPI =
      (cached.modifiedByLegacyAPI || newIdentity.modifiedByLegacyAPI) := by
  cases h : cached.modifiedByLegacyAPI <;> simp [legacyOwnership, h]

/-- What `upsertLocked` from the metadata API does to the identity map at a CIDR key: nothing,
when the entry already has the new identity and data; or it writes one value there, with the new
identity's ID, or, for an overwrite its source rejects, the old one's.  A legacy mark it writes
comes from the new identity or the old entry. -/
theorem upsertLocked_cidr (ipc : IPCache) (p : PrefixCluster) (hostIP : Option Addr) (hostKey : UInt8)
    (k8sMeta : Option K8sMetadata) (newIdentity : Identity) (endpointFlags : UInt8) (force : Bool) :
    let r := ipc.upsertLocked (.cidr p) hostIP hostKey k8sMeta newIdentity endpointFlags force false
    (r.1.ipToIdentityCache = ipc.ipToIdentityCache ∧
      ∃ c, ipc.ipToIdentityCache.lookup (.cidr p) = some c ∧ c.id = newIdentity.id) ∨
    ∃ v, r.1.ipToIdentityCache = ipc.ipToIdentityCache.insert (.cidr p) v ∧
      (v.id = newIdentity.id ∨ ∃ c, ipc.ipToIdentityCache.lookup (.cidr p) = some c ∧ v.id = c.id ∧
        force = false ∧ allowOverwrite c.source newIdentity.source = false) ∧
      (v.modifiedByLegacyAPI = true → newIdentity.modifiedByLegacyAPI = true ∨
        ∃ c, ipc.ipToIdentityCache.lookup (.cidr p) = some c ∧ c.modifiedByLegacyAPI = true) := by
  intro r
  rcases hc : ipc.ipToIdentityCache.lookup (.cidr p) with _ | c
  · -- a new entry, shadowed if an endpoint IP of the address has one
    right
    simp only [r, upsertLocked, hc, shadowStep, Bool.false_eq_true, if_false]
    refine ⟨_, applyUpsert_ipToIdentityCache .., Or.inl (by split <;> rfl), fun h => ?_⟩
    left
    split at h <;> exact h
  · simp only [r, upsertLocked, hc, legacyOwnership_source]
    by_cases hrej : (!force && !allowOverwrite c.source newIdentity.source) = true
    · -- a rejected overwrite keeps the entry's identity and records the legacy marks
      right
      simp only [hrej, if_true]
      simp only [Bool.and_eq_true, Bool.not_eq_true'] at hrej
      refine ⟨_, rfl, Or.inr ⟨c, rfl, rfl, hrej.1, hrej.2⟩, fun h => ?_⟩
      rw [legacyOwnership_modifiedByLegacyAPI, Bool.or_eq_true] at h
      exact h.elim (fun h => Or.inr ⟨c, rfl, h⟩) Or.inl
    · simp only [hrej, Bool.false_eq_true, if_false]
      split
      · rename_i r' hchk
        split at hchk
        · -- the entry already is the new one
          rename_i hsame
          cases hchk
          left
          simp only [Bool.and_eq_true, Identity.equals, beq_iff_eq] at hsame
          exact ⟨rfl, c, rfl, by rw [hsame.1.1.1.1]; simp⟩
        · cases hchk
      · rename_i ni cached hchk
        split at hchk
        · cases hchk
        · cases hchk
          right
          simp only [shadowStep]
          refine ⟨_, applyUpsert_ipToIdentityCache .., Or.inl (by split <;> simp), fun h => ?_⟩
          have h' : (legacyOwnership c newIdentity false).modifiedByLegacyAPI = true := by
            split at h <;> exact h
          rw [legacyOwnership_modifiedByLegacyAPI, Bool.or_eq_true] at h'
          exact h'.elim (fun h => Or.inr ⟨c, rfl, h⟩) Or.inl

/-- `deleteLocked` at a CIDR key erases its entry if the source matches, and nothing else. -/
theorem deleteLocked_cidr (ipc : IPCache) (p : PrefixCluster) (source : Source) :
    (ipc.deleteLocked (.cidr p) source).ipToIdentityCache =
      match ipc.ipToIdentityCache.lookup (.cidr p) with
      | some c => if c.source = source then ipc.ipToIdentityCache.erase (.cidr p)
        else ipc.ipToIdentityCache
      | none => ipc.ipToIdentityCache := by
  unfold deleteLocked
  rcases hc : ipc.ipToIdentityCache.lookup (.cidr p) with _ | c
  · simp only [hc]
  · by_cases hs : c.source = source
    · simp only [hc, hs, bne_self_eq_false, Bool.false_eq_true, if_false, if_true]
      split <;> rfl
    · simp [hc, hs]

end IPCache

/-- What a listener keeps for a prefix: the identity, the host IP, the encryption key, the
metadata and the endpoint flags. -/
structure ListenerValue where
  id : NumericIdentity
  hostIP : Option Addr
  encryptKey : UInt8
  k8sMeta : Option K8sMetadata
  endpointFlags : UInt8
  deriving DecidableEq, Repr

/-- A listener's map after one event. -/
def applyEvent (m : AList fun _ : PrefixCluster => ListenerValue) (e : Event) :
    AList fun _ : PrefixCluster => ListenerValue :=
  match e.modType with
  | .upsert => m.insert e.cidrCluster ⟨e.newID.id, e.newHostIP, e.encryptKey, e.k8sMeta, e.endpointFlags⟩
  | .delete => m.erase e.cidrCluster

/-- A listener's map after a stream of events, from empty. -/
def listenerMap (events : List Event) : AList fun _ : PrefixCluster => ListenerValue :=
  events.foldl applyEvent ∅

/-- A /32 CIDR, then the endpoint IP of its address with the same identity and no host IP: the
endpoint upsert takes the branch that tells the listeners nothing and so leaves the CIDR
unshadowed, and the dump then sends two upserts for the one prefix. -/
theorem upsertLocked_endpoint_leaves_cidr_unshadowed :
    let a : Addr := .v4 0x0A000001
    let ipc := (empty.upsertLocked (.cidr ⟨a, 32, 0⟩) none 0 none
      ⟨16777217, .generated, false, false, noSource⟩ 0 false false).1
    let ipc := (ipc.upsertLocked (.endpoint ⟨a, 0⟩) none 0 none
      ⟨16777217, .kubernetes, false, false, noSource⟩ 0 false false).1
    (ipc.ipToIdentityCache.lookup (.cidr ⟨a, 32, 0⟩)).map (·.shadowed) = some false ∧
      IPKey.endpoint ⟨a, 0⟩ ∈ ipc.ipToIdentityCache ∧
      ipc.dumpToListenerLocked.map (·.cidrCluster) = [⟨a, 32, 0⟩, ⟨a, 32, 0⟩] := by
  decide

end Cilium.Ipcache
