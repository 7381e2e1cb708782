import Cilium.IPCache.Inject

/-! The balance of identity references kept by label injection (`doInjectLabels`,
`handleLabelInjection` and the metadata batches of `pkg/ipcache/metadata.go`).  The loop of
`doInjectLabels` takes a reference for every prefix it resolves and schedules the release of the
prefix's old identity; the writes and deletions that follow move the IP cache entries the same
way.  `LoopInv` says what the loop keeps, as sums over its maps (`AList.sumBy`); the apply phase
turns those sums into the change of `IPCache.count`.  Over whole runs, `IPCacheState.Inv` adds
that the metadata holds canonical prefixes and that every cached entry is of a prefix with
information or in the queue, which is what empties the cache once the metadata goes. -/

namespace Cilium.Ipcache

open Cilium.Policy Cilium.IdentityCache

namespace IPCache

/-- The entries whose identity is `x`. -/
def count (ipc : IPCache) (x : NumericIdentity) : Nat :=
  ipc.ipToIdentityCache.sumBy fun _ i => if i.id = x then 1 else 0

/-- `1` if the entry of `k` has identity `x`, else `0`. -/
def idIs (ipc : IPCache) (k : IPKey) (x : NumericIdentity) : Nat :=
  if (ipc.ipToIdentityCache.lookup k).map (·.id) = some x then 1 else 0

/-- No entry was marked by the legacy API. -/
def NoLegacy (ipc : IPCache) : Prop :=
  ∀ k v, ipc.ipToIdentityCache.lookup k = some v → v.modifiedByLegacyAPI = false

theorem sumAt_count (ipc : IPCache) (k : IPKey) (x : NumericIdentity) :
    AList.sumAt (fun _ (i : Identity) => if i.id = x then 1 else 0) ipc.ipToIdentityCache k =
      ipc.idIs k x := by
  unfold AList.sumAt idIs
  rcases ipc.ipToIdentityCache.lookup k with _ | v <;> simp

theorem idIs_of_lookup {ipc : IPCache} {k : IPKey} {v : Identity}
    (h : ipc.ipToIdentityCache.lookup k = some v) (x : NumericIdentity) :
    ipc.idIs k x = if v.id = x then 1 else 0 := by
  simp [idIs, h]

theorem idIs_of_lookup_eq_none {ipc : IPCache} {k : IPKey}
    (h : ipc.ipToIdentityCache.lookup k = none) (x : NumericIdentity) : ipc.idIs k x = 0 := by
  simp [idIs, h]

section upsert

variable (ipc : IPCache) (p : PrefixCluster) (hostIP : Option Addr) (hostKey : UInt8)
  (k8sMeta : Option K8sMetadata) (newIdentity : Identity) (endpointFlags : UInt8) (force : Bool)

/-- An upsert at a CIDR key moves one entry from the old identity to the new one, provided a
rejected overwrite could only have kept the same identity. -/
theorem count_upsertLocked_cidr
    (hok : force = true ∨ ∀ c, ipc.ipToIdentityCache.lookup (.cidr p) = some c →
      c.id = newIdentity.id ∨ c.source = newIdentity.source) (x : NumericIdentity) :
    (ipc.upsertLocked (.cidr p) hostIP hostKey k8sMeta newIdentity endpointFlags force false).1.count x +
      ipc.idIs (.cidr p) x = ipc.count x + if newIdentity.id = x then 1 else 0 := by
  rcases upsertLocked_cidr ipc p hostIP hostKey k8sMeta newIdentity endpointFlags force with
    ⟨hsame, c, hc, hid⟩ | ⟨v, hv, hid, -⟩
  · rw [count, hsame, ← count, idIs_of_lookup hc, hid]
  · have hsum := AList.sumBy_insert (fun _ (i : Identity) => if i.id = x then 1 else 0)
      ipc.ipToIdentityCache (.cidr p) v
    rw [sumAt_count] at hsum
    have hvid : v.id = newIdentity.id := by
      rcases hid with hid | ⟨c, hc, hvc, hforce, hrej⟩
      · exact hid
      · -- a rejected overwrite: the sources differ, so the identities agree
        rcases hok with hf | hok
        · simp [hf] at hforce
        · rcases hok c hc with h | h
          · rw [hvc, h]
          · simp [h, allowOverwrite] at hrej
    unfold count
    rw [hv, hsum, hvid]

theorem lookup_upsertLocked_cidr_ne {k : IPKey} (hk : k ≠ .cidr p) :
    (ipc.upsertLocked (.cidr p) hostIP hostKey k8sMeta newIdentity endpointFlags force
      false).1.ipToIdentityCache.lookup k = ipc.ipToIdentityCache.lookup k := by
  rcases upsertLocked_cidr ipc p hostIP hostKey k8sMeta newIdentity endpointFlags force with
    ⟨hsame, -⟩ | ⟨v, hv, -⟩
  · rw [hsame]
  · rw [hv, AList.lookup_insert_ne hk]

theorem noLegacy_upsertLocked_cidr (hno : NoLegacy ipc)
    (hnew : newIdentity.modifiedByLegacyAPI = false) :
    NoLegacy (ipc.upsertLocked (.cidr p) hostIP hostKey k8sMeta newIdentity endpointFlags force
      false).1 := by
  rcases upsertLocked_cidr ipc p hostIP hostKey k8sMeta newIdentity endpointFlags force with
    ⟨hsame, -⟩ | ⟨v, hv, -, hleg⟩
  · intro k w hw
    rw [hsame] at hw
    exact hno k w hw
  · intro k w hw
    rw [hv] at hw
    by_cases hk : k = .cidr p
    · subst hk
      simp only [AList.lookup_insert, Option.some.injEq] at hw
      subst hw
      cases h : v.modifiedByLegacyAPI
      · rfl
      · rcases hleg h with h' | ⟨c, hc, h'⟩
        · simp [hnew] at h'
        · simp [hno _ _ hc] at h'
    · rw [AList.lookup_insert_ne hk] at hw
      exact hno k w hw

end upsert

section delete

variable (ipc : IPCache) (p : PrefixCluster)

/-- Deleting the entry of a CIDR key with its own source takes it out of its identity's count. -/
theorem count_deleteLocked_cidr {c : Identity} (hc : ipc.ipToIdentityCache.lookup (.cidr p) = some c)
    (x : NumericIdentity) :
    (ipc.deleteLocked (.cidr p) c.source).count x + (if c.id = x then 1 else 0) = ipc.count x := by
  have hsum := AList.sumBy_erase (fun _ (i : Identity) => if i.id = x then 1 else 0)
    ipc.ipToIdentityCache (.cidr p)
  rw [sumAt_count, idIs_of_lookup hc] at hsum
  unfold count
  rw [deleteLocked_cidr, hc]
  simpa using hsum

theorem lookup_deleteLocked_cidr_ne (source : Source) {k : IPKey} (hk : k ≠ .cidr p) :
    (ipc.deleteLocked (.cidr p) source).ipToIdentityCache.lookup k = ipc.ipToIdentityCache.lookup k := by
  rw [deleteLocked_cidr]
  split
  · split
    · rw [AList.lookup_erase_ne hk]
    · rfl
  · rfl

theorem noLegacy_deleteLocked_cidr (source : Source) (hno : NoLegacy ipc) :
    NoLegacy (ipc.deleteLocked (.cidr p) source) := by
  intro k w hw
  rw [deleteLocked_cidr] at hw
  split at hw
  · split at hw
    · by_cases hk : k = .cidr p
      · subst hk
        simp at hw
      · rw [AList.lookup_erase_ne hk] at hw
        exact hno k w hw
    · exact hno k w hw
  · exact hno k w hw

end delete

section apply

/-- A valid prefix is keyed by itself. -/
theorem ipKey_of_isValid {p : PrefixCluster} (h : p.asPrefix.isValid = true) : p.ipKey = .cidr p := by
  simp [PrefixCluster.ipKey, h]

theorem replaceEntries_cons (ipc : IPCache) (e : (_ : PrefixCluster) × ipcacheEntry)
    (es : List ((_ : PrefixCluster) × ipcacheEntry)) (hv : e.1.asPrefix.isValid = true) :
    ipc.replaceEntries (e :: es) =
      (ipc.upsertLocked (.cidr e.1) e.2.tunnelPeer e.2.encryptKey (ipc.getK8sMetadata (.cidr e.1))
        e.2.identity e.2.endpointFlags e.2.force false).1.replaceEntries es := by
  simp only [replaceEntries, List.foldl_cons, ipKey_of_isValid hv]

theorem deleteEntries_cons (ipc : IPCache) (e : (_ : PrefixCluster) × Identity)
    (es : List ((_ : PrefixCluster) × Identity)) (hv : e.1.asPrefix.isValid = true) :
    ipc.deleteEntries (e :: es) = (ipc.deleteLocked (.cidr e.1) e.2.source).deleteEntries es := by
  simp only [deleteEntries, List.foldl_cons, ipKey_of_isValid hv]

/-- The writes of `doInjectLabels` move each written key from its old identity to the new one,
when every write is one the cache accepts, each to its own valid prefix. -/
theorem count_replaceEntries (ipc : IPCache) (es : List ((_ : PrefixCluster) × ipcacheEntry))
    (hnd : (es.map (·.1)).Nodup)
    (hes : ∀ e ∈ es, e.1.asPrefix.isValid = true ∧ (e.2.force = true ∨
      ∀ c, ipc.ipToIdentityCache.lookup e.1.ipKey = some c →
        c.id = e.2.identity.id ∨ c.source = e.2.identity.source))
    (x : NumericIdentity) :
    (ipc.replaceEntries es).count x + (es.map fun e => ipc.idIs e.1.ipKey x).sum =
      ipc.count x + (es.map fun e => if e.2.identity.id = x then 1 else 0).sum := by
  induction es generalizing ipc with
  | nil => simp [replaceEntries]
  | cons e es ih =>
    obtain ⟨hv, hok⟩ := hes e List.mem_cons_self
    rw [ipKey_of_isValid hv] at hok
    simp only [List.map_cons, List.nodup_cons, List.mem_map] at hnd
    -- the later keys are other prefixes, whose entries the first write leaves alone
    have hother : ∀ e' ∈ es, e'.1.ipKey ≠ .cidr e.1 := fun e' he' h => by
      rw [ipKey_of_isValid (hes e' (List.mem_cons_of_mem e he')).1, IPKey.cidr.injEq] at h
      exact hnd.1 ⟨e', he', h⟩
    let ipc1 := (ipc.upsertLocked (.cidr e.1) e.2.tunnelPeer e.2.encryptKey
      (ipc.getK8sMetadata (.cidr e.1)) e.2.identity e.2.endpointFlags e.2.force false).1
    have hlk : ∀ e' ∈ es, ipc1.ipToIdentityCache.lookup e'.1.ipKey =
        ipc.ipToIdentityCache.lookup e'.1.ipKey := fun e' he' =>
      lookup_upsertLocked_cidr_ne _ _ _ _ _ _ _ _ (hother e' he')
    have hih := ih ipc1 hnd.2 fun e' he' =>
      ⟨(hes e' (List.mem_cons_of_mem e he')).1, by
        rw [hlk e' he']
        exact (hes e' (List.mem_cons_of_mem e he')).2⟩
    have hfirst : ipc1.count x + ipc.idIs (.cidr e.1) x =
        ipc.count x + if e.2.identity.id = x then 1 else 0 := count_upsertLocked_cidr ipc e.1 e.2.tunnelPeer e.2.encryptKey
      (ipc.getK8sMetadata (.cidr e.1)) e.2.identity e.2.endpointFlags e.2.force hok x
    have hsame : (es.map fun e' => ipc1.idIs e'.1.ipKey x) = es.map fun e' => ipc.idIs e'.1.ipKey x :=
      List.map_congr_left fun e' he' => by simp only [idIs, hlk e' he']
    rw [replaceEntries_cons ipc e es hv, List.map_cons, List.sum_cons, List.map_cons, List.sum_cons,
      ipKey_of_isValid hv]
    show (ipc1.replaceEntries es).count x + _ = _
    rw [hsame] at hih
    omega

theorem noLegacy_replaceEntries {ipc : IPCache} {es : List ((_ : PrefixCluster) × ipcacheEntry)}
    (hno : ipc.NoLegacy)
    (hes : ∀ e ∈ es, e.1.asPrefix.isValid = true ∧ e.2.identity.modifiedByLegacyAPI = false) :
    (ipc.replaceEntries es).NoLegacy := by
  induction es generalizing ipc with
  | nil => exact hno
  | cons e es ih =>
    obtain ⟨hv, hleg⟩ := hes e List.mem_cons_self
    rw [replaceEntries_cons ipc e es hv]
    exact ih (noLegacy_upsertLocked_cidr _ _ _ _ _ _ _ _ hno hleg)
      fun e' he' => hes e' (List.mem_cons_of_mem e he')

/-- The writes leave the entries of other keys alone. -/
theorem lookup_replaceEntries {ipc : IPCache} {es : List ((_ : PrefixCluster) × ipcacheEntry)}
    (hv : ∀ e ∈ es, e.1.asPrefix.isValid = true) {k : IPKey} (hk : ∀ e ∈ es, k ≠ .cidr e.1) :
    (ipc.replaceEntries es).ipToIdentityCache.lookup k = ipc.ipToIdentityCache.lookup k := by
  induction es generalizing ipc with
  | nil => rfl
  | cons e es ih =>
    rw [replaceEntries_cons ipc e es (hv e List.mem_cons_self), ih (fun e' he' => hv e' (List.mem_cons_of_mem e he'))
      (fun e' he' => hk e' (List.mem_cons_of_mem e he'))]
    exact lookup_upsertLocked_cidr_ne _ _ _ _ _ _ _ _ (hk e List.mem_cons_self)

/-- The deletions of `doInjectLabels` take each deleted entry out of its identity's count, when
each names the cached entry of its own valid prefix. -/
theorem count_deleteEntries (ipc : IPCache) (es : List ((_ : PrefixCluster) × Identity))
    (hnd : (es.map (·.1)).Nodup)
    (hes : ∀ e ∈ es, e.1.asPrefix.isValid = true ∧ ipc.ipToIdentityCache.lookup e.1.ipKey = some e.2)
    (x : NumericIdentity) :
    (ipc.deleteEntries es).count x + (es.map fun e => if e.2.id = x then 1 else 0).sum =
      ipc.count x := by
  induction es generalizing ipc with
  | nil => simp [deleteEntries]
  | cons e es ih =>
    obtain ⟨hv, hc⟩ := hes e List.mem_cons_self
    rw [ipKey_of_isValid hv] at hc
    simp only [List.map_cons, List.nodup_cons, List.mem_map] at hnd
    have hother : ∀ e' ∈ es, e'.1.ipKey ≠ .cidr e.1 := fun e' he' h => by
      rw [ipKey_of_isValid (hes e' (List.mem_cons_of_mem e he')).1, IPKey.cidr.injEq] at h
      exact hnd.1 ⟨e', he', h⟩
    have hih := ih (ipc.deleteLocked (.cidr e.1) e.2.source) hnd.2 fun e' he' =>
      ⟨(hes e' (List.mem_cons_of_mem e he')).1, by
        rw [lookup_deleteLocked_cidr_ne _ _ _ (hother e' he')]
        exact (hes e' (List.mem_cons_of_mem e he')).2⟩
    have hfirst := count_deleteLocked_cidr ipc e.1 hc x
    rw [deleteEntries_cons ipc e es hv, List.map_cons, List.sum_cons]
    omega

theorem noLegacy_deleteEntries {ipc : IPCache} {es : List ((_ : PrefixCluster) × Identity)}
    (hno : ipc.NoLegacy) (hv : ∀ e ∈ es, e.1.asPrefix.isValid = true) :
    (ipc.deleteEntries es).NoLegacy := by
  induction es generalizing ipc with
  | nil => exact hno
  | cons e es ih =>
    rw [deleteEntries_cons ipc e es (hv e List.mem_cons_self)]
    exact ih (noLegacy_deleteLocked_cidr _ _ _ hno) fun e' he' => hv e' (List.mem_cons_of_mem e he')

/-- A key the writes leave an entry at had one before or was written. -/
theorem mem_replaceEntries {ipc : IPCache} {es : List ((_ : PrefixCluster) × ipcacheEntry)}
    (hv : ∀ e ∈ es, e.1.asPrefix.isValid = true) {k : IPKey}
    (hk : k ∈ (ipc.replaceEntries es).ipToIdentityCache) :
    k ∈ ipc.ipToIdentityCache ∨ ∃ e ∈ es, k = .cidr e.1 := by
  induction es generalizing ipc with
  | nil => exact .inl hk
  | cons e es ih =>
    rw [replaceEntries_cons ipc e es (hv e List.mem_cons_self)] at hk
    rcases ih (fun e' he' => hv e' (List.mem_cons_of_mem e he')) hk with h | ⟨e', he', rfl⟩
    · rcases upsertLocked_cidr ipc e.1 e.2.tunnelPeer e.2.encryptKey (ipc.getK8sMetadata (.cidr e.1))
        e.2.identity e.2.endpointFlags e.2.force with ⟨hsame, -⟩ | ⟨v, hv', -⟩
      · exact .inl (hsame ▸ h)
      · rw [hv', AList.mem_insert] at h
        rcases h with rfl | h
        · exact .inr ⟨e, List.mem_cons_self, rfl⟩
        · exact .inl h
    · exact .inr ⟨e', List.mem_cons_of_mem e he', rfl⟩

/-- A key the deletions leave an entry at had one before and is not of a deleted prefix, when
each deletion names the cached entry of its own valid prefix. -/
theorem mem_deleteEntries {ipc : IPCache} {es : List ((_ : PrefixCluster) × Identity)}
    (hnd : (es.map (·.1)).Nodup)
    (hes : ∀ e ∈ es, e.1.asPrefix.isValid = true ∧ ipc.ipToIdentityCache.lookup e.1.ipKey = some e.2)
    {k : IPKey} (hk : k ∈ (ipc.deleteEntries es).ipToIdentityCache) :
    k ∈ ipc.ipToIdentityCache ∧ ∀ e ∈ es, k ≠ .cidr e.1 := by
  induction es generalizing ipc with
  | nil => exact ⟨hk, fun e he => by cases he⟩
  | cons e es ih =>
    obtain ⟨hv, hc⟩ := hes e List.mem_cons_self
    rw [ipKey_of_isValid hv] at hc
    simp only [List.map_cons, List.nodup_cons, List.mem_map] at hnd
    have hother : ∀ e' ∈ es, e'.1.ipKey ≠ .cidr e.1 := fun e' he' h => by
      rw [ipKey_of_isValid (hes e' (List.mem_cons_of_mem e he')).1, IPKey.cidr.injEq] at h
      exact hnd.1 ⟨e', he', h⟩
    rw [deleteEntries_cons ipc e es hv] at hk
    obtain ⟨hk', hne⟩ := ih hnd.2 (fun e' he' =>
      ⟨(hes e' (List.mem_cons_of_mem e he')).1, by
        rw [lookup_deleteLocked_cidr_ne _ _ _ (hother e' he')]
        exact (hes e' (List.mem_cons_of_mem e he')).2⟩) hk
    -- the first deletion erased the entry of its own prefix
    have hdel : (ipc.deleteLocked (.cidr e.1) e.2.source).ipToIdentityCache =
        ipc.ipToIdentityCache.erase (.cidr e.1) := by
      rw [deleteLocked_cidr, hc]
      simp
    rw [hdel, AList.mem_erase] at hk'
    refine ⟨hk'.2, fun e' he' => ?_⟩
    rcases List.mem_cons.mp he' with rfl | he'
    · exact hk'.1
    · exact hne e' he'

/-- With no unmanaged prefix, the last scan deletes nothing. -/
theorem removeUnmanaged_empty (ipc : IPCache) (nids : List NumericIdentity) :
    ipc.removeUnmanaged ∅ nids = ipc := by
  unfold removeUnmanaged
  apply List.foldl_fixed'
  intro nid
  apply List.foldl_fixed'
  intro k
  cases k <;> simp

end apply

end IPCache



theorem releaseIdentity_of_metadataOwned (st : InjectState) (pc : PrefixCluster) {o : Identity}
    (h : IPKeyPair) (f : UInt8) (hasInfo : Bool) (newID : Option NumericIdentity)
    (ho : o.modifiedByLegacyAPI = false) :
    let st' := releaseIdentity st pc (some (o, h, f)) hasInfo newID
    st'.previouslyAllocatedIdentities = st.previouslyAllocatedIdentities.insert pc o ∧
    st'.entriesToDelete = (if hasInfo then st.entriesToDelete else st.entriesToDelete.insert pc o) ∧
    st'.entriesToReplace = st.entriesToReplace ∧ st'.unmanagedPrefixes = st.unmanagedPrefixes ∧
    st'.identityAllocator = st.identityAllocator := by
  intro st'
  simp only [st', releaseIdentity, Identity.exclusivelyOwnedByLegacyAPI,
    Identity.exclusivelyOwnedByMetadataAPI, ho, Bool.false_and, Bool.false_eq_true, if_false,
    Bool.not_false, if_true]
  cases hasInfo <;> split <;> simp

/-- The release of an old entry changes no information and no queue of the metadata. -/
theorem releaseIdentity_metadata (st : InjectState) (pc : PrefixCluster) (old : Option OldEntry)
    (hasInfo : Bool) (newID : Option NumericIdentity) :
    (releaseIdentity st pc old hasInfo newID).metadata.m = st.metadata.m ∧
      (releaseIdentity st pc old hasInfo newID).metadata.queuedPrefixes = st.metadata.queuedPrefixes := by
  unfold releaseIdentity
  split
  · exact ⟨rfl, rfl⟩
  · dsimp only
    repeat' split
    all_goals exact ⟨rfl, rfl⟩

theorem resolveIdentity_ok {cfg : DaemonConfig} {md md' : metadata} {alloc alloc' : localIdentityCache}
    {pc : PrefixCluster} {info : resourceInfo} {nid : NumericIdentity} {isNew : Bool}
    (h : resolveIdentity cfg md alloc pc info = .ok (nid, isNew, md', alloc')) :
    md'.m = md.m ∧ md'.queuedPrefixes = md.queuedPrefixes ∧ ∀ x, hasLocalScope x = true →
      alloc'.refs x = alloc.refs x + if nid = x then 1 else 0 := by
  unfold resolveIdentity allocateLocalIdentity at h
  split at h
  · split at h
    · cases h
    · rename_i i b a hal
      cases h
      exact ⟨rfl, rfl, fun x _ => localIdentityCache.refs_lookupOrCreate hal x⟩
  · simp only at h
    split at h
    · -- the host: no reference, and the host ID is not of the local scope
      cases h
      refine ⟨rfl, rfl, fun x hx => ?_⟩
      have : reservedIdentityHost ≠ x := by
        rintro rfl
        have := not_hasLocalScope_of_isReservedIdentity
          (show isReservedIdentity reservedIdentityHost = true by decide)
        simp [this] at hx
      simp [this]
    · split at h
      · cases h
      · rename_i i b a hal
        cases h
        exact ⟨rfl, rfl, fun x _ => localIdentityCache.refs_lookupOrCreate hal x⟩


section inject

variable {cfg : DaemonConfig} {eps : List Prefix} {ipc : IPCache} {st st' : InjectState}
  {pc : PrefixCluster}

/-- What one prefix of the loop can do: without metadata its old entry goes; with metadata the
identity is resolved, and an entry that already holds it is kept, while any other is replaced by
one that the IP cache accepts. -/
theorem injectPrefix_ok (old : Option OldEntry)
    (hold : (ipc.ipToIdentityCache.lookup pc.ipKey).map
      (fun o => (o, ipc.getHostIP pc.ipKey, ipc.getEndpointFlags pc.ipKey)) = old)
    (h : injectPrefix cfg eps ipc st pc = .ok st') :
    ((if eps.contains pc.asPrefix then none else st.metadata.getLocked pc) = none ∧
      st' = releaseIdentity st pc old false none) ∨
    ∃ info nid isNew md alloc,
      (if eps.contains pc.asPrefix then none else st.metadata.getLocked pc) = some info ∧
      resolveIdentity cfg st.metadata st.identityAllocator pc info = .ok (nid, isNew, md, alloc) ∧
      ((∃ o : OldEntry, old = some o ∧ o.1.id = nid ∧
          st' = releaseIdentity { st with metadata := md, identityAllocator := alloc } pc old true
            (some nid)) ∨
       ∃ e : ipcacheEntry, e.identity.id = nid ∧ e.identity.modifiedByLegacyAPI = false ∧
         (e.force = true ∨ ∀ o : OldEntry, old = some o → o.1.id = nid ∨ o.1.source = e.identity.source) ∧
         st' = releaseIdentity
           { st with metadata := md, identityAllocator := alloc, entriesToReplace := st.entriesToReplace.insert pc e }
           pc old true (some nid)) := by
  unfold injectPrefix at h
  simp only at h
  split at h
  · rename_i hinfo
    cases h
    exact .inl ⟨hinfo, by rw [hold]⟩
  · rename_i info hinfo
    split at h
    · cases h
    · rename_i nid isNew md alloc hres
      refine .inr ⟨info, nid, isNew, md, alloc, hinfo, hres, ?_⟩
      rcases hl : ipc.ipToIdentityCache.lookup pc.ipKey with _ | o
      · -- no old entry: always replaced, without force
        simp only [hl, Option.map_none] at h hold
        subst hold
        simp only [Bool.false_eq_true, if_false, Except.ok.injEq] at h
        refine .inr ⟨_, rfl, rfl, .inr ?_, h.symm⟩
        intro o ho
        cases ho
      · simp only [hl, Option.map_some] at h hold
        subst hold
        split at h
        · rename_i hun
          simp only [Bool.and_eq_true, beq_iff_eq] at hun
          cases h
          exact .inl ⟨_, rfl, hun.1.1.1.1.1, rfl⟩
        · cases h
          refine .inr ⟨_, rfl, rfl, ?_, rfl⟩
          -- without force the sources or the identities agree
          cases hf : (info.source != o.source && o.id != nid)
          · simp only [Bool.and_eq_false_iff, bne_eq_false_iff_eq] at hf
            exact .inr fun o' ho' => by
              cases ho'
              exact hf.elim (fun h => .inr h.symm) .inl
          · exact .inl rfl

/-- One prefix of the loop changes no information and no queue of the metadata. -/
theorem injectPrefix_metadata (h : injectPrefix cfg eps ipc st pc = .ok st') :
    st'.metadata.m = st.metadata.m ∧ st'.metadata.queuedPrefixes = st.metadata.queuedPrefixes := by
  rcases injectPrefix_ok _ rfl h with
    ⟨-, rfl⟩ | ⟨info, nid, isNew, md, alloc, -, hres, ⟨o, -, -, rfl⟩ | ⟨e, -, -, -, rfl⟩⟩
  · exact releaseIdentity_metadata ..
  all_goals
    obtain ⟨hm, hq, -⟩ := resolveIdentity_ok hres
    obtain ⟨hm', hq'⟩ := releaseIdentity_metadata ..
    exact ⟨hm'.trans hm, hq'.trans hq⟩

variable (cfg eps ipc) in
theorem injectLoop_metadata (pcs : List PrefixCluster) (st : InjectState) :
    (injectLoop cfg eps ipc pcs st).1.metadata.m = st.metadata.m ∧
      (injectLoop cfg eps ipc pcs st).1.metadata.queuedPrefixes = st.metadata.queuedPrefixes := by
  induction pcs generalizing st with
  | nil => exact ⟨rfl, rfl⟩
  | cons pc pcs ih =>
    simp only [injectLoop]
    split
    · exact ⟨rfl, rfl⟩
    · rename_i st' hst
      obtain ⟨h1, h2⟩ := injectPrefix_metadata hst
      obtain ⟨h3, h4⟩ := ih st'
      exact ⟨h3.trans h1, h4.trans h2⟩

variable (cfg eps ipc) in
/-- The prefixes left by the loop are among those it was given. -/
theorem injectLoop_remaining (pcs : List PrefixCluster) (st : InjectState) :
    ∀ p ∈ (injectLoop cfg eps ipc pcs st).2.1, p ∈ pcs := by
  induction pcs generalizing st with
  | nil => simp [injectLoop]
  | cons pc pcs ih =>
    simp only [injectLoop]
    split
    · exact fun p hp => hp
    · rename_i st' _
      exact fun p hp => List.mem_cons_of_mem pc (ih st' p hp)

end inject

namespace InjectState

/-- The entries to write whose identity is `x`. -/
def written (st : InjectState) (x : NumericIdentity) : Nat :=
  st.entriesToReplace.sumBy fun _ e => if e.identity.id = x then 1 else 0

/-- The cached entries of identity `x` that the writes and the deletions take away. -/
def vacated (ipc : IPCache) (st : InjectState) (x : NumericIdentity) : Nat :=
  st.entriesToReplace.sumBy (fun p _ => ipc.idIs p.ipKey x) +
    st.entriesToDelete.sumBy fun _ o => if o.id = x then 1 else 0

/-- The references on `x` that are to be given back. -/
def released (st : InjectState) (x : NumericIdentity) : Nat :=
  st.previouslyAllocatedIdentities.sumBy fun _ o => if o.id = x then 1 else 0

end InjectState

/-- What the loop of `doInjectLabels` keeps, over the prefixes `done` it went through, for the IP
cache `ipc` and the metadata `md0` it reads: the references of the allocator moved from `refs0` by
what is to be written, vacated and released; only done prefixes have decisions; what is to be
released or deleted is the cached entry; an entry to write is one the IP cache accepts; nothing is
unmanaged; and a done prefix whose entry is to be written or kept has metadata. -/
structure LoopInv (ipc : IPCache) (md0 : metadata) (refs0 : NumericIdentity → Nat)
    (done : List PrefixCluster) (st : InjectState) : Prop where
  balance : ∀ x, hasLocalScope x = true →
    st.identityAllocator.refs x + st.vacated ipc x = refs0 x + st.written x + st.released x
  fresh : ∀ p, p ∉ done → st.previouslyAllocatedIdentities.lookup p = none ∧
    st.entriesToReplace.lookup p = none ∧ st.entriesToDelete.lookup p = none
  released_old : ∀ p o, st.previouslyAllocatedIdentities.lookup p = some o →
    ipc.ipToIdentityCache.lookup p.ipKey = some o
  deleted_old : ∀ p o, st.entriesToDelete.lookup p = some o →
    ipc.ipToIdentityCache.lookup p.ipKey = some o ∧ st.entriesToReplace.lookup p = none
  replaced : ∀ p e, st.entriesToReplace.lookup p = some e → e.identity.modifiedByLegacyAPI = false ∧
    (e.force = true ∨ ∀ c, ipc.ipToIdentityCache.lookup p.ipKey = some c →
      c.id = e.identity.id ∨ c.source = e.identity.source)
  unmanaged : st.unmanagedPrefixes = ∅
  kept : ∀ p ∈ done, (st.entriesToReplace.lookup p).isSome ∨
    ((ipc.ipToIdentityCache.lookup p.ipKey).isSome ∧ st.entriesToDelete.lookup p = none) →
    (md0.getLocked p).isSome

namespace LoopInv

variable {ipc : IPCache} {md0 : metadata} {refs0 : NumericIdentity → Nat}
  {done : List PrefixCluster} {st st' : InjectState} {pc : PrefixCluster}

theorem start (md0 : metadata) (alloc : localIdentityCache) :
    LoopInv ipc md0 alloc.refs [] ⟨md0, alloc, ∅, ∅, ∅, ∅⟩ where
  balance x _ := by simp [InjectState.vacated, InjectState.written, InjectState.released]
  fresh _ _ := ⟨rfl, rfl, rfl⟩
  released_old _ _ h := by cases h
  deleted_old _ _ h := by cases h
  replaced _ _ h := by cases h
  unmanaged := rfl
  kept _ h := by cases h

/-- The invariant moves to one more prefix `pc` when the decisions change at `pc` only, and what
is decided for `pc` is as the invariant asks. -/
theorem cons_of (hinv : LoopInv ipc md0 refs0 done st) (hpc : pc ∉ done)
    (hrel : ∀ p, p ≠ pc →
      st'.previouslyAllocatedIdentities.lookup p = st.previouslyAllocatedIdentities.lookup p)
    (hrep : ∀ p, p ≠ pc → st'.entriesToReplace.lookup p = st.entriesToReplace.lookup p)
    (hdel : ∀ p, p ≠ pc → st'.entriesToDelete.lookup p = st.entriesToDelete.lookup p)
    (hbal : ∀ x, hasLocalScope x = true →
      st'.identityAllocator.refs x + st'.vacated ipc x = refs0 x + st'.written x + st'.released x)
    (hrel_pc : ∀ o, st'.previouslyAllocatedIdentities.lookup pc = some o →
      ipc.ipToIdentityCache.lookup pc.ipKey = some o)
    (hdel_pc : ∀ o, st'.entriesToDelete.lookup pc = some o →
      ipc.ipToIdentityCache.lookup pc.ipKey = some o ∧ st'.entriesToReplace.lookup pc = none)
    (hrep_pc : ∀ e, st'.entriesToReplace.lookup pc = some e → e.identity.modifiedByLegacyAPI = false ∧
      (e.force = true ∨ ∀ c, ipc.ipToIdentityCache.lookup pc.ipKey = some c →
        c.id = e.identity.id ∨ c.source = e.identity.source))
    (hun : st'.unmanagedPrefixes = ∅)
    (hkept_pc : (st'.entriesToReplace.lookup pc).isSome ∨
      ((ipc.ipToIdentityCache.lookup pc.ipKey).isSome ∧ st'.entriesToDelete.lookup pc = none) →
      (md0.getLocked pc).isSome) :
    LoopInv ipc md0 refs0 (pc :: done) st' where
  balance := hbal
  fresh p hp := by
    have hne := List.ne_of_not_mem_cons hp
    rw [hrel p hne, hrep p hne, hdel p hne]
    exact hinv.fresh p fun h => hp (List.mem_cons_of_mem pc h)
  released_old p o h := by
    by_cases hp : p = pc
    · exact hp ▸ hrel_pc o (hp ▸ h)
    · exact hinv.released_old p o (hrel p hp ▸ h)
  deleted_old p o h := by
    by_cases hp : p = pc
    · subst hp
      exact hdel_pc o h
    · rw [hrep p hp]
      exact hinv.deleted_old p o (hdel p hp ▸ h)
  replaced p e h := by
    by_cases hp : p = pc
    · subst hp
      exact hrep_pc e h
    · exact hinv.replaced p e (hrep p hp ▸ h)
  unmanaged := hun
  kept p hp h := by
    by_cases hpp : p = pc
    · subst hpp
      exact hkept_pc h
    · rw [hrep p hpp, hdel p hpp] at h
      exact hinv.kept p ((List.mem_cons.mp hp).resolve_left hpp) h

/-- A prefix with neither metadata nor an old entry: nothing to decide. -/
theorem skip (hinv : LoopInv ipc md0 refs0 done st) (hpc : pc ∉ done)
    (hl : ipc.ipToIdentityCache.lookup pc.ipKey = none) : LoopInv ipc md0 refs0 (pc :: done) st := by
  obtain ⟨hrel0, hrep0, hdel0⟩ := hinv.fresh pc hpc
  refine hinv.cons_of hpc (fun _ _ => rfl) (fun _ _ => rfl) (fun _ _ => rfl) hinv.balance
    (fun o h => ?_) (fun o h => ?_) (fun e h => ?_) hinv.unmanaged fun h => ?_
  · simp [hrel0] at h
  · simp [hdel0] at h
  · simp [hrep0] at h
  · simp [hrep0, hl] at h

/-- A prefix whose old entry goes for want of metadata. -/
theorem release_old {o : Identity} (hinv : LoopInv ipc md0 refs0 done st) (hpc : pc ∉ done)
    (hl : ipc.ipToIdentityCache.lookup pc.ipKey = some o) (ho : o.modifiedByLegacyAPI = false) :
    LoopInv ipc md0 refs0 (pc :: done)
      (releaseIdentity st pc (some (o, ipc.getHostIP pc.ipKey, ipc.getEndpointFlags pc.ipKey)) false none) := by
  obtain ⟨hrel0, hrep0, hdel0⟩ := hinv.fresh pc hpc
  obtain ⟨hrel, hdel, hrep, hun, halloc⟩ :=
    releaseIdentity_of_metadataOwned st pc (ipc.getHostIP pc.ipKey) (ipc.getEndpointFlags pc.ipKey)
      false none ho
  simp only [Bool.false_eq_true, if_false] at hdel
  refine hinv.cons_of hpc (fun p hp => by rw [hrel, AList.lookup_insert_ne hp])
    (fun p _ => by rw [hrep]) (fun p hp => by rw [hdel, AList.lookup_insert_ne hp])
    (fun x hx => ?_) (fun o' h => ?_) (fun o' h => ?_) (fun e h => ?_) (hun.trans hinv.unmanaged)
    fun h => ?_
  · -- the old reference is released and its entry deleted
    have := hinv.balance x hx
    simp only [InjectState.vacated, InjectState.written, InjectState.released] at this ⊢
    rw [hrel, hdel, hrep, halloc, AList.sumBy_insert_of_lookup_eq_none _ hrel0,
      AList.sumBy_insert_of_lookup_eq_none _ hdel0]
    omega
  · rw [hrel, AList.lookup_insert, Option.some.injEq] at h
    rw [← h, hl]
  · rw [hdel, AList.lookup_insert, Option.some.injEq] at h
    rw [← h, hl, hrep]
    exact ⟨rfl, hrep0⟩
  · simp [hrep, hrep0] at h
  · simp [hrep, hrep0, hdel] at h

/-- A prefix with no old entry whose resolved identity is to be written. -/
theorem replace_new {md : metadata} {alloc : localIdentityCache} {e : ipcacheEntry}
    (hinv : LoopInv ipc md0 refs0 done st) (hpc : pc ∉ done) (hinfo : (md0.getLocked pc).isSome)
    (hl : ipc.ipToIdentityCache.lookup pc.ipKey = none) (he : e.identity.modifiedByLegacyAPI = false)
    (hrefs : ∀ x, hasLocalScope x = true →
      alloc.refs x = st.identityAllocator.refs x + if e.identity.id = x then 1 else 0) :
    LoopInv ipc md0 refs0 (pc :: done)
      { st with metadata := md, identityAllocator := alloc,
                entriesToReplace := st.entriesToReplace.insert pc e } := by
  obtain ⟨hrel0, hrep0, hdel0⟩ := hinv.fresh pc hpc
  refine hinv.cons_of hpc (fun _ _ => rfl) (fun p hp => AList.lookup_insert_ne hp) (fun _ _ => rfl)
    (fun x hx => ?_) (fun o h => ?_) (fun o h => ?_) (fun e' h => ?_) hinv.unmanaged fun _ => hinfo
  · -- one reference more, on the identity written to an empty key
    have := hinv.balance x hx
    simp only [InjectState.vacated, InjectState.written, InjectState.released] at this ⊢
    rw [hrefs x hx, AList.sumBy_insert_of_lookup_eq_none _ hrep0,
      AList.sumBy_insert_of_lookup_eq_none _ hrep0, IPCache.idIs_of_lookup_eq_none hl]
    omega
  · simp [hrel0] at h
  · simp [hdel0] at h
  · simp only [AList.lookup_insert, Option.some.injEq] at h
    subst h
    exact ⟨he, .inr fun c hc => by simp [hl] at hc⟩

/-- A prefix whose old entry already holds the resolved identity: the new reference pays for
the release of the old one. -/
theorem keep_old {md : metadata} {alloc : localIdentityCache} {o : Identity} {nid : NumericIdentity}
    (hinv : LoopInv ipc md0 refs0 done st) (hpc : pc ∉ done) (hinfo : (md0.getLocked pc).isSome)
    (hl : ipc.ipToIdentityCache.lookup pc.ipKey = some o) (ho : o.modifiedByLegacyAPI = false)
    (hid : o.id = nid)
    (hrefs : ∀ x, hasLocalScope x = true →
      alloc.refs x = st.identityAllocator.refs x + if nid = x then 1 else 0) :
    LoopInv ipc md0 refs0 (pc :: done)
      (releaseIdentity { st with metadata := md, identityAllocator := alloc } pc
        (some (o, ipc.getHostIP pc.ipKey, ipc.getEndpointFlags pc.ipKey)) true (some nid)) := by
  obtain ⟨hrel0, hrep0, hdel0⟩ := hinv.fresh pc hpc
  obtain ⟨hrel, hdel, hrep, hun, halloc⟩ :=
    releaseIdentity_of_metadataOwned { st with metadata := md, identityAllocator := alloc } pc
      (ipc.getHostIP pc.ipKey) (ipc.getEndpointFlags pc.ipKey) true (some nid) ho
  simp only [if_true] at hdel
  dsimp only at hrel hdel hrep hun halloc
  refine hinv.cons_of hpc (fun p hp => by rw [hrel, AList.lookup_insert_ne hp])
    (fun p _ => by rw [hrep]) (fun p _ => by rw [hdel])
    (fun x hx => ?_) (fun o' h => ?_) (fun o' h => ?_) (fun e h => ?_) (hun.trans hinv.unmanaged)
    fun _ => hinfo
  · have := hinv.balance x hx
    simp only [InjectState.vacated, InjectState.written, InjectState.released] at this ⊢
    rw [hrel, hdel, hrep, halloc, hrefs x hx, AList.sumBy_insert_of_lookup_eq_none _ hrel0, hid]
    omega
  · rw [hrel, AList.lookup_insert, Option.some.injEq] at h
    rw [← h, hl]
  · simp [hdel, hdel0] at h
  · simp [hrep, hrep0] at h

/-- A prefix whose old entry is to be replaced by the resolved identity, which the IP cache
accepts: the written entry vacates the old one, whose reference is released. -/
theorem replace_old {md : metadata} {alloc : localIdentityCache} {o : Identity} {e : ipcacheEntry}
    (hinv : LoopInv ipc md0 refs0 done st) (hpc : pc ∉ done) (hinfo : (md0.getLocked pc).isSome)
    (hl : ipc.ipToIdentityCache.lookup pc.ipKey = some o) (ho : o.modifiedByLegacyAPI = false)
    (he : e.identity.modifiedByLegacyAPI = false)
    (hforce : e.force = true ∨ o.id = e.identity.id ∨ o.source = e.identity.source)
    (hrefs : ∀ x, hasLocalScope x = true →
      alloc.refs x = st.identityAllocator.refs x + if e.identity.id = x then 1 else 0) :
    LoopInv ipc md0 refs0 (pc :: done)
      (releaseIdentity
        { st with metadata := md, identityAllocator := alloc,
                  entriesToReplace := st.entriesToReplace.insert pc e } pc
        (some (o, ipc.getHostIP pc.ipKey, ipc.getEndpointFlags pc.ipKey)) true (some e.identity.id)) := by
  obtain ⟨hrel0, hrep0, hdel0⟩ := hinv.fresh pc hpc
  obtain ⟨hrel, hdel, hrep, hun, halloc⟩ :=
    releaseIdentity_of_metadataOwned
      { st with metadata := md, identityAllocator := alloc,
                entriesToReplace := st.entriesToReplace.insert pc e } pc
      (ipc.getHostIP pc.ipKey) (ipc.getEndpointFlags pc.ipKey) true (some e.identity.id) ho
  simp only [if_true] at hdel
  dsimp only at hrel hdel hrep hun halloc
  refine hinv.cons_of hpc (fun p hp => by rw [hrel, AList.lookup_insert_ne hp])
    (fun p hp => by rw [hrep, AList.lookup_insert_ne hp]) (fun p _ => by rw [hdel])
    (fun x hx => ?_) (fun o' h => ?_) (fun o' h => ?_) (fun e' h => ?_) (hun.trans hinv.unmanaged)
    fun _ => hinfo
  · -- the new reference is written where the old entry was, whose reference is released
    have := hinv.balance x hx
    simp only [InjectState.vacated, InjectState.written, InjectState.released] at this ⊢
    rw [hrel, hdel, hrep, halloc, hrefs x hx, AList.sumBy_insert_of_lookup_eq_none _ hrel0,
      AList.sumBy_insert_of_lookup_eq_none _ hrep0, AList.sumBy_insert_of_lookup_eq_none _ hrep0,
      IPCache.idIs_of_lookup hl]
    omega
  · rw [hrel, AList.lookup_insert, Option.some.injEq] at h
    rw [← h, hl]
  · simp [hdel, hdel0] at h
  · rw [hrep, AList.lookup_insert, Option.some.injEq] at h
    subst h
    refine ⟨he, hforce.imp_right fun h c hc => ?_⟩
    rw [hl, Option.some.injEq] at hc
    exact hc ▸ h

variable {cfg : DaemonConfig} {eps : List Prefix}

/-- A prefix that the loop finds metadata for has it in the metadata the loop started from. -/
theorem isSome_getLocked {md : metadata} (hm : md.m = md0.m) {info : resourceInfo}
    (h : (if eps.contains pc.asPrefix then none else md.getLocked pc) = some info) :
    (md0.getLocked pc).isSome := by
  split at h
  · cases h
  · rw [← metadata.getLocked_congr hm, h]
    rfl

/-- One prefix of the loop keeps the invariant, over an IP cache that the legacy API never
touched. -/
theorem injectPrefix (hno : ipc.NoLegacy) (hinv : LoopInv ipc md0 refs0 done st)
    (hm : st.metadata.m = md0.m) (hpc : pc ∉ done)
    (h : Ipcache.injectPrefix cfg eps ipc st pc = .ok st') :
    LoopInv ipc md0 refs0 (pc :: done) st' := by
  rcases hl : ipc.ipToIdentityCache.lookup pc.ipKey with _ | o
  · rcases injectPrefix_ok none (by rw [hl]; rfl) h with
      ⟨-, rfl⟩ | ⟨info, nid, isNew, md, alloc, hinfo, hres, ⟨o, ho, -⟩ | ⟨e, hid, he, -, rfl⟩⟩
    · exact hinv.skip hpc hl
    · cases ho
    · subst hid
      exact hinv.replace_new hpc (isSome_getLocked hm hinfo) hl he (resolveIdentity_ok hres).2.2
  · have ho := hno _ _ hl
    rcases injectPrefix_ok (some (o, ipc.getHostIP pc.ipKey, ipc.getEndpointFlags pc.ipKey))
        (by rw [hl]; rfl) h with
      ⟨-, rfl⟩ | ⟨info, nid, isNew, md, alloc, hinfo, hres, ⟨o', ho', hid, rfl⟩ |
        ⟨e, hid, he, hforce, rfl⟩⟩
    · exact hinv.release_old hpc hl ho
    · cases ho'
      exact hinv.keep_old hpc (isSome_getLocked hm hinfo) hl ho hid (resolveIdentity_ok hres).2.2
    · subst hid
      exact hinv.replace_old hpc (isSome_getLocked hm hinfo) hl ho he
        (hforce.imp_right fun h => h _ rfl) (resolveIdentity_ok hres).2.2

variable (cfg eps) in
/-- The loop keeps the invariant over prefixes met once each; when it stops at an error, the
state is the one before the failing prefix, whose prefixes are the rest. -/
theorem injectLoop (hno : ipc.NoLegacy) {pcs : List PrefixCluster}
    (hinv : LoopInv ipc md0 refs0 done st) (hm : st.metadata.m = md0.m) (hnd : (pcs ++ done).Nodup) :
    ∃ done', LoopInv ipc md0 refs0 done' (Ipcache.injectLoop cfg eps ipc pcs st).1 ∧
      (∀ p ∈ done', p ∈ pcs ∨ p ∈ done) ∧
      ∀ p ∈ pcs ++ done, p ∈ done' ∨ p ∈ (Ipcache.injectLoop cfg eps ipc pcs st).2.1 := by
  induction pcs generalizing st done with
  | nil => exact ⟨done, hinv, fun p hp => .inr hp, fun p hp => .inl hp⟩
  | cons pc pcs ih =>
    simp only [Ipcache.injectLoop]
    rw [List.cons_append] at hnd
    have hpc : pc ∉ done := fun h => (List.nodup_cons.mp hnd).1 (List.mem_append_right _ h)
    split
    · -- stopped at `pc`: the state is the one before it
      refine ⟨done, hinv, fun p hp => .inr hp, fun p hp => ?_⟩
      rcases List.mem_append.mp hp with h | h
      · exact .inr h
      · exact .inl h
    · rename_i st' hst
      obtain ⟨done', hinv', hsub, hcov⟩ := ih (hinv.injectPrefix hno hm hpc hst)
        ((injectPrefix_metadata hst).1.trans hm) (List.nodup_middle.mpr hnd)
      refine ⟨done', hinv', fun p hp => ?_, fun p hp => hcov p ?_⟩
      · rcases hsub p hp with h | h
        · exact .inl (List.mem_cons_of_mem pc h)
        · rcases List.mem_cons.mp h with rfl | h
          · exact .inl List.mem_cons_self
          · exact .inr h
      · simp only [List.mem_append, List.mem_cons] at hp ⊢
        tauto

/-- The entries to write are of done, valid prefixes, and the IP cache accepts them. -/
theorem replace_entries (hinv : LoopInv ipc md0 refs0 done st)
    (hv : ∀ p ∈ done, p.asPrefix.isValid = true) :
    ∀ e ∈ st.entriesToReplace.entries, e.1 ∈ done ∧ e.1.asPrefix.isValid = true ∧
      e.2.identity.modifiedByLegacyAPI = false ∧ (e.2.force = true ∨
        ∀ c, ipc.ipToIdentityCache.lookup e.1.ipKey = some c →
          c.id = e.2.identity.id ∨ c.source = e.2.identity.source) := by
  intro e he
  have hl := Option.mem_def.mp (AList.mem_lookup_iff.mpr he)
  have hd : e.1 ∈ done := by
    by_contra hn
    simp [(hinv.fresh _ hn).2.1] at hl
  exact ⟨hd, hv _ hd, hinv.replaced _ _ hl⟩

/-- The entries to delete are of done, valid prefixes with no entry to write, and are what the
IP cache holds once the writes are done. -/
theorem delete_entries (hinv : LoopInv ipc md0 refs0 done st)
    (hv : ∀ p ∈ done, p.asPrefix.isValid = true) :
    ∀ e ∈ st.entriesToDelete.entries, e.1 ∈ done ∧ e.1.asPrefix.isValid = true ∧
      (ipc.replaceEntries st.entriesToReplace.entries).ipToIdentityCache.lookup e.1.ipKey = some e.2 := by
  intro e he
  have hl := Option.mem_def.mp (AList.mem_lookup_iff.mpr he)
  have hd : e.1 ∈ done := by
    by_contra hn
    simp [(hinv.fresh _ hn).2.2] at hl
  obtain ⟨hold, hnone⟩ := hinv.deleted_old _ _ hl
  refine ⟨hd, hv _ hd, ?_⟩
  rw [IPCache.lookup_replaceEntries (fun e' he' => (hinv.replace_entries hv e' he').2.1), hold]
  -- no entry is written for a deleted prefix
  intro e' he' heq
  rw [IPCache.ipKey_of_isValid (hv _ hd), IPKey.cidr.injEq] at heq
  rw [heq, AList.mem_lookup_iff.mpr he'] at hnone
  cases hnone

end LoopInv

/-- Every entry of the IP cache is of a canonical prefix that `md` has information for or that is
`pending`. -/
def CoveredBy (ipc : IPCache) (md : metadata) (pending : List PrefixCluster) : Prop :=
  ∀ k ∈ ipc.ipToIdentityCache, ∃ p, k = .cidr p ∧ p.IsCanonical ∧ (p ∈ md.m ∨ p ∈ pending)

/-- Whether a call completes as the balance needs: a batch names valid prefixes only, and the
wait of the injection controller is not cancelled. -/
def Op.completes : Op → Bool
  | .upsertMetadataBatch updates => updates.all (·.prefixCluster.asPrefix.isValid)
  | .removeMetadataBatch updates => updates.all (·.prefixCluster.asPrefix.isValid)
  | .handleLabelInjection ctxDone _ => !ctxDone

namespace IPCacheState

/-- The allocator and the IP cache agree on every local-scope identity: it holds one reference
for each cached entry of it. -/
def Balanced (s : IPCacheState) : Prop :=
  ∀ x, hasLocalScope x = true → s.identityAllocator.refs x = s.ipc.count x

variable {cfg : DaemonConfig} {eps : List Prefix}

variable (cfg eps) in
/-- What a completed `doInjectLabels` does: the loop's decisions over the prefixes it got through
are written, deleted and released; the prefixes it did not get through are given back. -/
theorem doInjectLabels_false (s : IPCacheState) (prefixes : List PrefixCluster)
    (hno : s.ipc.NoLegacy) (hnd : prefixes.Nodup) :
    ∃ st done, LoopInv s.ipc s.metadata s.identityAllocator.refs done st ∧
      (∀ p ∈ done, p ∈ prefixes) ∧
      (∀ p ∈ prefixes, p ∈ done ∨ p ∈ (doInjectLabels cfg eps s false prefixes).2.1) ∧
      (doInjectLabels cfg eps s false prefixes).1 =
        ⟨(s.ipc.replaceEntries st.entriesToReplace.entries).deleteEntries st.entriesToDelete.entries,
          st.metadata, (releaseLocalIdentities st.identityAllocator
            (st.previouslyAllocatedIdentities.entries.map (·.2.id))).1⟩ := by
  obtain ⟨done, hinv, hdone, hcov⟩ := LoopInv.injectLoop cfg eps hno
    (LoopInv.start s.metadata s.identityAllocator) rfl (by simpa using hnd)
  rcases hloop : Ipcache.injectLoop cfg eps s.ipc prefixes
    ⟨s.metadata, s.identityAllocator, ∅, ∅, ∅, ∅⟩ with ⟨st, rem, err⟩
  rw [hloop] at hinv hcov
  dsimp only at hinv hcov
  refine ⟨st, done, hinv, fun p hp => (hdone p hp).resolve_right List.not_mem_nil, ?_, ?_⟩
  · simpa [doInjectLabels, hloop] using hcov
  · simp [doInjectLabels, hloop, hinv.unmanaged, IPCache.removeUnmanaged_empty]

variable (cfg eps) in
/-- A completed `doInjectLabels` writes no entry of the legacy API. -/
theorem noLegacy_doInjectLabels {s : IPCacheState} (prefixes : List PrefixCluster)
    (hno : s.ipc.NoLegacy) (hnd : prefixes.Nodup) (hv : ∀ p ∈ prefixes, p.asPrefix.isValid = true) :
    (doInjectLabels cfg eps s false prefixes).1.ipc.NoLegacy := by
  obtain ⟨st, done, hinv, hdone, -, heq⟩ := doInjectLabels_false cfg eps s prefixes hno hnd
  have hv' : ∀ p ∈ done, p.asPrefix.isValid = true := fun p hp => hv p (hdone p hp)
  have hrep := hinv.replace_entries hv'
  rw [heq]
  exact IPCache.noLegacy_deleteEntries
    (IPCache.noLegacy_replaceEntries hno fun e he => ⟨(hrep e he).2.1, (hrep e he).2.2.1⟩)
    fun e he => (hinv.delete_entries hv' e he).2.1

variable (cfg eps) in
/-- A completed `doInjectLabels` over distinct valid prefixes keeps the balance: the writes and
deletions move the cached entries as the loop moved the references, and the releases give back
the references of the entries that went. -/
theorem balanced_doInjectLabels {s : IPCacheState} (prefixes : List PrefixCluster)
    (hb : s.Balanced) (hno : s.ipc.NoLegacy) (hnd : prefixes.Nodup)
    (hv : ∀ p ∈ prefixes, p.asPrefix.isValid = true) :
    (doInjectLabels cfg eps s false prefixes).1.Balanced := by
  obtain ⟨st, done, hinv, hdone, -, heq⟩ := doInjectLabels_false cfg eps s prefixes hno hnd
  have hv' : ∀ p ∈ done, p.asPrefix.isValid = true := fun p hp => hv p (hdone p hp)
  have hrep := hinv.replace_entries hv'
  have hdel := hinv.delete_entries hv'
  rw [heq]
  intro x hx
  have hR := IPCache.count_replaceEntries s.ipc st.entriesToReplace.entries
    st.entriesToReplace.nodupKeys (fun e he => ⟨(hrep e he).2.1, (hrep e he).2.2.2⟩) x
  have hD := IPCache.count_deleteEntries (s.ipc.replaceEntries st.entriesToReplace.entries)
    st.entriesToDelete.entries st.entriesToDelete.nodupKeys (fun e he => (hdel e he).2) x
  have hbal := hinv.balance x hx
  have hrel := refs_releaseLocalIdentities st.identityAllocator
    (st.previouslyAllocatedIdentities.entries.map (·.2.id)) hx
  have hcount := AList.sumBy_ite_eq_count (fun _ (o : Identity) => o.id)
    st.previouslyAllocatedIdentities x
  simp only [InjectState.vacated, InjectState.written, InjectState.released, AList.sumBy] at hbal hcount
  rw [hb x hx] at hbal
  show (releaseLocalIdentities _ _).1.refs x =
    ((s.ipc.replaceEntries st.entriesToReplace.entries).deleteEntries st.entriesToDelete.entries).count x
  rw [hrel]
  omega

variable (cfg eps) in
/-- After a completed `doInjectLabels`, an entry of the IP cache is of a prefix the call got
through and found metadata for, or was there before and is of no prefix it got through. -/
theorem doInjectLabels_covers (s : IPCacheState) (prefixes : List PrefixCluster)
    (hno : s.ipc.NoLegacy) (hnd : prefixes.Nodup) (hv : ∀ p ∈ prefixes, p.asPrefix.isValid = true)
    {k : IPKey} (hk : k ∈ (doInjectLabels cfg eps s false prefixes).1.ipc.ipToIdentityCache) :
    (∃ p ∈ prefixes, k = .cidr p ∧ (s.metadata.getLocked p).isSome) ∨
      (k ∈ s.ipc.ipToIdentityCache ∧
        ∀ p ∈ prefixes, k = .cidr p → p ∈ (doInjectLabels cfg eps s false prefixes).2.1) := by
  obtain ⟨st, done, hinv, hdone, hcov, heq⟩ := doInjectLabels_false cfg eps s prefixes hno hnd
  have hv' : ∀ p ∈ done, p.asPrefix.isValid = true := fun p hp => hv p (hdone p hp)
  have hrep := hinv.replace_entries hv'
  have hdel := hinv.delete_entries hv'
  rw [heq] at hk
  obtain ⟨hk1, hnotdel⟩ := IPCache.mem_deleteEntries st.entriesToDelete.nodupKeys
    (fun e he => (hdel e he).2) hk
  rcases IPCache.mem_replaceEntries (fun e he => (hrep e he).2.1) hk1 with hk0 | ⟨e, he, rfl⟩
  · by_cases hd : ∃ p ∈ done, k = .cidr p
    · -- a done prefix whose entry stayed: it was kept, so it has metadata
      obtain ⟨p, hp, rfl⟩ := hd
      have hnone : st.entriesToDelete.lookup p = none := by
        rcases hdl : st.entriesToDelete.lookup p with _ | o
        · rfl
        · exact absurd rfl (hnotdel ⟨p, o⟩ (AList.mem_lookup_iff.mp hdl))
      refine .inl ⟨p, hdone p hp, rfl, hinv.kept p hp (.inr ⟨?_, hnone⟩)⟩
      rw [IPCache.ipKey_of_isValid (hv' p hp)]
      exact AList.lookup_isSome.mpr hk0
    · exact .inr ⟨hk0, fun p hp hkp => (hcov p hp).resolve_left fun hpd => hd ⟨p, hpd, hkp⟩⟩
  · -- a written entry: its prefix has metadata
    have hd := (hrep e he).1
    refine .inl ⟨e.1, hdone _ hd, rfl, hinv.kept _ hd (.inl ?_)⟩
    rw [Option.mem_def.mp (AList.mem_lookup_iff.mpr he)]
    rfl

variable (cfg eps) in
/-- `doInjectLabels` changes no information and no queue of the metadata, and gives back for
retry only prefixes it was given. -/
theorem doInjectLabels_metadata (s : IPCacheState) (ctxDone : Bool) (prefixes : List PrefixCluster) :
    (doInjectLabels cfg eps s ctxDone prefixes).1.metadata.m = s.metadata.m ∧
      (doInjectLabels cfg eps s ctxDone prefixes).1.metadata.queuedPrefixes =
        s.metadata.queuedPrefixes ∧
      ∀ p ∈ (doInjectLabels cfg eps s ctxDone prefixes).2.1, p ∈ prefixes := by
  have hmd := injectLoop_metadata cfg eps s.ipc prefixes
    ⟨s.metadata, s.identityAllocator, ∅, ∅, ∅, ∅⟩
  have hrem := injectLoop_remaining cfg eps s.ipc prefixes
    ⟨s.metadata, s.identityAllocator, ∅, ∅, ∅, ∅⟩
  rcases hloop : Ipcache.injectLoop cfg eps s.ipc prefixes
    ⟨s.metadata, s.identityAllocator, ∅, ∅, ∅, ∅⟩ with ⟨st, rem, err⟩
  rw [hloop] at hmd hrem
  cases ctxDone
  · simp only [doInjectLabels, hloop, Bool.false_eq_true, if_false]
    exact ⟨hmd.1, hmd.2, hrem⟩
  · simp only [doInjectLabels, hloop, if_true]
    exact ⟨hmd.1, hmd.2, fun p hp => hp⟩

variable (cfg eps) in
/-- The chunk loop keeps the balance over distinct valid prefixes when no wait is cancelled. -/
theorem balanced_injectChunks (cs fuel : Nat) {s : IPCacheState}
    (ids retry : List PrefixCluster) (hb : s.Balanced) (hno : s.ipc.NoLegacy) (hnd : ids.Nodup)
    (hv : ∀ p ∈ ids, p.asPrefix.isValid = true) :
    (injectChunks cfg eps false cs fuel s ids retry).1.Balanced ∧
      (injectChunks cfg eps false cs fuel s ids retry).1.ipc.NoLegacy := by
  induction fuel generalizing s ids retry with
  | zero => exact ⟨hb, hno⟩
  | succ fuel ih =>
    simp only [injectChunks]
    split
    · exact ⟨hb, hno⟩
    · rcases hdo : doInjectLabels cfg eps s false (ids.take (min ids.length cs)) with ⟨s', failed, err⟩
      have hnd' := hnd.sublist (List.take_sublist (min ids.length cs) ids)
      have hv' : ∀ p ∈ ids.take (min ids.length cs), p.asPrefix.isValid = true :=
        fun p hp => hv p (List.mem_of_mem_take hp)
      have h : s'.Balanced ∧ s'.ipc.NoLegacy := by
        have h1 := balanced_doInjectLabels cfg eps _ hb hno hnd' hv'
        have h2 := noLegacy_doInjectLabels cfg eps _ hno hnd' hv'
        rw [hdo] at h1 h2
        exact ⟨h1, h2⟩
      dsimp only
      split
      · exact h
      · exact ih _ _ h.1 h.2 (hnd.sublist (List.drop_sublist _ _)) fun p hp => hv p (List.mem_of_mem_drop hp)

variable (cfg eps) in
/-- The chunk loop changes no information and no queue of the metadata; what it gives back to
retry or leaves unreached comes from the prefixes it was given. -/
theorem injectChunks_metadata (ctxDone : Bool) (cs fuel : Nat) (s : IPCacheState)
    (ids retry : List PrefixCluster) :
    (injectChunks cfg eps ctxDone cs fuel s ids retry).1.metadata.m = s.metadata.m ∧
      (injectChunks cfg eps ctxDone cs fuel s ids retry).1.metadata.queuedPrefixes =
        s.metadata.queuedPrefixes ∧
      (∀ p ∈ (injectChunks cfg eps ctxDone cs fuel s ids retry).2.1, p ∈ retry ∨ p ∈ ids) ∧
      ∀ p ∈ (injectChunks cfg eps ctxDone cs fuel s ids retry).2.2.1, p ∈ ids := by
  induction fuel generalizing s ids retry with
  | zero => exact ⟨rfl, rfl, fun p hp => .inl hp, fun p hp => hp⟩
  | succ fuel ih =>
    simp only [injectChunks]
    split
    · exact ⟨rfl, rfl, fun p hp => .inl hp, fun p hp => by simp at hp⟩
    · have h := doInjectLabels_metadata cfg eps s ctxDone (ids.take (min ids.length cs))
      rcases hdo : doInjectLabels cfg eps s ctxDone (ids.take (min ids.length cs)) with ⟨s', failed, err⟩
      rw [hdo] at h
      obtain ⟨hm, hq, hf⟩ := h
      -- a failed prefix comes from the chunk, the rest from after it
      have hretry : ∀ p ∈ retry ++ failed, p ∈ retry ∨ p ∈ ids := fun p hp =>
        (List.mem_append.mp hp).imp_right fun h => List.mem_of_mem_take (hf p h)
      dsimp only
      split
      · exact ⟨hm, hq, hretry, fun p hp => List.mem_of_mem_drop hp⟩
      · obtain ⟨hm', hq', hr', hi'⟩ := ih s' (ids.drop (min ids.length cs)) (retry ++ failed)
        refine ⟨hm'.trans hm, hq'.trans hq, fun p hp => ?_, fun p hp => List.mem_of_mem_drop (hi' p hp)⟩
        rcases hr' p hp with h | h
        · exact hretry p h
        · exact .inr (List.mem_of_mem_drop h)

variable (cfg eps) in
/-- The chunk loop over distinct canonical prefixes leaves every entry covered by the metadata's
information, the prefixes it did not reach, or those it gives back to retry. -/
theorem injectChunks_covers (cs fuel : Nat) {md0 : Ipcache.metadata} {s : IPCacheState}
    (ids retry : List PrefixCluster) (hm : s.metadata.m = md0.m) (hno : s.ipc.NoLegacy)
    (hnd : ids.Nodup) (hids : ∀ p ∈ ids, p.IsCanonical) (hc : CoveredBy s.ipc md0 (ids ++ retry)) :
    CoveredBy (injectChunks cfg eps false cs fuel s ids retry).1.ipc md0
      ((injectChunks cfg eps false cs fuel s ids retry).2.2.1 ++
        (injectChunks cfg eps false cs fuel s ids retry).2.1) := by
  induction fuel generalizing s ids retry with
  | zero => exact hc
  | succ fuel ih =>
    simp only [injectChunks]
    split
    · rename_i hemp
      rw [List.isEmpty_iff.mp hemp] at hc
      exact hc
    · have hndC := hnd.sublist (List.take_sublist (min ids.length cs) ids)
      have hvC : ∀ p ∈ ids.take (min ids.length cs), p.asPrefix.isValid = true :=
        fun p hp => (hids p (List.mem_of_mem_take hp)).1
      have hmd := doInjectLabels_metadata cfg eps s false (ids.take (min ids.length cs))
      have hno' := noLegacy_doInjectLabels cfg eps _ hno hndC hvC
      have hcovC := fun k => doInjectLabels_covers cfg eps s _ hno hndC hvC (k := k)
      rcases hdo : doInjectLabels cfg eps s false (ids.take (min ids.length cs)) with ⟨s', failed, err⟩
      rw [hdo] at hmd hno' hcovC
      -- an entry is covered by metadata, by the chunk's failures, or as before
      have hcov' : CoveredBy s'.ipc md0 (ids.drop (min ids.length cs) ++ (retry ++ failed)) := by
        intro k hk
        rcases hcovC k hk with ⟨p, hpC, rfl, hinfo⟩ | ⟨hk0, hfail⟩
        · have hcan := hids p (List.mem_of_mem_take hpC)
          rw [metadata.getLocked_congr hm] at hinfo
          exact ⟨p, rfl, hcan, .inl (metadata.mem_of_getLocked hcan.2 hinfo)⟩
        · obtain ⟨p, rfl, hcan, hp⟩ := hc k hk0
          refine ⟨p, rfl, hcan, hp.imp_right fun hp => ?_⟩
          rw [← List.take_append_drop (min ids.length cs) ids] at hp
          simp only [List.mem_append] at hp ⊢
          rcases hp with (hpC | hpR) | hpr
          · exact .inr (.inr (hfail p hpC rfl))
          · exact .inl hpR
          · exact .inr (.inl hpr)
      dsimp only
      split
      · exact hcov'
      · exact ih _ _ (hmd.1.trans hm) hno' (hnd.sublist (List.drop_sublist _ _))
          (fun p hp => hids p (List.mem_of_mem_drop hp)) hcov'

/-- Every entry of the IP cache is of a canonical prefix that the metadata has information for
or queues. -/
def Covered (s : IPCacheState) : Prop :=
  CoveredBy s.ipc s.metadata s.metadata.queuedPrefixes.keys

/-- What every state that the calls reach keeps: the balance of references, no entry of the
legacy API, canonical prefixes in the metadata, and every entry covered by it. -/
structure Inv (s : IPCacheState) : Prop where
  balanced : s.Balanced
  noLegacy : s.ipc.NoLegacy
  valid : s.metadata.Valid
  covered : s.Covered

/-- Queueing prefixes again after the chunk loop touches only the queue. -/
theorem requeue (s : IPCacheState) (l1 l2 : List PrefixCluster) :
    let s3 := if l1.isEmpty then s else { s with metadata := s.metadata.enqueuePrefixUpdates l1 }
    let s4 := if l2.isEmpty then s3 else { s3 with metadata := s3.metadata.enqueuePrefixUpdates l2 }
    s4.ipc = s.ipc ∧ s4.identityAllocator = s.identityAllocator ∧ s4.metadata.m = s.metadata.m ∧
      ∀ p, p ∈ s4.metadata.queuedPrefixes ↔ p ∈ s.metadata.queuedPrefixes ∨ p ∈ l1 ∨ p ∈ l2 := by
  intro s3 s4
  have h3 : s3.ipc = s.ipc ∧ s3.identityAllocator = s.identityAllocator ∧
      s3.metadata.m = s.metadata.m ∧
      ∀ p, p ∈ s3.metadata.queuedPrefixes ↔ p ∈ s.metadata.queuedPrefixes ∨ p ∈ l1 := by
    simp only [s3]
    split
    · rename_i h
      simp [List.isEmpty_iff.mp h]
    · simp [metadata.mem_enqueuePrefixUpdates]
  simp only [s4]
  split
  · rename_i h
    simpa [List.isEmpty_iff.mp h] using h3
  · simp [metadata.mem_enqueuePrefixUpdates, h3, or_assoc]

/-- A run of the injection controller whose waits are not cancelled keeps the invariant: the
queued prefixes are distinct and canonical, the chunks keep the balance, and what a chunk leaves
uncovered is queued again. -/
theorem Inv.handleLabelInjection {s : IPCacheState} (h : s.Inv) :
    (Ipcache.handleLabelInjection cfg eps s false).1.Inv := by
  obtain ⟨hb, hno, hvalid, hcov⟩ := h
  have hids : ∀ p ∈ s.metadata.queuedPrefixes.keys, p.IsCanonical := fun p hp =>
    hvalid.queued_canonical p (AList.mem_keys.mpr hp)
  unfold Ipcache.handleLabelInjection
  rcases hd : s.metadata.dequeuePrefixUpdates with ⟨ids, rev, md1⟩
  simp only [metadata.dequeuePrefixUpdates, Prod.mk.injEq] at hd
  obtain ⟨rfl, rfl, rfl⟩ := hd
  dsimp only
  have hbal := balanced_injectChunks cfg eps
    (if s.metadata.queuedRevision = 1 then s.metadata.queuedPrefixes.keys.length else chunkSize)
    (s.metadata.queuedPrefixes.keys.length + 1) s.metadata.queuedPrefixes.keys []
    (s := { s with metadata := { s.metadata with queuedPrefixes := ∅, queuedRevision := s.metadata.queuedRevision + 1 } })
    hb hno s.metadata.queuedPrefixes.keys_nodup fun p hp => (hids p hp).1
  have hmd := injectChunks_metadata cfg eps false
    (if s.metadata.queuedRevision = 1 then s.metadata.queuedPrefixes.keys.length else chunkSize)
    (s.metadata.queuedPrefixes.keys.length + 1)
    { s with metadata := { s.metadata with queuedPrefixes := ∅, queuedRevision := s.metadata.queuedRevision + 1 } }
    s.metadata.queuedPrefixes.keys []
  have hcov' := injectChunks_covers cfg eps
    (if s.metadata.queuedRevision = 1 then s.metadata.queuedPrefixes.keys.length else chunkSize)
    (s.metadata.queuedPrefixes.keys.length + 1)
    (s := { s with metadata := { s.metadata with queuedPrefixes := ∅, queuedRevision := s.metadata.queuedRevision + 1 } })
    s.metadata.queuedPrefixes.keys [] rfl hno s.metadata.queuedPrefixes.keys_nodup hids
    (by rw [List.append_nil]; exact hcov)
  rcases hc : injectChunks cfg eps false
    (if s.metadata.queuedRevision = 1 then s.metadata.queuedPrefixes.keys.length else chunkSize)
    (s.metadata.queuedPrefixes.keys.length + 1)
    { s with metadata := { s.metadata with queuedPrefixes := ∅, queuedRevision := s.metadata.queuedRevision + 1 } }
    s.metadata.queuedPrefixes.keys [] with ⟨s2, retry, rest, err⟩
  rw [hc] at hbal hmd hcov'
  obtain ⟨hm, hq, hretry, hrest⟩ := hmd
  dsimp only at hbal hcov' ⊢
  -- the final state is `s2` with the failed and the unreached prefixes queued again
  have hqueue : ∀ p, p ∈ retry ∨ p ∈ rest → p ∈ s.metadata.queuedPrefixes.keys := by
    rintro p (h | h)
    · exact (hretry p h).resolve_left List.not_mem_nil
    · exact hrest p h
  obtain ⟨hipc, halloc, hm4, hq4⟩ := requeue s2 retry rest
  refine ⟨fun x hx => ?_, ?_, ⟨fun p hp => ?_, fun p hp => ?_⟩, fun k hk => ?_⟩
  · rw [hipc, halloc]
    exact hbal.1 x hx
  · rw [hipc]
    exact hbal.2
  · rw [hm4, hm] at hp
    exact hvalid.m_canonical p hp
  · rw [hq4, hq] at hp
    rcases hp with h | h
    · cases h
    · exact hids p (hqueue p h)
  · rw [hipc] at hk
    obtain ⟨p, rfl, hcan, hp⟩ := hcov' _ hk
    refine ⟨p, rfl, hcan, ?_⟩
    rw [hm4, hm, ← AList.mem_keys, hq4]
    rcases hp with h | h
    · exact .inl h
    · rcases List.mem_append.mp h with h | h
      · exact .inr (.inr (.inr h))
      · exact .inr (.inr (.inl h))

theorem Inv.step {s : IPCacheState} {op : Op} (h : s.Inv) (hop : op.completes = true) :
    (step cfg s op).Inv := by
  obtain ⟨hb, hno, hvalid, hcov⟩ := h
  cases op with
  | upsertMetadataBatch updates =>
    have hu : ∀ u ∈ updates, u.prefixCluster.asPrefix.isValid = true := by
      simpa [Op.completes] using hop
    refine ⟨hb, hno, upsertMetadataBatch_valid hvalid hu, fun k hk => ?_⟩
    obtain ⟨p, rfl, hcan, hp⟩ := hcov k hk
    refine ⟨p, rfl, hcan, ?_⟩
    obtain ⟨hm, hq⟩ := upsertMetadataBatch_mono s.metadata updates (p := p)
    rcases hp with hp | hp
    · exact .inl (hm hp)
    · exact .inr (AList.mem_keys.mp (hq (AList.mem_keys.mpr hp)))
  | removeMetadataBatch updates =>
    have hu : ∀ u ∈ updates, u.prefixCluster.asPrefix.isValid = true := by
      simpa [Op.completes] using hop
    refine ⟨hb, hno, removeMetadataBatch_valid hvalid hu, fun k hk => ?_⟩
    obtain ⟨p, rfl, hcan, hp⟩ := hcov k hk
    refine ⟨p, rfl, hcan, ?_⟩
    obtain ⟨hm, hq⟩ := removeMetadataBatch_covers s.metadata hu (p := p)
    rcases hp with hp | hp
    · exact (hm hp).imp_right AList.mem_keys.mp
    · exact .inr (AList.mem_keys.mp (hq (AList.mem_keys.mpr hp)))
  | handleLabelInjection ctxDone endpointPrefixes =>
    simp only [Op.completes, Bool.not_eq_true'] at hop
    subst hop
    exact Inv.handleLabelInjection ⟨hb, hno, hvalid, hcov⟩

theorem Inv.run {s : IPCacheState} {ops : List Op} (h : s.Inv)
    (hops : ∀ op ∈ ops, op.completes = true) : (run cfg s ops).Inv := by
  induction ops generalizing s with
  | nil => exact h
  | cons op ops ih =>
    exact ih (h.step (hops op List.mem_cons_self)) fun op' h' => hops op' (List.mem_cons_of_mem op h')

theorem Inv.initial : initial.Inv where
  balanced x _ := rfl
  noLegacy k v h := by cases h
  valid := ⟨fun p h => (by cases h), fun p h => (by cases h)⟩
  covered k h := by cases h

end IPCacheState

open IPCacheState in
/-- Label injection balances identity references: after any sequence of completed calls from
the start, a local-scope identity holds one reference for each entry of the IP cache that maps to
it, so it keeps a reference while an entry maps to it, and none once the metadata is empty and
nothing is queued. -/
theorem run_refs_eq_count (cfg : DaemonConfig) (ops : List Op)
    (hops : ∀ op ∈ ops, op.completes = true) (x : NumericIdentity) (hx : hasLocalScope x = true) :
    let s := run cfg initial ops
    s.identityAllocator.refs x = s.ipc.count x ∧
      (0 < s.ipc.count x → 0 < s.identityAllocator.refs x) ∧
      (s.metadata.m = ∅ → s.metadata.queuedPrefixes = ∅ → s.identityAllocator.refs x = 0) := by
  intro s
  have h : s.Inv := Inv.initial.run hops
  have hbal := h.balanced x hx
  refine ⟨hbal, fun hc => hbal ▸ hc, fun hm hq => ?_⟩
  rw [hbal]
  -- an entry left would be covered by information or by the queue, and both are empty
  refine AList.sumBy_eq_zero fun k v hk => ?_
  obtain ⟨p, rfl, -, hp⟩ := h.covered k (AList.lookup_isSome.mp (by rw [hk]; rfl))
  rw [hm, hq] at hp
  simp at hp

theorem run_refs_eq_count_one_prefix :
    let cfg : DaemonConfig := ⟨true, false, [], false⟩
    let ops : List Op := [.upsertMetadataBatch [⟨⟨.v4 0x0A000000, 8, 0⟩, .kubernetes, "web",
      [.labels (Labels.single ⟨"app", "web", "k8s"⟩)], false⟩], .handleLabelInjection false []]
    (∀ op ∈ ops, op.completes = true) ∧ hasLocalScope 16777217 = true ∧
      let s := IPCacheState.run cfg IPCacheState.initial ops
      s.identityAllocator.refs 16777217 = s.ipc.count 16777217 ∧
        (0 < s.ipc.count 16777217 → 0 < s.identityAllocator.refs 16777217) ∧
        (s.metadata.m = ∅ → s.metadata.queuedPrefixes = ∅ → s.identityAllocator.refs 16777217 = 0) :=
  ⟨by decide, by decide, run_refs_eq_count _ _ (by decide) _ (by decide)⟩

end Cilium.Ipcache
