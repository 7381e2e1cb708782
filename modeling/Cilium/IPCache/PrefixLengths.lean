import Cilium.IPCache.IPCache
import Cilium.Counter.Prefixes

/-! The prefix lengths of the IP cache (`ipcache.go`): `upsertLocked` adds the prefix of its key
to `prefixLengths` whenever it updates the maps, `deleteLocked` deletes it whenever it removes the
key, and `LookupSecIDByIP` tries the address itself and then its prefix at each counted length,
longest first.  The cache of `IPCache.lean` is kept as it is, with the counter beside it. -/

namespace Cilium.Ipcache

open Cilium.Counter

/-- `IPCache` with its `prefixLengths`. -/
structure IPCacheWithLengths where
  cache : IPCache
  prefixLengths : PrefixLengthCounter

/-- `NewIPCache`: no entries, and the default prefix lengths. -/
def newIPCache : IPCacheWithLengths := ⟨empty, defaultPrefixLengthCounter⟩

namespace IPCache

/-- Whether `upsertLocked` gets past its checks to the update of the maps: the key is valid, and
an entry it has is neither protected by its source nor already the new one. -/
def upsertUpdates (ipc : IPCache) (ip : IPKey) (hostIP : Option Addr) (hostKey : UInt8)
    (k8sMeta : Option K8sMetadata) (newIdentity : Identity) (endpointFlags : UInt8)
    (force fromLegacyAPI : Bool) : Bool :=
  ip.prefixCluster.isSome &&
    match ipc.ipToIdentityCache.lookup ip with
    | none => true
    | some cached =>
      let newIdentity := legacyOwnership cached newIdentity fromLegacyAPI
      let oldHost := ipc.getHostIP ip
      let metaEqual := k8sMetadataEqual (some ((ipc.getK8sMetadata ip).getD ⟨"", "", []⟩)) k8sMeta
      (force || allowOverwrite cached.source newIdentity.source) &&
        !(cached.equals newIdentity && oldHost.ip == hostIP && hostKey == oldHost.key &&
          metaEqual && ipc.getEndpointFlags ip == endpointFlags)

/-- Whether `deleteLocked` removes the key: it has an entry of that source, and is valid. -/
def deleteUpdates (ipc : IPCache) (ip : IPKey) (source : Source) : Bool :=
  ip.prefixCluster.isSome && (ipc.ipToIdentityCache.lookup ip).any (·.source == source)

/-- `lookupByIPRLocked`, at the key that `String()` of the address spells. -/
def lookupByIPRLocked (ipc : IPCache) (ip : Addr) : Option Identity :=
  ipc.ipToIdentityCache.lookup (.endpoint ⟨ip, 0⟩)

/-- The address that `net.IP.String()` spells: an IPv4-mapped IPv6 address in dotted decimal. -/
def netIPAddr (a : Addr) : Addr := a.unmap

/-- `LookupByPrefixRLocked`, at the text of a prefix: for a full-length prefix, first the key of
its address as `net.IP` spells it. -/
def lookupByPrefixRLocked (ipc : IPCache) (p : Prefix) : Option Identity :=
  let host := if p.bits = p.addr.bitLen then
      ipc.ipToIdentityCache.lookup (.endpoint ⟨netIPAddr p.addr, 0⟩)
    else none
  host.or (ipc.ipToIdentityCache.lookup (.cidr ⟨p.addr, p.bits, 0⟩))

/-! ### The keys that an upsert or a delete leaves -/

theorem shadowStep_eq_none_iff (ipc : IPCache) (ip : IPKey) (found : Bool) (hostIP : Option Addr)
    (newIdentity : Identity) (oldHostIP : Option Addr) (oldIdentity : Option Identity) :
    ipc.shadowStep ip found hostIP newIdentity oldHostIP oldIdentity = none ↔ ip = .invalid := by
  unfold shadowStep
  cases ip with
  | cidr p => simp
  | endpoint a =>
    simp only [reduceCtorEq, iff_false]
    split_ifs
    · simp
    · split
      · simp
      · split_ifs <;> simp
  | invalid => simp

/-- The shadowing step only rewrites the entry of a key the cache already has. -/
theorem mem_of_shadowStep {ipc : IPCache} {ip : IPKey} {found : Bool} {hostIP : Option Addr}
    {newIdentity : Identity} {oldHostIP : Option Addr} {oldIdentity : Option Identity}
    {r : PrefixCluster × Identity × IPCache × Option Addr × Option Identity × Bool}
    (h : ipc.shadowStep ip found hostIP newIdentity oldHostIP oldIdentity = some r) (k : IPKey) :
    k ∈ r.2.2.1.ipToIdentityCache ↔ k ∈ ipc.ipToIdentityCache := by
  unfold shadowStep at h
  cases ip with
  | cidr p =>
    cases h
    rfl
  | endpoint a =>
    dsimp only at h
    split_ifs at h
    · cases h
      rfl
    · split at h
      · cases h
        rfl
      · rename_i cidrIdentity hcidr
        split_ifs at h
        · cases h
          rw [AList.mem_insert]
          constructor
          · rintro (rfl | hk)
            · exact AList.lookup_isSome.mp (by rw [hcidr]; rfl)
            · exact hk
          · exact Or.inr
        · cases h
          rfl
  | invalid => cases h

theorem mem_applyUpsert (ipc : IPCache) (ip : IPKey) (cached : Option Identity)
    (p : PrefixCluster) (hostIP : Option Addr) (hostKey : UInt8) (k8sMeta : Option K8sMetadata)
    (newIdentity : Identity) (endpointFlags : UInt8) (metaEqual : Bool) (oldHostIP : Option Addr)
    (oldIdentity : Option Identity) (callbackListeners : Bool) (k : IPKey) :
    k ∈ (ipc.applyUpsert ip cached p hostIP hostKey k8sMeta newIdentity endpointFlags metaEqual
      oldHostIP oldIdentity callbackListeners).ipToIdentityCache ↔
      k = ip ∨ k ∈ ipc.ipToIdentityCache := by
  rw [applyUpsert_ipToIdentityCache, AList.mem_insert]

/-- `upsertLocked` adds its key when it updates the maps, and no other key ever. -/
theorem mem_upsertLocked (ipc : IPCache) (ip : IPKey) (hostIP : Option Addr) (hostKey : UInt8)
    (k8sMeta : Option K8sMetadata) (newIdentity : Identity) (endpointFlags : UInt8)
    (force fromLegacyAPI : Bool) (k : IPKey) :
    k ∈ (ipc.upsertLocked ip hostIP hostKey k8sMeta newIdentity endpointFlags force
        fromLegacyAPI).1.ipToIdentityCache ↔
      k ∈ ipc.ipToIdentityCache ∨ (ipc.upsertUpdates ip hostIP hostKey k8sMeta newIdentity
        endpointFlags force fromLegacyAPI = true ∧ k = ip) := by
  unfold upsertLocked upsertUpdates
  rcases hc : ipc.ipToIdentityCache.lookup ip with _ | c
  · -- a new key: the shadowing step, then the update unless the key is invalid
    dsimp only
    split
    · rename_i hs
      obtain rfl := (shadowStep_eq_none_iff _ _ _ _ _ _ _).mp hs
      simp [IPKey.prefixCluster]
    · rename_i p ni ipc' ohip oid cb hs
      have hvalid : ip.prefixCluster.isSome = true := by
        cases ip with
        | invalid => simp [shadowStep] at hs
        | _ => rfl
      rw [mem_applyUpsert, mem_of_shadowStep hs, hvalid]
      simp only [Bool.and_true, true_and]
      exact or_comm
  · have hip : ip ∈ ipc.ipToIdentityCache := AList.lookup_isSome.mp (by rw [hc]; rfl)
    dsimp only
    split_ifs with hrej hsame
    · -- a rejected overwrite rewrites the entry of the key
      simp only [Bool.and_eq_true, Bool.not_eq_true'] at hrej
      simp only [AList.mem_insert, hrej.1, hrej.2, Bool.or_false, Bool.false_and, Bool.and_false,
        Bool.false_eq_true, false_and, or_false]
      constructor
      · rintro (rfl | hk)
        · exact hip
        · exact hk
      · exact Or.inr
    · -- the entry already is the new one
      simp only [hsame, Bool.not_true, Bool.and_false, Bool.false_eq_true, false_and, or_false]
    · simp only [Bool.not_eq_true] at hrej hsame
      have hgo : (force || allowOverwrite c.source (legacyOwnership c newIdentity fromLegacyAPI).source)
          = true := by
        revert hrej
        cases force <;> cases allowOverwrite c.source (legacyOwnership c newIdentity fromLegacyAPI).source
          <;> simp
      dsimp only
      split
      · rename_i hs
        obtain rfl := (shadowStep_eq_none_iff _ _ _ _ _ _ _).mp hs
        simp [IPKey.prefixCluster]
      · rename_i p ni ipc' ohip oid cb hs
        have hvalid : ip.prefixCluster.isSome = true := by
          cases ip with
          | invalid => simp [shadowStep] at hs
          | _ => rfl
        rw [mem_applyUpsert, mem_of_shadowStep hs, hvalid, hgo, hsame]
        simp only [Bool.not_false, Bool.and_self, true_and]
        exact or_comm

@[simp] theorem unindex_ipToIdentityCache (ipc : IPCache) (id : Policy.NumericIdentity) (ip : IPKey) :
    (ipc.unindex id ip).ipToIdentityCache = ipc.ipToIdentityCache := rfl

@[simp] theorem notify_ipToIdentityCache (ipc : IPCache) (e : Event) :
    (ipc.notify e).ipToIdentityCache = ipc.ipToIdentityCache := rfl

/-- `deleteLocked` removes its key when its checks pass, and no other key ever. -/
theorem mem_deleteLocked (ipc : IPCache) (ip : IPKey) (source : Source) (k : IPKey) :
    k ∈ (ipc.deleteLocked ip source).ipToIdentityCache ↔
      k ∈ ipc.ipToIdentityCache ∧ ¬(ipc.deleteUpdates ip source = true ∧ k = ip) := by
  unfold deleteLocked deleteUpdates
  rcases hc : ipc.ipToIdentityCache.lookup ip with _ | c
  · simp
  · have hip : ip ∈ ipc.ipToIdentityCache := AList.lookup_isSome.mp (by rw [hc]; rfl)
    dsimp only
    split_ifs with hs
    · -- an entry of another source stays
      simp only [bne_iff_ne, ne_eq] at hs
      simp [hs]
    · simp only [bne_iff_ne, ne_eq, not_not] at hs
      cases ip with
      | invalid => simp [IPKey.prefixCluster]
      | cidr p =>
        simp only [Option.any_some, hs, beq_self_eq_true, IPKey.prefixCluster, Option.isSome_some,
          Bool.and_self, true_and]
        split_ifs <;>
          simp only [notify_ipToIdentityCache, unindex_ipToIdentityCache, AList.mem_erase, and_comm]
      | endpoint a =>
        simp only [Option.any_some, hs, beq_self_eq_true, IPKey.prefixCluster, Option.isSome_some,
          Bool.and_self, true_and]
        -- a revived CIDR keeps its key
        rcases hcidr : ipc.ipToIdentityCache.lookup (.cidr a.asPrefixCluster) with _ | cidrIdentity
        · simp only [hcidr, notify_ipToIdentityCache, unindex_ipToIdentityCache, AList.mem_erase,
            and_comm, if_true]
        · have hcip : IPKey.cidr a.asPrefixCluster ∈ ipc.ipToIdentityCache :=
            AList.lookup_isSome.mp (by rw [hcidr]; rfl)
          simp only [hcidr]
          split_ifs
          · simp only [notify_ipToIdentityCache, unindex_ipToIdentityCache, AList.mem_erase,
              AList.mem_insert, if_true]
            constructor
            · rintro ⟨hne, rfl | hk⟩
              · exact ⟨hcip, hne⟩
              · exact ⟨hk, hne⟩
            · rintro ⟨hk, hne⟩
              exact ⟨hne, Or.inr hk⟩
          · simp only [unindex_ipToIdentityCache, AList.mem_erase, and_comm, Bool.false_eq_true,
              if_false]

end IPCache

namespace IPCacheWithLengths

def upsertLocked (s : IPCacheWithLengths) (ip : IPKey) (hostIP : Option Addr) (hostKey : UInt8)
    (k8sMeta : Option K8sMetadata) (newIdentity : Identity) (endpointFlags : UInt8)
    (force fromLegacyAPI : Bool) : IPCacheWithLengths × Option UpsertError :=
  let r := s.cache.upsertLocked ip hostIP hostKey k8sMeta newIdentity endpointFlags force
    fromLegacyAPI
  let prefixLengths :=
    match s.cache.upsertUpdates ip hostIP hostKey k8sMeta newIdentity endpointFlags force
        fromLegacyAPI, ip.prefixCluster with
    | true, some p => (s.prefixLengths.add [p.asPrefix]).1
    | _, _ => s.prefixLengths
  (⟨r.1, prefixLengths⟩, r.2)

def deleteLocked (s : IPCacheWithLengths) (ip : IPKey) (source : Source) : IPCacheWithLengths :=
  let prefixLengths :=
    match s.cache.deleteUpdates ip source, ip.prefixCluster with
    | true, some p => (s.prefixLengths.delete [p.asPrefix]).1
    | _, _ => s.prefixLengths
  ⟨s.cache.deleteLocked ip source, prefixLengths⟩

/-- `LookupSecIDByIP`: the entry of the address, or else of its prefix at the first counted
length of its family, from the longest. -/
def lookupSecIDByIP (s : IPCacheWithLengths) (ip : Addr) : Option Identity :=
  match s.cache.lookupByIPRLocked ip with
  | some id => some id
  | none =>
    let (ipv6Prefixes, ipv4Prefixes) := s.prefixLengths.toBPFData
    let prefixes := match ip with
      | .v4 _ => ipv4Prefixes
      | .v6 _ => ipv6Prefixes
    prefixes.findSome? fun prefixLen => (ip.prefixOf prefixLen).bind s.cache.lookupByPrefixRLocked

end IPCacheWithLengths

/-! ### Every key's length is counted -/

/-- A key as the callers of this model spell it: without cluster ID, and a CIDR prefix valid and
masked. -/
def IPKey.Canonical : IPKey → Prop
  | .cidr p => p.clusterID = 0 ∧ p.addr.prefixOf p.bits = some p.asPrefix
  | .endpoint a => a.clusterID = 0
  | .invalid => True

instance (k : IPKey) : Decidable k.Canonical := by
  cases k <;> unfold IPKey.Canonical <;> infer_instance

/-- Whether the prefix of a key has the family of `a` and the length `L`. -/
def IPKey.hasLength (k : IPKey) (a : Addr) (L : ℕ) : Bool :=
  match k.prefixCluster with
  | some p => p.addr.bitLen == a.bitLen && p.bits == L
  | none => false

/-- The number of keys of the cache whose prefix has the family of `a` and the length `L`. -/
def keyCount (m : AList fun _ : IPKey => Identity) (a : Addr) (L : ℕ) : ℕ :=
  (m.keys.toFinset.filter fun k => k.hasLength a L = true).card

/-- The default lengths: the world prefix and a host. -/
def defaultCount (a : Addr) (L : ℕ) : ℕ := if L = 0 ∨ L = a.bitLen then 1 else 0

/-- What every run keeps: the counter within its limits, canonical keys, and each length counted
at least once for each key of it and for a default length. -/
structure LengthsInv (s : IPCacheWithLengths) : Prop where
  bounded : s.prefixLengths.Bounded
  canonical : ∀ k ∈ s.cache.ipToIdentityCache, k.Canonical
  counted : ∀ a L, keyCount s.cache.ipToIdentityCache a L + defaultCount a L ≤
    (s.prefixLengths.counterOf a).count L

theorem keyCount_empty (a : Addr) (L : ℕ) : keyCount (∅ : AList fun _ : IPKey => Identity) a L = 0 :=
  rfl

theorem LengthsInv.init : LengthsInv newIPCache where
  bounded := bounded_defaultPrefixLengthCounter
  canonical := fun k hk => absurd hk (AList.notMem_empty k)
  counted := fun a L => by
    show keyCount ∅ a L + defaultCount a L ≤ (defaultPrefixLengthCounter.counterOf a).count L
    rw [keyCount_empty, Nat.zero_add, defaultCount, count_defaultPrefixLengthCounter]

theorem keyCount_of_mem_iff {m m' : AList fun _ : IPKey => Identity} {ip : IPKey}
    (h : ∀ k, k ∈ m' ↔ k ∈ m ∨ k = ip) (a : Addr) (L : ℕ) :
    keyCount m' a L ≤ keyCount m a L + if ip.hasLength a L then 1 else 0 := by
  have hset : m'.keys.toFinset = insert ip m.keys.toFinset := by
    ext k
    simp only [List.mem_toFinset, Finset.mem_insert]
    show k ∈ m' ↔ k = ip ∨ k ∈ m
    rw [h k]
    exact or_comm
  unfold keyCount
  rw [hset, Finset.filter_insert]
  split_ifs with hip
  · exact Finset.card_insert_le _ _
  · exact Nat.le_add_right _ _

theorem keyCount_erase {m m' : AList fun _ : IPKey => Identity} {ip : IPKey}
    (h : ∀ k, k ∈ m' ↔ k ∈ m ∧ k ≠ ip) (hip : ip ∈ m) (a : Addr) (L : ℕ) :
    keyCount m' a L = keyCount m a L - if ip.hasLength a L then 1 else 0 := by
  have hset : m'.keys.toFinset = m.keys.toFinset.erase ip := by
    ext k
    simp only [List.mem_toFinset, Finset.mem_erase]
    show k ∈ m' ↔ k ≠ ip ∧ k ∈ m
    rw [h k]
    exact and_comm
  unfold keyCount
  rw [hset, Finset.filter_erase]
  split_ifs with hl
  · exact Finset.card_erase_of_mem (Finset.mem_filter.mpr
      ⟨List.mem_toFinset.mpr (AList.mem_keys.mpr hip), hl⟩)
  · have hnot : ip ∉ m.keys.toFinset.filter fun k => k.hasLength a L = true :=
      fun hm => hl (Finset.mem_filter.mp hm).2
    rw [Finset.erase_eq_of_notMem hnot]
    rfl

theorem hasLength_iff {ip : IPKey} {p : PrefixCluster} (h : ip.prefixCluster = some p)
    (a : Addr) (L : ℕ) :
    ip.hasLength a L = true ↔ p.asPrefix.addr.bitLen = a.bitLen ∧ L = p.asPrefix.bits := by
  simp only [IPKey.hasLength, h, PrefixCluster.asPrefix, Bool.and_eq_true, beq_iff_eq]
  exact and_congr_right fun _ => eq_comm

theorem keyCount_congr {m m' : AList fun _ : IPKey => Identity} (h : ∀ k, k ∈ m' ↔ k ∈ m)
    (a : Addr) (L : ℕ) : keyCount m' a L = keyCount m a L := by
  have hset : m'.keys.toFinset = m.keys.toFinset := by
    ext k
    simp only [List.mem_toFinset]
    exact h k
  unfold keyCount
  rw [hset]

theorem one_le_keyCount {m : AList fun _ : IPKey => Identity} {ip : IPKey} (hip : ip ∈ m)
    {a : Addr} {L : ℕ} (hl : ip.hasLength a L = true) : 1 ≤ keyCount m a L :=
  Finset.card_pos.mpr ⟨ip, Finset.mem_filter.mpr ⟨List.mem_toFinset.mpr hip, hl⟩⟩

/-- The prefix of a canonical key is valid. -/
theorem IPKey.Canonical.bits_le {ip : IPKey} (hip : ip.Canonical) {p : PrefixCluster}
    (h : ip.prefixCluster = some p) : p.asPrefix.bits ≤ p.asPrefix.addr.bitLen := by
  cases ip with
  | cidr q =>
    cases h
    exact (Addr.prefixOf_eq_some hip.2).2.2
  | endpoint a =>
    cases h
    exact le_refl _
  | invalid => cases h

theorem LengthsInv.upsert {s : IPCacheWithLengths} (hs : LengthsInv s) {ip : IPKey}
    (hip : ip.Canonical) (hostIP : Option Addr) (hostKey : UInt8) (k8sMeta : Option K8sMetadata)
    (newIdentity : Identity) (endpointFlags : UInt8) (force fromLegacyAPI : Bool) :
    LengthsInv (s.upsertLocked ip hostIP hostKey k8sMeta newIdentity endpointFlags force
      fromLegacyAPI).1 := by
  have hmem := IPCache.mem_upsertLocked s.cache ip hostIP hostKey k8sMeta newIdentity endpointFlags
    force fromLegacyAPI
  unfold IPCacheWithLengths.upsertLocked
  dsimp only
  cases hu : s.cache.upsertUpdates ip hostIP hostKey k8sMeta newIdentity endpointFlags force
      fromLegacyAPI with
  | false =>
    -- nothing counted, and no key added
    simp only [hu, Bool.false_eq_true, false_and, or_false] at hmem
    refine ⟨hs.bounded, fun k hk => hs.canonical k ((hmem k).mp hk), fun a L => ?_⟩
    rw [keyCount_congr hmem]
    exact hs.counted a L
  | true =>
    simp only [hu, true_and] at hmem
    cases hpc : ip.prefixCluster with
    | none =>
      have : s.cache.upsertUpdates ip hostIP hostKey k8sMeta newIdentity endpointFlags force
          fromLegacyAPI = false := by
        simp [IPCache.upsertUpdates, hpc]
      rw [this] at hu
      cases hu
    | some p =>
      have hle := hip.bits_le hpc
      dsimp only
      refine ⟨hs.bounded.add_single hle, fun k hk => ?_, fun a L => ?_⟩
      · rcases (hmem k).mp hk with hk | rfl
        · exact hs.canonical k hk
        · exact hip
      · dsimp only
        have hk := keyCount_of_mem_iff hmem a L
        have hc := hs.counted a L
        rw [PrefixLengthCounter.count_add_single hs.bounded hle]
        by_cases hl : ip.hasLength a L = true
        · rw [if_pos hl] at hk
          rw [if_pos ((hasLength_iff hpc a L).mp hl)]
          omega
        · rw [if_neg hl] at hk
          omega

theorem LengthsInv.delete {s : IPCacheWithLengths} (hs : LengthsInv s) (ip : IPKey)
    (source : Source) : LengthsInv (s.deleteLocked ip source) := by
  have hmem := IPCache.mem_deleteLocked s.cache ip source
  unfold IPCacheWithLengths.deleteLocked
  dsimp only
  cases hu : s.cache.deleteUpdates ip source with
  | false =>
    simp only [hu, Bool.false_eq_true, false_and, not_false_eq_true, and_true] at hmem
    refine ⟨hs.bounded, fun k hk => hs.canonical k ((hmem k).mp hk), fun a L => ?_⟩
    rw [keyCount_congr hmem]
    exact hs.counted a L
  | true =>
    simp only [hu, true_and] at hmem
    have hip : ip ∈ s.cache.ipToIdentityCache := by
      simp only [IPCache.deleteUpdates, Bool.and_eq_true, Option.any_eq_true] at hu
      obtain ⟨-, c, hc, -⟩ := hu
      exact AList.lookup_isSome.mp (by rw [hc]; rfl)
    cases hpc : ip.prefixCluster with
    | none =>
      simp [IPCache.deleteUpdates, hpc] at hu
    | some p =>
      dsimp only
      refine ⟨hs.bounded.delete_single _, fun k hk => hs.canonical k ((hmem k).mp hk).1,
        fun a L => ?_⟩
      dsimp only
      have hk := keyCount_erase hmem hip a L
      have hc := hs.counted a L
      rw [PrefixLengthCounter.count_delete_single]
      by_cases hl : ip.hasLength a L = true
      · have h1 := one_le_keyCount hip hl
        rw [if_pos hl] at hk
        rw [if_pos ((hasLength_iff hpc a L).mp hl)]
        omega
      · rw [if_neg hl] at hk
        rw [if_neg (fun h => hl ((hasLength_iff hpc a L).mpr h))]
        omega

/-- The states that `NewIPCache` and then upserts of canonical keys and deletes reach. -/
inductive Run : IPCacheWithLengths → Prop
  | init : Run newIPCache
  | upsert {s : IPCacheWithLengths} (h : Run s) (ip : IPKey) (hip : ip.Canonical)
      (hostIP : Option Addr) (hostKey : UInt8) (k8sMeta : Option K8sMetadata) (newIdentity : Identity)
      (endpointFlags : UInt8) (force fromLegacyAPI : Bool) :
      Run (s.upsertLocked ip hostIP hostKey k8sMeta newIdentity endpointFlags force fromLegacyAPI).1
  | delete {s : IPCacheWithLengths} (h : Run s) (ip : IPKey) (source : Source) :
      Run (s.deleteLocked ip source)

theorem Run.inv {s : IPCacheWithLengths} (h : Run s) : LengthsInv s := by
  induction h with
  | init => exact LengthsInv.init
  | upsert _ ip hip hostIP hostKey k8sMeta newIdentity endpointFlags force fromLegacyAPI ih =>
    exact ih.upsert hip hostIP hostKey k8sMeta newIdentity endpointFlags force fromLegacyAPI
  | delete _ ip source ih => exact ih.delete ip source

/-- A default length, or the length of a key, is among the lengths the lookup tries. -/
theorem LengthsInv.mem_toBPFData {s : IPCacheWithLengths} (hs : LengthsInv s) {a : Addr} {L : ℕ}
    (h : L = 0 ∨ L = a.bitLen ∨ ∃ k ∈ s.cache.ipToIdentityCache, k.hasLength a L = true) :
    L ∈ (s.prefixLengths.counterOf a).toBPFData := by
  have hpos : 0 < keyCount s.cache.ipToIdentityCache a L + defaultCount a L := by
    rcases h with h | h | ⟨k, hk, hl⟩
    · simp [defaultCount, h]
    · simp [defaultCount, h]
    · have := one_le_keyCount hk hl
      omega
  exact IntCounter.mem_toBPFData.mpr
    (IntCounter.mem_of_count_pos (lt_of_lt_of_le hpos (hs.counted a L)))

/-! ### The lookup finds the longest key -/

/-- Whether a key holds the address: the endpoint key of the address itself, or a CIDR key that
is the prefix of the address at its length. -/
def IPKey.containsAddr (k : IPKey) (ip : Addr) : Bool :=
  match k with
  | .cidr p => p.clusterID == 0 && ip.prefixOf p.bits == some p.asPrefix
  | .endpoint a => a == ⟨ip, 0⟩
  | .invalid => false

/-- The first hit of a search along strictly decreasing lengths that holds every length with a
hit is the greatest such length. -/
theorem findSome?_of_pairwise_gt {β : Type*} {f : ℕ → Option β} {l : List ℕ}
    (hl : l.Pairwise (· > ·)) (hcov : ∀ L, (f L).isSome → L ∈ l) :
    (∀ v, l.findSome? f = some v → ∃ L, f L = some v ∧ ∀ L', (f L').isSome → L' ≤ L) ∧
      (l.findSome? f = none → ∀ L, f L = none) := by
  induction l with
  | nil =>
    refine ⟨fun v h => by simp at h, fun _ L => ?_⟩
    cases hL : f L with
    | none => rfl
    | some v => exact absurd (hcov L (by rw [hL]; rfl)) List.not_mem_nil
  | cons x xs ih =>
    rw [List.pairwise_cons] at hl
    cases hx : f x with
    | some v =>
      -- the first length is above every later one
      refine ⟨fun w h => ?_, fun h => ?_⟩
      · simp only [List.findSome?_cons, hx, Option.some.injEq] at h
        subst h
        refine ⟨x, hx, fun L' hL' => ?_⟩
        rcases List.mem_cons.mp (hcov L' hL') with rfl | hmem
        · exact le_refl _
        · exact le_of_lt (hl.1 L' hmem)
      · simp only [List.findSome?_cons, hx, reduceCtorEq] at h
    | none =>
      have hcov' : ∀ L, (f L).isSome → L ∈ xs := fun L hL =>
        (List.mem_cons.mp (hcov L hL)).resolve_left (by rintro rfl; rw [hx] at hL; cases hL)
      simp only [List.findSome?_cons, hx]
      exact ih hl.2 hcov'

theorem Addr.prefixOf_bitLen (ip : Addr) : ip.prefixOf ip.bitLen = some ⟨ip, ip.bitLen⟩ := by
  cases ip <;> simp [Addr.prefixOf, Addr.bitLen]

theorem containsAddr_cidr {p : PrefixCluster} {ip : Addr} :
    (IPKey.cidr p).containsAddr ip = true ↔ p.clusterID = 0 ∧ ip.prefixOf p.bits = some p.asPrefix := by
  simp [IPKey.containsAddr]

section Lookup

variable {s : IPCacheWithLengths} {ip : Addr}

/-- Without an entry of its own, an address that is not IPv4-mapped is looked up at a length by
the CIDR key of its prefix there. -/
theorem lookupByPrefixRLocked_of_prefixOf (hip4 : ip.is4In6 = false)
    (hend : s.cache.ipToIdentityCache.lookup (.endpoint ⟨ip, 0⟩) = none) {L : ℕ} {q : Prefix}
    (hq : ip.prefixOf L = some q) :
    s.cache.lookupByPrefixRLocked q = s.cache.ipToIdentityCache.lookup (.cidr ⟨q.addr, L, 0⟩) := by
  obtain ⟨hbits, hlen, -⟩ := Addr.prefixOf_eq_some hq
  unfold IPCache.lookupByPrefixRLocked
  split_ifs with hfull
  · -- the full-length prefix is the address, spelled as itself
    have hL : L = ip.bitLen := by rw [← hbits, hfull, hlen]
    subst hL
    rw [Addr.prefixOf_bitLen] at hq
    cases hq
    rw [IPCache.netIPAddr, Addr.unmap_of_is4In6_eq_false hip4, hend, Option.none_or]
  · rw [Option.none_or, hbits]

/-- A hit at a length is the CIDR key there that holds the address. -/
theorem bind_lookupByPrefixRLocked_eq_some (hip4 : ip.is4In6 = false)
    (hend : s.cache.ipToIdentityCache.lookup (.endpoint ⟨ip, 0⟩) = none) (L : ℕ) (id : Identity) :
    (ip.prefixOf L).bind s.cache.lookupByPrefixRLocked = some id ↔
      ∃ p : PrefixCluster, p.bits = L ∧ s.cache.ipToIdentityCache.lookup (.cidr p) = some id ∧
        (IPKey.cidr p).containsAddr ip = true := by
  constructor
  · intro h
    cases hq : ip.prefixOf L with
    | none => rw [hq] at h; cases h
    | some q =>
      rw [hq, Option.bind_some, lookupByPrefixRLocked_of_prefixOf hip4 hend hq] at h
      obtain ⟨hbits, -, -⟩ := Addr.prefixOf_eq_some hq
      refine ⟨⟨q.addr, L, 0⟩, rfl, h, containsAddr_cidr.mpr ⟨rfl, ?_⟩⟩
      rw [hq, PrefixCluster.asPrefix, ← hbits]
  · rintro ⟨p, rfl, hp, hc⟩
    obtain ⟨hcl, hq⟩ := containsAddr_cidr.mp hc
    rw [hq, Option.bind_some, lookupByPrefixRLocked_of_prefixOf hip4 hend hq]
    obtain ⟨a, bits, c⟩ := p
    simp only at hcl
    subst hcl
    exact hp

/-- The spec of `LookupSecIDByIP` for an address that is not IPv4-mapped: its own entry if it has
one; else the entry of the longest CIDR key that holds it; and nothing exactly when no key holds
it. -/
theorem LengthsInv.lookupSecIDByIP_spec (hs : LengthsInv s) (hip4 : ip.is4In6 = false) :
    let m := s.cache.ipToIdentityCache
    (∀ id, m.lookup (.endpoint ⟨ip, 0⟩) = some id → s.lookupSecIDByIP ip = some id) ∧
    (m.lookup (.endpoint ⟨ip, 0⟩) = none → ∀ id, s.lookupSecIDByIP ip = some id →
      ∃ p, m.lookup (.cidr p) = some id ∧ (IPKey.cidr p).containsAddr ip = true ∧
        ∀ q, IPKey.cidr q ∈ m → (IPKey.cidr q).containsAddr ip = true → q.bits ≤ p.bits) ∧
    (s.lookupSecIDByIP ip = none ↔ ∀ k ∈ m, k.containsAddr ip = false) := by
  intro m
  let f := fun L => (ip.prefixOf L).bind s.cache.lookupByPrefixRLocked
  have hsearch : m.lookup (.endpoint ⟨ip, 0⟩) = none →
      s.lookupSecIDByIP ip = (s.prefixLengths.counterOf ip).toBPFData.findSome? f := by
    intro hend
    unfold IPCacheWithLengths.lookupSecIDByIP IPCache.lookupByIPRLocked
    rw [hend]
    cases ip <;> rfl
  -- every length with a hit is among those tried
  have hcov : m.lookup (.endpoint ⟨ip, 0⟩) = none →
      ∀ L, (f L).isSome → L ∈ (s.prefixLengths.counterOf ip).toBPFData := by
    intro hend L hL
    obtain ⟨id, hid⟩ := Option.isSome_iff_exists.mp hL
    obtain ⟨p, rfl, hp, hc⟩ := (bind_lookupByPrefixRLocked_eq_some hip4 hend L id).mp hid
    obtain ⟨-, hq⟩ := containsAddr_cidr.mp hc
    obtain ⟨-, hlen, -⟩ := Addr.prefixOf_eq_some hq
    refine hs.mem_toBPFData (.inr (.inr ⟨.cidr p, AList.lookup_isSome.mp (by rw [hp]; rfl), ?_⟩))
    simpa [IPKey.hasLength, IPKey.prefixCluster, PrefixCluster.asPrefix] using hlen
  have hfind := fun hend => findSome?_of_pairwise_gt (f := f)
    (IntCounter.toBPFData_pairwise _) (hcov hend)
  refine ⟨fun id hid => ?_, fun hend id hid => ?_, ⟨fun hnone k hk => ?_, fun hno => ?_⟩⟩
  · unfold IPCacheWithLengths.lookupSecIDByIP IPCache.lookupByIPRLocked
    rw [hid]
  · -- the first hit is at the greatest length that has one
    rw [hsearch hend] at hid
    obtain ⟨L, hL, hmax⟩ := (hfind hend).1 id hid
    obtain ⟨p, rfl, hp, hc⟩ := (bind_lookupByPrefixRLocked_eq_some hip4 hend _ id).mp hL
    refine ⟨p, hp, hc, fun q hq hqc => hmax q.bits ?_⟩
    obtain ⟨v, hv⟩ := Option.isSome_iff_exists.mp (AList.lookup_isSome.mpr hq)
    exact Option.isSome_iff_exists.mpr
      ⟨v, (bind_lookupByPrefixRLocked_eq_some hip4 hend _ v).mpr ⟨q, rfl, hv, hqc⟩⟩
  · -- no hit: neither the address's own key nor a CIDR key holds it
    have hend : m.lookup (.endpoint ⟨ip, 0⟩) = none := by
      cases he : m.lookup (.endpoint ⟨ip, 0⟩) with
      | none => rfl
      | some id =>
        unfold IPCacheWithLengths.lookupSecIDByIP IPCache.lookupByIPRLocked at hnone
        rw [he] at hnone
        cases hnone
    have hf := (hfind hend).2 (by rw [← hsearch hend]; exact hnone)
    cases k with
    | cidr p =>
      cases hc : (IPKey.cidr p).containsAddr ip with
      | false => rfl
      | true =>
        obtain ⟨v, hv⟩ := Option.isSome_iff_exists.mp (AList.lookup_isSome.mpr hk)
        have hhit := (bind_lookupByPrefixRLocked_eq_some hip4 hend p.bits v).mpr ⟨p, rfl, hv, hc⟩
        have hmiss : f p.bits = none := hf p.bits
        cases hhit.symm.trans hmiss
    | endpoint a =>
      cases hc : (IPKey.endpoint a).containsAddr ip with
      | false => rfl
      | true =>
        simp only [IPKey.containsAddr, beq_iff_eq] at hc
        subst hc
        rw [← AList.lookup_isSome, hend] at hk
        cases hk
    | invalid => rfl
  · have hend : m.lookup (.endpoint ⟨ip, 0⟩) = none := by
      cases he : m.lookup (.endpoint ⟨ip, 0⟩) with
      | none => rfl
      | some id =>
        have := hno _ (AList.lookup_isSome.mp (by rw [he]; rfl))
        simp [IPKey.containsAddr] at this
    rw [hsearch hend]
    cases hr : (s.prefixLengths.counterOf ip).toBPFData.findSome? f with
    | none => rfl
    | some v =>
      obtain ⟨L, hL, -⟩ := (hfind hend).1 v hr
      obtain ⟨p, rfl, hp, hc⟩ := (bind_lookupByPrefixRLocked_eq_some hip4 hend _ v).mp hL
      have := hno _ (AList.lookup_isSome.mp (by rw [hp]; rfl))
      rw [hc] at this
      cases this

end Lookup

/-- What `LookupSecIDByIP` is for, at every address that is not IPv4-mapped: its own entry if it
has one; else the entry of the longest CIDR key that holds it; and nothing exactly when no key
holds it. -/
def IPCacheWithLengths.LookupLongest (s : IPCacheWithLengths) : Prop :=
  ∀ ip : Addr, ip.is4In6 = false →
    let m := s.cache.ipToIdentityCache
    (∀ id, m.lookup (.endpoint ⟨ip, 0⟩) = some id → s.lookupSecIDByIP ip = some id) ∧
    (m.lookup (.endpoint ⟨ip, 0⟩) = none → ∀ id, s.lookupSecIDByIP ip = some id →
      ∃ p, m.lookup (.cidr p) = some id ∧ (IPKey.cidr p).containsAddr ip = true ∧
        ∀ q, IPKey.cidr q ∈ m → (IPKey.cidr q).containsAddr ip = true → q.bits ≤ p.bits) ∧
    (s.lookupSecIDByIP ip = none ↔ ∀ k ∈ m, k.containsAddr ip = false)

/-- After every run on canonical keys, each family's counter holds its default lengths and the
length of every key of the family, and the lookup finds the longest key that holds an address. -/
theorem run_lookupSecIDByIP_longest {s : IPCacheWithLengths} (h : Run s) :
    (∀ (a : Addr) (L : ℕ),
      (L = 0 ∨ L = a.bitLen ∨ ∃ k ∈ s.cache.ipToIdentityCache, k.hasLength a L = true) →
        L ∈ (s.prefixLengths.counterOf a).toBPFData) ∧
    s.LookupLongest :=
  ⟨fun _ _ hL => h.inv.mem_toBPFData hL, fun _ hip4 => h.inv.lookupSecIDByIP_spec hip4⟩

theorem run_lookupSecIDByIP_longest_slash8 :
    let s := (newIPCache.upsertLocked (.cidr ⟨.v4 0x0A000000, 8, 0⟩) none 0 none
      ⟨16777217, .kubernetes, false, false, noSource⟩ 0 false false).1
    Run s ∧
      (∀ (a : Addr) (L : ℕ),
        (L = 0 ∨ L = a.bitLen ∨ ∃ k ∈ s.cache.ipToIdentityCache, k.hasLength a L = true) →
          L ∈ (s.prefixLengths.counterOf a).toBPFData) ∧
      s.LookupLongest := by
  intro s
  have h : Run s := Run.init.upsert _ (by decide) _ _ _ _ _ _ _
  exact ⟨h, run_lookupSecIDByIP_longest h⟩

/-- Upserting a CIDR twice counts its length twice, and deleting it once leaves the length
counted with no key of it in the cache. -/
theorem reupsert_delete_leaves_prefix_length :
    let k : IPKey := .cidr ⟨.v4 0x0A000000, 8, 0⟩
    let s := (newIPCache.upsertLocked k none 0 none
      ⟨16777217, .kubernetes, false, false, noSource⟩ 0 false false).1
    let s := (s.upsertLocked k none 0 none ⟨16777218, .kubernetes, false, false, noSource⟩ 0
      false false).1
    let s := s.deleteLocked k .kubernetes
    s.cache.ipToIdentityCache.keys = [] ∧ s.prefixLengths.v4.toBPFData = [32, 8, 0] := by
  decide +kernel

/-- `net.IP` spells an IPv4-mapped address in dotted decimal, so the full-length step of the
lookup of `::ffff:10.0.0.1` finds the endpoint `10.0.0.1`, which does not contain it, before the
world prefix `::/0`, which does. -/
theorem lookupSecIDByIP_mapped_finds_ipv4_endpoint :
    let a4 : Addr := .v4 0x0A000001
    let a6 : Addr := .v6 0xFFFF0A000001
    let s := (newIPCache.upsertLocked (.endpoint ⟨a4, 0⟩) none 0 none
      ⟨16777217, .kubernetes, false, false, noSource⟩ 0 false false).1
    let s := (s.upsertLocked (.cidr ⟨.v6 0, 0, 0⟩) none 0 none
      ⟨2, .kubernetes, false, false, noSource⟩ 0 false false).1
    s.lookupSecIDByIP a6 = s.cache.ipToIdentityCache.lookup (.endpoint ⟨a4, 0⟩) ∧
      s.lookupSecIDByIP a6 ≠ s.cache.ipToIdentityCache.lookup (.cidr ⟨.v6 0, 0, 0⟩) := by
  decide +kernel

end Cilium.Ipcache
