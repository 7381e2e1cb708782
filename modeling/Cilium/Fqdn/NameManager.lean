import Cilium.Fqdn.MatchPattern
import Cilium.IPCache.Metadata

/-! The name manager of `pkg/fqdn/namemanager` (`manager.go`, and the part of `gc.go` that
touches its state) over the global DNS cache of `pkg/fqdn/cache.go` and the metadata layer of
the IP cache.  The manager keeps the selectors of FQDN policy, and for each name it has cached
and each IP of that name it gives the host prefix of the IP, under a resource of its own for the
name, the identity labels of the selectors that match the name.

The global cache has its cleanup tracking turned off, so its `lastCleanup` stays zero, a lookup
returns every IP it holds, and expiry never shows: the model keeps the IPs of each name and the
reverse map is read off them.  An endpoint's cache, which garbage collection restores from, is
the list of its entries; which names get cleaned and which caches restore them is left open.
The channel to the identity preallocator, the metrics, the locks and the revisions that callers
wait on are left out. -/

namespace Cilium.Fqdn

open Cilium.Ipcache MatchPattern Labels

/-! ### The global DNS cache -/

/-- `fqdn.DNSCache` as the manager keeps its global one: the IPs of each name (`forward`). -/
structure DNSCache where
  forward : AList fun _ : String => List Addr

/-- `fqdn.UpdateStatus`, with the flag the manager reads. -/
structure UpdateStatus where
  upserted : Bool

/-- A `cacheEntry` of an endpoint's cache: the name and the IPs of one lookup. -/
structure cacheEntry where
  name : String
  ips : List Addr

namespace DNSCache

/-- `NewDNSCache`. -/
def empty : DNSCache := ⟨∅⟩

/-- The IPs that `forward` holds for the name. -/
def ipsOf (c : DNSCache) (name : String) : List Addr := (c.forward.lookup name).getD []

/-- `DNSCache.Update`: the IPs of the lookup join those of the name, and it is upserted when one
of them is new. -/
def update (c : DNSCache) (name : String) (ips : List Addr) : DNSCache × UpdateStatus :=
  let entries := c.ipsOf name
  (⟨c.forward.insert name (entries ++ ips.filter (· ∉ entries))⟩, ⟨ips.any (· ∉ entries)⟩)

/-- `DNSCache.Lookup`: the IPs of the name, unmapped as `ipEntries.getIPs` returns them. -/
def lookup (c : DNSCache) (name : String) : List Addr := (c.ipsOf name).map Addr.unmap

/-- `DNSCache.LookupByRegexp`: each name that the expression matches and that has IPs, with
them. -/
def lookupByRegexp (c : DNSCache) (re : Regexp) : List (String × List Addr) :=
  c.forward.entries.filterMap fun e =>
    if re.matchString e.1 && !(e.2.map Addr.unmap).isEmpty then some (e.1, e.2.map Addr.unmap)
    else none

/-- `DNSCache.getIPsLocked`: each IP of the reverse map with a name that holds it. -/
def getIPs (c : DNSCache) : List (Addr × String) :=
  c.forward.entries.flatMap fun e => e.2.map fun ip => (ip, e.1)

/-- `DNSCache.RemoveKnown`: the pairs of `mappings` that the cache does not hold. -/
def removeKnown (c : DNSCache) (mappings : List (Addr × String)) : List (Addr × String) :=
  mappings.filter fun m => m.1 ∉ c.ipsOf m.2

/-- `forceExpireByNames` at the present time, before which every lookup lies: the names go. -/
def forceExpireByNames (c : DNSCache) (names : List String) : DNSCache :=
  ⟨names.foldl (fun f name => f.erase name) c.forward⟩

/-- `partialRestoreFromCache`: the entries of an endpoint's cache for the names, cut down to the
pairs of `oldEntries`. -/
def partialRestoreFromCache (c : DNSCache) (update : List cacheEntry) (namesToUpdate : List String)
    (oldEntries : List (Addr × String)) : DNSCache :=
  namesToUpdate.foldl (fun c name =>
    (update.filter (·.name == name)).foldl (fun c e =>
      let newIps := e.ips.filter fun ip => (ip, e.name) ∈ oldEntries
      if 0 < newIps.length then (c.update e.name newIps).1 else c) c) c

/-- `ReplaceFromCacheByNames`: the names lose their lookups and get back what the caches still
hold of them; the pairs held before come with the result. -/
def replaceFromCacheByNames (c : DNSCache) (namesToUpdate : List String)
    (updates : List (List cacheEntry)) : DNSCache × List (Addr × String) :=
  let oldEntries := c.getIPs
  let c := c.forceExpireByNames namesToUpdate
  (updates.foldl (fun c update => c.partialRestoreFromCache update namesToUpdate oldEntries) c,
    oldEntries)

end DNSCache

/-! ### The manager -/

/-- `nameMetadata`: the addresses of a name and the labels they get, none to remove them. -/
structure nameMetadata where
  addrs : List Addr
  labels : Labels

/-- `manager`: the global cache, `allSelectors` with the expression of each selector,
`bootstrapCompleted`, and the metadata of the IP cache that it writes to. -/
structure manager where
  cache : DNSCache
  allSelectors : AList fun _ : FQDNSelector => Regexp
  bootstrapCompleted : Bool
  ipcache : metadata

/-- `ipcacheResource`: `NewResourceID(ResourceKindDaemon, "fqdn-name-manager", dnsName)`. -/
def ipcacheResource (dnsName : String) : ResourceID := "daemon/fqdn-name-manager/" ++ dnsName

/-- The host prefix of an address, `NewLocalPrefixCluster(netip.PrefixFrom(addr, addr.BitLen()))`. -/
def hostPrefix (addr : Addr) : PrefixCluster := ⟨addr, addr.bitLen, 0⟩

/-- `prepareMatchName`. -/
def prepareMatchName (matchName : String) : String := Dns.fqdn matchName

/-- `deriveLabelsForName`: the identity label of each selector whose expression matches. -/
def deriveLabelsForName (dnsName : String) (selectors : AList fun _ : FQDNSelector => Regexp) :
    Labels :=
  selectors.entries.foldl (fun lbls e =>
    if e.2.matchString dnsName then lbls.insert e.1.identityLabel.key e.1.identityLabel else lbls) ∅

/-- `deriveLabelsForNames`. -/
def deriveLabelsForNames (nameToIPs : AList fun _ : String => List Addr)
    (selectors : AList fun _ : FQDNSelector => Regexp) : List (String × nameMetadata) :=
  nameToIPs.entries.map fun e => (e.1, ⟨e.2, deriveLabelsForName e.1 selectors⟩)

/-- The updates that `updateMetadata` makes for one name: its labels on the host prefix of each
address. -/
def nameUpdates (dnsName : String) (md : nameMetadata) : List MU :=
  md.addrs.map fun addr =>
    ⟨hostPrefix addr, .generated, ipcacheResource dnsName, [.labels md.labels], false⟩

/-- `updateMetadata`: the names with labels are upserted, those without have theirs removed. -/
def updateMetadata (ipc : metadata) (nameToMetadata : List (String × nameMetadata)) : metadata :=
  let upserts := nameToMetadata.flatMap fun e =>
    if 0 < e.2.labels.entries.length then nameUpdates e.1 e.2 else []
  let removals := nameToMetadata.flatMap fun e =>
    if 0 < e.2.labels.entries.length then [] else nameUpdates e.1 e.2
  let ipc := if 0 < upserts.length then upsertMetadataBatch ipc upserts else ipc
  if 0 < removals.length then removeMetadataBatch ipc removals else ipc

namespace manager

/-- `mapSelectorsToNamesLocked`: the cached names the selector picks, with their IPs; the name of
a `MatchName` is looked up, and the compiled pattern of a `MatchPattern` is matched against every
name (a pattern that does not compile picks nothing more). -/
def mapSelectorsToNamesLocked (n : manager) (fqdnSelector : FQDNSelector) :
    AList fun _ : String => List Addr :=
  let namesIPMapping : AList fun _ : String => List Addr :=
    if 0 < fqdnSelector.matchName.utf8ByteSize then
      let dnsName := prepareMatchName fqdnSelector.matchName
      let lookupIPs := n.cache.lookup dnsName
      if 0 < lookupIPs.length then (∅ : AList _).insert dnsName lookupIPs else ∅
    else ∅
  if 0 < fqdnSelector.matchPattern.utf8ByteSize then
    match compileRegex (toAnchoredRegexp (MatchPattern.sanitize fqdnSelector.matchPattern)) with
    | .error _ => namesIPMapping
    | .ok patternRE =>
      (n.cache.lookupByRegexp patternRE).foldl (fun m e =>
        if 0 < e.2.length then m.insert e.1 ((m.lookup e.1).getD [] ++ e.2) else m) namesIPMapping
  else namesIPMapping

/-- The end of `RegisterFQDNSelector` and `UnregisterFQDNSelector`: the labels of the names that
the selector picks are derived again from all the selectors. -/
def updateSelectedNames (n : manager) (selector : FQDNSelector) : manager :=
  { n with ipcache := (updateMetadata n.ipcache
      (deriveLabelsForNames (n.mapSelectorsToNamesLocked selector) n.allSelectors)) }

@[simp] theorem updateSelectedNames_cache (n : manager) (s : FQDNSelector) :
    (n.updateSelectedNames s).cache = n.cache := rfl

@[simp] theorem updateSelectedNames_allSelectors (n : manager) (s : FQDNSelector) :
    (n.updateSelectedNames s).allSelectors = n.allSelectors := rfl

@[simp] theorem updateSelectedNames_bootstrapCompleted (n : manager) (s : FQDNSelector) :
    (n.updateSelectedNames s).bootstrapCompleted = n.bootstrapCompleted := rfl

/-- `RegisterFQDNSelector`: a new selector is kept with its expression, unless it has none. -/
def registerFQDNSelector (n : manager) (selector : FQDNSelector) : manager :=
  if selector ∈ n.allSelectors then n.updateSelectedNames selector
  else match selector.toRegex with
    | .error _ => n
    | .ok regex =>
      { n with allSelectors := n.allSelectors.insert selector regex }.updateSelectedNames selector

/-- `UnregisterFQDNSelector`. -/
def unregisterFQDNSelector (n : manager) (selector : FQDNSelector) : manager :=
  { n with allSelectors := n.allSelectors.erase selector }.updateSelectedNames selector

/-- `updateDNSIPs`: the lookup goes into the cache, and when it brought a new IP its addresses get
the labels of the selectors that match the name. -/
def updateDNSIPs (n : manager) (dnsName : String) (lookupIPs : List Addr) :
    manager × UpdateStatus :=
  let (cache, res) := n.cache.update dnsName lookupIPs
  let n := { n with cache }
  if !res.upserted && n.bootstrapCompleted then (n, res)
  else if n.allSelectors.entries.length = 0 then (n, res)
  else
    let nameLabels := deriveLabelsForName dnsName n.allSelectors
    if nameLabels.entries.length = 0 then (n, res)
    else ({ n with ipcache := updateMetadata n.ipcache [(dnsName, ⟨lookupIPs, nameLabels⟩)] }, res)

/-- `UpdateGenerateDNS`. -/
def updateGenerateDNS (n : manager) (name : String) (lookupIPs : List Addr) : manager :=
  (n.updateDNSIPs name lookupIPs).1

/-- `maybeRemoveMetadata`: the pairs the cache no longer holds lose their labels. -/
def maybeRemoveMetadata (n : manager) (maybeRemoved : List (Addr × String)) : manager :=
  let maybeRemoved := n.cache.removeKnown maybeRemoved
  { n with ipcache := (removeMetadataBatch n.ipcache (maybeRemoved.map fun m =>
      ⟨hostPrefix m.1, .generated, ipcacheResource m.2, [.labels ∅], false⟩)) }

/-- The end of `doGC`: the names to clean are replaced from the caches, and the metadata of what
that took out is removed. -/
def doGC (n : manager) (namesToClean : List String) (caches : List (List cacheEntry)) : manager :=
  let (cache, maybeStaleIPs) := n.cache.replaceFromCacheByNames namesToClean caches
  { n with cache }.maybeRemoveMetadata maybeStaleIPs

end manager

/-- The calls that change a name manager: registration, unregistration, a DNS lookup, and a cache
collection followed by `maybeRemoveMetadata`. -/
inductive Op where
  | register (s : FQDNSelector)
  | unregister (s : FQDNSelector)
  | updateGenerateDNS (name : String) (ips : List Addr)
  | gc (namesToClean : List String) (caches : List (List cacheEntry))

namespace manager

def step (n : manager) : Op → manager
  | .register s => n.registerFQDNSelector s
  | .unregister s => n.unregisterFQDNSelector s
  | .updateGenerateDNS name ips => n.updateGenerateDNS name ips
  | .gc names caches => n.doGC names caches

def run (n : manager) (ops : List Op) : manager := ops.foldl step n

end manager

/-- A manager after bootstrap, with nothing cached, registered or labelled yet. -/
def newManager : manager := ⟨DNSCache.empty, ∅, true, newMetadata⟩

/-- The labels that the IP cache's metadata gives the host prefix of `ip` under the resource of
`name`; `none` when it gives none. -/
def fqdnLabels (md : metadata) (ip : Addr) (name : String) : Option Labels :=
  md.resourceLabels (hostPrefix ip) (ipcacheResource name)

/-! ### Host prefixes and resources -/

/-- A host prefix is its own canonical form: an IPv4-mapped address keeps its 128 bits, which
`Addr.Unmap().Prefix` cannot hold. -/
theorem canonicalPrefix_hostPrefix (a : Addr) : canonicalPrefix (hostPrefix a) = hostPrefix a := by
  cases a with
  | v4 b =>
    simp [canonicalPrefix, hostPrefix, PrefixCluster.asPrefix, Prefix.isValid, Addr.unmap,
      Addr.prefixOf, Addr.bitLen]
  | v6 b =>
    by_cases h : Addr.is4In6 (.v6 b) = true
    · simp [canonicalPrefix, hostPrefix, PrefixCluster.asPrefix, Prefix.isValid, Addr.unmap,
        Addr.prefixOf, Addr.bitLen, h]
    · simp [canonicalPrefix, hostPrefix, PrefixCluster.asPrefix, Prefix.isValid, Addr.unmap,
        Addr.prefixOf, Addr.bitLen, h]

theorem ipcacheResource_inj {a b : String} (h : ipcacheResource a = ipcacheResource b) : a = b :=
  (String.append_right_inj _).mp h

/-- The key that an update of the manager writes names its address and its name. -/
theorem key_eq_iff {a b : Addr} {m name : String} :
    (canonicalPrefix (hostPrefix a), ipcacheResource m) = (hostPrefix b, ipcacheResource name) ↔
      a = b ∧ m = name := by
  rw [canonicalPrefix_hostPrefix]
  constructor
  · intro h
    obtain ⟨h1, h2⟩ := Prod.mk.inj h
    exact ⟨congrArg PrefixCluster.addr h1, ipcacheResource_inj h2⟩
  · rintro ⟨rfl, rfl⟩
    rfl

/-! ### `updateMetadata` -/

/-- The labels that an update of a batch sets. -/
def labelsOf (u : MU) : Labels :=
  match u.metadata with
  | [.labels l] => l
  | _ => ∅

theorem flatMap_ite_nil {nms : List (String × nameMetadata)} {P : String × nameMetadata → Prop}
    [DecidablePred P] :
    (nms.flatMap fun e => if P e then nameUpdates e.1 e.2 else []) =
      (nms.filter fun e => decide (P e)).flatMap fun e => nameUpdates e.1 e.2 := by
  induction nms with
  | nil => rfl
  | cons e nms ih => by_cases h : P e <;> simp [h, ih]

theorem flatMap_ite_nil_right {nms : List (String × nameMetadata)} {P : String × nameMetadata → Prop}
    [DecidablePred P] :
    (nms.flatMap fun e => if P e then [] else nameUpdates e.1 e.2) =
      (nms.filter fun e => !decide (P e)).flatMap fun e => nameUpdates e.1 e.2 := by
  induction nms with
  | nil => rfl
  | cons e nms ih => by_cases h : P e <;> simp [h, ih]

theorem mem_batch {nms : List (String × nameMetadata)} {P : String × nameMetadata → Bool} {u : MU} :
    u ∈ (nms.filter P).flatMap (fun e => nameUpdates e.1 e.2) ↔ ∃ e ∈ nms, P e = true ∧
      ∃ a ∈ e.2.addrs, u = ⟨hostPrefix a, .generated, ipcacheResource e.1, [.labels e.2.labels], false⟩ := by
  simp only [List.mem_flatMap, List.mem_filter, nameUpdates, List.mem_map]
  constructor
  · rintro ⟨e, ⟨he, hp⟩, a, ha, rfl⟩
    exact ⟨e, he, hp, a, ha, rfl⟩
  · rintro ⟨e, he, hp, a, ha, rfl⟩
    exact ⟨e, ⟨he, hp⟩, a, ha, rfl⟩

/-- The pair of an address and a name is a key of a batch exactly when some name of the batch
has that address. -/
theorem key_mem_batch {nms : List (String × nameMetadata)} (P : String × nameMetadata → Bool)
    (ip : Addr) (name : String) :
    (hostPrefix ip, ipcacheResource name) ∈ ((nms.filter P).flatMap fun e => nameUpdates e.1 e.2).map
        (fun u => (canonicalPrefix u.prefixCluster, u.resource)) ↔
      ∃ e ∈ nms, P e = true ∧ e.1 = name ∧ ip ∈ e.2.addrs := by
  rw [List.mem_map]
  constructor
  · rintro ⟨u, hu, hk⟩
    obtain ⟨e, he, hp, a, ha, rfl⟩ := mem_batch.mp hu
    obtain ⟨rfl, rfl⟩ := key_eq_iff.mp hk
    exact ⟨e, he, hp, rfl, ha⟩
  · rintro ⟨e, he, hp, rfl, ha⟩
    exact ⟨_, mem_batch.mpr ⟨e, he, hp, ip, ha, rfl⟩, key_eq_iff.mpr ⟨rfl, rfl⟩⟩

/-- A batch that may be skipped when empty acts as the batch. -/
theorem resourceLabels_ite_batch {x : metadata} {l : List MU} (batch : metadata → List MU → metadata)
    (hnil : ∀ y, (batch y []).m = y.m) (p : PrefixCluster) (r : ResourceID) :
    (if 0 < l.length then batch x l else x).resourceLabels p r = (batch x l).resourceLabels p r := by
  split
  · rfl
  · next h =>
    have hl : l = [] := List.eq_nil_of_length_eq_zero (by omega)
    subst hl
    simp [metadata.resourceLabels, hnil]

/-- Upserts and then removals, each skipped when empty, act on the labels of each pair as the
history of their calls. -/
theorem resourceLabels_upserts_removals (md : metadata) (ups rms : List MU)
    (hu : ∀ u ∈ ups, u.isCIDR = false ∧ u.metadata = [.labels (labelsOf u)])
    (hr : ∀ u ∈ rms, u.isCIDR = false ∧ ∃ L, u.metadata = [.labels L]) (p : PrefixCluster)
    (r : ResourceID) :
    (let ipc := if 0 < ups.length then upsertMetadataBatch md ups else md
      if 0 < rms.length then removeMetadataBatch ipc rms else ipc).resourceLabels p r =
      MapHistory.latestOr (rms.map fun u => .erase (canonicalPrefix u.prefixCluster, u.resource))
        (MapHistory.latestOr (ups.map fun u => .set (canonicalPrefix u.prefixCluster, u.resource) (labelsOf u))
          (fun k => md.resourceLabels k.1 k.2)) (p, r) := by
  dsimp only
  rw [resourceLabels_ite_batch _ (fun _ => rfl), resourceLabels_removeMetadataBatch _ _ hr]
  congr
  funext k
  rw [resourceLabels_ite_batch _ (fun _ => rfl), resourceLabels_upsertMetadataBatch _ _ _ hu]

/-- What `updateMetadata` does to the labels of a pair: a name of the batch with that address
sets them to the name's labels, or removes them when it has none; every other pair keeps its
own. -/
theorem fqdnLabels_updateMetadata (md : metadata) (nms : List (String × nameMetadata))
    (L : String → Labels) (hL : ∀ e ∈ nms, e.2.labels = L e.1) (ip : Addr) (name : String) :
    fqdnLabels (updateMetadata md nms) ip name =
      if ∃ e ∈ nms, e.1 = name ∧ ip ∈ e.2.addrs then
        (if 0 < (L name).entries.length then some (L name) else none)
      else fqdnLabels md ip name := by
  unfold updateMetadata fqdnLabels
  rw [flatMap_ite_nil, flatMap_ite_nil_right, resourceLabels_upserts_removals]
  · -- which batch has calls on the pair's key, and what the upserts' calls leave there
    have hkeys : ∀ (Q : String × nameMetadata → Bool)
        (f : MU → MapHistory.Update (PrefixCluster × ResourceID) Labels),
        (∀ u, (f u).key = (canonicalPrefix u.prefixCluster, u.resource)) →
        ((hostPrefix ip, ipcacheResource name) ∈
            (((nms.filter Q).flatMap fun e => nameUpdates e.1 e.2).map f).map MapHistory.Update.key ↔
          ∃ e ∈ nms, Q e = true ∧ e.1 = name ∧ ip ∈ e.2.addrs) := by
      intro Q f hf
      rw [List.map_map, ← key_mem_batch Q ip name]
      simp only [Function.comp_def, hf]
    have hvals : ∀ c ∈ ((nms.filter fun e => decide (0 < e.2.labels.entries.length)).flatMap
        fun e => nameUpdates e.1 e.2).map
          (fun u => MapHistory.Update.set (canonicalPrefix u.prefixCluster, u.resource) (labelsOf u)),
        c.key = (hostPrefix ip, ipcacheResource name) → c.value = some (L name) := by
      intro c hc hk
      obtain ⟨u, hu, rfl⟩ := List.mem_map.mp hc
      obtain ⟨e, he, -, a, -, rfl⟩ := mem_batch.mp hu
      obtain ⟨-, rfl⟩ := key_eq_iff.mp hk
      exact congrArg some (hL e he)
    have hkrm := hkeys (fun e => !decide (0 < e.2.labels.entries.length))
      (fun u => .erase (canonicalPrefix u.prefixCluster, u.resource)) (fun _ => rfl)
    have hkup := hkeys (fun e => decide (0 < e.2.labels.entries.length))
      (fun u => .set (canonicalPrefix u.prefixCluster, u.resource) (labelsOf u)) (fun _ => rfl)
    unfold MapHistory.latestOr
    simp only [hkrm, hkup]
    by_cases hex : ∃ e ∈ nms, e.1 = name ∧ ip ∈ e.2.addrs
    · obtain ⟨e, he, rfl, ha⟩ := hex
      rw [if_pos (show ∃ e' ∈ nms, e'.1 = e.1 ∧ ip ∈ e'.2.addrs from ⟨e, he, rfl, ha⟩)]
      have hlab : e.2.labels = L e.1 := hL e he
      by_cases hpos : 0 < (L e.1).entries.length
      · -- the name has labels: its upserts set them and no removal is on the pair
        have hrm : ¬∃ e' ∈ nms, (!decide (0 < e'.2.labels.entries.length)) = true ∧ e'.1 = e.1 ∧
            ip ∈ e'.2.addrs := by
          rintro ⟨e', he', hp', hn', -⟩
          rw [hL e' he', hn'] at hp'
          simp [hpos] at hp'
        have hup : ∃ e' ∈ nms, decide (0 < e'.2.labels.entries.length) = true ∧ e'.1 = e.1 ∧
            ip ∈ e'.2.addrs := ⟨e, he, by simpa [hlab] using hpos, rfl, ha⟩
        rw [if_neg hrm, if_pos hup, if_pos hpos]
        exact MapHistory.latest_of_forall hvals (hkup.mpr hup)
      · -- the name has no labels: its removals take the pair's away
        have hrm : ∃ e' ∈ nms, (!decide (0 < e'.2.labels.entries.length)) = true ∧ e'.1 = e.1 ∧
            ip ∈ e'.2.addrs := ⟨e, he, by simpa [hlab] using hpos, rfl, ha⟩
        rw [if_pos hrm, if_neg hpos]
        exact MapHistory.latest_of_forall (fun c hc _ => by
          obtain ⟨u, -, rfl⟩ := List.mem_map.mp hc
          rfl) (hkrm.mpr hrm)
    · -- no name of the batch has the address: no call is on the pair
      have hno : ∀ Q : String × nameMetadata → Bool,
          ¬∃ e ∈ nms, Q e = true ∧ e.1 = name ∧ ip ∈ e.2.addrs := by
        rintro Q ⟨e, he, -, hn, ha⟩
        exact hex ⟨e, he, hn, ha⟩
      rw [if_neg (hno _), if_neg (hno _), if_neg hex]
  · intro u hu
    obtain ⟨e, -, -, a, -, rfl⟩ := mem_batch.mp hu
    exact ⟨rfl, rfl⟩
  · intro u hu
    obtain ⟨e, -, -, a, -, rfl⟩ := mem_batch.mp hu
    exact ⟨rfl, _, rfl⟩

/-! ### The cache -/

/-- A fold whose every step keeps a property keeps it. -/
theorem foldl_preserves {α β : Type} (P : α → Prop) (f : α → β → α) (l : List β)
    (h : ∀ a, ∀ b ∈ l, P a → P (f a b)) (a : α) (ha : P a) : P (l.foldl f a) := by
  induction l generalizing a with
  | nil => exact ha
  | cons b l ih =>
    exact ih (fun a' b' hb' => h a' b' (List.mem_cons_of_mem b hb')) _ (h a b List.mem_cons_self ha)

namespace DNSCache

theorem mem_ipsOf_update {c : DNSCache} {name m : String} {ips : List Addr} {ip : Addr} :
    ip ∈ (c.update name ips).1.ipsOf m ↔ ip ∈ c.ipsOf m ∨ (m = name ∧ ip ∈ ips) := by
  unfold update
  by_cases h : m = name
  · subst h
    simp only [ipsOf, AList.lookup_insert, Option.getD_some, List.mem_append, List.mem_filter,
      true_and]
    by_cases hi : ip ∈ (c.forward.lookup m).getD [] <;> simp [hi]
  · simp [ipsOf, AList.lookup_insert_ne h, h]

/-- A lookup is upserted exactly when one of its IPs is new for the name. -/
theorem upserted_update_eq_false {c : DNSCache} {name : String} {ips : List Addr} :
    (c.update name ips).2.upserted = false ↔ ∀ ip ∈ ips, ip ∈ c.ipsOf name := by
  simp [update]

theorem mem_getIPs {c : DNSCache} {ip : Addr} {name : String} :
    (ip, name) ∈ c.getIPs ↔ ip ∈ c.ipsOf name := by
  simp only [getIPs, List.mem_flatMap, List.mem_map, Prod.mk.injEq]
  constructor
  · rintro ⟨⟨n', ips⟩, he, ip', hip, rfl, rfl⟩
    have hl : c.forward.lookup n' = some ips := AList.mem_lookup_iff.mpr he
    simpa [ipsOf, hl] using hip
  · intro h
    unfold ipsOf at h
    cases hl : c.forward.lookup name with
    | none => simp [hl] at h
    | some ips => exact ⟨⟨name, ips⟩, AList.mem_lookup_iff.mp hl, ip, by simpa [hl] using h, rfl, rfl⟩

theorem mem_removeKnown {c : DNSCache} {mappings : List (Addr × String)} {m : Addr × String} :
    m ∈ c.removeKnown mappings ↔ m ∈ mappings ∧ m.1 ∉ c.ipsOf m.2 := by
  simp [removeKnown]

theorem lookup_foldl_erase (names : List String) (f : AList fun _ : String => List Addr)
    (m : String) :
    (names.foldl (fun f name => f.erase name) f).lookup m = if m ∈ names then none else f.lookup m := by
  induction names generalizing f with
  | nil => simp
  | cons name names ih =>
    rw [List.foldl_cons, ih]
    by_cases hn : m = name
    · subst hn
      simp [AList.lookup_erase]
    · simp [hn, AList.lookup_erase_ne hn]

theorem mem_ipsOf_forceExpireByNames {c : DNSCache} {names : List String} {m : String} {ip : Addr}
    (h : ip ∈ (c.forceExpireByNames names).ipsOf m) : ip ∈ c.ipsOf m := by
  simp only [forceExpireByNames, ipsOf, lookup_foldl_erase] at h
  split at h
  · simp at h
  · exact h

/-- After garbage collection the cache holds no pair it did not hold before. -/
theorem mem_ipsOf_replaceFromCacheByNames {c : DNSCache} {names : List String}
    {updates : List (List cacheEntry)} {m : String} {ip : Addr}
    (h : ip ∈ (c.replaceFromCacheByNames names updates).1.ipsOf m) : ip ∈ c.ipsOf m := by
  -- every pair the restored cache holds is a pair of the snapshot taken before
  let P : DNSCache → Prop := fun c' => ∀ m ip, ip ∈ c'.ipsOf m → (ip, m) ∈ c.getIPs
  have hupdate : ∀ c' name ips, P c' → (∀ ip ∈ ips, (ip, name) ∈ c.getIPs) →
      P (c'.update name ips).1 := by
    intro c' name ips hc' hips m ip hm
    rcases mem_ipsOf_update.mp hm with hold | ⟨rfl, hnew⟩
    · exact hc' m ip hold
    · exact hips ip hnew
  have hrestore : ∀ c' update, P c' → P (c'.partialRestoreFromCache update names c.getIPs) := by
    intro c' update hc'
    refine foldl_preserves P _ names (fun c2 name _ h2 => ?_) c' hc'
    refine foldl_preserves P _ _ (fun c3 e _ h3 => ?_) c2 h2
    dsimp only
    split
    · exact hupdate _ _ _ h3 fun ip hip => by simpa using (List.mem_filter.mp hip).2
    · exact h3
  have hP : P (c.replaceFromCacheByNames names updates).1 :=
    foldl_preserves P _ updates (fun c' u _ hc' => hrestore c' u hc') _
      (fun m ip hm => mem_getIPs.mpr (mem_ipsOf_forceExpireByNames hm))
  exact mem_getIPs.mp (hP m ip h)

theorem unmap_of_not_is4In6 {a : Addr} (h : a.is4In6 = false) : a.unmap = a := by
  cases a with
  | v4 b => rfl
  | v6 b => simp [Addr.unmap, h]

/-- With no IPv4-mapped address among them, a lookup returns the IPs of the name as stored. -/
theorem lookup_of_unmapped {c : DNSCache} {name : String}
    (h : ∀ ip ∈ c.ipsOf name, ip.is4In6 = false) : c.lookup name = c.ipsOf name := by
  unfold lookup
  conv_rhs => rw [← List.map_id (c.ipsOf name)]
  exact List.map_congr_left fun a ha => unmap_of_not_is4In6 (h a ha)

theorem mem_lookupByRegexp {c : DNSCache} {re : Regexp} {e : String × List Addr} :
    e ∈ c.lookupByRegexp re ↔ re.matchString e.1 = true ∧ e.2 = c.lookup e.1 ∧ e.2 ≠ [] := by
  obtain ⟨name, ips⟩ := e
  simp only [lookupByRegexp, List.mem_filterMap, Option.ite_none_right_eq_some, Option.some.injEq,
    Bool.and_eq_true, Bool.not_eq_true', List.isEmpty_eq_false_iff, Prod.mk.injEq]
  constructor
  · rintro ⟨⟨n', ips'⟩, he, ⟨hm, hne⟩, rfl, rfl⟩
    have hl : c.forward.lookup n' = some ips' := AList.mem_lookup_iff.mpr he
    exact ⟨hm, by simp [lookup, ipsOf, hl], hne⟩
  · rintro ⟨hm, rfl, hne⟩
    unfold lookup ipsOf at hne ⊢
    cases hl : c.forward.lookup name with
    | none => simp [hl] at hne
    | some ips' =>
      simp only [hl, Option.getD_some] at hne ⊢
      exact ⟨⟨name, ips'⟩, AList.mem_lookup_iff.mp hl, ⟨hm, hne⟩, rfl, rfl⟩

end DNSCache

/-! ### The names a selector picks -/

namespace manager

/-- The mapping of a selector binds each of its names to exactly the IPs that `Lookup` gives. -/
theorem mem_lookup_mapSelectorsToNamesLocked {n : manager} {s : FQDNSelector} {name : String}
    {ips : List Addr} (h : (n.mapSelectorsToNamesLocked s).lookup name = some ips) (ip : Addr) :
    ip ∈ ips ↔ ip ∈ n.cache.lookup name := by
  -- the invariant of the mapping while it is built
  let P : (AList fun _ : String => List Addr) → Prop := fun M =>
    ∀ name ips, M.lookup name = some ips → ∀ ip, ip ∈ ips ↔ ip ∈ n.cache.lookup name
  have h0 : P ∅ := fun name ips h => by simp at h
  have hins : ∀ M name ips, P M → (∀ ip, ip ∈ ips ↔ ip ∈ n.cache.lookup name) →
      P (M.insert name ips) := by
    intro M name' ips' hM hips name ips h
    by_cases hn : name = name'
    · subst hn
      rw [AList.lookup_insert] at h
      cases h
      exact hips
    · rw [AList.lookup_insert_ne hn] at h
      exact hM name ips h
  suffices hP : P (n.mapSelectorsToNamesLocked s) from hP name ips h ip
  have hfirst : ∀ b₁ b₂ : Prop, ∀ [Decidable b₁] [Decidable b₂],
      P (if b₁ then (if b₂ then (∅ : AList fun _ : String => List Addr).insert
        (prepareMatchName s.matchName) (n.cache.lookup (prepareMatchName s.matchName)) else ∅)
        else ∅) := by
    intro b₁ b₂ _ _
    split
    · split
      · exact hins _ _ _ h0 fun _ => Iff.rfl
      · exact h0
    · exact h0
  unfold mapSelectorsToNamesLocked
  dsimp only
  split
  · split
    · exact hfirst _ _
    refine foldl_preserves P _ _ (fun M e he hM => ?_) _ (hfirst _ _)
    split
    · obtain ⟨-, hl, -⟩ := DNSCache.mem_lookupByRegexp.mp he
      refine hins _ _ _ hM fun ip => ?_
      rw [List.mem_append, hl]
      constructor
      · rintro (h1 | h1)
        · cases hM' : M.lookup e.1 with
          | none => simp [hM'] at h1
          | some ips0 =>
            rw [hM', Option.getD_some] at h1
            exact (hM e.1 ips0 hM' ip).mp h1
        · exact h1
      · exact .inr
    · exact hM
  · exact hfirst _ _

end manager

theorem utf8ByteSize_pos {s : String} : 0 < s.utf8ByteSize ↔ s ≠ "" := by
  rw [Nat.pos_iff_ne_zero, ne_eq, String.utf8ByteSize_eq_zero_iff]

/-- A name with IPs among those matched against a pattern ends up in the mapping. -/
theorem mem_foldl_insert {l : List (String × List Addr)} {M : AList fun _ : String => List Addr}
    {name : String} (h : name ∈ M ∨ ∃ e ∈ l, e.1 = name ∧ 0 < e.2.length) :
    name ∈ l.foldl (fun m e => if 0 < e.2.length then m.insert e.1 ((m.lookup e.1).getD [] ++ e.2)
      else m) M := by
  induction l generalizing M with
  | nil => simpa using h
  | cons e l ih =>
    refine ih ?_
    dsimp only
    rcases h with h | ⟨e', he', rfl, hpos⟩
    · left
      split
      · exact (AList.mem_insert _).mpr (.inr h)
      · exact h
    · rcases List.mem_cons.mp he' with rfl | he'
      · left
        rw [if_pos hpos]
        exact (AList.mem_insert _).mpr (.inl rfl)
      · exact .inr ⟨e', he', rfl, hpos⟩

namespace manager

/-- A valid selector picks every cached name with IPs that its expression matches: a name is
looked up as its FQDN, which is all its expression matches, and a pattern is matched with the
very expression of the selector. -/
theorem mem_mapSelectorsToNamesLocked {n : manager} {s : FQDNSelector} (hv : s.Valid)
    {r : Regexp} (hr : s.toRegex = .ok r) {name : String} (hm : r.matchString name = true)
    (hne : n.cache.lookup name ≠ []) : name ∈ n.mapSelectorsToNamesLocked s := by
  obtain ⟨hone, hs⟩ := hv
  have hlen : 0 < (n.cache.lookup name).length := List.length_pos_iff.mpr hne
  unfold mapSelectorsToNamesLocked
  dsimp only
  by_cases hn : s.matchName = ""
  · have hp : s.matchPattern ≠ "" := hone.resolve_left (not_not.mpr hn)
    have hre := FQDNSelector.compileRegex_matchPattern hn hr
    have hmem : (name, n.cache.lookup name) ∈ n.cache.lookupByRegexp r :=
      DNSCache.mem_lookupByRegexp.mpr ⟨hm, rfl, hne⟩
    rw [if_pos (utf8ByteSize_pos.mpr hp), hre]
    exact mem_foldl_insert (.inr ⟨_, hmem, rfl, hlen⟩)
  · have hname : name = Dns.fqdn s.matchName := by
      rw [FQDNSelector.matchString_toRegex_matchName hs hn hr] at hm
      exact beq_iff_eq.mp hm
    subst hname
    have hp : s.matchPattern = "" := FQDNSelector.matchPattern_of_sanitize hs hn
    rw [if_neg (by simp [hp]), if_pos (utf8ByteSize_pos.mpr hn)]
    simp only [prepareMatchName, hlen, ↓reduceIte]
    exact (AList.mem_insert _).mpr (.inl rfl)

end manager

/-! ### The labels of a name -/

/-- A selector that does not match the name leaves its labels as they were, when it is added. -/
theorem deriveLabelsForName_insert {sels : AList fun _ : FQDNSelector => Regexp} {s : FQDNSelector}
    {r : Regexp} (hs : s ∉ sels) {name : String} (hm : r.matchString name = false) :
    deriveLabelsForName name (sels.insert s r) = deriveLabelsForName name sels := by
  unfold deriveLabelsForName
  rw [AList.entries_insert_of_notMem hs, List.foldl_cons]
  simp [hm]

/-- ... and when it is taken away. -/
theorem deriveLabelsForName_erase {sels : AList fun _ : FQDNSelector => Regexp} {s : FQDNSelector}
    {name : String} (hs : ∀ r, sels.lookup s = some r → r.matchString name = false) :
    deriveLabelsForName name (sels.erase s) = deriveLabelsForName name sels := by
  by_cases hk : s ∈ sels.entries.keys
  · obtain ⟨b, l₁, l₂, -, he, hker⟩ := List.exists_of_kerase hk
    have hb : sels.lookup s = some b :=
      AList.mem_lookup_iff.mpr (by rw [he]; exact List.mem_append_right _ List.mem_cons_self)
    unfold deriveLabelsForName
    change (sels.entries.kerase s).foldl _ ∅ = sels.entries.foldl _ ∅
    rw [hker, he, List.foldl_append, List.foldl_append, List.foldl_cons]
    simp [hs b hb]
  · unfold deriveLabelsForName
    change (sels.entries.kerase s).foldl _ ∅ = sels.entries.foldl _ ∅
    rw [List.kerase_of_notMem_keys hk]

theorem deriveLabelsForName_of_entries_nil {sels : AList fun _ : FQDNSelector => Regexp}
    (h : sels.entries = []) (name : String) : deriveLabelsForName name sels = ∅ := by
  unfold deriveLabelsForName
  rw [h]
  rfl

/-- At each key, the labels of a name hold the label of that key exactly when the expression of
a selector with that label matches the name. -/
theorem lookup_deriveLabelsForName (name : String) (sels : AList fun _ : FQDNSelector => Regexp)
    (k : String) :
    (deriveLabelsForName name sels).lookup k =
      if ∃ e ∈ sels.entries, e.2.matchString name = true ∧ e.1.identityLabel.key = k then
        some ⟨k, "", labelSourceFQDN⟩
      else none := by
  -- the fold over the entries adds the label of each matching selector to what it holds
  suffices h : ∀ (es : List (Sigma fun _ : FQDNSelector => Regexp)) (acc : Labels),
      (es.foldl (fun lbls e => if e.2.matchString name then
        lbls.insert e.1.identityLabel.key e.1.identityLabel else lbls) acc).lookup k =
        if ∃ e ∈ es, e.2.matchString name = true ∧ e.1.identityLabel.key = k then
          some ⟨k, "", labelSourceFQDN⟩
        else acc.lookup k by
    rw [deriveLabelsForName, h]
    rfl
  intro es
  induction es with
  | nil => simp
  | cons e es ih =>
    intro acc
    rw [List.foldl_cons, ih]
    simp only [List.mem_cons, exists_eq_or_imp]
    by_cases hes : ∃ e' ∈ es, e'.2.matchString name = true ∧ e'.1.identityLabel.key = k
    · rw [if_pos hes, if_pos (Or.inr hes)]
    · rw [if_neg hes]
      by_cases he : e.2.matchString name = true ∧ e.1.identityLabel.key = k
      · obtain ⟨hm, rfl⟩ := he
        rw [if_pos (Or.inl ⟨hm, rfl⟩), if_pos hm, AList.lookup_insert]
        exact congrArg some e.1.identityLabel_eq
      · rw [if_neg (not_or.mpr ⟨he, hes⟩)]
        split
        · next hm => rw [AList.lookup_insert_ne fun hk => he ⟨hm, hk.symm⟩]
        · rfl

/-- A name gets labels exactly when the expression of some selector matches it. -/
theorem length_deriveLabelsForName_pos {name : String}
    {sels : AList fun _ : FQDNSelector => Regexp} :
    0 < (deriveLabelsForName name sels).entries.length ↔
      ∃ e ∈ sels.entries, e.2.matchString name = true := by
  constructor
  · intro h
    obtain ⟨⟨k, l⟩, hl⟩ := List.exists_mem_of_length_pos h
    have hk : (deriveLabelsForName name sels).lookup k = some l := AList.mem_lookup_iff.mpr hl
    rw [lookup_deriveLabelsForName] at hk
    split at hk
    · next hex =>
      obtain ⟨e, he, hm, -⟩ := hex
      exact ⟨e, he, hm⟩
    · cases hk
  · rintro ⟨e, he, hm⟩
    have hk : (deriveLabelsForName name sels).lookup e.1.identityLabel.key =
        some ⟨e.1.identityLabel.key, "", labelSourceFQDN⟩ := by
      rw [lookup_deriveLabelsForName, if_pos ⟨e, he, hm, rfl⟩]
    exact List.length_pos_of_mem (AList.mem_lookup_iff.mp hk)

namespace manager

/-- What the end of `RegisterFQDNSelector` and `UnregisterFQDNSelector` does to the labels of a
pair: a picked name with that IP gets the labels of all the selectors, every other pair keeps
its own. -/
theorem fqdnLabels_updateSelectedNames (n : manager) (s : FQDNSelector) (ip : Addr)
    (name : String) :
    fqdnLabels (n.updateSelectedNames s).ipcache ip name =
      if name ∈ n.mapSelectorsToNamesLocked s ∧ ip ∈ n.cache.lookup name then
        (if 0 < (deriveLabelsForName name n.allSelectors).entries.length then
          some (deriveLabelsForName name n.allSelectors) else none)
      else fqdnLabels n.ipcache ip name := by
  have hcond : (∃ e ∈ deriveLabelsForNames (n.mapSelectorsToNamesLocked s) n.allSelectors,
      e.1 = name ∧ ip ∈ e.2.addrs) ↔
      name ∈ n.mapSelectorsToNamesLocked s ∧ ip ∈ n.cache.lookup name := by
    simp only [deriveLabelsForNames, List.mem_map]
    constructor
    · rintro ⟨_, ⟨e, he, rfl⟩, rfl, hip⟩
      have hl : (n.mapSelectorsToNamesLocked s).lookup e.1 = some e.2 := AList.mem_lookup_iff.mpr he
      exact ⟨AList.lookup_isSome.mp (by rw [hl]; rfl), (mem_lookup_mapSelectorsToNamesLocked hl ip).mp hip⟩
    · rintro ⟨hmem, hip⟩
      obtain ⟨ips, hl⟩ := Option.isSome_iff_exists.mp (AList.lookup_isSome.mpr hmem)
      exact ⟨_, ⟨⟨name, ips⟩, AList.mem_lookup_iff.mp hl, rfl⟩, rfl,
        (mem_lookup_mapSelectorsToNamesLocked hl ip).mpr hip⟩
  unfold updateSelectedNames
  rw [fqdnLabels_updateMetadata _ _ (fun name => deriveLabelsForName name n.allSelectors)
    (fun e he => by obtain ⟨e', -, rfl⟩ := List.mem_map.mp he; rfl)]
  simp only [hcond]

end manager

/-! ### What the manager is for -/

namespace manager

/-- The labels that a pair of an IP and a name is to carry: those of the selectors that match
the name, when the cache holds the pair and some selector does; none otherwise. -/
def expected (n : manager) (ip : Addr) (name : String) : Option Labels :=
  if ip ∈ n.cache.ipsOf name ∧ 0 < (deriveLabelsForName name n.allSelectors).entries.length then
    some (deriveLabelsForName name n.allSelectors)
  else none

/-- The invariant of the manager: every pair carries the labels it is to carry; each selector is
kept with its own expression and is valid; the cache holds no IPv4-mapped address; and the
bootstrap is over. -/
structure Consistent (n : manager) : Prop where
  labels : ∀ ip name, fqdnLabels n.ipcache ip name = n.expected ip name
  compiled : ∀ s r, n.allSelectors.lookup s = some r → s.toRegex = .ok r
  valid : ∀ s ∈ n.allSelectors, s.Valid
  unmapped : ∀ name, ∀ ip ∈ n.cache.ipsOf name, ip.is4In6 = false
  bootstrapped : n.bootstrapCompleted = true

/-- Relabelling the names that a selector picks puts every label right, when the labels were
right for the selectors `old` and every cached name whose labels differ between `old` and the
selectors now is among those picked. -/
theorem labels_updateSelectedNames {n : manager} {s : FQDNSelector}
    (old : AList fun _ : FQDNSelector => Regexp)
    (hold : ∀ ip name, fqdnLabels n.ipcache ip name = { n with allSelectors := old }.expected ip name)
    (hunm : ∀ name, ∀ ip ∈ n.cache.ipsOf name, ip.is4In6 = false)
    (hcov : ∀ name, n.cache.ipsOf name ≠ [] →
      deriveLabelsForName name n.allSelectors ≠ deriveLabelsForName name old →
      name ∈ n.mapSelectorsToNamesLocked s) (ip : Addr) (name : String) :
    fqdnLabels (n.updateSelectedNames s).ipcache ip name = n.expected ip name := by
  rw [fqdnLabels_updateSelectedNames, DNSCache.lookup_of_unmapped (hunm name)]
  split
  · next h => simp [expected, h.2]
  · next h =>
    rw [hold]
    unfold expected
    by_cases hip : ip ∈ n.cache.ipsOf name
    · -- the name was not picked, so its labels did not move
      have hsame : deriveLabelsForName name n.allSelectors = deriveLabelsForName name old :=
        Classical.byContradiction fun hne =>
          h ⟨hcov name (List.ne_nil_of_mem hip) hne, hip⟩
      simp only [hsame]
    · simp [hip]

end manager

namespace manager

/-- Two managers with the same selectors that agree on whether they hold a pair expect the same
labels for it. -/
theorem expected_congr {n n' : manager} (hsel : n'.allSelectors = n.allSelectors) {ip : Addr}
    {name : String} (hip : ip ∈ n'.cache.ipsOf name ↔ ip ∈ n.cache.ipsOf name) :
    n'.expected ip name = n.expected ip name := by
  simp only [expected, hsel, hip]

theorem expected_of_length_eq_zero {n : manager} {name : String}
    (h : (deriveLabelsForName name n.allSelectors).entries.length = 0) (ip : Addr) :
    n.expected ip name = none := by
  simp [expected, h]

/-- A pair that a lookup did not bring expects what it did before. -/
theorem expected_of_ipsOf {n : manager} {c : DNSCache} {name : String} {ips : List Addr}
    (hc : ∀ m ip, ip ∈ c.ipsOf m ↔ ip ∈ n.cache.ipsOf m ∨ (m = name ∧ ip ∈ ips)) {ip : Addr}
    {m : String} (h : ¬(m = name ∧ ip ∈ ips)) : { n with cache := c }.expected ip m = n.expected ip m :=
  expected_congr (by rfl) ((hc m ip).trans (or_iff_left h))

/-- Registering a valid selector keeps the manager consistent. -/
theorem Consistent.register {n : manager} (hn : n.Consistent) {s : FQDNSelector}
    (hv : s.Valid) : (n.registerFQDNSelector s).Consistent := by
  unfold registerFQDNSelector
  split
  · -- already registered: the names are relabelled with the selectors they had
    exact ⟨labels_updateSelectedNames n.allSelectors hn.labels hn.unmapped
      (fun _ _ hne => absurd rfl hne), hn.compiled, hn.valid, hn.unmapped, hn.bootstrapped⟩
  · next hnot =>
    split
    · exact hn
    · next r hr =>
      refine ⟨labels_updateSelectedNames n.allSelectors hn.labels hn.unmapped ?_, ?_, ?_,
        hn.unmapped, hn.bootstrapped⟩
      · -- a name whose labels the new selector changed is one it matches, so it is picked
        intro name hne hdiff
        have hm : r.matchString name = true := by
          cases hm' : r.matchString name
          · exact absurd (deriveLabelsForName_insert hnot hm') hdiff
          · rfl
        exact mem_mapSelectorsToNamesLocked hv hr hm
          (by rw [DNSCache.lookup_of_unmapped (hn.unmapped name)]; exact hne)
      · intro s' r' hl
        simp only [updateSelectedNames_allSelectors] at hl
        by_cases hs : s' = s
        · subst hs
          rw [AList.lookup_insert] at hl
          cases hl
          exact hr
        · rw [AList.lookup_insert_ne hs] at hl
          exact hn.compiled s' r' hl
      · intro s' hs'
        rcases (AList.mem_insert _).mp hs' with rfl | hs'
        · exact hv
        · exact hn.valid s' hs'

/-- Unregistering any selector keeps the manager consistent. -/
theorem Consistent.unregister {n : manager} (hn : n.Consistent) (s : FQDNSelector) :
    (n.unregisterFQDNSelector s).Consistent := by
  refine ⟨labels_updateSelectedNames n.allSelectors hn.labels hn.unmapped ?_, ?_,
    fun s' hs' => hn.valid s' (AList.mem_erase.mp hs').2, hn.unmapped, hn.bootstrapped⟩
  · -- a name whose labels moved was matched by the selector taken away, which picks it
    intro name hne hdiff
    obtain ⟨r, hl, hm⟩ : ∃ r, n.allSelectors.lookup s = some r ∧ r.matchString name = true := by
      by_contra hno
      refine hdiff (deriveLabelsForName_erase fun r hl => ?_)
      cases hm : r.matchString name
      · rfl
      · exact absurd ⟨r, hl, hm⟩ hno
    exact mem_mapSelectorsToNamesLocked (hn.valid s (AList.lookup_isSome.mp (by rw [hl]; rfl)))
      (hn.compiled s r hl) hm (by rw [DNSCache.lookup_of_unmapped (hn.unmapped name)]; exact hne)
  · intro s' r' hl
    simp only [unregisterFQDNSelector, updateSelectedNames_allSelectors] at hl
    by_cases hs : s' = s
    · subst hs
      rw [AList.lookup_erase] at hl
      cases hl
    · rw [AList.lookup_erase_ne hs] at hl
      exact hn.compiled s' r' hl

/-- A lookup of IPs none of which is IPv4-mapped keeps the manager consistent. -/
theorem Consistent.updateGenerateDNS {n : manager} (hn : n.Consistent) (name : String)
    {ips : List Addr} (hips : ∀ ip ∈ ips, ip.is4In6 = false) :
    (n.updateGenerateDNS name ips).Consistent := by
  unfold manager.updateGenerateDNS updateDNSIPs
  rcases hu : n.cache.update name ips with ⟨c, res⟩
  have hc : ∀ m ip, ip ∈ c.ipsOf m ↔ ip ∈ n.cache.ipsOf m ∨ (m = name ∧ ip ∈ ips) := by
    intro m ip
    rw [← DNSCache.mem_ipsOf_update, hu]
  -- every branch keeps the selectors and ends on the cache with the lookup in it
  have hkeep : ∀ md : metadata,
      (∀ ip m, fqdnLabels md ip m = ({ n with cache := c } : manager).expected ip m) →
      ({ n with cache := c, ipcache := md } : manager).Consistent := by
    intro md hmd
    refine ⟨hmd, hn.compiled, hn.valid, fun m ip hm => ?_, hn.bootstrapped⟩
    rcases (hc m ip).mp hm with h | ⟨-, h⟩
    · exact hn.unmapped m ip h
    · exact hips ip h
  -- while the name has no labels to get, the labels there are still right
  have hnone : (deriveLabelsForName name n.allSelectors).entries.length = 0 →
      ∀ ip m, fqdnLabels n.ipcache ip m = ({ n with cache := c } : manager).expected ip m := by
    intro h0 ip m
    rw [hn.labels]
    by_cases hx : m = name ∧ ip ∈ ips
    · obtain ⟨rfl, -⟩ := hx
      rw [expected_of_length_eq_zero h0, expected_of_length_eq_zero (n := { n with cache := c }) h0]
    · rw [expected_of_ipsOf hc hx]
  dsimp only
  split
  · -- no IP is new, so the cache holds the pairs it held
    next hskip =>
    have hold : ∀ ip ∈ ips, ip ∈ n.cache.ipsOf name := by
      rw [← DNSCache.upserted_update_eq_false, hu]
      simpa [hn.bootstrapped] using hskip
    refine hkeep _ fun ip m => ?_
    rw [hn.labels]
    refine (expected_congr (by rfl) ((hc m ip).trans ⟨?_, .inl⟩)).symm
    rintro (h | ⟨rfl, hi⟩)
    · exact h
    · exact hold ip hi
  split
  · next hnil =>
    refine hkeep _ (hnone ?_)
    rw [deriveLabelsForName_of_entries_nil (List.eq_nil_of_length_eq_zero hnil)]
    rfl
  split
  · next h0 => exact hkeep _ (hnone h0)
  · -- the name's labels go on the host prefix of each IP of the lookup
    next hpos =>
    refine hkeep _ fun ip m => ?_
    rw [fqdnLabels_updateMetadata _ _ (fun _ => deriveLabelsForName name n.allSelectors)
      (fun e he => by rw [List.mem_singleton.mp he])]
    simp only [List.mem_singleton, exists_eq_left]
    by_cases hx : name = m ∧ ip ∈ ips
    · obtain ⟨rfl, hip⟩ := hx
      have hlen : 0 < (deriveLabelsForName name n.allSelectors).entries.length :=
        Nat.pos_of_ne_zero hpos
      rw [if_pos ⟨rfl, hip⟩, if_pos hlen]
      unfold expected
      rw [if_pos ⟨(hc _ _).mpr (.inr ⟨rfl, hip⟩), hlen⟩]
    · rw [if_neg hx, hn.labels, expected_of_ipsOf hc fun ⟨h1, h2⟩ => hx ⟨h1.symm, h2⟩]

/-- The pair of an address and a name is a key of a removal of pairs exactly when it is one of
them. -/
theorem key_mem_pairs {ms : List (Addr × String)} {ip : Addr} {name : String} :
    (∃ a ∈ ms, (canonicalPrefix (hostPrefix a.1), ipcacheResource a.2) =
      (hostPrefix ip, ipcacheResource name)) ↔ (ip, name) ∈ ms := by
  constructor
  · rintro ⟨⟨a, m⟩, ha, hk⟩
    obtain ⟨rfl, rfl⟩ := key_eq_iff.mp hk
    exact ha
  · intro h
    exact ⟨(ip, name), h, key_eq_iff.mpr ⟨rfl, rfl⟩⟩

/-- Garbage collection keeps the manager consistent, whichever names it cleans and whatever the
endpoints' caches hold. -/
theorem Consistent.doGC {n : manager} (hn : n.Consistent) (names : List String)
    (caches : List (List cacheEntry)) : (n.doGC names caches).Consistent := by
  unfold manager.doGC maybeRemoveMetadata
  rcases hr : n.cache.replaceFromCacheByNames names caches with ⟨c, stale⟩
  have hsub : ∀ m ip, ip ∈ c.ipsOf m → ip ∈ n.cache.ipsOf m := fun m ip h =>
    DNSCache.mem_ipsOf_replaceFromCacheByNames (by rw [hr]; exact h)
  have hstale : stale = n.cache.getIPs := by
    have h2 := congrArg Prod.snd hr
    exact h2.symm
  dsimp only
  refine ⟨fun ip m => ?_, hn.compiled, hn.valid, fun m ip h => hn.unmapped m ip (hsub m ip h),
    hn.bootstrapped⟩
  unfold fqdnLabels
  rw [resourceLabels_removeMetadataBatch _ _ fun u hu => by
    obtain ⟨_, -, rfl⟩ := List.mem_map.mp hu
    exact ⟨rfl, _, rfl⟩]
  unfold MapHistory.latestOr
  have hkey : (hostPrefix ip, ipcacheResource m) ∈ (((c.removeKnown stale).map fun a =>
      (⟨hostPrefix a.1, .generated, ipcacheResource a.2, [.labels ∅], false⟩ : MU)).map fun u =>
        (MapHistory.Update.erase (canonicalPrefix u.prefixCluster, u.resource) :
          MapHistory.Update _ Labels)).map MapHistory.Update.key ↔
      ip ∈ n.cache.ipsOf m ∧ ip ∉ c.ipsOf m := by
    simp only [List.map_map, List.mem_map, Function.comp_def, MapHistory.Update.key]
    rw [key_mem_pairs, DNSCache.mem_removeKnown, hstale, DNSCache.mem_getIPs]
  split
  · -- a pair the cleanup took out loses its labels, and the cache holds it no more
    next h =>
    rw [MapHistory.latest_of_forall (v := none) (fun u hu _ => by
      obtain ⟨_, -, rfl⟩ := List.mem_map.mp hu
      rfl) h]
    unfold expected
    rw [if_neg fun h' => (hkey.mp h).2 h'.1]
  · -- every other pair is held by the cache after exactly when it was before
    next h =>
    rw [show (fun k => n.ipcache.resourceLabels k.1 k.2) (hostPrefix ip, ipcacheResource m) =
      fqdnLabels n.ipcache ip m from rfl, hn.labels]
    symm
    refine expected_congr (by rfl) ⟨hsub m ip, fun hip => ?_⟩
    by_contra hc
    exact h (hkey.mpr ⟨hip, hc⟩)

end manager

/-- The calls the invariant is kept by: a selector is registered only when valid, and a lookup
brings no IPv4-mapped address. -/
def Op.Admissible : Op → Prop
  | .register s => s.Valid
  | .unregister _ => True
  | .updateGenerateDNS _ ips => ∀ ip ∈ ips, ip.is4In6 = false
  | .gc _ _ => True

instance : DecidablePred Op.Admissible := fun o => by
  cases o <;> unfold Op.Admissible <;> infer_instance

namespace manager

theorem Consistent.step {n : manager} (hn : n.Consistent) {o : Op} (ho : o.Admissible) :
    (n.step o).Consistent := by
  cases o with
  | register s => exact hn.register ho
  | unregister s => exact hn.unregister s
  | updateGenerateDNS name ips => exact hn.updateGenerateDNS name ho
  | gc names caches => exact hn.doGC names caches

theorem Consistent.run {n : manager} (hn : n.Consistent) {ops : List Op}
    (hops : ∀ o ∈ ops, o.Admissible) : (n.run ops).Consistent :=
  foldl_preserves Consistent manager.step ops (fun _ o ho hn' => hn'.step (hops o ho)) n hn

/-- Under the invariant, an entry of a selector matches the name exactly when the selector is
registered and the expression it compiles to matches. -/
theorem Consistent.exists_entry_iff {n : manager} (hn : n.Consistent) {name : String}
    {P : FQDNSelector → Prop} :
    (∃ e ∈ n.allSelectors.entries, e.2.matchString name = true ∧ P e.1) ↔
      ∃ s ∈ n.allSelectors, ∃ r, s.toRegex = .ok r ∧ r.matchString name = true ∧ P s := by
  constructor
  · rintro ⟨⟨s, r⟩, he, hm, hp⟩
    have hl : n.allSelectors.lookup s = some r := AList.mem_lookup_iff.mpr he
    exact ⟨s, AList.lookup_isSome.mp (by rw [hl]; rfl), r, hn.compiled s r hl, hm, hp⟩
  · rintro ⟨s, hs, r, hr, hm, hp⟩
    obtain ⟨r', hl⟩ := Option.isSome_iff_exists.mp (AList.lookup_isSome.mpr hs)
    obtain rfl : r' = r := Except.ok.inj ((hn.compiled s r' hl).symm.trans hr)
    exact ⟨⟨s, r'⟩, AList.mem_lookup_iff.mp hl, hm, hp⟩

/-- In a consistent manager the labels of a pair that the cache holds are, key by key, those of
the selectors whose expression matches the name. -/
theorem Consistent.lookup_fqdnLabels {n : manager} (hn : n.Consistent) {ip : Addr}
    {name : String} (hip : ip ∈ n.cache.ipsOf name) (k : String) :
    (fqdnLabels n.ipcache ip name).bind (·.lookup k) =
      if ∃ e ∈ n.allSelectors.entries, e.2.matchString name = true ∧ e.1.identityLabel.key = k then
        some ⟨k, "", labelSourceFQDN⟩
      else none := by
  rw [hn.labels]
  unfold expected
  by_cases hpos : 0 < (deriveLabelsForName name n.allSelectors).entries.length
  · rw [if_pos ⟨hip, hpos⟩, Option.bind_some, lookup_deriveLabelsForName]
  · -- no selector matches, so there is no label at any key
    have hno : ¬∃ e ∈ n.allSelectors.entries, e.2.matchString name = true ∧
        e.1.identityLabel.key = k := fun ⟨e, he, hm, _⟩ =>
      hpos (length_deriveLabelsForName_pos.mpr ⟨e, he, hm⟩)
    rw [if_neg fun h => hpos h.2, if_neg hno, Option.bind_none]

/-- ... and there is no metadata for it exactly when no registered selector matches its name. -/
theorem Consistent.fqdnLabels_eq_none_iff {n : manager} (hn : n.Consistent) {ip : Addr}
    {name : String} (hip : ip ∈ n.cache.ipsOf name) :
    fqdnLabels n.ipcache ip name = none ↔
      ¬∃ s ∈ n.allSelectors, ∃ r, s.toRegex = .ok r ∧ r.matchString name = true := by
  have hiff : (∃ e ∈ n.allSelectors.entries, e.2.matchString name = true ∧ True) ↔ _ :=
    hn.exists_entry_iff (P := fun _ => True)
  simp only [and_true] at hiff
  rw [hn.labels, ← hiff, ← length_deriveLabelsForName_pos]
  unfold expected
  by_cases hpos : 0 < (deriveLabelsForName name n.allSelectors).entries.length
  · simp [hip, hpos]
  · simp [hpos]

/-- In a consistent manager a pair that the cache holds carries the identity label of a
selector exactly when the selector is registered and its expression matches the name. -/
theorem Consistent.mem_fqdnLabels {n : manager} (hn : n.Consistent) {ip : Addr} {name : String}
    (hip : ip ∈ n.cache.ipsOf name) (l : Label) :
    (∃ L, fqdnLabels n.ipcache ip name = some L ∧ L.lookup l.key = some l) ↔
      ∃ s ∈ n.allSelectors, ∃ r, s.toRegex = .ok r ∧ r.matchString name = true ∧
        s.identityLabel = l := by
  have hk := hn.lookup_fqdnLabels hip l.key
  rw [← hn.exists_entry_iff]
  constructor
  · rintro ⟨L, hL, hl⟩
    rw [hL, Option.bind_some, hl] at hk
    split at hk
    · next hex =>
      obtain ⟨e, he, hm, hkey⟩ := hex
      refine ⟨e, he, hm, ?_⟩
      rw [e.1.identityLabel_eq, hkey]
      exact (Option.some.inj hk).symm
    · cases hk
  · rintro ⟨e, he, hm, rfl⟩
    rw [if_pos ⟨e, he, hm, rfl⟩, ← e.1.identityLabel_eq] at hk
    cases hL : fqdnLabels n.ipcache ip name with
    | none => rw [hL] at hk; cases hk
    | some L =>
      rw [hL, Option.bind_some] at hk
      exact ⟨L, rfl, hk⟩

end manager

theorem newManager_consistent : newManager.Consistent where
  labels _ _ := rfl
  compiled _ _ h := by cases h
  valid _ h := absurd h (AList.notMem_empty _)
  unmapped _ _ h := by cases h
  bootstrapped := rfl

namespace manager

/-- Every run of admissible calls after bootstrap gives each pair that the cache holds the
identity label of a selector exactly when the selector is registered and its expression
matches the name, whichever order the calls came in. -/
theorem run_mem_fqdnLabels {ops : List Op} (hops : ∀ o ∈ ops, o.Admissible) {ip : Addr}
    {name : String} (hip : ip ∈ (newManager.run ops).cache.ipsOf name) (l : Label) :
    (∃ L, fqdnLabels (newManager.run ops).ipcache ip name = some L ∧ L.lookup l.key = some l) ↔
      ∃ s ∈ (newManager.run ops).allSelectors, ∃ r, s.toRegex = .ok r ∧
        r.matchString name = true ∧ s.identityLabel = l :=
  (newManager_consistent.run hops).mem_fqdnLabels hip l

/-! ### The order of a registration and a lookup -/

@[simp] theorem cache_registerFQDNSelector (n : manager) (s : FQDNSelector) :
    (n.registerFQDNSelector s).cache = n.cache := by
  unfold registerFQDNSelector
  split
  · rfl
  · split <;> rfl

/-- The selectors after a registration depend on the selectors before it alone. -/
theorem allSelectors_registerFQDNSelector (n : manager) (s : FQDNSelector) :
    (n.registerFQDNSelector s).allSelectors =
      if s ∈ n.allSelectors then n.allSelectors
      else match s.toRegex with
        | .error _ => n.allSelectors
        | .ok r => n.allSelectors.insert s r := by
  unfold registerFQDNSelector
  split
  · rfl
  · split <;> rfl

theorem updateDNSIPs_fst (n : manager) (name : String) (ips : List Addr) :
    (n.updateDNSIPs name ips).1.cache = (n.cache.update name ips).1 ∧
      (n.updateDNSIPs name ips).1.allSelectors = n.allSelectors := by
  unfold updateDNSIPs
  rcases n.cache.update name ips with ⟨c, res⟩
  dsimp only
  repeat' split
  all_goals exact ⟨rfl, rfl⟩

/-- Consistent managers with the same selectors give the same labels to a pair that they agree
on holding. -/
theorem Consistent.fqdnLabels_congr {n n' : manager} (hn : n.Consistent) (hn' : n'.Consistent)
    (hsel : n'.allSelectors = n.allSelectors) {ip : Addr} {name : String}
    (hip : ip ∈ n'.cache.ipsOf name ↔ ip ∈ n.cache.ipsOf name) :
    fqdnLabels n'.ipcache ip name = fqdnLabels n.ipcache ip name := by
  rw [hn.labels, hn'.labels]
  exact expected_congr hsel hip

/-- A valid selector registered before a lookup of IPs that are not IPv4-mapped, or after it,
leaves every pair with the same labels. -/
theorem register_updateGenerateDNS_comm {n : manager} (hn : n.Consistent) {s : FQDNSelector}
    (hv : s.Valid) (name : String) {ips : List Addr} (hips : ∀ ip ∈ ips, ip.is4In6 = false)
    (ip : Addr) (m : String) :
    fqdnLabels ((n.registerFQDNSelector s).updateGenerateDNS name ips).ipcache ip m =
      fqdnLabels ((n.updateGenerateDNS name ips).registerFQDNSelector s).ipcache ip m := by
  have h₁ := updateDNSIPs_fst (n.registerFQDNSelector s) name ips
  have h₂ := updateDNSIPs_fst n name ips
  refine ((hn.updateGenerateDNS name hips).register hv).fqdnLabels_congr
    ((hn.register hv).updateGenerateDNS name hips) ?_ ?_
  · -- the registration reads the selectors alone, and the lookup keeps them
    rw [updateGenerateDNS, h₁.2, allSelectors_registerFQDNSelector,
      allSelectors_registerFQDNSelector, updateGenerateDNS, h₂.2]
  · rw [cache_registerFQDNSelector, updateGenerateDNS, updateGenerateDNS, h₁.1, h₂.1,
      cache_registerFQDNSelector]

/-- What the name manager promises of the metadata it writes: a pair that the cache holds has no
metadata exactly when no registered selector matches its name, and otherwise carries the identity
labels of exactly the registered selectors whose expression matches; registering a valid selector
before or after a lookup of addresses that are not IPv4-mapped gives every pair the same labels. -/
structure LabelsExact (n : manager) : Prop where
  none_iff : ∀ {name : String} {ip : Addr}, ip ∈ n.cache.ipsOf name →
    (fqdnLabels n.ipcache ip name = none ↔
      ¬∃ s ∈ n.allSelectors, ∃ r, s.toRegex = .ok r ∧ r.matchString name = true)
  mem_iff : ∀ {name : String} {ip : Addr}, ip ∈ n.cache.ipsOf name → ∀ l : Label,
    ((∃ L, fqdnLabels n.ipcache ip name = some L ∧ L.lookup l.key = some l) ↔
      ∃ s ∈ n.allSelectors, ∃ r, s.toRegex = .ok r ∧ r.matchString name = true ∧
        s.identityLabel = l)
  order_free : ∀ s : FQDNSelector, s.Valid → ∀ (name : String) (ips : List Addr),
    (∀ ip ∈ ips, ip.is4In6 = false) → ∀ (ip : Addr) (m : String),
      fqdnLabels ((n.registerFQDNSelector s).updateGenerateDNS name ips).ipcache ip m =
        fqdnLabels ((n.updateGenerateDNS name ips).registerFQDNSelector s).ipcache ip m

theorem Consistent.labelsExact {n : manager} (hn : n.Consistent) : n.LabelsExact where
  none_iff hip := hn.fqdnLabels_eq_none_iff hip
  mem_iff hip l := hn.mem_fqdnLabels hip l
  order_free _ hv name _ hips ip m := register_updateGenerateDNS_comm hn hv name hips ip m

/-- After bootstrap, every run of registrations of valid selectors, unregistrations, lookups
whose addresses are not IPv4-mapped (the DNS proxy unmaps every answer before it reaches
`UpdateGenerateDNS`) and cache collections leaves the metadata as `LabelsExact` says. -/
theorem run_labels_exact {ops : List Op} (hops : ∀ o ∈ ops, o.Admissible) :
    (newManager.run ops).LabelsExact :=
  (newManager_consistent.run hops).labelsExact

theorem run_labels_exact_lookup_then_register :
    (∀ o ∈ [Op.updateGenerateDNS "example.com." [.v4 0x01020304], .register ⟨"example.com", ""⟩],
        o.Admissible) ∧
      (newManager.run [.updateGenerateDNS "example.com." [.v4 0x01020304],
        .register ⟨"example.com", ""⟩]).LabelsExact :=
  ⟨by decide, run_labels_exact (by decide)⟩

/-- The labels do depend on the order when the lookup brings an IPv4-mapped address: a
registration after it labels what the cache's lookup returns, the unmapped address, while the
lookup in the other order labels the host prefix of the mapped one. -/
example :
    (.v6 0xffff01020304 : Addr) ∈ (newManager.run [.updateGenerateDNS "example.com." [.v6 0xffff01020304],
      .register ⟨"example.com", ""⟩]).cache.ipsOf "example.com." ∧
    ((newManager.run [.updateGenerateDNS "example.com." [.v6 0xffff01020304],
      .register ⟨"example.com", ""⟩]).allSelectors.lookup ⟨"example.com", ""⟩).map
        (·.matchString "example.com.") = some true ∧
    fqdnLabels (newManager.run [.updateGenerateDNS "example.com." [.v6 0xffff01020304],
      .register ⟨"example.com", ""⟩]).ipcache (.v6 0xffff01020304) "example.com." = none ∧
    (fqdnLabels (newManager.run [.updateGenerateDNS "example.com." [.v6 0xffff01020304],
      .register ⟨"example.com", ""⟩]).ipcache (.v4 0x01020304) "example.com.").isSome = true ∧
    (fqdnLabels (newManager.run [.register ⟨"example.com", ""⟩,
      .updateGenerateDNS "example.com." [.v6 0xffff01020304]]).ipcache (.v6 0xffff01020304)
        "example.com.").isSome = true := by
  decide

end manager

end Cilium.Fqdn
