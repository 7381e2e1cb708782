import Cilium.Xds.CacheRuns
import Cilium.Lib.MapHistory
import Mathlib.Data.Finset.Sort
import Mathlib.Data.String.Basic

/-! Delta xDS over the resource cache: `Cache.GetDeltaResources` of `pkg/envoy/xds/cache.go`, the
handling of an ACK in the delta stream loop of `pkg/envoy/xds/server.go`, which moves the stream's
`lastAckedVersion` and `ackedResourceNames`, and a client that applies each response it accepts.
Go sets are `Finset`s, and a loop over one runs in name order; the outputs are sorted by name
anyway.  The nonces, the deferred responses and the changes of subscriptions of the stream are
left out: the subscriptions of a stream stay as they are. -/

namespace Cilium.Xds

open MapHistory

variable {α : Type}

/-- `appendIfNeeded` of `GetDeltaResources`: a resource is sent when it changed after the acked
version or is forced, by its name or by the wildcard. -/
def appendIfNeeded (lastAckedVersion : ℕ) (forceResponseNames : Finset String) (name : String)
    (v : cacheValue α) : Option (VersionedResource α) :=
  if lastAckedVersion < v.lastModifiedVersion ∨ name ∈ forceResponseNames ∨
      "*" ∈ forceResponseNames then
    some ⟨name, v.lastModifiedVersion, v.resource⟩
  else none

/-- The resources that `GetDeltaResources` sends: under the wildcard subscription, those of the
type URL; otherwise those of the subscribed names that have one. -/
def Cache.deltaVersionedResources (c : Cache α) (typeURL : String) (lastAckedVersion : ℕ)
    (subscriptions forceResponseNames : Finset String) : List (VersionedResource α) :=
  if "*" ∈ subscriptions then
    c.resources.entries.filterMap fun e =>
      if e.1.typeURL = typeURL then
        appendIfNeeded lastAckedVersion forceResponseNames e.1.resourceName e.2
      else none
  else
    (subscriptions.sort (· ≤ ·)).filterMap fun name =>
      (c.resources.lookup ⟨typeURL, name⟩).bind
        (appendIfNeeded lastAckedVersion forceResponseNames name)

/-- `insertRemovedIfSubscribed` of `GetDeltaResources`: a subscribed name other than the wildcard
that has no resource. -/
def Cache.insertRemovedIfSubscribed (c : Cache α) (typeURL : String)
    (subscriptions : Finset String) (name : String) : Bool :=
  name ≠ "*" ∧ ("*" ∈ subscriptions ∨ name ∈ subscriptions) ∧
    (c.resources.lookup ⟨typeURL, name⟩).isNone

/-- The names that `GetDeltaResources` reports removed: those of the acked names, and of the
forced ones other than the wildcard, that `insertRemovedIfSubscribed` keeps. -/
def Cache.deltaRemovedNames (c : Cache α) (typeURL : String)
    (subscriptions ackedResourceNames forceResponseNames : Finset String) : Finset String :=
  (ackedResourceNames ∪ forceResponseNames.erase "*").filter fun name =>
    c.insertRemovedIfSubscribed typeURL subscriptions name

/-- `Cache.GetDeltaResources`: `none` when there is nothing to send and no empty response is
forced. -/
def Cache.getDeltaResources (c : Cache α) (typeURL : String) (lastAckedVersion : ℕ)
    (subscriptions ackedResourceNames forceResponseNames : Finset String)
    (forceEmptyResponse : Bool) : Option (VersionedResources α) :=
  let versionedResources :=
    c.deltaVersionedResources typeURL lastAckedVersion subscriptions forceResponseNames
  let removedNames :=
    c.deltaRemovedNames typeURL subscriptions ackedResourceNames forceResponseNames
  if versionedResources.isEmpty ∧ removedNames = ∅ ∧ !forceEmptyResponse then none
  else some ⟨c.version, versionedResources.insertionSort (fun a b => a.name ≤ b.name),
    removedNames.sort (· ≤ ·)⟩

/-- The fields of `perDeltaTypeStreamState` that the responses read and the ACKs write. -/
structure perDeltaTypeStreamState where
  lastAckedVersion : ℕ
  ackedResourceNames : Finset String
  subscriptions : Finset String

/-- The ACK of the outstanding response in the delta stream loop: its version is acked, its
removed names are no longer in use at the client, and the resources it sent are. -/
def perDeltaTypeStreamState.ack (state : perDeltaTypeStreamState)
    (ackedResponse : VersionedResources α) : perDeltaTypeStreamState :=
  { state with
    lastAckedVersion := ackedResponse.version
    ackedResourceNames := state.ackedResourceNames \ ackedResponse.removedNames.toFinset ∪ (ackedResponse.versionedResources.map (·.name)).toFinset }

/-! ### The client -/

/-- The calls that a delta xDS client makes on its resources for a response it accepts: the
removed names go, then each resource sent is installed. -/
def VersionedResources.updates (res : VersionedResources α) : List (Update String α) :=
  res.removedNames.map .erase ++ res.versionedResources.map fun vr => .set vr.name vr.resource

/-- The client's resources after it accepts a response. -/
def applyDeltaResponse (resources : AList fun _ : String => α) (res : VersionedResources α) :
    AList fun _ : String => α :=
  res.updates.foldl Update.apply resources

theorem mem_keys_updates (res : VersionedResources α) (name : String) :
    name ∈ res.updates.map Update.key ↔
      name ∈ res.removedNames ∨ ∃ vr ∈ res.versionedResources, vr.name = name := by
  simp [VersionedResources.updates, Update.key]

theorem lookup_applyDeltaResponse (resources : AList fun _ : String => α)
    (res : VersionedResources α) (name : String) :
    (applyDeltaResponse resources res).lookup name = latestOr res.updates resources.lookup name := by
  have h := foldl_view (fun a => a.lookup) Update.apply id res.updates
    (fun a u _ c => lookup_apply a u c) resources name
  rwa [List.map_id] at h

/-- A name that the response does not send keeps its resource, unless it is removed. -/
theorem lookup_applyDeltaResponse_of_not_sent (resources : AList fun _ : String => α)
    (res : VersionedResources α) {name : String}
    (hsent : ∀ vr ∈ res.versionedResources, vr.name ≠ name) :
    (applyDeltaResponse resources res).lookup name =
      if name ∈ res.removedNames then none else resources.lookup name := by
  rw [lookup_applyDeltaResponse, latestOr]
  by_cases hr : name ∈ res.removedNames
  · have hkey : name ∈ res.updates.map Update.key := (mem_keys_updates res name).mpr (.inl hr)
    rw [if_pos hkey, if_pos hr]
    refine latest_of_forall (fun u hu hk => ?_) hkey
    simp only [VersionedResources.updates, List.mem_append, List.mem_map] at hu
    rcases hu with ⟨n, -, rfl⟩ | ⟨vr, hvr, rfl⟩
    · rfl
    · exact absurd hk (hsent vr hvr)
  · have hkey : name ∉ res.updates.map Update.key := by
      rw [mem_keys_updates]
      rintro (h | ⟨vr, hvr, hn⟩)
      · exact hr h
      · exact hsent vr hvr hn
    rw [if_neg hkey, if_neg hr]

/-- A name that the response sends, and does not remove, has the resource sent. -/
theorem lookup_applyDeltaResponse_of_sent (resources : AList fun _ : String => α)
    (res : VersionedResources α) {name : String} {x : α} (hr : name ∉ res.removedNames)
    (hsent : ∃ vr ∈ res.versionedResources, vr.name = name)
    (hx : ∀ vr ∈ res.versionedResources, vr.name = name → vr.resource = x) :
    (applyDeltaResponse resources res).lookup name = some x := by
  have hkey : name ∈ res.updates.map Update.key := (mem_keys_updates res name).mpr (.inr hsent)
  rw [lookup_applyDeltaResponse, latestOr, if_pos hkey]
  refine latest_of_forall (fun u hu hk => ?_) hkey
  simp only [VersionedResources.updates, List.mem_append, List.mem_map] at hu
  rcases hu with ⟨n, hn, rfl⟩ | ⟨vr, hvr, rfl⟩
  · exact absurd (hk ▸ hn) hr
  · exact congrArg some (hx vr hvr hk)

/-! ### What `GetDeltaResources` sends -/

/-- A name the stream follows: the wildcard covers every name but its own. -/
def Subscribed (subscriptions : Finset String) (name : String) : Prop :=
  name ≠ "*" ∧ ("*" ∈ subscriptions ∨ name ∈ subscriptions)

instance (subscriptions : Finset String) : DecidablePred (Subscribed subscriptions) :=
  fun name => inferInstanceAs (Decidable (name ≠ "*" ∧ ("*" ∈ subscriptions ∨ name ∈ subscriptions)))

theorem appendIfNeeded_eq_some {lastAckedVersion : ℕ} {forceResponseNames : Finset String}
    {name : String} {v : cacheValue α} {vr : VersionedResource α}
    (h : appendIfNeeded lastAckedVersion forceResponseNames name v = some vr) :
    vr = ⟨name, v.lastModifiedVersion, v.resource⟩ := by
  unfold appendIfNeeded at h
  split_ifs at h
  exact (Option.some_inj.mp h).symm

theorem appendIfNeeded_of_lt {lastAckedVersion : ℕ} (forceResponseNames : Finset String)
    (name : String) {v : cacheValue α} (h : lastAckedVersion < v.lastModifiedVersion) :
    appendIfNeeded lastAckedVersion forceResponseNames name v =
      some ⟨name, v.lastModifiedVersion, v.resource⟩ :=
  if_pos (.inl h)

section Sent

variable {c : Cache α} {typeURL : String} {lastAckedVersion : ℕ}
  {subscriptions ackedResourceNames forceResponseNames : Finset String}

/-- Every resource sent is the cache's, with the version of its last change. -/
theorem lookup_of_mem_deltaVersionedResources {vr : VersionedResource α}
    (h : vr ∈ c.deltaVersionedResources typeURL lastAckedVersion subscriptions
      forceResponseNames) :
    c.resources.lookup ⟨typeURL, vr.name⟩ = some ⟨vr.resource, vr.version⟩ := by
  unfold Cache.deltaVersionedResources at h
  split_ifs at h
  · obtain ⟨e, he, hvr⟩ := List.mem_filterMap.mp h
    split_ifs at hvr with ht
    obtain rfl := appendIfNeeded_eq_some hvr
    subst ht
    exact AList.mem_lookup_iff.mpr he
  · obtain ⟨name, -, hvr⟩ := List.mem_filterMap.mp h
    obtain ⟨v, hv, hvr⟩ := Option.bind_eq_some_iff.mp hvr
    obtain rfl := appendIfNeeded_eq_some hvr
    exact hv

/-- A subscribed resource that changed after the acked version is sent. -/
theorem mem_deltaVersionedResources_of_lt {name : String} {v : cacheValue α}
    (hsub : Subscribed subscriptions name) (hv : c.resources.lookup ⟨typeURL, name⟩ = some v)
    (hlt : lastAckedVersion < v.lastModifiedVersion) :
    ⟨name, v.lastModifiedVersion, v.resource⟩ ∈
      c.deltaVersionedResources typeURL lastAckedVersion subscriptions forceResponseNames := by
  unfold Cache.deltaVersionedResources
  split_ifs with hw
  · refine List.mem_filterMap.mpr ⟨⟨⟨typeURL, name⟩, v⟩, AList.mem_lookup_iff.mp hv, ?_⟩
    rw [if_pos rfl]
    exact appendIfNeeded_of_lt forceResponseNames name hlt
  · have hname : name ∈ subscriptions := hsub.2.resolve_left hw
    refine List.mem_filterMap.mpr ⟨name, (Finset.mem_sort _).mpr hname, ?_⟩
    rw [hv, Option.bind_some]
    exact appendIfNeeded_of_lt forceResponseNames name hlt

/-- Every name reported removed has no resource. -/
theorem lookup_of_mem_deltaRemovedNames {name : String}
    (h : name ∈ c.deltaRemovedNames typeURL subscriptions ackedResourceNames forceResponseNames) :
    c.resources.lookup ⟨typeURL, name⟩ = none := by
  simp only [Cache.deltaRemovedNames, Cache.insertRemovedIfSubscribed, Finset.mem_filter,
    decide_eq_true_eq] at h
  exact Option.isNone_iff_eq_none.mp h.2.2.2

/-- A subscribed name that the client acked and that has no resource is reported removed. -/
theorem mem_deltaRemovedNames_of_acked {name : String} (hsub : Subscribed subscriptions name)
    (hacked : name ∈ ackedResourceNames) (hnone : c.resources.lookup ⟨typeURL, name⟩ = none) :
    name ∈ c.deltaRemovedNames typeURL subscriptions ackedResourceNames forceResponseNames := by
  simp only [Cache.deltaRemovedNames, Cache.insertRemovedIfSubscribed, Finset.mem_filter,
    Finset.mem_union, decide_eq_true_eq, hnone, Option.isNone_none, and_true]
  exact ⟨.inl hacked, hsub⟩

theorem getDeltaResources_eq_none {forceEmptyResponse : Bool}
    (h : c.getDeltaResources typeURL lastAckedVersion subscriptions ackedResourceNames
      forceResponseNames forceEmptyResponse = none) :
    c.deltaVersionedResources typeURL lastAckedVersion subscriptions forceResponseNames = [] ∧
      c.deltaRemovedNames typeURL subscriptions ackedResourceNames forceResponseNames = ∅ := by
  unfold Cache.getDeltaResources at h
  dsimp only at h
  split_ifs at h with hempty
  exact ⟨List.isEmpty_iff.mp hempty.1, hempty.2.1⟩

theorem getDeltaResources_eq_some {forceEmptyResponse : Bool} {res : VersionedResources α}
    (h : c.getDeltaResources typeURL lastAckedVersion subscriptions ackedResourceNames
      forceResponseNames forceEmptyResponse = some res) :
    res = ⟨c.version, (c.deltaVersionedResources typeURL lastAckedVersion subscriptions
      forceResponseNames).insertionSort (fun a b => a.name ≤ b.name),
      (c.deltaRemovedNames typeURL subscriptions ackedResourceNames forceResponseNames).sort
        (· ≤ ·)⟩ := by
  unfold Cache.getDeltaResources at h
  dsimp only at h
  split_ifs at h
  exact (Option.some_inj.mp h).symm

end Sent

/-! ### The system -/

/-- The cache, the stream's state for one type URL, and the client's resources of that type. -/
structure DeltaSystem (α : Type) where
  cache : Cache α
  state : perDeltaTypeStreamState
  client : AList fun _ : String => α

/-- What can happen: the cache changes, or a watch answers and the client accepts (ACK) or
rejects (NACK) the response.  The ACK reads nothing of the cache, so a cache change between a
response and its ACK is the same as one after both. -/
inductive DeltaEvent (α : Type) where
  | update (op : CacheOp α)
  | respond (forceResponseNames : Finset String) (forceEmptyResponse : Bool) (accepted : Bool)

/-- A new stream, from a client that may hold resources from an earlier one: they are its
`initial_resource_versions`, which the first request puts into `ackedResourceNames`. -/
def DeltaSystem.start (c : Cache α) (subscriptions : Finset String)
    (client : AList fun _ : String => α) : DeltaSystem α :=
  ⟨c, ⟨0, client.keys.toFinset, subscriptions⟩, client⟩

section Step

variable [DecidableEq α]

/-- One event. -/
def DeltaSystem.step (typeURL : String) (s : DeltaSystem α) : DeltaEvent α → DeltaSystem α
  | .update op => { s with cache := s.cache.step op }
  | .respond forceResponseNames forceEmptyResponse accepted =>
    match s.cache.getDeltaResources typeURL s.state.lastAckedVersion s.state.subscriptions
      s.state.ackedResourceNames forceResponseNames forceEmptyResponse with
    | some res =>
      if accepted then { s with state := s.state.ack res, client := applyDeltaResponse s.client res }
      else s
    | none => s

/-- A sequence of events. -/
def DeltaSystem.run (typeURL : String) (s : DeltaSystem α) (evs : List (DeltaEvent α)) :
    DeltaSystem α :=
  evs.foldl (DeltaSystem.step typeURL) s

end Step

/-- The client is in step with the stream: the acked version is one the cache has had, the client
holds every subscribed resource not changed since then, and it holds only acked names. -/
structure InSync (typeURL : String) (s : DeltaSystem α) : Prop where
  version_le : s.state.lastAckedVersion ≤ s.cache.version
  current : ∀ name, Subscribed s.state.subscriptions name → ∀ v,
    s.cache.resources.lookup ⟨typeURL, name⟩ = some v →
    v.lastModifiedVersion ≤ s.state.lastAckedVersion → s.client.lookup name = some v.resource
  acked : ∀ name ∈ s.client, name ∈ s.state.ackedResourceNames

section Sync

variable {typeURL : String} {s : DeltaSystem α}

/-- A new stream starts in step over a cache whose versions are all positive. -/
theorem inSync_start (c : Cache α) (subscriptions : Finset String)
    (client : AList fun _ : String => α)
    (hpos : ∀ k v, c.resources.lookup k = some v → 0 < v.lastModifiedVersion) :
    InSync typeURL (DeltaSystem.start c subscriptions client) where
  version_le := Nat.zero_le _
  current _ _ v hv hle := absurd hle (Nat.not_le.mpr (hpos _ v hv))
  acked _ h := List.mem_toFinset.mpr (AList.mem_keys.mpr h)

/-- The cache moving on keeps the client in step: what it changes is stamped after every version
the client can have acked. -/
theorem InSync.advance {c' : Cache α} (hs : InSync typeURL s) (ha : s.cache.Advances c') :
    InSync typeURL { s with cache := c' } where
  version_le := hs.version_le.trans ha.version_le
  current name hsub v hv hle := by
    rcases ha.stamp _ v hv with hold | hnew
    · exact hs.current name hsub v hold hle
    · exact absurd (hle.trans hs.version_le) (Nat.not_le.mpr hnew)
  acked := hs.acked

/-- With nothing to send, the client already holds the cache's resource of every subscribed
name. -/
theorem InSync.client_eq_of_none (hs : InSync typeURL s) {forceResponseNames : Finset String}
    (hvrs : s.cache.deltaVersionedResources typeURL s.state.lastAckedVersion
      s.state.subscriptions forceResponseNames = [])
    (hrem : s.cache.deltaRemovedNames typeURL s.state.subscriptions s.state.ackedResourceNames
      forceResponseNames = ∅)
    {name : String} (hsub : Subscribed s.state.subscriptions name) :
    s.client.lookup name = resourceAt s.cache.resources ⟨typeURL, name⟩ := by
  unfold resourceAt
  cases hv : s.cache.resources.lookup ⟨typeURL, name⟩ with
  | none =>
    -- an acked name without a resource would have been reported removed
    rw [Option.map_none, ← Option.not_isSome_iff_eq_none, AList.lookup_isSome]
    intro hmem
    have hremoved : name ∈ s.cache.deltaRemovedNames typeURL s.state.subscriptions
        s.state.ackedResourceNames forceResponseNames :=
      mem_deltaRemovedNames_of_acked hsub (hs.acked name hmem) hv
    simp [hrem] at hremoved
  | some v =>
    -- a resource changed after the acked version would have been sent
    have hle : v.lastModifiedVersion ≤ s.state.lastAckedVersion := by
      by_contra hlt
      have hsent : ⟨name, v.lastModifiedVersion, v.resource⟩ ∈ s.cache.deltaVersionedResources
          typeURL s.state.lastAckedVersion s.state.subscriptions forceResponseNames :=
        mem_deltaVersionedResources_of_lt hsub hv (Nat.lt_of_not_le hlt)
      simp [hvrs] at hsent
    exact hs.current name hsub v hv hle

/-- After a response it accepts, the client holds the cache's resource of every subscribed
name. -/
theorem InSync.client_eq_of_some (hs : InSync typeURL s) {forceResponseNames : Finset String}
    {forceEmptyResponse : Bool} {res : VersionedResources α}
    (hres : s.cache.getDeltaResources typeURL s.state.lastAckedVersion s.state.subscriptions
      s.state.ackedResourceNames forceResponseNames forceEmptyResponse = some res)
    {name : String} (hsub : Subscribed s.state.subscriptions name) :
    (applyDeltaResponse s.client res).lookup name =
      resourceAt s.cache.resources ⟨typeURL, name⟩ := by
  have hres' := getDeltaResources_eq_some hres
  have hsentv : ∀ vr ∈ res.versionedResources,
      s.cache.resources.lookup ⟨typeURL, vr.name⟩ = some ⟨vr.resource, vr.version⟩ := by
    intro vr hvr
    rw [hres', List.mem_insertionSort] at hvr
    exact lookup_of_mem_deltaVersionedResources hvr
  have hremv : ∀ n ∈ res.removedNames, s.cache.resources.lookup ⟨typeURL, n⟩ = none := by
    intro n hn
    rw [hres', Finset.mem_sort] at hn
    exact lookup_of_mem_deltaRemovedNames hn
  unfold resourceAt
  cases hv : s.cache.resources.lookup ⟨typeURL, name⟩ with
  | none =>
    have hnot : ∀ vr ∈ res.versionedResources, vr.name ≠ name := by
      rintro vr hvr rfl
      simp [hsentv vr hvr] at hv
    rw [lookup_applyDeltaResponse_of_not_sent _ _ hnot, Option.map_none]
    split_ifs with hr
    · rfl
    · -- not removed, so not acked, so not held
      rw [← Option.not_isSome_iff_eq_none, AList.lookup_isSome]
      intro hmem
      apply hr
      rw [hres', Finset.mem_sort]
      exact mem_deltaRemovedNames_of_acked hsub (hs.acked name hmem) hv
  | some v =>
    have hnotrem : name ∉ res.removedNames := fun hn => by simp [hremv name hn] at hv
    have hx : ∀ vr ∈ res.versionedResources, vr.name = name → vr.resource = v.resource := by
      rintro vr hvr rfl
      rw [hsentv vr hvr, Option.some_inj] at hv
      rw [← hv]
    by_cases hsent : ∃ vr ∈ res.versionedResources, vr.name = name
    · rw [lookup_applyDeltaResponse_of_sent _ _ hnotrem hsent hx, Option.map_some]
    · -- not sent, so not changed after the acked version
      have hle : v.lastModifiedVersion ≤ s.state.lastAckedVersion := by
        by_contra hlt
        refine hsent ⟨⟨name, v.lastModifiedVersion, v.resource⟩, ?_, rfl⟩
        rw [hres', List.mem_insertionSort]
        exact mem_deltaVersionedResources_of_lt hsub hv (Nat.lt_of_not_le hlt)
      have hnot : ∀ vr ∈ res.versionedResources, vr.name ≠ name := fun vr hvr hn =>
        hsent ⟨vr, hvr, hn⟩
      rw [lookup_applyDeltaResponse_of_not_sent _ _ hnot, if_neg hnotrem,
        hs.current name hsub v hv hle, Option.map_some]

/-- A response the client accepts keeps it in step, now at the cache's version. -/
theorem InSync.accept (hs : InSync typeURL s) {forceResponseNames : Finset String}
    {forceEmptyResponse : Bool} {res : VersionedResources α}
    (hres : s.cache.getDeltaResources typeURL s.state.lastAckedVersion s.state.subscriptions
      s.state.ackedResourceNames forceResponseNames forceEmptyResponse = some res) :
    InSync typeURL { s with state := s.state.ack res, client := applyDeltaResponse s.client res }
    where
  version_le := by
    rw [getDeltaResources_eq_some hres]
    exact le_rfl
  current name hsub v hv _ := by
    have := hs.client_eq_of_some hres hsub
    rw [resourceAt, hv, Option.map_some] at this
    exact this
  acked name hmem := by
    simp only [perDeltaTypeStreamState.ack, Finset.mem_union, Finset.mem_sdiff,
      List.mem_toFinset, List.mem_map]
    by_cases hsent : ∃ vr ∈ res.versionedResources, vr.name = name
    · exact .inr hsent
    · have hnot : ∀ vr ∈ res.versionedResources, vr.name ≠ name := fun vr hvr hn =>
        hsent ⟨vr, hvr, hn⟩
      rw [← AList.lookup_isSome, lookup_applyDeltaResponse_of_not_sent _ _ hnot] at hmem
      split_ifs at hmem with hr
      · simp at hmem
      · exact .inl ⟨hs.acked name (AList.lookup_isSome.mp hmem), hr⟩

variable [DecidableEq α]

theorem InSync.step (hs : InSync typeURL s) (ev : DeltaEvent α) :
    InSync typeURL (s.step typeURL ev) := by
  cases ev with
  | update op => exact hs.advance (s.cache.advances_step op)
  | respond forceResponseNames forceEmptyResponse accepted =>
    simp only [DeltaSystem.step]
    split
    · next res hres =>
      split
      · exact hs.accept hres
      · exact hs
    · exact hs

theorem InSync.run (hs : InSync typeURL s) (evs : List (DeltaEvent α)) :
    InSync typeURL (s.run typeURL evs) :=
  Trace.foldl_rel (DeltaSystem.step typeURL) (fun s s' => InSync typeURL s → InSync typeURL s')
    (fun _ h => h) (fun _ _ _ h₁ h₂ h => h₂ (h₁ h)) (fun _ ev h => h.step ev) evs s hs

theorem DeltaSystem.run_subscriptions (s : DeltaSystem α) (evs : List (DeltaEvent α)) :
    (s.run typeURL evs).state.subscriptions = s.state.subscriptions := by
  refine Trace.foldl_rel (DeltaSystem.step typeURL)
    (fun s s' => s'.state.subscriptions = s.state.subscriptions) (fun _ => rfl)
    (fun _ _ _ h₁ h₂ => h₂.trans h₁) (fun s ev => ?_) evs s
  cases ev with
  | update op => rfl
  | respond forceResponseNames forceEmptyResponse accepted =>
    simp only [DeltaSystem.step]
    split
    · split <;> rfl
    · rfl

/-- The delta protocol loses no update: on a stream that a client, perhaps holding stale
resources, opens over a cache built from `NewCache`, after any interleaving of cache changes and
responses, accepted or not, a watch that answers leaves the client, once it accepts the answer,
holding for every subscribed name exactly the cache's resource. -/
theorem run_respond_client_eq_cache (typeURL : String) (pre : List (CacheOp α))
    (subscriptions : Finset String) (client : AList fun _ : String => α)
    (evs : List (DeltaEvent α)) (forceResponseNames : Finset String) (forceEmptyResponse : Bool)
    (name : String) (hsub : Subscribed subscriptions name) :
    let s := ((DeltaSystem.start (newCache.run pre) subscriptions client).run typeURL evs).step
      typeURL (.respond forceResponseNames forceEmptyResponse true)
    s.client.lookup name = resourceAt s.cache.resources ⟨typeURL, name⟩ := by
  intro s
  set s₀ := (DeltaSystem.start (newCache.run pre) subscriptions client).run typeURL evs
  -- everything a run from `NewCache` writes is stamped after its version 1
  have hpos : ∀ k v, (newCache.run pre).resources.lookup k = some v →
      0 < v.lastModifiedVersion := by
    intro k v hv
    rcases (newCache.advances_run pre).stamp k v hv with hold | hnew
    · simp [newCache] at hold
    · exact Nat.zero_lt_of_lt hnew
  have hs : InSync typeURL s₀ := (inSync_start _ subscriptions client hpos).run evs
  have hsub₀ : Subscribed s₀.state.subscriptions name := by
    rw [DeltaSystem.run_subscriptions]
    exact hsub
  simp only [s, DeltaSystem.step]
  cases hres : s₀.cache.getDeltaResources typeURL s₀.state.lastAckedVersion
    s₀.state.subscriptions s₀.state.ackedResourceNames forceResponseNames forceEmptyResponse with
  | none =>
    obtain ⟨hvrs, hrem⟩ := getDeltaResources_eq_none hres
    exact hs.client_eq_of_none hvrs hrem hsub₀
  | some res =>
    exact hs.client_eq_of_some hres hsub₀

theorem run_respond_client_eq_cache_stale_client :
    Subscribed {"*"} "b" ∧
      let s := ((DeltaSystem.start (newCache.run [.tx "t" (AList.singleton "a" 1) []]) {"*"}
        (AList.singleton "b" 7)).run "t" []).step "t" (.respond ∅ false true)
      s.client.lookup "b" = resourceAt s.cache.resources ⟨"t", "b"⟩ :=
  ⟨by decide, run_respond_client_eq_cache "t" [.tx "t" (AList.singleton "a" 1) []] {"*"}
    (AList.singleton "b" 7) [] ∅ false "b" (by decide)⟩

end Sync

end Cilium.Xds
