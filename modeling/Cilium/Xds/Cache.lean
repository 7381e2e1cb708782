import Mathlib.Data.List.AList
import Mathlib.Data.List.Sort

/-! The resource cache of `pkg/envoy/xds/cache.go`: the xDS resources by type URL and name, each
with the version of its last change, and the version of the whole cache.  `TX` upserts and
deletes resources of one type URL, advances the version once if anything changed, and returns a
revert function; that function is modelled by the arguments of the transaction it runs.
Resources are values of any type, compared with `=` where the source uses `proto.Equal`; the
logger, the lock and the channel that `advanceVersionLocked` closes to wake watchers are left
out. -/

namespace Cilium.Xds

/-- `cacheKey`. -/
structure cacheKey where
  typeURL : String
  resourceName : String
  deriving DecidableEq, Repr

/-- `cacheValue`. -/
structure cacheValue (α : Type) where
  resource : α
  lastModifiedVersion : ℕ
  deriving DecidableEq, Repr

/-- `Cache`. -/
structure Cache (α : Type) where
  resources : AList fun _ : cacheKey => cacheValue α
  version : ℕ

/-- `NewCache`. -/
def newCache {α : Type} : Cache α := ⟨∅, 1⟩

/-- The transaction that the `ResourceMutatorRevertFunc` of a `TX` runs. -/
structure revertTX (α : Type) where
  typeURL : String
  upsertedResources : AList fun _ : String => α
  deletedNames : List String

/-- What the two loops of `TX` carry: the resources, the old values to put back on revert, the
inserted names to delete on revert, and whether anything changed. -/
structure txState (α : Type) where
  resources : AList fun _ : cacheKey => cacheValue α
  revertUpsertedResources : AList fun _ : String => α
  revertDeletedNames : List String
  cacheIsUpdated : Bool

variable {α : Type}

/-- One name of the delete loop of `TX`. -/
def deleteStep (typeURL : String) (st : txState α) (name : String) : txState α :=
  let k : cacheKey := ⟨typeURL, name⟩
  match st.resources.lookup k with
  | some oldV => { st with
      resources := st.resources.erase k
      revertUpsertedResources := st.revertUpsertedResources.insert name oldV.resource
      cacheIsUpdated := true }
  | none => st

section TX

variable [DecidableEq α]

/-- One resource of the upsert loop of `TX`. -/
def upsertStep (typeURL : String) (newVersion : ℕ) (st : txState α) (name : String) (value : α) :
    txState α :=
  let k : cacheKey := ⟨typeURL, name⟩
  match st.resources.lookup k with
  | some oldV =>
    if oldV.resource = value then st
    else { st with
      resources := st.resources.insert k ⟨value, newVersion⟩
      revertUpsertedResources := st.revertUpsertedResources.insert name oldV.resource
      cacheIsUpdated := true }
  | none => { st with
      resources := st.resources.insert k ⟨value, newVersion⟩
      revertDeletedNames := st.revertDeletedNames ++ [name]
      cacheIsUpdated := true }

/-- The two loops of `TX`: the upserts in the map's order, then the deletions. -/
def txLoops (resources : AList fun _ : cacheKey => cacheValue α) (typeURL : String)
    (newVersion : ℕ) (upsertedResources : AList fun _ : String => α) (deletedNames : List String) :
    txState α :=
  deletedNames.foldl (deleteStep typeURL)
    (upsertedResources.entries.foldl (fun st e => upsertStep typeURL newVersion st e.1 e.2)
      ⟨resources, ∅, [], false⟩)

/-- `Cache.TX`: the cache after the transaction, its version, whether it changed, and the revert
transaction.  `advanceVersionLocked` is called with `version + 1`, so it never meets a decreasing
version and always advances. -/
def Cache.tx (c : Cache α) (typeURL : String) (upsertedResources : AList fun _ : String => α)
    (deletedNames : List String) : Cache α × ℕ × Bool × Option (revertTX α) :=
  let newVersion := c.version + 1
  let st := txLoops c.resources typeURL newVersion upsertedResources deletedNames
  if st.cacheIsUpdated then
    (⟨st.resources, newVersion⟩, newVersion, true,
      some ⟨typeURL, st.revertUpsertedResources, st.revertDeletedNames⟩)
  else (⟨st.resources, c.version⟩, c.version, false, none)

/-- A `ResourceMutatorRevertFunc` returned by `TX`: it runs the revert transaction and returns the
version and whether it changed the cache. -/
def Cache.revert (c : Cache α) (r : revertTX α) : Cache α × ℕ × Bool :=
  let (c, version, updated, _) := c.tx r.typeURL r.upsertedResources r.deletedNames
  (c, version, updated)

/-- `Cache.Upsert`. -/
def Cache.upsert (c : Cache α) (typeURL resourceName : String) (resource : α) :
    Cache α × ℕ × Bool × Option (revertTX α) :=
  c.tx typeURL (AList.singleton resourceName resource) []

/-- `Cache.Delete`. -/
def Cache.delete (c : Cache α) (typeURL resourceName : String) :
    Cache α × ℕ × Bool × Option (revertTX α) :=
  c.tx typeURL ∅ [resourceName]

end TX

/-- `Cache.Clear`: deletes every resource of the type URL. -/
def Cache.clear (c : Cache α) (typeURL : String) : Cache α × ℕ × Bool :=
  let resources := c.resources.keys.foldl
    (fun m k => if k.typeURL = typeURL then m.erase k else m) c.resources
  if c.resources.keys.any (·.typeURL = typeURL) then
    (⟨resources, c.version + 1⟩, c.version + 1, true)
  else (⟨resources, c.version⟩, c.version, false)

/-- `AnyTypeURL`. -/
def AnyTypeURL : String := ""

/-- `Cache.HasAny`. -/
def Cache.hasAny (c : Cache α) (typeURL : String) : Bool :=
  c.resources.keys.any fun k => typeURL = AnyTypeURL || k.typeURL = typeURL

/-- `VersionedResource`. -/
structure VersionedResource (α : Type) where
  name : String
  version : ℕ
  resource : α

/-- `VersionedResources`, without `Canary`, which the cache always leaves false.  `RemovedNames`
is filled by `GetDeltaResources` only. -/
structure VersionedResources (α : Type) where
  version : ℕ
  versionedResources : List (VersionedResource α)
  removedNames : List String

/-- `Cache.GetResources`: `none` when the requester is up to date.  Without names, every resource
of the type in the map's order; with names, the ones found, sorted by name, unless all were found
and none changed after `lastVersion`. -/
def Cache.getResources (c : Cache α) (typeURL : String) (lastVersion : ℕ)
    (resourceNames : List String) : Option (VersionedResources α) :=
  if lastVersion > 0 ∧ c.version ≤ lastVersion then none
  else if resourceNames = [] then
    some ⟨c.version, c.resources.entries.filterMap fun e =>
      if e.1.typeURL = typeURL then some ⟨e.1.resourceName, e.2.lastModifiedVersion, e.2.resource⟩
      else none, []⟩
  else
    let found := resourceNames.filterMap fun name =>
      (c.resources.lookup ⟨typeURL, name⟩).map fun v => (⟨name, v.lastModifiedVersion, v.resource⟩ :
        VersionedResource α)
    let allResourcesFound := found.length = resourceNames.length
    let updatedSinceLastVersion := found.any fun r => lastVersion = 0 ∨ lastVersion < r.version
    if allResourcesFound ∧ !updatedSinceLastVersion then none
    else some ⟨c.version, found.insertionSort (fun a b => a.name ≤ b.name), []⟩

section Revert

/-- The resource under a key, without the version of its last change. -/
def resourceAt (resources : AList fun _ : cacheKey => cacheValue α) (k : cacheKey) : Option α :=
  (resources.lookup k).map cacheValue.resource

/-- The resource that a transaction leaves under name `n` of its type URL, given the one before:
none if the name is deleted, else the upserted value if there is one. -/
def txResult (upserted : AList fun _ : String => α) (deleted : List String) (old : Option α)
    (n : String) : Option α :=
  if n ∈ deleted then none else (upserted.lookup n).or old

theorem resourceAt_insert (R : AList fun _ : cacheKey => cacheValue α) (k k' : cacheKey) (x : α)
    (v : ℕ) : resourceAt (R.insert k ⟨x, v⟩) k' = if k' = k then some x else resourceAt R k' := by
  by_cases h : k' = k
  · subst h; simp [resourceAt, AList.lookup_insert]
  · simp [resourceAt, AList.lookup_insert_ne h, h]

theorem resourceAt_erase (R : AList fun _ : cacheKey => cacheValue α) (k k' : cacheKey) :
    resourceAt (R.erase k) k' = if k' = k then none else resourceAt R k' := by
  by_cases h : k' = k
  · subst h; simp [resourceAt, AList.lookup_erase]
  · simp [resourceAt, AList.lookup_erase_ne h, h]

theorem resourceAt_deleteStep (t : String) (st : txState α) (n : String) (k : cacheKey) :
    resourceAt (deleteStep t st n).resources k =
      if k = ⟨t, n⟩ then none else resourceAt st.resources k := by
  cases hold : st.resources.lookup ⟨t, n⟩ with
  | none =>
    simp only [deleteStep, hold]
    split
    · next hk => subst hk; simp [resourceAt, hold]
    · rfl
  | some oldV =>
    simp only [deleteStep, hold]
    exact resourceAt_erase _ _ _

/-- The delete loop: a deleted name of the type URL has no resource, every other key keeps its
resource. -/
theorem resourceAt_deleteLoop (t : String) (d : List String) (st : txState α) (k : cacheKey) :
    resourceAt (d.foldl (deleteStep t) st).resources k =
      if k.typeURL = t ∧ k.resourceName ∈ d then none else resourceAt st.resources k := by
  induction d generalizing st with
  | nil => simp
  | cons n d ih =>
    rw [List.foldl_cons, ih, resourceAt_deleteStep]
    obtain ⟨t', n'⟩ := k
    by_cases hk : t' = t ∧ n' = n
    · obtain ⟨rfl, rfl⟩ := hk
      simp
    · simp only [cacheKey.mk.injEq, List.mem_cons]
      by_cases ht : t' = t <;> simp_all

theorem deleteStep_eq_self (t : String) (st : txState α) (n : String)
    (h : (deleteStep t st n).cacheIsUpdated = false) : deleteStep t st n = st := by
  cases hold : st.resources.lookup ⟨t, n⟩ with
  | none => simp [deleteStep, hold]
  | some oldV => simp [deleteStep, hold] at h

/-- A loop whose steps only leave the flag down when they change nothing changes nothing when it
ends with the flag down. -/
theorem foldl_eq_self_of_flag {σ β : Type} (f : σ → β → σ) (flag : σ → Bool)
    (hf : ∀ s b, flag (f s b) = false → f s b = s) (l : List β) (s : σ)
    (h : flag (l.foldl f s) = false) : l.foldl f s = s := by
  induction l generalizing s with
  | nil => rfl
  | cons b l ih =>
    rw [List.foldl_cons] at h ⊢
    have hrest := ih (f s b) h
    rw [hrest] at h ⊢
    exact hf s b h

/-- `TX`'s loops part way, against the original resources `o` of the type URL: `done` holds the
names handled so far.  A name not yet handled keeps its resource and has no revert data; the
revert transaction, run on the resources so far, would give back `o`; and the cache counts as
updated only when some resource differs from `o`. -/
structure Undoes (t : String) (o : String → Option α) (done : Set String) (st : txState α) :
    Prop where
  fresh : ∀ n ∉ done, resourceAt st.resources ⟨t, n⟩ = o n ∧
    st.revertUpsertedResources.lookup n = none ∧ n ∉ st.revertDeletedNames
  undo : ∀ n, txResult st.revertUpsertedResources st.revertDeletedNames
    (resourceAt st.resources ⟨t, n⟩) n = o n
  changed : st.cacheIsUpdated = true → ∃ n, resourceAt st.resources ⟨t, n⟩ ≠ o n

variable {t : String} {o : String → Option α}

theorem Undoes.mono {done done' : Set String} {st : txState α} (h : Undoes t o done st)
    (hsub : done ⊆ done') : Undoes t o done' st :=
  ⟨fun n hn => h.fresh n fun hd => hn (hsub hd), h.undo, h.changed⟩

theorem undoes_start (R : AList fun _ : cacheKey => cacheValue α) (t : String) :
    Undoes t (fun n => resourceAt R ⟨t, n⟩) ∅ ⟨R, ∅, [], false⟩ :=
  ⟨fun _ _ => ⟨rfl, AList.lookup_empty _, List.not_mem_nil⟩,
    fun n => by simp [txResult, AList.lookup_empty], fun h => absurd h (by simp)⟩

/-- Deleting a name keeps `Undoes` when the name is new, or when it is already gone. -/
theorem Undoes.delete {done : Set String} {st : txState α} (h : Undoes t o done st)
    {m : String} (hm : m ∉ done ∨ resourceAt st.resources ⟨t, m⟩ = none) :
    Undoes t o (insert m done) (deleteStep t st m) := by
  cases hold : st.resources.lookup ⟨t, m⟩ with
  | some oldV =>
    have hm' : m ∉ done := by
      rcases hm with hm | hm
      · exact hm
      · simp [resourceAt, hold] at hm
    obtain ⟨hres, hup, hdel⟩ := h.fresh m hm'
    have hom : o m = some oldV.resource := by simp [← hres, resourceAt, hold]
    simp only [deleteStep, hold]
    refine ⟨fun n hn => ?_, fun n => ?_, fun _ => ⟨m, ?_⟩⟩
    · have hnm : n ≠ m := fun e => hn (e ▸ Set.mem_insert m done)
      obtain ⟨h1, h2, h3⟩ := h.fresh n fun hd => hn (Set.mem_insert_of_mem m hd)
      simp [resourceAt_erase, hnm, h1, AList.lookup_insert_ne hnm, h2, h3]
    · by_cases hnm : n = m
      · subst hnm; simp [txResult, hdel, AList.lookup_insert, hom]
      · have := h.undo n
        simp_all [txResult, resourceAt_erase, AList.lookup_insert_ne hnm]
    · simp [resourceAt_erase, hom]
  | none =>
    simp only [deleteStep, hold]
    exact h.mono (Set.subset_insert m done)

theorem Undoes.deleteLoop {done : Set String} {st : txState α} (d : List String)
    (h : Undoes t o done st) (hd : ∀ n ∈ d, n ∉ done ∨ resourceAt st.resources ⟨t, n⟩ = none) :
    Undoes t o (done ∪ {n | n ∈ d}) (d.foldl (deleteStep t) st) := by
  induction d generalizing st done with
  | nil => simpa using h
  | cons m d ih =>
    have hstep := h.delete (hd m (by simp))
    -- a later copy of `m` finds it gone; any other name is as it was
    have hrest := ih hstep fun n hn => by
      by_cases hnm : n = m
      · subst hnm; exact Or.inr (by simp [resourceAt_deleteStep])
      · rcases hd n (by simp [hn]) with hnd | hnone
        · exact Or.inl fun hins => hnd ((Set.mem_insert_iff.mp hins).resolve_left hnm)
        · exact Or.inr (by simp [resourceAt_deleteStep, hnm, hnone])
    refine hrest.mono fun n hn => ?_
    rcases hn with hn | hn
    · rcases Set.mem_insert_iff.mp hn with rfl | hdn
      · exact Or.inr (by simp)
      · exact Or.inl hdn
    · exact Or.inr (List.mem_cons_of_mem m hn)

variable [DecidableEq α]

theorem resourceAt_upsertStep (t : String) (v : ℕ) (st : txState α) (n : String) (x : α)
    (k : cacheKey) :
    resourceAt (upsertStep t v st n x).resources k =
      if k = ⟨t, n⟩ then some x else resourceAt st.resources k := by
  cases hold : st.resources.lookup ⟨t, n⟩ with
  | none =>
    simp only [upsertStep, hold]
    exact resourceAt_insert _ _ _ _ _
  | some oldV =>
    by_cases hx : oldV.resource = x
    · simp only [upsertStep, hold, hx, if_true]
      split
      · next hk => subst hk; simp [resourceAt, hold, hx]
      · rfl
    · simp only [upsertStep, hold, hx, if_false]
      exact resourceAt_insert _ _ _ _ _

/-- The upsert loop: under its type URL, a name of the loop has its value, and every other key
keeps its resource. -/
theorem resourceAt_upsertLoop (t : String) (v : ℕ) (l : List (Sigma fun _ : String => α))
    (hl : l.NodupKeys) (st : txState α) (k : cacheKey) :
    resourceAt (l.foldl (fun st e => upsertStep t v st e.1 e.2) st).resources k =
      if k.typeURL = t then (l.dlookup k.resourceName).or (resourceAt st.resources k)
      else resourceAt st.resources k := by
  induction l generalizing st with
  | nil => simp
  | cons e l ih =>
    obtain ⟨a, x⟩ := e
    obtain ⟨he, hl⟩ := List.nodupKeys_cons.mp hl
    rw [List.foldl_cons, ih hl, resourceAt_upsertStep]
    obtain ⟨t', n⟩ := k
    by_cases ht : t' = t
    · subst ht
      by_cases hn : n = a
      · subst hn
        simp [List.dlookup_eq_none.mpr he, List.dlookup_cons_eq]
      · simp [hn, List.dlookup_cons_ne l ⟨a, x⟩ hn]
    · simp [ht]

theorem resourceAt_txLoops (R : AList fun _ : cacheKey => cacheValue α) (t : String) (v : ℕ)
    (u : AList fun _ : String => α) (d : List String) (k : cacheKey) :
    resourceAt (txLoops R t v u d).resources k =
      if k.typeURL = t then txResult u d (resourceAt R k) k.resourceName else resourceAt R k := by
  rw [txLoops, resourceAt_deleteLoop, resourceAt_upsertLoop t v _ u.nodupKeys]
  by_cases ht : k.typeURL = t
  · simp only [ht, true_and, if_true, txResult]
    rfl
  · simp [ht]

@[simp] theorem tx_resources (c : Cache α) (t : String) (u : AList fun _ : String => α)
    (d : List String) :
    (c.tx t u d).1.resources = (txLoops c.resources t (c.version + 1) u d).resources := by
  by_cases h : (txLoops c.resources t (c.version + 1) u d).cacheIsUpdated <;> simp [Cache.tx, h]

/-- The resources after `TX`: under its type URL, a deleted name has none and an upserted one has
its new value; every other key keeps its resource. -/
theorem resourceAt_tx (c : Cache α) (t : String) (u : AList fun _ : String => α)
    (d : List String) (k : cacheKey) :
    resourceAt (c.tx t u d).1.resources k =
      if k.typeURL = t then txResult u d (resourceAt c.resources k) k.resourceName
      else resourceAt c.resources k := by
  rw [tx_resources, resourceAt_txLoops]

theorem upsertStep_eq_self (t : String) (v : ℕ) (st : txState α) (n : String) (x : α)
    (h : (upsertStep t v st n x).cacheIsUpdated = false) : upsertStep t v st n x = st := by
  cases hold : st.resources.lookup ⟨t, n⟩ with
  | none => simp [upsertStep, hold] at h
  | some oldV =>
    by_cases hx : oldV.resource = x
    · simp [upsertStep, hold, hx]
    · simp [upsertStep, hold, hx] at h

/-- A transaction that reports no change leaves the resources as they were. -/
theorem txLoops_eq_of_not_updated (R : AList fun _ : cacheKey => cacheValue α) (t : String)
    (v : ℕ) (u : AList fun _ : String => α) (d : List String)
    (h : (txLoops R t v u d).cacheIsUpdated = false) :
    txLoops R t v u d = ⟨R, ∅, [], false⟩ := by
  unfold txLoops at h ⊢
  have hdel := foldl_eq_self_of_flag _ txState.cacheIsUpdated (deleteStep_eq_self t) d _ h
  rw [hdel] at h ⊢
  exact foldl_eq_self_of_flag _ txState.cacheIsUpdated
    (fun st e => upsertStep_eq_self t v st e.1 e.2) u.entries _ h

/-- Upserting a name not yet handled keeps `Undoes`: its old value, or its absence, is what the
revert data now holds for it. -/
theorem Undoes.upsert {done : Set String} {st : txState α} (h : Undoes t o done st)
    (v : ℕ) {m : String} (hm : m ∉ done) (x : α) :
    Undoes t o (insert m done) (upsertStep t v st m x) := by
  obtain ⟨hres, hup, hdel⟩ := h.fresh m hm
  cases hold : st.resources.lookup ⟨t, m⟩ with
  | some oldV =>
    have hom : o m = some oldV.resource := by simp [← hres, resourceAt, hold]
    by_cases hx : oldV.resource = x
    · simp only [upsertStep, hold, hx, if_true]
      exact h.mono (Set.subset_insert m done)
    · simp only [upsertStep, hold, hx, if_false]
      refine ⟨fun n hn => ?_, fun n => ?_, fun _ => ⟨m, ?_⟩⟩
      · have hnm : n ≠ m := fun e => hn (e ▸ Set.mem_insert m done)
        obtain ⟨h1, h2, h3⟩ := h.fresh n fun hd => hn (Set.mem_insert_of_mem m hd)
        simp [resourceAt_insert, hnm, h1, AList.lookup_insert_ne hnm, h2, h3]
      · by_cases hnm : n = m
        · subst hnm; simp [txResult, hdel, AList.lookup_insert, hom]
        · have := h.undo n
          simp_all [txResult, resourceAt_insert, AList.lookup_insert_ne hnm]
      · simp [resourceAt_insert, hom, Ne.symm hx]
  | none =>
    have hom : o m = none := by simp [← hres, resourceAt, hold]
    simp only [upsertStep, hold]
    refine ⟨fun n hn => ?_, fun n => ?_, fun _ => ⟨m, ?_⟩⟩
    · have hnm : n ≠ m := fun e => hn (e ▸ Set.mem_insert m done)
      obtain ⟨h1, h2, h3⟩ := h.fresh n fun hd => hn (Set.mem_insert_of_mem m hd)
      simp [resourceAt_insert, hnm, h1, h2, h3]
    · by_cases hnm : n = m
      · subst hnm; simp [txResult, hom]
      · have := h.undo n
        simp_all [txResult, resourceAt_insert]
    · simp [resourceAt_insert, hom]

theorem Undoes.upsertLoop {done : Set String} {st : txState α} (v : ℕ)
    (l : List (Sigma fun _ : String => α)) (hl : l.NodupKeys) (h : Undoes t o done st)
    (hfresh : ∀ n ∈ l.keys, n ∉ done) :
    Undoes t o (done ∪ {n | n ∈ l.keys}) (l.foldl (fun st e => upsertStep t v st e.1 e.2) st) := by
  induction l generalizing st done with
  | nil => simpa using h
  | cons e l ih =>
    obtain ⟨he, hl⟩ := List.nodupKeys_cons.mp hl
    have hstep := h.upsert v (hfresh e.1 (by simp)) e.2
    have hrest := ih hl hstep fun n hn hins => by
      rcases Set.mem_insert_iff.mp hins with rfl | hd
      · exact he hn
      · exact hfresh n (by simp [hn]) hd
    refine hrest.mono fun n hn => ?_
    rcases hn with hn | hn
    · rcases Set.mem_insert_iff.mp hn with rfl | hd
      · exact Or.inr (by simp)
      · exact Or.inl hd
    · exact Or.inr (List.mem_cons_of_mem _ hn)

/-- The loops of a transaction whose deleted names are not upserted leave revert data that gives
back every resource of the type URL, and they report a change only if they made one. -/
theorem undoes_txLoops (R : AList fun _ : cacheKey => cacheValue α) (t : String) (v : ℕ)
    (u : AList fun _ : String => α) (d : List String) (hdisj : ∀ n ∈ d, n ∉ u) :
    Undoes t (fun n => resourceAt R ⟨t, n⟩) (∅ ∪ {n | n ∈ u.keys} ∪ {n | n ∈ d})
      (txLoops R t v u d) := by
  have hup := (undoes_start R t).upsertLoop v u.entries u.nodupKeys fun _ _ h => h
  exact hup.deleteLoop d fun n hn => Or.inl fun hmem => by
    rcases hmem with h | h
    · exact h.elim
    · exact hdisj n hn (AList.mem_keys.mpr h)

/-- Running the revert function of a transaction that changed the cache, right after it, gives
back every resource the cache held before (only the versions of their last change differ), and
advances the version once more.  No name may be both upserted and deleted by the transaction. -/
theorem tx_revert_restores (c : Cache α) (typeURL : String)
    (upsertedResources : AList fun _ : String => α) (deletedNames : List String)
    (hdisj : ∀ name ∈ deletedNames, name ∉ upsertedResources) {c' : Cache α} {version : ℕ}
    {r : revertTX α}
    (h : c.tx typeURL upsertedResources deletedNames = (c', version, true, some r)) :
    (∀ k, resourceAt (c'.revert r).1.resources k = resourceAt c.resources k) ∧
      (c'.revert r).2 = (c.version + 2, true) := by
  set st := txLoops c.resources typeURL (c.version + 1) upsertedResources deletedNames with hst
  have hinv := undoes_txLoops c.resources typeURL (c.version + 1) upsertedResources deletedNames
    hdisj
  have hupd : st.cacheIsUpdated = true := by
    by_contra hne
    simp [Cache.tx, ← hst, hne] at h
  simp only [Cache.tx, ← hst, hupd, if_true, Prod.mk.injEq, Option.some.injEq] at h
  obtain ⟨rfl, -, -, rfl⟩ := h
  -- the revert transaction, on the cache the transaction left, undoes it key by key
  have hrestore : ∀ k, resourceAt ((⟨st.resources, c.version + 1⟩ : Cache α).tx typeURL
      st.revertUpsertedResources st.revertDeletedNames).1.resources k =
        resourceAt c.resources k := by
    intro k
    rw [resourceAt_tx]
    by_cases ht : k.typeURL = typeURL
    · obtain ⟨t', n⟩ := k
      simp only at ht
      subst ht
      rw [if_pos rfl]
      exact hinv.undo n
    · simp only [ht, if_false]
      rw [hst, resourceAt_txLoops]
      simp [ht]
  refine ⟨hrestore, ?_⟩
  -- it changes the resource that the transaction changed, so it reports an update
  obtain ⟨n, hn⟩ := hinv.changed hupd
  have hrupd : (txLoops st.resources typeURL (c.version + 1 + 1) st.revertUpsertedResources
      st.revertDeletedNames).cacheIsUpdated = true := by
    by_contra hne
    have hsame := txLoops_eq_of_not_updated _ _ _ _ _ (Bool.of_not_eq_true hne)
    have := hrestore ⟨typeURL, n⟩
    rw [tx_resources, hsame] at this
    exact hn this
  simp [Cache.revert, Cache.tx, hrupd]

theorem tx_revert_restores_changed_resource :
    let c : Cache ℕ := ⟨AList.singleton ⟨"t", "a"⟩ ⟨1, 1⟩, 1⟩
    ∃ c' version r, c.tx "t" (AList.singleton "a" 2) [] = (c', version, true, some r) ∧
      (∀ k, resourceAt (c'.revert r).1.resources k = resourceAt c.resources k) ∧
        (c'.revert r).2 = (c.version + 2, true) :=
  ⟨_, _, _, rfl, tx_revert_restores _ "t" (AList.singleton "a" 2) []
    (fun _ hn => absurd hn List.not_mem_nil) rfl⟩

end Revert

end Cilium.Xds
