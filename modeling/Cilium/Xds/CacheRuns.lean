import Cilium.Xds.Cache
import Cilium.Lib.Trace

/-! Runs of the resource cache of `pkg/envoy/xds/cache.go`: `TX` (so also `Upsert`, `Delete` and
the revert functions), `Clear` and `EnsureVersion` in any order.  Each of them stamps what it
writes with a version after the cache's and advances the version only when it changes something.
So a requester that holds some version of the cache misses no change when `GetResources` answers
it with nothing. -/

namespace Cilium.Xds

variable {α : Type}

/-- `Cache.EnsureVersion`: below `version`, every resource of the type URL is stamped with it and
the cache takes it as its version. -/
def Cache.ensureVersion (c : Cache α) (typeURL : String) (version : ℕ) : Cache α :=
  if c.version < version then
    ⟨c.resources.entries.foldl (fun m e =>
      if e.1.typeURL = typeURL then m.insert e.1 ⟨e.2.resource, version⟩ else m) c.resources,
      version⟩
  else c

/-- The calls that change the cache. -/
inductive CacheOp (α : Type) where
  | tx (typeURL : String) (upsertedResources : AList fun _ : String => α)
      (deletedNames : List String)
  | clear (typeURL : String)
  | ensureVersion (typeURL : String) (version : ℕ)

section Run

variable [DecidableEq α]

/-- The cache after one call. -/
def Cache.step (c : Cache α) : CacheOp α → Cache α
  | .tx typeURL upsertedResources deletedNames => (c.tx typeURL upsertedResources deletedNames).1
  | .clear typeURL => (c.clear typeURL).1
  | .ensureVersion typeURL version => c.ensureVersion typeURL version

/-- The cache after a sequence of calls. -/
def Cache.run (c : Cache α) (ops : List (CacheOp α)) : Cache α :=
  ops.foldl Cache.step c

end Run

/-! ### Stamps -/

/-- Every entry of `R'` is the entry of `R` under its key or carries the version `v`. -/
def Restamps (R R' : AList fun _ : cacheKey => cacheValue α) (v : ℕ) : Prop :=
  ∀ k e, R'.lookup k = some e → R.lookup k = some e ∨ e.lastModifiedVersion = v

theorem Restamps.refl (R : AList fun _ : cacheKey => cacheValue α) (v : ℕ) : Restamps R R v :=
  fun _ _ h => .inl h

theorem Restamps.trans {R₁ R₂ R₃ : AList fun _ : cacheKey => cacheValue α} {v : ℕ}
    (h₁ : Restamps R₁ R₂ v) (h₂ : Restamps R₂ R₃ v) : Restamps R₁ R₃ v := by
  intro k e h
  rcases h₂ k e h with h | h
  · exact h₁ k e h
  · exact .inr h

theorem restamps_insert (R : AList fun _ : cacheKey => cacheValue α) (k : cacheKey) (x : α)
    (v : ℕ) : Restamps R (R.insert k ⟨x, v⟩) v := by
  intro k' e h
  by_cases hk : k' = k
  · subst hk
    rw [AList.lookup_insert, Option.some_inj] at h
    exact .inr (h ▸ rfl)
  · rw [AList.lookup_insert_ne hk] at h
    exact .inl h

theorem restamps_erase (R : AList fun _ : cacheKey => cacheValue α) (k : cacheKey) (v : ℕ) :
    Restamps R (R.erase k) v := by
  intro k' e h
  by_cases hk : k' = k
  · subst hk
    simp at h
  · rw [AList.lookup_erase_ne hk] at h
    exact .inl h

/-- A loop over maps each of whose steps restamps with `v` restamps with `v`. -/
theorem restamps_foldl {β : Type} (f : (AList fun _ : cacheKey => cacheValue α) → β →
    AList fun _ : cacheKey => cacheValue α) {v : ℕ} (hf : ∀ R b, Restamps R (f R b) v)
    (l : List β) (R : AList fun _ : cacheKey => cacheValue α) : Restamps R (l.foldl f R) v :=
  Trace.foldl_rel f (fun R R' => Restamps R R' v) (fun R => Restamps.refl R v)
    (fun _ _ _ h₁ h₂ => h₁.trans h₂) hf l R

theorem restamps_deleteStep (t : String) (st : txState α) (n : String) (v : ℕ) :
    Restamps st.resources (deleteStep t st n).resources v := by
  cases hold : st.resources.lookup ⟨t, n⟩ with
  | none =>
    simp only [deleteStep, hold]
    exact Restamps.refl _ v
  | some oldV =>
    simp only [deleteStep, hold]
    exact restamps_erase _ _ v

theorem restamps_upsertStep [DecidableEq α] (t : String) (v : ℕ) (st : txState α) (n : String)
    (x : α) : Restamps st.resources (upsertStep t v st n x).resources v := by
  cases hold : st.resources.lookup ⟨t, n⟩ with
  | none =>
    simp only [upsertStep, hold]
    exact restamps_insert _ _ _ v
  | some oldV =>
    by_cases hx : oldV.resource = x
    · simp only [upsertStep, hold, hx, if_true]
      exact Restamps.refl _ v
    · simp only [upsertStep, hold, hx, if_false]
      exact restamps_insert _ _ _ v

/-- What the loops of `TX` write carries the transaction's new version. -/
theorem restamps_txLoops [DecidableEq α] (R : AList fun _ : cacheKey => cacheValue α)
    (t : String) (v : ℕ) (u : AList fun _ : String => α) (d : List String) :
    Restamps R (txLoops R t v u d).resources v := by
  let r : txState α → txState α → Prop := fun st st' => Restamps st.resources st'.resources v
  have hrefl : ∀ st, r st st := fun st => Restamps.refl st.resources v
  have htrans : ∀ st₁ st₂ st₃, r st₁ st₂ → r st₂ st₃ → r st₁ st₃ := fun _ _ _ h₁ h₂ => h₁.trans h₂
  have hupserts := Trace.foldl_rel (fun st (e : Sigma fun _ : String => α) => upsertStep t v st e.1 e.2)
    r hrefl htrans (fun st e => restamps_upsertStep t v st e.1 e.2) u.entries ⟨R, ∅, [], false⟩
  have hdeletes := Trace.foldl_rel (deleteStep t) r hrefl htrans
    (fun st n => restamps_deleteStep t st n v) d
    (u.entries.foldl (fun st e => upsertStep t v st e.1 e.2) ⟨R, ∅, [], false⟩)
  exact hupserts.trans hdeletes

/-! ### Runs -/

/-- `c'` is what later calls made of `c`: the version did not go down, it stayed only if the
resources did, and an entry of `c'` that `c` does not have carries a version after `c`'s. -/
structure Cache.Advances (c c' : Cache α) : Prop where
  version_le : c.version ≤ c'.version
  same : c'.version = c.version → c'.resources = c.resources
  stamp : ∀ k e, c'.resources.lookup k = some e →
    c.resources.lookup k = some e ∨ c.version < e.lastModifiedVersion

theorem Cache.Advances.refl (c : Cache α) : c.Advances c :=
  ⟨le_rfl, fun _ => rfl, fun _ _ h => .inl h⟩

theorem Cache.Advances.trans {c₁ c₂ c₃ : Cache α} (h₁ : c₁.Advances c₂) (h₂ : c₂.Advances c₃) :
    c₁.Advances c₃ where
  version_le := h₁.version_le.trans h₂.version_le
  same h := by
    have h₂₁ : c₂.version = c₁.version :=
      le_antisymm (h ▸ h₂.version_le) h₁.version_le
    rw [h₂.same (h.trans h₂₁.symm), h₁.same h₂₁]
  stamp k e h := by
    rcases h₂.stamp k e h with h | h
    · exact h₁.stamp k e h
    · exact .inr (lt_of_le_of_lt h₁.version_le h)

/-- A call that moves to a later version and stamps what it writes with that version. -/
theorem Cache.advances_of_restamps {c c' : Cache α} (hv : c.version < c'.version)
    (hr : Restamps c.resources c'.resources c'.version) : c.Advances c' where
  version_le := hv.le
  same h := absurd h hv.ne'
  stamp k e h := (hr k e h).imp_right fun (he : e.lastModifiedVersion = c'.version) => he ▸ hv

theorem Cache.advances_tx [DecidableEq α] (c : Cache α) (t : String)
    (u : AList fun _ : String => α) (d : List String) : c.Advances (c.tx t u d).1 := by
  by_cases hu : (txLoops c.resources t (c.version + 1) u d).cacheIsUpdated
  · apply Cache.advances_of_restamps
    · simp [Cache.tx, hu]
    · simpa [Cache.tx, hu] using restamps_txLoops c.resources t (c.version + 1) u d
  · have hloops := txLoops_eq_of_not_updated c.resources t (c.version + 1) u d
      (Bool.eq_false_iff.mpr hu)
    simp only [Cache.tx, hloops]
    exact Cache.Advances.refl c

/-- The loop of `Clear` changes nothing when no key has the type URL. -/
theorem clearLoop_eq_self (t : String) (l : List cacheKey)
    (R : AList fun _ : cacheKey => cacheValue α) (hl : ∀ k ∈ l, k.typeURL ≠ t) :
    l.foldl (fun m k => if k.typeURL = t then m.erase k else m) R = R := by
  induction l with
  | nil => rfl
  | cons k l ih =>
    rw [List.foldl_cons, if_neg (hl k List.mem_cons_self)]
    exact ih fun k' hk' => hl k' (List.mem_cons_of_mem k hk')

theorem Cache.advances_clear (c : Cache α) (t : String) : c.Advances (c.clear t).1 := by
  by_cases hany : c.resources.keys.any (·.typeURL = t)
  · apply Cache.advances_of_restamps
    · simp [Cache.clear, hany]
    · simp only [Cache.clear, hany, if_true]
      exact restamps_foldl _ (fun R k => by
        split
        · exact restamps_erase R k _
        · exact Restamps.refl R _) _ _
  · have hkeys : ∀ k ∈ c.resources.keys, k.typeURL ≠ t := by
      simpa using hany
    simp only [Cache.clear, hany, Bool.false_eq_true, if_false, clearLoop_eq_self t _ _ hkeys]
    exact Cache.Advances.refl c

theorem Cache.advances_ensureVersion (c : Cache α) (t : String) (v : ℕ) :
    c.Advances (c.ensureVersion t v) := by
  by_cases hv : c.version < v
  · apply Cache.advances_of_restamps
    · simp [Cache.ensureVersion, hv]
    · simp only [Cache.ensureVersion, hv, if_true]
      exact restamps_foldl _ (fun R e => by
        split
        · exact restamps_insert R _ _ _
        · exact Restamps.refl R _) _ _
  · simp only [Cache.ensureVersion, hv, if_false]
    exact Cache.Advances.refl c

section Run

variable [DecidableEq α]

theorem Cache.advances_step (c : Cache α) (op : CacheOp α) : c.Advances (c.step op) := by
  cases op with
  | tx t u d => exact c.advances_tx t u d
  | clear t => exact c.advances_clear t
  | ensureVersion t v => exact c.advances_ensureVersion t v

theorem Cache.advances_run (c : Cache α) (ops : List (CacheOp α)) : c.Advances (c.run ops) :=
  Trace.foldl_rel Cache.step Cache.Advances Cache.Advances.refl
    (fun _ _ _ h₁ h₂ => h₁.trans h₂) Cache.advances_step ops c

end Run

/-! ### `GetResources` -/

/-- When `GetResources` answers with nothing: the cache is not past the requester's version, or
every requested name is found with a version the requester has. -/
theorem getResources_eq_none {c : Cache α} {typeURL : String} {lastVersion : ℕ}
    {resourceNames : List String} (h : c.getResources typeURL lastVersion resourceNames = none) :
    (0 < lastVersion ∧ c.version ≤ lastVersion) ∨
      (resourceNames ≠ [] ∧ ∀ name ∈ resourceNames, ∃ e,
        c.resources.lookup ⟨typeURL, name⟩ = some e ∧ e.lastModifiedVersion ≤ lastVersion) := by
  unfold Cache.getResources at h
  split_ifs at h with hup hnil
  · exact .inl hup
  · dsimp only at h
    split_ifs at h with hopt
    refine .inr ⟨hnil, fun name hname => ?_⟩
    obtain ⟨hfound, hnew⟩ := hopt
    have hsome := List.filterMap_length_eq_length.mp hfound name hname
    obtain ⟨e, he⟩ := Option.isSome_iff_exists.mp (Option.isSome_map.symm.trans hsome)
    refine ⟨e, he, ?_⟩
    have hr : (⟨name, e.lastModifiedVersion, e.resource⟩ : VersionedResource α) ∈
        resourceNames.filterMap fun name => (c.resources.lookup ⟨typeURL, name⟩).map fun v =>
          (⟨name, v.lastModifiedVersion, v.resource⟩ : VersionedResource α) :=
      List.mem_filterMap.mpr ⟨name, hname, by rw [he]; rfl⟩
    have hold := List.any_eq_false.mp (by simpa using hnew) _ hr
    simp only [Bool.or_eq_true, decide_eq_true_eq, not_or, not_lt] at hold
    exact hold.2

/-- No lost update: a requester that holds the version of the cache at some point and is answered
with nothing after any further calls has every resource it asks for, all of the type without
names, as the cache then had it. -/
theorem run_getResources_none_unchanged [DecidableEq α] (c : Cache α) (ops : List (CacheOp α))
    (typeURL : String) (resourceNames : List String)
    (h : (c.run ops).getResources typeURL c.version resourceNames = none) (name : String)
    (hname : resourceNames = [] ∨ name ∈ resourceNames) :
    (c.run ops).resources.lookup ⟨typeURL, name⟩ = c.resources.lookup ⟨typeURL, name⟩ := by
  have ha := c.advances_run ops
  rcases getResources_eq_none h with ⟨-, hv⟩ | ⟨hne, hall⟩
  · rw [ha.same (le_antisymm hv ha.version_le)]
  · obtain ⟨e, he, hle⟩ := hall name (hname.resolve_left hne)
    rcases ha.stamp _ e he with hold | hnew
    · rw [he, hold]
    · exact absurd hle (not_le.mpr hnew)

theorem run_getResources_none_unchanged_other_type :
    let c : Cache ℕ := (newCache.upsert "t" "a" 1).1
    let ops := [CacheOp.tx "u" (AList.singleton "b" 3) []]
    (c.run ops).getResources "t" c.version ["a"] = none ∧
      (c.run ops).resources.lookup ⟨"t", "a"⟩ = c.resources.lookup ⟨"t", "a"⟩ :=
  ⟨by decide, run_getResources_none_unchanged _ _ "t" ["a"] (by decide) "a"
    (.inr List.mem_cons_self)⟩

end Cilium.Xds
