import Cilium.Policy.Indices

/-! The map states that the policy engine reaches (`pkg/policy/mapstate.go`).  Every composite
operation of `Insert` is a run of the primitive index steps `upsert`, `delete` and
`updateExisting`: the keys it upserts are the new key, keys the map state holds, or keys with the
`LPMKey` of one of these, and it re-inserts only keys it holds.  So the indices agree with the
entries on every map state reachable from `newMapState`. -/

namespace Cilium.Policy

open Cilium.Policy.Types Cilium.Bitlpm Types.LPMKey

namespace mapState


variable {N : LPMKey → Prop}

theorem IndexSteps.upsert {ms : mapState} {k : Key} (hk : N k.toLPMKey) (e : mapStateEntry) :
    IndexSteps N ms (ms.upsert k e) := .single (.upsert ms k e hk)

theorem IndexSteps.delete (ms : mapState) (k : Key) : IndexSteps N ms (ms.delete k) :=
  .single (.delete ms k)

theorem IndexSteps.updateExisting {ms : mapState} {k : Key} (hin : k ∈ ms.entries)
    (v : mapStateEntry) : IndexSteps N ms (ms.updateExisting k v) :=
  .single (.updateExisting ms k v hin)

theorem mem_of_get {ms : mapState} {k : Key} {v : mapStateEntry} (h : ms.get k = some v) :
    k ∈ ms.entries :=
  AList.lookup_isSome.mp (by rw [show ms.entries.lookup k = some v from h]; rfl)

/-! ### The composite operations as index steps -/

theorem addKeyWithChanges_steps {ms : mapState} {key : Key} (hk : N key.toLPMKey)
    (entry : mapStateEntry) (changes : ChangeState) :
    IndexSteps N ms (ms.addKeyWithChanges key entry changes).1 := by
  unfold addKeyWithChanges
  split
  · exact IndexSteps.upsert hk entry
  · next oldEntry hget =>
    split
    · exact .refl
    · dsimp only
      split
      · exact .refl
      · exact IndexSteps.updateExisting (mem_of_get hget) _

theorem deleteExistingWithChanges_steps (ms : mapState) (key : Key) (entry : mapStateEntry)
    (changes : ChangeState) : IndexSteps N ms (ms.deleteExistingWithChanges key entry changes).1 :=
  IndexSteps.delete ms key

theorem deleteKeyWithChanges_steps (ms : mapState) (key : Key) (changes : ChangeState) :
    IndexSteps N ms (ms.deleteKeyWithChanges key changes).1 := by
  unfold deleteKeyWithChanges
  split
  · exact deleteExistingWithChanges_steps ms key _ changes
  · exact .refl

theorem deleteIdWithChanges_steps (ms : mapState) (id : NumericIdentity) (changes : ChangeState) :
    IndexSteps N ms (ms.deleteIdWithChanges id changes).1 := by
  unfold deleteIdWithChanges
  split
  · exact .refl
  · next lpmKeys _ =>
    -- each round deletes one key of the identity from where the last left off
    refine List.foldlRecOn (motive := fun acc : mapState × ChangeState => IndexSteps N ms acc.1) lpmKeys _ .refl ?_
    intro acc hacc lpmKey _
    exact hacc.trans (deleteKeyWithChanges_steps acc.1 _ acc.2)

theorem revertChanges_steps (ms : mapState) (changes : ChangeState)
    (hold : ∀ kv ∈ (changes.old.map (·.entries)).getD [], N kv.1.toLPMKey) :
    IndexSteps N ms (ms.revertChanges changes) := by
  unfold revertChanges
  have hdel : IndexSteps N ms ((changes.adds.getD []).foldl delete ms) :=
    List.foldlRecOn (motive := IndexSteps N ms) _ _ .refl
      fun ms' h k _ => h.trans (IndexSteps.delete ms' k)
  exact List.foldlRecOn (motive := IndexSteps N ms) _ _ hdel
    fun ms' h kv hkv => h.trans (IndexSteps.upsert (hold kv hkv) kv.2)

/-- A loop over keys keeps what each round keeps when it finds the key. -/
theorem loop_preserves {σ : Type} (get : σ → mapState) (body : σ → Key → mapStateEntry → σ)
    (P : σ → Prop) (h : ∀ s k v, P s → (get s).get k = some v → P (body s k v)) :
    ∀ (keys : List Key) (s : σ), P s → P (loop get body keys s)
  | [], _, hs => hs
  | k :: keys, s, hs => by
    unfold loop
    rw [List.foldl_cons]
    refine loop_preserves get body P h keys _ ?_
    split
    · exact hs
    · next v hv => exact h s k v hs hv

section Insert

variable (clusterID : UInt32)

theorem pruneCoveredNarrowerKey_steps {ms : mapState} {k : Key} {v : mapStateEntry}
    (hin : k ∈ ms.entries) (key : Key) (entry : mapStateEntry) (precedence : Precedence)
    (changes : ChangeState) :
    IndexSteps N ms (pruneCoveredNarrowerKey clusterID ms k v key entry precedence changes).1 := by
  unfold pruneCoveredNarrowerKey
  dsimp only
  split
  · exact deleteExistingWithChanges_steps ms k v changes
  · split
    · exact IndexSteps.updateExisting hin _
    · exact .refl

theorem pruneCovered_steps (ms : mapState) (key : Key) (entry : mapStateEntry)
    (precedence : Precedence) (changes : ChangeState) :
    IndexSteps N ms (pruneCovered clusterID ms key entry precedence changes).1 :=
  loop_preserves _ _ (fun s : mapState × ChangeState => IndexSteps N ms s.1)
    (fun _ _ _ hs hv => hs.trans (pruneCoveredNarrowerKey_steps clusterID (mem_of_get hv) _ _ _ _))
    _ _ .refl

theorem pruneAggregated_steps (ms : mapState) (newKey : Key) (newEntry : mapStateEntry)
    (changes : ChangeState) :
    IndexSteps N ms (pruneAggregated clusterID ms newKey newEntry changes).1 := by
  unfold pruneAggregated
  split
  · exact .refl
  · split
    · exact .refl
    · refine List.foldlRecOn (motive := fun acc : mapState × ChangeState => IndexSteps N ms acc.1)
        _ _ .refl ?_
      intro acc hacc id _
      dsimp only
      split
      · exact hacc
      · split
        · exact hacc.trans (deleteExistingWithChanges_steps acc.1 _ _ acc.2)
        · exact hacc

theorem deleteCovered_steps (ms : mapState) (newKey : Key) (del : Key → mapStateEntry → Bool)
    (changes : ChangeState) : IndexSteps N ms (deleteCovered clusterID ms newKey del changes).1 :=
  loop_preserves _ _ (fun s : mapState × ChangeState => IndexSteps N ms s.1)
    (fun s k v hs _ => by
      split
      · exact hs.trans (deleteExistingWithChanges_steps s.1 k v s.2)
      · exact hs)
    _ _ .refl

theorem pruneAggregatedAndAdd_steps {ms : mapState} {newKey : Key} (hk : N newKey.toLPMKey)
    (newEntry : mapStateEntry) (changes : ChangeState) :
    IndexSteps N ms (pruneAggregatedAndAdd clusterID ms newKey newEntry changes).1 :=
  (pruneAggregated_steps clusterID ms newKey newEntry changes).trans
    (addKeyWithChanges_steps hk newEntry _)

theorem overrideProxyPortForAuth_steps {ms : mapState} {k : Key} {v : mapStateEntry}
    (hin : k ∈ ms.entries) (newEntry : mapStateEntry) (changes : ChangeState) :
    IndexSteps N ms (ms.overrideProxyPortForAuth newEntry k v changes).1 := by
  unfold overrideProxyPortForAuth
  split
  · exact IndexSteps.updateExisting hin _
  · exact .refl

theorem mem_overrideProxyPortForAuth {ms : mapState} {k : Key} {v : mapStateEntry}
    (hin : k ∈ ms.entries) (newEntry : mapStateEntry) (changes : ChangeState) :
    k ∈ (ms.overrideProxyPortForAuth newEntry k v changes).1.entries := by
  unfold overrideProxyPortForAuth
  split
  · exact (mem_insert_of_mem hin _ k).mpr hin
  · exact hin

theorem overrideAuthRequirement_steps {ms : mapState} {k : Key} {v : mapStateEntry}
    (hin : k ∈ ms.entries) (newEntry : mapStateEntry) (changes : ChangeState) :
    IndexSteps N ms (ms.overrideAuthRequirement newEntry k v changes).1 := by
  unfold overrideAuthRequirement
  split
  · exact IndexSteps.updateExisting hin _
  · exact .refl

theorem authSubset_steps (newKey : Key) (newEntry : mapStateEntry) (hasExplicitAuth : Bool)
    {s : mapState × ChangeState × Bool} {k : Key} {v : mapStateEntry} (hv : s.1.get k = some v) :
    IndexSteps N s.1 (authSubset newKey newEntry hasExplicitAuth s k v).1 := by
  obtain ⟨ms, changes, propagated⟩ := s
  have hin : k ∈ ms.entries := mem_of_get hv
  unfold authSubset
  dsimp only
  split
  · exact deleteExistingWithChanges_steps ms k v changes
  · next ms' changes' hstep =>
    -- the first half of the round changed at most the entry of k
    have hms' : IndexSteps N ms ms' ∧ k ∈ ms'.entries := by
      split at hstep
      · split at hstep
        · next hov =>
          cases hstep
          have h1 := overrideProxyPortForAuth_steps (N := N) (v := v) hin newEntry changes
          have h2 := mem_overrideProxyPortForAuth (v := v) hin newEntry changes
          rw [hov] at h1 h2
          exact ⟨h1, h2⟩
        · cases hstep
      · cases hstep
        exact ⟨.refl, hin⟩
    split
    · split
      · exact hms'.1
      · exact hms'.1.trans (overrideAuthRequirement_steps hms'.2 _ _)
    · exact hms'.1

theorem authPreferredInsert_steps {ms : mapState} {newKey : Key} (hk : N newKey.toLPMKey)
    (newEntry : mapStateEntry) (changes : ChangeState) :
    IndexSteps N ms (ms.authPreferredInsert newKey newEntry changes).1 := by
  unfold authPreferredInsert
  dsimp only
  split
  · exact .refl
  · next newEntry' _ =>
    have hloop := loop_preserves _ _ (fun s : mapState × ChangeState × Bool => IndexSteps N ms s.1)
      (fun s _ _ hs hv => hs.trans
        (authSubset_steps newKey newEntry' newEntry.authRequirement.isExplicit hv))
      (ms.subsetKeysWithSameID newKey) (ms, changes, false) .refl
    exact hloop.trans (addKeyWithChanges_steps hk newEntry' _)

theorem insertPassEntry_steps {ms : mapState} {key : Key} (hk : N key.toLPMKey)
    (tierMaxPrecedence : Precedence) (entry : mapStateEntry) (changes : ChangeState) :
    IndexSteps N ms (insertPassEntry clusterID ms tierMaxPrecedence key entry changes).1 := by
  unfold insertPassEntry
  split
  · split
    · exact .refl
    · split
      · exact .refl
      · exact (pruneCovered_steps clusterID ms key entry _ changes).trans
          (addKeyWithChanges_steps hk entry _)
  · exact .refl

/-! #### The work list of `insertWithPasses` -/

/-- Every key of the list has its `LPMKey` in `N`. -/
def KeysIn (N : LPMKey → Prop) (keys : List Key) : Prop := ∀ k ∈ keys, N k.toLPMKey

theorem KeysIn.insert {keys : List Key} (h : KeysIn N keys) {k : Key} (hk : N k.toLPMKey) :
    KeysIn N (keys.insert k) := by
  intro k' hk'
  rcases List.mem_insert_iff.mp hk' with rfl | hk'
  · exact hk
  · exact h k' hk'

@[simp] theorem withIdentity_toLPMKey (k : Key) (nid : NumericIdentity) :
    (k.withIdentity nid).toLPMKey = k.toLPMKey := rfl

theorem scanPasses_keysIn {key : Key} (hk : N key.toLPMKey) (sameTierBails : Bool) (k : Key)
    (entry : mapStateEntry) (isCoveringKey : Bool) :
    ∀ (passes : passMetas) (acc : passMetas × Keys), KeysIn N acc.2 →
      KeysIn N (scanPasses sameTierBails key k entry isCoveringKey passes acc).2.1
  | [], _, h => h
  | pass :: rest, (ps, l34Keys), h => by
    unfold scanPasses
    split
    · split
      · exact h.insert hk
      · exact scanPasses_keysIn hk sameTierBails k entry isCoveringKey rest _ h
    · split
      · exact h
      · exact scanPasses_keysIn hk sameTierBails k entry isCoveringKey rest _ h

theorem scanSub_keysIn {key : Key} (hk : N key.toLPMKey) (tierMaxPrecedence : Precedence)
    (entry : mapStateEntry) (aggregateID : NumericIdentity) {s : Scan} (hs : KeysIn N s.l34Keys)
    (kv : Key × mapStateEntry) :
    KeysIn N (scanSub tierMaxPrecedence key entry aggregateID s kv).l34Keys := by
  have hp := scanPasses_keysIn hk false kv.1 entry (key.identity != aggregateID ||
    kv.1.identity == aggregateID) kv.2.passList (s.passes, s.l34Keys) hs
  unfold scanSub
  dsimp only
  -- every branch keeps the keys of the pass loop
  split
  · split <;> split <;> exact hp
  · exact hp

theorem scanMain_keysIn {key : Key} (hk : N key.toLPMKey) (tierMaxPrecedence : Precedence)
    (entry : mapStateEntry) (aggregateID : NumericIdentity) :
    ∀ (l : List (Key × mapStateEntry)) (s : Scan) {t : Scan}, KeysIn N s.l34Keys →
      scanMain tierMaxPrecedence key entry aggregateID l s = some t → KeysIn N t.l34Keys
  | [], s, t, hs, h => by
    cases h
    exact hs
  | (k, v) :: rest, s, t, hs, h => by
    have hp := scanPasses_keysIn hk true k entry (key.identity != aggregateID ||
      k.identity == aggregateID) v.passList (s.passes, s.l34Keys) hs
    unfold scanMain at h
    dsimp only at h
    split at h
    · cases h
    · next passes l34Keys heq =>
      rw [heq] at hp
      -- every branch either bails or goes on with the keys of the pass loop
      have ih := scanMain_keysIn hk tierMaxPrecedence entry aggregateID rest (t := t)
      split at h
      · split at h
        · split at h
          · cases h
          · exact ih _ hp h
        · split at h <;> exact ih _ hp h
      · exact ih _ hp h

namespace PassWork

/-- What the rounds of `insertWithPasses` keep: the map state is reached from `ms` by steps of
`N`, and the keys waiting in the work list are in `N`. -/
def Reached (N : LPMKey → Prop) (ms : mapState) (w : PassWork) : Prop :=
  IndexSteps N ms w.ms ∧ KeysIn N w.keys

variable {ms : mapState} {w : PassWork}

theorem Reached.addNewKey (h : Reached N ms w) {key : Key} (hk : N key.toLPMKey) :
    Reached N ms (w.addNewKey key) := by
  unfold PassWork.addNewKey
  split
  · exact h
  · refine ⟨h.1, fun k hk' => ?_⟩
    rcases List.mem_append.mp hk' with hk' | hk'
    · exact h.2 k hk'
    · rw [List.mem_singleton.mp hk']
      exact hk

theorem Reached.addNewKeys (h : Reached N ms w) {l34Keys : Keys} (hl : KeysIn N l34Keys) :
    Reached N ms (w.addNewKeys l34Keys) :=
  List.foldlRecOn (motive := Reached N ms) l34Keys _ h fun _ hw' k hk => hw'.addNewKey (hl k hk)

theorem Reached.collectNarrowerPasses (h : Reached N ms w) (tierMaxPrecedence : Precedence)
    {k : Key} (hk : N k.toLPMKey) (v : mapStateEntry) (key : Key) :
    Reached N ms (w.collectNarrowerPasses clusterID tierMaxPrecedence k v key) := by
  -- the key queued has the `LPMKey` of `k`, whichever identity it takes
  have hk' : N (k.withIdentity key.identity).toLPMKey := hk
  unfold PassWork.collectNarrowerPasses
  dsimp only
  split <;> split
  · exact h.addNewKey hk'
  · exact h
  · exact h.addNewKey hk
  · exact h

theorem Reached.passTo (h : Reached N ms w) {key : Key} (hk : N key.toLPMKey)
    (entry : mapStateEntry) (precedence : Precedence) :
    Reached N ms (w.passTo clusterID key entry precedence) :=
  ⟨h.1.trans ((pruneCovered_steps clusterID w.ms key entry precedence w.changes).trans
    (addKeyWithChanges_steps hk _ _)), h.2⟩

end PassWork

open PassWork

theorem scanSubs_keysIn {key : Key} (hk : N key.toLPMKey) (tierMaxPrecedence : Precedence)
    (entry : mapStateEntry) (aggregateID : NumericIdentity) (l : List (Key × mapStateEntry))
    {s : Scan} (hs : KeysIn N s.l34Keys) :
    KeysIn N (l.foldl (scanSub tierMaxPrecedence key entry aggregateID) s).l34Keys :=
  List.foldlRecOn (motive := fun s : Scan => KeysIn N s.l34Keys) l _ hs
    fun _ hs' kv _ => scanSub_keysIn hk tierMaxPrecedence entry aggregateID hs' kv

theorem PassWork.Reached.insertSubKey {ms : mapState} {w : PassWork} (h : Reached N ms w)
    {key : Key} (hk : N key.toLPMKey) (tierMaxPrecedence : Precedence) (entry : mapStateEntry)
    (aggregateID : NumericIdentity) :
    Reached N ms (insertSubKey clusterID tierMaxPrecedence entry aggregateID w key) := by
  have hs := scanSubs_keysIn hk tierMaxPrecedence entry aggregateID
    (w.ms.withEntries (w.ms.broaderOrEqualKeys clusterID key)) (s := ⟨[], [], w.doneKeys, 0⟩)
    (fun _ h => absurd h List.not_mem_nil)
  unfold mapState.insertSubKey
  generalize List.foldl _ _ _ = s at hs ⊢
  have hw := Reached.addNewKeys (w := { w with doneKeys := s.doneKeys }) h hs
  dsimp only
  split
  · exact hw.passTo clusterID hk entry _
  · exact hw

theorem PassWork.Reached.workLoop {ms : mapState} (tierMaxPrecedence : Precedence)
    (entry : mapStateEntry) (aggregateID : NumericIdentity) (fuel : Nat) {w : PassWork}
    (h : Reached N ms w) :
    Reached N ms (workLoop clusterID tierMaxPrecedence entry aggregateID fuel w) := by
  -- each round takes the first key of the work list, which is in `N`
  induction fuel generalizing w with
  | zero => exact h
  | succ fuel ih =>
    unfold mapState.workLoop
    split
    · exact h
    · next key rest hkeys =>
      have hk : N key.toLPMKey := h.2 key (by rw [hkeys]; exact List.mem_cons_self)
      have hrest : Reached N ms { w with keys := rest } :=
        ⟨h.1, fun k hk' => h.2 k (by rw [hkeys]; exact List.mem_cons_of_mem _ hk')⟩
      exact ih (hrest.insertSubKey clusterID hk tierMaxPrecedence entry aggregateID)

theorem insertWithPasses_steps {ms : mapState} (hN : AllKeys N ms) {key : Key}
    (hk : N key.toLPMKey) (tierMaxPrecedence : Precedence) (entry : mapStateEntry)
    (changes : ChangeState) :
    IndexSteps N ms (insertWithPasses clusterID ms tierMaxPrecedence key entry changes).1 := by
  unfold insertWithPasses
  split
  · exact .refl
  · split
    · exact insertPassEntry_steps clusterID hk tierMaxPrecedence entry changes
    · extract_lets aggregateID
      split
      · exact .refl
      · next s hscan =>
        extract_lets w0 bail w1 precedence passed w2 w3 w4
        have hs := scanMain_keysIn hk tierMaxPrecedence entry aggregateID _ _
          (fun _ h => absurd h List.not_mem_nil) hscan
        have h0 : Reached N ms w0 :=
          Reached.addNewKeys (w := ⟨ms, changes, [], s.doneKeys⟩)
            ⟨.refl, fun _ h => absurd h List.not_mem_nil⟩ hs
        -- the loop over the narrower keys prunes the keys it finds and queues keys of the map state
        have h1 : Reached N ms w1 := loop_preserves _ _ (Reached N ms) (fun w k v hw hv => by
            have hin := mem_of_get hv
            refine Reached.collectNarrowerPasses clusterID ?_ tierMaxPrecedence
              (hN.steps hw.1 k hin) v key
            split
            · exact ⟨hw.1.trans (pruneCoveredNarrowerKey_steps clusterID hin _ _ _ _), hw.2⟩
            · exact hw) _ _ h0
        have h2 : Reached N ms w2 := by
          unfold w2
          split
          · exact h1.passTo clusterID hk entry precedence
          · exact h1
        have h3 : Reached N ms w3 := by
          unfold w3
          split
          · exact ⟨h2.1.trans (addKeyWithChanges_steps hk entry _), h2.2⟩
          · exact h2
        exact (h3.workLoop clusterID tierMaxPrecedence entry aggregateID _).1

theorem insertWithChanges_steps {ms : mapState} (hN : AllKeys N ms) {newKey : Key}
    (hk : N newKey.toLPMKey) (tierMaxPrecedence : Precedence) (newEntry : mapStateEntry)
    (features : policyFeatures) (changes : ChangeState) :
    IndexSteps N ms
      (insertWithChanges clusterID ms tierMaxPrecedence newKey newEntry features changes).1 := by
  have hdel := fun del => deleteCovered_steps (N := N) clusterID ms newKey del changes
  unfold insertWithChanges
  extract_lets covering
  split
  · exact .refl
  · split
    · exact insertWithPasses_steps clusterID hN hk tierMaxPrecedence newEntry changes
    · split
      · split
        · exact .refl
        · exact (hdel _).trans (pruneAggregatedAndAdd_steps clusterID hk newEntry _)
      · split
        · exact (authPreferredInsert_steps hk newEntry changes).trans
            (pruneAggregated_steps clusterID _ newKey newEntry _)
        · split
          · split
            · exact .refl
            · exact (hdel _).trans (pruneAggregatedAndAdd_steps clusterID hk newEntry _)
          · exact pruneAggregatedAndAdd_steps clusterID hk newEntry changes

end Insert

theorem allowAllIdentities_steps (hi : N ingressKey.toLPMKey) (he : N egressKey.toLPMKey)
    (ms : mapState) (ingress egress : Bool) :
    IndexSteps N ms (ms.allowAllIdentities ingress egress) := by
  -- each direction upserts its key with every aggregate identity
  have hall : ∀ (key : Key), N key.toLPMKey → ∀ (e : mapStateEntry) (ms' : mapState),
      IndexSteps N ms ms' →
        IndexSteps N ms (allAggregates.foldl (fun ms nid => ms.upsert (key.withIdentity nid) e) ms') :=
    fun key hk e ms' h' => List.foldlRecOn (motive := IndexSteps N ms) _ _ h'
      fun ms'' h'' nid _ => h''.trans (IndexSteps.upsert (k := key.withIdentity nid) hk e)
  have hin := hall ingressKey hi (newAllowEntryWithLabels labelsAllowAnyIngress) ms .refl
  unfold mapState.allowAllIdentities
  split
  · split
    · exact hall egressKey he _ _ hin
    · exact hin
  · split
    · exact hall egressKey he _ _ .refl
    · exact .refl

/-! ### Map states reachable from `newMapState` -/

/-- The operations of a map state, each with the condition under which the policy engine calls
it: the keys it inserts are normalized, `updateExisting` re-inserts an entry the map state holds,
and the old values that `revertChanges` puts back have normalized keys.  `insert` is `upsert`. -/
inductive Step : mapState → mapState → Prop
  | insert (ms : mapState) (k : Key) (v : mapStateEntry) (hk : k.toLPMKey.Normalized) :
      Step ms (ms.insert k v)
  | delete (ms : mapState) (k : Key) : Step ms (ms.delete k)
  | updateExisting (ms : mapState) (k : Key) (v : mapStateEntry) (hin : k ∈ ms.entries) :
      Step ms (ms.updateExisting k v)
  | insertWithChanges (ms : mapState) (clusterID : UInt32) (tierMaxPrecedence : Precedence)
      (k : Key) (v : mapStateEntry) (features : policyFeatures) (changes : ChangeState)
      (hk : k.toLPMKey.Normalized) :
      Step ms (insertWithChanges clusterID ms tierMaxPrecedence k v features changes).1
  | deleteKeyWithChanges (ms : mapState) (k : Key) (changes : ChangeState) :
      Step ms (ms.deleteKeyWithChanges k changes).1
  | deleteIdWithChanges (ms : mapState) (id : NumericIdentity) (changes : ChangeState) :
      Step ms (ms.deleteIdWithChanges id changes).1
  | revertChanges (ms : mapState) (changes : ChangeState)
      (hold : ∀ kv ∈ (changes.old.map (·.entries)).getD [], kv.1.toLPMKey.Normalized) :
      Step ms (ms.revertChanges changes)
  | allowAllIdentities (ms : mapState) (ingress egress : Bool) :
      Step ms (ms.allowAllIdentities ingress egress)

/-- Every operation is a run of index steps over normalized keys, given that the keys the map
state holds are normalized. -/
theorem Step.indexSteps {ms ms' : mapState} (h : Step ms ms') (hN : AllKeys Normalized ms) :
    IndexSteps Normalized ms ms' := by
  cases h with
  | insert k v hk => exact IndexSteps.upsert hk v
  | delete k => exact IndexSteps.delete ms k
  | updateExisting k v hin => exact IndexSteps.updateExisting hin v
  | insertWithChanges clusterID tierMaxPrecedence k v features changes hk =>
    exact insertWithChanges_steps clusterID hN hk tierMaxPrecedence v features changes
  | deleteKeyWithChanges k changes => exact deleteKeyWithChanges_steps ms k changes
  | deleteIdWithChanges id changes => exact deleteIdWithChanges_steps ms id changes
  | revertChanges changes hold => exact revertChanges_steps ms changes hold
  | allowAllIdentities ingress egress =>
    exact allowAllIdentities_steps (by decide) (by decide) ms ingress egress

/-- What every reachable map state satisfies: its indices agree with its entries, and no key set
of its identity index is empty. -/
structure Consistent (ms : mapState) : Prop where
  indexed : ∃ a, ms.IndexedBy a
  byIdNonempty : ms.ByIdNonempty

theorem Consistent.step {ms ms' : mapState} (h : ms.Consistent) (hs : Step ms ms') :
    ms'.Consistent := by
  obtain ⟨⟨a, ha⟩, hb⟩ := h
  have hsteps := hs.indexSteps ha.normalized
  exact ⟨indexed_of_steps ⟨a, ha⟩ hsteps, hb.steps hsteps⟩

theorem Consistent.steps {ms ms' : mapState} (h : ms.Consistent)
    (hs : Relation.ReflTransGen Step ms ms') : ms'.Consistent := by
  induction hs with
  | refl => exact h
  | tail _ step ih => exact ih.step step

theorem newMapState_consistent (features : policyFeatures) : (newMapState features).Consistent :=
  ⟨⟨∅, newMapState_indexedBy features⟩, newMapState_byIdNonempty features⟩

/-- The identity index that `newMapState` preallocates from an old one holds only empty sets. -/
theorem getD_lookup_preallocated (m : AList fun _ : NumericIdentity => LPMKeys)
    (id : NumericIdentity) :
    ((m.entries.foldl (fun (byId : AList fun _ : NumericIdentity => LPMKeys) e =>
      byId.insert e.1 []) ∅).lookup id).getD [] = [] :=
  List.foldlRecOn (motive := fun b : AList (fun _ : NumericIdentity => LPMKeys) =>
      (b.lookup id).getD [] = []) _ _ rfl
    fun b hb e _ => by
      by_cases hid : id = e.1
      · rw [hid, AList.lookup_insert]
        rfl
      · rw [AList.lookup_insert_ne hid]
        exact hb

@[simp] theorem newMapStateFrom_entries (old : mapState) (features : policyFeatures) :
    (newMapStateFrom old features).entries = ∅ := rfl

/-- A map state made with an old one has an identity index that agrees with its empty entries. -/
theorem newMapStateFrom_indexedBy (old : mapState) (features : policyFeatures) :
    (newMapStateFrom old features).IndexedBy ∅ := by
  have h0 := newMapState_indexedBy features
  refine ⟨h0.normalized, h0.trie, h0.idSets, h0.entries, ?_, ?_⟩
  · intro byId hb k
    unfold newMapStateFrom at hb
    split at hb
    · cases hb
      rw [getD_lookup_preallocated]
      simp
    · cases hb
  · intro byId hb id keys hl
    unfold newMapStateFrom at hb
    split at hb
    · cases hb
      have hnil := getD_lookup_preallocated (old.byId.getD ∅) id
      rw [hl, Option.getD_some] at hnil
      rw [hnil]
      exact List.nodup_nil
    · cases hb

/-- From a map state made with an old one, the indices agree with the entries along every run. -/
theorem reachable_from_indexed {old : mapState} {features : policyFeatures} {ms : mapState}
    (h : Relation.ReflTransGen Step (newMapStateFrom old features) ms) : ∃ a, ms.IndexedBy a := by
  induction h with
  | refl => exact ⟨∅, newMapStateFrom_indexedBy old features⟩
  | tail _ step ih =>
    obtain ⟨a, ha⟩ := ih
    exact indexed_of_steps ⟨a, ha⟩ (step.indexSteps ha.normalized)

/-- The indices of every map state reachable from `newMapState`: a normalized key is an entry
exactly when its identity is in the set the trie holds at its prefix length and `LPMKey`, no set
of the trie is empty, and the identity index, when in use, holds for each identity exactly the
`LPMKey`s of its entries and no empty set.  From a map state made with an old one the same holds,
except that the identity index may keep the empty key sets it was preallocated with. -/
theorem reachable_indices_consistent {features : policyFeatures} {ms : mapState}
    (h : Relation.ReflTransGen Step (newMapState features) ms) :
    ((∀ k : Key, k.toLPMKey.Normalized →
      (k ∈ ms.entries ↔ k.identity ∈ (ms.trie.exactLookup k.prefixLength k.toLPMKey).getD [])) ∧
    (∀ e ∈ ms.trie.root.entries, e.value ≠ []) ∧
    ∀ byId, ms.byId = some byId →
      (∀ k : Key, k ∈ ms.entries ↔ k.toLPMKey ∈ (byId.lookup k.identity).getD []) ∧
      ∀ id keys, byId.lookup id = some keys → keys ≠ []) ∧
    ∀ (old : mapState) (features' : policyFeatures) (ms' : mapState),
      Relation.ReflTransGen Step (newMapStateFrom old features') ms' →
      (∀ k : Key, k.toLPMKey.Normalized →
        (k ∈ ms'.entries ↔ k.identity ∈ (ms'.trie.exactLookup k.prefixLength k.toLPMKey).getD [])) ∧
      (∀ e ∈ ms'.trie.root.entries, e.value ≠ []) ∧
      ∀ byId, ms'.byId = some byId →
        ∀ k : Key, k ∈ ms'.entries ↔ k.toLPMKey ∈ (byId.lookup k.identity).getD [] := by
  obtain ⟨⟨a, ha⟩, hb⟩ := (newMapState_consistent features).steps h
  refine ⟨⟨fun k hk => ha.mem_iff_exactLookup hk, fun e he => ha.trie_sets_ne_nil he,
    fun byId hbyId => ⟨ha.byId byId hbyId, hb byId hbyId⟩⟩, fun old features' ms' h' => ?_⟩
  -- from an old map state only the index facts remain; no key set is known to be non-empty
  obtain ⟨a', ha'⟩ := reachable_from_indexed h'
  exact ⟨fun k hk => ha'.mem_iff_exactLookup hk, fun e he => ha'.trie_sets_ne_nil he, ha'.byId⟩

theorem reachable_indices_consistent_tcp80 :
    let k80 : Key := (ingressKey.withIdentity 256).withPortProto 6 80
    let ms := ((newMapState passRules).allowAllIdentities true false).insert k80
      (newAllowEntryWithLabels labelsAllowAnyIngress)
    Relation.ReflTransGen Step (newMapState passRules) ms ∧
      ((∀ k : Key, k.toLPMKey.Normalized →
        (k ∈ ms.entries ↔ k.identity ∈ (ms.trie.exactLookup k.prefixLength k.toLPMKey).getD [])) ∧
      (∀ e ∈ ms.trie.root.entries, e.value ≠ []) ∧
      ∀ byId, ms.byId = some byId →
        (∀ k : Key, k ∈ ms.entries ↔ k.toLPMKey ∈ (byId.lookup k.identity).getD []) ∧
        ∀ id keys, byId.lookup id = some keys → keys ≠ []) ∧
      ∀ (old : mapState) (features' : policyFeatures) (ms' : mapState),
        Relation.ReflTransGen Step (newMapStateFrom old features') ms' →
        (∀ k : Key, k.toLPMKey.Normalized →
          (k ∈ ms'.entries ↔ k.identity ∈ (ms'.trie.exactLookup k.prefixLength k.toLPMKey).getD [])) ∧
        (∀ e ∈ ms'.trie.root.entries, e.value ≠ []) ∧
        ∀ byId, ms'.byId = some byId →
          ∀ k : Key, k ∈ ms'.entries ↔ k.toLPMKey ∈ (byId.lookup k.identity).getD [] :=
  have h : Relation.ReflTransGen Step (newMapState passRules)
      (((newMapState passRules).allowAllIdentities true false).insert
        ((ingressKey.withIdentity 256).withPortProto 6 80)
        (newAllowEntryWithLabels labelsAllowAnyIngress)) :=
    (Relation.ReflTransGen.single (.allowAllIdentities _ true false)).tail
      (.insert _ _ _ (by decide))
  ⟨h, reachable_indices_consistent h⟩

/-- Where the invariant stops: a map state made by `newMapState` from an old one starts with an
empty key set; a key with a port and no protocol, which is not normalized, finds the identity set
of the bare direction; and `updateExisting` of a key that the map state does not hold enters it
into the entries only. -/
theorem literal_index_invariant_fails :
    let k : Key := ingressKey.withIdentity 256
    let e := newAllowEntryWithLabels labelsAllowAnyIngress
    (newMapStateFrom ((newMapState passRules).insert k e) passRules).byId.bind (·.lookup 256) =
        some [] ∧
      (let k80 : Key := ⟨⟨0, 0, 80⟩, 256⟩
       let ms := (newMapState 0).insert k e
       k80 ∉ ms.entries ∧ 256 ∈ (ms.trie.exactLookup k80.prefixLength k80.toLPMKey).getD []) ∧
      (let ms := (newMapState 0).updateExisting k e
       k ∈ ms.entries ∧ ms.trie.exactLookup k.prefixLength k.toLPMKey = none) := by
  decide

end mapState

end Cilium.Policy
