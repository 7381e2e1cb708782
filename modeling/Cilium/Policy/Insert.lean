import Cilium.Policy.MapState

/-! Insertion into the policy map state with incremental change tracking
(`pkg/policy/mapstate.go`): `addKeyWithChanges` and the deletes that record what they change in a
`ChangeState`, `revertChanges`, and `insertWithChanges` with its three ways of inserting: deny
and precedence pruning, the auth propagation of `authPreferredInsert`, and the pass verdicts of
`insertWithPasses`.  A Go `return` in the middle of a loop is a scan that gives `none`; the
work list of `insertWithPasses` runs on fuel, which is the number of keys it can ever hold. -/

namespace Cilium.Policy

open Cilium.Policy.Types Cilium.Bitlpm

/-- `ChangeState`: the keys added or changed, the keys deleted, and the old values of the keys
changed or deleted; `none` is a `nil` map, which records nothing. -/
structure ChangeState where
  adds : Option Keys
  deletes : Option Keys
  old : Option (AList fun _ : Key => mapStateEntry)

namespace ChangeState

/-- `ChangeState.insertOldIfNotExists`: record the old value of a key, unless one is recorded or
the key was added in this round of changes; and whether it was recorded. -/
def insertOldIfNotExists (changes : ChangeState) (key : Key) (entry : mapStateEntry) :
    ChangeState × Bool :=
  match changes.old with
  | none => (changes, false)
  | some old =>
    if key ∈ old then (changes, false)
    else if key ∈ changes.adds.getD [] then (changes, false)
    else ({ changes with old := some (old.insert key entry) }, true)

/-- An incremental add, which overrides an earlier delete of the key. -/
def recordAdd (changes : ChangeState) (key : Key) : ChangeState :=
  match changes.adds with
  | none => changes
  | some adds => { changes with adds := some (adds.insert key),
                                deletes := changes.deletes.map (·.erase key) }

end ChangeState

namespace mapState

/-- Which `MapStateEntry` `addKeyWithChanges` keeps when the key has an entry: the new one over an
invalid one, the two merged on one priority level, the higher precedence; `none` when nothing
changes and nothing is to be recorded. -/
def keepEntry (oldEntry entry : mapStateEntry) (passUpdated : Bool) : Option mapStateEntry :=
  if !oldEntry.isValid then
    some { oldEntry with toMapStateEntry := entry.toMapStateEntry,
                         derivedFromRules := entry.derivedFromRules }
  else if entry.isValid then
    if oldEntry.precedence.proxyPortPrecedenceMayDiffer entry.precedence then
      some { oldEntry with toMapStateEntry := oldEntry.toMapStateEntry.merge entry.toMapStateEntry,
                           derivedFromRules := oldEntry.derivedFromRules.merge entry.derivedFromRules }
    else if oldEntry.precedence < entry.precedence then
      some { oldEntry with toMapStateEntry := entry.toMapStateEntry,
                           derivedFromRules := entry.derivedFromRules }
    else if !passUpdated then none
    else some oldEntry
  else some oldEntry

/-- `addKeyWithChanges`: insert or merge, save the old value first, and record an add when the
key is new or its datapath entry changes; and whether anything was done. -/
def addKeyWithChanges (ms : mapState) (key : Key) (entry : mapStateEntry) (changes : ChangeState) :
    mapState × ChangeState × Bool :=
  match ms.get key with
  | none => (ms.insert key entry, changes.recordAdd key, true)
  | some oldEntry =>
    if entry.equal oldEntry then (ms, changes, false)
    else
      let changes := (changes.insertOldIfNotExists key oldEntry).1
      let datapathEqual := oldEntry.toMapStateEntry == entry.toMapStateEntry
      let (passes, passUpdated) := passMetas.mergeClone oldEntry.passes entry.passes
      match keepEntry { oldEntry with passes } entry passUpdated with
      | none => (ms, changes, false)
      | some e =>
        (ms.updateExisting key e, if datapathEqual then changes else changes.recordAdd key, true)

/-- `deleteExistingWithChanges`: a delete is recorded only for a key that was not added in this
round, and it cancels an add. -/
def deleteExistingWithChanges (ms : mapState) (key : Key) (entry : mapStateEntry)
    (changes : ChangeState) : mapState × ChangeState :=
  let (changes, saved) := changes.insertOldIfNotExists key entry
  let changes := if saved then { changes with deletes := changes.deletes.map (·.insert key) }
    else changes
  (ms.delete key, { changes with adds := changes.adds.map (·.erase key) })

/-- `deleteKeyWithChanges`. -/
def deleteKeyWithChanges (ms : mapState) (key : Key) (changes : ChangeState) :
    mapState × ChangeState :=
  match ms.get key with
  | some entry => ms.deleteExistingWithChanges key entry changes
  | none => (ms, changes)

/-- `deleteIdWithChanges`: delete every key of the identity, as the identity index has them. -/
def deleteIdWithChanges (ms : mapState) (id : NumericIdentity) (changes : ChangeState) :
    mapState × ChangeState :=
  match ms.byId.bind (·.lookup id) with
  | none => (ms, changes)
  | some lpmKeys =>
    lpmKeys.foldl (fun acc lpmKey => acc.1.deleteKeyWithChanges ⟨lpmKey, id⟩ acc.2) (ms, changes)

/-- `revertChanges`: delete the keys added, then put back every old value. -/
def revertChanges (ms : mapState) (changes : ChangeState) : mapState :=
  let ms := (changes.adds.getD []).foldl delete ms
  ((changes.old.map (·.entries)).getD []).foldl (fun ms kv => ms.insert kv.1 kv.2) ms

/-- A loop over the keys of an iterator whose body may change the map state: each entry is read
when the loop gets to it, and a key that an earlier round deleted is skipped. -/
def loop {σ : Type} (ms : σ → mapState) (body : σ → Key → mapStateEntry → σ) (keys : List Key)
    (s : σ) : σ :=
  keys.foldl (fun s k => match (ms s).get k with
    | none => s
    | some v => body s k v) s

section Insert

variable (clusterID : UInt32)

/-- `pruneCoveredNarrowerKey`: delete the passes of `v` on the tier of `precedence` below it and
an allow or deny of `v` below it, or a duplicate that the aggregate `key` covers directly;
delete the whole entry when nothing is left.  Only the whole delete is recorded in `changes`. -/
def pruneCoveredNarrowerKey (ms : mapState) (k : Key) (v : mapStateEntry) (key : Key)
    (entry : mapStateEntry) (precedence : Precedence) (changes : ChangeState) :
    mapState × ChangeState :=
  let deletePassMeta := v.passList.all fun pass => !pass.isDifferentTierOrHigherPrecedence precedence
  let deletePassEntry := v.passList.any fun pass => !pass.isDifferentTierOrHigherPrecedence precedence
  let deleteEntry := !v.isValid ||
    (v.precedence < precedence || v.isDeny && v.precedence == precedence && k != key)
  let deleteEntry := deleteEntry ||
    (key.toLPMKey == k.toLPMKey && aggregates clusterID key.identity k.identity && v.equivalent entry)
  if deletePassMeta && deleteEntry then ms.deleteExistingWithChanges k v changes
  else if deletePassMeta || deletePassEntry || deleteEntry then
    let v := if deletePassMeta then { v with passes := none }
      else if deletePassEntry then { v with passes := some (v.passList.delete precedence) }
      else v
    let v := if deleteEntry then { v with toMapStateEntry := v.invalidate } else v
    (ms.updateExisting k v, changes)
  else (ms, changes)

/-- The loops `for k, v := range ms.CoveredNarrowerOrEqualKeys(key)` that prune every covered
key against `entry` at `precedence`. -/
def pruneCovered (ms : mapState) (key : Key) (entry : mapStateEntry) (precedence : Precedence)
    (changes : ChangeState) : mapState × ChangeState :=
  loop (·.1) (fun s k v => pruneCoveredNarrowerKey clusterID s.1 k v key entry precedence s.2)
    (ms.coveredNarrowerOrEqualKeys clusterID key) (ms, changes)

/-- `aggregateIsEquivalent`: the aggregate key of the same port and protocol has an equivalent
entry. -/
def aggregateIsEquivalent (ms : mapState) (newKey : Key) (newEntry : mapStateEntry) : Bool :=
  let agg := aggregateFor clusterID newKey.identity
  if agg = newKey.identity then false
  else match ms.get (newKey.withIdentity agg) with
    | none => false
    | some aggEntry => aggEntry.equivalent newEntry

/-- The zero `mapStateEntry`, which Go reads for a key missing from the map. -/
def zeroEntry : mapStateEntry := ⟨⟨0, 0, false, 0, 0⟩, none, none⟩

/-- `pruneAggregated`: an aggregate key deletes the equivalent entries of the keys it aggregates
on its own trie node. -/
def pruneAggregated (ms : mapState) (newKey : Key) (newEntry : mapStateEntry)
    (changes : ChangeState) : mapState × ChangeState :=
  if !isAggregate clusterID newKey.identity then (ms, changes)
  else match ms.trie.exactLookup newKey.prefixLength newKey.toLPMKey with
    | none => (ms, changes)
    | some idSet =>
      idSet.foldl (fun acc id =>
        if !aggregates clusterID newKey.identity id then acc
        else
          let k := newKey.withIdentity id
          let v := (acc.1.get k).getD zeroEntry
          if v.equivalent newEntry then acc.1.deleteExistingWithChanges k v acc.2 else acc)
        (ms, changes)

/-- `overrideProxyPortForAuth`: an entry with explicit auth takes the proxy port and precedence of
`newEntry`; and whether it did. -/
def overrideProxyPortForAuth (ms : mapState) (newEntry : mapStateEntry) (k : Key)
    (v : mapStateEntry) (changes : ChangeState) : mapState × ChangeState × Bool :=
  if v.authRequirement.isExplicit then
    let changes := (changes.insertOldIfNotExists k v).1
    (ms.updateExisting k { v with proxyPort := newEntry.proxyPort,
                                  precedence := newEntry.precedence }, changes, true)
  else (ms, changes, false)

/-- `overrideAuthRequirement`: a different auth type becomes the derived auth type of
`newEntry`. -/
def overrideAuthRequirement (ms : mapState) (newEntry : mapStateEntry) (k : Key)
    (v : mapStateEntry) (changes : ChangeState) : mapState × ChangeState :=
  if v.authRequirement.authType != newEntry.authRequirement.authType then
    let changes := (changes.insertOldIfNotExists k v).1
    (ms.updateExisting k { v with authRequirement := newEntry.authRequirement.asDerived }, changes)
  else (ms, changes)

/-- The loop of `authPreferredInsert` over the covering keys of the same identity, longest prefix
first: `none` when a higher precedence entry bails the new entry, else the new entry with the
proxy port and precedence of a higher precedence allow taken over, or an explicit auth type of
the most specific covering key as its derived auth type. -/
def authCovering (newKey : Key) (newEntryHasExplicitAuth : Bool) :
    List (Key × mapStateEntry) → mapStateEntry → Bool → Option mapStateEntry
  | [], newEntry, _ => some newEntry
  | (k, v) :: rest, newEntry, derived =>
    if v.precedence > newEntry.precedence then
      if v.isDeny || !newEntryHasExplicitAuth then none
      else some { newEntry with proxyPort := v.proxyPort, precedence := v.precedence }
    else if !derived && !newEntryHasExplicitAuth && !k.portProtoIsEqual newKey.toLPMKey &&
        v.authRequirement.isExplicit &&
        v.precedence.allowPrecedence ≥ newEntry.precedence.allowPrecedence then
      authCovering newKey newEntryHasExplicitAuth rest
        { newEntry with authRequirement := v.authRequirement.asDerived } true
    else authCovering newKey newEntryHasExplicitAuth rest newEntry derived

/-- One round of the loop of `authPreferredInsert` over the subset keys of the same identity:
delete a lower precedence entry unless its explicit auth keeps it with the new proxy port, then,
until a deny or an explicit auth is met, give the entry the derived auth of the new one.  The
second step works on the entry as the round read it. -/
def authSubset (newKey : Key) (newEntry : mapStateEntry) (newEntryHasExplicitAuth : Bool)
    (s : mapState × ChangeState × Bool) (k : Key) (v : mapStateEntry) :
    mapState × ChangeState × Bool :=
  let (ms, changes, propagated) := s
  let step : Option (mapState × ChangeState) :=
    if v.precedence < newEntry.precedence then
      match ms.overrideProxyPortForAuth newEntry k v changes with
      | (ms, changes, true) => some (ms, changes)
      | (_, _, false) => none
    else some (ms, changes)
  match step with
  | none =>
    let (ms, changes) := ms.deleteExistingWithChanges k v changes
    (ms, changes, propagated)
  | some (ms, changes) =>
    if !propagated && newEntryHasExplicitAuth && !k.portProtoIsEqual newKey.toLPMKey then
      if v.isDeny || v.authRequirement.isExplicit then (ms, changes, true)
      else
        let (ms, changes) := ms.overrideAuthRequirement newEntry k v changes
        (ms, changes, propagated)
    else (ms, changes, propagated)

/-- `authPreferredInsert`. -/
def authPreferredInsert (ms : mapState) (newKey : Key) (newEntry : mapStateEntry)
    (changes : ChangeState) : mapState × ChangeState :=
  let newEntryHasExplicitAuth := newEntry.authRequirement.isExplicit
  match authCovering newKey newEntryHasExplicitAuth
      (ms.withEntries (ms.coveringKeysWithSameID newKey)) newEntry false with
  | none => (ms, changes)
  | some newEntry =>
    let (ms, changes, _) := loop (·.1) (authSubset newKey newEntry newEntryHasExplicitAuth)
      (ms.subsetKeysWithSameID newKey) (ms, changes, false)
    let (ms, changes, _) := ms.addKeyWithChanges newKey newEntry changes
    (ms, changes)

/-! #### Pass verdicts -/

/-- What the scans of `insertWithPasses` over the broader or equal keys collect: the covering
passes of higher tiers, the keys to add for non-covering passes, the keys not to add, and the
highest precedence that bails the new entry from a higher tier. -/
structure Scan where
  passes : passMetas
  l34Keys : Keys
  doneKeys : Keys
  bailPrecedence : Precedence

/-- The loop over the passes of an entry at `k` in a scan: a pass of a higher tier is collected
when `k` covers the new key and otherwise asks for an L3/4 key, which ends the loop; with
`sameTierBails`, as in the scan of the main key, a covering pass of the same tier and a higher
precedence ends the loop and reports a bail. -/
def scanPasses (sameTierBails : Bool) (key k : Key) (entry : mapStateEntry) (isCoveringKey : Bool) :
    passMetas → passMetas × Keys → passMetas × Keys × Bool
  | [], (passes, l34Keys) => (passes, l34Keys, false)
  | pass :: rest, (passes, l34Keys) =>
    if pass.tierMinPrecedence > entry.precedence then
      if !isCoveringKey then (passes, l34Keys.insert (key.withIdentity k.identity), false)
      else scanPasses sameTierBails key k entry isCoveringKey rest (passes.collect pass, l34Keys)
    else if sameTierBails && isCoveringKey && pass.precedence > entry.precedence then
      (passes, l34Keys, true)
    else scanPasses sameTierBails key k entry isCoveringKey rest (passes, l34Keys)

/-- The scan of the main key: `none` is a `return` of `insertWithPasses`, on a covering pass or
allow/deny of higher precedence on the same tier. -/
def scanMain (tierMaxPrecedence : Precedence) (key : Key) (entry : mapStateEntry)
    (aggregateID : NumericIdentity) : List (Key × mapStateEntry) → Scan → Option Scan
  | [], s => some s
  | (k, v) :: rest, s =>
    let isCoveringKey := key.identity != aggregateID || k.identity == aggregateID
    match scanPasses true key k entry isCoveringKey v.passList (s.passes, s.l34Keys) with
    | (_, _, true) => none
    | (passes, l34Keys, false) =>
      let s := { s with passes, l34Keys }
      if v.isValid && (v.precedence > entry.precedence ||
          entry.isDeny && v.precedence == entry.precedence && k != key) then
        if isCoveringKey then
          if v.precedence ≤ tierMaxPrecedence then none
          else scanMain tierMaxPrecedence key entry aggregateID rest
            { s with bailPrecedence := max v.precedence s.bailPrecedence }
        else if v.precedence ≤ tierMaxPrecedence then
          scanMain tierMaxPrecedence key entry aggregateID rest
            { s with doneKeys := s.doneKeys.insert (key.withIdentity k.identity) }
        else scanMain tierMaxPrecedence key entry aggregateID rest s
      else scanMain tierMaxPrecedence key entry aggregateID rest s

/-- One round of the scan of a sub key of the work list: no pass or entry bails it outright, and
only a covering entry above the tier raises the bail precedence. -/
def scanSub (tierMaxPrecedence : Precedence) (key : Key) (entry : mapStateEntry)
    (aggregateID : NumericIdentity) (s : Scan) (kv : Key × mapStateEntry) : Scan :=
  let (k, v) := kv
  let isCoveringKey := key.identity != aggregateID || k.identity == aggregateID
  let (passes, l34Keys, _) := scanPasses false key k entry isCoveringKey v.passList (s.passes, s.l34Keys)
  let s := { s with passes, l34Keys }
  if v.isValid && (v.precedence > entry.precedence ||
      entry.isDeny && v.precedence == entry.precedence && k != key) then
    if isCoveringKey then
      if v.precedence > tierMaxPrecedence && v.precedence > s.bailPrecedence then
        { s with bailPrecedence := v.precedence }
      else s
    else if v.precedence ≤ tierMaxPrecedence then
      { s with doneKeys := s.doneKeys.insert (key.withIdentity k.identity) }
    else s
  else s

/-- The state of `insertWithPasses` while it works: the map state, the changes, the work list
`keys` (a `keySlice`) and `doneKeys`. -/
structure PassWork where
  ms : mapState
  changes : ChangeState
  keys : List Key
  doneKeys : Keys

namespace PassWork

/-- `keySlice.addNewKey`. -/
def addNewKey (w : PassWork) (key : Key) : PassWork :=
  if key ∈ w.doneKeys then w else { w with keys := w.keys ++ [key], doneKeys := w.doneKeys.insert key }

/-- `keySlice.addNewKeys`. -/
def addNewKeys (w : PassWork) (l34Keys : Keys) : PassWork := l34Keys.foldl addNewKey w

/-- `keySlice.collectNarrowerPasses`: a narrower key with a pass above the tier is to be added,
with the identity of `key` if it has the aggregate one. -/
def collectNarrowerPasses (w : PassWork) (tierMaxPrecedence : Precedence) (k : Key)
    (v : mapStateEntry) (key : Key) : PassWork :=
  let k := if k.identity = aggregateFor clusterID key.identity then k.withIdentity key.identity
    else k
  if k ≠ key ∧ v.passList.any (·.precedence > tierMaxPrecedence) then w.addNewKey k else w

/-- Prune the keys covered by `key` at `precedence`, then add `key` with `entry` at that
precedence. -/
def passTo (w : PassWork) (key : Key) (entry : mapStateEntry) (precedence : Precedence) :
    PassWork :=
  let (ms, changes) := pruneCovered clusterID w.ms key entry precedence w.changes
  let (ms, changes, _) := ms.addKeyWithChanges key { entry with precedence } changes
  { w with ms, changes }

end PassWork

/-- One key of the work list: scan its broader keys again, queue new L3/4 keys, and add it with
the precedence its covering passes give, unless a higher tier entry bails it. -/
def insertSubKey (tierMaxPrecedence : Precedence) (entry : mapStateEntry)
    (aggregateID : NumericIdentity) (w : PassWork) (key : Key) : PassWork :=
  let s := (w.ms.withEntries (w.ms.broaderOrEqualKeys clusterID key)).foldl
    (scanSub tierMaxPrecedence key entry aggregateID) ⟨[], [], w.doneKeys, 0⟩
  let w := { w with doneKeys := s.doneKeys }.addNewKeys s.l34Keys
  let precedence := entry.inheritPassPrecedence s.passes
  if precedence > s.bailPrecedence then w.passTo clusterID key entry precedence else w

/-- `keySlice.All` over the work list, which the rounds may extend, for at most `fuel` keys. -/
def workLoop (tierMaxPrecedence : Precedence) (entry : mapStateEntry)
    (aggregateID : NumericIdentity) : Nat → PassWork → PassWork
  | 0, w => w
  | fuel + 1, w =>
    match w.keys with
    | [] => w
    | key :: rest =>
      workLoop tierMaxPrecedence entry aggregateID fuel
        (insertSubKey clusterID tierMaxPrecedence entry aggregateID { w with keys := rest } key)

/-- The pass entry branch of `insertWithPasses`: bail under a higher precedence allow/deny or
pass of the same tier, else prune the covered keys and add it. -/
def insertPassEntry (ms : mapState) (tierMaxPrecedence : Precedence) (key : Key)
    (entry : mapStateEntry) (changes : ChangeState) : mapState × ChangeState :=
  match entry.passList with
  | [newPass] =>
    if newPass.precedence > tierMaxPrecedence then (ms, changes)
    else if (ms.withEntries (ms.coveringBroaderOrEqualKeys clusterID key)).any fun kv =>
        kv.2.isValid && tierMaxPrecedence ≥ kv.2.precedence &&
          kv.2.precedence > newPass.precedence ||
        kv.2.passList.any fun pass => pass.tierMinPrecedence == newPass.tierMinPrecedence &&
          pass.precedence ≥ newPass.precedence then (ms, changes)
    else
      let (ms, changes) := pruneCovered clusterID ms key entry newPass.precedence changes
      let (ms, changes, _) := ms.addKeyWithChanges key entry changes
      (ms, changes)
  | _ => (ms, changes)

/-- `insertWithPasses`.  The work list holds distinct keys whose port and protocol come from the
map state or `key`, and whose identity from the map state or `key`, so the square of one more
than the number of entries is enough fuel. -/
def insertWithPasses (ms : mapState) (tierMaxPrecedence : Precedence) (key : Key)
    (entry : mapStateEntry) (changes : ChangeState) : mapState × ChangeState :=
  if tierMaxPrecedence &&& 0xff != 0xff || entry.isValid && entry.precedence > tierMaxPrecedence then
    (ms, changes)
  else if entry.isPassEntry then insertPassEntry clusterID ms tierMaxPrecedence key entry changes
  else
    let aggregateID := aggregateFor clusterID key.identity
    match scanMain tierMaxPrecedence key entry aggregateID
        (ms.withEntries (ms.broaderOrEqualKeys clusterID key)) ⟨[], [], [], 0⟩ with
    | none => (ms, changes)
    | some s =>
      let w : PassWork := PassWork.addNewKeys ⟨ms, changes, [], s.doneKeys⟩ s.l34Keys
      let bail := s.bailPrecedence > 0
      -- prune the covered keys unless bailed, and queue the narrower keys under a higher pass
      let w := loop (·.ms) (fun w k v =>
          let isCoveringKey := key.identity == aggregateID || k.identity == key.identity
          let w := if !bail && isCoveringKey then
              let (ms, changes) :=
                pruneCoveredNarrowerKey clusterID w.ms k v key entry entry.precedence w.changes
              { w with ms, changes }
            else w
          w.collectNarrowerPasses clusterID tierMaxPrecedence k v key)
        (ms.narrowerOrEqualKeys clusterID key) w
      let precedence := entry.inheritPassPrecedence s.passes
      let passed := s.passes ≠ [] ∧ precedence > s.bailPrecedence
      let w := if passed then w.passTo clusterID key entry precedence else w
      let w := if !bail && !passed then
          let (ms, changes, _) := w.ms.addKeyWithChanges key entry w.changes
          { w with ms, changes }
        else w
      let w := workLoop clusterID tierMaxPrecedence entry aggregateID ((ms.len + 1) * (ms.len + 1)) w
      (w.ms, w.changes)

/-- The end of `insertWithChanges`: delete what an aggregate `newKey` makes redundant, then add
it. -/
def pruneAggregatedAndAdd (ms : mapState) (newKey : Key) (newEntry : mapStateEntry)
    (changes : ChangeState) : mapState × ChangeState :=
  let (ms, changes) := pruneAggregated clusterID ms newKey newEntry changes
  let (ms, changes, _) := ms.addKeyWithChanges newKey newEntry changes
  (ms, changes)

/-- The loops of `insertWithChanges` that delete the covered entries that `del` selects. -/
def deleteCovered (ms : mapState) (newKey : Key) (del : Key → mapStateEntry → Bool)
    (changes : ChangeState) : mapState × ChangeState :=
  loop (·.1) (fun s k v => if del k v then s.1.deleteExistingWithChanges k v s.2 else s)
    (ms.coveredNarrowerOrEqualKeys clusterID newKey) (ms, changes)

/-- `insertWithChanges`: skip what the aggregate key already says; insert with passes when pass
rules are in use; else a deny bails under a covering deny or a higher precedence and deletes
what it covers, an allow goes through `authPreferredInsert` with auth rules, and is bailed and
prunes by precedence when precedence features are in use. -/
def insertWithChanges (ms : mapState) (tierMaxPrecedence : Precedence) (newKey : Key)
    (newEntry : mapStateEntry) (features : policyFeatures) (changes : ChangeState) :
    mapState × ChangeState :=
  let covering := ms.withEntries (ms.coveringBroaderOrEqualKeys clusterID newKey)
  if ms.aggregateIsEquivalent clusterID newKey newEntry then (ms, changes)
  else if features.contains passRules then
    insertWithPasses clusterID ms tierMaxPrecedence newKey newEntry changes
  else if newEntry.isDeny then
    if covering.any fun kv => kv.2.isValid && (kv.2.precedence > newEntry.precedence ||
        kv.2.precedence == newEntry.precedence && kv.1 != newKey) then (ms, changes)
    else
      let (ms, changes) := deleteCovered clusterID ms newKey (fun k v =>
        v.precedence < newEntry.precedence || v.precedence == newEntry.precedence && k != newKey)
        changes
      pruneAggregatedAndAdd clusterID ms newKey newEntry changes
  else if features.contains authRules then
    let (ms, changes) := authPreferredInsert ms newKey newEntry changes
    pruneAggregated clusterID ms newKey newEntry changes
  else if features.contains precedenceFeatures then
    if covering.any fun kv => kv.2.isValid && kv.2.precedence > newEntry.precedence then
      (ms, changes)
    else
      let (ms, changes) := deleteCovered clusterID ms newKey
        (fun _ v => v.precedence < newEntry.precedence) changes
      pruneAggregatedAndAdd clusterID ms newKey newEntry changes
  else pruneAggregatedAndAdd clusterID ms newKey newEntry changes

/-- An incremental insert that moves a lower precedence entry with an explicit auth type to the
proxy port of the new covering entry changes that entry without recording it as an add: the
policy map keeps the old proxy port. -/
theorem insertWithChanges_auth_override_not_in_adds :
    let k80 : Key := (ingressKey.withIdentity 256).withPortProto 6 80
    let kAll : Key := (ingressKey.withIdentity 256).withPortProto 6 0
    let features : policyFeatures := authRules ||| redirectRules ||| orderedRules
    let ms0 := ((newMapState features).insertWithChanges 0 (0 : Priority).toDenyPrecedence k80
      (newMapStateEntry 5 0 lowestPriority nilRuleOrigin 0 0 .allow 0x81) features
      ⟨none, none, none⟩).1
    let r := ms0.insertWithChanges 0 (0 : Priority).toDenyPrecedence kAll
      (newMapStateEntry 0 0 lowestPriority nilRuleOrigin 1000 0 .allow 0) features
      ⟨some [], some [], some ∅⟩
    (ms0.get k80).map (·.proxyPort) = some 0 ∧ (r.1.get k80).map (·.proxyPort) = some 1000 ∧
      r.2.adds = some [kAll] ∧ r.2.deletes = some [] := by
  decide

/-- A tier 0 allow that an existing identity newly gets invalidates the passed-to allow of a
narrower key, which keeps its tier 1 pass, without saving its old value: `revertChanges` cannot
bring the allow back. -/
theorem revertChanges_misses_pruned_entry :
    let k80 : Key := (ingressKey.withIdentity 256).withPortProto 6 80
    let kAll : Key := (ingressKey.withIdentity 256).withPortProto 6 0
    let features : policyFeatures := passRules ||| orderedRules
    let noChanges : ChangeState := ⟨none, none, none⟩
    let ms0 := ((newMapState features).insertWithChanges 0 (10 : Priority).toDenyPrecedence k80
      (newMapStateEntry 10 10 30 nilRuleOrigin 0 0 .pass 0) features noChanges).1
    let ms0 := (ms0.insertWithChanges 0 (30 : Priority).toDenyPrecedence k80
      (newMapStateEntry 30 30 lowestPriority nilRuleOrigin 0 0 .allow 0) features noChanges).1
    let r := ms0.insertWithChanges 0 (0 : Priority).toDenyPrecedence kAll
      (newMapStateEntry 0 0 10 nilRuleOrigin 0 0 .allow 0) features ⟨some [], some [], some ∅⟩
    (ms0.get k80).map (·.isValid) = some true ∧
      ((r.1.revertChanges r.2).get k80).map (·.isValid) = some false ∧
      (r.1.revertChanges r.2).equal ms0 = false := by
  decide

/-- Two entries of one tier inserted in either order: a tier 1 pass of all TCP above a tier 1
deny of TCP port 80, which a tier 0 pass sends to tier 1.  Inserted first, the deny takes the
precedence of the tier 0 pass, above the tier 1 pass, which then leaves it; inserted after the
pass, the deny is bailed.  The map states differ. -/
theorem pass_order_changes_map_state :
    let k80 : Key := (egressKey.withIdentity 256).withPortProto 6 80
    let kTCP : Key := (egressKey.withIdentity 256).withPortProto 6 0
    let features : policyFeatures := orderedRules ||| denyRules ||| passRules
    let noChanges : ChangeState := ⟨none, none, none⟩
    let ms0 := ((newMapState features).insertWithChanges 0 (0 : Priority).toDenyPrecedence k80
      (newMapStateEntry 0 0 1000 nilRuleOrigin 0 0 .pass 0) features noChanges).1
    let pass1 := newMapStateEntry 1000 1000 2000 nilRuleOrigin 0 0 .pass 0
    let deny1 := newMapStateEntry 1001 1000 2000 nilRuleOrigin 0 0 .deny 0
    let tier1 : Precedence := (1000 : Priority).toDenyPrecedence
    let passFirst := ((ms0.insertWithChanges 0 tier1 kTCP pass1 features noChanges).1.insertWithChanges 0
      tier1 k80 deny1 features noChanges).1
    let denyFirst := ((ms0.insertWithChanges 0 tier1 k80 deny1 features noChanges).1.insertWithChanges 0
      tier1 kTCP pass1 features noChanges).1
    (passFirst.get k80).map (·.isValid) = some false ∧
      (denyFirst.get k80).map (·.isDeny) = some true ∧ passFirst.equal denyFirst = false := by
  decide

end Insert

end mapState

end Cilium.Policy
