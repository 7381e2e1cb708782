import Cilium.Policy.Types
import Cilium.Policy.Origin
import Cilium.Bitlpm.Iterators
import Mathlib.Data.List.AList

/-! The policy map state of `pkg/policy/mapstate.go`: the entries by key, a bit-LPM trie from
the `LPMKey` of every key to the set of identities it has entries for, and, when pass or named
port rules are in use, an index from each identity to its `LPMKey`s.  Go's maps are association
lists, and a set is a list without duplicates; the order they iterate in is one of the orders
Go may take.  The iterators of the map state are the keys they would visit, read from the trie
when the loop starts; a loop body reads each entry when it gets to it and skips a key that an
earlier round deleted, as `forKey` does.  The agent's cluster ID, which `aggregateFor` reads from
the configuration, is a parameter. -/

namespace Cilium.Policy

open Cilium.Policy.Types Cilium.Bitlpm

/-! ### Pass metadata -/

/-- `passMeta`: the precedence of a pass verdict and the precedence range of its tier. -/
structure passMeta where
  precedence : Precedence
  tierMaxPrecedence : Precedence
  tierMinPrecedence : Precedence
  deriving DecidableEq, Repr

/-- `passMetas`: at most one per tier, in increasing tier order. -/
abbrev passMetas := List passMeta

namespace passMetas

/-- The loop of `Collect`: insert before the first higher tier, or keep the higher precedence
of the same tier. -/
def collectAt (pass : passMeta) : passMetas → passMetas
  | [] => [pass]
  | m :: ms =>
    if m.tierMinPrecedence > pass.tierMinPrecedence then pass :: m :: ms
    else if m.tierMinPrecedence = pass.tierMinPrecedence then
      if pass.precedence > m.precedence then pass :: ms else m :: ms
    else m :: collectAt pass ms

/-- `passMetas.Collect`: a pass outside its own tier's range, or of precedence zero, is
dropped. -/
def collect (pm : passMetas) (pass : passMeta) : passMetas :=
  if pass.precedence = 0 ∨ pass.precedence < pass.tierMinPrecedence ∨
      pass.precedence > pass.tierMaxPrecedence then pm
  else collectAt pass pm

end passMetas

/-- `passMeta.isDifferentTierOrHigherPrecedence`. -/
def passMeta.isDifferentTierOrHigherPrecedence (pass : passMeta) (precedence : Precedence) :
    Bool :=
  let sameTier := pass.tierMinPrecedence ≤ precedence && precedence ≤ pass.tierMaxPrecedence
  !sameTier || pass.precedence > precedence

namespace passMetas

/-- `passMetas.Delete`: drop the lower precedence passes of the tier of `precedence`. -/
def delete (old : passMetas) (precedence : Precedence) : passMetas :=
  old.filter (·.isDifferentTierOrHigherPrecedence precedence)

/-- The loop of `passMetas.Merge`, for at most `fuel` rounds, on the part of `old` from index
`i` and of `other` from index `j`: an `other` of a lower tier is inserted at `i`, one of the same
tier replaces `old[i]` if its precedence is higher, and what is left of `other` once `old` is
passed is appended. -/
def mergeLoop : Nat → passMetas → passMetas → passMetas
  | 0, old, _ => old
  | fuel + 1, old, other =>
    match old, other with
    | old, [] => old
    | [], other => other
    | o :: os, x :: xs =>
      if o.tierMinPrecedence < x.tierMinPrecedence then o :: mergeLoop fuel os (x :: xs)
      else if o.tierMinPrecedence > x.tierMinPrecedence then mergeLoop fuel (x :: o :: os) xs
      else if o.precedence < x.precedence then mergeLoop fuel (x :: os) xs
      else mergeLoop fuel (o :: os) xs

/-- `passMetas.Merge`.  Each round lowers `old.length + 2 * other.length`, so the fuel never runs
out. -/
def merge (old other : passMetas) : passMetas :=
  mergeLoop (old.length + 2 * other.length + 1) old other

/-- `passMetas.MergeClone` on the pointers `old` and `other` (`none` is `nil`), and whether the
pointer returned is not `old`. -/
def mergeClone (old other : Option passMetas) : Option passMetas × Bool :=
  if old.getD [] = [] then (other, old.isSome || other.isSome)
  else if other.getD [] = [] then (old, false)
  else if old = other then (old, false)
  else (some (merge (old.getD []) (other.getD [])), true)

end passMetas

/-! ### Map state entries -/

/-- `mapStateEntry`: a `MapStateEntry`, its pass metadata (`none` for a `nil` pointer) and the
origin of the rules it derives from. -/
structure mapStateEntry extends MapStateEntry where
  passes : Option passMetas
  derivedFromRules : ruleOrigin
  deriving DecidableEq, Repr

namespace mapStateEntry

def isPassEntry (e : mapStateEntry) : Bool := e.passes.isSome

/-- `Passes`: the pass metadata, none for a `nil` pointer. -/
def passList (e : mapStateEntry) : passMetas := e.passes.getD []

/-- `equivalent`: the same policy effect; the rule origins may differ in their labels. -/
def equivalent (e o : mapStateEntry) : Bool :=
  e.toMapStateEntry == o.toMapStateEntry && e.passes == o.passes &&
    (e.derivedFromRules == o.derivedFromRules ||
      e.derivedFromRules.logString == o.derivedFromRules.logString)

/-- `mapStateEntry.Equal`. -/
def equal (e o : mapStateEntry) : Bool := e.equivalent o && e.derivedFromRules == o.derivedFromRules

/-- `InheritPassPrecedence`: move the precedence from the bottom of each pass's tier to the
pass. -/
def inheritPassPrecedence (e : mapStateEntry) (passes : passMetas) : Precedence :=
  passes.foldl (fun precedence pass => precedence - pass.tierMinPrecedence + pass.precedence)
    e.precedence

end mapStateEntry

/-- `PassEntry`: an invalid entry with one pass. -/
def passEntry (priority tierPriority nextTierPriority : Priority) (derivedFrom : ruleOrigin) :
    mapStateEntry :=
  { toMapStateEntry := MapStateEntry.invalidEntry,
    passes := some [⟨priority.toPassPrecedence, tierPriority.toDenyPrecedence,
      nextTierPriority.toPassPrecedence + 0x100⟩],
    derivedFromRules := derivedFrom }

/-- `newMapStateEntry`. -/
def newMapStateEntry (priority tierPriority nextTierPriority : Priority) (derivedFrom : ruleOrigin)
    (proxyPort : UInt16) (listenerPriority : ListenerPriority) (verdict : Verdict)
    (authReq : AuthRequirement) : mapStateEntry :=
  if verdict = .pass then passEntry priority tierPriority nextTierPriority derivedFrom
  else
    { toMapStateEntry := MapStateEntry.new priority (verdict = .deny) proxyPort listenerPriority
        authReq,
      passes := none, derivedFromRules := derivedFrom }

/-- `LabelsAllowAnyIngress` and `LabelsAllowAnyEgress`, as the strings of their label arrays. -/
def labelsAllowAnyIngress : String := "[reserved:io.cilium.policy.derived-from=allow-any-ingress]"
def labelsAllowAnyEgress : String := "[reserved:io.cilium.policy.derived-from=allow-any-egress]"

/-- `newAllowEntryWithLabels`. -/
def newAllowEntryWithLabels (lbls : String) : mapStateEntry :=
  newMapStateEntry 0 0 lowestPriority (makeSingleRuleOrigin lbls "") 0 0 .allow 0

/-- `invalidMapStateEntry`, with the zero rule origin. -/
def invalidMapStateEntry : mapStateEntry := ⟨MapStateEntry.invalidEntry, none, none⟩

/-! ### The map state -/

/-- `IDSet`. -/
abbrev IDSet := List NumericIdentity

/-- `LPMKeys`. -/
abbrev LPMKeys := List LPMKey

/-- `Keys`. -/
abbrev Keys := List Key

/-- `mapState`; `byId` is `none` when the index is not in use. -/
structure mapState where
  entries : AList fun _ : Key => mapStateEntry
  trie : Trie LPMKey IDSet
  byId : Option (AList fun _ : NumericIdentity => LPMKeys)

/-- `policyFeatures`. -/
abbrev policyFeatures := UInt8

def denyRules : policyFeatures := 1
def redirectRules : policyFeatures := 2
def orderedRules : policyFeatures := 4
def authRules : policyFeatures := 8
def passRules : policyFeatures := 16
def namedPortRules : policyFeatures := 32
def precedenceFeatures : policyFeatures := denyRules ||| redirectRules ||| orderedRules

def policyFeatures.contains (pf feature : policyFeatures) : Bool := pf &&& feature != 0

/-- `newMapState` for a map state without a predecessor: the identity index is kept for pass and
named port rules. -/
def newMapState (features : policyFeatures) : mapState :=
  { entries := ∅, trie := newTrie mapStatePrefixLen,
    byId := if features &&& (passRules ||| namedPortRules) != 0 then some ∅ else none }

/-- `emptyMapState`. -/
def emptyMapState : mapState := newMapState 0

/-- `newMapState` given the map state it follows: the identity index starts with an empty key set
for each identity of the old one. -/
def newMapStateFrom (old : mapState) (features : policyFeatures) : mapState :=
  { newMapState features with
    byId := if features &&& (passRules ||| namedPortRules) != 0 then
      some ((old.byId.getD ∅).entries.foldl (fun byId e => byId.insert e.1 []) ∅)
    else none }

namespace mapState

/-- `mapState.get`. -/
def get (ms : mapState) (k : Key) : Option mapStateEntry := ms.entries.lookup k

def len (ms : mapState) : Nat := ms.entries.entries.length

/-- `mapState.upsert`: a new key also enters the trie and the identity index. -/
def upsert (ms : mapState) (k : Key) (e : mapStateEntry) : mapState :=
  let entries := ms.entries.insert k e
  if k ∈ ms.entries then { ms with entries }
  else
    let idSet := (ms.trie.exactLookup k.prefixLength k.toLPMKey).getD []
    { entries,
      trie := (ms.trie.upsert k.prefixLength k.toLPMKey (idSet.insert k.identity)).1,
      byId := ms.byId.map fun byId =>
        byId.insert k.identity (((byId.lookup k.identity).getD []).insert k.toLPMKey) }

/-- `mapState.delete`: a trie node whose identity set empties is deleted, and so is an identity
whose keys run out. -/
def delete (ms : mapState) (k : Key) : mapState :=
  if k ∈ ms.entries then
    { entries := ms.entries.erase k,
      trie := match ms.trie.exactLookup k.prefixLength k.toLPMKey with
        | none => ms.trie
        | some idSet =>
          let idSet := idSet.erase k.identity
          if idSet.length = 0 then (ms.trie.delete k.prefixLength k.toLPMKey).1
          else (ms.trie.upsert k.prefixLength k.toLPMKey idSet).1,
      byId := ms.byId.map fun byId =>
        match byId.lookup k.identity with
        | none => byId
        | some keys =>
          let keys := keys.erase k.toLPMKey
          if keys.length = 0 then byId.erase k.identity else byId.insert k.identity keys }
  else ms

/-- `mapState.insert`. -/
def insert (ms : mapState) (k : Key) (v : mapStateEntry) : mapState := ms.upsert k v

/-- `mapState.updateExisting`: the entry changes and the indices do not. -/
def updateExisting (ms : mapState) (k : Key) (v : mapStateEntry) : mapState :=
  { ms with entries := ms.entries.insert k v }

/-- The entries of `keys` as a loop body finds them: a key that is gone is skipped. -/
def withEntries (ms : mapState) (keys : List Key) : List (Key × mapStateEntry) :=
  keys.filterMap fun k => (ms.get k).map (k, ·)

/-- `mapState.Equal`: the same keys, with equal entries. -/
def equal (msA msB : mapState) : Bool :=
  msA.len == msB.len &&
    msA.entries.entries.all fun kv => match msB.get kv.1 with
      | some vB => vB.equal kv.2
      | none => false

section Iterators

variable (clusterID : UInt32)

/-- The keys of a trie node with the identity `id`, if it has one. -/
def forID (lpmKey : LPMKey) (idSet : IDSet) (id : NumericIdentity) : List Key :=
  if id ∈ idSet then [⟨lpmKey, id⟩] else []

/-- `forCoveredIDs`: the keys of a trie node with an identity that `agg` aggregates. -/
def forCoveredIDs (agg : NumericIdentity) (lpmKey : LPMKey) (idSet : IDSet) : List Key :=
  (idSet.filter (aggregates clusterID agg)).map fun id => ⟨lpmKey, id⟩

/-- `CoveringBroaderOrEqualKeys`: on every ancestor, the key with the aggregate identity, then
the one with the identity of `key`. -/
def coveringBroaderOrEqualKeys (ms : mapState) (key : Key) : List Key :=
  let agg := aggregateFor clusterID key.identity
  (ms.trie.ancestors key.prefixLength key.toLPMKey).flatMap fun e =>
    forID e.key e.value agg ++ (if key.identity ≠ agg then forID e.key e.value key.identity else [])

/-- `BroaderOrEqualKeys`: as `coveringBroaderOrEqualKeys`, and for an aggregate `key` also every
key that it aggregates. -/
def broaderOrEqualKeys (ms : mapState) (key : Key) : List Key :=
  let agg := aggregateFor clusterID key.identity
  (ms.trie.ancestors key.prefixLength key.toLPMKey).flatMap fun e =>
    forID e.key e.value agg ++
      (if key.identity ≠ agg then forID e.key e.value key.identity else []) ++
      (if key.identity = agg then forCoveredIDs clusterID agg e.key e.value else [])

/-- `CoveredNarrowerOrEqualKeys`: on every descendant, for an aggregate `key` the keys it
aggregates and then its own identity, and otherwise only the identity of `key`. -/
def coveredNarrowerOrEqualKeys (ms : mapState) (key : Key) : List Key :=
  let agg := aggregateFor clusterID key.identity
  (ms.trie.descendants key.prefixLength key.toLPMKey).flatMap fun e =>
    if key.identity = agg then forCoveredIDs clusterID agg e.key e.value ++ forID e.key e.value agg
    else forID e.key e.value key.identity

/-- `NarrowerOrEqualKeys`: as `coveredNarrowerOrEqualKeys`, and for a specific `key` also the
aggregate identity. -/
def narrowerOrEqualKeys (ms : mapState) (key : Key) : List Key :=
  let wc := aggregateFor clusterID key.identity
  (ms.trie.descendants key.prefixLength key.toLPMKey).flatMap fun e =>
    (if key.identity = wc then forCoveredIDs clusterID wc e.key e.value else []) ++
      forID e.key e.value key.identity ++
      (if key.identity ≠ wc then forID e.key e.value wc else [])

/-- `CoveringKeysWithSameID`: the ancestors with the identity of `key`, longest prefix first. -/
def coveringKeysWithSameID (ms : mapState) (key : Key) : List Key :=
  (ms.trie.ancestorsLongestPrefixFirst key.prefixLength key.toLPMKey).flatMap fun e =>
    forID e.key e.value key.identity

/-- `SubsetKeysWithSameID`: the descendants with the identity of `key`, shortest prefix first. -/
def subsetKeysWithSameID (ms : mapState) (key : Key) : List Key :=
  (ms.trie.descendantsShortestPrefixFirst key.prefixLength key.toLPMKey).flatMap fun e =>
    forID e.key e.value key.identity

/-- `LPMAncestors`: the ancestors, longest prefix first, each with the identity of `key` and then
the aggregate identity. -/
def lpmAncestors (ms : mapState) (key : Key) : List Key :=
  let agg := aggregateFor clusterID key.identity
  (ms.trie.ancestorsLongestPrefixFirst key.prefixLength key.toLPMKey).flatMap fun e =>
    forID e.key e.value key.identity ++ (if key.identity ≠ agg then forID e.key e.value agg else [])

/-- The closure `authOverride` of `lookup`: a derived auth type of a higher type comes from the
other entry when its allow precedence is not lower. -/
def authOverride (entry other : mapStateEntry) : mapStateEntry :=
  if !entry.authRequirement.isExplicit && other.authRequirement.authType > entry.authRequirement.authType &&
      other.precedence.allowPrecedence ≥ entry.precedence.allowPrecedence then
    { entry with authRequirement := other.authRequirement.asDerived }
  else entry

/-- `mapState.lookup`: the first valid entry of a specific and of the aggregate identity among the
LPM ancestors, and the one of them that wins; a deny when there is none. -/
def lookup (ms : mapState) (key : Key) : mapStateEntry × Bool :=
  let agg := aggregateFor clusterID key.identity
  let found := ms.withEntries (ms.lpmAncestors clusterID key)
  let idHit := found.find? fun kv => kv.1.identity ≠ agg && kv.2.isValid
  let aggHit := found.find? fun kv => kv.1.identity == agg && kv.2.isValid
  match idHit, aggHit with
  | some (_, idEntry), none => (idEntry, true)
  | none, some (_, aggEntry) => (aggEntry, true)
  | some (idKey, idEntry), some (aggKey, aggEntry) =>
    if idEntry.precedence > aggEntry.precedence then (idEntry, true)
    else if aggEntry.precedence > idEntry.precedence then (aggEntry, true)
    else if idEntry.isDeny then (idEntry, true)
    -- the source compares the prefix lengths this way round
    else if idKey.prefixLength > aggKey.prefixLength then (authOverride aggEntry idEntry, true)
    else (authOverride idEntry aggEntry, true)
  | none, none => (⟨MapStateEntry.denyEntry, none, nilRuleOrigin⟩, false)

end Iterators

/-- `mapState.allowAllIdentities`: an allow of every aggregate identity at L3 in each direction
asked for. -/
def allowAllIdentities (ms : mapState) (ingress egress : Bool) : mapState :=
  let ms := if ingress then
      allAggregates.foldl (fun ms nid =>
        ms.upsert (ingressKey.withIdentity nid) (newAllowEntryWithLabels labelsAllowAnyIngress)) ms
    else ms
  if egress then
    allAggregates.foldl (fun ms nid =>
      ms.upsert (egressKey.withIdentity nid) (newAllowEntryWithLabels labelsAllowAnyEgress)) ms
  else ms

end mapState

end Cilium.Policy
