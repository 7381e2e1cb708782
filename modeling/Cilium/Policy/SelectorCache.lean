import Mathlib.Data.Finset.Sort
import Cilium.Labels.ArrayList
import Cilium.Policy.Types

/-! The selector cache of `pkg/policy/selectorcache.go`: the identities it knows, indexed by the
value of their namespace label, the identity selectors of the policies with the identities each
one selects, and the selections it publishes to readers at each commit.  Go's pointers are kept
where the code tells objects apart by them: an `*scIdentity` is the object with an address, since
no code changes the object after `insert` made it, and an `*identitySelector` is its `id`, which
`lastSelectorId` makes unique, with the objects themselves in `objects`.  A Go map that the code
ranges over is an association list in its order of iteration.  The notifications queued for the
users of a selector and the registration of FQDN selectors are left out. -/

namespace Cilium.Policy

open Labels

/-- `k8sConst.PodNamespaceLabel`. -/
def podNamespaceLabelKey : String := "io.kubernetes.pod.namespace"

/-- `labels.LabelSourceK8s`. -/
def labelSourceK8s : String := "k8s"

/-- `lbls.LookupLabel(&podNamespaceLabel)`: the value of the first label with the key of the k8s
label of the pod namespace (`HasKey` against a k8s label compares source and key), or `""`. -/
def lookupNamespace (lbls : LabelArray) : String :=
  ((lbls.find? fun l => l.source == labelSourceK8s && l.key == podNamespaceLabelKey).map
    (·.value)).getD ""

/-- `types.Selector` as the cache uses it: its key, `IsWildcard`, `SelectedNamespaces` (`[]` for
no requirement) and `Matches`. -/
structure Selector where
  key : String
  isWildcard : Bool
  selectedNamespaces : List String
  matchesLabels : LabelArray → Bool

/-- The assumption the cache makes of a selector: one that names namespaces only matches labels
of those namespaces. -/
def Selector.NamespaceScoped (s : Selector) : Prop :=
  s.selectedNamespaces ≠ [] → ∀ lbls, s.matchesLabels lbls = true →
    lookupNamespace lbls ∈ s.selectedNamespaces

/-- `identity.IdentityMap`. -/
abbrev IdentityMap := AList fun _ : NumericIdentity => LabelArray

/-- `types.SelectorId`. -/
abbrev SelectorId := ℕ

/-- A `CachedSelectionUser`, by the identity of the object. -/
abbrev CachedSelectionUser := ℕ

/-- `scIdentity`; `ns` is its field `namespace`. -/
structure scIdentity where
  nid : NumericIdentity
  lbls : LabelArray
  ns : String
  deriving DecidableEq, Repr

/-- An `*scIdentity`: the object, and the address that tells two objects of equal content apart. -/
structure scIdentityRef where
  addr : ℕ
  obj : scIdentity
  deriving DecidableEq, Repr

/-- `scIdentityCache`, with the address of the next object it makes. -/
structure scIdentityCache where
  ids : AList fun _ : NumericIdentity => scIdentityRef
  byNamespace : AList fun _ : String => Finset scIdentityRef
  nextAddr : ℕ

namespace scIdentityCache

/-- `scIdentityCache.insert`: a new object for the identity, in `ids` and in the index of its
namespace.  An object that `ids` held before for the ID stays in the index of its namespace. -/
def insert (c : scIdentityCache) (nid : NumericIdentity) (lbls : LabelArray) :
    scIdentityCache × scIdentityRef :=
  let id : scIdentityRef := ⟨c.nextAddr, ⟨nid, lbls, lookupNamespace lbls⟩⟩
  let m := (c.byNamespace.lookup id.obj.ns).getD ∅
  (⟨c.ids.insert nid id, c.byNamespace.insert id.obj.ns (Insert.insert id m), c.nextAddr + 1⟩, id)

/-- `scIdentityCache.delete`: the object of the ID leaves `ids` and the index of its namespace,
which goes when it is empty. -/
def delete (c : scIdentityCache) (nid : NumericIdentity) : scIdentityCache × Bool :=
  match c.ids.lookup nid with
  | none => (c, false)
  | some id =>
    let byNamespace :=
      match c.byNamespace.lookup id.obj.ns with
      | none => c.byNamespace
      | some m =>
        let m := m.erase id
        if m = ∅ then c.byNamespace.erase id.obj.ns else c.byNamespace.insert id.obj.ns m
    (⟨c.ids.erase nid, byNamespace, c.nextAddr⟩, true)

/-- `scIdentityCache.selections`: the identities of the selected namespaces that the selector
matches, read from the index, or of all identities when it names no namespace. -/
def selections (c : scIdentityCache) (sel : Selector) : Finset NumericIdentity :=
  match sel.selectedNamespaces with
  | [] => ((c.ids.entries.filter fun e => sel.matchesLabels e.2.obj.lbls).map (·.1)).toFinset
  | namespaces => namespaces.foldr (fun ns acc =>
      (((c.byNamespace.lookup ns).getD ∅).filter fun id => sel.matchesLabels id.obj.lbls).image
        (·.obj.nid) ∪ acc) ∅

/-- `newScIdentityCache`. -/
def newScIdentityCache (ids : IdentityMap) : scIdentityCache :=
  ids.entries.foldl (fun c e => (c.insert e.1 e.2).1) ⟨∅, ∅, 0⟩

end scIdentityCache

/-- `identitySelector`, without its back pointer to the cache. -/
structure identitySelector where
  source : Selector
  key : String
  id : SelectorId
  users : Finset CachedSelectionUser
  cachedSelections : Finset NumericIdentity

/-- The selections of each selector as readers see them, `types.SelectionsMap`. -/
abbrev SelectionsMap := AList fun _ : SelectorId => List NumericIdentity

namespace identitySelector

/-- `identitySelector.updateSelections`: the sorted selections into the write transaction, or
the selector out of it when it selects nothing. -/
def updateSelections (i : identitySelector) (ws : SelectionsMap) : SelectionsMap :=
  if i.cachedSelections = ∅ then ws.erase i.id
  else ws.insert i.id (i.cachedSelections.sort (· ≤ ·))

/-- `identitySelector.addUser`, and whether the user is new. -/
def addUser (i : identitySelector) (user : CachedSelectionUser) : identitySelector × Bool :=
  if user ∈ i.users then (i, false) else ({ i with users := Insert.insert user i.users }, true)

/-- `identitySelector.removeUser`, and whether it removed the last user. -/
def removeUser (i : identitySelector) (user : CachedSelectionUser) : identitySelector × Bool :=
  if user ∈ i.users then
    let i := { i with users := i.users.erase user }
    (i, i.users = ∅)
  else (i, false)

end identitySelector

/-- The namespaces a selector is indexed under in `selectorMap`: `""` for no requirement. -/
def indexNamespaces (s : Selector) : List String :=
  match s.selectedNamespaces with
  | [] => [""]
  | namespaces => namespaces

/-- `SelectorCache`: the revision and selections of the last commit, the open write transaction,
the identities, the `selectorMap` (selectors by key and by namespace), the selector objects, and
the last selector ID handed out. -/
structure SelectorCache where
  revision : ℕ
  readableSelections : SelectionsMap
  writeableSelections : SelectionsMap
  idCache : scIdentityCache
  selectors : AList fun _ : String => SelectorId
  selectorsByNamespace : AList fun _ : String => List SelectorId
  objects : AList fun _ : SelectorId => identitySelector
  lastSelectorId : SelectorId

namespace SelectorCache

/-- `NewSelectorCache`. -/
def newSelectorCache (ids : IdentityMap) : SelectorCache :=
  ⟨0, ∅, ∅, scIdentityCache.newScIdentityCache ids, ∅, ∅, ∅, 0⟩

/-- `SelectorCache.commit`: the write transaction becomes what readers see. -/
def commit (sc : SelectorCache) : SelectorCache :=
  { sc with revision := sc.revision + 1, readableSelections := sc.writeableSelections }

/-- The selector object `sid` replaced by `sel`. -/
def setObject (sc : SelectorCache) (sid : SelectorId) (sel : identitySelector) : SelectorCache :=
  { sc with objects := sc.objects.insert sid sel }

/-- `SelectorCache.updateSelections` of selector `sid`: the deleted identities leave its
selections, each added one is put in or out as it matches now (a mutated identity that no longer
matches leaves silently), and the selections are published when some were added or deleted;
whether they were, and whether an identity was mutated. -/
def updateSelections (sc : SelectorCache) (sid : SelectorId) (added : List NumericIdentity)
    (deleted : IdentityMap) : SelectorCache × Bool × Bool :=
  match sc.objects.lookup sid with
  | none => (sc, false, false)
  | some sel =>
    let (dels, cs) := deleted.keys.foldl (fun (dels, cs) nid =>
      if nid ∈ cs then (dels ++ [nid], cs.erase nid) else (dels, cs)) ([], sel.cachedSelections)
    let (adds, cs, mutated) := added.foldl (fun (adds, cs, mutated) nid =>
      -- an added identity is in the cache: the model reads an absent one as unlabelled
      let lbls := ((sc.idCache.ids.lookup nid).map (·.obj.lbls)).getD []
      let isMatch := sel.source.matchesLabels lbls
      if isMatch && nid ∉ cs then (adds ++ [nid], Insert.insert nid cs, mutated)
      else if !isMatch && nid ∈ cs then (adds, cs.erase nid, true)
      else (adds, cs, mutated)) ([], cs, false)
    let sel := { sel with cachedSelections := cs }
    let sc := sc.setObject sid sel
    if 0 < dels.length + adds.length then
      ({ sc with writeableSelections := sel.updateSelections sc.writeableSelections }, true, mutated)
    else (sc, false, mutated)

/-- The delete loop of `UpdateIdentities`: each known identity leaves the cache and its namespace
is scanned; an unknown one leaves `deleted`. -/
def deleteIdentities (c : scIdentityCache) (namespaces : AList fun _ : String => List NumericIdentity)
    (deleted : IdentityMap) :
    scIdentityCache × (AList fun _ : String => List NumericIdentity) × IdentityMap :=
  deleted.keys.foldl (fun (c, namespaces, deleted) nid =>
    match c.ids.lookup nid with
    | some old => ((c.delete nid).1, namespaces.insert old.obj.ns [], deleted)
    | none => (c, namespaces, deleted.erase nid)) (c, namespaces, deleted)

/-- `namespaces[ns] = append(namespaces[ns], nid)`. -/
def appendAdded (namespaces : AList fun _ : String => List NumericIdentity) (ns : String)
    (nid : NumericIdentity) : AList fun _ : String => List NumericIdentity :=
  namespaces.insert ns (((namespaces.lookup ns).getD []) ++ [nid])

/-- The add loop of `UpdateIdentities`: an identity whose labels are `Equals` to those the cache
has leaves `added`; any other is inserted, and listed under its namespace and under `""`. -/
def insertIdentities (c : scIdentityCache) (namespaces : AList fun _ : String => List NumericIdentity)
    (added : IdentityMap) :
    scIdentityCache × (AList fun _ : String => List NumericIdentity) × IdentityMap :=
  added.entries.foldl (fun (c, namespaces, added) e =>
    match c.ids.lookup e.1 with
    | some old =>
      if e.2.equals old.obj.lbls then (c, namespaces, added.erase e.1)
      else
        let (c, id) := c.insert e.1 e.2
        let namespaces := appendAdded namespaces id.obj.ns e.1
        (c, if id.obj.ns ≠ "" then appendAdded namespaces "" e.1 else namespaces, added)
    | none =>
      let (c, id) := c.insert e.1 e.2
      let namespaces := appendAdded namespaces id.obj.ns e.1
      (c, if id.obj.ns ≠ "" then appendAdded namespaces "" e.1 else namespaces, added))
    (c, namespaces, added)

/-- The scan of `UpdateIdentities`: `updateSelections` on every selector indexed under each
namespace, with the identities added in it; whether a selection changed, and whether an
identity was mutated. -/
def updateSelectors (sc : SelectorCache) (namespaces : AList fun _ : String => List NumericIdentity)
    (deleted : IdentityMap) : SelectorCache × Bool × Bool :=
  namespaces.entries.foldl (fun (sc, updated, mutated) e =>
    ((sc.selectorsByNamespace.lookup e.1).getD []).foldl (fun (sc, updated, mutated) sid =>
      let (sc, u, m) := sc.updateSelections sid e.2 deleted
      (sc, updated || u, mutated || m)) (sc, updated, mutated)) (sc, false, false)

/-- `SelectorCache.UpdateIdentities`, and whether an identity was mutated.  The caller keeps the
keys of `added` and `deleted` apart. -/
def updateIdentities (sc : SelectorCache) (added deleted : IdentityMap) : SelectorCache × Bool :=
  let (c, namespaces, deleted) := deleteIdentities sc.idCache (AList.insert "" [] ∅) deleted
  let (c, namespaces, added) := insertIdentities c namespaces added
  let sc := { sc with idCache := c }
  if 0 < deleted.entries.length + added.entries.length then
    let (sc, updated, mutated) := sc.updateSelectors namespaces deleted
    (if updated then sc.commit else sc, mutated)
  else (sc, false)

/-- `selectorMap.Set` with the new selector's object. -/
def setSelector (sc : SelectorCache) (key : String) (sel : identitySelector) : SelectorCache :=
  { sc with
    selectors := sc.selectors.insert key sel.id
    selectorsByNamespace := (indexNamespaces sel.source).foldl (fun m ns =>
      m.insert ns (((m.lookup ns).getD []).insert sel.id)) sc.selectorsByNamespace
    objects := sc.objects.insert sel.id sel }

/-- `SelectorCache.addSelectorLocked`: a new selector with a fresh ID, its selections scanned from
the identities and published. -/
def addSelectorLocked (sc : SelectorCache) (key : String) (source : Selector) :
    SelectorCache × SelectorId :=
  let sel : identitySelector :=
    ⟨source, key, sc.lastSelectorId + 1, ∅, sc.idCache.selections source⟩
  let sc := { sc with lastSelectorId := sel.id }
  let sc := sc.setSelector key sel
  ({ sc with writeableSelections := sel.updateSelections sc.writeableSelections }, sel.id)

/-- `SelectorCache.addSelectorsTxn`: the cached selector of each key, added when new, with the
user; the selectors, and whether the user was new to one of them. -/
def addSelectorsTxn (sc : SelectorCache) (user : CachedSelectionUser) (selectors : List Selector) :
    SelectorCache × List SelectorId × Bool :=
  selectors.foldl (fun (sc, css, added) selector =>
    let (sc, sid) :=
      match sc.selectors.lookup selector.key with
      | some sid => (sc, sid)
      | none => sc.addSelectorLocked selector.key selector
    match sc.objects.lookup sid with
    | some sel =>
      let (sel, new) := sel.addUser user
      (sc.setObject sid sel, css ++ [sid], added || new)
    | none => (sc, css ++ [sid], added)) (sc, [], false)

/-- `selectsAll`: no selector, or a wildcard one. -/
def selectsAll (selectors : List Selector) : Bool := selectors.isEmpty || selectors.any (·.isWildcard)

/-- `SelectorCache.AddSelectorsTxn`; `wildcard` is `types.WildcardSelector`. -/
def addSelectorsTxnPublic (wildcard : Selector) (sc : SelectorCache) (user : CachedSelectionUser)
    (selectors : List Selector) : SelectorCache × List SelectorId × Bool :=
  sc.addSelectorsTxn user (if selectsAll selectors then [wildcard] else selectors)

/-- `SelectorCache.AddSelectors`: `AddSelectorsTxn`, then a commit. -/
def addSelectors (wildcard : Selector) (sc : SelectorCache) (user : CachedSelectionUser)
    (selectors : List Selector) : SelectorCache × List SelectorId × Bool :=
  let (sc, css, added) := sc.addSelectorsTxnPublic wildcard user selectors
  (sc.commit, css, added)

/-- `selectorMap.Delete`: the selector leaves its key and the index of each of its namespaces,
which goes when it is empty. -/
def deleteSelector (sc : SelectorCache) (sel : identitySelector) : SelectorCache :=
  { sc with
    selectorsByNamespace := (indexNamespaces sel.source).foldl (fun m ns =>
      match m.lookup ns with
      | none => m
      | some idx =>
        let idx := idx.erase sel.id
        if idx = [] then m.erase ns else m.insert ns idx) sc.selectorsByNamespace
    selectors := sc.selectors.erase sel.key }

/-- `SelectorCache.removeSelectorLocked`: the user leaves the selector of the key; with its last
user the selector leaves the cache, and its selections are published again. -/
def removeSelectorLocked (sc : SelectorCache) (key : String) (user : CachedSelectionUser) :
    SelectorCache :=
  match sc.selectors.lookup key with
  | none => sc
  | some sid =>
    match sc.objects.lookup sid with
    | none => sc
    | some sel =>
      let (sel, last) := sel.removeUser user
      let sc := sc.setObject sid sel
      if last then
        let sc := sc.deleteSelector sel
        { sc with writeableSelections := sel.updateSelections sc.writeableSelections }
      else sc

/-- `SelectorCache.RemoveSelector`. -/
def removeSelector (sc : SelectorCache) (key : String) (user : CachedSelectionUser) :
    SelectorCache :=
  (sc.removeSelectorLocked key user).commit

/-- `SelectorCache.RemoveSelectors`. -/
def removeSelectors (sc : SelectorCache) (keys : List String) (user : CachedSelectionUser) :
    SelectorCache :=
  (keys.foldl (fun sc key => sc.removeSelectorLocked key user) sc).commit

/-- `SelectorCache.ChangeUser`: the new user is added before the old one leaves. -/
def changeUser (sc : SelectorCache) (key : String) (fromUser toUser : CachedSelectionUser) :
    SelectorCache :=
  match sc.selectors.lookup key with
  | none => sc
  | some sid =>
    match sc.objects.lookup sid with
    | none => sc
    | some sel => sc.setObject sid ((sel.addUser toUser).1.removeUser fromUser).1

/-- The calls the cache takes, selectors named by their key. -/
inductive Op where
  | updateIdentities (added deleted : IdentityMap)
  | addSelectors (user : CachedSelectionUser) (selectors : List Selector)
  | addSelectorsTxn (user : CachedSelectionUser) (selectors : List Selector)
  | commit
  | removeSelector (key : String) (user : CachedSelectionUser)
  | removeSelectors (keys : List String) (user : CachedSelectionUser)
  | changeUser (key : String) (fromUser toUser : CachedSelectionUser)

/-- One call. -/
def apply (wildcard : Selector) (sc : SelectorCache) : Op → SelectorCache
  | .updateIdentities added deleted => (sc.updateIdentities added deleted).1
  | .addSelectors user selectors => (sc.addSelectors wildcard user selectors).1
  | .addSelectorsTxn user selectors => (sc.addSelectorsTxnPublic wildcard user selectors).1
  | .commit => sc.commit
  | .removeSelector key user => sc.removeSelector key user
  | .removeSelectors keys user => sc.removeSelectors keys user
  | .changeUser key fromUser toUser => sc.changeUser key fromUser toUser

/-- A sequence of calls. -/
def run (wildcard : Selector) (sc : SelectorCache) (ops : List Op) : SelectorCache :=
  ops.foldl (apply wildcard) sc

/-- The labels the cache holds for an identity. -/
def labelsOf (sc : SelectorCache) (nid : NumericIdentity) : Option LabelArray :=
  (sc.idCache.ids.lookup nid).map (·.obj.lbls)

/-- Every cached selector selects exactly the identities of the cache that it matches. -/
def SelectionsExact (sc : SelectorCache) : Prop :=
  ∀ key sid sel, sc.selectors.lookup key = some sid → sc.objects.lookup sid = some sel →
    ∀ nid, nid ∈ sel.cachedSelections ↔
      ∃ lbls, sc.labelsOf nid = some lbls ∧ sel.source.matchesLabels lbls = true

/-- An identity that moves to another namespace stays selected by a selector of its old namespace,
which no longer matches it: `UpdateIdentities` scans only the selectors indexed under the
namespaces of the identities it adds or deletes, and the identity is added in its new one. -/
theorem moved_identity_stays_selected (wildcard : Selector) :
    let sel : Selector := ⟨"ns-a", false, ["a"], fun lbls => lookupNamespace lbls == "a"⟩
    let lbls (ns : String) : LabelArray := [⟨podNamespaceLabelKey, ns, labelSourceK8s⟩]
    let ops := [.addSelectors 0 [sel], .updateIdentities ((∅ : IdentityMap).insert 1000 (lbls "b")) ∅]
    sel.NamespaceScoped ∧
      ¬ (run wildcard (newSelectorCache ((∅ : IdentityMap).insert 1000 (lbls "a"))) ops).SelectionsExact := by
  intro sel lbls ops
  refine ⟨fun _ l h => by simpa [sel] using h, fun hx => ?_⟩
  set sc := run sel (newSelectorCache ((∅ : IdentityMap).insert 1000 (lbls "a"))) ops with hsc
  -- the wildcard selector plays no part: the one selector added is not a wildcard
  have hrun : run wildcard (newSelectorCache ((∅ : IdentityMap).insert 1000 (lbls "a"))) ops = sc := by
    simp [hsc, ops, run, apply, addSelectors, addSelectorsTxnPublic, selectsAll, sel]
  rw [hrun] at hx
  have hsel : (sc.objects.lookup 1).map
      (fun o => (decide (1000 ∈ o.cachedSelections), o.source.matchesLabels (lbls "b"))) =
        some (true, false) := by
    decide
  obtain ⟨o, ho, hm⟩ := Option.map_eq_some_iff.mp hsel
  simp only [Prod.mk.injEq, decide_eq_true_eq] at hm
  obtain ⟨l, hl, hmatch⟩ := (hx "ns-a" 1 o (by decide) ho 1000).mp hm.1
  have hl' : sc.labelsOf 1000 = some (lbls "b") := by decide
  rw [hl', Option.some.injEq] at hl
  rw [← hl, hm.2] at hmatch
  exact Bool.false_ne_true hmatch

end SelectorCache

end Cilium.Policy
