import Cilium.IPCache.Inject
import Cilium.IPCache.PrefixLengths

/-! Which prefixes a change of the metadata layer invalidates.  `upsertLocked` and `remove`
return the prefixes whose labels must be injected again: the prefix itself, or the prefixes of
the map below it.  Injection reads of a prefix its flattened information and its labels merged
with those of every parent (`mergeLabels`), so the returned prefixes must take in every prefix
under the changed one.  They do for a prefix whose address is not IPv4-mapped.  A mapped prefix
that `canonicalPrefix` cannot unmap (its length is past 32) stays mapped in the map, while
`mergeLabels` reads its IPv4 parents, which no IPv4 change reports. -/

namespace Cilium.Labels

/-- `DeepEqual` labels are the same map. -/
theorem lookup_eq_of_deepEqual {l o : Labels} (h : l.deepEqual o = true) (k : String) :
    l.lookup k = o.lookup k := by
  simp only [deepEqual, Bool.and_eq_true, beq_iff_eq, List.all_eq_true] at h
  obtain ⟨hlen, hall⟩ := h
  -- every key of `l` is a key of `o`, and there are as many of each
  have hsub : l.keys.toFinset ⊆ o.keys.toFinset := by
    intro x hx
    obtain ⟨s, hs, rfl⟩ := List.mem_map.mp (List.mem_toFinset.mp hx)
    have hs' := hall s hs
    exact List.mem_toFinset.mpr (AList.mem_keys.mp (AList.lookup_isSome.mp (by rw [hs']; rfl)))
  have hcard : o.keys.toFinset.card ≤ l.keys.toFinset.card := by
    rw [List.toFinset_card_of_nodup o.keys_nodup, List.toFinset_card_of_nodup l.keys_nodup]
    simp [AList.keys, List.keys, hlen]
  have heq := Finset.eq_of_subset_of_card_le hsub hcard
  cases hl : l.lookup k with
  | some v =>
    exact (hall ⟨k, v⟩ (AList.mem_lookup_iff.mp hl)).symm
  | none =>
    -- a key of `o` is a key of `l`
    have hk : k ∉ o.keys.toFinset := by
      rw [← heq, List.mem_toFinset, ← AList.mem_keys, ← AList.lookup_eq_none]
      exact hl
    rw [List.mem_toFinset, ← AList.mem_keys, ← AList.lookup_eq_none] at hk
    exact hk.symm

end Cilium.Labels

namespace Cilium.Ipcache

open Cilium.Policy

/-- Two resources' information as the source's maps hold it: every field equal, and the labels
equal as maps, a `nil` map reading as the empty one. -/
structure resourceInfo.Same (a b : resourceInfo) : Prop where
  source : a.source = b.source
  identityOverride : a.identityOverride = b.identityOverride
  tunnelPeer : a.tunnelPeer = b.tunnelPeer
  encryptKey : a.encryptKey = b.encryptKey
  requestedIdentity : a.requestedIdentity = b.requestedIdentity
  endpointFlags : a.endpointFlags = b.endpointFlags
  labels : ∀ k, a.toLabels.lookup k = b.toLabels.lookup k

theorem resourceInfo.Same.refl (a : resourceInfo) : a.Same a :=
  ⟨rfl, rfl, rfl, rfl, rfl, rfl, fun _ => rfl⟩

theorem resourceInfo.Same.trans {a b c : resourceInfo} (h₁ : a.Same b) (h₂ : b.Same c) :
    a.Same c :=
  ⟨h₁.1.trans h₂.1, h₁.2.trans h₂.2, h₁.3.trans h₂.3, h₁.4.trans h₂.4, h₁.5.trans h₂.5,
    h₁.6.trans h₂.6, fun k => (h₁.7 k).trans (h₂.7 k)⟩


/-- A merge that reports no change leaves the information the same. -/
theorem resourceInfo.merge_same {m : resourceInfo} {i : IPMetadata} {src : Source}
    (h : (m.merge i src).2 = false) : (m.merge i src).1.Same m := by
  -- the field of `info` is unchanged, and so is the source
  cases i <;> simp only [resourceInfo.merge, Bool.or_eq_false_iff, bne_eq_false_iff_eq] at h ⊢
  case labels l =>
    obtain ⟨hc, hs⟩ := h
    exact ⟨hs.symm, rfl, rfl, rfl, rfl, rfl,
      Labels.lookup_eq_of_deepEqual (Bool.not_eq_false' _ |>.mp hc)⟩
  case overrideIdentity b =>
    obtain ⟨hc, hs⟩ := h
    exact ⟨hs.symm, hc.symm, rfl, rfl, rfl, rfl, fun _ => rfl⟩
  case tunnelPeer t =>
    obtain ⟨hc, hs⟩ := h
    exact ⟨hs.symm, rfl, hc.symm, rfl, rfl, rfl, fun _ => rfl⟩
  case encryptKey k =>
    obtain ⟨hc, hs⟩ := h
    exact ⟨hs.symm, rfl, rfl, hc.symm, rfl, rfl, fun _ => rfl⟩
  case requestedIdentity id =>
    obtain ⟨hc, hs⟩ := h
    exact ⟨hs.symm, rfl, rfl, rfl, hc.symm, rfl, fun _ => rfl⟩
  case endpointFlags f =>
    obtain ⟨hc, hs⟩ := h
    exact ⟨hs.symm, rfl, rfl, rfl, rfl, hc.symm, fun _ => rfl⟩

/-- The merge loop of `upsertLocked` reports no change only when it starts from none, and then
leaves the information the same. -/
theorem resourceInfo.foldl_merge_same {src : Source} (info : List IPMetadata) (ri : resourceInfo)
    (c : Bool)
    (h : (info.foldl (fun x i => ((x.1.merge i src).1, x.2 || (x.1.merge i src).2)) (ri, c)).2 =
      false) :
    c = false ∧
      (info.foldl (fun x i => ((x.1.merge i src).1, x.2 || (x.1.merge i src).2)) (ri, c)).1.Same ri := by
  induction info generalizing ri c with
  | nil => exact ⟨h, .refl ri⟩
  | cons i is ih =>
    rw [List.foldl_cons] at h ⊢
    obtain ⟨hc, hsame⟩ := ih _ _ h
    rw [Bool.or_eq_false_iff] at hc
    exact ⟨hc.1, hsame.trans (merge_same hc.2)⟩

namespace metadata

/-- What injection reads of a prefix: its flattened information, and its labels merged with
those of its parents. -/
def injectedLabels (md : metadata) (q : PrefixCluster) : Option Labels :=
  (md.getLocked q).map fun info => md.mergeLabels info.toLabels q

/-- Nothing that injection reads of the prefix differs between the two states. -/
structure Unchanged (md md' : metadata) (q : PrefixCluster) : Prop where
  getLocked : md'.getLocked q = md.getLocked q
  injectedLabels : md'.injectedLabels q = md.injectedLabels q

/-- The two states hold the same prefixes, each with the same resources and the same
information, as the source's maps hold it. -/
structure SameInfo (md md' : metadata) : Prop where
  mem_iff : ∀ p, p ∈ md'.m ↔ p ∈ md.m
  info : ∀ p r, Option.Rel resourceInfo.Same ((md'.m.lookup p).bind (·.byResource.lookup r))
    ((md.m.lookup p).bind (·.byResource.lookup r))

/-- The two states hold the same information for every prefix but `p`. -/
def AgreeExcept (md md' : metadata) (p : PrefixCluster) : Prop :=
  ∀ q, q ≠ p → md'.m.lookup q = md.m.lookup q

variable {md md' : metadata} {p q : PrefixCluster}

/-- What `upsertLocked` does: set the information of the canonical prefix, and either give the
prefixes it affects or report no change, the resource's information staying the same. -/
theorem upsertLocked_cases (md : metadata) (pfx : PrefixCluster) (src : Source)
    (resource : ResourceID) (info : List IPMetadata) :
    ∃ v, (md.upsertLocked pfx src resource info).1 =
        { md with m := md.m.insert (canonicalPrefix pfx) v } ∧
      ((md.upsertLocked pfx src resource info).2 =
          (md.upsertLocked pfx src resource info).1.findAffectedChildPrefixes (canonicalPrefix pfx) ∨
        (md.upsertLocked pfx src resource info).2 = [] ∧
          ∃ pi ri ri', md.m.lookup (canonicalPrefix pfx) = some pi ∧
            pi.byResource.lookup resource = some ri ∧ ri'.Same ri ∧
            v = ⟨pi.byResource.insert resource ri'⟩) := by
  unfold upsertLocked
  dsimp only
  -- a new prefix or a new resource is a change whatever the merges say
  have hnew : ∀ ri : resourceInfo, (info.foldl (fun (x : resourceInfo × Bool) i =>
      ((x.1.merge i src).1, x.2 || (x.1.merge i src).2)) (ri, true)).2 = true := fun ri => by
    by_contra h
    exact absurd (resourceInfo.foldl_merge_same info ri true (by simpa using h)).1 (by decide)
  rcases hp : md.m.lookup (canonicalPrefix pfx) with _ | pi
  · simp only [newPrefixInfo, AList.lookup_empty, hnew, Bool.not_true]
    exact ⟨_, rfl, .inl rfl⟩
  · dsimp only
    rcases hr : pi.byResource.lookup resource with _ | ri
    · simp only [hnew, Bool.not_true]
      exact ⟨_, rfl, .inl rfl⟩
    · dsimp only
      rcases hc : (info.foldl (fun (x : resourceInfo × Bool) i =>
          ((x.1.merge i src).1, x.2 || (x.1.merge i src).2)) (ri, false)).2 with _ | _
      · rw [if_pos (show (!false) = true from rfl)]
        exact ⟨_, rfl, .inr ⟨rfl, pi, ri, _, rfl, hr,
          (resourceInfo.foldl_merge_same info ri false hc).2, rfl⟩⟩
      · rw [if_neg (show ¬(!true) = true by decide)]
        exact ⟨_, rfl, .inl rfl⟩

/-- `mergeLabels` reads only the information of the parents of the prefix. -/
theorem mergeLabels_congr
    (h : ∀ bits ≤ q.bits, ∀ parent, q.addr.unmap.prefixOf bits = some parent →
      md'.getLocked ⟨parent.addr, parent.bits, q.clusterID⟩ =
        md.getLocked ⟨parent.addr, parent.bits, q.clusterID⟩)
    (lbls : Labels) : md'.mergeLabels lbls q = md.mergeLabels lbls q := by
  unfold mergeLabels
  congr 1
  apply List.foldl_ext
  intro acc bits hb
  have hb' : bits ≤ q.bits := by
    rw [List.mem_reverse, List.mem_range] at hb
    omega
  split
  · rfl
  · rename_i parent hparent
    rw [h bits hb' parent hparent]

theorem getLocked_of_agreeExcept (h : AgreeExcept md md' p) {x : PrefixCluster}
    (hx : canonicalPrefix x ≠ p) : md'.getLocked x = md.getLocked x := by
  simp only [getLocked, h _ hx]

/-- A parent of a prefix, as `mergeLabels` forms it, is canonical. -/
theorem canonicalPrefix_parent {a : Addr} {bits : Nat} {parent : Prefix}
    (hparent : a.unmap.prefixOf bits = some parent) (c : UInt32) :
    canonicalPrefix ⟨parent.addr, parent.bits, c⟩ = ⟨parent.addr, parent.bits, c⟩ := by
  obtain ⟨hbits, hlen, hle⟩ := Addr.prefixOf_eq_some hparent
  have hun : parent.addr.unmap = parent.addr :=
    Addr.unmap_of_is4In6_eq_false (Addr.is4In6_prefixOf (Addr.is4In6_unmap a) hparent)
  have hidem := Addr.prefixOf_idem hparent
  rw [hbits]
  have hv : (⟨parent.addr, bits, c⟩ : PrefixCluster).asPrefix.isValid = true := by
    simp only [PrefixCluster.asPrefix, Prefix.isValid, decide_eq_true_eq, hlen]
    exact hle
  simp only [canonicalPrefix, hv, Bool.not_true, Bool.false_eq_true, if_false, hun, hidem, hbits]

/-- A parent of an unmapped canonical prefix covers it. -/
theorem isDescendant_parent (hq : q.IsCanonical) (hmap : q.addr.is4In6 = false) {bits : Nat}
    (hb : bits ≤ q.bits) {parent : Prefix} (hparent : q.addr.unmap.prefixOf bits = some parent)
    (c : UInt32) :
    (⟨parent.addr, parent.bits, c⟩ : PrefixCluster).asPrefix.isDescendant q.asPrefix = true := by
  obtain ⟨hbits, hlen, hle⟩ := Addr.prefixOf_eq_some hparent
  rw [Addr.unmap_of_is4In6_eq_false hmap] at hparent hlen hle
  have hidem := Addr.prefixOf_idem hparent
  have hqv := hq.1
  simp only [PrefixCluster.asPrefix, Prefix.isValid] at hqv
  simp only [Prefix.isDescendant, PrefixCluster.asPrefix, Prefix.isValid, hbits, hparent, hidem,
    hlen, hle, hqv, hb, decide_true, Bool.and_true, beq_self_eq_true]

/-- A prefix of the map that `p` covers is among the prefixes `p` affects. -/
theorem mem_findAffectedChildPrefixes (hq : q ∈ md.m)
    (hd : p.asPrefix.isDescendant q.asPrefix = true) (hc : p.clusterID = q.clusterID) :
    q ∈ md.findAffectedChildPrefixes p := by
  unfold findAffectedChildPrefixes
  split
  · -- a single IP covers only itself
    rename_i hs
    simp only [Prefix.isDescendant, PrefixCluster.asPrefix, Prefix.isValid, Bool.and_eq_true,
      beq_iff_eq] at hd
    obtain ⟨⟨⟨-, hqv⟩, hpq⟩, heq⟩ := hd
    replace hqv := of_decide_eq_true hqv
    replace hpq := of_decide_eq_true hpq
    have hs' : p.bits = p.addr.bitLen := by simpa [PrefixCluster.isSingleIP] using hs
    rw [hs', Addr.prefixOf_bitLen, Option.map_some] at heq
    dsimp only at heq
    obtain ⟨r, hqr, hra⟩ := Option.map_eq_some_iff.mp heq
    obtain ⟨-, hrlen, -⟩ := Addr.prefixOf_eq_some hqr
    have hlen : q.addr.bitLen = p.addr.bitLen := by rw [← hrlen, hra]
    have hbits : q.bits = p.bits := by omega
    rw [← hlen, Addr.prefixOf_bitLen, Option.some.injEq] at hqr
    have haddr : q.addr = p.addr := by rw [← hra, ← hqr]
    have : q = p := by
      cases q
      cases p
      simp only at haddr hbits hc
      rw [haddr, hbits, hc]
    rw [this]
    exact List.mem_singleton_self p
  · exact List.mem_filter.mpr ⟨AList.mem_keys.mp hq, by simp [hc, hd]⟩

theorem Unchanged.refl (md : metadata) (q : PrefixCluster) : Unchanged md md q := ⟨rfl, rfl⟩

/-- A canonical prefix that neither state holds reads as nothing in both. -/
theorem unchanged_of_not_mem (hq : canonicalPrefix q = q) (h : q ∉ md.m) (h' : q ∉ md'.m) :
    Unchanged md md' q := by
  have hnone : ∀ md : metadata, q ∉ md.m → md.getLocked q = none := fun md hm => by
    rw [getLocked, hq, AList.lookup_eq_none.mpr hm, Option.map_none]
  exact ⟨by rw [hnone md' h', hnone md h],
    by simp only [injectedLabels, hnone md' h', hnone md h, Option.map_none]⟩

/-- Outside the prefixes that `p` covers, a change of `p` alone changes nothing that injection
reads of an unmapped canonical prefix. -/
theorem unchanged_of_agreeExcept (h : AgreeExcept md md' p) (hq : q.IsCanonical)
    (hmap : q.addr.is4In6 = false)
    (hcov : ¬(p.asPrefix.isDescendant q.asPrefix = true ∧ p.clusterID = q.clusterID)) :
    Unchanged md md' q := by
  -- no parent of `q` is `p`
  have hparents : ∀ bits ≤ q.bits, ∀ parent, q.addr.unmap.prefixOf bits = some parent →
      md'.getLocked ⟨parent.addr, parent.bits, q.clusterID⟩ =
        md.getLocked ⟨parent.addr, parent.bits, q.clusterID⟩ := by
    intro bits hb parent hparent
    apply getLocked_of_agreeExcept h
    rw [canonicalPrefix_parent hparent]
    rintro rfl
    exact hcov ⟨isDescendant_parent hq hmap hb hparent _, rfl⟩
  -- nor is `q` itself
  have hself : md'.getLocked q = md.getLocked q := by
    apply getLocked_of_agreeExcept h
    rw [hq.2]
    rintro rfl
    have hv := hq.1
    exact hcov ⟨by simp [Prefix.isDescendant, hv], rfl⟩
  exact ⟨hself, by simp only [injectedLabels, hself, mergeLabels_congr hparents]⟩

theorem agreeExcept_insert (md : metadata) (p : PrefixCluster) (v : prefixInfo) :
    AgreeExcept md { md with m := md.m.insert p v } p :=
  fun _ hq => AList.lookup_insert_ne hq

theorem agreeExcept_erase (md : metadata) (p : PrefixCluster) :
    AgreeExcept md { md with m := md.m.erase p } p :=
  fun _ hq => AList.lookup_erase_ne hq

theorem rel_same_refl (x : Option resourceInfo) : Option.Rel resourceInfo.Same x x := by
  cases x with
  | none => exact .none
  | some a => exact .some (.refl a)

/-- An upsert that reports no change keeps the information as the source's maps hold it. -/
theorem sameInfo_insert {pfx : PrefixCluster} {resource : ResourceID} {pi : prefixInfo}
    {ri ri' : resourceInfo} (hp : md.m.lookup pfx = some pi)
    (hr : pi.byResource.lookup resource = some ri) (hsame : ri'.Same ri) :
    SameInfo md { md with m := md.m.insert pfx ⟨pi.byResource.insert resource ri'⟩ } := by
  have hmem : pfx ∈ md.m := AList.lookup_isSome.mp (by rw [hp]; rfl)
  refine ⟨fun p => ?_, fun p r => ?_⟩
  · rw [AList.mem_insert]
    constructor
    · rintro (rfl | h)
      · exact hmem
      · exact h
    · exact .inr
  · dsimp only
    by_cases hpp : p = pfx
    · subst hpp
      rw [AList.lookup_insert, hp, Option.bind_some, Option.bind_some]
      by_cases hrr : r = resource
      · subst hrr
        rw [AList.lookup_insert, hr]
        exact .some hsame
      · rw [AList.lookup_insert_ne hrr]
        exact rel_same_refl _
    · rw [AList.lookup_insert_ne hpp]
      exact rel_same_refl _

/-- Every change of `upsertLocked` to what injection reads of an unmapped canonical prefix is
reported, unless the call reports no change at all, and then it keeps the information as the
source's maps hold it. -/
theorem upsertLocked_reports (md : metadata) (pfx : PrefixCluster) (src : Source)
    (resource : ResourceID) (info : List IPMetadata) :
    ((md.upsertLocked pfx src resource info).2 = [] ∧
        SameInfo md (md.upsertLocked pfx src resource info).1) ∨
      ∀ q : PrefixCluster, q.IsCanonical → q.addr.is4In6 = false →
        q ∉ (md.upsertLocked pfx src resource info).2 →
        Unchanged md (md.upsertLocked pfx src resource info).1 q := by
  obtain ⟨v, hmd, haff | ⟨hnil, pi, ri, ri', hp, hr, hsame, rfl⟩⟩ :=
    upsertLocked_cases md pfx src resource info
  · refine .inr fun q hq hmap hnot => ?_
    rw [haff, hmd] at hnot
    rw [hmd]
    by_cases hcov : (canonicalPrefix pfx).asPrefix.isDescendant q.asPrefix = true ∧
        (canonicalPrefix pfx).clusterID = q.clusterID
    · -- a covered prefix of the map is reported, so `q` is in neither state
      have hq' : q ∉ (md.m.insert (canonicalPrefix pfx) v) := fun hm =>
        hnot (mem_findAffectedChildPrefixes hm hcov.1 hcov.2)
      exact unchanged_of_not_mem hq.2 (fun hm => hq' ((AList.mem_insert _).mpr (.inr hm))) hq'
    · exact unchanged_of_agreeExcept (agreeExcept_insert md _ v) hq hmap hcov
  · exact .inl ⟨hnil, hmd ▸ sameInfo_insert hp hr hsame⟩

/-- Every change of `remove` to what injection reads of an unmapped canonical prefix is
reported. -/
theorem remove_reports (md : metadata) (pfx : PrefixCluster) (resource : ResourceID)
    (aux : List IPMetadata) {q : PrefixCluster} (hq : q.IsCanonical)
    (hmap : q.addr.is4In6 = false) (hnot : q ∉ (md.remove pfx resource aux).2) :
    Unchanged md (md.remove pfx resource aux).1 q := by
  rcases remove_eq md pfx resource aux with h | ⟨hmem, haff, h⟩
  · rw [h]
    exact .refl md q
  · rw [haff] at hnot
    -- the affected prefixes are those of the map before the removal
    by_cases hcov : (canonicalPrefix pfx).asPrefix.isDescendant q.asPrefix = true ∧
        (canonicalPrefix pfx).clusterID = q.clusterID
    · have hq' : q ∉ md.m := fun hm => hnot (mem_findAffectedChildPrefixes hm hcov.1 hcov.2)
      have hne : q ≠ canonicalPrefix pfx := fun he => hq' (he ▸ hmem)
      rcases h with h | ⟨v, h⟩ <;> rw [h] <;> apply unchanged_of_not_mem hq.2 hq'
      · exact fun hm => hq' (AList.mem_erase.mp hm).2
      · exact fun hm => ((AList.mem_insert _).mp hm).elim hne hq'
    · rcases h with h | ⟨v, h⟩ <;> rw [h]
      · exact unchanged_of_agreeExcept (agreeExcept_erase md _) hq hmap hcov
      · exact unchanged_of_agreeExcept (agreeExcept_insert md _ v) hq hmap hcov

/-- The prefixes that `upsertLocked` and `remove` report take in every unmapped canonical prefix
whose information or merged labels they change, but for an upsert that reports no change, which
keeps the information as the source's maps hold it. -/
theorem affected_prefixes_complete (md : metadata) (pfx : PrefixCluster) (src : Source)
    (resource : ResourceID) (info aux : List IPMetadata) :
    (((md.upsertLocked pfx src resource info).2 = [] ∧
        SameInfo md (md.upsertLocked pfx src resource info).1) ∨
      ∀ q : PrefixCluster, q.IsCanonical → q.addr.is4In6 = false →
        q ∉ (md.upsertLocked pfx src resource info).2 →
        Unchanged md (md.upsertLocked pfx src resource info).1 q) ∧
    ∀ q : PrefixCluster, q.IsCanonical → q.addr.is4In6 = false →
      q ∉ (md.remove pfx resource aux).2 → Unchanged md (md.remove pfx resource aux).1 q :=
  ⟨upsertLocked_reports md pfx src resource info,
    fun _ hq hmap hnot => remove_reports md pfx resource aux hq hmap hnot⟩

/-- Removing a /16 leaves an unrelated /16 as injection reads it. -/
example :
    Unchanged ((newMetadata.upsertLocked ⟨.v4 0x0a010000, 16, 0⟩ .kubernetes "r1"
        [.labels ((∅ : Labels).insert "app" ⟨"app", "a", "k8s"⟩)]).1)
      (((newMetadata.upsertLocked ⟨.v4 0x0a010000, 16, 0⟩ .kubernetes "r1"
        [.labels ((∅ : Labels).insert "app" ⟨"app", "a", "k8s"⟩)]).1).remove
          ⟨.v4 0x0a010000, 16, 0⟩ "r1" [.labels ∅]).1
      ⟨.v4 0xc0a80000, 16, 0⟩ :=
  (affected_prefixes_complete _ ⟨.v4 0x0a010000, 16, 0⟩ .kubernetes "r1" [] [.labels ∅]).2
    ⟨.v4 0xc0a80000, 16, 0⟩ ⟨by decide, by decide⟩ (by decide) (by decide +kernel)

/-- An IPv4-mapped address past `/32` keeps its mapped form in the map, and `mergeLabels` reads
its IPv4 parents; an upsert of one of them reports only the IPv4 prefixes below it, so the
mapped address gains the parent's labels unreported. -/
theorem mapped_prefix_misses_parent_labels :
    let q : PrefixCluster := ⟨.v6 0xffff0a000001, 128, 0⟩
    let p : PrefixCluster := ⟨.v4 0x0a000000, 8, 0⟩
    let md := (newMetadata.upsertLocked q .kubernetes "r1"
      [.labels ((∅ : Labels).insert "app" ⟨"app", "a", "k8s"⟩)]).1
    let r := md.upsertLocked p .kubernetes "r2"
      [.labels ((∅ : Labels).insert "team" ⟨"team", "b", "k8s"⟩)]
    q.IsCanonical ∧ q ∈ md.m ∧ q.clusterID = p.clusterID ∧ q ∉ r.2 ∧
      (md.injectedLabels q).map (·.keys) = some ["app"] ∧
      (r.1.injectedLabels q).map (·.keys) = some ["team", "app"] ∧ ¬Unchanged md r.1 q := by
  intro q p md r
  have hbefore : (md.injectedLabels q).map (·.keys) = some ["app"] := by decide +kernel
  have hafter : (r.1.injectedLabels q).map (·.keys) = some ["team", "app"] := by decide +kernel
  refine ⟨⟨by decide, by decide +kernel⟩, by decide +kernel, rfl, by decide +kernel, hbefore, hafter,
    fun h => ?_⟩
  rw [h.injectedLabels, hbefore] at hafter
  exact absurd hafter (by decide)

end metadata

end Cilium.Ipcache
