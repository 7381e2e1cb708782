import Cilium.Fqdn.CacheCalls

/-! Runs of the DNS cache of `cache.go` with cleanup tracking on: `Update` with at least one IP,
`GC`, `ForceExpire`, `ForceExpireByNames`, `UpdateFromCache` and `ReplaceFromCacheByNames` in any
order, where the caches that a call reads are runs of their own.  Every call removes pairs and
then inserts entries with `updateWithEntry` (`apply_eq`).  Along every run the two maps mirror
each other, the entry stored for a pair is the one that expires last among those inserted for it
since it was last removed, and each stored entry has its name under the second it expires in, at
or after `lastCleanup`.  So `GC` leaves no entry that expires before its time and, with a positive
limit, no name over the limit, and the IPs it drops for a name expire no later than those the
name keeps. -/

namespace Cilium.Fqdn.Cache

open Cilium.Ipcache

namespace DNSCache

variable {c : DNSCache} {e : cacheEntry} {n : String} {ip : Addr}

/-! ### Calls as removals, then insertions -/

/-- What a call removes, before it inserts anything. -/
def removalOf (c : DNSCache) : Op → DNSCache
  | .update .. => c
  | .gc now => (c.GC now).1
  | .forceExpire t nameMatch => c.forceExpire t nameMatch
  | .forceExpireByNames t names => c.forceExpireByNames t names
  | .updateFromCache _ => c
  | .replaceFromCacheByNames now names _ => c.forceExpireByNames now names

/-- The entries a call inserts, in order. -/
def insertedBy (c : DNSCache) : Op → List cacheEntry
  | .update lookupTime name ips ttl =>
    let ttl := if c.minTTL > ttl then c.minTTL else ttl
    [⟨name, lookupTime, lookupTime + ttl * second, ttl, ips⟩]
  | .updateFromCache update => update.storedEntries
  | .replaceFromCacheByNames _ names updated =>
    updated.flatMap fun u => restoredEntries u names c.getIPs
  | _ => []

theorem apply_eq (c : DNSCache) (op : Op) :
    c.apply op = (c.removalOf op).updateAll (c.insertedBy op) := by
  cases op with
  | update lookupTime name ips ttl => rfl
  | gc now => rfl
  | forceExpire t nameMatch => rfl
  | forceExpireByNames t names => rfl
  | updateFromCache u => exact updateFromCache_eq c u
  | replaceFromCacheByNames now names updated => exact replaceFromCacheByNames_fst c now names updated

/-! ### The invariant -/

/-- What the expiry of entries rests on: cleanup tracking is on, and every stored entry was looked
up after the zero time, expires at or after `lastCleanup`, which has moved off the zero time, and
has its name under the second it expires in. -/
structure Expiry (c : DNSCache) : Prop where
  tracked : c.cleanup.isSome
  zero_le : zeroTime ≤ c.lastCleanup
  started : ∀ n ip e, c.entryAt n ip = some e → zeroTime < c.lastCleanup
  not_expired : ∀ n ip e, c.entryAt n ip = some e → c.lastCleanup ≤ e.expirationTime
  looked_up : ∀ n ip e, c.entryAt n ip = some e → zeroTime ≤ e.lookupTime
  in_bucket : ∀ n ip e, c.entryAt n ip = some e → n ∈ c.bucket (unix e.expirationTime)

/-- The invariant of runs: the maps mirror each other, expiry is tracked, and a name over a
positive limit is marked. -/
structure Inv (c : DNSCache) : Prop where
  mirrored : c.Mirrored
  expiry : c.Expiry
  over_limit : 0 < c.perHostLimit →
    ∀ n, c.perHostLimit < (c.entriesOf n).entries.length → n ∈ c.overLimit

/-- An entry that a call may insert: with an IP, looked up and expiring after the zero time. -/
structure Admissible (e : cacheEntry) : Prop where
  ips_ne : e.ips ≠ []
  looked_up : zeroTime ≤ e.lookupTime
  expires : zeroTime < e.expirationTime

/-! ### Insertions keep the invariant -/

theorem Expiry.put (h : c.Expiry) (he : Admissible e) : (c.put e ip).Expiry := by
  have hL : (c.put e ip).lastCleanup = _ := lastCleanup_put h.tracked
  have hz := h.zero_le
  have hexp := he.expires
  -- the new `lastCleanup` is after the zero time, no later than the entry's expiry, and no
  -- later than the old one once an entry is stored
  have hpos : zeroTime < (c.put e ip).lastCleanup := by
    rw [hL]
    split_ifs <;> omega
  have hle_e : (c.put e ip).lastCleanup ≤ e.expirationTime := by
    rw [hL]
    split_ifs <;> omega
  have hle_old : ∀ n ip' x, c.entryAt n ip' = some x → (c.put e ip).lastCleanup ≤ c.lastCleanup := by
    intro n ip' x hx
    have := h.started n ip' x hx
    rw [hL]
    split_ifs <;> omega
  refine ⟨by rw [cleanup_isSome_put]; exact h.tracked, hpos.le, fun _ _ _ _ => hpos,
    fun n ip' x hx => ?_, fun n ip' x hx => ?_, fun n ip' x hx => ?_⟩
  · rw [entryAt_put] at hx
    split_ifs at hx
    · cases hx
      exact hle_e
    · exact le_trans (hle_old n ip' x hx) (h.not_expired n ip' x hx)
  · rw [entryAt_put] at hx
    split_ifs at hx
    · cases hx
      exact he.looked_up
    · exact h.looked_up n ip' x hx
  · rw [entryAt_put] at hx
    split_ifs at hx with hpair
    · cases hx
      rw [bucket_put h.tracked, if_pos rfl, hpair.1]
      exact List.mem_append_right _ (List.mem_singleton_self _)
    · rw [bucket_put h.tracked]
      split_ifs
      · exact List.mem_append_left _ (h.in_bucket n ip' x hx)
      · exact h.in_bucket n ip' x hx

theorem Expiry.takeIP (h : c.Expiry) (he : Admissible e) : (c.takeIP e ip).Expiry := by
  unfold DNSCache.takeIP
  split_ifs
  · exact h.put he
  · exact h

theorem Expiry.takeIPs (h : c.Expiry) (he : Admissible e) : (c.takeIPs e).Expiry := by
  refine List.foldlRecOn (motive := fun d : DNSCache => d.Expiry) _ _ ?_ fun d hd _ _ => hd.takeIP he
  -- the name's entries, inserted first, change no lookup
  have hat : ∀ n ip, ({ c with forward := c.forward.insert e.name (c.entriesOf e.name) } :
      DNSCache).entryAt n ip = c.entryAt n ip := fun _ _ => entryAt_insert_entriesOf
  exact ⟨h.tracked, h.zero_le, fun n ip x hx => h.started n ip x ((hat n ip).symm.trans hx),
    fun n ip x hx => h.not_expired n ip x ((hat n ip).symm.trans hx),
    fun n ip x hx => h.looked_up n ip x ((hat n ip).symm.trans hx),
    fun n ip x hx => h.in_bucket n ip x ((hat n ip).symm.trans hx)⟩

@[simp] theorem overLimit_takeIPs : (c.takeIPs e).overLimit = c.overLimit :=
  List.foldlRecOn (motive := fun d : DNSCache => d.overLimit = c.overLimit)
    _ _ rfl fun d hd _ _ => by rw [overLimit_takeIP, hd]

theorem entriesOf_takeIPs_ne (hn : n ≠ e.name) : (c.takeIPs e).entriesOf n = c.entriesOf n := by
  rw [entriesOf, entriesOf, forward_lookup_takeIPs_ne hn]

theorem Inv.updateWithEntry (h : c.Inv) (he : Admissible e) : (c.updateWithEntry e).1.Inv := by
  have hd := h.expiry.takeIPs he
  refine ⟨h.mirrored.updateWithEntry he.ips_ne, ?_, ?_⟩
  · obtain ⟨l, hl⟩ := exists_updateWithEntry_eq c e
    rw [hl]
    exact ⟨hd.tracked, hd.zero_le, hd.started, hd.not_expired, hd.looked_up, hd.in_bucket⟩
  · rw [perHostLimit_updateWithEntry]
    intro hpos n hn
    rw [updateWithEntry_fst, perHostLimit_takeIPs] at hn ⊢
    -- the entry's name is marked here; every other name keeps its IPs and its mark
    by_cases hname : n = e.name
    · subst hname
      split_ifs at hn ⊢ with hover
      · exact List.mem_insert_self
      · exact absurd ⟨hpos, hn⟩ hover
    · have hn' : c.perHostLimit < (c.entriesOf n).entries.length := by
        rw [← entriesOf_takeIPs_ne hname]
        split_ifs at hn <;> exact hn
      have hmark := h.over_limit hpos n hn'
      split_ifs
      · exact List.mem_insert_of_mem (by rw [overLimit_takeIPs]; exact hmark)
      · rw [overLimit_takeIPs]
        exact hmark

theorem Inv.updateAll {es : List cacheEntry} (h : c.Inv) (hes : ∀ e ∈ es, Admissible e) :
    (c.updateAll es).Inv :=
  List.foldlRecOn (motive := fun d : DNSCache => d.Inv) _ _ h fun _ hd e he => hd.updateWithEntry (hes e he)

/-! ### Removals keep the invariant -/

/-- `d` holds some of the pairs of `c`, with the same entries. -/
def Removes (c d : DNSCache) : Prop :=
  ∀ n ip x, d.entryAt n ip = some x → c.entryAt n ip = some x

theorem Removes.refl (c : DNSCache) : Removes c c := fun _ _ _ hx => hx

theorem Removes.trans {d d' : DNSCache} (h : Removes c d) (h' : Removes d d') : Removes c d' :=
  fun n ip x hx => h n ip x (h' n ip x hx)

theorem removes_expireNames (h : c.Mirrored) (names : List String) (now t : ℤ) :
    Removes c (c.expireNames names now t) := fun n ip x hx => by
  rw [entryAt_expireNames names h] at hx
  split_ifs at hx
  exact hx

/-- A name keeps no more IPs than it had. -/
theorem length_entriesOf_le {d : DNSCache} (hsub : Removes c d) (n : String) :
    (d.entriesOf n).entries.length ≤ (c.entriesOf n).entries.length := by
  have hkeys : (d.entriesOf n).keys ⊆ (c.entriesOf n).keys := fun ip hip => by
    obtain ⟨x, hx⟩ := Option.isSome_iff_exists.mp (AList.lookup_isSome.mpr (AList.mem_keys.mpr hip))
    have hc := hsub n ip x (by rw [entryAt_eq]; exact hx)
    rw [entryAt_eq] at hc
    exact AList.mem_keys.mp (AList.lookup_isSome.mp (by rw [hc]; rfl))
  have hlen := (List.subperm_of_subset (d.entriesOf n).keys_nodup hkeys).length_le
  simpa [AList.keys, List.keys] using hlen

theorem Expiry.of_removes {d : DNSCache} (h : c.Expiry) (hsub : Removes c d)
    (hframe : ∃ f r ol, d = { c with forward := f, reverse := r, overLimit := ol }) : d.Expiry := by
  obtain ⟨f, r, ol, rfl⟩ := hframe
  exact ⟨h.tracked, h.zero_le, fun n ip x hx => h.started n ip x (hsub n ip x hx),
    fun n ip x hx => h.not_expired n ip x (hsub n ip x hx),
    fun n ip x hx => h.looked_up n ip x (hsub n ip x hx),
    fun n ip x hx => h.in_bucket n ip x (hsub n ip x hx)⟩

/-- A removal that keeps the maps mirrored and writes nothing but them keeps the invariant. -/
theorem Inv.of_removes {d : DNSCache} (h : c.Inv) (hm : d.Mirrored) (hsub : Removes c d)
    (hframe : ∃ f r, d = { c with forward := f, reverse := r }) : d.Inv := by
  obtain ⟨f, r, rfl⟩ := hframe
  refine ⟨hm, h.expiry.of_removes hsub ⟨f, r, c.overLimit, rfl⟩, fun hpos n hn => ?_⟩
  have hle : ((({ c with forward := f, reverse := r } : DNSCache).entriesOf n).entries.length : ℤ) ≤
      (c.entriesOf n).entries.length := by
    exact_mod_cast length_entriesOf_le hsub n
  exact h.over_limit hpos n (lt_of_lt_of_le hn hle)

theorem Inv.expireNames (h : c.Inv) (names : List String) (now t : ℤ) :
    (c.expireNames names now t).Inv :=
  h.of_removes (h.mirrored.expireNames names) (removes_expireNames h.mirrored names now t)
    (exists_expireNames_eq c names now t)

/-! ### Garbage collection -/

/-- With `lastCleanup` off the zero time, an entry that `cleanupExpiredEntries` leaves was stored
before and expires at or after the new `lastCleanup`: had it expired before, its name would have
been handed over by the loop over the seconds, and the entry removed. -/
theorem cleanupExpiredEntries_entryAt (h : c.Inv) {now : ℤ} (hz : c.lastCleanup ≠ zeroTime)
    {m : String} {ip : Addr} {x : cacheEntry}
    (hx : (c.cleanupExpiredEntries now).1.entryAt m ip = some x) :
    c.entryAt m ip = some x ∧ (cleanupLoop now c []).1.lastCleanup ≤ x.expirationTime := by
  have spec := cleanupLoop_spec now c []
  obtain ⟨cl, l, hr⟩ := spec.frame
  have hm : (cleanupLoop now c []).1.Mirrored := h.mirrored.of_maps (by rw [hr]) (by rw [hr])
  have hat : ∀ m ip, (cleanupLoop now c []).1.entryAt m ip = c.entryAt m ip := fun _ _ => by
    rw [hr]
    rfl
  rw [cleanupExpiredEntries_fst c now hz, entryAt_expireNames _ hm, hat] at hx
  split_ifs at hx with hdue
  refine ⟨hx, le_of_not_gt fun hlt => hdue ⟨?_, ?_⟩⟩
  · have hbucket := spec.handed x.expirationTime (h.expiry.not_expired m ip x hx) hlt
    exact List.mem_dedup.mpr (hbucket (h.expiry.in_bucket m ip x hx))
  · rw [hx]
    simp [cacheEntry.dueBy, cacheEntry.isExpiredBy, hlt]

/-- What `cleanupExpiredEntries` does on a cache that keeps the invariant. -/
structure CleanSpec (c : DNSCache) (now : ℤ) (r : DNSCache × List String × List (Addr × cacheEntry)) :
    Prop where
  inv : r.1.Inv
  removes : Removes c r.1
  limit : r.1.perHostLimit = c.perHostLimit
  fresh : ∀ n ip x, r.1.entryAt n ip = some x → now ≤ x.expirationTime
  removed : ∀ p ∈ r.2.2, c.entryAt p.2.name p.1 = some p.2 ∧
    ∀ n ip x, r.1.entryAt n ip = some x → p.2.expirationTime ≤ x.expirationTime

theorem cleanupExpiredEntries_of_zero (hz : c.lastCleanup = zeroTime) (now : ℤ) :
    c.cleanupExpiredEntries now = (c, [], []) := by
  unfold DNSCache.cleanupExpiredEntries
  rw [if_pos hz]

/-- Past the zero time, `cleanupExpiredEntries` takes the cleanup map and `lastCleanup` that the
loop over the seconds leaves, and writes the two maps. -/
theorem exists_cleanupExpiredEntries_eq (hz : c.lastCleanup ≠ zeroTime) (now : ℤ) :
    ∃ f rv, (c.cleanupExpiredEntries now).1 =
      { c with forward := f, reverse := rv, cleanup := (cleanupLoop now c []).1.cleanup,
               lastCleanup := (cleanupLoop now c []).1.lastCleanup } := by
  obtain ⟨cl, l, hr⟩ := (cleanupLoop_spec now c []).frame
  obtain ⟨f, rv, hd⟩ := exists_expireNames_eq (cleanupLoop now c []).1
    (cleanupLoop now c []).2.dedup (cleanupLoop now c []).1.lastCleanup zeroTime
  rw [cleanupExpiredEntries_fst c now hz, hd, hr]
  exact ⟨f, rv, rfl⟩

theorem Inv.expiry_cleanupExpiredEntries (h : c.Inv) (hz : c.lastCleanup ≠ zeroTime) (now : ℤ) :
    (c.cleanupExpiredEntries now).1.Expiry := by
  have spec := cleanupLoop_spec now c []
  have hentry : ∀ m ip x, (c.cleanupExpiredEntries now).1.entryAt m ip = some x →
      c.entryAt m ip = some x ∧ (cleanupLoop now c []).1.lastCleanup ≤ x.expirationTime :=
    fun _ _ _ hx => cleanupExpiredEntries_entryAt h hz hx
  have hz' := h.expiry.zero_le
  obtain ⟨f, rv, hd⟩ := exists_cleanupExpiredEntries_eq hz now
  rw [hd] at hentry ⊢
  refine ⟨spec.tracked.trans h.expiry.tracked, le_trans hz' spec.le,
    fun _ _ _ _ => lt_of_lt_of_le (lt_of_le_of_ne hz' (Ne.symm hz)) spec.le,
    fun m ip x hx => (hentry m ip x hx).2,
    fun m ip x hx => h.expiry.looked_up m ip x (hentry m ip x hx).1, fun m ip x hx => ?_⟩
  -- the second the entry expires in was not passed by the loop
  obtain ⟨hc, hle⟩ := hentry m ip x hx
  show m ∈ (cleanupLoop now c []).1.bucket (unix x.expirationTime)
  rw [spec.kept x.expirationTime hle]
  exact h.expiry.in_bucket m ip x hc

theorem Inv.cleanupExpiredEntries (h : c.Inv) (now : ℤ) :
    CleanSpec c now (c.cleanupExpiredEntries now) := by
  by_cases hz : c.lastCleanup = zeroTime
  · -- tracking has not started, so nothing is stored
    have hnone : ∀ n ip x, c.entryAt n ip ≠ some x := fun n ip x hx =>
      absurd hz (ne_of_gt (h.expiry.started n ip x hx))
    rw [cleanupExpiredEntries_of_zero hz]
    exact ⟨h, Removes.refl c, rfl, fun n ip x hx => absurd hx (hnone n ip x),
      fun _ hp => absurd hp List.not_mem_nil⟩
  · have spec := cleanupLoop_spec now c []
    have hentry : ∀ m ip x, (c.cleanupExpiredEntries now).1.entryAt m ip = some x →
        c.entryAt m ip = some x ∧ (cleanupLoop now c []).1.lastCleanup ≤ x.expirationTime :=
      fun _ _ _ hx => cleanupExpiredEntries_entryAt h hz hx
    have hsub : Removes c (c.cleanupExpiredEntries now).1 := fun m ip x hx => (hentry m ip x hx).1
    obtain ⟨cl, l, hr⟩ := spec.frame
    have hm : (cleanupLoop now c []).1.Mirrored := h.mirrored.of_maps (by rw [hr]) (by rw [hr])
    obtain ⟨f, rv, hd⟩ := exists_cleanupExpiredEntries_eq hz now
    refine ⟨⟨?_, h.expiry_cleanupExpiredEntries hz now, fun hpos n hn => ?_⟩, hsub, by rw [hd],
      fun m ip x hx => le_trans (not_lt.mp spec.done) (hentry m ip x hx).2, fun p hp => ?_⟩
    · rw [cleanupExpiredEntries_fst c now hz]
      exact hm.expireNames _
    · have hle := length_entriesOf_le hsub n
      rw [hd] at hpos hn hle ⊢
      exact h.over_limit hpos n (lt_of_lt_of_le hn (by exact_mod_cast hle))
    · -- a removed pair was due at the new `lastCleanup`, so it expired before it
      obtain ⟨hc, hdue⟩ := cleanupExpiredEntries_removed c now hz h.mirrored p hp
      have hlook := h.expiry.looked_up _ _ _ hc
      have hexp : p.2.expirationTime < (cleanupLoop now c []).1.lastCleanup := by
        simp only [cacheEntry.dueBy, cacheEntry.isExpiredBy, decide_eq_true_eq] at hdue
        omega
      exact ⟨hc, fun m ip x hx => le_trans hexp.le (hentry m ip x hx).2⟩

/-- What `GC` does on a cache that keeps the invariant: it keeps it, removing pairs only; no entry
it leaves expires before its time; with a positive limit no name stays over it; and each pair it
removes was stored and expires no later than any IP that its name keeps. -/
structure GCSpec (c : DNSCache) (now : ℤ) (r : DNSCache × List String × List (Addr × cacheEntry)) :
    Prop where
  inv : r.1.Inv
  removes : Removes c r.1
  fresh : ∀ n ip x, r.1.entryAt n ip = some x → now ≤ x.expirationTime
  bounded : 0 < c.perHostLimit → ∀ n, ((r.1.entriesOf n).entries.length : ℤ) ≤ c.perHostLimit
  earliest : ∀ p ∈ r.2.2, c.entryAt p.2.name p.1 = some p.2 ∧
    ∀ ip x, r.1.entryAt p.2.name ip = some x → p.2.expirationTime ≤ x.expirationTime

theorem Inv.GC (h : c.Inv) (now : ℤ) : GCSpec c now (c.GC now) := by
  have clean := h.cleanupExpiredEntries now
  have cut := cleanupOverLimitEntries_spec clean.inv.mirrored
  have hfst : (c.GC now).1 = (c.cleanupExpiredEntries now).1.cleanupOverLimitEntries.1 := rfl
  have hremoved : (c.GC now).2.2 = (c.cleanupExpiredEntries now).2.2 ++
      (c.cleanupExpiredEntries now).1.cleanupOverLimitEntries.2.2 := rfl
  obtain ⟨f, rv, ol, hcut⟩ := cut.frame
  have hbounded : 0 < c.perHostLimit → ∀ n,
      (((c.GC now).1.entriesOf n).entries.length : ℤ) ≤ c.perHostLimit := fun hpos => by
    rw [hfst, ← clean.limit]
    rw [← clean.limit] at hpos
    exact cut.bounded hpos (clean.inv.over_limit hpos)
  refine ⟨⟨?_, ?_, fun hpos n hn => ?_⟩, ?_, fun n ip x hx => ?_, hbounded, fun p hp => ?_⟩
  · rw [hfst]
    exact cut.mirrored
  · rw [hfst]
    exact clean.inv.expiry.of_removes cut.sub ⟨f, rv, ol, hcut⟩
  · -- no name is left over the limit
    have hlim : (c.GC now).1.perHostLimit = c.perHostLimit := by
      rw [hfst, hcut]
      exact clean.limit
    rw [hlim] at hpos hn
    exact absurd (hbounded hpos n) (not_le.mpr hn)
  · rw [hfst]
    exact clean.removes.trans cut.sub
  · exact clean.fresh n ip x (cut.sub n ip x hx)
  · rw [hremoved, List.mem_append] at hp
    rcases hp with hp | hp
    · obtain ⟨hc, hle⟩ := clean.removed p hp
      exact ⟨hc, fun ip x hx => hle _ ip x (cut.sub _ ip x hx)⟩
    · obtain ⟨hc, hle⟩ := cut.earliest p hp
      exact ⟨clean.removes _ _ _ hc, hle⟩

/-! ### Calls keep the invariant -/

theorem Inv.forceExpireByNames (h : c.Inv) (t : ℤ) (names : List String) :
    (c.forceExpireByNames t names).Inv ∧ Removes c (c.forceExpireByNames t names) := by
  rw [forceExpireByNames_eq]
  exact ⟨h.expireNames names t t, removes_expireNames h.mirrored names t t⟩

theorem Inv.removalOf (h : c.Inv) (op : Op) : (c.removalOf op).Inv ∧ Removes c (c.removalOf op) := by
  cases op with
  | update => exact ⟨h, Removes.refl c⟩
  | gc now => exact ⟨(h.GC now).inv, (h.GC now).removes⟩
  | forceExpire t nameMatch =>
    show (c.forceExpire t nameMatch).Inv ∧ Removes c (c.forceExpire t nameMatch)
    rw [forceExpire_eq]
    exact ⟨h.expireNames _ t t, removes_expireNames h.mirrored _ t t⟩
  | forceExpireByNames t names => exact h.forceExpireByNames t names
  | updateFromCache => exact ⟨h, Removes.refl c⟩
  | replaceFromCacheByNames now names => exact h.forceExpireByNames now names

/-- The calls of a run: an `Update` has an IP, is looked up after the zero time and has a TTL of
at least zero. -/
def Op.Admissible : Op → Prop
  | .update lookupTime _ ips ttl => ips ≠ [] ∧ zeroTime < lookupTime ∧ 0 ≤ ttl
  | _ => True

/-- The caches a call reads. -/
def Op.fed : Op → List DNSCache
  | .updateFromCache u => [u]
  | .replaceFromCacheByNames _ _ updated => updated
  | _ => []

/-- A stored entry of a cache that keeps the invariant may be inserted again. -/
theorem Inv.admissible {u : DNSCache} (hu : u.Inv) {x : cacheEntry} (hx : u.entryAt n ip = some x) :
    Admissible x :=
  ⟨List.ne_nil_of_mem (hu.mirrored.name_ip n ip x hx).2, hu.expiry.looked_up n ip x hx,
    lt_of_lt_of_le (hu.expiry.started n ip x hx) (hu.expiry.not_expired n ip x hx)⟩

theorem admissible_insertedBy (op : Op) (hop : op.Admissible) (hfed : ∀ u ∈ op.fed, u.Inv) :
    ∀ e ∈ c.insertedBy op, Admissible e := by
  cases op with
  | update lookupTime name ips ttl =>
    obtain ⟨hips, hlookup, httl⟩ := hop
    intro e he
    rw [insertedBy, List.mem_singleton] at he
    subst he
    refine ⟨hips, hlookup.le, ?_⟩
    -- the TTL taken is at least the one given
    dsimp only
    split_ifs <;> (unfold second; omega)
  | updateFromCache u =>
    intro e he
    obtain ⟨n, ip, hx⟩ := mem_storedEntries he
    exact (hfed u (List.mem_singleton_self u)).admissible hx
  | replaceFromCacheByNames now names updated =>
    intro e he
    obtain ⟨u, hu, he⟩ := List.mem_flatMap.mp he
    obtain ⟨hne, n, ip, x, hx, hlook, hexp⟩ := mem_restoredEntries he
    have hadm := (hfed u hu).admissible hx
    exact ⟨hne, hlook ▸ hadm.looked_up, hexp ▸ hadm.expires⟩
  | gc => exact fun _ he => absurd he List.not_mem_nil
  | forceExpire => exact fun _ he => absurd he List.not_mem_nil
  | forceExpireByNames => exact fun _ he => absurd he List.not_mem_nil

theorem Inv.apply (h : c.Inv) (op : Op) (hop : op.Admissible) (hfed : ∀ u ∈ op.fed, u.Inv) :
    (c.apply op).Inv := by
  rw [apply_eq]
  exact (h.removalOf op).1.updateAll (admissible_insertedBy op hop hfed)

/-! ### The entries inserted for each pair -/

/-- For each name and IP, entries inserted for the pair. -/
abbrev History := String → Addr → List cacheEntry

/-- The entries inserted for each pair since it was last removed, after one more call: a pair
that the call's removals leave without an entry starts over. -/
def History.record (H : History) (c : DNSCache) (op : Op) : History := fun n ip =>
  (if ((c.removalOf op).entryAt n ip).isSome then H n ip else []) ++
    (c.insertedBy op).filter fun e => e.name = n ∧ ip ∈ e.ips

/-- The entry stored for a pair is one inserted for it and the one of them that expires last; a
pair not stored has none. -/
structure Latest (c : DNSCache) (H : History) : Prop where
  absent : ∀ n ip, c.entryAt n ip = none → H n ip = []
  latest : ∀ n ip e, c.entryAt n ip = some e →
    e ∈ H n ip ∧ ∀ e' ∈ H n ip, e'.expirationTime ≤ e.expirationTime

theorem Latest.removes {H : History} {d : DNSCache} (h : Latest c H) (hsub : Removes c d) :
    Latest d fun n ip => if (d.entryAt n ip).isSome then H n ip else [] := by
  refine ⟨fun n ip hnone => by simp [hnone], fun n ip x hx => ?_⟩
  simp only [hx, Option.isSome_some, if_true]
  exact h.latest n ip x (hsub n ip x hx)

theorem Latest.updateWithEntry {H : History} (h : Latest c H) :
    Latest (c.updateWithEntry e).1 fun n ip =>
      H n ip ++ [e].filter fun e' => e'.name = n ∧ ip ∈ e'.ips := by
  constructor
  · intro n ip hnone
    rw [entryAt_updateWithEntry] at hnone
    split_ifs at hnone with hpair
    have hne : ¬(e.name = n ∧ ip ∈ e.ips) := fun h' => hpair ⟨h'.1.symm, h'.2⟩
    rw [h.absent n ip hnone, List.filter_singleton, decide_eq_false hne, cond_false,
      List.append_nil]
  · intro n ip x hx
    rw [entryAt_updateWithEntry] at hx
    split_ifs at hx with hpair
    · obtain ⟨rfl, hip⟩ := hpair
      rw [Option.some_inj] at hx
      subst hx
      simp only [hip, and_self, decide_true, List.filter_cons_of_pos, List.filter_nil,
        List.mem_append, List.mem_singleton]
      -- the pair had no entry, or it keeps the later-expiring of the two
      cases hold : c.entryAt e.name ip with
      | none =>
        rw [h.absent _ _ hold]
        simp [newer]
      | some old =>
        obtain ⟨hmem, hmax⟩ := h.latest _ _ _ hold
        simp only [newer, cacheEntry.isExpiredBy, decide_eq_true_eq]
        split_ifs with hlt
        · exact ⟨.inr rfl, fun e' he' => he'.elim (fun he' => by have := hmax e' he'; omega)
            fun he' => he' ▸ le_rfl⟩
        · exact ⟨.inl hmem, fun e' he' => he'.elim (hmax e') fun he' => by rw [he']; omega⟩
    · have hne : ¬(e.name = n ∧ ip ∈ e.ips) := fun h' => hpair ⟨h'.1.symm, h'.2⟩
      rw [List.filter_singleton, decide_eq_false hne, cond_false, List.append_nil]
      exact h.latest n ip x hx

theorem Latest.updateAll {H : History} (h : Latest c H) (es : List cacheEntry) :
    Latest (c.updateAll es) fun n ip => H n ip ++ es.filter fun e => e.name = n ∧ ip ∈ e.ips := by
  induction es generalizing c H with
  | nil => simpa [updateAll] using h
  | cons e es ih =>
    have step := ih (h.updateWithEntry (e := e))
    have hH : (fun n ip => (H n ip ++ [e].filter fun e' => e'.name = n ∧ ip ∈ e'.ips) ++
          es.filter fun e' => e'.name = n ∧ ip ∈ e'.ips) =
        fun n ip => H n ip ++ (e :: es).filter fun e' => e'.name = n ∧ ip ∈ e'.ips := by
      funext n ip
      rw [List.append_assoc, ← List.filter_append]
      rfl
    rw [hH] at step
    exact step

/-! ### Runs -/

/-- The caches that runs from a new cache reach, with the entries inserted for each pair since it
was last removed; a call that reads other caches reads caches that runs reach. -/
inductive Reached : DNSCache → History → Prop
  | init (minTTL limit : ℤ) : Reached (newDNSCacheWithLimit minTTL limit) fun _ _ => []
  | step {c : DNSCache} {H : History} (op : Op) (Hs : DNSCache → History) :
      Reached c H → op.Admissible → (∀ u ∈ op.fed, Reached u (Hs u)) →
      Reached (c.apply op) (H.record c op)

theorem entryAt_newDNSCacheWithLimit (minTTL limit : ℤ) :
    (newDNSCacheWithLimit minTTL limit).entryAt n ip = none := rfl

theorem inv_newDNSCacheWithLimit (minTTL limit : ℤ) : (newDNSCacheWithLimit minTTL limit).Inv := by
  have hno : ∀ n ip x, (newDNSCacheWithLimit minTTL limit).entryAt n ip ≠ some x :=
    fun n ip x hx => by
      rw [entryAt_newDNSCacheWithLimit] at hx
      cases hx
  refine ⟨⟨fun n ip x => Iff.rfl, fun n ip x hx => absurd hx (hno n ip x),
      fun n es hes => absurd hes (by simp [newDNSCacheWithLimit, newDNSCache]),
      fun ip es hes => absurd hes (by simp [newDNSCacheWithLimit, newDNSCache])⟩,
    ⟨rfl, le_rfl, fun n ip x hx => absurd hx (hno n ip x), fun n ip x hx => absurd hx (hno n ip x),
      fun n ip x hx => absurd hx (hno n ip x), fun n ip x hx => absurd hx (hno n ip x)⟩,
    fun hpos n hn => ?_⟩
  -- a new cache holds no IPs, so no name is over a positive limit
  simp only [newDNSCacheWithLimit, newDNSCache, entriesOf] at hpos hn
  simp at hn
  omega

theorem Reached.inv_latest {H : History} (hr : Reached c H) : c.Inv ∧ Latest c H := by
  induction hr with
  | init minTTL limit =>
    refine ⟨inv_newDNSCacheWithLimit minTTL limit, fun _ _ _ => rfl, fun n ip x hx => ?_⟩
    rw [entryAt_newDNSCacheWithLimit] at hx
    cases hx
  | step op Hs _ hop _ ih ihfed =>
    -- a call removes, keeping what stays as it was, and then inserts its entries one by one
    obtain ⟨hinv, hlatest⟩ := ih
    have hrem := hinv.removalOf op
    refine ⟨hinv.apply op hop fun u hu => (ihfed u hu).1, ?_⟩
    rw [apply_eq]
    exact (hlatest.removes hrem.2).updateAll _

/-- What every cache a run reaches guarantees: (a) the maps mirror each other; (b) the entry
stored for a pair is one inserted for it since it was last removed, and the one of those that
expires last; (c) a stored entry expires at or after `lastCleanup` and has its name under the
second it expires in, so that `GC` leaves no entry that expires before its time; (d) with a
positive limit, `GC` leaves no name over it, and each pair it removes expires no later than any
IP that its name keeps. -/
structure Guarantees (c : DNSCache) (H : History) : Prop where
  mirrored : c.Mirrored
  latest : ∀ n ip e, c.entryAt n ip = some e →
    e ∈ H n ip ∧ ∀ e' ∈ H n ip, e'.expirationTime ≤ e.expirationTime
  tracked : ∀ n ip e, c.entryAt n ip = some e →
    c.lastCleanup ≤ e.expirationTime ∧ unix c.lastCleanup ≤ unix e.expirationTime ∧
      n ∈ c.bucket (unix e.expirationTime)
  gc_fresh : ∀ now n ip e, (c.GC now).1.entryAt n ip = some e → now ≤ e.expirationTime
  gc_bounded : 0 < c.perHostLimit →
    ∀ now n, (((c.GC now).1.entriesOf n).entries.length : ℤ) ≤ c.perHostLimit
  gc_earliest : ∀ now, ∀ p ∈ (c.GC now).2.2, c.entryAt p.2.name p.1 = some p.2 ∧
    ∀ ip e, (c.GC now).1.entryAt p.2.name ip = some e → p.2.expirationTime ≤ e.expirationTime

theorem reached_guarantees {H : History} (hr : Reached c H) : Guarantees c H := by
  obtain ⟨hinv, hlatest⟩ := hr.inv_latest
  refine ⟨hinv.mirrored, hlatest.latest, fun n ip e he => ?_, fun now => (hinv.GC now).fresh,
    fun hpos now => (hinv.GC now).bounded hpos, fun now => (hinv.GC now).earliest⟩
  have hle := hinv.expiry.not_expired n ip e he
  exact ⟨hle, unix_mono hle, hinv.expiry.in_bucket n ip e he⟩

/-- A run of one update on a new cache with a limit of one IP. -/
theorem reached_guarantees_update :
    Reached ((newDNSCacheWithLimit 0 1).apply (.update 1 "example.com" [.v4 1] 60))
        (History.record (fun _ _ => []) (newDNSCacheWithLimit 0 1)
          (.update 1 "example.com" [.v4 1] 60)) ∧
      Guarantees ((newDNSCacheWithLimit 0 1).apply (.update 1 "example.com" [.v4 1] 60))
        (History.record (fun _ _ => []) (newDNSCacheWithLimit 0 1)
          (.update 1 "example.com" [.v4 1] 60)) :=
  have hr : Reached ((newDNSCacheWithLimit 0 1).apply (.update 1 "example.com" [.v4 1] 60))
      (History.record (fun _ _ => []) (newDNSCacheWithLimit 0 1)
        (.update 1 "example.com" [.v4 1] 60)) :=
    .step _ (fun _ _ _ => []) (.init 0 1)
      ⟨List.cons_ne_nil _ _, by unfold zeroTime second; omega, by omega⟩
      fun _ hu => absurd hu List.not_mem_nil
  ⟨hr, reached_guarantees hr⟩

end DNSCache

end Cilium.Fqdn.Cache
