import Cilium.Fqdn.NameManager
import Mathlib.Data.List.Sort

/-! The DNS cache of `pkg/fqdn/cache.go` with its expiry: for each name the entry that provides
each IP (`forward`), the same entries by IP (`reverse`), the time up to which entries were
expired (`lastCleanup`), the names that expire in each second (`cleanup`, absent when tracking is
turned off), and the names that went over the per-host limit.  A `time.Time` is its instant in
nanoseconds from the Unix epoch, and an entry is kept by value.  The caches that fed this one
since the last garbage collection are given to `ReplaceFromCacheByNames` as they are at the call,
and the zombies that `GC` may fill are the caller's: the entries it removes are returned. -/

namespace Cilium.Fqdn.Cache

open Cilium.Ipcache

/-- `time.Second`, in nanoseconds. -/
def second : ℤ := 1000000000

/-- The zero `time.Time`, January 1 of year 1. -/
def zeroTime : ℤ := -62135596800 * second

/-- `Time.Unix`: whole seconds, rounded down. -/
def unix (t : ℤ) : ℤ := t / second

/-- `Time.Truncate(time.Second)`. -/
def truncateSecond (t : ℤ) : ℤ := t - t % second

/-- `fqdn.cacheEntry`. -/
structure cacheEntry where
  name : String
  lookupTime : ℤ
  expirationTime : ℤ
  ttl : ℤ
  ips : List Addr
  deriving DecidableEq, Repr

/-- `cacheEntry.isExpiredBy`: the point in time is after the expiration. -/
def cacheEntry.isExpiredBy (entry : cacheEntry) (pointInTime : ℤ) : Bool :=
  entry.expirationTime < pointInTime

/-- `ipEntries`. -/
abbrev ipEntries := AList fun _ : Addr => cacheEntry

/-- `nameEntries`. -/
abbrev nameEntries := AList fun _ : String => cacheEntry

/-- `fqdn.UpdateStatus`. -/
structure UpdateStatus where
  upserted : Bool
  updated : Bool
  deriving DecidableEq, Repr

/-- `fqdn.DNSCache`, without its lock and the set `updated`. -/
structure DNSCache where
  forward : AList fun _ : String => ipEntries
  reverse : AList fun _ : Addr => nameEntries
  lastCleanup : ℤ
  cleanup : Option (AList fun _ : ℤ => List String)
  overLimit : List String
  perHostLimit : ℤ
  minTTL : ℤ

namespace DNSCache

/-- `NewDNSCache`. -/
def newDNSCache (minTTL : ℤ) : DNSCache := ⟨∅, ∅, zeroTime, some ∅, [], 0, minTTL⟩

/-- `NewDNSCacheWithLimit`. -/
def newDNSCacheWithLimit (minTTL limit : ℤ) : DNSCache :=
  { newDNSCache minTTL with perHostLimit := limit }

/-- `DNSCache.DisableCleanupTrack`. -/
def disableCleanupTrack (c : DNSCache) : DNSCache := { c with cleanup := none }

/-- The entries of a name, empty when it has none. -/
def entriesOf (c : DNSCache) (name : String) : ipEntries := (c.forward.lookup name).getD ∅

/-- `DNSCache.addNameToCleanup`: the name under the second its entry expires in; an entry that
expires before `lastCleanup` takes it back. -/
def addNameToCleanup (c : DNSCache) (entry : cacheEntry) : DNSCache :=
  match c.cleanup with
  | none => c
  | some cleanup =>
    let lastCleanup :=
      if c.lastCleanup = zeroTime ∨ entry.expirationTime < c.lastCleanup then entry.expirationTime
      else c.lastCleanup
    let expiration := unix entry.expirationTime
    { c with lastCleanup,
             cleanup := some (cleanup.insert expiration (((cleanup.lookup expiration).getD []) ++ [entry.name])) }

/-- `DNSCache.upsertReverse`. -/
def upsertReverse (c : DNSCache) (ip : Addr) (entry : cacheEntry) : DNSCache :=
  { c with reverse := c.reverse.insert ip (((c.reverse.lookup ip).getD ∅).insert entry.name entry) }

/-- One IP of `updateWithEntryIPs`: it takes the entry unless its entry expires no earlier. -/
def updateWithEntryIP (c : DNSCache) (entry : cacheEntry) (st : UpdateStatus) (ip : Addr) :
    DNSCache × UpdateStatus :=
  let entries := c.entriesOf entry.name
  let old := entries.lookup ip
  let st := if old.isNone then { st with upserted := true } else st
  if old.all (·.isExpiredBy entry.expirationTime) then
    (({ c with forward := c.forward.insert entry.name (entries.insert ip entry) }.upsertReverse
      ip entry).addNameToCleanup entry, { st with updated := true })
  else (c, st)

/-- `DNSCache.updateWithEntryIPs` on the entries of `entry.name`. -/
def updateWithEntryIPs (c : DNSCache) (entry : cacheEntry) : DNSCache × UpdateStatus :=
  entry.ips.foldl (fun (c, st) ip => c.updateWithEntryIP entry st ip) (c, ⟨false, false⟩)

/-- `DNSCache.updateWithEntry`: the name gets its entries, which may stay empty, and is marked
over the limit when it holds more IPs than allowed. -/
def updateWithEntry (c : DNSCache) (entry : cacheEntry) : DNSCache × UpdateStatus :=
  let c := { c with forward := c.forward.insert entry.name (c.entriesOf entry.name) }
  let (c, res) := c.updateWithEntryIPs entry
  let c := if 0 < c.perHostLimit ∧ c.perHostLimit < ((c.entriesOf entry.name).entries.length : ℤ)
    then { c with overLimit := c.overLimit.insert entry.name } else c
  (c, res)

/-- `DNSCache.Update`. -/
def update (c : DNSCache) (lookupTime : ℤ) (name : String) (ips : List Addr) (ttl : ℤ) :
    DNSCache × UpdateStatus :=
  let ttl := if c.minTTL > ttl then c.minTTL else ttl
  c.updateWithEntry ⟨name, lookupTime, lookupTime + ttl * second, ttl, ips⟩

/-- `DNSCache.removeForward`: the IP leaves the entries of the entry's name, which go when empty. -/
def removeForward (c : DNSCache) (ip : Addr) (entry : cacheEntry) : DNSCache :=
  match c.forward.lookup entry.name with
  | none => c
  | some entries =>
    let entries := entries.erase ip
    { c with forward := if entries.entries = [] then c.forward.erase entry.name
                        else c.forward.insert entry.name entries }

/-- `DNSCache.removeReverse`. -/
def removeReverse (c : DNSCache) (ip : Addr) (entry : cacheEntry) : DNSCache :=
  match c.reverse.lookup ip with
  | none => c
  | some entries =>
    let entries := entries.erase entry.name
    { c with reverse := if entries.entries = [] then c.reverse.erase ip else c.reverse.insert ip entries }

/-- `DNSCache.remove`. -/
def remove (c : DNSCache) (ip : Addr) (entry : cacheEntry) : DNSCache :=
  (c.removeForward ip entry).removeReverse ip entry

/-- `delete(entries, ip)` on the entries of a name. -/
def deleteAt (c : DNSCache) (name : String) (ip : Addr) : DNSCache :=
  match c.forward.lookup name with
  | none => c
  | some entries => { c with forward := c.forward.insert name (entries.erase ip) }

/-- `DNSCache.removeExpired` on the entries of a name: those expired by `now` or looked up before
`expireLookupsBefore` go, and are returned. -/
def removeExpired (c : DNSCache) (name : String) (now expireLookupsBefore : ℤ) :
    DNSCache × List (Addr × cacheEntry) :=
  (c.entriesOf name).entries.foldl (fun (c, removed) e =>
    if e.2.isExpiredBy now ∨ e.2.lookupTime < expireLookupsBefore then
      ((c.deleteAt name e.1).remove e.1 e.2, removed ++ [(e.1, e.2)])
    else (c, removed)) (c, [])

/-- The loop of `cleanupExpiredEntries`: each second from `lastCleanup` up to `expires` hands over
and loses its names. -/
def cleanupLoop (expires : ℤ) (c : DNSCache) (toCleanNames : List String) :
    DNSCache × List String :=
  if c.lastCleanup < expires then
    let key := unix c.lastCleanup
    let (cleanup, toCleanNames) := match c.cleanup with
      | some cleanup => match cleanup.lookup key with
        | some entries => (some (cleanup.erase key), toCleanNames ++ entries)
        | none => (some cleanup, toCleanNames)
      | none => (none, toCleanNames)
    cleanupLoop expires
      { c with cleanup, lastCleanup := truncateSecond (c.lastCleanup + second) } toCleanNames
  else (c, toCleanNames)
termination_by (expires - c.lastCleanup).toNat
decreasing_by
  have hs : truncateSecond (c.lastCleanup + second) > c.lastCleanup := by
    have h1 := Int.emod_lt_of_pos (c.lastCleanup + second) (by decide : (0 : ℤ) < second)
    simp only [truncateSecond]
    omega
  omega

/-- `DNSCache.cleanupExpiredEntries`: the names with entries due before `expires` lose their
expired entries; the names, and the entries removed. -/
def cleanupExpiredEntries (c : DNSCache) (expires : ℤ) :
    DNSCache × List String × List (Addr × cacheEntry) :=
  if c.lastCleanup = zeroTime then (c, [], [])
  else
    let (c, toCleanNames) := cleanupLoop expires c []
    toCleanNames.dedup.foldl (fun (c, affected, removed) name =>
      if name ∈ c.forward then
        let (c, r) := c.removeExpired name c.lastCleanup zeroTime
        (c, affected ++ [name], removed ++ r)
      else (c, affected, removed)) (c, [], [])

/-- The order of `cleanupOverLimitEntries`: by expiration. -/
def expiresBefore (a b : Addr × cacheEntry) : Bool := a.2.expirationTime ≤ b.2.expirationTime

/-- `DNSCache.cleanupOverLimitEntries`: each name over the limit loses the IPs that expire
first, down to the limit; the names, and the entries removed. -/
def cleanupOverLimitEntries (c : DNSCache) : DNSCache × List String × List (Addr × cacheEntry) :=
  if c.perHostLimit = 0 then (c, [], [])
  else
    let (c, affected, removed) := c.overLimit.foldl (fun (c, affected, removed) dnsName =>
      match c.forward.lookup dnsName with
      | none => (c, affected, removed)
      | some entries =>
        let overlimit := (entries.entries.length : ℤ) - c.perHostLimit
        if overlimit ≤ 0 then (c, affected, removed)
        else
          let sortedEntries := (entries.entries.map fun e => (e.1, e.2)).insertionSort
            fun a b => expiresBefore a b
          let dropped := sortedEntries.take overlimit.toNat
          (dropped.foldl (fun c e => (c.deleteAt dnsName e.1).remove e.1 e.2) c,
            affected ++ [dnsName], removed ++ dropped)) (c, [], [])
    ({ c with overLimit := [] }, affected, removed)

/-- `DNSCache.GC` at `now`: the expired entries, then the entries over the limit; the names
affected, and the entries removed for the zombies. -/
def GC (c : DNSCache) (now : ℤ) : DNSCache × List String × List (Addr × cacheEntry) :=
  let (c, expiredNames, expiredEntries) := c.cleanupExpiredEntries now
  let (c, overLimitNames, overLimitEntries) := c.cleanupOverLimitEntries
  (c, (expiredNames ++ overLimitNames).dedup, expiredEntries ++ overLimitEntries)

/-- `DNSCache.UpdateFromCache`: every entry of the other cache, once for each IP it provides. -/
def updateFromCache (c update : DNSCache) : DNSCache :=
  update.forward.entries.foldl (fun c newEntries =>
    newEntries.2.entries.foldl (fun c newEntry => (c.updateWithEntry newEntry.2).1) c) c

/-- `DNSCache.getIPsLocked`: the names of each IP of the reverse map. -/
def getIPs (c : DNSCache) : List (Addr × List String) :=
  c.reverse.entries.map fun e => (e.1, e.2.keys)

/-- `DNSCache.partialRestoreFromCache`: the entries of the other cache for the names, cut down to
the IP-name pairs of `oldEntries`. -/
def partialRestoreFromCache (c update : DNSCache) (namesToUpdate : List String)
    (oldEntries : List (Addr × List String)) : DNSCache :=
  namesToUpdate.foldl (fun c name =>
    match update.forward.lookup name with
    | none => c
    | some newEntries => newEntries.entries.foldl (fun c e =>
        let newEntry := e.2
        let newIps := newEntry.ips.filter fun ip =>
          match oldEntries.lookup ip with
          | some names => newEntry.name ∈ names
          | none => false
        if 0 < newIps.length then
          (c.updateWithEntry ⟨newEntry.name, newEntry.lookupTime, newEntry.expirationTime,
            newEntry.ttl, newIps⟩).1
        else c) c) c

/-- `DNSCache.forceExpireByNames`. -/
def forceExpireByNames (c : DNSCache) (expireLookupsBefore : ℤ) (names : List String) : DNSCache :=
  names.foldl (fun c name =>
    if name ∈ c.forward then (c.removeExpired name expireLookupsBefore expireLookupsBefore).1
    else c) c

/-- `DNSCache.ReplaceFromCacheByNames` at time `now`, with the caches that fed this one since the
last garbage collection: the names lose their lookups and get back what the caches hold of the
pairs this one had; the pairs it had are returned. -/
def replaceFromCacheByNames (c : DNSCache) (now : ℤ) (namesToUpdate : List String)
    (updated : List DNSCache) : DNSCache × List (Addr × List String) :=
  let oldEntries := c.getIPs
  let c := c.forceExpireByNames now namesToUpdate
  (updated.foldl (fun c update => c.partialRestoreFromCache update namesToUpdate oldEntries) c,
    oldEntries)

/-- `DNSCache.ForceExpire`: every name that `nameMatch` matches (all when there is none) loses
its lookups from before the time. -/
def forceExpire (c : DNSCache) (expireLookupsBefore : ℤ) (nameMatch : Option (String → Bool)) :
    DNSCache :=
  c.forward.keys.foldl (fun c name =>
    if nameMatch.all (· name) then (c.removeExpired name expireLookupsBefore expireLookupsBefore).1
    else c) c

/-- The exported calls that change a `DNSCache`. -/
inductive Op where
  | update (lookupTime : ℤ) (name : String) (ips : List Addr) (ttl : ℤ)
  | gc (now : ℤ)
  | forceExpire (expireLookupsBefore : ℤ) (nameMatch : Option (String → Bool))
  | forceExpireByNames (expireLookupsBefore : ℤ) (names : List String)
  | updateFromCache (update : DNSCache)
  | replaceFromCacheByNames (now : ℤ) (namesToUpdate : List String) (updated : List DNSCache)

/-- One call. -/
def apply (c : DNSCache) : Op → DNSCache
  | .update lookupTime name ips ttl => (c.update lookupTime name ips ttl).1
  | .gc now => (c.GC now).1
  | .forceExpire t nameMatch => c.forceExpire t nameMatch
  | .forceExpireByNames t names => c.forceExpireByNames t names
  | .updateFromCache update => c.updateFromCache update
  | .replaceFromCacheByNames now names updated => (c.replaceFromCacheByNames now names updated).1

/-- A sequence of calls. -/
def run (c : DNSCache) (ops : List Op) : DNSCache := ops.foldl apply c

@[simp] theorem forward_addNameToCleanup (c : DNSCache) (entry : cacheEntry) :
    (c.addNameToCleanup entry).forward = c.forward := by
  unfold addNameToCleanup
  split <;> rfl

@[simp] theorem forward_upsertReverse (c : DNSCache) (ip : Addr) (entry : cacheEntry) :
    (c.upsertReverse ip entry).forward = c.forward := rfl

theorem entriesOf_insert (c : DNSCache) (name m : String) (entries : ipEntries) :
    ({ c with forward := c.forward.insert name entries } : DNSCache).entriesOf m =
      if m = name then entries else c.entriesOf m := by
  by_cases h : m = name
  · subst h; simp [entriesOf]
  · simp [entriesOf, AList.lookup_insert_ne h, h]

theorem mem_keys_updateWithEntryIP {c : DNSCache} {entry : cacheEntry} {st : UpdateStatus}
    {x ip : Addr} {m : String} :
    ip ∈ ((c.updateWithEntryIP entry st x).1.entriesOf m).keys ↔
      ip ∈ (c.entriesOf m).keys ∨ (m = entry.name ∧ ip = x) := by
  unfold updateWithEntryIP
  dsimp only
  split
  · simp only [entriesOf, forward_addNameToCleanup, forward_upsertReverse]
    by_cases hm : m = entry.name
    · subst hm
      by_cases hx : ip = x
      · simp [hx]
      · simp [hx, List.mem_erase_of_ne hx]
    · simp [AList.lookup_insert_ne hm, hm]
  · -- the IP keeps its entry, which is already among the keys
    rename_i hold
    have hx : x ∈ (c.entriesOf entry.name).keys := by
      cases h : (c.entriesOf entry.name).lookup x with
      | none => simp [h] at hold
      | some e => exact AList.mem_keys.mpr (AList.lookup_isSome.mp (by rw [h]; rfl))
    constructor
    · exact .inl
    · rintro (h | ⟨rfl, rfl⟩)
      · exact h
      · exact hx

/-- After `updateWithEntryIPs`, the IPs of a name are those it had and, for the entry's name,
the entry's IPs. -/
theorem mem_keys_updateWithEntryIPs {c : DNSCache} {entry : cacheEntry} {ip : Addr} {m : String} :
    ip ∈ ((c.updateWithEntryIPs entry).1.entriesOf m).keys ↔
      ip ∈ (c.entriesOf m).keys ∨ (m = entry.name ∧ ip ∈ entry.ips) := by
  unfold updateWithEntryIPs
  -- the loop over the entry's IPs, from any cache and status
  suffices h : ∀ (l : List Addr) (c : DNSCache) (st : UpdateStatus),
      ip ∈ ((l.foldl (fun (cs : DNSCache × UpdateStatus) x => cs.1.updateWithEntryIP entry cs.2 x)
        (c, st)).1.entriesOf m).keys ↔ ip ∈ (c.entriesOf m).keys ∨ (m = entry.name ∧ ip ∈ l) from
    h entry.ips c ⟨false, false⟩
  intro l
  induction l with
  | nil => simp
  | cons x l ih =>
    intro c st
    rw [List.foldl_cons, ih, mem_keys_updateWithEntryIP]
    simp only [List.mem_cons]
    tauto

/-- After `updateWithEntry`, the IPs of a name are those it had and, for the entry's name, the
entry's IPs. -/
theorem mem_keys_updateWithEntry {c : DNSCache} {entry : cacheEntry} {ip : Addr} {m : String} :
    ip ∈ ((c.updateWithEntry entry).1.entriesOf m).keys ↔
      ip ∈ (c.entriesOf m).keys ∨ (m = entry.name ∧ ip ∈ entry.ips) := by
  have hfwd : ∀ d : DNSCache, ({ d with overLimit := d.overLimit.insert entry.name } : DNSCache).entriesOf m =
      d.entriesOf m := fun _ => rfl
  simp only [updateWithEntry]
  split
  · rw [hfwd, mem_keys_updateWithEntryIPs, entriesOf_insert]
    split <;> simp_all
  · rw [mem_keys_updateWithEntryIPs, entriesOf_insert]
    split <;> simp_all

/-- The forward and reverse maps mirror each other on entries of the right name and IP, and no
inner map is empty. -/
structure Mirrored (c : DNSCache) : Prop where
  mirror : ∀ n ip e, ((c.forward.lookup n).bind (·.lookup ip) = some e ↔
    (c.reverse.lookup ip).bind (·.lookup n) = some e)
  name_ip : ∀ n ip e, (c.forward.lookup n).bind (·.lookup ip) = some e → e.name = n ∧ ip ∈ e.ips
  forward_nonempty : ∀ n entries, c.forward.lookup n = some entries → entries.entries ≠ []
  reverse_nonempty : ∀ ip entries, c.reverse.lookup ip = some entries → entries.entries ≠ []

/-! ### The manager's view

The name manager keeps its global cache with cleanup tracking turned off and reads only the IPs
of each name; `Fqdn.DNSCache` is that view, and `update` here refines its `update`. -/

/-- The cache holds, for each name, the IPs that the manager's view gives it. -/
def Represents (c : DNSCache) (a : Fqdn.DNSCache) : Prop :=
  ∀ name ip, ip ∈ a.ipsOf name ↔ ip ∈ (c.entriesOf name).keys

theorem upserted_updateWithEntryIP {c : DNSCache} {entry : cacheEntry} {st : UpdateStatus}
    {x : Addr} :
    (c.updateWithEntryIP entry st x).2.upserted =
      (st.upserted || decide (x ∉ (c.entriesOf entry.name).keys)) := by
  have hnone :
      ((c.entriesOf entry.name).lookup x).isNone = decide (x ∉ (c.entriesOf entry.name).keys) := by
    rw [Bool.eq_iff_iff, Option.isNone_iff_eq_none, AList.lookup_eq_none, decide_eq_true_iff,
      AList.mem_keys]
  unfold updateWithEntryIP
  dsimp only
  split <;> (rw [← hnone]; split <;> simp_all)

/-- `updateWithEntryIPs` reports an upsert exactly when one of the entry's IPs was not an IP of
the name. -/
theorem upserted_updateWithEntryIPs {c : DNSCache} {entry : cacheEntry} :
    (c.updateWithEntryIPs entry).2.upserted =
      entry.ips.any fun x => decide (x ∉ (c.entriesOf entry.name).keys) := by
  unfold updateWithEntryIPs
  -- the loop, from any cache and status; an IP met twice was added the first time
  suffices h : ∀ (l : List Addr) (c : DNSCache) (st : UpdateStatus),
      (l.foldl (fun (cs : DNSCache × UpdateStatus) x => cs.1.updateWithEntryIP entry cs.2 x)
        (c, st)).2.upserted =
      (st.upserted || l.any fun x => decide (x ∉ (c.entriesOf entry.name).keys)) from
    h entry.ips c ⟨false, false⟩
  intro l
  induction l with
  | nil => simp
  | cons x l ih =>
    intro c st
    rw [List.foldl_cons, ih, upserted_updateWithEntryIP]
    by_cases hx : x ∈ (c.entriesOf entry.name).keys
    · have hsame : ∀ y, y ∈ ((c.updateWithEntryIP entry st x).1.entriesOf entry.name).keys ↔
          y ∈ (c.entriesOf entry.name).keys := by
        intro y
        rw [mem_keys_updateWithEntryIP]
        constructor
        · rintro (h | ⟨-, rfl⟩) <;> assumption
        · exact .inl
      simp [hx, hsame]
    · simp [hx]

theorem entriesOf_insert_entriesOf {c : DNSCache} {name : String} :
    ({ c with forward := c.forward.insert name (c.entriesOf name) } : DNSCache).entriesOf name =
      c.entriesOf name := by
  rw [entriesOf_insert, if_pos rfl]

/-- An update of the full cache is the manager's update of its view: the IPs of each name
follow, and so does the upsert flag. -/
theorem update_refines_manager_view {c : DNSCache} {a : Fqdn.DNSCache} (h : c.Represents a)
    (lookupTime : ℤ) (name : String) (ips : List Addr) (ttl : ℤ) :
    (c.update lookupTime name ips ttl).1.Represents (a.update name ips).1 ∧
      (c.update lookupTime name ips ttl).2.upserted = (a.update name ips).2.upserted := by
  constructor
  · intro m ip
    rw [Fqdn.DNSCache.mem_ipsOf_update, h, update, mem_keys_updateWithEntry]
  · have hany : ∀ x, decide (x ∉ (c.entriesOf name).keys) = decide (x ∉ a.ipsOf name) :=
      fun x => decide_eq_decide.mpr (not_congr (h name x)).symm
    simp only [update, updateWithEntry, Fqdn.DNSCache.update, upserted_updateWithEntryIPs,
      entriesOf_insert_entriesOf]
    exact congrArg ips.any (funext hany)

/-- The empty caches agree, so an update of either agrees with the other. -/
theorem update_refines_manager_view_empty :
    (newDNSCache 0).Represents .empty ∧
      ((newDNSCache 0).update 0 "example.com" [.v4 1] 60).1.Represents
        (Fqdn.DNSCache.empty.update "example.com" [.v4 1]).1 :=
  have h0 : (newDNSCache 0).Represents .empty := fun _ _ => by
    simp [Fqdn.DNSCache.ipsOf, Fqdn.DNSCache.empty, entriesOf, newDNSCache]
  ⟨h0, (update_refines_manager_view h0 0 "example.com" [.v4 1] 60).1⟩

end DNSCache

end Cilium.Fqdn.Cache
