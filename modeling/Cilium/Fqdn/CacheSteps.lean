import Cilium.Fqdn.Cache

/-! What the steps of the DNS cache do to the entries it stores.  Every call of `cache.go` is made
of two kinds of step: an insertion, which stores an entry for its name and one of its IPs unless
an entry there expires no earlier (`updateWithEntryIP`, whose writes are `put`), and the removal
of one name-IP pair (`removePair`, which `removeExpired` and `cleanupOverLimitEntries` repeat).
Each is described here through the lookups `entryAt` and `reverseAt`, and so are the loops that
repeat them. -/

namespace Cilium.Fqdn.Cache

open Cilium.Ipcache

/-- The test of `removeExpired`: expired by `now`, or looked up before `expireLookupsBefore`. -/
def cacheEntry.dueBy (e : cacheEntry) (now expireLookupsBefore : ℤ) : Bool :=
  decide (e.isExpiredBy now ∨ e.lookupTime < expireLookupsBefore)

namespace DNSCache

variable {c : DNSCache} {e : cacheEntry} {n m : String} {ip ip' : Addr}

/-- The entry stored for a name and an IP. -/
def entryAt (c : DNSCache) (n : String) (ip : Addr) : Option cacheEntry :=
  (c.forward.lookup n).bind (·.lookup ip)

/-- The entry that the reverse map stores for an IP and a name. -/
def reverseAt (c : DNSCache) (ip : Addr) (n : String) : Option cacheEntry :=
  (c.reverse.lookup ip).bind (·.lookup n)

/-- The names recorded under a cleanup key. -/
def bucket (c : DNSCache) (k : ℤ) : List String := (c.cleanup.bind (·.lookup k)).getD []

/-- What an insertion leaves for its name and IP: the entry, unless the one there expires no
earlier. -/
def newer : Option cacheEntry → cacheEntry → cacheEntry
  | some old, e => if old.isExpiredBy e.expirationTime then e else old
  | none, e => e

/-- The writes of an insertion: the entry for its name and the IP in both maps, and its name
under the second it expires in. -/
def put (c : DNSCache) (e : cacheEntry) (ip : Addr) : DNSCache :=
  ({ c with forward := c.forward.insert e.name ((c.entriesOf e.name).insert ip e) }.upsertReverse
    ip e).addNameToCleanup e

theorem entryAt_eq (c : DNSCache) (n : String) (ip : Addr) :
    c.entryAt n ip = (c.entriesOf n).lookup ip := by
  unfold entryAt entriesOf
  cases c.forward.lookup n <;> rfl

theorem newer_newer (o : Option cacheEntry) (e : cacheEntry) :
    newer (some (newer o e)) e = newer o e := by
  cases o with
  | none => simp [newer, cacheEntry.isExpiredBy]
  | some old =>
    by_cases h : old.isExpiredBy e.expirationTime = true
    · have hnew : newer (some old) e = e := if_pos h
      rw [hnew]
      simp only [newer, ite_self]
    · have hnew : newer (some old) e = old := if_neg h
      rw [hnew, hnew]

/-! ### The fields an insertion writes -/

@[simp] theorem reverse_addNameToCleanup : (c.addNameToCleanup e).reverse = c.reverse := by
  unfold addNameToCleanup
  split <;> rfl

@[simp] theorem overLimit_addNameToCleanup : (c.addNameToCleanup e).overLimit = c.overLimit := by
  unfold addNameToCleanup
  split <;> rfl

@[simp] theorem perHostLimit_addNameToCleanup :
    (c.addNameToCleanup e).perHostLimit = c.perHostLimit := by
  unfold addNameToCleanup
  split <;> rfl

theorem cleanup_isSome_addNameToCleanup :
    (c.addNameToCleanup e).cleanup.isSome = c.cleanup.isSome := by
  unfold addNameToCleanup
  split <;> simp_all

theorem lastCleanup_addNameToCleanup (h : c.cleanup.isSome) :
    (c.addNameToCleanup e).lastCleanup =
      if c.lastCleanup = zeroTime ∨ e.expirationTime < c.lastCleanup then e.expirationTime
      else c.lastCleanup := by
  unfold addNameToCleanup
  split
  · simp_all
  · rfl

theorem bucket_addNameToCleanup (h : c.cleanup.isSome) (k : ℤ) :
    (c.addNameToCleanup e).bucket k =
      if k = unix e.expirationTime then c.bucket k ++ [e.name] else c.bucket k := by
  unfold addNameToCleanup bucket
  split
  · simp_all
  · rename_i cl hcl
    by_cases hk : k = unix e.expirationTime
    · subst hk
      simp [hcl]
    · simp [hcl, AList.lookup_insert_ne hk, hk]

@[simp] theorem forward_put :
    (c.put e ip).forward = c.forward.insert e.name ((c.entriesOf e.name).insert ip e) := by
  simp [put]

@[simp] theorem reverse_put :
    (c.put e ip).reverse = c.reverse.insert ip (((c.reverse.lookup ip).getD ∅).insert e.name e) := by
  simp [put, upsertReverse]

@[simp] theorem overLimit_put : (c.put e ip).overLimit = c.overLimit := by
  simp [put, upsertReverse]

@[simp] theorem perHostLimit_put : (c.put e ip).perHostLimit = c.perHostLimit := by
  simp [put, upsertReverse]

theorem cleanup_isSome_put : (c.put e ip).cleanup.isSome = c.cleanup.isSome := by
  rw [put, cleanup_isSome_addNameToCleanup]
  rfl

theorem lastCleanup_put (h : c.cleanup.isSome) :
    (c.put e ip).lastCleanup =
      if c.lastCleanup = zeroTime ∨ e.expirationTime < c.lastCleanup then e.expirationTime
      else c.lastCleanup :=
  lastCleanup_addNameToCleanup h

theorem bucket_put (h : c.cleanup.isSome) (k : ℤ) :
    (c.put e ip).bucket k =
      if k = unix e.expirationTime then c.bucket k ++ [e.name] else c.bucket k := by
  unfold put
  rw [bucket_addNameToCleanup (by exact h)]
  rfl

theorem entriesOf_put :
    (c.put e ip).entriesOf n =
      if n = e.name then (c.entriesOf e.name).insert ip e else c.entriesOf n := by
  by_cases hn : n = e.name
  · subst hn
    rw [if_pos rfl, entriesOf, forward_put, AList.lookup_insert, Option.getD_some]
  · rw [if_neg hn, entriesOf, forward_put, AList.lookup_insert_ne hn, entriesOf]

theorem entryAt_put :
    (c.put e ip).entryAt n ip' = if n = e.name ∧ ip' = ip then some e else c.entryAt n ip' := by
  rw [entryAt_eq, entryAt_eq, entriesOf_put]
  by_cases hn : n = e.name
  · subst hn
    by_cases hip : ip' = ip
    · subst hip
      simp [AList.lookup_insert]
    · simp [AList.lookup_insert_ne hip, hip]
  · simp [hn]

theorem reverseAt_put :
    (c.put e ip).reverseAt ip' n = if ip' = ip ∧ n = e.name then some e else c.reverseAt ip' n := by
  unfold reverseAt
  rw [reverse_put]
  by_cases hip : ip' = ip
  · subst hip
    rw [AList.lookup_insert, Option.bind_some]
    by_cases hn : n = e.name
    · subst hn
      simp [AList.lookup_insert]
    · simp only [AList.lookup_insert_ne hn, hn, and_false, if_false]
      cases c.reverse.lookup ip' <;> rfl
  · simp [AList.lookup_insert_ne hip, hip]

/-! ### One IP of an insertion -/

/-- The cache that `updateWithEntryIP` leaves, which does not depend on the status. -/
def takeIP (c : DNSCache) (e : cacheEntry) (ip : Addr) : DNSCache :=
  if ((c.entriesOf e.name).lookup ip).all (·.isExpiredBy e.expirationTime) then c.put e ip else c

theorem updateWithEntryIP_fst (c : DNSCache) (e : cacheEntry) (st : UpdateStatus) (ip : Addr) :
    (c.updateWithEntryIP e st ip).1 = c.takeIP e ip := by
  unfold updateWithEntryIP takeIP
  dsimp only
  split <;> rfl

/-- `newer` as `updateWithEntryIP` decides it: the entry, when the old one is expired by it. -/
theorem newer_eq (o : Option cacheEntry) (e : cacheEntry) :
    newer o e = if o.all (·.isExpiredBy e.expirationTime) then e else o.getD e := by
  cases o <;> rfl

theorem entryAt_takeIP :
    (c.takeIP e ip).entryAt n ip' =
      if n = e.name ∧ ip' = ip then some (newer (c.entryAt n ip') e) else c.entryAt n ip' := by
  unfold takeIP
  by_cases hpair : n = e.name ∧ ip' = ip
  · rw [if_pos hpair, hpair.1, hpair.2, entryAt_eq c, newer_eq]
    split_ifs with hput
    · rw [entryAt_put, if_pos ⟨rfl, rfl⟩]
    · -- an entry that expires no earlier stays
      rw [entryAt_eq c]
      cases hold : (c.entriesOf e.name).lookup ip with
      | none => simp [hold] at hput
      | some old => rfl
  · rw [if_neg hpair]
    split_ifs
    · rw [entryAt_put, if_neg hpair]
    · rfl

theorem reverseAt_takeIP (h : ∀ n ip, c.entryAt n ip = c.reverseAt ip n) :
    (c.takeIP e ip).reverseAt ip' n = (c.takeIP e ip).entryAt n ip' := by
  unfold takeIP
  split_ifs
  · rw [reverseAt_put, entryAt_put, h]
    simp only [and_comm]
  · rw [h]

theorem forward_lookup_takeIP_ne (hm : m ≠ e.name) :
    (c.takeIP e ip).forward.lookup m = c.forward.lookup m := by
  unfold takeIP
  split_ifs
  · rw [forward_put, AList.lookup_insert_ne hm]
  · rfl

theorem reverse_nonempty_takeIP
    (hrev : ∀ ip es, c.reverse.lookup ip = some es → es.entries ≠ [])
    {es : nameEntries} (hes : (c.takeIP e ip).reverse.lookup ip' = some es) : es.entries ≠ [] := by
  unfold takeIP at hes
  split_ifs at hes
  · rw [reverse_put] at hes
    by_cases hip : ip' = ip
    · subst hip
      rw [AList.lookup_insert, Option.some_inj] at hes
      simp [← hes, AList.entries_insert]
    · exact hrev _ _ (by rwa [AList.lookup_insert_ne hip] at hes)
  · exact hrev _ _ hes

@[simp] theorem perHostLimit_takeIP : (c.takeIP e ip).perHostLimit = c.perHostLimit := by
  unfold takeIP
  split_ifs <;> simp

@[simp] theorem overLimit_takeIP : (c.takeIP e ip).overLimit = c.overLimit := by
  unfold takeIP
  split_ifs <;> simp

theorem cleanup_isSome_takeIP : (c.takeIP e ip).cleanup.isSome = c.cleanup.isSome := by
  unfold takeIP
  split_ifs
  · exact cleanup_isSome_put
  · rfl

/-! ### The IPs of an insertion -/

theorem updateWithEntryIPs_fst (c : DNSCache) (e : cacheEntry) :
    (c.updateWithEntryIPs e).1 = e.ips.foldl (fun c ip => c.takeIP e ip) c := by
  unfold updateWithEntryIPs
  suffices h : ∀ (l : List Addr) (c : DNSCache) (st : UpdateStatus),
      (l.foldl (fun (cs : DNSCache × UpdateStatus) x => cs.1.updateWithEntryIP e cs.2 x)
        (c, st)).1 = l.foldl (fun c ip => c.takeIP e ip) c from h e.ips c ⟨false, false⟩
  intro l
  induction l with
  | nil => intro c st; rfl
  | cons x l ih =>
    intro c st
    rw [List.foldl_cons, List.foldl_cons, ih, updateWithEntryIP_fst]

theorem entryAt_foldl_takeIP (l : List Addr) (c : DNSCache) :
    (l.foldl (fun c ip => c.takeIP e ip) c).entryAt n ip' =
      if n = e.name ∧ ip' ∈ l then some (newer (c.entryAt n ip') e) else c.entryAt n ip' := by
  induction l generalizing c with
  | nil => simp
  | cons x l ih =>
    rw [List.foldl_cons, ih, entryAt_takeIP]
    -- the IP met again keeps what its first insertion left
    by_cases hn : n = e.name
    · by_cases hx : ip' = x
      · simp [hn, hx, newer_newer]
      · simp [hn, hx]
    · simp [hn]

/-! ### An insertion -/

/-- The loop of `updateWithEntry` over the IPs, after the name gets its entries. -/
def takeIPs (c : DNSCache) (e : cacheEntry) : DNSCache :=
  e.ips.foldl (fun c ip => c.takeIP e ip)
    { c with forward := c.forward.insert e.name (c.entriesOf e.name) }

theorem updateWithEntry_fst (c : DNSCache) (e : cacheEntry) :
    (c.updateWithEntry e).1 =
      if 0 < (c.takeIPs e).perHostLimit ∧
          (c.takeIPs e).perHostLimit < (((c.takeIPs e).entriesOf e.name).entries.length : ℤ) then
        { c.takeIPs e with overLimit := (c.takeIPs e).overLimit.insert e.name }
      else c.takeIPs e := by
  rw [takeIPs, ← updateWithEntryIPs_fst]
  rfl

/-- Past the loop over the IPs an insertion only marks the name over the limit. -/
theorem exists_updateWithEntry_eq (c : DNSCache) (e : cacheEntry) :
    ∃ l, (c.updateWithEntry e).1 = { c.takeIPs e with overLimit := l } := by
  rw [updateWithEntry_fst]
  split_ifs
  · exact ⟨_, rfl⟩
  · exact ⟨_, rfl⟩

theorem entryAt_insert_entriesOf :
    ({ c with forward := c.forward.insert m (c.entriesOf m) } : DNSCache).entryAt n ip =
      c.entryAt n ip := by
  rw [entryAt_eq, entryAt_eq, entriesOf_insert]
  split_ifs with h
  · rw [h]
  · rfl

theorem entryAt_takeIPs :
    (c.takeIPs e).entryAt n ip =
      if n = e.name ∧ ip ∈ e.ips then some (newer (c.entryAt n ip) e) else c.entryAt n ip := by
  rw [takeIPs, entryAt_foldl_takeIP, entryAt_insert_entriesOf]

/-- What an insertion stores: for its name and each of its IPs the entry, unless the one there
expires no earlier. -/
theorem entryAt_updateWithEntry :
    (c.updateWithEntry e).1.entryAt n ip =
      if n = e.name ∧ ip ∈ e.ips then some (newer (c.entryAt n ip) e) else c.entryAt n ip := by
  obtain ⟨l, hl⟩ := exists_updateWithEntry_eq c e
  rw [hl]
  exact entryAt_takeIPs

theorem newer_eq_or (o : Option cacheEntry) (e : cacheEntry) :
    newer o e = e ∨ o = some (newer o e) := by
  cases o with
  | none => exact .inl rfl
  | some old =>
    simp only [newer]
    split_ifs
    · exact .inl rfl
    · exact .inr rfl

theorem forward_lookup_takeIPs_ne (hm : m ≠ e.name) :
    (c.takeIPs e).forward.lookup m = c.forward.lookup m :=
  List.foldlRecOn (motive := fun d : DNSCache => d.forward.lookup m = c.forward.lookup m)
    _ _ (AList.lookup_insert_ne hm) fun d hd _ _ => by rw [forward_lookup_takeIP_ne hm, hd]

@[simp] theorem perHostLimit_takeIPs : (c.takeIPs e).perHostLimit = c.perHostLimit :=
  List.foldlRecOn (motive := fun d : DNSCache => d.perHostLimit = c.perHostLimit)
    _ _ rfl fun d hd _ _ => by rw [perHostLimit_takeIP, hd]

@[simp] theorem perHostLimit_updateWithEntry :
    (c.updateWithEntry e).1.perHostLimit = c.perHostLimit := by
  obtain ⟨l, hl⟩ := exists_updateWithEntry_eq c e
  rw [hl]
  exact perHostLimit_takeIPs

theorem Mirrored.takeIPs (h : c.Mirrored) (hne : e.ips ≠ []) : (c.takeIPs e).Mirrored := by
  -- the two invariants of the loop over the IPs
  have hmirror : ∀ n ip, (c.takeIPs e).entryAt n ip = (c.takeIPs e).reverseAt ip n := by
    refine List.foldlRecOn (motive := fun d : DNSCache => ∀ n ip, d.entryAt n ip = d.reverseAt ip n)
      _ _ ?_ fun d hd ip _ => ?_
    · intro n ip
      rw [entryAt_insert_entriesOf]
      exact Option.ext (h.mirror n ip)
    · intro n ip'
      rw [reverseAt_takeIP hd]
  have hrev : ∀ ip es, (c.takeIPs e).reverse.lookup ip = some es → es.entries ≠ [] :=
    List.foldlRecOn (motive := fun d : DNSCache => ∀ ip es, d.reverse.lookup ip = some es →
      es.entries ≠ []) _ _ h.reverse_nonempty fun d hd _ _ _ _ hes => reverse_nonempty_takeIP hd hes
  refine ⟨fun n ip x => Eq.congr_left (hmirror n ip), fun n ip x hx => ?_, fun n es hes => ?_, hrev⟩
  · change (c.takeIPs e).entryAt n ip = some x at hx
    rw [entryAt_takeIPs] at hx
    split_ifs at hx with hpair
    · rw [Option.some_inj] at hx
      rcases newer_eq_or (c.entryAt n ip) e with hnew | hold
      · rw [← hx, hnew, hpair.1]
        exact ⟨rfl, hpair.2⟩
      · rw [hx] at hold
        exact h.name_ip n ip x hold
    · exact h.name_ip n ip x hx
  · by_cases hm : n = e.name
    · -- the name holds the entry at its first IP
      subst hm
      obtain ⟨ip, hip⟩ := List.exists_mem_of_ne_nil _ hne
      have hsome : (es.lookup ip).isSome := by
        have hx : (c.takeIPs e).entryAt e.name ip = some (newer (c.entryAt e.name ip) e) := by
          rw [entryAt_takeIPs, if_pos ⟨rfl, hip⟩]
        rw [entryAt, hes, Option.bind_some] at hx
        rw [hx]
        rfl
      intro hnil
      simp [AList.lookup, hnil] at hsome
    · rw [forward_lookup_takeIPs_ne hm] at hes
      exact h.forward_nonempty n es hes

theorem Mirrored.updateWithEntry (h : c.Mirrored) (hne : e.ips ≠ []) :
    (c.updateWithEntry e).1.Mirrored := by
  have hd := h.takeIPs hne
  obtain ⟨l, hl⟩ := exists_updateWithEntry_eq c e
  rw [hl]
  exact ⟨hd.mirror, hd.name_ip, hd.forward_nonempty, hd.reverse_nonempty⟩

/-! ### The removal of a pair -/

/-- The removal of one name-IP pair, as `removeExpired` and `cleanupOverLimitEntries` make it:
`delete(entries, ip)`, then `remove`. -/
def removePair (c : DNSCache) (n : String) (ip : Addr) (e : cacheEntry) : DNSCache :=
  (c.deleteAt n ip).remove ip e

/-- An inner map stored at a key, or the key dropped when the map is empty. -/
theorem lookup_dropOrInsert {κ ι : Type} [DecidableEq κ] [DecidableEq ι]
    (m : AList fun _ : κ => AList fun _ : ι => cacheEntry) (key k : κ)
    (s : AList fun _ : ι => cacheEntry) :
    (if s.entries = [] then m.erase key else m.insert key s).lookup k =
      if k = key then (if s.entries = [] then none else some s) else m.lookup k := by
  by_cases hk : k = key
  · subst hk
    split <;> simp [AList.lookup_erase, AList.lookup_insert]
  · split <;> simp [AList.lookup_erase_ne hk, AList.lookup_insert_ne hk]

theorem bind_lookup_dropEmpty {ι : Type} [DecidableEq ι] (s : AList fun _ : ι => cacheEntry)
    (a : ι) : (if s.entries = [] then none else some s).bind (·.lookup a) = s.lookup a := by
  split
  · next hs => simp [AList.lookup, hs]
  · rfl

theorem erase_erase_self {ι : Type} [DecidableEq ι] (s : AList fun _ : ι => cacheEntry) (a : ι) :
    (s.erase a).erase a = s.erase a := by
  apply AList.ext
  have ha : a ∉ (s.erase a).entries.keys := by
    rw [← AList.keys, ← AList.mem_keys, AList.mem_erase]
    exact fun h => h.1 rfl
  exact List.kerase_of_notMem_keys ha

@[simp] theorem reverse_deleteAt (c : DNSCache) (n : String) (ip : Addr) :
    (c.deleteAt n ip).reverse = c.reverse := by
  unfold deleteAt
  split <;> rfl

@[simp] theorem reverse_removeForward (c : DNSCache) (ip : Addr) (e : cacheEntry) :
    (c.removeForward ip e).reverse = c.reverse := by
  unfold removeForward
  split <;> rfl

@[simp] theorem forward_removeReverse (c : DNSCache) (ip : Addr) (e : cacheEntry) :
    (c.removeReverse ip e).forward = c.forward := by
  unfold removeReverse
  split <;> rfl

/-- A removal writes the two maps only. -/
theorem exists_removePair_eq (c : DNSCache) (n : String) (ip : Addr) (e : cacheEntry) :
    ∃ f r, c.removePair n ip e = { c with forward := f, reverse := r } := by
  unfold removePair remove removeReverse removeForward deleteAt
  repeat' split
  all_goals exact ⟨_, _, rfl⟩

section removePair

variable (he : e.name = n)
include he

theorem forward_lookup_removePair :
    (c.removePair n ip e).forward.lookup m =
      if m = n then (c.forward.lookup n).bind fun es =>
        if (es.erase ip).entries = [] then none else some (es.erase ip)
      else c.forward.lookup m := by
  subst he
  unfold removePair remove deleteAt
  rw [forward_removeReverse]
  cases hl : c.forward.lookup e.name with
  | none =>
    unfold removeForward
    rw [hl]
    by_cases hm : m = e.name
    · subst hm
      simp [hl]
    · simp [hm]
  | some es =>
    unfold removeForward
    simp only [AList.lookup_insert, erase_erase_self]
    rw [lookup_dropOrInsert]
    by_cases hm : m = e.name
    · subst hm
      simp
    · simp only [hm, if_false, AList.lookup_insert_ne hm]

theorem reverse_lookup_removePair :
    (c.removePair n ip e).reverse.lookup ip' =
      if ip' = ip then (c.reverse.lookup ip).bind fun es =>
        if (es.erase n).entries = [] then none else some (es.erase n)
      else c.reverse.lookup ip' := by
  subst he
  unfold removePair remove removeReverse
  simp only [reverse_removeForward, reverse_deleteAt]
  cases hl : c.reverse.lookup ip with
  | none =>
    by_cases hip : ip' = ip
    · subst hip
      simp [hl]
    · simp [hip]
  | some es =>
    simp only
    rw [lookup_dropOrInsert]
    by_cases hip : ip' = ip
    · subst hip
      simp
    · simp only [hip, if_false]

theorem entryAt_removePair :
    (c.removePair n ip e).entryAt m ip' = if m = n ∧ ip' = ip then none else c.entryAt m ip' := by
  unfold entryAt
  rw [forward_lookup_removePair he]
  by_cases hm : m = n
  · subst hm
    rw [if_pos rfl]
    cases c.forward.lookup m with
    | none => simp
    | some es =>
      rw [Option.bind_some, Option.bind_some, bind_lookup_dropEmpty]
      by_cases hip : ip' = ip
      · subst hip
        simp [AList.lookup_erase]
      · simp [AList.lookup_erase_ne hip, hip]
  · simp [hm]

theorem reverseAt_removePair :
    (c.removePair n ip e).reverseAt ip' m = if ip' = ip ∧ m = n then none else c.reverseAt ip' m := by
  unfold reverseAt
  rw [reverse_lookup_removePair he]
  by_cases hip : ip' = ip
  · subst hip
    rw [if_pos rfl]
    cases c.reverse.lookup ip' with
    | none => simp
    | some es =>
      rw [Option.bind_some, Option.bind_some, bind_lookup_dropEmpty]
      by_cases hm : m = n
      · subst hm
        simp [AList.lookup_erase]
      · simp [AList.lookup_erase_ne hm, hm]
  · simp [hip]

theorem entriesOf_removePair :
    (c.removePair n ip e).entriesOf m = if m = n then (c.entriesOf n).erase ip else c.entriesOf m := by
  unfold entriesOf
  rw [forward_lookup_removePair he]
  by_cases hm : m = n
  · subst hm
    rw [if_pos rfl, if_pos rfl]
    cases c.forward.lookup m with
    | none => exact AList.ext rfl
    | some es =>
      rw [Option.bind_some, Option.getD_some]
      split
      · next hs => exact AList.ext hs.symm
      · rfl
  · rw [if_neg hm, if_neg hm]

/-- A removal keeps the maps mirrored: it takes the pair out of both. -/
theorem Mirrored.removePair (h : c.Mirrored) : (c.removePair n ip e).Mirrored := by
  refine ⟨fun m ip' x => ?_, fun m ip' x hx => ?_, fun m es hes => ?_, fun ip' es hes => ?_⟩
  · change (c.removePair n ip e).entryAt m ip' = some x ↔ (c.removePair n ip e).reverseAt ip' m = some x
    rw [entryAt_removePair he, reverseAt_removePair he]
    simp only [and_comm]
    split
    · exact Iff.rfl
    · exact h.mirror m ip' x
  · change (c.removePair n ip e).entryAt m ip' = some x at hx
    rw [entryAt_removePair he] at hx
    split at hx
    · cases hx
    · exact h.name_ip m ip' x hx
  · rw [forward_lookup_removePair he] at hes
    split at hes
    · -- what stays of the name's entries is kept only when it is not empty
      obtain ⟨es0, -, hes0⟩ := Option.bind_eq_some_iff.mp hes
      split at hes0
      · cases hes0
      · next hne => rw [← Option.some_inj.mp hes0]; exact hne
    · exact h.forward_nonempty m es hes
  · rw [reverse_lookup_removePair he] at hes
    split at hes
    · obtain ⟨es0, -, hes0⟩ := Option.bind_eq_some_iff.mp hes
      split at hes0
      · cases hes0
      · next hne => rw [← Option.some_inj.mp hes0]; exact hne
    · exact h.reverse_nonempty ip' es hes

end removePair

/-! ### Removals of several pairs -/

/-- The removals of pairs of one name, one after the other. -/
def removeAll (c : DNSCache) (n : String) (ps : List (Addr × cacheEntry)) : DNSCache :=
  ps.foldl (fun c p => c.removePair n p.1 p.2) c

/-- The pairs of a name that `removeExpired` takes. -/
def expiredPairs (c : DNSCache) (name : String) (now expireLookupsBefore : ℤ) :
    List (Addr × cacheEntry) :=
  ((c.entriesOf name).entries.filter fun e => e.2.dueBy now expireLookupsBefore).map
    fun e => (e.1, e.2)

/-- A loop whose every round writes only the two maps writes only them. -/
theorem exists_foldl_eq_maps {β : Type} (step : DNSCache → β → DNSCache)
    (hstep : ∀ d x, ∃ f r, step d x = { d with forward := f, reverse := r }) (l : List β)
    (c : DNSCache) : ∃ f r, l.foldl step c = { c with forward := f, reverse := r } := by
  refine List.foldlRecOn (motive := fun d : DNSCache => ∃ f r, d = { c with forward := f, reverse := r })
    _ _ ⟨c.forward, c.reverse, rfl⟩ fun d hd x _ => ?_
  obtain ⟨f, r, rfl⟩ := hd
  exact hstep _ x

theorem exists_removeAll_eq (c : DNSCache) (n : String) (ps : List (Addr × cacheEntry)) :
    ∃ f r, c.removeAll n ps = { c with forward := f, reverse := r } :=
  exists_foldl_eq_maps _ (fun d (p : Addr × cacheEntry) => exists_removePair_eq d n p.1 p.2) ps c

section removeAll

variable {ps : List (Addr × cacheEntry)} (hps : ∀ p ∈ ps, p.2.name = n)
include hps

theorem entryAt_removeAll :
    (c.removeAll n ps).entryAt m ip =
      if m = n ∧ ip ∈ ps.map Prod.fst then none else c.entryAt m ip := by
  induction ps generalizing c with
  | nil => simp [removeAll]
  | cons p ps ih =>
    rw [removeAll, List.foldl_cons, ← removeAll,
      ih fun q hq => hps q (List.mem_cons_of_mem p hq),
      entryAt_removePair (hps p List.mem_cons_self)]
    by_cases hm : m = n
    · subst hm
      simp only [true_and, List.map_cons, List.mem_cons]
      by_cases hip : ip = p.1
      · simp [hip]
      · simp only [hip, false_or, if_false]
    · simp [hm]

theorem Mirrored.removeAll (h : c.Mirrored) : (c.removeAll n ps).Mirrored :=
  List.foldlRecOn (motive := fun d : DNSCache => d.Mirrored) _ _ h
    fun _ hd p hp => hd.removePair (hps p hp)

theorem entriesOf_removeAll :
    (c.removeAll n ps).entriesOf m =
      if m = n then ps.foldl (fun s p => s.erase p.1) (c.entriesOf n) else c.entriesOf m := by
  induction ps generalizing c with
  | nil =>
    simp only [removeAll, List.foldl_nil]
    split_ifs with hm
    · rw [hm]
    · rfl
  | cons p ps ih =>
    rw [removeAll, List.foldl_cons, ← removeAll,
      ih fun q hq => hps q (List.mem_cons_of_mem p hq)]
    split_ifs with hm
    · rw [entriesOf_removePair (hps p List.mem_cons_self), if_pos rfl, List.foldl_cons]
    · rw [entriesOf_removePair (hps p List.mem_cons_self), if_neg hm]

end removeAll

/-- Erasing distinct keys of an inner map, one by one, takes as many entries away. -/
theorem length_foldl_erase {ι : Type} [DecidableEq ι] (ks : List ι) (hks : ks.Nodup)
    (s : AList fun _ : ι => cacheEntry) (hmem : ∀ k ∈ ks, k ∈ s) :
    (ks.foldl (fun s k => s.erase k) s).entries.length = s.entries.length - ks.length := by
  induction ks generalizing s with
  | nil => simp
  | cons k ks ih =>
    have hk : k ∈ s.keys := AList.mem_keys.mp (hmem k List.mem_cons_self)
    have hkl : ∀ t : AList fun _ : ι => cacheEntry, t.entries.length = t.keys.length :=
      fun t => by simp [AList.keys, List.keys]
    have hlen : (s.erase k).entries.length = s.entries.length - 1 := by
      rw [hkl, hkl s, AList.keys_erase, List.length_erase_of_mem hk]
    rw [List.foldl_cons, ih (List.nodup_cons.mp hks).2 _ fun k' hk' => ?_, hlen,
      List.length_cons]
    · omega
    · rw [AList.mem_erase]
      exact ⟨fun h => (List.nodup_cons.mp hks).1 (h ▸ hk'), hmem k' (List.mem_cons_of_mem k hk')⟩

theorem removeExpired_eq (c : DNSCache) (name : String) (now expireLookupsBefore : ℤ) :
    c.removeExpired name now expireLookupsBefore =
      (c.removeAll name (c.expiredPairs name now expireLookupsBefore),
        c.expiredPairs name now expireLookupsBefore) := by
  unfold removeExpired expiredPairs removeAll
  -- the loop over the entries, from any cache and list of removed pairs
  suffices h : ∀ (l : List (Σ _ : Addr, cacheEntry)) (d : DNSCache) (removed : List (Addr × cacheEntry)),
      l.foldl (fun (cr : DNSCache × List (Addr × cacheEntry)) e =>
        if e.2.isExpiredBy now ∨ e.2.lookupTime < expireLookupsBefore then
          ((cr.1.deleteAt name e.1).remove e.1 e.2, cr.2 ++ [(e.1, e.2)])
        else (cr.1, cr.2)) (d, removed) =
      (((l.filter fun e => e.2.dueBy now expireLookupsBefore).map fun e => (e.1, e.2)).foldl
          (fun c p => c.removePair name p.1 p.2) d,
        removed ++ (l.filter fun e => e.2.dueBy now expireLookupsBefore).map fun e => (e.1, e.2)) by
    simpa using h (c.entriesOf name).entries c []
  intro l
  induction l with
  | nil => simp
  | cons x l ih =>
    intro d removed
    by_cases hx : x.2.isExpiredBy now = true ∨ x.2.lookupTime < expireLookupsBefore
    · rw [List.foldl_cons, if_pos hx, ih]
      simp [cacheEntry.dueBy, hx, removePair]
    · rw [List.foldl_cons, if_neg hx, ih]
      simp [cacheEntry.dueBy, hx]

end DNSCache

end Cilium.Fqdn.Cache
