import Cilium.Fqdn.CacheSteps
import Cilium.Lib.Trace

/-! The calls of `cache.go` through the lookups.  `removeExpired` takes the due pairs of a name,
and the loops of `ForceExpire` and `ForceExpireByNames` repeat it over names.  `GC` first runs
the loop over the seconds from `lastCleanup` to `now`, which hands over the names that may hold
expired entries, and then cuts each name over the limit down to it, dropping the IPs that expire
first.  The updates from other caches are loops of `updateWithEntry`. -/

namespace Cilium.Fqdn.Cache

open Cilium.Ipcache

namespace DNSCache

variable {c : DNSCache} {e : cacheEntry} {n m name : String} {ip : Addr} {now t : ℤ}

/-! ### `removeExpired` -/

theorem mem_expiredPairs {p : Addr × cacheEntry} :
    p ∈ c.expiredPairs name now t ↔ c.entryAt name p.1 = some p.2 ∧ p.2.dueBy now t = true := by
  unfold expiredPairs
  rw [List.mem_map, entryAt_eq]
  constructor
  · rintro ⟨x, hx, rfl⟩
    rw [List.mem_filter] at hx
    exact ⟨AList.mem_lookup_iff.mpr hx.1, hx.2⟩
  · rintro ⟨hat, hdue⟩
    exact ⟨⟨p.1, p.2⟩, List.mem_filter.mpr ⟨AList.mem_lookup_iff.mp hat, hdue⟩, rfl⟩

theorem name_of_mem_expiredPairs (h : c.Mirrored) {p : Addr × cacheEntry}
    (hp : p ∈ c.expiredPairs name now t) : p.2.name = name :=
  (h.name_ip _ _ _ (mem_expiredPairs.mp hp).1).1

/-- An IP is among the expired pairs of a name exactly when its entry is due. -/
theorem mem_map_expiredPairs :
    ip ∈ (c.expiredPairs name now t).map Prod.fst ↔
      (c.entryAt name ip).any (·.dueBy now t) = true := by
  rw [List.mem_map, Option.any_eq_true]
  constructor
  · rintro ⟨p, hp, rfl⟩
    exact ⟨p.2, mem_expiredPairs.mp hp⟩
  · rintro ⟨x, hx, hdue⟩
    exact ⟨(ip, x), mem_expiredPairs.mpr ⟨hx, hdue⟩, rfl⟩

theorem entryAt_removeExpired (h : c.Mirrored) :
    (c.removeExpired name now t).1.entryAt m ip =
      if m = name ∧ (c.entryAt m ip).any (·.dueBy now t) then none else c.entryAt m ip := by
  rw [removeExpired_eq, entryAt_removeAll fun p hp => name_of_mem_expiredPairs h hp]
  by_cases hm : m = name
  · subst hm
    simp only [true_and, mem_map_expiredPairs]
  · simp [hm]

theorem Mirrored.removeExpired (h : c.Mirrored) : (c.removeExpired name now t).1.Mirrored := by
  rw [removeExpired_eq]
  exact h.removeAll fun p hp => name_of_mem_expiredPairs h hp

theorem exists_removeExpired_eq (c : DNSCache) (name : String) (now t : ℤ) :
    ∃ f r, (c.removeExpired name now t).1 = { c with forward := f, reverse := r } := by
  rw [removeExpired_eq]
  exact exists_removeAll_eq _ _ _

theorem removeExpired_of_not_mem (h : name ∉ c.forward) : c.removeExpired name now t = (c, []) := by
  have hnil : c.expiredPairs name now t = [] := by
    unfold expiredPairs entriesOf
    rw [AList.lookup_eq_none.mpr h]
    rfl
  rw [removeExpired_eq, hnil]
  rfl

theorem lastCleanup_removeExpired (c : DNSCache) (name : String) (now t : ℤ) :
    (c.removeExpired name now t).1.lastCleanup = c.lastCleanup := by
  obtain ⟨f, r, h⟩ := exists_removeExpired_eq c name now t
  rw [h]

/-- `removeExpired` keeps some of the stored pairs, with their entries. -/
theorem entryAt_of_removeExpired (h : c.Mirrored) {x : cacheEntry}
    (hx : (c.removeExpired name now t).1.entryAt m ip = some x) : c.entryAt m ip = some x := by
  rw [entryAt_removeExpired h] at hx
  split_ifs at hx
  exact hx

/-- The pairs `removeExpired` returns were stored and due. -/
theorem mem_removeExpired_snd (h : c.Mirrored) {p : Addr × cacheEntry}
    (hp : p ∈ (c.removeExpired name now t).2) :
    c.entryAt p.2.name p.1 = some p.2 ∧ p.2.dueBy now t = true := by
  rw [removeExpired_eq] at hp
  rw [name_of_mem_expiredPairs h hp]
  exact mem_expiredPairs.mp hp

/-! ### Loops over names -/

/-- `removeExpired` for each of the names in turn. -/
def expireNames (c : DNSCache) (names : List String) (now t : ℤ) : DNSCache :=
  names.foldl (fun c name => (c.removeExpired name now t).1) c

theorem entryAt_expireNames (names : List String) (h : c.Mirrored) :
    (c.expireNames names now t).entryAt m ip =
      if m ∈ names ∧ (c.entryAt m ip).any (·.dueBy now t) then none else c.entryAt m ip := by
  induction names generalizing c with
  | nil => simp [expireNames]
  | cons x names ih =>
    rw [expireNames, List.foldl_cons, ← expireNames, ih h.removeExpired, entryAt_removeExpired h]
    by_cases hm : m = x
    · -- a name met again has no due entry left
      subst hm
      by_cases hdue : (c.entryAt m ip).any (·.dueBy now t) = true <;> simp [hdue]
    · simp [hm]

theorem Mirrored.expireNames (names : List String) (h : c.Mirrored) :
    (c.expireNames names now t).Mirrored :=
  List.foldlRecOn (motive := fun d : DNSCache => d.Mirrored) _ _ h fun _ hd _ _ => hd.removeExpired

theorem exists_expireNames_eq (c : DNSCache) (names : List String) (now t : ℤ) :
    ∃ f r, c.expireNames names now t = { c with forward := f, reverse := r } :=
  exists_foldl_eq_maps _ (fun d name => exists_removeExpired_eq d name now t) names c

theorem forceExpireByNames_eq (c : DNSCache) (t : ℤ) (names : List String) :
    c.forceExpireByNames t names = c.expireNames names t t := by
  unfold forceExpireByNames expireNames
  congr 1
  funext d name
  split_ifs with hmem
  · rfl
  · rw [removeExpired_of_not_mem hmem]

theorem forceExpire_eq (c : DNSCache) (t : ℤ) (nameMatch : Option (String → Bool)) :
    c.forceExpire t nameMatch =
      c.expireNames (c.forward.keys.filter fun name => nameMatch.all (· name)) t t := by
  unfold forceExpire expireNames
  rw [List.foldl_filter]

/-! ### The loop over the seconds -/

theorem lt_truncateSecond_add (t : ℤ) : t < truncateSecond (t + second) := by
  unfold truncateSecond second
  omega

theorem unix_truncateSecond_add (t : ℤ) : unix (truncateSecond (t + second)) = unix t + 1 := by
  unfold unix truncateSecond second
  omega

theorem unix_mono {t t' : ℤ} (h : t ≤ t') : unix t ≤ unix t' := by
  unfold unix second
  omega

/-- What the loop of `cleanupExpiredEntries` does: it writes only the cleanup map and
`lastCleanup`, which it moves up to `expires` or past it, and it hands over the names of each
second that it passes, which it then forgets. -/
structure CleanupLoopSpec (expires : ℤ) (c : DNSCache) (names : List String)
    (r : DNSCache × List String) : Prop where
  frame : ∃ cl l, r.1 = { c with cleanup := cl, lastCleanup := l }
  tracked : r.1.cleanup.isSome = c.cleanup.isSome
  le : c.lastCleanup ≤ r.1.lastCleanup
  done : ¬ r.1.lastCleanup < expires
  names_sub : names ⊆ r.2
  handed : ∀ t, c.lastCleanup ≤ t → t < r.1.lastCleanup → c.bucket (unix t) ⊆ r.2
  kept : ∀ t, r.1.lastCleanup ≤ t → r.1.bucket (unix t) = c.bucket (unix t)

theorem cleanupLoop_spec (expires : ℤ) (c : DNSCache) (names : List String) :
    CleanupLoopSpec expires c names (cleanupLoop expires c names) := by
  fun_induction cleanupLoop expires c names with
  | case1 c names hlt key x cl hstep ih =>
    -- one round: the second's names are handed over and its key goes
    have hround : x.isSome = c.cleanup.isSome ∧
        (∀ k, ({ c with lastCleanup := truncateSecond (c.lastCleanup + second), cleanup := x } :
          DNSCache).bucket k = if k = key then [] else c.bucket k) ∧
        cl = names ++ c.bucket key := by
      unfold bucket
      cases hc : c.cleanup with
      | none =>
        simp only [hc, Prod.mk.injEq] at hstep
        obtain ⟨rfl, rfl⟩ := hstep
        simp
      | some m =>
        cases hk : m.lookup key with
        | none =>
          simp only [hc, hk, Prod.mk.injEq] at hstep
          obtain ⟨rfl, rfl⟩ := hstep
          refine ⟨rfl, fun k => ?_, by simp [hk]⟩
          split_ifs with hkey
          · rw [hkey]
            simp [hk]
          · rfl
        | some es =>
          simp only [hc, hk, Prod.mk.injEq] at hstep
          obtain ⟨rfl, rfl⟩ := hstep
          refine ⟨rfl, fun k => ?_, by simp [hk]⟩
          split_ifs with hkey
          · rw [hkey]
            simp [AList.lookup_erase]
          · simp [AList.lookup_erase_ne hkey]
    obtain ⟨hsome, hbucket, hcl⟩ := hround
    have hup := lt_truncateSecond_add c.lastCleanup
    have hunix := unix_truncateSecond_add c.lastCleanup
    refine ⟨?_, ih.tracked.trans hsome, le_trans hup.le ih.le, ih.done, ?_, ?_, ?_⟩
    · obtain ⟨cl', l', hr⟩ := ih.frame
      exact ⟨cl', l', hr⟩
    · exact fun a ha => ih.names_sub (hcl ▸ List.mem_append_left _ ha)
    · intro tm hlo hhi
      by_cases hkey : unix tm = key
      · -- the second of `lastCleanup` is handed over in this round
        rw [hkey]
        exact fun a ha => ih.names_sub (hcl ▸ List.mem_append_right _ ha)
      · have hge : truncateSecond (c.lastCleanup + second) ≤ tm := by
          have hne : unix tm ≠ unix c.lastCleanup := hkey
          have := unix_mono hlo
          unfold truncateSecond unix second at *
          omega
        have hb := hbucket (unix tm)
        rw [if_neg hkey] at hb
        rw [← hb]
        exact ih.handed tm hge hhi
    · intro tm hge
      have hkey : unix tm ≠ unix c.lastCleanup := by
        have := unix_mono (le_trans ih.le hge)
        dsimp only at this
        omega
      rw [ih.kept tm hge, hbucket, if_neg hkey]
  | case2 c names hge =>
    exact ⟨⟨c.cleanup, c.lastCleanup, rfl⟩, rfl, le_rfl, hge, List.Subset.refl _,
      fun tm hlo hhi => absurd (lt_of_le_of_lt hlo hhi) (lt_irrefl _), fun _ _ => rfl⟩

/-! ### `cleanupExpiredEntries` -/

theorem Mirrored.of_maps {d : DNSCache} (h : c.Mirrored) (hf : d.forward = c.forward)
    (hr : d.reverse = c.reverse) : d.Mirrored := by
  obtain ⟨hmirror, hname, hfwd, hrev⟩ := h
  refine ⟨?_, ?_, ?_, ?_⟩
  · rw [hf, hr]
    exact hmirror
  · rw [hf]
    exact hname
  · rw [hf]
    exact hfwd
  · rw [hr]
    exact hrev

/-- The loop over the handed names, when `lastCleanup` stays at `L`, is `expireNames`. -/
theorem foldl_removeExpired_lastCleanup {L : ℤ} (names : List String) (d : DNSCache)
    (hd : d.lastCleanup = L) :
    names.foldl (fun d name =>
        if name ∈ d.forward then (d.removeExpired name d.lastCleanup zeroTime).1 else d) d =
      d.expireNames names L zeroTime := by
  induction names generalizing d with
  | nil => rfl
  | cons name names ih =>
    rw [List.foldl_cons, expireNames, List.foldl_cons, ← expireNames]
    split_ifs with hmem
    · obtain ⟨f, r, hfr⟩ := exists_removeExpired_eq d name d.lastCleanup zeroTime
      rw [hd] at hfr ⊢
      exact ih _ (by rw [hfr])
    · rw [removeExpired_of_not_mem hmem]
      exact ih d hd

theorem cleanupExpiredEntries_fst (c : DNSCache) (expires : ℤ) (hc : c.lastCleanup ≠ zeroTime) :
    (c.cleanupExpiredEntries expires).1 =
      (cleanupLoop expires c []).1.expireNames (cleanupLoop expires c []).2.dedup
        (cleanupLoop expires c []).1.lastCleanup zeroTime := by
  unfold cleanupExpiredEntries
  rw [if_neg hc]
  generalize cleanupLoop expires c [] = r
  obtain ⟨d, names⟩ := r
  dsimp only
  rw [← foldl_removeExpired_lastCleanup _ d rfl]
  -- the loop's cache does not depend on the names and entries it collects
  refine (List.foldl_hom Prod.fst fun acc name => ?_).symm
  obtain ⟨d', affected, removed⟩ := acc
  dsimp only
  split_ifs <;> rfl

/-- The pairs that `cleanupExpiredEntries` removes were stored and were due at the new
`lastCleanup`. -/
theorem cleanupExpiredEntries_removed (c : DNSCache) (expires : ℤ) (hc : c.lastCleanup ≠ zeroTime)
    (h : c.Mirrored) :
    ∀ p ∈ (c.cleanupExpiredEntries expires).2.2, c.entryAt p.2.name p.1 = some p.2 ∧
      p.2.dueBy (cleanupLoop expires c []).1.lastCleanup zeroTime = true := by
  have hframe := (cleanupLoop_spec expires c []).frame
  unfold cleanupExpiredEntries
  rw [if_neg hc]
  generalize cleanupLoop expires c [] = r at hframe ⊢
  obtain ⟨d, names⟩ := r
  obtain ⟨cl, l, hd⟩ := hframe
  dsimp only at hd ⊢
  -- the loop keeps a mirrored part of `c` at `lastCleanup` and removes only due pairs of it
  refine (List.foldlRecOn (motive := fun acc : DNSCache × List String × List (Addr × cacheEntry) =>
      acc.1.lastCleanup = d.lastCleanup ∧ acc.1.Mirrored ∧
      (∀ m ip x, acc.1.entryAt m ip = some x → c.entryAt m ip = some x) ∧
      ∀ p ∈ acc.2.2, c.entryAt p.2.name p.1 = some p.2 ∧ p.2.dueBy d.lastCleanup zeroTime = true)
    _ _ ⟨rfl, h.of_maps (by rw [hd]) (by rw [hd]), fun m ip x hx => by rw [hd] at hx; exact hx,
      fun _ hp => absurd hp List.not_mem_nil⟩ fun acc hacc name _ => ?_).2.2.2
  obtain ⟨d', affected, removed⟩ := acc
  obtain ⟨hL, hM, hsub, hrem⟩ := hacc
  dsimp only at hL hM hsub hrem ⊢
  split_ifs with hmem
  · set res := d'.removeExpired name d'.lastCleanup zeroTime with hres
    have hM' : res.1.Mirrored := hM.removeExpired
    have hsub' : ∀ m ip x, res.1.entryAt m ip = some x → d'.entryAt m ip = some x :=
      fun _ _ _ hx => entryAt_of_removeExpired hM hx
    have hL' : res.1.lastCleanup = d'.lastCleanup := lastCleanup_removeExpired _ _ _ _
    have hrem' : ∀ p ∈ res.2, d'.entryAt p.2.name p.1 = some p.2 ∧
        p.2.dueBy d'.lastCleanup zeroTime = true :=
      fun _ hp => mem_removeExpired_snd hM hp
    -- the round's result, taken apart as the loop takes it
    clear_value res
    obtain ⟨d'', r⟩ := res
    refine ⟨hL'.trans hL, hM', fun m ip x hx => hsub m ip x (hsub' m ip x hx), fun p hp => ?_⟩
    rcases List.mem_append.mp hp with hp | hp
    · exact hrem p hp
    · obtain ⟨hat, hdue⟩ := hrem' p hp
      exact ⟨hsub _ _ _ hat, hL ▸ hdue⟩
  · exact ⟨hL, hM, hsub, hrem⟩

/-! ### `cleanupOverLimitEntries` -/

/-- The IPs of a name over the limit that `cleanupOverLimitEntries` drops: those that expire
first, as many as the name has over the limit. -/
def droppedOf (entries : ipEntries) (limit : ℤ) : List (Addr × cacheEntry) :=
  ((entries.entries.map fun e => (e.1, e.2)).insertionSort fun a b => expiresBefore a b).take
    ((entries.entries.length : ℤ) - limit).toNat

theorem pairwise_insertionSort_expiresBefore (l : List (Addr × cacheEntry)) :
    (l.insertionSort fun a b => expiresBefore a b).Pairwise
      fun a b => a.2.expirationTime ≤ b.2.expirationTime := by
  have htotal : Std.Total fun a b : Addr × cacheEntry => expiresBefore a b = true :=
    ⟨fun a b => by simp only [expiresBefore, decide_eq_true_eq]; omega⟩
  have htrans : IsTrans (Addr × cacheEntry) fun a b => expiresBefore a b = true :=
    ⟨fun a b c hab hbc => by simp only [expiresBefore, decide_eq_true_eq] at *; omega⟩
  exact (List.pairwise_insertionSort _ l).imp fun h => by simpa [expiresBefore] using h

/-- The sorted pairs of a name are its stored pairs. -/
theorem mem_insertionSort_entries {es : ipEntries} {p : Addr × cacheEntry} :
    p ∈ (es.entries.map fun e => (e.1, e.2)).insertionSort (fun a b => expiresBefore a b) ↔
      es.lookup p.1 = some p.2 := by
  rw [(List.perm_insertionSort _ _).mem_iff, List.mem_map]
  constructor
  · rintro ⟨x, hx, rfl⟩
    exact AList.mem_lookup_iff.mpr hx
  · intro hp
    exact ⟨⟨p.1, p.2⟩, AList.mem_lookup_iff.mp hp, rfl⟩

theorem mem_droppedOf {es : ipEntries} {limit : ℤ} {p : Addr × cacheEntry}
    (hp : p ∈ droppedOf es limit) : es.lookup p.1 = some p.2 :=
  mem_insertionSort_entries.mp (List.mem_of_mem_take hp)

theorem nodup_map_droppedOf (es : ipEntries) (limit : ℤ) :
    ((droppedOf es limit).map Prod.fst).Nodup := by
  have hkeys : ((es.entries.map fun e => (e.1, e.2)).map Prod.fst).Nodup := by
    rw [List.map_map]
    exact es.nodupKeys
  exact ((List.take_sublist _ _).map Prod.fst).nodup
    (((List.perm_insertionSort _ _).map Prod.fst).nodup_iff.mpr hkeys)

theorem length_droppedOf {es : ipEntries} {limit : ℤ} (hlimit : 0 ≤ limit) :
    (droppedOf es limit).length = ((es.entries.length : ℤ) - limit).toNat := by
  rw [droppedOf, List.length_take, List.length_insertionSort, List.length_map]
  omega

/-- A dropped IP expires no later than any IP of its name that is not dropped. -/
theorem expirationTime_le_of_mem_droppedOf {es : ipEntries} {limit : ℤ} {p : Addr × cacheEntry}
    (hp : p ∈ droppedOf es limit) {ip : Addr} {x : cacheEntry} (hx : es.lookup ip = some x)
    (hip : ip ∉ (droppedOf es limit).map Prod.fst) : p.2.expirationTime ≤ x.expirationTime := by
  set sorted := (es.entries.map fun e => (e.1, e.2)).insertionSort fun a b => expiresBefore a b
  set k := ((es.entries.length : ℤ) - limit).toNat
  have hmem : (ip, x) ∈ sorted := mem_insertionSort_entries.mpr hx
  have hkept : (ip, x) ∈ sorted.drop k := by
    rw [← List.take_append_drop k sorted, List.mem_append] at hmem
    rcases hmem with htake | hdrop
    · exact absurd (List.mem_map_of_mem (f := Prod.fst) htake) hip
    · exact hdrop
  have hsorted : sorted.Pairwise fun a b => a.2.expirationTime ≤ b.2.expirationTime :=
    pairwise_insertionSort_expiresBefore _
  rw [← List.take_append_drop k sorted, List.pairwise_append] at hsorted
  exact hsorted.2.2 p hp (ip, x) hkept

/-- What `cleanupOverLimitEntries` does: it removes stored pairs only, keeping the maps
mirrored, and writes nothing else but the list of names over the limit; when the limit is
positive and every name over it is in that list, no name stays over it; and each pair it removes
expires no later than any IP that its name keeps. -/
structure CutSpec (c : DNSCache) (r : DNSCache × List String × List (Addr × cacheEntry)) :
    Prop where
  mirrored : r.1.Mirrored
  sub : ∀ m ip x, r.1.entryAt m ip = some x → c.entryAt m ip = some x
  frame : ∃ f rv ol, r.1 = { c with forward := f, reverse := rv, overLimit := ol }
  bounded : 0 < c.perHostLimit →
    (∀ n, c.perHostLimit < (c.entriesOf n).entries.length → n ∈ c.overLimit) →
    ∀ n, ((r.1.entriesOf n).entries.length : ℤ) ≤ c.perHostLimit
  earliest : ∀ p ∈ r.2.2, c.entryAt p.2.name p.1 = some p.2 ∧
    ∀ ip x, r.1.entryAt p.2.name ip = some x → p.2.expirationTime ≤ x.expirationTime

/-- The invariant of the loop of `cleanupOverLimitEntries`, with the names still to visit. -/
structure CutLoopInv (c : DNSCache) (acc : DNSCache × List String × List (Addr × cacheEntry))
    (rest : List String) : Prop where
  mirrored : acc.1.Mirrored
  sub : ∀ m ip x, acc.1.entryAt m ip = some x → c.entryAt m ip = some x
  frame : ∃ f rv, acc.1 = { c with forward := f, reverse := rv }
  pending : 0 < c.perHostLimit →
    (∀ n, c.perHostLimit < (c.entriesOf n).entries.length → n ∈ c.overLimit) →
    ∀ n, c.perHostLimit < (acc.1.entriesOf n).entries.length → n ∈ rest
  earliest : ∀ p ∈ acc.2.2, c.entryAt p.2.name p.1 = some p.2 ∧
    ∀ ip x, acc.1.entryAt p.2.name ip = some x → p.2.expirationTime ≤ x.expirationTime

/-- One name of the loop of `cleanupOverLimitEntries`: a name over the limit is cut down to it. -/
theorem CutLoopInv.cut {d : DNSCache} {affected : List String} {removed : List (Addr × cacheEntry)}
    {n0 : String} {rest : List String} {es : ipEntries}
    (hI : CutLoopInv c (d, affected, removed) (n0 :: rest)) (hes : d.forward.lookup n0 = some es)
    (hover : 0 < (es.entries.length : ℤ) - d.perHostLimit) :
    CutLoopInv c (d.removeAll n0 (droppedOf es d.perHostLimit), affected ++ [n0],
      removed ++ droppedOf es d.perHostLimit) rest := by
  obtain ⟨f, rv, hd⟩ := hI.frame
  dsimp only at hd
  have hlim : d.perHostLimit = c.perHostLimit := by rw [hd]
  have hentries : d.entriesOf n0 = es := by rw [entriesOf, hes, Option.getD_some]
  have hat : ∀ p ∈ droppedOf es d.perHostLimit, d.entryAt n0 p.1 = some p.2 := fun p hp => by
    rw [entryAt_eq, hentries]
    exact mem_droppedOf hp
  have hps : ∀ p ∈ droppedOf es d.perHostLimit, p.2.name = n0 := fun p hp =>
    (hI.mirrored.name_ip n0 p.1 p.2 (hat p hp)).1
  have hsub : ∀ m ip x, (d.removeAll n0 (droppedOf es d.perHostLimit)).entryAt m ip = some x →
      d.entryAt m ip = some x := fun m ip x hx => by
    rw [entryAt_removeAll hps] at hx
    split_ifs at hx
    exact hx
  refine ⟨hI.mirrored.removeAll hps, fun m ip x hx => hI.sub m ip x (hsub m ip x hx), ?_,
    fun hpos hov n hn => ?_, fun p hp => ?_⟩
  · obtain ⟨f', rv', h'⟩ := exists_removeAll_eq d n0 (droppedOf es d.perHostLimit)
    rw [h', hd]
    exact ⟨f', rv', rfl⟩
  · rw [hlim.symm, entriesOf_removeAll hps] at hn
    split_ifs at hn with hn0
    · -- the name keeps exactly as many IPs as the limit
      have hlen := length_foldl_erase _ (nodup_map_droppedOf es d.perHostLimit) es
        fun k hk => by
          obtain ⟨p, hp, rfl⟩ := List.mem_map.mp hk
          exact AList.mem_lookup_iff.mp (mem_droppedOf hp) |> fun h =>
            AList.mem_keys.mpr (List.mem_keys_of_mem h)
      rw [List.foldl_map, List.length_map, length_droppedOf (by omega)] at hlen
      rw [hentries, hlen] at hn
      omega
    · rcases List.mem_cons.mp (hI.pending hpos hov n (by rw [← hlim]; exact hn)) with
        h | h
      · exact absurd h hn0
      · exact h
  · rcases List.mem_append.mp hp with hold | hnew
    · obtain ⟨hc, hle⟩ := hI.earliest p hold
      exact ⟨hc, fun ip x hx => hle ip x (hsub _ ip x hx)⟩
    · have hname := hps p hnew
      refine ⟨hname ▸ hI.sub _ _ _ (hat p hnew), fun ip x hx => ?_⟩
      rw [hname, entryAt_removeAll hps] at hx
      split_ifs at hx with hdrop
      rw [entryAt_eq, hentries] at hx
      exact expirationTime_le_of_mem_droppedOf hnew hx fun h => hdrop ⟨rfl, h⟩

/-- A name the loop of `cleanupOverLimitEntries` passes over keeps the invariant. -/
theorem CutLoopInv.skip {d : DNSCache} {affected : List String}
    {removed : List (Addr × cacheEntry)} {n0 : String} {rest : List String}
    (hI : CutLoopInv c (d, affected, removed) (n0 :: rest))
    (hle : 0 < d.perHostLimit → (d.entriesOf n0).entries.length ≤ d.perHostLimit) :
    CutLoopInv c (d, affected, removed) rest := by
  obtain ⟨f, rv, hd⟩ := hI.frame
  dsimp only at hd
  have hlim : d.perHostLimit = c.perHostLimit := by rw [hd]
  refine ⟨hI.mirrored, hI.sub, hI.frame, fun hpos hov n hn => ?_, hI.earliest⟩
  rcases List.mem_cons.mp (hI.pending hpos hov n hn) with h | h
  · subst h
    dsimp only at hn
    have := hle (hlim ▸ hpos)
    omega
  · exact h

theorem cleanupOverLimitEntries_spec (h : c.Mirrored) : CutSpec c c.cleanupOverLimitEntries := by
  unfold cleanupOverLimitEntries
  split_ifs with hzero
  · exact ⟨h, fun _ _ _ hx => hx, ⟨c.forward, c.reverse, c.overLimit, rfl⟩,
      fun hpos => absurd hzero (ne_of_gt hpos), fun _ hp => absurd hp List.not_mem_nil⟩
  · -- the loop over the names marked over the limit, with what is left of them
    suffices key : ∀ acc, CutLoopInv c acc [] →
        CutSpec c ({ acc.1 with overLimit := [] }, acc.2.1, acc.2.2) from
      key _ (Trace.foldl_invariant_rest _ (CutLoopInv c) ?step _ _
        ⟨h, fun _ _ _ hx => hx, ⟨c.forward, c.reverse, rfl⟩, fun _ hov => hov,
          fun _ hp => absurd hp List.not_mem_nil⟩)
    · rintro ⟨d, affected, removed⟩ n0 rest hI
      dsimp only
      split
      · next hnone =>
        refine hI.skip fun hpos => ?_
        rw [entriesOf, hnone]
        simpa using hpos.le
      · next es hes =>
        split_ifs with hle
        · refine hI.skip fun _ => ?_
          rw [entriesOf, hes, Option.getD_some]
          omega
        · exact hI.cut hes (lt_of_not_ge hle)
    · intro acc hI
      obtain ⟨f, rv, hd⟩ := hI.frame
      refine ⟨hI.mirrored.of_maps rfl rfl, hI.sub, ⟨f, rv, [], by rw [hd]⟩,
        fun hpos hov n => ?_, hI.earliest⟩
      by_contra hn
      exact List.not_mem_nil (hI.pending hpos hov n (lt_of_not_ge hn))

/-! ### Insertions from other caches -/

/-- `updateWithEntry` for each of the entries in turn. -/
def updateAll (c : DNSCache) (entries : List cacheEntry) : DNSCache :=
  entries.foldl (fun c e => (c.updateWithEntry e).1) c

/-- The entries that `UpdateFromCache` inserts: every entry of the other cache, once for each IP
it provides. -/
def storedEntries (u : DNSCache) : List cacheEntry :=
  u.forward.entries.flatMap fun p => p.2.entries.map (·.2)

/-- The entry that `partialRestoreFromCache` makes of an entry of the other cache: its IPs cut
down to those that had its name in `oldEntries`. -/
def restoredOf (oldEntries : List (Addr × List String)) (e : cacheEntry) : cacheEntry :=
  ⟨e.name, e.lookupTime, e.expirationTime, e.ttl, e.ips.filter fun ip =>
    match oldEntries.lookup ip with
    | some names => e.name ∈ names
    | none => false⟩

/-- The entries that `partialRestoreFromCache` inserts. -/
def restoredEntries (u : DNSCache) (namesToUpdate : List String)
    (oldEntries : List (Addr × List String)) : List cacheEntry :=
  namesToUpdate.flatMap fun name =>
    ((((u.forward.lookup name).map fun es => es.entries.map fun e => restoredOf oldEntries e.2).getD
      []).filter fun e => 0 < e.ips.length)

theorem updateFromCache_eq (c u : DNSCache) : c.updateFromCache u = c.updateAll u.storedEntries := by
  unfold updateFromCache updateAll storedEntries
  rw [List.foldl_flatMap]
  congr 1
  funext d p
  rw [List.foldl_map]

theorem partialRestoreFromCache_eq (c u : DNSCache) (namesToUpdate : List String)
    (oldEntries : List (Addr × List String)) :
    c.partialRestoreFromCache u namesToUpdate oldEntries =
      c.updateAll (restoredEntries u namesToUpdate oldEntries) := by
  unfold partialRestoreFromCache updateAll restoredEntries
  rw [List.foldl_flatMap]
  congr 1
  funext d name
  cases u.forward.lookup name with
  | none => rfl
  | some es =>
    rw [Option.map_some, Option.getD_some, List.foldl_filter, List.foldl_map]
    simp only [decide_eq_true_eq]
    rfl

theorem replaceFromCacheByNames_fst (c : DNSCache) (now : ℤ) (namesToUpdate : List String)
    (updated : List DNSCache) :
    (c.replaceFromCacheByNames now namesToUpdate updated).1 =
      (c.forceExpireByNames now namesToUpdate).updateAll
        (updated.flatMap fun u => restoredEntries u namesToUpdate c.getIPs) := by
  unfold replaceFromCacheByNames updateAll
  dsimp only
  rw [List.foldl_flatMap]
  congr 1
  funext d u
  rw [partialRestoreFromCache_eq]
  rfl

theorem mem_storedEntries {u : DNSCache} {e : cacheEntry} (he : e ∈ u.storedEntries) :
    ∃ n ip, u.entryAt n ip = some e := by
  obtain ⟨p, hp, he⟩ := List.mem_flatMap.mp he
  obtain ⟨x, hx, rfl⟩ := List.mem_map.mp he
  exact ⟨p.1, x.1, by
    rw [entryAt, AList.mem_lookup_iff.mpr hp, Option.bind_some]
    exact AList.mem_lookup_iff.mpr hx⟩

/-- A restored entry is an entry of the other cache with some of its IPs, and at least one. -/
theorem mem_restoredEntries {u : DNSCache} {namesToUpdate : List String}
    {oldEntries : List (Addr × List String)} {e : cacheEntry}
    (he : e ∈ restoredEntries u namesToUpdate oldEntries) :
    e.ips ≠ [] ∧ ∃ n ip x, u.entryAt n ip = some x ∧ e.lookupTime = x.lookupTime ∧
      e.expirationTime = x.expirationTime := by
  obtain ⟨name, -, he⟩ := List.mem_flatMap.mp he
  rw [List.mem_filter] at he
  obtain ⟨he, hlen⟩ := he
  refine ⟨List.ne_nil_of_length_pos (of_decide_eq_true hlen), ?_⟩
  cases hes : u.forward.lookup name with
  | none => simp [hes] at he
  | some es =>
    rw [hes, Option.map_some, Option.getD_some, List.mem_map] at he
    obtain ⟨x, hx, rfl⟩ := he
    exact ⟨name, x.1, x.2, by
      rw [entryAt, hes, Option.bind_some]
      exact AList.mem_lookup_iff.mpr hx, rfl, rfl⟩

end DNSCache

end Cilium.Fqdn.Cache
