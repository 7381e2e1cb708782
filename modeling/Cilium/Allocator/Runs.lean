import Cilium.Allocator.Allocator

/-! The local reference counts of the kvstore allocator over every interleaving of `Allocate` and
`Release` calls in which the kvstore loses no key: a key's count is the number of successful
`Allocate` calls of it less the number of successful `Release` calls, and this node's value key
holds the ID of every key with a local reference.  The race of `racing_allocate_skips_reference`
needs the kvstore to lose the key between two calls.

Each atomic part of a call does one of three things to the local keys and the value keys: nothing
(`Keeps`), one more reference to a key whose value key holds its ID (`Takes`), or one reference
fewer (`Drops`).  The failed paths of `lockedAllocate` give back the local reference they took, so
they keep; the path that re-creates a lost master key is the one that takes no local reference,
and the value keys that the invariant ties to the local keys rule it out. -/

namespace Cilium.Allocator

set_option linter.dupNamespace false

open Cilium.IdPool

namespace localKeys

/-- The ID and the reference count of a key's local key. -/
def entry (lk : localKeys) (key : String) : Option (ID × ℕ) :=
  (lk.keys.lookup key).map fun k => (k.val, k.refcnt)

theorem refcnt_eq_entry (lk : localKeys) (key : String) :
    lk.refcnt key = ((lk.entry key).map Prod.snd).getD 0 := by
  simp only [refcnt, entry, Option.map_map]
  rfl

theorem entry_insert_self (lk : localKeys) (ids : AList fun _ : ID => String) (key : String)
    (k : localKey) : entry ⟨lk.keys.insert key k, ids⟩ key = some (k.val, k.refcnt) := by
  simp [entry, AList.lookup_insert]

theorem entry_insert_ne (lk : localKeys) (ids : AList fun _ : ID => String) {key k' : String}
    (k : localKey) (h : k' ≠ key) : entry ⟨lk.keys.insert key k, ids⟩ k' = lk.entry k' := by
  simp [entry, AList.lookup_insert_ne h]

theorem entry_erase_self (lk : localKeys) (ids : AList fun _ : ID => String) (key : String) :
    entry ⟨lk.keys.erase key, ids⟩ key = none := by
  simp [entry, AList.lookup_erase]

theorem entry_erase_ne (lk : localKeys) (ids : AList fun _ : ID => String) {key k' : String}
    (h : k' ≠ key) : entry ⟨lk.keys.erase key, ids⟩ k' = lk.entry k' := by
  simp [entry, AList.lookup_erase_ne h]

/-- `lk'` has one more reference to `key` than `lk`, whose local key of `key` is new or has the
ID `v`. -/
structure Adds (key : String) (v : ID) (lk lk' : localKeys) : Prop where
  self : lk'.entry key = some (v, lk.refcnt key + 1)
  ne : ∀ k ≠ key, lk'.entry k = lk.entry k
  old : lk.entry key = none ∨ lk.entry key = some (v, lk.refcnt key)

/-- A successful `allocate` takes one more reference to the key with the value. -/
theorem allocate_ok {lk lk' : localKeys} {key : String} {val : ID} {x : ID × Bool}
    (h : lk.allocate key val = (lk', .ok x)) : x.1 = val ∧ Adds key val lk lk' := by
  unfold allocate at h
  split at h
  · rename_i k hk
    split_ifs at h with hv
    · simp at h
    simp only [Prod.mk.injEq, Except.ok.injEq] at h
    obtain ⟨rfl, rfl⟩ := h
    have hv : val = k.val := not_not.mp hv
    subst hv
    refine ⟨rfl, ?_, fun k' hk' => entry_insert_ne lk lk.ids _ hk', .inr ?_⟩
    · rw [entry_insert_self]
      simp [refcnt, hk]
    · simp [entry, refcnt, hk]
  · rename_i hk
    simp only [Prod.mk.injEq, Except.ok.injEq] at h
    obtain ⟨rfl, rfl⟩ := h
    refine ⟨rfl, ?_, fun k' hk' => entry_insert_ne lk _ _ hk', .inl ?_⟩
    · rw [entry_insert_self]
      simp [refcnt, hk]
    · simp [entry, hk]

theorem entry_verify (lk : localKeys) (key : String) : (lk.verify key).1.entry = lk.entry := by
  funext k'
  unfold verify
  split
  · rename_i k hk
    by_cases h : k' = key
    · subst h
      rw [entry_insert_self]
      simp [entry, hk]
    · exact entry_insert_ne lk lk.ids _ h
  · rfl

/-- `use` either finds no verified key and changes nothing, or takes one more reference to the
key and returns its ID. -/
theorem use_spec (lk : localKeys) (key : String) :
    ((lk.use key).1 = lk ∧ (lk.use key).2 = NoID) ∨
      (∃ n, lk.entry key = some ((lk.use key).2, n)) ∧
        Adds key (lk.use key).2 lk (lk.use key).1 := by
  unfold use
  split
  · rename_i k hk
    split_ifs with hv
    · exact .inl ⟨rfl, rfl⟩
    · have hold : lk.entry key = some (k.val, lk.refcnt key) := by simp [entry, refcnt, hk]
      refine .inr ⟨⟨_, hold⟩, ?_, fun k' hk' => entry_insert_ne lk lk.ids _ hk', .inr hold⟩
      rw [entry_insert_self]
      simp [refcnt, hk]
  · exact .inl ⟨rfl, rfl⟩

theorem lookupKey_of_entry_none {lk : localKeys} {key : String} (h : lk.entry key = none) :
    lk.lookupKey key = NoID := by
  have hk : lk.keys.lookup key = none := by simpa [entry] using h
  simp [lookupKey, hk]

theorem release_of_entry_none {lk : localKeys} {key : String} (h : lk.entry key = none) :
    lk.release key = (lk, .error "unable to find key in local cache") := by
  have hk : lk.keys.lookup key = none := by simpa [entry] using h
  simp [release, hk]

/-- `release` of a key with a local key: one reference fewer, the key gone with its last one. -/
theorem release_of_entry {lk : localKeys} {key : String} {v : ID} {n : ℕ}
    (h : lk.entry key = some (v, n)) :
    (lk.release key).2 = .ok (decide (n - 1 = 0), v) ∧
      (lk.release key).1.entry key = (if n - 1 = 0 then none else some (v, n - 1)) ∧
      ∀ k ≠ key, (lk.release key).1.entry k = lk.entry k := by
  obtain ⟨k, hk, hkv⟩ : ∃ k, lk.keys.lookup key = some k ∧ (k.val, k.refcnt) = (v, n) := by
    simpa [entry] using h
  obtain ⟨rfl, rfl⟩ := Prod.mk.inj hkv
  unfold release
  rw [hk]
  dsimp only
  split_ifs with h0
  · exact ⟨by simp [h0], entry_erase_self lk _ key, fun k' hk' => entry_erase_ne lk _ hk'⟩
  · refine ⟨by simp [h0], ?_, fun k' hk' => entry_insert_ne lk lk.ids _ hk'⟩
    exact entry_insert_self lk lk.ids key _

theorem Adds.verify {key key' : String} {v : ID} {lk lk' : localKeys} (h : Adds key v lk lk') :
    Adds key v lk (lk'.verify key').1 :=
  ⟨by rw [entry_verify]; exact h.self, fun k hk => by rw [entry_verify]; exact h.ne k hk, h.old⟩

/-- Releasing the reference that was added gives back the local keys that were there before. -/
theorem Adds.release {key : String} {v : ID} {lk lk' : localKeys} (h : Adds key v lk lk')
    (hpos : ∀ w n, lk.entry key = some (w, n) → 0 < n) : (lk'.release key).1.entry = lk.entry := by
  obtain ⟨-, hrs, hrn⟩ := release_of_entry h.self
  funext k
  by_cases hk : k = key
  · subst hk
    rw [hrs, Nat.add_sub_cancel]
    rcases h.old with h0 | h0
    · have hr : lk.refcnt k = 0 := by rw [refcnt_eq_entry, h0]; rfl
      rw [if_pos hr, h0]
    · have := hpos v _ h0
      rw [if_neg (by omega), h0]
  · rw [hrn k hk, h.ne k hk]

end localKeys

namespace Allocator

open localKeys

/-- Every local key has an ID other than `0` and a reference, and this node's value key of the key
holds the ID. -/
def Consistent (a : Allocator) : Prop :=
  ∀ k v n, a.localKeys.entry k = some (v, n) → a.backend.values.lookup k = some v ∧ v ≠ 0 ∧ 0 < n

/-- `a'` has the local keys and the value keys of `a`. -/
structure Keeps (a a' : Allocator) : Prop where
  entry : a'.localKeys.entry = a.localKeys.entry
  values : a'.backend.values = a.backend.values
  attempts : a'.maxAllocAttempts = a.maxAllocAttempts

/-- `a'` has one more reference to `key` than `a`, with the ID `v`, which this node's value key of
`key` holds. -/
structure Takes (key : String) (v : ID) (a a' : Allocator) : Prop where
  adds : Adds key v a.localKeys a'.localKeys
  value_self : a'.backend.values.lookup key = some v
  value_ne : ∀ k ≠ key, a'.backend.values.lookup k = a.backend.values.lookup k
  ne_zero : v ≠ 0
  attempts : a'.maxAllocAttempts = a.maxAllocAttempts

/-- `a'` has one reference fewer to `key` than `a`; the value key of `key` may go with the last
one. -/
structure Drops (key : String) (a a' : Allocator) : Prop where
  refcnt_self : a'.localKeys.refcnt key + 1 = a.localKeys.refcnt key
  entry_self : ∀ v n, a'.localKeys.entry key = some (v, n) → 0 < n ∧
    a.localKeys.entry key = some (v, n + 1) ∧
    a'.backend.values.lookup key = a.backend.values.lookup key
  entry_ne : ∀ k ≠ key, a'.localKeys.entry k = a.localKeys.entry k
  value_ne : ∀ k ≠ key, a'.backend.values.lookup k = a.backend.values.lookup k
  attempts : a'.maxAllocAttempts = a.maxAllocAttempts

variable {a a' a0 : Allocator} {key : String} {v : ID}

theorem Keeps.refl (a : Allocator) : Keeps a a := ⟨rfl, rfl, rfl⟩

theorem Keeps.consistent (h : Keeps a a') (hc : a.Consistent) : a'.Consistent := by
  intro k w n hk
  rw [h.entry] at hk
  rw [h.values]
  exact hc k w n hk

theorem Keeps.refcnt (h : Keeps a a') (k : String) :
    a'.localKeys.refcnt k = a.localKeys.refcnt k := by
  rw [refcnt_eq_entry, refcnt_eq_entry, h.entry]

theorem Takes.consistent (h : Takes key v a a') (hc : a.Consistent) : a'.Consistent := by
  intro k w n hk
  by_cases hkey : k = key
  · subst hkey
    rw [h.adds.self] at hk
    obtain ⟨rfl, rfl⟩ := Prod.mk.inj (Option.some.inj hk)
    exact ⟨h.value_self, h.ne_zero, Nat.succ_pos _⟩
  · rw [h.adds.ne k hkey] at hk
    rw [h.value_ne k hkey]
    exact hc k w n hk

theorem Takes.refcnt (h : Takes key v a a') (k : String) :
    a'.localKeys.refcnt k = a.localKeys.refcnt k + if k = key then 1 else 0 := by
  by_cases hkey : k = key
  · subst hkey
    rw [refcnt_eq_entry a'.localKeys, h.adds.self, if_pos rfl]
    rfl
  · rw [refcnt_eq_entry, refcnt_eq_entry, h.adds.ne k hkey, if_neg hkey, Nat.add_zero]

theorem Drops.consistent (h : Drops key a a') (hc : a.Consistent) : a'.Consistent := by
  intro k w n hk
  by_cases hkey : k = key
  · subst hkey
    obtain ⟨hn, hold, hval⟩ := h.entry_self w n hk
    obtain ⟨hv, hw, -⟩ := hc k w (n + 1) hold
    exact ⟨hval.trans hv, hw, hn⟩
  · rw [h.entry_ne k hkey] at hk
    rw [h.value_ne k hkey]
    exact hc k w n hk

theorem Drops.refcnt (h : Drops key a a') (k : String) :
    a'.localKeys.refcnt k + (if k = key then 1 else 0) = a.localKeys.refcnt k := by
  by_cases hkey : k = key
  · subst hkey
    rw [if_pos rfl, h.refcnt_self]
  · rw [refcnt_eq_entry, refcnt_eq_entry, h.entry_ne k hkey, if_neg hkey, Nat.add_zero]

/-- A key that has no value key has no local key. -/
theorem Consistent.entry_eq_none (hc : a.Consistent) (h : a.backend.get key = 0) :
    a.localKeys.entry key = none := by
  cases he : a.localKeys.entry key with
  | none => rfl
  | some p =>
    obtain ⟨hv, hne, -⟩ := hc key p.1 p.2 he
    simp only [Backend.get, hv, Option.getD_some] at h
    exact absurd h hne

theorem Consistent.pos (hc : a.Consistent) : ∀ w n, a.localKeys.entry key = some (w, n) → 0 < n :=
  fun w n h => (hc key w n h).2.2

/-- The end of `lockedAllocate` after a local reference was taken: a failed reference in the
kvstore gives it back, and a made one verifies it. -/
theorem acquireVerified_spec {f : Faults} (firstUse : Bool) (hc : a0.Consistent)
    (hadds : Adds key v a0.localKeys a.localKeys) (hb : a.backend = a0.backend)
    (hat : a.maxAllocAttempts = a0.maxAllocAttempts) (hv : v ≠ 0) :
    (∀ e, (a.acquireVerified key f v firstUse).2 = .error e →
      Keeps a0 (a.acquireVerified key f v firstUse).1) ∧
    (∀ x, (a.acquireVerified key f v firstUse).2 = .ok x →
      x.1 = v ∧ Takes key v a0 (a.acquireVerified key f v firstUse).1) := by
  unfold acquireVerified
  split_ifs with hf
  · refine ⟨fun _ _ => ⟨hadds.release hc.pos, by rw [hb], hat⟩, fun x hx => ?_⟩
    cases hx
  · refine ⟨fun e he => ?_, fun x hx => ?_⟩
    · cases he
    · cases hx
      refine ⟨rfl, hadds.verify, ?_, fun k hk => ?_, hv, hat⟩
      · exact AList.lookup_insert _
      · simp only [Backend.acquireReference]
        rw [AList.lookup_insert_ne hk, hb]

/-- The allocation of a new ID for a key with no value key: every failed path gives back the local
reference it took. -/
theorem values_allocateIDIfLocked {b b' : Backend} {id : ID}
    (h : b.allocateIDIfLocked id key = some b') : b'.values = b.values := by
  unfold Backend.allocateIDIfLocked at h
  split_ifs at h
  cases h
  rfl

theorem allocateNew_spec {f : Faults} {picked : ID} (hc : a.Consistent)
    (h0 : a.backend.get key = 0) :
    (∀ e, (a.allocateNew key f picked).2 = .error e → Keeps a (a.allocateNew key f picked).1) ∧
    (∀ x, (a.allocateNew key f picked).2 = .ok x →
      Takes key x.1 a (a.allocateNew key f picked).1) := by
  unfold allocateNew
  generalize a.selectAvailableID picked = sel
  obtain ⟨id, unmaskedID, pool⟩ := sel
  dsimp only
  by_cases hid : id = 0
  · rw [if_pos hid]
    exact ⟨fun _ _ => ⟨rfl, rfl, rfl⟩, fun x hx => by cases hx⟩
  rw [if_neg hid]
  rcases halloc : a.localKeys.allocate key id with ⟨lk, e | ⟨oldID, firstUse⟩⟩
  · exact ⟨fun _ _ => ⟨rfl, rfl, rfl⟩, fun x hx => by cases hx⟩
  obtain ⟨hold, hadds⟩ := allocate_ok halloc
  dsimp only at hold
  subst hold
  -- every failed path below releases the reference that `allocate` took
  have hkeep : ∀ (b : Backend) (p : idCache), b.values = a.backend.values →
      Keeps a ⟨(lk.release key).1, b, p, a.prefixMask, a.maxAllocAttempts⟩ :=
    fun b p hb => ⟨hadds.release hc.pos, hb, rfl⟩
  simp only [ne_eq, not_true_eq_false, if_false]
  by_cases hf : f.getNoCache = true
  · simp only [hf, if_true]
    exact ⟨fun _ _ => hkeep _ _ rfl, fun x hx => by cases hx⟩
  simp only [hf, h0, Bool.false_eq_true, if_false, not_true_eq_false]
  rcases hb : (if f.allocateID = true then none else a.backend.allocateIDIfLocked oldID key)
    with _ | b
  · exact ⟨fun _ _ => hkeep _ _ rfl, fun x hx => by cases hx⟩
  have hbv : b.values = a.backend.values := by
    split_ifs at hb
    exact values_allocateIDIfLocked hb
  dsimp only
  by_cases hfr : f.acquireReference = true
  · simp only [hfr, if_true]
    exact ⟨fun _ _ => hkeep _ _ hbv, fun x hx => by cases hx⟩
  simp only [hfr, Bool.false_eq_true, if_false]
  refine ⟨fun e he => (by cases he), fun x hx => ?_⟩
  cases hx
  refine ⟨hadds.verify, AList.lookup_insert _, fun k hk => ?_, hid, rfl⟩
  simp only [Backend.acquireReference]
  rw [AList.lookup_insert_ne hk, hbv]

/-- `lockedAllocate` from a consistent allocator either keeps its local keys and value keys or
takes one more reference to the key.  The path that re-creates a lost master key would return the
ID without a reference, but a key with no value key has no local key. -/
theorem lockedAllocate_spec (key : String) (f : Faults) (picked : ID) (hc : a.Consistent) :
    (∀ e, (a.lockedAllocate key f picked).2 = .error e →
      Keeps a (a.lockedAllocate key f picked).1) ∧
    (∀ x, (a.lockedAllocate key f picked).2 = .ok x →
      Takes key x.1 a (a.lockedAllocate key f picked).1) := by
  unfold lockedAllocate
  by_cases hl : f.lock = true
  · rw [if_pos hl]
    exact ⟨fun _ _ => Keeps.refl a, fun x hx => by cases hx⟩
  rw [if_neg hl]
  by_cases hg : f.getIfLocked = true
  · rw [if_pos hg]
    exact ⟨fun _ _ => Keeps.refl a, fun x hx => by cases hx⟩
  rw [if_neg hg]
  dsimp only
  by_cases h0 : a.backend.get key = 0
  · have hno : ¬NoID ≠ (0 : ID) := fun h => h rfl
    rw [if_pos h0, lookupKey_of_entry_none (hc.entry_eq_none h0), if_neg hno]
    exact allocateNew_spec hc h0
  rw [if_neg h0]
  rcases halloc : a.localKeys.allocate key (a.backend.get key) with ⟨lk, e | ⟨oldID, firstUse⟩⟩
  · exact ⟨fun _ _ => Keeps.refl a, fun x hx => by cases hx⟩
  obtain ⟨-, hadds⟩ := allocate_ok halloc
  dsimp only
  have hspec := acquireVerified_spec (a := { a with localKeys := lk }) (f := f) firstUse hc hadds
    rfl rfl h0
  refine ⟨hspec.1, fun x hx => ?_⟩
  obtain ⟨hx1, ht⟩ := hspec.2 x hx
  rw [hx1]
  exact ht

/-- `Release` from a consistent allocator either finds no local key and changes nothing, or drops
one reference. -/
theorem release_spec (key : String) (hc : a.Consistent) :
    (∀ e, (a.release key).2 = .error e → (a.release key).1 = a) ∧
    (∀ lastUse, (a.release key).2 = .ok lastUse → Drops key a (a.release key).1) := by
  unfold release
  cases he : a.localKeys.entry key with
  | none =>
    rw [release_of_entry_none he]
    exact ⟨fun _ _ => rfl, fun _ h => by cases h⟩
  | some p =>
    obtain ⟨w, n⟩ := p
    obtain ⟨hr2, hrs, hrn⟩ := release_of_entry he
    have hn := (hc key w n he).2.2
    rcases hrel : a.localKeys.release key with ⟨lk, e | ⟨lastUse, id⟩⟩
    · rw [hrel] at hr2
      cases hr2
    rw [hrel] at hr2 hrs hrn
    obtain ⟨rfl, rfl⟩ := Prod.mk.inj (Except.ok.inj hr2)
    dsimp only at hrs hrn ⊢
    have hrefcnt : a.localKeys.refcnt key = n := by rw [refcnt_eq_entry, he]; rfl
    refine ⟨fun _ h => (by cases h), fun _ _ => ?_⟩
    by_cases hlast : n - 1 = 0
    · -- the last reference: the local key and this node's value key go
      rw [if_pos hlast] at hrs
      simp only [hlast, decide_true, if_true]
      refine ⟨?_, fun v m hm => ?_, hrn, fun k hk => AList.lookup_erase_ne hk, rfl⟩
      · rw [refcnt_eq_entry, hrs, hrefcnt]
        simp only [Option.map_none, Option.getD_none]
        omega
      · simp only [hrs, reduceCtorEq] at hm
    · rw [if_neg hlast] at hrs
      simp only [hlast, decide_false, Bool.false_eq_true, if_false]
      refine ⟨?_, fun v m hm => ?_, hrn, fun k _ => rfl, rfl⟩
      · rw [refcnt_eq_entry, hrs, hrefcnt]
        simp only [Option.map_some, Option.getD_some]
        omega
      · rw [hrs] at hm
        obtain ⟨rfl, rfl⟩ := Prod.mk.inj (Option.some.inj hm)
        exact ⟨by omega, by rw [he, Nat.sub_add_cancel hn], rfl⟩

end Allocator

namespace Sys

/-- What every reachable state of a run with no loss in the kvstore satisfies: the allocator is
consistent, and each key's local reference count is its successful allocations less its
successful releases. -/
structure Inv (s : Sys) : Prop where
  consistent : s.a.Consistent
  count : ∀ k, s.a.localKeys.refcnt k + s.releases k = s.allocations k
  attempts : 0 < s.a.maxAllocAttempts

theorem allocations_finish (s : Sys) (c : ℕ) (r : Ret) (k : String) :
    (s.finish c r).allocations k = s.allocations k + if r.isAllocationOf k then 1 else 0 := by
  simp [allocations, finish, List.countP_append]

theorem releases_finish (s : Sys) (c : ℕ) (r : Ret) (k : String) :
    (s.finish c r).releases k = s.releases k + if r.isReleaseOf k then 1 else 0 := by
  simp [releases, finish, List.countP_append]

theorem isAllocationOf_allocated (key k : String) (v : ID) :
    (Ret.allocated key v).isAllocationOf k = decide (k = key) := by
  by_cases h : k = key
  · simp [Ret.isAllocationOf, h]
  · simp [Ret.isAllocationOf, h, Ne.symm h]

theorem isReleaseOf_released (key k : String) (lastUse : Bool) :
    (Ret.released key lastUse).isReleaseOf k = decide (k = key) := by
  by_cases h : k = key
  · simp [Ret.isReleaseOf, h]
  · simp [Ret.isReleaseOf, h, Ne.symm h]

variable {s s' : Sys}

theorem Inv.of_keeps (hi : s.Inv) (hk : Allocator.Keeps s.a s'.a)
    (hal : ∀ k, s'.allocations k = s.allocations k) (hrel : ∀ k, s'.releases k = s.releases k) :
    s'.Inv :=
  ⟨hk.consistent hi.consistent, fun k => by rw [hk.refcnt, hal, hrel, hi.count],
    hk.attempts ▸ hi.attempts⟩

theorem Inv.of_takes {key : String} {v : ID} (hi : s.Inv) (ht : Allocator.Takes key v s.a s'.a)
    (hal : ∀ k, s'.allocations k = s.allocations k + if k = key then 1 else 0)
    (hrel : ∀ k, s'.releases k = s.releases k) : s'.Inv := by
  refine ⟨ht.consistent hi.consistent, fun k => ?_, ht.attempts ▸ hi.attempts⟩
  rw [ht.refcnt, hal, hrel, ← hi.count]
  omega

theorem Inv.of_drops {key : String} (hi : s.Inv) (hd : Allocator.Drops key s.a s'.a)
    (hal : ∀ k, s'.allocations k = s.allocations k)
    (hrel : ∀ k, s'.releases k = s.releases k + if k = key then 1 else 0) : s'.Inv := by
  refine ⟨hd.consistent hi.consistent, fun k => ?_, hd.attempts ▸ hi.attempts⟩
  have := hd.refcnt k
  rw [hal, hrel, ← hi.count]
  omega

/-- Every step but a loss in the kvstore keeps the invariant. -/
theorem Inv.step {act : Action} (hi : s.Inv) (hact : ∀ key, act ≠ .lose key)
    (h : s.step act = some s') : s'.Inv := by
  cases act with
  | startAllocate key =>
    simp only [Sys.step, if_neg hi.attempts.ne', Option.some.injEq] at h
    subst h
    exact ⟨hi.consistent, hi.count, hi.attempts⟩
  | startRelease key =>
    simp only [Sys.step, Option.some.injEq] at h
    subst h
    exact ⟨hi.consistent, hi.count, hi.attempts⟩
  | use c =>
    simp only [Sys.step] at h
    split at h
    · rename_i key attempt hcall
      rcases localKeys.use_spec s.a.localKeys key with ⟨hlk, hval⟩ | ⟨⟨n, hent⟩, hadds⟩
      · -- no verified key: the call goes on to `lockedAllocate`
        have hno : ¬(s.a.localKeys.use key).2 ≠ NoID := fun h => h hval
        rw [if_neg hno, Option.some.injEq] at h
        subst h
        refine hi.of_keeps ⟨?_, rfl, rfl⟩ (fun _ => rfl) (fun _ => rfl)
        show (s.a.localKeys.use key).1.entry = _
        rw [hlk]
      · obtain ⟨hval, hv0, -⟩ := hi.consistent key _ _ hent
        have hne : (s.a.localKeys.use key).2 ≠ NoID := hv0
        rw [if_pos hne, Option.some.injEq] at h
        subst h
        refine hi.of_takes ⟨hadds, hval, fun _ _ => rfl, hv0, rfl⟩ (fun k => ?_) (fun k => ?_)
        · simp only [allocations_finish, isAllocationOf_allocated, decide_eq_true_eq]
          rfl
        · simp only [releases_finish, Ret.isReleaseOf, Bool.false_eq_true, if_false, Nat.add_zero]
          rfl
    · cases h
  | lockedAllocate c f picked =>
    simp only [Sys.step] at h
    split at h
    · rename_i key attempt hcall
      by_cases hp : picked ∈ s.a.idPool.ids ∨ s.a.idPool.ids = ∅
      swap
      · rw [if_neg hp] at h
        cases h
      rw [if_pos hp] at h
      obtain ⟨herr, hok⟩ := Allocator.lockedAllocate_spec key f picked hi.consistent
      rcases hr : (s.a.lockedAllocate key f picked).2 with e | ⟨value, fu1, fu2⟩
      · -- a failed attempt gives back what it took, and is tried again or reported
        have hk := herr e hr
        rw [hr] at h
        dsimp only at h
        split_ifs at h <;> rw [Option.some.injEq] at h <;> subst h
        · exact hi.of_keeps hk (fun _ => rfl) (fun _ => rfl)
        · refine hi.of_keeps hk (fun k => ?_) (fun k => ?_)
          · simp only [allocations_finish, Ret.isAllocationOf, Bool.false_eq_true, if_false,
              Nat.add_zero]
            rfl
          · simp only [releases_finish, Ret.isReleaseOf, Bool.false_eq_true, if_false,
              Nat.add_zero]
            rfl
      · rw [hr] at h
        dsimp only at h
        rw [Option.some.injEq] at h
        subst h
        refine hi.of_takes (hok _ hr) (fun k => ?_) (fun k => ?_)
        · simp only [allocations_finish, isAllocationOf_allocated, decide_eq_true_eq]
          rfl
        · simp only [releases_finish, Ret.isReleaseOf, Bool.false_eq_true, if_false, Nat.add_zero]
          rfl
    · cases h
  | release c =>
    simp only [Sys.step] at h
    split at h
    · rename_i key hcall
      obtain ⟨herr, hok⟩ := Allocator.release_spec key hi.consistent
      rcases hr : (s.a.release key).2 with e | lastUse
      · rw [hr] at h
        dsimp only at h
        rw [Option.some.injEq] at h
        subst h
        refine hi.of_keeps ?_ (fun k => ?_) (fun k => ?_)
        · show Allocator.Keeps s.a (s.a.release key).1
          rw [herr e hr]
          exact Allocator.Keeps.refl _
        · simp only [allocations_finish, Ret.isAllocationOf, Bool.false_eq_true, if_false,
            Nat.add_zero]
          rfl
        · simp only [releases_finish, Ret.isReleaseOf, Bool.false_eq_true, if_false, Nat.add_zero]
          rfl
      · rw [hr] at h
        dsimp only at h
        rw [Option.some.injEq] at h
        subst h
        refine hi.of_drops (hok _ hr) (fun k => ?_) (fun k => ?_)
        · simp only [allocations_finish, Ret.isAllocationOf, Bool.false_eq_true, if_false,
            Nat.add_zero]
          rfl
        · simp only [releases_finish, isReleaseOf_released, decide_eq_true_eq]
          rfl
    · cases h
  | lose key => exact absurd rfl (hact key)

theorem Inv.run {acts : List Action} (hi : s.Inv) (hno : ∀ key, Action.lose key ∉ acts)
    (h : s.run acts = some s') : s'.Inv := by
  induction acts generalizing s with
  | nil =>
    simp only [Sys.run, Option.some.injEq] at h
    subst h
    exact hi
  | cons act acts ih =>
    simp only [Sys.run, Option.bind_eq_some_iff] at h
    obtain ⟨s1, h1, h2⟩ := h
    have hact : ∀ key, act ≠ .lose key := fun key hk => hno key (hk ▸ List.mem_cons_self)
    exact ih (hi.step hact h1) (fun key hk => hno key (List.mem_cons_of_mem _ hk)) h2

/-- Over every interleaving of `Allocate` and `Release` calls, from an allocator with no local
key, in which the kvstore loses no key: each key's local reference count is its successful
`Allocate` calls less its successful `Release` calls, and this node's value key of every key with
a local key holds the key's ID. -/
theorem run_refcnt (a : Allocator) (hempty : a.localKeys.keys = ∅)
    (ha : 0 < a.maxAllocAttempts) (acts : List Action) (hno : ∀ key, Action.lose key ∉ acts)
    (s : Sys) (h : (init a).run acts = some s) :
    (∀ key, s.a.localKeys.refcnt key + s.releases key = s.allocations key) ∧
      ∀ key k, s.a.localKeys.keys.lookup key = some k → s.a.backend.values.lookup key = some k.val := by
  have h0 : (init a).Inv := by
    refine ⟨fun k v n hk => ?_, fun k => ?_, ha⟩
    · simp [localKeys.entry, init, hempty] at hk
    · simp [init, allocations, releases, localKeys.refcnt, hempty]
  have hi := h0.run hno h
  refine ⟨hi.count, fun key k hk => ?_⟩
  exact (hi.consistent key k.val k.refcnt (by simp [localKeys.entry, hk])).1

theorem run_refcnt_two_allocations :
    let a : Allocator := ⟨localKeys.newLocalKeys, ⟨∅, ∅⟩, newIDCache 1 10, 0, 16⟩
    let acts : List Action := [.startAllocate "app=web", .startAllocate "app=web", .use 0, .use 1,
      .lockedAllocate 0 .none 1, .lockedAllocate 1 .none 2, .startRelease "app=web", .release 2]
    a.localKeys.keys = ∅ ∧ 0 < a.maxAllocAttempts ∧ (∀ key, Action.lose key ∉ acts) ∧
      ∃ s, (init a).run acts = some s ∧
        (∀ key, s.a.localKeys.refcnt key + s.releases key = s.allocations key) ∧
        ∀ key k, s.a.localKeys.keys.lookup key = some k →
          s.a.backend.values.lookup key = some k.val := by
  intro a acts
  have hno : ∀ key, Action.lose key ∉ acts := fun key => by simp [acts]
  obtain ⟨s, hs⟩ : ∃ s, (init a).run acts = some s := Option.isSome_iff_exists.mp (by decide)
  exact ⟨rfl, by decide, hno, s, hs, run_refcnt a rfl (by decide) acts hno s hs⟩

end Sys

end Cilium.Allocator
