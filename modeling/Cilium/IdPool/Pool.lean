import Mathlib.Data.Finset.Basic
import Mathlib.Data.UInt

/-! The ID pool of `pkg/idpool`: IDs move between the available set `ids`, the set `leased` and
neither (unavailable), by local leases and by external events.  Go's iteration over a map picks
any key, so `allocateID` is a relation on the chosen ID. -/

namespace Cilium.IdPool

/-- `ID`. -/
abbrev ID := UInt64

/-- `NoID`: "no ID available". -/
def NoID : ID := 0

/-- `idCache`: the maps `ids` and `leased` as the sets of their keys. -/
structure idCache where
  ids : Finset ID
  leased : Finset ID
  deriving DecidableEq

/-- The loop of `newIDCache`: `for id := minID; id < maxID+1; id++`, with the fuel its bound
gives. -/
def newIDCacheLoop (bound : ID) : ID → Nat → Finset ID
  | _, 0 => ∅
  | id, fuel + 1 => if id < bound then Insert.insert id (newIDCacheLoop bound (id + 1) fuel) else ∅

/-- `newIDCache`. -/
def newIDCache (minID maxID : ID) : idCache :=
  { ids := newIDCacheLoop (maxID + 1) minID (maxID + 1 - minID).toNat, leased := ∅ }

/-- The three states of the life cycle of an ID in the table of IDPool. -/
inductive IDState where
  | available
  | leased
  | unavailable
  deriving DecidableEq, Repr

/-- The events of the table of IDPool, and `AllocateID`, which marks the ID for use at once. -/
inductive TableEvent where
  | leaseAvailableID
  | allocateID
  | release
  | use
  | insert
  | remove
  deriving DecidableEq, Repr

/-- The transition table of IDPool; an event without an entry has no effect.  AllocateID, which
the table leaves out, takes an available ID straight to unavailable. -/
def tableNext : IDState → TableEvent → IDState
  | .available, .leaseAvailableID => .leased
  | .available, .allocateID => .unavailable
  | .available, .remove => .unavailable
  | .leased, .release => .available
  | .leased, .use => .unavailable
  | .leased, .remove => .unavailable
  | .unavailable, .insert => .available
  | s, _ => s

-- The table's equations are made once here, not by each proof below that reads the table.
attribute [simp] tableNext

/-- The states of all IDs after an event on `x`. -/
def tableStep (x : ID) (t : TableEvent) (state : ID → IDState) (y : ID) : IDState :=
  if y = x then tableNext (state y) t else state y

namespace idCache

/-- The state of an ID: available iff in `ids`, leased iff in `leased`. -/
def state (c : idCache) (x : ID) : IDState :=
  if x ∈ c.ids then .available else if x ∈ c.leased then .leased else .unavailable

/-- `allocateID`: the range loop deletes and returns whichever key it meets first, or `NoID` if
there is none. -/
inductive allocateID : idCache → ID → idCache → Prop
  | pick {c : idCache} {id : ID} (h : id ∈ c.ids) : allocateID c id { c with ids := c.ids.erase id }
  | empty {c : idCache} (h : c.ids = ∅) : allocateID c NoID c

/-- What `leaseAvailableID` does with the ID that `allocateID` returned. -/
def markLeased (c : idCache) (id : ID) : ID × idCache :=
  if id = NoID then (NoID, c) else (id, { c with leased := Insert.insert id c.leased })

/-- `leaseAvailableID`. -/
def leaseAvailableID (c : idCache) (id : ID) (c' : idCache) : Prop :=
  ∃ picked c1, allocateID c picked c1 ∧ markLeased c1 picked = (id, c')

/-- `insert`. -/
def insert (c : idCache) (id : ID) : Bool × idCache :=
  if id ∈ c.ids then (false, c)
  else if id ∈ c.leased then (false, c)
  else (true, { c with ids := Insert.insert id c.ids })

/-- `release`: the result of its `insert` is dropped. -/
def release (c : idCache) (id : ID) : Bool × idCache :=
  if id ∉ c.leased then (false, c)
  else (true, (insert { c with leased := c.leased.erase id } id).2)

/-- `use`. -/
def use (c : idCache) (id : ID) : Bool × idCache :=
  if id ∉ c.leased then (false, c) else (true, { c with leased := c.leased.erase id })

/-- `remove`: the lease goes first, whether or not the ID was available. -/
def remove (c : idCache) (id : ID) : Bool × idCache :=
  let c1 := { c with leased := c.leased.erase id }
  if id ∈ c1.ids then (true, { c1 with ids := c1.ids.erase id }) else (false, c1)

end idCache

/-- `IDPool`, without its mutex: every method runs under it, one at a time. -/
structure IDPool where
  minID : ID
  maxID : ID
  idCache : idCache

/-- `NewIDPool`. -/
def NewIDPool (minID maxID : ID) : IDPool :=
  { minID, maxID, idCache := newIDCache minID maxID }

/-- The methods of `IDPool`. -/
inductive Event where
  | leaseAvailableID
  | allocateID
  | release (id : ID)
  | use (id : ID)
  | insert (id : ID)
  | remove (id : ID)
  deriving DecidableEq, Repr

/-- What a method returns. -/
inductive Outcome where
  | id (id : ID)
  | ok (b : Bool)
  deriving DecidableEq, Repr

namespace IDPool

/-- The pool with another cache. -/
def withCache (p : IDPool) (c : IdPool.idCache) : IDPool := { p with idCache := c }

/-- One method call. -/
inductive Step : IDPool → Event → Outcome → IDPool → Prop
  | leaseAvailableID {p : IDPool} {id : ID} {c : IdPool.idCache} (h : p.idCache.leaseAvailableID id c) :
      Step p .leaseAvailableID (.id id) (p.withCache c)
  | allocateID {p : IDPool} {id : ID} {c : IdPool.idCache} (h : p.idCache.allocateID id c) :
      Step p .allocateID (.id id) (p.withCache c)
  | release (p : IDPool) (id : ID) :
      Step p (.release id) (.ok (p.idCache.release id).1) (p.withCache (p.idCache.release id).2)
  | use (p : IDPool) (id : ID) :
      Step p (.use id) (.ok (p.idCache.use id).1) (p.withCache (p.idCache.use id).2)
  | insert (p : IDPool) (id : ID) :
      Step p (.insert id) (.ok (p.idCache.insert id).1) (p.withCache (p.idCache.insert id).2)
  | remove (p : IDPool) (id : ID) :
      Step p (.remove id) (.ok (p.idCache.remove id).1) (p.withCache (p.idCache.remove id).2)

/-- A sequence of method calls and what each returned. -/
inductive Run : IDPool → List (Event × Outcome) → IDPool → Prop
  | nil (p : IDPool) : Run p [] p
  | cons {p q r : IDPool} {e : Event} {o : Outcome} {rest : List (Event × Outcome)}
      (h : Step p e o q) (hr : Run q rest r) : Run p ((e, o) :: rest) r

end IDPool

namespace idCache

/-- A cache update that moves `id` as the table says and leaves every other ID where it was
follows `tableStep`. -/
theorem state_eq_tableStep {c c' : idCache} {id : ID} {t : TableEvent}
    (hself : c'.state id = tableNext (c.state id) t)
    (hother : ∀ y, y ≠ id → c'.state y = c.state y) : c'.state = tableStep id t c.state := by
  funext y
  unfold tableStep
  split_ifs with hy
  · rw [hy, hself]
  · exact hother y hy

theorem state_insert (c : idCache) (id : ID) :
    (c.insert id).2.state = tableStep id .insert c.state := by
  apply state_eq_tableStep
  · unfold insert state
    by_cases h1 : id ∈ c.ids <;> by_cases h2 : id ∈ c.leased <;> simp [h1, h2]
  · intro y hy
    unfold insert state
    by_cases h1 : id ∈ c.ids <;> by_cases h2 : id ∈ c.leased <;> simp [h1, h2, hy]

theorem state_use (c : idCache) (id : ID) :
    (c.use id).2.state = tableStep id .use c.state := by
  apply state_eq_tableStep
  · unfold use state
    by_cases h1 : id ∈ c.ids <;> by_cases h2 : id ∈ c.leased <;> simp [h1, h2]
  · intro y hy
    unfold use state
    by_cases h2 : id ∈ c.leased <;> simp [h2, hy]

theorem state_release (c : idCache) (id : ID) :
    (c.release id).2.state = tableStep id .release c.state := by
  apply state_eq_tableStep
  · unfold release insert state
    by_cases h1 : id ∈ c.ids <;> by_cases h2 : id ∈ c.leased <;> simp [h1, h2]
  · intro y hy
    unfold release insert state
    by_cases h1 : id ∈ c.ids <;> by_cases h2 : id ∈ c.leased <;> simp [h1, h2, hy]

theorem state_remove (c : idCache) (id : ID) :
    (c.remove id).2.state = tableStep id .remove c.state := by
  apply state_eq_tableStep
  · unfold remove state
    by_cases h1 : id ∈ c.ids <;> by_cases h2 : id ∈ c.leased <;> simp [h1, h2]
  · intro y hy
    unfold remove state
    by_cases h1 : id ∈ c.ids <;> simp [h1, hy]

theorem state_eq_available {c : idCache} {x : ID} : c.state x = .available ↔ x ∈ c.ids := by
  unfold state
  split_ifs <;> simp_all

/-- What `allocateID` may return: `NoID` from an empty cache, or an available ID, which leaves. -/
theorem allocateID_cases {c c' : idCache} {id : ID} (h : c.allocateID id c') :
    (id = NoID ∧ c.ids = ∅ ∧ c' = c) ∨ (id ∈ c.ids ∧ c' = { c with ids := c.ids.erase id }) := by
  cases h with
  | pick h => exact .inr ⟨h, rfl⟩
  | empty h => exact .inl ⟨rfl, h, rfl⟩

theorem state_erase_ids {c : idCache} {id : ID} (hd : ∀ x ∈ c.ids, x ∉ c.leased) (hid : id ∈ c.ids) :
    ({ c with ids := c.ids.erase id } : idCache).state = tableStep id .allocateID c.state := by
  apply state_eq_tableStep
  · simp [state, hid, hd id hid]
  · intro y hy
    simp [state, hy]

theorem state_lease {c : idCache} {id : ID} (hid : id ∈ c.ids) :
    ({ ids := c.ids.erase id, leased := Insert.insert id c.leased } : idCache).state =
      tableStep id .leaseAvailableID c.state := by
  apply state_eq_tableStep
  · simp [state, hid]
  · intro y hy
    simp [state, hy]

/-- `leaseAvailableID` from a cache without `NoID`: `NoID` from an empty cache, or an available
ID, which moves to `leased`. -/
theorem leaseAvailableID_cases {c c' : idCache} {id : ID} (h0 : NoID ∉ c.ids)
    (h : c.leaseAvailableID id c') :
    (id = NoID ∧ c.ids = ∅ ∧ c' = c) ∨
      (id ∈ c.ids ∧ c' = { ids := c.ids.erase id, leased := Insert.insert id c.leased }) := by
  obtain ⟨picked, c1, ha, hm⟩ := h
  rcases allocateID_cases ha with ⟨rfl, he, rfl⟩ | ⟨hp, rfl⟩
  · simp only [markLeased, ↓reduceIte, Prod.mk.injEq] at hm
    exact .inl ⟨hm.1.symm, he, hm.2.symm⟩
  · have hne : picked ≠ NoID := by
      rintro rfl
      exact h0 hp
    simp only [markLeased, if_neg hne, Prod.mk.injEq] at hm
    obtain ⟨rfl, rfl⟩ := hm
    exact .inr ⟨hp, rfl⟩

theorem mem_insert_ids {c : idCache} {id x : ID} :
    x ∈ (c.insert id).2.ids ↔ x ∈ c.ids ∨ (x = id ∧ id ∉ c.leased) := by
  unfold idCache.insert
  by_cases h1 : id ∈ c.ids <;> by_cases h2 : id ∈ c.leased <;> by_cases hx : x = id <;>
    simp_all

theorem insert_fst {c : idCache} {id : ID} : (c.insert id).1 = decide (id ∉ c.ids ∧ id ∉ c.leased) := by
  unfold idCache.insert
  by_cases h1 : id ∈ c.ids <;> by_cases h2 : id ∈ c.leased <;> simp [h1, h2]

theorem mem_release_ids {c : idCache} {id x : ID} :
    x ∈ (c.release id).2.ids ↔ x ∈ c.ids ∨ (x = id ∧ id ∈ c.leased) := by
  unfold idCache.release
  by_cases hl : id ∈ c.leased
  · simp only [hl, not_true_eq_false, ↓reduceIte, mem_insert_ids, Finset.mem_erase, ne_eq,
      not_false_eq_true, and_true]
  · simp [hl]

theorem release_fst {c : idCache} {id : ID} : (c.release id).1 = decide (id ∈ c.leased) := by
  unfold idCache.release
  by_cases hl : id ∈ c.leased <;> simp [hl]

theorem use_ids (c : idCache) (id : ID) : (c.use id).2.ids = c.ids := by
  unfold idCache.use
  split <;> rfl

theorem mem_remove_ids {c : idCache} {id x : ID} : x ∈ (c.remove id).2.ids ↔ x ∈ c.ids ∧ x ≠ id := by
  unfold idCache.remove
  by_cases h1 : id ∈ c.ids <;> by_cases hx : x = id <;> simp_all

theorem markLeased_ids (c : idCache) (id : ID) : (c.markLeased id).2.ids = c.ids := by
  unfold markLeased
  split <;> rfl

theorem leaseAvailableID_subset {c c' : idCache} {id : ID} (h : c.leaseAvailableID id c') :
    c'.ids ⊆ c.ids := by
  obtain ⟨picked, c1, ha, hm⟩ := h
  have hc' : c'.ids = c1.ids := by rw [← markLeased_ids c1 picked, hm]
  rw [hc']
  rcases allocateID_cases ha with ⟨-, -, rfl⟩ | ⟨-, rfl⟩
  · exact Finset.Subset.refl _
  · exact Finset.erase_subset _ _

theorem ne_noID_of_mem {c : idCache} {x : ID} (h0 : NoID ∉ c.ids) (h : x ∈ c.ids) : x ≠ NoID := by
  rintro rfl
  exact h0 h

/-- The facts every reachable cache keeps: no ID is both available and leased, and every ID in
either set lies in the pool's range. -/
structure Valid (minID maxID : ID) (c : idCache) : Prop where
  disjoint : ∀ x ∈ c.ids, x ∉ c.leased
  ids_range : ∀ x ∈ c.ids, minID ≤ x ∧ x ≤ maxID
  leased_range : ∀ x ∈ c.leased, minID ≤ x ∧ x ≤ maxID

section Valid

variable {minID maxID : ID} {c : idCache}

theorem Valid.noID (hv : c.Valid minID maxID) (hmin : 1 ≤ minID) : NoID ∉ c.ids := by
  intro h
  have := (hv.ids_range _ h).1
  rw [UInt64.le_iff_toNat_le] at this hmin
  exact absurd (lt_of_lt_of_le (Nat.lt_of_lt_of_le Nat.zero_lt_one hmin) this) (by decide)

theorem Valid.erase_ids (hv : c.Valid minID maxID) (id : ID) :
    ({ c with ids := c.ids.erase id } : idCache).Valid minID maxID :=
  ⟨fun x hx => hv.disjoint x (Finset.mem_of_mem_erase hx),
    fun x hx => hv.ids_range x (Finset.mem_of_mem_erase hx), hv.leased_range⟩

theorem Valid.lease (hv : c.Valid minID maxID) {id : ID} (hid : id ∈ c.ids) :
    ({ ids := c.ids.erase id, leased := Insert.insert id c.leased } : idCache).Valid minID maxID := by
  refine ⟨fun x hx => ?_, fun x hx => hv.ids_range x (Finset.mem_of_mem_erase hx), fun x hx => ?_⟩
  · obtain ⟨hne, hx⟩ := Finset.mem_erase.1 hx
    simpa [hne] using hv.disjoint x hx
  · rcases Finset.mem_insert.1 hx with rfl | hx
    · exact hv.ids_range x hid
    · exact hv.leased_range x hx

theorem Valid.erase_leased (hv : c.Valid minID maxID) (id : ID) :
    ({ c with leased := c.leased.erase id } : idCache).Valid minID maxID :=
  ⟨fun x hx hl => hv.disjoint x hx (Finset.mem_of_mem_erase hl), hv.ids_range,
    fun x hx => hv.leased_range x (Finset.mem_of_mem_erase hx)⟩

theorem Valid.use (hv : c.Valid minID maxID) (id : ID) : (c.use id).2.Valid minID maxID := by
  unfold idCache.use
  split
  · exact hv
  · exact hv.erase_leased id

theorem Valid.remove (hv : c.Valid minID maxID) (id : ID) : (c.remove id).2.Valid minID maxID := by
  unfold idCache.remove
  dsimp only
  split
  · exact (hv.erase_leased id).erase_ids id
  · exact hv.erase_leased id

/-- An insert keeps the range only for an ID in it. -/
theorem Valid.insert (hv : c.Valid minID maxID) {id : ID} (hr : minID ≤ id ∧ id ≤ maxID) :
    (c.insert id).2.Valid minID maxID := by
  unfold idCache.insert
  split
  · exact hv
  · split
    · exact hv
    · rename_i hl
      refine ⟨fun x hx => ?_, fun x hx => ?_, hv.leased_range⟩
      · rcases Finset.mem_insert.1 hx with rfl | hx
        · exact hl
        · exact hv.disjoint x hx
      · rcases Finset.mem_insert.1 hx with rfl | hx
        · exact hr
        · exact hv.ids_range x hx

theorem Valid.release (hv : c.Valid minID maxID) (id : ID) : (c.release id).2.Valid minID maxID := by
  unfold idCache.release
  split
  · exact hv
  · rename_i hl
    exact (hv.erase_leased id).insert (hv.leased_range id (not_not.1 hl))

end Valid

/-- The loop of newIDCache adds the IDs from its start up to its bound, when the fuel covers the
distance and the bound does not wrap. -/
theorem mem_newIDCacheLoop {bound x : ID} (hb : bound.toNat < 2 ^ 64) :
    ∀ (n : Nat) (id : ID), bound.toNat - id.toNat ≤ n →
      (x ∈ newIDCacheLoop bound id n ↔ id ≤ x ∧ x < bound) := by
  intro n
  induction n with
  | zero =>
    intro id hn
    simp only [newIDCacheLoop, Finset.notMem_empty, false_iff, not_and, UInt64.le_iff_toNat_le,
      UInt64.lt_iff_toNat_lt]
    omega
  | succ n ih =>
    intro id hn
    simp only [newIDCacheLoop]
    split
    · rename_i hlt
      -- the counter steps to id + 1 without wrapping, since it is below the bound
      have hnext : (id + 1).toNat = id.toNat + 1 := by
        rw [UInt64.toNat_add, UInt64.toNat_one, Nat.mod_eq_of_lt]
        rw [UInt64.lt_iff_toNat_lt] at hlt
        omega
      rw [Finset.mem_insert, ih (id + 1) (by omega)]
      simp only [UInt64.le_iff_toNat_le, UInt64.lt_iff_toNat_lt, ← UInt64.toNat_inj, hnext] at hlt ⊢
      omega
    · rename_i hge
      simp only [Finset.notMem_empty, false_iff, not_and, UInt64.le_iff_toNat_le,
        UInt64.lt_iff_toNat_lt] at hge ⊢
      omega

/-- newIDCache makes exactly the IDs from minID to maxID available. -/
theorem mem_newIDCache_ids {minID maxID x : ID} (hmax : maxID.toNat < 2 ^ 64 - 1) :
    x ∈ (newIDCache minID maxID).ids ↔ minID ≤ x ∧ x ≤ maxID := by
  have hb : (maxID + 1).toNat = maxID.toNat + 1 := by
    rw [UInt64.toNat_add, UInt64.toNat_one, Nat.mod_eq_of_lt (by omega)]
  rw [newIDCache, mem_newIDCacheLoop (UInt64.toNat_lt _) _ _ (by rw [UInt64.toNat_sub]; omega)]
  simp only [UInt64.le_iff_toNat_le, UInt64.lt_iff_toNat_lt, hb]
  omega

theorem newIDCache_valid {minID maxID : ID} (hmax : maxID.toNat < 2 ^ 64 - 1) :
    (newIDCache minID maxID).Valid minID maxID :=
  ⟨fun _ _ h => by simp [newIDCache] at h, fun _ hx => (mem_newIDCache_ids hmax).1 hx,
    fun _ h => by simp [newIDCache] at h⟩

end idCache
/-- The ID an event acts on and its entry in the table, if any: the argument of Release, Use,
Insert and Remove, and the ID that LeaseAvailableID or AllocateID returned unless it is NoID. -/
def Event.target : Event → Outcome → Option (ID × TableEvent)
  | .leaseAvailableID, .id x => if x = NoID then none else some (x, .leaseAvailableID)
  | .allocateID, .id x => if x = NoID then none else some (x, .allocateID)
  | .release x, _ => some (x, .release)
  | .use x, _ => some (x, .use)
  | .insert x, _ => some (x, .insert)
  | .remove x, _ => some (x, .remove)
  | _, _ => none

theorem Event.target_leaseAvailableID {x : ID} (hx : x ≠ NoID) :
    Event.target .leaseAvailableID (.id x) = some (x, .leaseAvailableID) :=
  if_neg hx

theorem Event.target_allocateID {x : ID} (hx : x ≠ NoID) :
    Event.target .allocateID (.id x) = some (x, .allocateID) :=
  if_neg hx

/-- The states after an event, by the table. -/
def tableRun : Option (ID × TableEvent) → (ID → IDState) → ID → IDState
  | none, state => state
  | some (x, t), state => tableStep x t state

/-- An event that keeps the pool's range: an Insert of an ID from minID to maxID, or any other. -/
def Event.InRange (minID maxID : ID) : Event → Prop
  | .insert x => minID ≤ x ∧ x ≤ maxID
  | _ => True

namespace IDPool

@[simp] theorem withCache_minID (p : IDPool) (c : IdPool.idCache) : (p.withCache c).minID = p.minID := rfl
@[simp] theorem withCache_maxID (p : IDPool) (c : IdPool.idCache) : (p.withCache c).maxID = p.maxID := rfl
@[simp] theorem withCache_idCache (p : IDPool) (c : IdPool.idCache) :
    (p.withCache c).idCache = c := rfl

theorem Step.insert_of {p : IDPool} {id : ID} {b : Bool} (h : (p.idCache.insert id).1 = b) :
    Step p (.insert id) (.ok b) (p.withCache (p.idCache.insert id).2) :=
  h ▸ Step.insert p id

theorem Step.minID_eq {p q : IDPool} {e : Event} {o : Outcome} (h : Step p e o q) :
    q.minID = p.minID ∧ q.maxID = p.maxID := by
  cases h <;> exact ⟨rfl, rfl⟩

section Valid

variable {p q : IDPool} {e : Event} {o : Outcome}

/-- Every step from a valid cache follows the table, given that the cache holds no NoID. -/
theorem Step.state_eq (hv : p.idCache.Valid p.minID p.maxID) (h0 : NoID ∉ p.idCache.ids)
    (h : Step p e o q) : q.idCache.state = tableRun (e.target o) p.idCache.state := by
  cases h with
  | leaseAvailableID h =>
    rcases idCache.leaseAvailableID_cases h0 h with ⟨rfl, -, rfl⟩ | ⟨hid, rfl⟩
    · rfl
    · rw [Event.target_leaseAvailableID (idCache.ne_noID_of_mem h0 hid)]
      exact idCache.state_lease hid
  | allocateID h =>
    rcases idCache.allocateID_cases h with ⟨rfl, -, rfl⟩ | ⟨hid, rfl⟩
    · rfl
    · rw [Event.target_allocateID (idCache.ne_noID_of_mem h0 hid)]
      exact idCache.state_erase_ids hv.disjoint hid
  | release => exact idCache.state_release _ _
  | use => exact idCache.state_use _ _
  | insert => exact idCache.state_insert _ _
  | remove => exact idCache.state_remove _ _

/-- An ID that LeaseAvailableID or AllocateID returns is NoID from an empty pool, or was
available. -/
theorem Step.returned (h0 : NoID ∉ p.idCache.ids) (h : Step p e (.id x) q) :
    (x = NoID ∧ p.idCache.ids = ∅) ∨ x ∈ p.idCache.ids := by
  cases h with
  | leaseAvailableID h =>
    rcases idCache.leaseAvailableID_cases h0 h with ⟨rfl, he, -⟩ | ⟨hid, -⟩
    · exact .inl ⟨rfl, he⟩
    · exact .inr hid
  | allocateID h =>
    rcases idCache.allocateID_cases h with ⟨rfl, he, -⟩ | ⟨hid, -⟩
    · exact .inl ⟨rfl, he⟩
    · exact .inr hid

theorem Step.valid (hv : p.idCache.Valid p.minID p.maxID) (h0 : NoID ∉ p.idCache.ids)
    (hr : e.InRange p.minID p.maxID) (h : Step p e o q) : q.idCache.Valid q.minID q.maxID := by
  cases h with
  | leaseAvailableID h =>
    rcases idCache.leaseAvailableID_cases h0 h with ⟨-, -, rfl⟩ | ⟨hid, rfl⟩
    · exact hv
    · exact hv.lease hid
  | allocateID h =>
    rcases idCache.allocateID_cases h with ⟨-, -, rfl⟩ | ⟨-, rfl⟩
    · exact hv
    · exact hv.erase_ids _
  | release => exact hv.release _
  | use => exact hv.use _
  | insert => exact hv.insert hr
  | remove => exact hv.remove _

end Valid

/-- An ID that a call returns, other than NoID, was available. -/
theorem Step.mem_of_returned {p q : IDPool} {e : Event} {x : ID} (h : Step p e (.id x) q)
    (hx : x ≠ NoID) : x ∈ p.idCache.ids := by
  cases h with
  | leaseAvailableID h =>
    obtain ⟨picked, c1, ha, hm⟩ := h
    unfold idCache.markLeased at hm
    split at hm
    · exact absurd (Prod.mk.inj hm).1.symm hx
    · rw [← (Prod.mk.inj hm).1]
      rcases idCache.allocateID_cases ha with ⟨h0, -, -⟩ | ⟨hid, -⟩
      · contradiction
      · exact hid
  | allocateID h =>
    rcases idCache.allocateID_cases h with ⟨rfl, -, -⟩ | ⟨hid, -⟩
    · exact absurd rfl hx
    · exact hid

/-- ... and is no longer available after the call. -/
theorem Step.not_mem_of_returned {p q : IDPool} {e : Event} {x : ID} (h : Step p e (.id x) q)
    (hx : x ≠ NoID) : x ∉ q.idCache.ids := by
  cases h with
  | leaseAvailableID h =>
    obtain ⟨picked, c1, ha, hm⟩ := h
    unfold idCache.markLeased at hm
    split at hm
    · exact absurd (Prod.mk.inj hm).1.symm hx
    · obtain ⟨rfl, rfl⟩ := Prod.mk.inj hm
      rcases idCache.allocateID_cases ha with ⟨h0, -, -⟩ | ⟨-, rfl⟩
      · contradiction
      · exact Finset.notMem_erase _ _
  | allocateID h =>
    rcases idCache.allocateID_cases h with ⟨rfl, -, -⟩ | ⟨-, rfl⟩
    · exact absurd rfl hx
    · exact Finset.notMem_erase _ _

/-- An ID becomes available only by an Insert or a Release of it that returns true. -/
theorem Step.available_of_not {p q : IDPool} {e : Event} {o : Outcome} {x : ID}
    (h : Step p e o q) (hx : x ∉ p.idCache.ids) (hx' : x ∈ q.idCache.ids) :
    (e, o) = (.insert x, .ok true) ∨ (e, o) = (.release x, .ok true) := by
  cases h with
  | leaseAvailableID h => exact absurd (idCache.leaseAvailableID_subset h hx') hx
  | allocateID h =>
    rcases idCache.allocateID_cases h with ⟨-, -, rfl⟩ | ⟨-, rfl⟩
    · exact absurd hx' hx
    · exact absurd (Finset.mem_of_mem_erase hx') hx
  | release =>
    rcases idCache.mem_release_ids.1 hx' with h | ⟨rfl, hl⟩
    · exact absurd h hx
    · exact .inr (by simp [idCache.release_fst, hl])
  | use => exact absurd (by rwa [withCache_idCache, idCache.use_ids] at hx') hx
  | insert =>
    rcases idCache.mem_insert_ids.1 hx' with h | ⟨rfl, hl⟩
    · exact absurd h hx
    · exact .inl (by simp [idCache.insert_fst, hl, hx])
  | remove => exact absurd (idCache.mem_remove_ids.1 hx').1 hx

theorem Run.append {p r : IDPool} {l1 l2 : List (Event × Outcome)} (h : Run p (l1 ++ l2) r) :
    ∃ q, Run p l1 q ∧ Run q l2 r := by
  induction l1 generalizing p with
  | nil => exact ⟨p, .nil p, h⟩
  | cons eo l1 ih =>
    cases h with
    | cons hs hr =>
      obtain ⟨q, h1, h2⟩ := ih hr
      exact ⟨q, .cons hs h1, h2⟩

/-- Along a run whose Inserts stay in the range, the cache stays valid and the range is fixed. -/
theorem Run.valid {p q : IDPool} {tr : List (Event × Outcome)} (hmin : 1 ≤ p.minID)
    (hv : p.idCache.Valid p.minID p.maxID) (h : Run p tr q)
    (hr : ∀ e o, (e, o) ∈ tr → e.InRange p.minID p.maxID) :
    q.idCache.Valid q.minID q.maxID ∧ q.minID = p.minID ∧ q.maxID = p.maxID := by
  induction h with
  | nil => exact ⟨hv, rfl, rfl⟩
  | cons hs _ ih =>
    obtain ⟨hmin', hmax'⟩ := hs.minID_eq
    have hv' := hs.valid hv (hv.noID hmin) (hr _ _ List.mem_cons_self)
    obtain ⟨hq, h1, h2⟩ := ih (hmin'.symm ▸ hmin) hv'
      (fun e o he => hmin' ▸ hmax' ▸ hr e o (List.mem_cons_of_mem _ he))
    exact ⟨hq, h1.trans hmin', h2.trans hmax'⟩

/-- A run from a state where `x` is not available to one where it is holds a successful Insert or
Release of `x`. -/
theorem Run.available_of_not {p q : IDPool} {tr : List (Event × Outcome)} {x : ID}
    (h : Run p tr q) (hx : x ∉ p.idCache.ids) (hx' : x ∈ q.idCache.ids) :
    (.insert x, .ok true) ∈ tr ∨ (.release x, .ok true) ∈ tr := by
  induction h with
  | nil => exact absurd hx' hx
  | @cons p p' q e o rest hs _ ih =>
    by_cases hmid : x ∈ p'.idCache.ids
    · rcases hs.available_of_not hx hmid with h | h
      · exact .inl (h ▸ List.mem_cons_self)
      · exact .inr (h ▸ List.mem_cons_self)
    · rcases ih hmid hx' with h | h
      · exact .inl (List.mem_cons_of_mem _ h)
      · exact .inr (List.mem_cons_of_mem _ h)

/-- An ID that two calls of a run return was made available again in between. -/
theorem Run.returned_twice {p q : IDPool} {pre mid post : List (Event × Outcome)} {e1 e2 : Event}
    {x : ID} (h : Run p (pre ++ (e1, .id x) :: (mid ++ (e2, .id x) :: post)) q) (hx : x ≠ NoID) :
    (.insert x, .ok true) ∈ mid ∨ (.release x, .ok true) ∈ mid := by
  obtain ⟨_, -, h1⟩ := h.append
  cases h1 with
  | cons hs1 hrest =>
    obtain ⟨_, hmid, h3⟩ := hrest.append
    cases h3 with
    | cons hs2 _ => exact hmid.available_of_not (hs1.not_mem_of_returned hx) (hs2.mem_of_returned hx)

end IDPool

/-- The life cycle of IDPool, for runs from NewIDPool whose Inserts stay in the range: the
available and leased sets are disjoint; every call follows the transition table; a call returns
NoID only from an empty pool and otherwise an available ID of the range; and no ID is returned
twice unless an Insert or a Release made it available in between. -/
theorem life_cycle {minID maxID : ID} (hmin : 1 ≤ minID) (hmax : maxID.toNat < 2 ^ 64 - 1)
    {tr : List (Event × Outcome)} {p : IDPool} (hrun : IDPool.Run (NewIDPool minID maxID) tr p)
    (hins : ∀ e o, (e, o) ∈ tr → e.InRange minID maxID) :
    Disjoint p.idCache.ids p.idCache.leased ∧
      (∀ e o q, IDPool.Step p e o q → e.InRange minID maxID →
        q.idCache.state = tableRun (e.target o) p.idCache.state ∧
        ∀ x, o = .id x → (x = NoID ∧ p.idCache.ids = ∅) ∨
          (x ≠ NoID ∧ p.idCache.state x = .available ∧ minID ≤ x ∧ x ≤ maxID)) ∧
      ∀ pre mid post e1 e2 x, tr = pre ++ (e1, .id x) :: (mid ++ (e2, .id x) :: post) →
        x ≠ NoID → (.insert x, .ok true) ∈ mid ∨ (.release x, .ok true) ∈ mid := by
  obtain ⟨hv, hpmin, hpmax⟩ := hrun.valid hmin (idCache.newIDCache_valid hmax) hins
  rw [hpmin, hpmax] at hv
  have h0 := hv.noID hmin
  refine ⟨Finset.disjoint_left.2 hv.disjoint, fun e o q hs _ => ⟨?_, fun x hx => ?_⟩, ?_⟩
  · exact hs.state_eq (hpmin ▸ hpmax ▸ hv) h0
  · subst hx
    rcases hs.returned h0 with h | h
    · exact .inl h
    · exact .inr ⟨idCache.ne_noID_of_mem h0 h, idCache.state_eq_available.2 h, hv.ids_range x h⟩
  · rintro pre mid post e1 e2 x rfl hx
    exact hrun.returned_twice hx

example :
    ∃ p, IDPool.Run (NewIDPool 1 3) [(.allocateID, .id 2)] p ∧
      Disjoint p.idCache.ids p.idCache.leased ∧
      (∀ e o q, IDPool.Step p e o q → e.InRange 1 3 →
        q.idCache.state = tableRun (e.target o) p.idCache.state ∧
        ∀ x, o = .id x → (x = NoID ∧ p.idCache.ids = ∅) ∨
          (x ≠ NoID ∧ p.idCache.state x = .available ∧ 1 ≤ x ∧ x ≤ 3)) ∧
      ∀ pre mid post e1 e2 x,
        ([(.allocateID, .id 2)] : List (Event × Outcome)) =
          pre ++ (e1, .id x) :: (mid ++ (e2, .id x) :: post) →
        x ≠ NoID → (.insert x, .ok true) ∈ mid ∨ (.release x, .ok true) ∈ mid := by
  have hrun : IDPool.Run (NewIDPool 1 3) [(.allocateID, .id 2)] _ :=
    .cons (.allocateID (.pick (by decide))) (.nil _)
  refine ⟨_, hrun, life_cycle (by decide) (by decide) hrun ?_⟩
  intro e o h
  obtain ⟨rfl, rfl⟩ := Prod.mk.inj (List.mem_singleton.1 h)
  trivial

/-- NewIDPool(1, 1): once ID 1 is allocated, an Insert of ID 5 succeeds and the next AllocateID
returns 5, outside the range. -/
theorem insert_out_of_range_allocated :
    ∃ q, IDPool.Run (NewIDPool 1 1)
      [(.allocateID, .id 1), (.insert 5, .ok true), (.allocateID, .id 5)] q ∧ ¬ (5 : ID) ≤ 1 := by
  exact ⟨_, .cons (.allocateID (.pick (by decide)))
    (.cons (IDPool.Step.insert_of (by decide)) (.cons (.allocateID (.pick (by decide))) (.nil _))),
    by decide⟩

end Cilium.IdPool
