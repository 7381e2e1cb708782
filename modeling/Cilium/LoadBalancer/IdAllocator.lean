import Mathlib.Data.List.AList
import Mathlib.Data.BitVec

/-! The ID allocator of the load-balancer reconciler (`pkg/loadbalancer/reconciler`): two maps
between IDs and addresses, and a cursor that searches the range `[initNextID, maxID)` for a free
ID, wrapping once.  IDs are `w`-bit words, as `ServiceID` (16 bits) and `BackendID` (32 bits)
are; the allocator never looks inside an address. -/

namespace Cilium.LoadBalancer

/-- `idAllocator`, without its metrics. -/
structure idAllocator (w : Nat) (A : Type) where
  idToAddr : AList (fun _ : BitVec w => A)
  addrToId : AList (fun _ : A => BitVec w)
  nextID : BitVec w
  maxID : BitVec w
  initNextID : BitVec w
  initMaxID : BitVec w

/-- `firstFreeServiceID`. -/
def firstFreeServiceID : BitVec 16 := 1

/-- `maxSetOfServiceID`. -/
def maxSetOfServiceID : BitVec 16 := 0xFFFF

/-- `firstFreeBackendID`. -/
def firstFreeBackendID : BitVec 32 := 1

/-- `maxSetOfBackendID`. -/
def maxSetOfBackendID : BitVec 32 := 0xFFFFFFFF

variable {w : Nat} {A : Type}

/-- `newIDAllocator`. -/
def newIDAllocator (nextID maxID : BitVec w) : idAllocator w A :=
  { idToAddr := ∅, addrToId := ∅, nextID, maxID, initNextID := nextID, initMaxID := maxID }

namespace idAllocator

/-- The reset of the cursor in the loop of `acquireLocalID`: at `maxID` it goes back to
`initNextID` and the search has rolled over. -/
def rollOver (alloc : idAllocator w A) (rollover : Bool) : idAllocator w A × Bool :=
  if alloc.nextID = alloc.maxID then ({ alloc with nextID := alloc.initNextID }, true)
  else (alloc, rollover)

section RollOver

variable {c : idAllocator w A} {r : Bool}

@[simp] theorem rollOver_idToAddr (alloc : idAllocator w A) (r : Bool) :
    (alloc.rollOver r).1.idToAddr = alloc.idToAddr := by
  unfold rollOver
  split <;> rfl

@[simp] theorem rollOver_addrToId (alloc : idAllocator w A) (r : Bool) :
    (alloc.rollOver r).1.addrToId = alloc.addrToId := by
  unfold rollOver
  split <;> rfl

theorem rollOver_of_eq (h : c.nextID = c.maxID) :
    c.rollOver r = ({ c with nextID := c.initNextID }, true) := by
  rw [rollOver, if_pos h]

theorem rollOver_of_ne (h : c.nextID ≠ c.maxID) : c.rollOver r = (c, r) := by
  rw [rollOver, if_neg h]

end RollOver

variable [DecidableEq A]

/-- `addID`. -/
def addID (alloc : idAllocator w A) (addr : A) (id : BitVec w) : BitVec w × idAllocator w A :=
  (id, { alloc with
    idToAddr := alloc.idToAddr.insert id addr
    addrToId := alloc.addrToId.insert addr id })

/-- The loop of `acquireLocalID`, one iteration for each unit of fuel; `none` when the fuel runs
out. -/
def acquireLoop (svc : A) (startingID : BitVec w) :
    Nat → idAllocator w A → Bool → Option (Except String (BitVec w) × idAllocator w A)
  | 0, _, _ => none
  | fuel + 1, alloc, rollover =>
    -- the cursor is compared with its start only here, before the reset below
    if alloc.nextID = startingID ∧ rollover = true then some (.error "no ID available", alloc)
    else
      let r := alloc.rollOver rollover
      if r.1.idToAddr.lookup r.1.nextID = none then
        let s := r.1.addID svc r.1.nextID
        some (.ok s.1, { s.2 with nextID := r.1.nextID + 1 })
      else acquireLoop svc startingID fuel { r.1 with nextID := r.1.nextID + 1 } r.2

/-- `acquireLocalID`, with the fuel that bounds its loop. -/
def acquireLocalID (alloc : idAllocator w A) (svc : A) (fuel : Nat) :
    Option (Except String (BitVec w) × idAllocator w A) :=
  match alloc.addrToId.lookup svc with
  | some id => some (.ok id, alloc)
  | none => acquireLoop svc alloc.nextID fuel alloc false

/-- `deleteLocalID`. -/
def deleteLocalID (alloc : idAllocator w A) (id : BitVec w) : idAllocator w A :=
  match alloc.idToAddr.lookup id with
  | some addr =>
    { alloc with
      idToAddr := alloc.idToAddr.erase id
      addrToId := alloc.addrToId.erase addr }
  | none => alloc

/-- `lookupLocalID`. -/
def lookupLocalID (alloc : idAllocator w A) (addr : A) : Except String (BitVec w) :=
  match alloc.addrToId.lookup addr with
  | some id => .ok id
  | none => .error "ID not found"

section Delete

variable {alloc : idAllocator w A} {id : BitVec w}

@[simp] theorem deleteLocalID_nextID : (alloc.deleteLocalID id).nextID = alloc.nextID := by
  unfold deleteLocalID
  split <;> rfl

@[simp] theorem deleteLocalID_maxID : (alloc.deleteLocalID id).maxID = alloc.maxID := by
  unfold deleteLocalID
  split <;> rfl

@[simp] theorem deleteLocalID_initNextID :
    (alloc.deleteLocalID id).initNextID = alloc.initNextID := by
  unfold deleteLocalID
  split <;> rfl

/-- A free ID stays free. -/
theorem lookup_deleteLocalID_of_none {x : BitVec w} (h : alloc.idToAddr.lookup x = none) :
    (alloc.deleteLocalID id).idToAddr.lookup x = none := by
  unfold deleteLocalID
  split
  · by_cases hx : x = id
    · subst hx
      exact AList.lookup_erase _ _
    · rw [AList.lookup_erase_ne hx]
      exact h
  · exact h

end Delete

/-- The two maps are mutually inverse: each ID names one address and back. -/
def Inverse (alloc : idAllocator w A) : Prop :=
  ∀ id a, alloc.idToAddr.lookup id = some a ↔ alloc.addrToId.lookup a = some id

section Inverse

variable {alloc : idAllocator w A}

theorem newIDAllocator_inverse (nextID maxID : BitVec w) :
    (newIDAllocator nextID maxID : idAllocator w A).Inverse := by
  intro id a
  simp [newIDAllocator]

theorem Inverse.addID (h : alloc.Inverse) {a : A} {id : BitVec w}
    (hid : alloc.idToAddr.lookup id = none) (ha : alloc.addrToId.lookup a = none) :
    (alloc.addID a id).2.Inverse := by
  intro id' a'
  unfold idAllocator.addID
  by_cases hi : id' = id <;> by_cases hb : a' = a
  · subst hi hb
    simp
  · subst hi
    rw [AList.lookup_insert, AList.lookup_insert_ne hb]
    constructor
    · rintro ⟨⟩
      exact absurd rfl hb
    · intro h'
      rw [← h _ _, hid] at h'
      cases h'
  · subst hb
    rw [AList.lookup_insert_ne hi, AList.lookup_insert]
    constructor
    · intro h'
      rw [h _ _, ha] at h'
      cases h'
    · rintro ⟨⟩
      exact absurd rfl hi
  · rw [AList.lookup_insert_ne hi, AList.lookup_insert_ne hb]
    exact h id' a'

theorem Inverse.deleteLocalID (h : alloc.Inverse) (id : BitVec w) :
    (alloc.deleteLocalID id).Inverse := by
  unfold idAllocator.deleteLocalID
  split
  · rename_i addr hl
    have hback := (h id addr).1 hl
    intro id' a'
    by_cases hi : id' = id <;> by_cases hb : a' = addr
    · subst hi hb
      simp
    · subst hi
      rw [AList.lookup_erase, AList.lookup_erase_ne hb]
      constructor
      · rintro ⟨⟩
      · intro h'
        rw [← h _ _, hl] at h'
        cases h'
        exact absurd rfl hb
    · subst hb
      rw [AList.lookup_erase_ne hi, AList.lookup_erase]
      constructor
      · intro h'
        rw [h _ _, hback] at h'
        cases h'
        exact absurd rfl hi
      · rintro ⟨⟩
    · rw [AList.lookup_erase_ne hi, AList.lookup_erase_ne hb]
      exact h id' a'
  · exact h

end Inverse

section Loop

variable {svc : A} {s : BitVec w} {base alloc : idAllocator w A} {r : Bool} {fuel : Nat}

theorem acquireLoop_break (h : alloc.nextID = s) :
    acquireLoop svc s (fuel + 1) alloc true = some (.error "no ID available", alloc) := by
  rw [acquireLoop, if_pos ⟨h, rfl⟩]

theorem acquireLoop_found (hne : ¬(alloc.nextID = s ∧ r = true))
    (hfree : alloc.idToAddr.lookup (alloc.rollOver r).1.nextID = none) :
    acquireLoop svc s (fuel + 1) alloc r =
      some (.ok (alloc.rollOver r).1.nextID,
        { ((alloc.rollOver r).1.addID svc (alloc.rollOver r).1.nextID).2 with
          nextID := (alloc.rollOver r).1.nextID + 1 }) := by
  rw [acquireLoop, if_neg hne]
  simp only [rollOver_idToAddr, hfree, ↓reduceIte]
  rfl

theorem acquireLoop_used (hne : ¬(alloc.nextID = s ∧ r = true))
    (hused : alloc.idToAddr.lookup (alloc.rollOver r).1.nextID ≠ none) :
    acquireLoop svc s (fuel + 1) alloc r =
      acquireLoop svc s fuel { (alloc.rollOver r).1 with nextID := (alloc.rollOver r).1.nextID + 1 }
        (alloc.rollOver r).2 := by
  rw [acquireLoop, if_neg hne]
  simp only [rollOver_idToAddr, hused, ↓reduceIte]


/-- A cursor below maxID steps to the next ID without wrapping. -/
theorem toNat_add_one_of_lt {n m : BitVec w} (h : n.toNat < m.toNat) :
    (n + 1).toNat = n.toNat + 1 := by
  have hm := m.isLt
  have hw : 1 < 2 ^ w := by omega
  rw [BitVec.toNat_add, BitVec.ofNat_eq_ofNat, BitVec.toNat_ofNat, Nat.mod_eq_of_lt hw,
    Nat.mod_eq_of_lt (by omega)]

/-- What one search returns: a free ID of the range, taken for `svc` with the cursor past it, or
the error with the cursor back at its start. -/
def SearchResult (base : idAllocator w A) (svc : A) (lo : Nat) (s : BitVec w)
    (res : Except String (BitVec w) × idAllocator w A) : Prop :=
  (∃ x : BitVec w, lo ≤ x.toNat ∧ x.toNat < base.maxID.toNat ∧ base.idToAddr.lookup x = none ∧
      res = (.ok x, { (base.addID svc x).2 with nextID := x + 1 })) ∨
    ((∀ x : BitVec w, lo ≤ x.toNat → x.toNat < base.maxID.toNat → base.idToAddr.lookup x ≠ none) ∧
      res = (.error "no ID available", { base with nextID := s }))

/-- After the roll-over the cursor runs from initNextID + 1 up to its start, where the loop
stops; induction on the distance to the start. -/
theorem acquireLoop_rolled (svc : A) (hsM : s.toNat ≤ base.maxID.toNat) (k : Nat) :
    ∀ n : BitVec w, base.initNextID.toNat < n.toNat → n.toNat ≤ s.toNat → s.toNat - n.toNat = k →
      ∀ fuel, k + 1 ≤ fuel →
        ∃ res, acquireLoop svc s fuel { base with nextID := n } true = some res ∧
          ((∃ x : BitVec w, n.toNat ≤ x.toNat ∧ x.toNat < s.toNat ∧
              base.idToAddr.lookup x = none ∧
              res = (.ok x, { (base.addID svc x).2 with nextID := x + 1 })) ∨
            ((∀ x : BitVec w, n.toNat ≤ x.toNat → x.toNat < s.toNat →
                base.idToAddr.lookup x ≠ none) ∧
              res = (.error "no ID available", { base with nextID := s }))) := by
  induction k with
  | zero =>
    intro n _ hns hk fuel hfuel
    obtain ⟨fuel, rfl⟩ := Nat.exists_eq_add_of_le' (Nat.le_trans (Nat.le_refl 1) hfuel)
    have hn : n = s := BitVec.eq_of_toNat_eq (by omega)
    subst hn
    refine ⟨_, acquireLoop_break rfl, .inr ⟨fun x h1 h2 => absurd h2 (by omega), rfl⟩⟩
  | succ k ih =>
    intro n hIn hns hk fuel hfuel
    obtain ⟨fuel, rfl⟩ := Nat.exists_eq_add_of_le' (Nat.le_trans (Nat.le_add_left 1 (k + 1)) hfuel)
    have hne : ¬(n = s ∧ true = true) := fun h => by rw [h.1] at hk; omega
    have hnM : n ≠ base.maxID := fun h => by rw [h] at hk; omega
    have hroll := rollOver_of_ne (c := { base with nextID := n }) (r := true) hnM
    by_cases hfree : base.idToAddr.lookup n = none
    -- the cursor's ID is free: it is taken
    · refine ⟨_, acquireLoop_found hne (by rw [hroll]; exact hfree), .inl ⟨n, le_refl _, by omega,
        hfree, ?_⟩⟩
      rw [hroll]
      rfl
    -- the cursor's ID is in use: the search goes on from the next ID
    · rw [acquireLoop_used hne (by rw [hroll]; exact hfree), hroll]
      have hsucc := toNat_add_one_of_lt (m := s) (by omega : n.toNat < s.toNat)
      obtain ⟨res, hres, hcases⟩ := ih (n + 1) (by omega) (by omega) (by omega) fuel (by omega)
      refine ⟨res, hres, ?_⟩
      rcases hcases with ⟨x, h1, h2, h3, h4⟩ | ⟨hall, h4⟩
      · exact .inl ⟨x, by omega, h2, h3, h4⟩
      · refine .inr ⟨fun x h1 h2 => ?_, h4⟩
        by_cases hx : x = n
        · rw [hx]
          exact hfree
        · exact hall x (by have := BitVec.toNat_ne.1 hx; omega) h2

/-- Before the roll-over the cursor runs from its start up to maxID, where it goes back to
initNextID; induction on the distance to maxID. -/
theorem acquireLoop_fresh (svc : A) (hIM : base.initNextID.toNat < base.maxID.toNat)
    (hsI : base.initNextID.toNat ≤ s.toNat) (hsM : s.toNat ≤ base.maxID.toNat) (k : Nat) :
    ∀ n : BitVec w, s.toNat ≤ n.toNat → n.toNat ≤ base.maxID.toNat →
      base.maxID.toNat - n.toNat = k →
      (base.initNextID.toNat < s.toNat ∨ ∃ x : BitVec w, n.toNat ≤ x.toNat ∧
        x.toNat < base.maxID.toNat ∧ base.idToAddr.lookup x = none) →
      ∀ fuel, k + (s.toNat - base.initNextID.toNat) + 2 ≤ fuel →
        ∃ res, acquireLoop svc s fuel { base with nextID := n } false = some res ∧
          ((∃ x : BitVec w, base.initNextID.toNat ≤ x.toNat ∧ x.toNat < base.maxID.toNat ∧
              base.idToAddr.lookup x = none ∧
              res = (.ok x, { (base.addID svc x).2 with nextID := x + 1 })) ∨
            ((∀ x : BitVec w, (n.toNat ≤ x.toNat ∧ x.toNat < base.maxID.toNat) ∨
                (base.initNextID.toNat ≤ x.toNat ∧ x.toNat < s.toNat) →
                base.idToAddr.lookup x ≠ none) ∧
              res = (.error "no ID available", { base with nextID := s }))) := by
  have hne : ∀ n : BitVec w, ¬(n = s ∧ false = true) := fun _ h => Bool.false_ne_true h.2
  induction k with
  | zero =>
    -- the cursor is at maxID: it goes back to initNextID
    intro n _ hnM hk hstart fuel hfuel
    obtain ⟨fuel, rfl⟩ := Nat.exists_eq_add_of_le' (Nat.le_trans (Nat.le_add_left 1 _) hfuel)
    have hn : n = base.maxID := BitVec.eq_of_toNat_eq (by omega)
    have hroll := rollOver_of_eq (c := { base with nextID := n }) (r := false) hn
    by_cases hfree : base.idToAddr.lookup base.initNextID = none
    · refine ⟨_, acquireLoop_found (hne n) (by rw [hroll]; exact hfree),
        .inl ⟨base.initNextID, le_refl _, hIM, hfree, ?_⟩⟩
      rw [hroll]
      rfl
    · rw [acquireLoop_used (hne n) (by rw [hroll]; exact hfree), hroll]
      have hsucc := toNat_add_one_of_lt hIM
      -- a search from initNextID itself has nothing left to find here
      have hsI' : base.initNextID.toNat < s.toNat := by
        rcases hstart with h | ⟨x, h1, h2, -⟩
        · exact h
        · omega
      obtain ⟨res, hres, hcases⟩ := acquireLoop_rolled svc hsM (s.toNat - (base.initNextID + 1).toNat)
        (base.initNextID + 1) (by omega) (by omega) rfl fuel (by omega)
      refine ⟨res, hres, ?_⟩
      rcases hcases with ⟨x, h1, h2, h3, h4⟩ | ⟨hall, h4⟩
      · exact .inl ⟨x, by omega, by omega, h3, h4⟩
      · refine .inr ⟨fun x hx => ?_, h4⟩
        by_cases hxI : x = base.initNextID
        · rw [hxI]
          exact hfree
        · exact hall x (by have := BitVec.toNat_ne.1 hxI; omega) (by omega)
  | succ k ih =>
    intro n hsn hnM hk hstart fuel hfuel
    obtain ⟨fuel, rfl⟩ := Nat.exists_eq_add_of_le' (Nat.le_trans (Nat.le_add_left 1 _) hfuel)
    have hnM' : n ≠ base.maxID := fun h => by rw [h] at hk; omega
    have hroll := rollOver_of_ne (c := { base with nextID := n }) (r := false) hnM'
    by_cases hfree : base.idToAddr.lookup n = none
    · refine ⟨_, acquireLoop_found (hne n) (by rw [hroll]; exact hfree),
        .inl ⟨n, by omega, by omega, hfree, ?_⟩⟩
      rw [hroll]
      rfl
    · rw [acquireLoop_used (hne n) (by rw [hroll]; exact hfree), hroll]
      have hsucc := toNat_add_one_of_lt (m := base.maxID) (by omega : n.toNat < base.maxID.toNat)
      have hk' : base.maxID.toNat - (n + 1).toNat = k := by clear hstart; omega
      have hsn' : s.toNat ≤ (n + 1).toNat := by clear hstart; omega
      have hnM'' : (n + 1).toNat ≤ base.maxID.toNat := by clear hstart; omega
      have hstart' : base.initNextID.toNat < s.toNat ∨ ∃ x : BitVec w,
          (n + 1).toNat ≤ x.toNat ∧ x.toNat < base.maxID.toNat ∧ base.idToAddr.lookup x = none := by
        rcases hstart with h | ⟨x, h1, h2, h3⟩
        · exact .inl h
        · refine .inr ⟨x, ?_, h2, h3⟩
          have : x ≠ n := fun e => hfree (e ▸ h3)
          have := BitVec.toNat_ne.1 this
          omega
      clear hstart
      obtain ⟨res, hres, hcases⟩ := ih (n + 1) hsn' hnM'' hk' hstart' fuel (by omega)
      refine ⟨res, hres, ?_⟩
      rcases hcases with h | ⟨hall, h4⟩
      · exact .inl h
      · refine .inr ⟨fun x hx => ?_, h4⟩
        by_cases hxn : x = n
        · rw [hxn]
          exact hfree
        · exact hall x (by have := BitVec.toNat_ne.1 hxn; omega)

/-- With the whole range in use and the cursor at initNextID, the loop never stops: its start is
only met at the top of an iteration, and after the roll-over the cursor is past it there. -/
theorem acquireLoop_stuck (base : idAllocator w A) (hIM : base.initNextID.toNat < base.maxID.toNat)
    (hfull : ∀ x : BitVec w, base.initNextID.toNat ≤ x.toNat → x.toNat < base.maxID.toNat →
      base.idToAddr.lookup x ≠ none) :
    ∀ fuel (n : BitVec w) (r : Bool),
      (r = false ∧ base.initNextID.toNat ≤ n.toNat ∧ n.toNat ≤ base.maxID.toNat) ∨
        (r = true ∧ base.initNextID.toNat < n.toNat ∧ n.toNat ≤ base.maxID.toNat) →
      acquireLoop svc base.initNextID fuel { base with nextID := n } r = none := by
  intro fuel
  induction fuel with
  | zero => intro n r _; rfl
  | succ fuel ih =>
    intro n r hinv
    have hne : ¬(n = base.initNextID ∧ r = true) := by
      rintro ⟨rfl, rfl⟩
      rcases hinv with ⟨h, -⟩ | ⟨-, h, -⟩
      · cases h
      · omega
    by_cases hnM : n = base.maxID
    -- at maxID the cursor goes back to initNextID, which is in use
    · have hroll := rollOver_of_eq (c := { base with nextID := n }) (r := r) hnM
      rw [acquireLoop_used hne (by rw [hroll]; exact hfull _ (le_refl _) hIM), hroll]
      have := toNat_add_one_of_lt hIM
      exact ih (base.initNextID + 1) true (.inr ⟨rfl, by omega, by omega⟩)
    · have hroll := rollOver_of_ne (c := { base with nextID := n }) (r := r) hnM
      have hnM' : n.toNat < base.maxID.toNat := by
        have := BitVec.toNat_ne.1 hnM
        omega
      rw [acquireLoop_used hne (by rw [hroll]; exact hfull n (by omega) hnM'), hroll]
      have := toNat_add_one_of_lt hnM'
      rcases hinv with ⟨rfl, _, _⟩ | ⟨rfl, _, _⟩
      · exact ih (n + 1) false (.inl ⟨rfl, by omega, by omega⟩)
      · exact ih (n + 1) true (.inr ⟨rfl, by omega, by omega⟩)

/-- The loop changes the maps only by taking one free ID for `svc`. -/
theorem acquireLoop_maps {res : Except String (BitVec w) × idAllocator w A} :
    ∀ {fuel} {alloc : idAllocator w A} {r : Bool}, acquireLoop svc s fuel alloc r = some res →
      (res.2.idToAddr = alloc.idToAddr ∧ res.2.addrToId = alloc.addrToId) ∨
        ∃ x, alloc.idToAddr.lookup x = none ∧ res.2.idToAddr = alloc.idToAddr.insert x svc ∧
          res.2.addrToId = alloc.addrToId.insert svc x := by
  intro fuel
  induction fuel with
  | zero => intro alloc r h; cases h
  | succ fuel ih =>
    intro alloc r h
    by_cases hbrk : alloc.nextID = s ∧ r = true
    · rw [acquireLoop, if_pos hbrk] at h
      cases h
      exact .inl ⟨rfl, rfl⟩
    · by_cases hfree : alloc.idToAddr.lookup (alloc.rollOver r).1.nextID = none
      · rw [acquireLoop_found hbrk hfree] at h
        cases h
        exact .inr ⟨_, hfree, by simp [addID], by simp [addID]⟩
      · rw [acquireLoop_used hbrk hfree] at h
        rcases ih h with ⟨h1, h2⟩ | ⟨x, hx, h1, h2⟩
        · exact .inl ⟨by simpa using h1, by simpa [rollOver_addrToId] using h2⟩
        · exact .inr ⟨x, by simpa using hx, by simpa using h1, by simpa [rollOver_addrToId] using h2⟩

end Loop

/-- An address that has an ID gets it back, whatever the fuel. -/
theorem acquireLocalID_existing {alloc : idAllocator w A} {a : A} {id : BitVec w} (fuel : Nat)
    (h : alloc.addrToId.lookup a = some id) : alloc.acquireLocalID a fuel = some (.ok id, alloc) := by
  rw [acquireLocalID, h]

/-- From a cursor in [initNextID, maxID], other than initNextID in a full range, acquireLocalID
stops within maxID - initNextID + 2 iterations: with a free ID of the range, taken for the
address, or with the error exactly when the whole range is in use. -/
theorem acquireLocalID_spec {alloc : idAllocator w A} {a : A} {fuel : Nat}
    (hIM : alloc.initNextID.toNat < alloc.maxID.toNat)
    (hI : alloc.initNextID.toNat ≤ alloc.nextID.toNat) (hM : alloc.nextID.toNat ≤ alloc.maxID.toNat)
    (hstart : alloc.initNextID.toNat < alloc.nextID.toNat ∨ ∃ x : BitVec w,
      alloc.initNextID.toNat ≤ x.toNat ∧ x.toNat < alloc.maxID.toNat ∧
        alloc.idToAddr.lookup x = none)
    (ha : alloc.addrToId.lookup a = none)
    (hfuel : alloc.maxID.toNat - alloc.initNextID.toNat + 2 ≤ fuel) :
    ∃ res, alloc.acquireLocalID a fuel = some res ∧ SearchResult alloc a alloc.initNextID.toNat
      alloc.nextID res := by
  have hstart' : alloc.initNextID.toNat < alloc.nextID.toNat ∨ ∃ x : BitVec w,
      alloc.nextID.toNat ≤ x.toNat ∧ x.toNat < alloc.maxID.toNat ∧
        alloc.idToAddr.lookup x = none := by
    rcases hstart with h | ⟨x, h1, h2, h3⟩
    · exact .inl h
    · rcases Nat.lt_or_ge alloc.initNextID.toNat alloc.nextID.toNat with h | h
      · exact .inl h
      · exact .inr ⟨x, by omega, h2, h3⟩
  clear hstart
  obtain ⟨res, hres, hcases⟩ := acquireLoop_fresh a (s := alloc.nextID) hIM hI hM
    (alloc.maxID.toNat - alloc.nextID.toNat) alloc.nextID (le_refl _) hM rfl hstart' fuel (by omega)
  refine ⟨res, by rw [acquireLocalID, ha]; exact hres, ?_⟩
  rcases hcases with h | ⟨hall, h4⟩
  · exact .inl h
  · refine .inr ⟨fun x h1 h2 => hall x ?_, h4⟩
    rcases Nat.lt_or_ge x.toNat alloc.nextID.toNat with h | h
    · exact .inr ⟨h1, h⟩
    · exact .inl ⟨h, h2⟩

/-- With the cursor at initNextID and the whole range in use, acquireLocalID of a new address
never returns, for any fuel. -/
theorem acquireLocalID_stuck {alloc : idAllocator w A} {a : A}
    (hn : alloc.nextID = alloc.initNextID) (hIM : alloc.initNextID.toNat < alloc.maxID.toNat)
    (hfull : ∀ x : BitVec w, alloc.initNextID.toNat ≤ x.toNat → x.toNat < alloc.maxID.toNat →
      alloc.idToAddr.lookup x ≠ none)
    (ha : alloc.addrToId.lookup a = none) (fuel : Nat) : alloc.acquireLocalID a fuel = none := by
  rw [acquireLocalID, ha]
  obtain ⟨idToAddr, addrToId, nextID, maxID, initNextID, initMaxID⟩ := alloc
  dsimp only at hn hIM hfull ⊢
  subst hn
  exact acquireLoop_stuck ⟨idToAddr, addrToId, nextID, maxID, nextID, initMaxID⟩ hIM
    hfull fuel nextID false (.inl ⟨rfl, le_refl _, Nat.le_of_lt hIM⟩)

/-- The range [1, 2) filled by a direct addID of ID 1: the search for another address never
returns. -/
theorem acquireLocalID_stuck_one_slot :
    ((newIDAllocator 1 2 : idAllocator 16 Nat).addID 7 1).2.acquireLocalID 8 100 = none := by
  refine acquireLocalID_stuck rfl (by decide) (fun x h1 h2 => ?_) rfl 100
  have e1 : (1 : BitVec 16).toNat = 1 := rfl
  have e2 : (2 : BitVec 16).toNat = 2 := rfl
  have hx : x = 1 := BitVec.eq_of_toNat_eq (by simp only [addID, newIDAllocator] at h1 h2; omega)
  subst hx
  decide

/-- After IDs 1 to 3 are taken and 2 is given back, the cursor sits at `maxID`: the next search
rolls over to `initNextID`, passes the taken ID 1 and takes 2. -/
theorem acquireLocalID_spec_wrap :
    let a : idAllocator 16 Nat :=
      ⟨((∅ : AList _).insert 1 10).insert 3 12, ((∅ : AList _).insert 10 1).insert 12 3, 4, 4, 1, 4⟩
    ((((newIDAllocator 1 4 : idAllocator 16 Nat).acquireLocalID 10 6).bind
        fun r => r.2.acquireLocalID 11 6).bind fun r => r.2.acquireLocalID 12 6).map
        (fun r => r.2.deleteLocalID 2) = some a ∧
      ∃ res, a.acquireLocalID 13 6 = some res ∧ SearchResult a 13 1 4 res :=
  ⟨rfl, acquireLocalID_spec (by decide) (by decide) (by decide)
    (.inr ⟨2, by decide, by decide, by decide⟩) (by decide) (by decide)⟩

theorem Inverse.congr {alloc alloc' : idAllocator w A} (h : alloc.Inverse)
    (h1 : alloc'.idToAddr = alloc.idToAddr) (h2 : alloc'.addrToId = alloc.addrToId) :
    alloc'.Inverse := by
  intro id a
  rw [h1, h2]
  exact h id a

/-- acquireLocalID keeps the maps mutually inverse. -/
theorem Inverse.acquireLocalID {alloc : idAllocator w A} {a : A} {fuel : Nat}
    {res : Except String (BitVec w) × idAllocator w A} (h : alloc.Inverse)
    (hres : alloc.acquireLocalID a fuel = some res) : res.2.Inverse := by
  unfold idAllocator.acquireLocalID at hres
  split at hres
  · cases hres
    exact h
  · rename_i ha
    rcases acquireLoop_maps hres with ⟨h1, h2⟩ | ⟨x, hx, h1, h2⟩
    · exact h.congr h1 h2
    · exact (h.addID hx ha).congr h1 h2

end idAllocator

end Cilium.LoadBalancer
