import Cilium.LoadBalancer.IdAllocator

/-! The ID bookkeeping of `BPFOps` (`pkg/loadbalancer/reconciler/bpf_reconciler.go`) for
services: the restore of IDs from the service map in `ResetAndRestore`, with the migration of
`ANY`-protocol entries, the ID assignment of `updateFrontend`, the release in `deleteFrontend` and
`pruneRestoredIDs`.  Backends go through the same code with their own allocator. -/

namespace Cilium.LoadBalancer

/-- `L4Type`. -/
inductive L4Type where
  | NONE
  | ANY
  | TCP
  | UDP
  | SCTP
  deriving DecidableEq, Repr

/-- `L3n4Addr`, over a type of cluster addresses. -/
structure L3n4Addr (C : Type) where
  addrCluster : C
  port : UInt16
  protocol : L4Type
  scope : UInt8
  deriving DecidableEq, Repr

/-- `NewL3n4Addr`. -/
def NewL3n4Addr {C : Type} (protocol : L4Type) (addrCluster : C) (portNumber : UInt16)
    (scope : UInt8) : L3n4Addr C :=
  { addrCluster, port := portNumber, protocol, scope }

/-- A service ID. -/
abbrev ServiceID := BitVec 16

/-- The service-ID state of `BPFOps`. -/
structure BPFOps (C : Type) where
  serviceIDAlloc : idAllocator 16 (L3n4Addr C)
  restoredServiceIDs : AList (fun _ : L3n4Addr C => ServiceID)

namespace BPFOps

variable {C : Type} [DecidableEq C]

/-- One master entry of the service map in `ResetAndRestore`: its ID is kept for its address, or
for the TCP, UDP and SCTP addresses of an `ANY` entry, and the cursor moves past it. -/
def restoreServiceID (ops : BPFOps C) (entry : L3n4Addr C × ServiceID) : BPFOps C :=
  let addr := entry.1
  let id := entry.2
  let restored :=
    if addr.protocol = .ANY then
      -- migrate from 'ANY' protocol by reusing the ID
      ((ops.restoredServiceIDs.insert (NewL3n4Addr .TCP addr.addrCluster addr.port addr.scope) id).insert
        (NewL3n4Addr .UDP addr.addrCluster addr.port addr.scope) id).insert
        (NewL3n4Addr .SCTP addr.addrCluster addr.port addr.scope) id
    else ops.restoredServiceIDs.insert addr id
  let alloc := ops.serviceIDAlloc
  -- max(nextID, id+1), in 16 bits
  { serviceIDAlloc := { alloc with nextID := if alloc.nextID < id + 1 then id + 1 else alloc.nextID }
    restoredServiceIDs := restored }

/-- The service part of `ResetAndRestore`, over the master entries of the service map in the
order the dump of `serviceSlots` visits them. -/
def ResetAndRestore (entries : List (L3n4Addr C × ServiceID)) : BPFOps C :=
  entries.foldl restoreServiceID
    { serviceIDAlloc := newIDAllocator firstFreeServiceID maxSetOfServiceID
      restoredServiceIDs := ∅ }

/-- The ID assignment of `updateFrontend`: a restored ID is taken over, otherwise one is
acquired; `none` when the fuel of the search runs out. -/
def updateFrontend (ops : BPFOps C) (addr : L3n4Addr C) (fuel : Nat) :
    Option (Except String ServiceID × BPFOps C) :=
  match ops.restoredServiceIDs.lookup addr with
  | some id =>
    some (.ok id,
      { serviceIDAlloc := (ops.serviceIDAlloc.addID addr id).2
        restoredServiceIDs := ops.restoredServiceIDs.erase addr })
  | none =>
    match ops.serviceIDAlloc.acquireLocalID addr fuel with
    | none => none
    | some (.ok id, alloc) => some (.ok id, { ops with serviceIDAlloc := alloc })
    | some (.error e, alloc) =>
      some (.error ("failed to allocate id: " ++ e), { ops with serviceIDAlloc := alloc })

/-- The ID release of `deleteFrontend`: a frontend without an ID was never reconciled. -/
def deleteFrontend (ops : BPFOps C) (addr : L3n4Addr C) : BPFOps C :=
  match ops.serviceIDAlloc.lookupLocalID addr with
  | .error _ => ops
  | .ok feID => { ops with serviceIDAlloc := ops.serviceIDAlloc.deleteLocalID feID }

/-- `pruneRestoredIDs`. -/
def pruneRestoredIDs (ops : BPFOps C) : BPFOps C := { ops with restoredServiceIDs := ∅ }


/-- The calls of BPFOps that touch service IDs. -/
inductive Op (C : Type) where
  | updateFrontend (addr : L3n4Addr C)
  | deleteFrontend (addr : L3n4Addr C)
  | pruneRestoredIDs

/-- A bound on the iterations of the search in the service range: maxID - initNextID + 2. -/
def serviceFuel : Nat := 0x10000

/-- One call; `none` if the search of updateFrontend does not return within serviceFuel. -/
def Op.apply (ops : BPFOps C) : Op C → Option (BPFOps C)
  | .updateFrontend addr => (ops.updateFrontend addr serviceFuel).map Prod.snd
  | .deleteFrontend addr => some (ops.deleteFrontend addr)
  | .pruneRestoredIDs => some ops.pruneRestoredIDs

/-- A sequence of calls. -/
def runOps (ops : BPFOps C) : List (Op C) → Option (BPFOps C)
  | [] => some ops
  | op :: rest => (Op.apply ops op).bind (fun ops' => runOps ops' rest)

/-- A service map with the ANY entry 10.0.0.1:80 (cluster address 0) of ID 1 and a TCP entry
of ID 0xFFFE: after the TCP and UDP frontends of the ANY entry take its ID and the UDP one is
deleted, a new frontend gets ID 1 too, while the TCP one still holds it. -/
theorem any_migration_shares_service_id :
    (runOps (ResetAndRestore [(NewL3n4Addr .ANY (0 : Nat) 80 0, 1), (NewL3n4Addr .TCP 1 80 0, 0xFFFE)])
      [.updateFrontend (NewL3n4Addr .TCP 0 80 0), .updateFrontend (NewL3n4Addr .UDP 0 80 0),
        .deleteFrontend (NewL3n4Addr .UDP 0 80 0), .updateFrontend (NewL3n4Addr .TCP 2 80 0)]).map
      (fun ops => (ops.serviceIDAlloc.addrToId.lookup (NewL3n4Addr .TCP 0 80 0),
        ops.serviceIDAlloc.addrToId.lookup (NewL3n4Addr .TCP 2 80 0))) = some (some 1, some 1) := by
  decide

theorem lookup_insert_eq_some {β : Type} {r : AList (fun _ : L3n4Addr C => β)} {a a' : L3n4Addr C}
    {v x : β} (h : (r.insert a v).lookup a' = some x) : v = x ∨ r.lookup a' = some x := by
  by_cases ha : a' = a
  · subst ha
    rw [AList.lookup_insert] at h
    exact .inl (Option.some.inj h)
  · rw [AList.lookup_insert_ne ha] at h
    exact .inr h

theorem lookup_erase_eq_some {β : Type} {r : AList (fun _ : L3n4Addr C => β)} {a a' : L3n4Addr C}
    {x : β} (h : (r.erase a).lookup a' = some x) : r.lookup a' = some x := by
  by_cases ha : a' = a
  · subst ha
    rw [AList.lookup_erase] at h
    cases h
  · rwa [AList.lookup_erase_ne ha] at h

/-- The facts about the service cursor that every BPFOps state keeps: the range is the service
range, the cursor is in it, and a cursor still at the start finds the whole range free and no
restored ID in it. -/
structure Cursor (ops : BPFOps C) : Prop where
  init : ops.serviceIDAlloc.initNextID = firstFreeServiceID
  max : ops.serviceIDAlloc.maxID = maxSetOfServiceID
  low : 1 ≤ ops.serviceIDAlloc.nextID.toNat
  fresh : ops.serviceIDAlloc.nextID.toNat = 1 → ∀ x : ServiceID, 1 ≤ x.toNat → x.toNat < 0xFFFF →
    ops.serviceIDAlloc.idToAddr.lookup x = none ∧ ∀ a, ops.restoredServiceIDs.lookup a ≠ some x

section Cursor

variable {ops : BPFOps C}

theorem Cursor.initial :
    Cursor ({ serviceIDAlloc := newIDAllocator firstFreeServiceID maxSetOfServiceID
              restoredServiceIDs := ∅ } : BPFOps C) :=
  ⟨rfl, rfl, Nat.le_refl 1, fun _ _ _ _ => ⟨rfl, fun _ h => by cases h⟩⟩

/-- A restored ID moves the cursor past it, and one that leaves the cursor at the start lies
outside the range: it is 0, or 0xFFFF, whose successor wraps to 0. -/
theorem Cursor.restoreServiceID (h : Cursor ops) (entry : L3n4Addr C × ServiceID) :
    Cursor (ops.restoreServiceID entry) := by
  obtain ⟨addr, id⟩ := entry
  have hid := id.isLt
  have hsucc : (id + 1).toNat = (id.toNat + 1) % 2 ^ 16 := by
    rw [BitVec.toNat_add, BitVec.ofNat_eq_ofNat, BitVec.toNat_ofNat]
  refine ⟨h.init, h.max, ?_, ?_⟩
  · simp only [BPFOps.restoreServiceID]
    split
    · rename_i hlt
      rw [BitVec.lt_def] at hlt
      have := h.low
      omega
    · exact h.low
  · simp only [BPFOps.restoreServiceID]
    intro h1 x hx1 hx2
    split at h1
    · rename_i hlt
      rw [BitVec.lt_def] at hlt
      have := h.low
      omega
    · rename_i hge
      rw [BitVec.lt_def] at hge
      obtain ⟨hfree, hres⟩ := h.fresh h1 x hx1 hx2
      have hne : id ≠ x := fun e => by subst e; omega
      refine ⟨hfree, fun a ha => ?_⟩
      split at ha
      · rcases lookup_insert_eq_some ha with e | ha
        · exact hne e
        rcases lookup_insert_eq_some ha with e | ha
        · exact hne e
        rcases lookup_insert_eq_some ha with e | ha
        · exact hne e
        · exact hres a ha
      · rcases lookup_insert_eq_some ha with e | ha
        · exact hne e
        · exact hres a ha

theorem Cursor.resetAndRestore (entries : List (L3n4Addr C × ServiceID)) :
    Cursor (ResetAndRestore entries) := by
  unfold ResetAndRestore
  induction entries using List.reverseRecOn with
  | nil => exact Cursor.initial
  | append_singleton entries e ih =>
    rw [List.foldl_append, List.foldl_cons, List.foldl_nil]
    exact ih.restoreServiceID e

/-- Under the cursor invariant the search of a new address returns within serviceFuel: a free ID
of the service range, or the error exactly when the range is full. -/
theorem Cursor.acquire (h : Cursor ops) {addr : L3n4Addr C}
    (ha : ops.serviceIDAlloc.addrToId.lookup addr = none) :
    ∃ res, ops.serviceIDAlloc.acquireLocalID addr serviceFuel = some res ∧
      idAllocator.SearchResult ops.serviceIDAlloc addr 1 ops.serviceIDAlloc.nextID res := by
  have hI : ops.serviceIDAlloc.initNextID.toNat = 1 := by rw [h.init]; rfl
  have hM : ops.serviceIDAlloc.maxID.toNat = 0xFFFF := by rw [h.max]; rfl
  have hn := ops.serviceIDAlloc.nextID.isLt
  have hlow := h.low
  -- a cursor at the start sees initNextID itself free
  have hstart : ops.serviceIDAlloc.initNextID.toNat < ops.serviceIDAlloc.nextID.toNat ∨
      ∃ x : BitVec 16, ops.serviceIDAlloc.initNextID.toNat ≤ x.toNat ∧
        x.toNat < ops.serviceIDAlloc.maxID.toNat ∧ ops.serviceIDAlloc.idToAddr.lookup x = none := by
    rcases Nat.lt_or_ge 1 ops.serviceIDAlloc.nextID.toNat with h1 | h1
    · exact .inl (by omega)
    · refine .inr ⟨ops.serviceIDAlloc.initNextID, le_refl _, by omega, ?_⟩
      exact (h.fresh (by omega) _ (by omega) (by omega)).1
  obtain ⟨res, hres, hs⟩ : ∃ res, ops.serviceIDAlloc.acquireLocalID addr serviceFuel = some res ∧
      idAllocator.SearchResult ops.serviceIDAlloc addr ops.serviceIDAlloc.initNextID.toNat
        ops.serviceIDAlloc.nextID res :=
    idAllocator.acquireLocalID_spec (by omega) (by omega) (by omega) hstart ha
      (by rw [hI, hM]; decide)
  exact ⟨res, hres, hI ▸ hs⟩

theorem Cursor.withAlloc (h : Cursor ops) {alloc : idAllocator 16 (L3n4Addr C)}
    (hi : alloc.initNextID = ops.serviceIDAlloc.initNextID)
    (hm : alloc.maxID = ops.serviceIDAlloc.maxID)
    (hlow : 1 ≤ alloc.nextID.toNat)
    (hfresh : alloc.nextID.toNat = 1 → ∀ x : ServiceID, 1 ≤ x.toNat → x.toNat < 0xFFFF →
      alloc.idToAddr.lookup x = none ∧ ∀ a, ops.restoredServiceIDs.lookup a ≠ some x) :
    Cursor { ops with serviceIDAlloc := alloc } :=
  ⟨hi.trans h.init, hm.trans h.max, hlow, hfresh⟩

/-- What a search leaves behind keeps the invariant: a taken ID moves the cursor past the start,
and the error leaves the allocator as it was. -/
theorem Cursor.searchResult (h : Cursor ops) {addr : L3n4Addr C}
    {res : Except String ServiceID × idAllocator 16 (L3n4Addr C)}
    (hs : idAllocator.SearchResult ops.serviceIDAlloc addr 1 ops.serviceIDAlloc.nextID res) :
    Cursor { ops with serviceIDAlloc := res.2 } := by
  rcases hs with ⟨x, hx1, hx2, -, rfl⟩ | ⟨-, rfl⟩
  · have := idAllocator.toNat_add_one_of_lt hx2
    exact h.withAlloc rfl rfl (by simp only at this ⊢; omega) (fun h1 => by simp only at this h1; omega)
  · exact h

theorem Cursor.updateFrontend (h : Cursor ops) {addr : L3n4Addr C}
    {r : Except String ServiceID × BPFOps C} (hres : ops.updateFrontend addr serviceFuel = some r) :
    Cursor r.2 := by
  unfold BPFOps.updateFrontend at hres
  split at hres
  -- a restored ID lies outside the range while the cursor is at the start
  · rename_i id hid
    cases hres
    refine ⟨h.init, h.max, h.low, fun h1 x hx1 hx2 => ?_⟩
    obtain ⟨hfree, hres⟩ := h.fresh h1 x hx1 hx2
    have hne : x ≠ id := fun e => hres addr (e ▸ hid)
    refine ⟨?_, fun a ha => hres a (lookup_erase_eq_some ha)⟩
    simp only [idAllocator.addID]
    rw [AList.lookup_insert_ne hne]
    exact hfree
  · rename_i hnone
    by_cases ha : ops.serviceIDAlloc.addrToId.lookup addr = none
    · obtain ⟨res, hacq, hs⟩ := h.acquire ha
      rw [hacq] at hres
      have hc := h.searchResult hs
      obtain ⟨e, alloc⟩ := res
      cases e <;> (cases hres; exact hc)
    · obtain ⟨id, hid⟩ := Option.ne_none_iff_exists'.1 ha
      rw [idAllocator.acquireLocalID_existing serviceFuel hid] at hres
      cases hres
      exact h

theorem Cursor.deleteFrontend (h : Cursor ops) (addr : L3n4Addr C) :
    Cursor (ops.deleteFrontend addr) := by
  unfold BPFOps.deleteFrontend
  split
  · exact h
  · refine h.withAlloc (by simp) (by simp) (by simpa using h.low) (fun h1 x hx1 hx2 => ?_)
    obtain ⟨hfree, hres⟩ := h.fresh (by simpa using h1) x hx1 hx2
    exact ⟨idAllocator.lookup_deleteLocalID_of_none hfree, hres⟩

theorem Cursor.apply (h : Cursor ops) {op : Op C} {ops' : BPFOps C}
    (hop : Op.apply ops op = some ops') : Cursor ops' := by
  cases op with
  | updateFrontend addr =>
    obtain ⟨r, hr, rfl⟩ := Option.map_eq_some_iff.1 hop
    exact h.updateFrontend hr
  | deleteFrontend addr =>
    cases hop
    exact h.deleteFrontend addr
  | pruneRestoredIDs =>
    cases hop
    exact ⟨h.init, h.max, h.low, fun h1 x hx1 hx2 => ⟨(h.fresh h1 x hx1 hx2).1, fun _ ha => by cases ha⟩⟩

theorem Cursor.updateFrontend_isSome (h : Cursor ops) (addr : L3n4Addr C) :
    ∃ r, ops.updateFrontend addr serviceFuel = some r := by
  unfold BPFOps.updateFrontend
  split
  · exact ⟨_, rfl⟩
  · by_cases ha : ops.serviceIDAlloc.addrToId.lookup addr = none
    · obtain ⟨res, hacq, -⟩ := h.acquire ha
      rw [hacq]
      obtain ⟨e, alloc⟩ := res
      cases e <;> exact ⟨_, rfl⟩
    · obtain ⟨id, hid⟩ := Option.ne_none_iff_exists'.1 ha
      rw [idAllocator.acquireLocalID_existing serviceFuel hid]
      exact ⟨_, rfl⟩

/-- Every call from a state with the invariant returns. -/
theorem Cursor.apply_isSome (h : Cursor ops) (op : Op C) : ∃ ops', Op.apply ops op = some ops' := by
  cases op with
  | updateFrontend addr =>
    obtain ⟨r, hr⟩ := h.updateFrontend_isSome addr
    exact ⟨r.2, by rw [Op.apply, hr]; rfl⟩
  | deleteFrontend addr => exact ⟨_, rfl⟩
  | pruneRestoredIDs => exact ⟨_, rfl⟩

theorem Cursor.runOps (h : Cursor ops) (calls : List (Op C)) :
    ∃ ops', BPFOps.runOps ops calls = some ops' ∧ Cursor ops' := by
  induction calls generalizing ops with
  | nil => exact ⟨ops, rfl, h⟩
  | cons op rest ih =>
    obtain ⟨ops1, h1⟩ := h.apply_isSome op
    obtain ⟨ops', h2, hc⟩ := ih (h.apply h1)
    exact ⟨ops', by rw [BPFOps.runOps, h1]; exact h2, hc⟩

end Cursor

/-- The maps once the restored IDs are pruned: mutually inverse, with nothing left to restore. -/
structure Steady (ops : BPFOps C) : Prop where
  pruned : ops.restoredServiceIDs = ∅
  inverse : ops.serviceIDAlloc.Inverse

theorem Steady.apply {ops ops' : BPFOps C} (h : Steady ops) {op : Op C}
    (hop : Op.apply ops op = some ops') : Steady ops' := by
  cases op with
  | updateFrontend addr =>
    obtain ⟨r, hr, rfl⟩ := Option.map_eq_some_iff.1 hop
    unfold BPFOps.updateFrontend at hr
    rw [h.pruned] at hr
    simp only [AList.lookup_empty] at hr
    -- with nothing restored, the ID comes from acquireLocalID
    split at hr
    · cases hr
    · cases hr
      exact ⟨rfl, h.inverse.acquireLocalID (by assumption)⟩
    · cases hr
      exact ⟨rfl, h.inverse.acquireLocalID (by assumption)⟩
  | deleteFrontend addr =>
    cases hop
    unfold BPFOps.deleteFrontend
    split
    · exact h
    · exact ⟨h.pruned, h.inverse.deleteLocalID _⟩
  | pruneRestoredIDs =>
    cases hop
    exact ⟨rfl, h.inverse⟩

/-- Once the restored IDs are pruned from inverse maps, every later sequence of calls keeps each
ID naming one address and back. -/
theorem steady_runOps_inverse {ops ops' : BPFOps C} (h : Steady ops) {calls : List (Op C)}
    (hrun : runOps ops calls = some ops') : ops'.serviceIDAlloc.Inverse := by
  induction calls generalizing ops with
  | nil =>
    cases hrun
    exact h.inverse
  | cons op rest ih =>
    rw [BPFOps.runOps] at hrun
    obtain ⟨ops1, h1, h2⟩ := Option.bind_eq_some_iff.1 hrun
    exact ih (h.apply h1) h2

theorem steady_runOps_inverse_first :
    ∃ ops', runOps (ResetAndRestore [] : BPFOps Nat) [.updateFrontend (NewL3n4Addr .TCP 0 80 0)] =
      some ops' ∧ ops'.serviceIDAlloc.Inverse :=
  ⟨_, rfl, @steady_runOps_inverse Nat _ (ResetAndRestore []) _
    ⟨rfl, idAllocator.newIDAllocator_inverse _ _⟩ [.updateFrontend (NewL3n4Addr .TCP 0 80 0)] rfl⟩

/-- Whatever the service map restored and whatever sequence of updates, deletions and the prune
of restored IDs follows, every call returns: the search of updateFrontend stops within
maxID - initNextID + 2 iterations, with a free ID of the service range or the error exactly when
the range is full. -/
theorem updateFrontend_terminates (entries : List (L3n4Addr C × ServiceID)) (calls : List (Op C)) :
    ∃ ops, runOps (ResetAndRestore entries) calls = some ops ∧
      ∀ addr, ops.serviceIDAlloc.addrToId.lookup addr = none →
        ∃ res, ops.serviceIDAlloc.acquireLocalID addr serviceFuel = some res ∧
          idAllocator.SearchResult ops.serviceIDAlloc addr 1 ops.serviceIDAlloc.nextID res := by
  obtain ⟨ops, hrun, hc⟩ := (Cursor.resetAndRestore entries).runOps calls
  exact ⟨ops, hrun, fun addr ha => hc.acquire ha⟩

end BPFOps

end Cilium.LoadBalancer
