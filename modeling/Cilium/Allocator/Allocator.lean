import Mathlib.Data.List.AList
import Cilium.IdPool.Pool

/-! The kvstore-backed allocator of `pkg/allocator`: the local keys with their reference counts
(`localkeys.go`), `lockedAllocate`, `Allocate` and `Release` (`allocator.go`), and the calls in
progress on one allocator.  A call of `Allocate` is two kinds of atomic steps, `localKeys.use`
and `lockedAllocate`, which holds the kvstore lock of the key and `slaveKeysMutex` and so runs
alone among the calls of this allocator except for `use`; a call of `Release` is one step under
`slaveKeysMutex`.  The kvstore is the ID that a read of a key's value keys finds; each backend
operation may fail, as the step says, and the kvstore may lose a key between steps.  A key is
its `GetKey` string; the main cache is the kvstore as the watcher has caught up with it. -/

namespace Cilium.Allocator

set_option linter.dupNamespace false

open Cilium.IdPool

/-- `localKey`. -/
structure localKey where
  val : ID
  key : String
  refcnt : ℕ
  verified : Bool
  deriving DecidableEq, Repr

/-- `localKeys`; an entry of `ids` points to the local key of the string it holds. -/
structure localKeys where
  keys : AList fun _ : String => localKey
  ids : AList fun _ : ID => String

namespace localKeys

/-- `newLocalKeys`. -/
def newLocalKeys : localKeys := ⟨∅, ∅⟩

/-- `localKeys.allocate`: one more reference to the key with the value, which must be the one it
has; the value, and whether the key is new. -/
def allocate (lk : localKeys) (keyString : String) (val : ID) : localKeys × Except String (ID × Bool) :=
  match lk.keys.lookup keyString with
  | some k =>
    if val ≠ k.val then
      (lk, .error ("local key already allocated with different value (" ++ toString val ++
        " != " ++ toString k.val ++ ")"))
    else ({ lk with keys := lk.keys.insert keyString { k with refcnt := k.refcnt + 1 } }, .ok (k.val, false))
  | none => (⟨lk.keys.insert keyString ⟨val, keyString, 1, false⟩, lk.ids.insert val keyString⟩, .ok (val, true))

/-- `localKeys.verify`. -/
def verify (lk : localKeys) (key : String) : localKeys × Except String Unit :=
  match lk.keys.lookup key with
  | some k => ({ lk with keys := lk.keys.insert key { k with verified := true } }, .ok ())
  | none => (lk, .error ("key " ++ key ++ " not found"))

/-- `localKeys.lookupKey`. -/
def lookupKey (lk : localKeys) (key : String) : ID :=
  match lk.keys.lookup key with
  | some k => k.val
  | none => NoID

/-- `localKeys.use`: one more reference to a verified key, and its value; an unverified key is
as if it were absent. -/
def use (lk : localKeys) (key : String) : localKeys × ID :=
  match lk.keys.lookup key with
  | some k =>
    if !k.verified then (lk, NoID)
    else ({ lk with keys := lk.keys.insert key { k with refcnt := k.refcnt + 1 } }, k.val)
  | none => (lk, NoID)

/-- `localKeys.release`: one reference fewer, the key gone with its last one; whether it was the
last, and the value. -/
def release (lk : localKeys) (key : String) : localKeys × Except String (Bool × ID) :=
  match lk.keys.lookup key with
  | some k =>
    let k := { k with refcnt := k.refcnt - 1 }
    if k.refcnt = 0 then (⟨lk.keys.erase key, lk.ids.erase k.val⟩, .ok (true, k.val))
    else ({ lk with keys := lk.keys.insert key k }, .ok (false, k.val))
  | none => (lk, .error "unable to find key in local cache")

/-- The reference count of a key, `0` when absent. -/
def refcnt (lk : localKeys) (key : String) : ℕ := ((lk.keys.lookup key).map (·.refcnt)).getD 0

end localKeys

/-- The kvstore as the allocator sees it: the ID that the value keys of a key hold, and the
master keys. -/
structure Backend where
  values : AList fun _ : String => ID
  masters : AList fun _ : ID => String

namespace Backend

/-- `GetIfLocked`, `Get` and `GetNoCache`: the ID of the key, `0` when it has none. -/
def get (b : Backend) (key : String) : ID := (b.values.lookup key).getD 0

/-- `UpdateKeyIfLocked(id, key, true)`: the master key and this node's value key, made again. -/
def updateKeyIfLocked (b : Backend) (id : ID) (key : String) : Backend :=
  ⟨b.values.insert key id, if id ∈ b.masters then b.masters else b.masters.insert id key⟩

/-- `AllocateIDIfLocked`: the master key of a new ID, or `none` when it exists. -/
def allocateIDIfLocked (b : Backend) (id : ID) (key : String) : Option Backend :=
  if id ∈ b.masters then none else some { b with masters := b.masters.insert id key }

/-- `AcquireReference`: this node's value key. -/
def acquireReference (b : Backend) (id : ID) (key : String) : Backend :=
  { b with values := b.values.insert key id }

/-- `Release`: this node's value key goes. -/
def release (b : Backend) (key : String) : Backend := { b with values := b.values.erase key }

/-- The kvstore loses a key: its value keys and the master key of its ID. -/
def lose (b : Backend) (key : String) : Backend := ⟨b.values.erase key, b.masters.erase (b.get key)⟩

end Backend

/-- The error of a failed backend operation, which the allocator passes on or wraps. -/
def kvstoreError : String := "kvstore operation failed"

/-- Which of the backend operations of one `lockedAllocate` fail. -/
structure Faults where
  lock : Bool
  getIfLocked : Bool
  updateKey : Bool
  acquireReference : Bool
  getNoCache : Bool
  allocateID : Bool
  deriving DecidableEq, Repr

/-- No operation fails. -/
def Faults.none : Faults := ⟨false, false, false, false, false, false⟩

/-- `Allocator` in kvstore mode. -/
structure Allocator where
  localKeys : localKeys
  backend : Backend
  idPool : idCache
  prefixMask : ID
  maxAllocAttempts : ℕ

namespace Allocator

/-- `selectAvailableID`, with the ID that the pool picks: the masked ID, the pool's ID, and the
pool after the lease. -/
def selectAvailableID (a : Allocator) (picked : ID) : ID × ID × idCache :=
  let (id, c) := if picked ∈ a.idPool.ids then
      idCache.markLeased { a.idPool with ids := a.idPool.ids.erase picked } picked
    else (NoID, a.idPool)
  if id ≠ NoID then (id ||| a.prefixMask, id, c) else (0, 0, c)

/-- The end of `lockedAllocate` for a key that has an ID: this node's reference in the kvstore,
then the local key verified; a failed reference gives back one local reference. -/
def acquireVerified (a : Allocator) (key : String) (f : Faults) (value : ID) (firstUse : Bool) :
    Allocator × Except String (ID × Bool × Bool) :=
  if f.acquireReference then
    ({ a with localKeys := (a.localKeys.release key).1 },
      .error ("unable to create secondary key '" ++ key ++ "': " ++ kvstoreError))
  else
    let a := { a with backend := a.backend.acquireReference value key }
    ({ a with localKeys := (a.localKeys.verify key).1 }, .ok (value, false, firstUse))

/-- The part of `lockedAllocate` that allocates a new ID for the key. -/
def allocateNew (a : Allocator) (key : String) (f : Faults) (picked : ID) :
    Allocator × Except String (ID × Bool × Bool) :=
  let (id, unmaskedID, pool) := a.selectAvailableID picked
  let a := { a with idPool := pool }
  if id = 0 then (a, .error "no more available IDs in configured space")
  else
    let releaseKeyAndID (a : Allocator) : Allocator :=
      { a with localKeys := (a.localKeys.release key).1, idPool := (a.idPool.release unmaskedID).2 }
    match a.localKeys.allocate key id with
    | (_, .error e) => ({ a with idPool := (a.idPool.release unmaskedID).2 },
        .error ("unable to reserve local key '" ++ key ++ "': " ++ e))
    | (lk, .ok (oldID, firstUse)) =>
      let a := { a with localKeys := lk }
      if id ≠ oldID then (releaseKeyAndID a, .error ("another writer has allocated key " ++ key))
      else if f.getNoCache then (releaseKeyAndID a, .error kvstoreError)
      else if a.backend.get key ≠ 0 then
        (releaseKeyAndID a, .error ("Found master key after proceeding with new allocation for " ++ key))
      else
        match (if f.allocateID then none else a.backend.allocateIDIfLocked id key) with
        | none => (releaseKeyAndID a,
            .error ("unable to allocate ID " ++ toString id ++ " for key " ++ key ++ ": " ++ kvstoreError))
        | some b =>
          let a := { a with backend := b, idPool := (a.idPool.use unmaskedID).2 }
          if f.acquireReference then
            (releaseKeyAndID a, .error ("secondary key creation failed '" ++ key ++ "': " ++ kvstoreError))
          else
            let a := { a with backend := a.backend.acquireReference id key }
            ({ a with localKeys := (a.localKeys.verify key).1 }, .ok (id, true, firstUse))

/-- `Allocator.lockedAllocate`: the ID, whether it is new in the kvstore, and whether this is the
first local reference.  A key that the kvstore lost but that has local references gets its master
key again and is reused without a local reference. -/
def lockedAllocate (a : Allocator) (key : String) (f : Faults) (picked : ID) :
    Allocator × Except String (ID × Bool × Bool) :=
  if f.lock then (a, .error kvstoreError)
  else if f.getIfLocked then (a, .error kvstoreError)
  else
    let value := a.backend.get key
    if value = 0 then
      let value := a.localKeys.lookupKey key
      if value ≠ 0 then
        if f.updateKey then
          (a, .error ("unable to re-create missing master key '" ++ key ++ "': " ++ toString value ++
            " while allocating ID: " ++ kvstoreError))
        else { a with backend := a.backend.updateKeyIfLocked value key }.acquireVerified key f value false
      else a.allocateNew key f picked
    else
      match a.localKeys.allocate key value with
      | (_, .error e) => (a, .error ("unable to reserve local key '" ++ key ++ "': " ++ e))
      | (lk, .ok (_, firstUse)) => { a with localKeys := lk }.acquireVerified key f value firstUse

/-- `Allocator.Release`: one local reference fewer, and this node's reference in the kvstore
released with the last one; whether it was the last. -/
def release (a : Allocator) (key : String) : Allocator × Except String Bool :=
  match a.localKeys.release key with
  | (_, .error e) => (a, .error e)
  | (lk, .ok (lastUse, _)) =>
    let a := { a with localKeys := lk }
    (if lastUse then { a with backend := a.backend.release key } else a, .ok lastUse)

end Allocator

/-- Where a call in progress is: an `Allocate` at the head of an attempt, or past a `use` that
found no verified key and before `lockedAllocate`; or a `Release`. -/
inductive Call where
  | allocate (key : String) (attempt : ℕ) (locked : Bool)
  | release (key : String)
  deriving DecidableEq, Repr

/-- What a call returned. -/
inductive Ret where
  | allocated (key : String) (id : ID)
  | allocateFailed (key : String) (err : String)
  | released (key : String) (lastUse : Bool)
  | releaseFailed (key : String) (err : String)
  deriving DecidableEq, Repr

/-- A successful `Allocate` of the key. -/
def Ret.isAllocationOf (key : String) : Ret → Bool
  | .allocated k _ => k == key
  | _ => false

/-- A successful `Release` of the key. -/
def Ret.isReleaseOf (key : String) : Ret → Bool
  | .released k _ => k == key
  | _ => false

/-- The allocator with the calls in progress, and what each call that ended returned. -/
structure Sys where
  a : Allocator
  calls : AList fun _ : ℕ => Call
  nextCall : ℕ
  log : List Ret

/-- The steps: a call starts, one atomic part of a call runs (`picked` is the ID the pool hands
out if `lockedAllocate` leases one), or the kvstore loses a key. -/
inductive Action where
  | startAllocate (key : String)
  | startRelease (key : String)
  | use (call : ℕ)
  | lockedAllocate (call : ℕ) (f : Faults) (picked : ID)
  | release (call : ℕ)
  | lose (key : String)
  deriving DecidableEq, Repr

namespace Sys

/-- An allocator with no call made. -/
def init (a : Allocator) : Sys := ⟨a, ∅, 0, []⟩

/-- The call ends with its result. -/
def finish (s : Sys) (call : ℕ) (r : Ret) : Sys :=
  { s with calls := s.calls.erase call, log := s.log ++ [r] }

/-- One step, or `none` when the call is not at that point (or `picked` is not one the pool can
hand out). -/
def step (s : Sys) : Action → Option Sys
  | .startAllocate key =>
    -- `for attempt := range a.maxAllocAttempts` with no attempt returns no ID and no error
    if s.a.maxAllocAttempts = 0 then some { s with log := s.log ++ [.allocated key 0] }
    else some { s with calls := s.calls.insert s.nextCall (.allocate key 0 false),
                       nextCall := s.nextCall + 1 }
  | .startRelease key =>
    some { s with calls := s.calls.insert s.nextCall (.release key), nextCall := s.nextCall + 1 }
  | .use c =>
    match s.calls.lookup c with
    | some (.allocate key attempt false) =>
      let (lk, val) := s.a.localKeys.use key
      let s := { s with a := { s.a with localKeys := lk } }
      if val ≠ NoID then some (s.finish c (.allocated key val))
      else some { s with calls := s.calls.insert c (.allocate key attempt true) }
    | _ => none
  | .lockedAllocate c f picked =>
    match s.calls.lookup c with
    | some (.allocate key attempt true) =>
      if picked ∈ s.a.idPool.ids ∨ s.a.idPool.ids = ∅ then
        let (a, r) := s.a.lockedAllocate key f picked
        let s := { s with a }
        match r with
        | .ok (value, _, _) => some (s.finish c (.allocated key value))
        | .error e =>
          if attempt + 1 < s.a.maxAllocAttempts then
            some { s with calls := s.calls.insert c (.allocate key (attempt + 1) false) }
          else some (s.finish c (.allocateFailed key e))
      else none
    | _ => none
  | .release c =>
    match s.calls.lookup c with
    | some (.release key) =>
      let (a, r) := s.a.release key
      let s := { s with a }
      match r with
      | .ok lastUse => some (s.finish c (.released key lastUse))
      | .error e => some (s.finish c (.releaseFailed key e))
    | _ => none
  | .lose key => some { s with a := { s.a with backend := s.a.backend.lose key } }

/-- A schedule of steps. -/
def run (s : Sys) : List Action → Option Sys
  | [] => some s
  | act :: rest => (s.step act).bind (·.run rest)

/-- The number of successful `Allocate` calls of the key. -/
def allocations (s : Sys) (key : String) : ℕ := s.log.countP (·.isAllocationOf key)

/-- The number of successful `Release` calls of the key. -/
def releases (s : Sys) (key : String) : ℕ := s.log.countP (·.isReleaseOf key)

/-- Two calls of `Allocate` race: both find no local key, the first allocates a new ID, the
kvstore then loses the key, and the second finds the ID only in the local keys.  It makes the
master key again and returns the ID without a local reference: with no call in progress, two
allocations hold one reference, and the first `Release` is taken as the last use and releases
the key in the kvstore. -/
theorem racing_allocate_skips_reference :
    let k := "app=web"
    let a : Allocator := ⟨localKeys.newLocalKeys, ⟨∅, ∅⟩, newIDCache 1 10, 0, 16⟩
    let race : List Action := [.startAllocate k, .startAllocate k, .use 0, .use 1,
      .lockedAllocate 0 .none 1, .lose k, .lockedAllocate 1 .none 2]
    ((init a).run race).map
        (fun s => (s.calls.entries, s.allocations k, s.releases k, s.a.localKeys.refcnt k)) =
      some ([], 2, 0, 1) ∧
    ((init a).run (race ++ [.startRelease k, .release 2])).map
        (fun s => (s.calls.entries, s.allocations k, s.releases k, s.log.getLast?)) =
      some ([], 2, 1, some (.released k true)) := by
  decide

end Sys

end Cilium.Allocator
