import Cilium.IPCache.IPCache
import Mathlib.Data.List.Sort

/-! The DNS zombies of `pkg/fqdn/cache.go`: name-to-IP mappings that expired from the DNS caches
but may still be in use by a connection, and `DNSZombieMappings.GC`, which splits them into the
zombies kept alive and those to delete, under a per-name limit and a global one.  A `time.Time` is
its instant in nanoseconds and the grace period of `option.Config` is a parameter.  The map from an
IP to its zombie is the list of the zombies, whose IPs are the map's keys, and a map's random
iteration order is the list's order. -/

namespace Cilium.Fqdn

open Cilium.Ipcache

/-- `fqdn.DNSZombieMapping`. -/
structure DNSZombieMapping where
  names : List String
  ip : Addr
  aliveAt : ℤ
  deletePendingAt : ℤ
  revisionAddedAt : ℕ
  deriving DecidableEq, Repr

/-- `DNSZombieMapping.DeepCopy`, which does not copy `revisionAddedAt`. -/
def DNSZombieMapping.deepCopy (zombie : DNSZombieMapping) : DNSZombieMapping :=
  { names := zombie.names, ip := zombie.ip, deletePendingAt := zombie.deletePendingAt,
    aliveAt := zombie.aliveAt, revisionAddedAt := 0 }

@[simp] theorem DNSZombieMapping.deepCopy_ip (z : DNSZombieMapping) : z.deepCopy.ip = z.ip := rfl

@[simp] theorem DNSZombieMapping.deepCopy_names (z : DNSZombieMapping) :
    z.deepCopy.names = z.names := rfl

/-- `fqdn.DNSZombieMappings`; its map `deletes` is the list of its zombies, one per IP. -/
structure DNSZombieMappings where
  deletes : List DNSZombieMapping
  lastCTGCUpdate : ℤ
  ctGCRevision : ℕ
  max : ℤ
  perHostLimit : ℤ
  nodup : (deletes.map DNSZombieMapping.ip).Nodup

/-- The names found alive by `getAliveNames`, each with the zombies that carry it. -/
abbrev AliveNames := AList fun _ : String => List DNSZombieMapping

/-- `sortZombieMappingSlice`'s order: by `AliveAt`, then `DeletePendingAt`, then the number of
names. -/
def zombieLess (a b : DNSZombieMapping) : Bool :=
  if a.aliveAt < b.aliveAt then true
  else if a.aliveAt > b.aliveAt then false
  else if a.deletePendingAt < b.deletePendingAt then true
  else if a.deletePendingAt > b.deletePendingAt then false
  else a.names.length < b.names.length

/-- `sortZombieMappingSlice`: the least important zombies first. -/
def sortZombieMappingSlice (alive : List DNSZombieMapping) : List DNSZombieMapping :=
  alive.insertionSort fun a b => !zombieLess b a

namespace DNSZombieMappings

variable (gracePeriod : ℤ) (zs : DNSZombieMappings)

/-- `isConnectionAlive`: a zombie is dead once a CT GC run after its deletion time and grace
period did not mark it alive, and CT GC ran twice since it was added. -/
def isConnectionAlive (zombie : DNSZombieMapping) : Bool :=
  if ¬zs.lastCTGCUpdate > zombie.deletePendingAt + gracePeriod then true
  else if ¬zs.lastCTGCUpdate > zombie.aliveAt then true
  else if zs.ctGCRevision < zombie.revisionAddedAt + 2 then true
  else false

/-- The first loop of `getAliveNames` at a name of a connection-alive zombie. -/
def addAliveName (zombie : DNSZombieMapping) (aliveNames : AliveNames) (name : String) :
    AliveNames :=
  aliveNames.insert name ((aliveNames.lookup name).getD [] ++ [zombie])

/-- The second loop of `getAliveNames` at a name of a dead zombie: only an alive name takes it. -/
def addDeadName (zombie : DNSZombieMapping) (aliveNames : AliveNames) (name : String) :
    AliveNames :=
  match aliveNames.lookup name with
  | some zombies => aliveNames.insert name (zombies ++ [zombie])
  | none => aliveNames

/-- The first loop of `getAliveNames`: each name of a connection-alive zombie is alive and takes
the zombie. -/
def collectAliveNames (aliveNames : AliveNames) (z : DNSZombieMapping) : AliveNames :=
  if zs.isConnectionAlive gracePeriod z then z.names.foldl (addAliveName z) aliveNames
  else aliveNames

/-- The second loop of `getAliveNames`: a dead zombie joins those of its names that are alive. -/
def collectDeadNames (aliveNames : AliveNames) (z : DNSZombieMapping) : AliveNames :=
  if !zs.isConnectionAlive gracePeriod z then z.names.foldl (addDeadName z) aliveNames
  else aliveNames

/-- `getAliveNames`: every name of a connection-alive zombie, with all the zombies carrying it. -/
def getAliveNames : AliveNames :=
  zs.deletes.foldl (zs.collectDeadNames gracePeriod)
    (zs.deletes.foldl (zs.collectAliveNames gracePeriod) ∅)

/-- The loop of `isZombieAlive` over the names of a zombie. -/
def isZombieAliveLoop (aliveNames : AliveNames) (alive : Bool) : List String → Bool × Bool
  | [] => (alive, false)
  | name :: names =>
    match aliveNames.lookup name with
    | some z =>
      if zs.perHostLimit = 0 then (true, false)
      else if (z.length : ℤ) > zs.perHostLimit then (true, true)
      else isZombieAliveLoop aliveNames true names
    | none => isZombieAliveLoop aliveNames alive names

/-- `isZombieAlive`: whether a zombie is alive, and whether one of its alive names carries more
zombies than `perHostLimit`. -/
def isZombieAlive (zombie : DNSZombieMapping) (aliveNames : AliveNames) : Bool × Bool :=
  let alive := zs.isConnectionAlive gracePeriod zombie
  if alive && zs.perHostLimit = 0 then (true, false)
  else zs.isZombieAliveLoop aliveNames alive zombie.names

/-- The first loop of `GC`; a zombie over a per-name limit is left for the next loop. -/
def collectStep (aliveNames : AliveNames) (acc : List DNSZombieMapping × List DNSZombieMapping)
    (zombie : DNSZombieMapping) : List DNSZombieMapping × List DNSZombieMapping :=
  let (zombieAlive, overLimit) := zs.isZombieAlive gracePeriod zombie aliveNames
  if overLimit then acc
  else if zombieAlive then (acc.1 ++ [zombie.deepCopy], acc.2)
  else (acc.1, acc.2 ++ [zombie])

/-- The per-host loop of `GC` at one alive name: past `perHostLimit` zombies, the first ones in
sorted order are dead and the others possibly alive. -/
def limitStep (acc : List DNSZombieMapping × List DNSZombieMapping)
    (entry : Σ _ : String, List DNSZombieMapping) : List DNSZombieMapping × List DNSZombieMapping :=
  if (entry.2.length : ℤ) ≤ zs.perHostLimit then acc
  else
    let overLimit := ((entry.2.length : ℤ) - zs.perHostLimit).toNat
    let sorted := sortZombieMappingSlice entry.2
    (acc.1 ++ sorted.take overLimit,
      (sorted.drop overLimit).foldl (fun possibleAlive z => possibleAlive.insert z) acc.2)

/-- `delete(zombies.deletes, ip)`. -/
def deleteIP (deletes : List DNSZombieMapping) (ip : Addr) : List DNSZombieMapping :=
  deletes.filter (·.ip != ip)

theorem foldl_deleteIP_sublist (dead deletes : List DNSZombieMapping) :
    (dead.foldl (fun ds z => deleteIP ds z.ip) deletes).Sublist deletes := by
  induction dead generalizing deletes with
  | nil => exact List.Sublist.refl _
  | cons z dead ih => exact (ih _).trans List.filter_sublist

/-- The last loop of `GC`: the IP of every dead zombie leaves the map. -/
def deleteDead (dead : List DNSZombieMapping) : DNSZombieMappings :=
  { zs with
    deletes := dead.foldl (fun ds z => deleteIP ds z.ip) zs.deletes
    nodup := zs.nodup.sublist ((foldl_deleteIP_sublist dead zs.deletes).map _) }

/-- The per-host part of `GC`: the zombies of the names over the limit that no such name evicts
are alive. -/
def evictOverLimit (aliveNames : AliveNames) (alive dead : List DNSZombieMapping) :
    List DNSZombieMapping × List DNSZombieMapping :=
  let deadIdx := dead.length
  let (dead, possibleAlive) := aliveNames.entries.foldl zs.limitStep (dead, [])
  let possibleAlive := possibleAlive.filter (· ∉ dead.drop deadIdx)
  (alive ++ possibleAlive.map DNSZombieMapping.deepCopy, dead)

/-- The last cut of `GC` to `max` alive zombies.  A negative `max` slices `alive` past its length,
which panics: `none`. -/
def cutToMax (alive dead : List DNSZombieMapping) :
    Option (List DNSZombieMapping × List DNSZombieMapping) :=
  let overLimit := (alive.length : ℤ) - zs.max
  if overLimit > 0 then
    if overLimit > alive.length then none
    else
      let sorted := sortZombieMappingSlice alive
      some (sorted.drop overLimit.toNat, dead ++ sorted.take overLimit.toNat)
  else some (alive, dead)

/-- `GC`: the zombies left and the alive and dead ones. -/
def GC : Option (DNSZombieMappings × List DNSZombieMapping × List DNSZombieMapping) :=
  let aliveNames := zs.getAliveNames gracePeriod
  let (alive, dead) := zs.deletes.foldl (zs.collectStep gracePeriod aliveNames) ([], [])
  let (alive, dead) :=
    if zs.perHostLimit > 0 then zs.evictOverLimit aliveNames alive dead else (alive, dead)
  (zs.cutToMax alive dead).map fun (alive, dead) => (zs.deleteDead dead, alive, dead)

end DNSZombieMappings

open DNSZombieMappings

/-- With a negative `perHostLimit`, every alive name is over the limit, but the per-host loop only
runs for a positive one: a connection-alive zombie with a name is neither alive nor dead and stays
in the map. -/
theorem GC_negative_limit_keeps_zombie :
    let z : DNSZombieMapping := ⟨["a.com."], .v4 1, 0, 0, 0⟩
    let zs : DNSZombieMappings := ⟨[z], 0, 0, 10, -1, by decide⟩
    zs.isConnectionAlive 0 z = true ∧
      (zs.GC 0).map (fun r => (r.1.deletes, r.2.1, r.2.2)) = some ([z], [], []) := by
  decide +kernel

/-! What `GC` decides, limits apart. -/

namespace DNSZombieMappings

variable (gracePeriod : ℤ) (zs : DNSZombieMappings)

/-- A name is alive when a connection-alive zombie carries it. -/
def isAliveName (n : String) : Bool :=
  zs.deletes.any fun z => zs.isConnectionAlive gracePeriod z && n ∈ z.names

/-- The zombies that carry a name, once per occurrence of the name, the connection-alive ones
first. -/
def nameZombies (n : String) : List DNSZombieMapping :=
  (zs.deletes.filter (zs.isConnectionAlive gracePeriod)).flatMap
      (fun z => List.replicate (z.names.count n) z) ++
    (zs.deletes.filter (!zs.isConnectionAlive gracePeriod ·)).flatMap
      fun z => List.replicate (z.names.count n) z

/-- A zombie alive without limits: connection-alive, or carrying an alive name. -/
def keptAlive (z : DNSZombieMapping) : Bool :=
  zs.isConnectionAlive gracePeriod z || z.names.any (zs.isAliveName gracePeriod)

/-- An alive name carried more often than a non-zero `perHostLimit`. -/
def isOverLimitName (n : String) : Bool :=
  zs.isAliveName gracePeriod n &&
    decide (zs.perHostLimit < (zs.nameZombies gracePeriod n).length)

/-- A zombie with a name over the limit. -/
def isOverLimit (z : DNSZombieMapping) : Bool :=
  decide (zs.perHostLimit ≠ 0) && z.names.any (zs.isOverLimitName gracePeriod)

end DNSZombieMappings

/-! ### `getAliveNames` -/

namespace DNSZombieMappings

variable {gracePeriod : ℤ} {zs : DNSZombieMappings}

theorem getD_lookup_foldl_addAliveName (z : DNSZombieMapping) (n : String) (names : List String)
    (m : AliveNames) :
    ((names.foldl (addAliveName z) m).lookup n).getD [] =
      (m.lookup n).getD [] ++ List.replicate (names.count n) z := by
  induction names generalizing m with
  | nil => simp
  | cons name names ih =>
    rw [List.foldl_cons, ih]
    by_cases h : n = name
    · subst h
      simp [addAliveName, List.replicate_succ]
    · simp [addAliveName, AList.lookup_insert_ne h, Ne.symm h]

theorem isSome_lookup_foldl_addAliveName (z : DNSZombieMapping) (n : String)
    (names : List String) (m : AliveNames) :
    ((names.foldl (addAliveName z) m).lookup n).isSome = ((m.lookup n).isSome || n ∈ names) := by
  induction names generalizing m with
  | nil => simp
  | cons name names ih =>
    rw [List.foldl_cons, ih]
    by_cases h : n = name
    · subst h
      simp [addAliveName]
    · simp [addAliveName, AList.lookup_insert_ne h, h]

theorem lookup_addDeadName (z : DNSZombieMapping) (m : AliveNames) (name n : String) :
    (addDeadName z m name).lookup n =
      if n = name then (m.lookup n).map (· ++ [z]) else m.lookup n := by
  by_cases h : n = name
  · subst h
    cases hn : m.lookup n <;> simp [addDeadName, hn]
  · cases hn : m.lookup name <;> simp [addDeadName, hn, AList.lookup_insert_ne h, h]

theorem lookup_foldl_addDeadName (z : DNSZombieMapping) (n : String) (names : List String)
    (m : AliveNames) :
    (names.foldl (addDeadName z) m).lookup n =
      (m.lookup n).map (· ++ List.replicate (names.count n) z) := by
  induction names generalizing m with
  | nil => simp
  | cons name names ih =>
    rw [List.foldl_cons, ih, lookup_addDeadName]
    by_cases h : n = name
    · subst h
      simp [List.replicate_succ, Function.comp_def]
    · simp [h, Ne.symm h]

theorem getD_lookup_foldl_collectAliveNames (n : String) (l : List DNSZombieMapping)
    (m : AliveNames) :
    ((l.foldl (zs.collectAliveNames gracePeriod) m).lookup n).getD [] =
      (m.lookup n).getD [] ++ (l.filter (zs.isConnectionAlive gracePeriod)).flatMap
        fun z => List.replicate (z.names.count n) z := by
  induction l generalizing m with
  | nil => simp
  | cons z l ih =>
    rw [List.foldl_cons, ih, collectAliveNames]
    cases hz : zs.isConnectionAlive gracePeriod z <;>
      simp [hz, getD_lookup_foldl_addAliveName]

theorem isSome_lookup_foldl_collectAliveNames (n : String) (l : List DNSZombieMapping)
    (m : AliveNames) :
    ((l.foldl (zs.collectAliveNames gracePeriod) m).lookup n).isSome =
      ((m.lookup n).isSome || l.any fun z => zs.isConnectionAlive gracePeriod z && n ∈ z.names) := by
  induction l generalizing m with
  | nil => simp
  | cons z l ih =>
    rw [List.foldl_cons, ih, collectAliveNames]
    cases hz : zs.isConnectionAlive gracePeriod z <;>
      simp [hz, isSome_lookup_foldl_addAliveName, Bool.or_assoc]

theorem lookup_foldl_collectDeadNames (n : String) (l : List DNSZombieMapping) (m : AliveNames) :
    (l.foldl (zs.collectDeadNames gracePeriod) m).lookup n =
      (m.lookup n).map (· ++ (l.filter (!zs.isConnectionAlive gracePeriod ·)).flatMap
        fun z => List.replicate (z.names.count n) z) := by
  induction l generalizing m with
  | nil => simp
  | cons z l ih =>
    rw [List.foldl_cons, ih, collectDeadNames]
    cases hz : zs.isConnectionAlive gracePeriod z <;>
      simp [hz, lookup_foldl_addDeadName, Function.comp_def]

/-- `getAliveNames` holds exactly the alive names, each with the zombies that carry it. -/
theorem lookup_getAliveNames (n : String) :
    (zs.getAliveNames gracePeriod).lookup n =
      if zs.isAliveName gracePeriod n then some (zs.nameZombies gracePeriod n) else none := by
  have hsome := @isSome_lookup_foldl_collectAliveNames gracePeriod zs n zs.deletes ∅
  have hget := @getD_lookup_foldl_collectAliveNames gracePeriod zs n zs.deletes ∅
  rw [getAliveNames, lookup_foldl_collectDeadNames]
  simp only [AList.lookup_empty, Option.isSome_none, Bool.false_or, Option.getD_none,
    List.nil_append] at hsome hget
  cases hA : zs.isAliveName gracePeriod n
  · rw [isAliveName] at hA
    rw [hA, Option.isSome_eq_false_iff, Option.isNone_iff_eq_none] at hsome
    simp [hsome]
  · rw [isAliveName] at hA
    rw [hA, Option.isSome_iff_exists] at hsome
    obtain ⟨g, hg⟩ := hsome
    rw [hg, Option.getD_some] at hget
    simp [hg, hget, nameZombies]

theorem mem_nameZombies {n : String} {z : DNSZombieMapping} :
    z ∈ zs.nameZombies gracePeriod n ↔ z ∈ zs.deletes ∧ n ∈ z.names := by
  cases hz : zs.isConnectionAlive gracePeriod z <;>
    simp [nameZombies, List.mem_flatMap, List.mem_replicate, List.count_eq_zero, hz, and_comm]

theorem length_flatMap_replicate_count (n : String) (l : List DNSZombieMapping)
    (hl : ∀ z ∈ l, z.names.Nodup) :
    (l.flatMap fun z => List.replicate (z.names.count n) z).length =
      (l.filter (n ∈ ·.names)).length := by
  induction l with
  | nil => simp
  | cons z l ih =>
    rw [List.flatMap_cons, List.length_append, List.length_replicate,
      ih fun z' hz' => hl z' (List.mem_cons_of_mem z hz'), List.filter_cons]
    by_cases hn : n ∈ z.names
    · simp [hn, List.count_eq_one_of_mem (hl z List.mem_cons_self) hn, Nat.add_comm]
    · simp [hn, List.count_eq_zero_of_not_mem hn]

/-- With names without duplicates, an alive name is carried by as many zombies as `getAliveNames`
lists for it. -/
theorem length_nameZombies (n : String) (h : ∀ z ∈ zs.deletes, z.names.Nodup) :
    (zs.nameZombies gracePeriod n).length = (zs.deletes.filter (n ∈ ·.names)).length := by
  have hperm := List.filter_append_perm (zs.isConnectionAlive gracePeriod) zs.deletes
  rw [nameZombies, ← List.flatMap_append, length_flatMap_replicate_count n _
    fun z hz => h z (hperm.subset hz)]
  exact (hperm.filter _).length_eq

/-! ### `isZombieAlive` and the first loop of `GC` -/

theorem isZombieAliveLoop_zero (h : zs.perHostLimit = 0) (an : AliveNames) (alive : Bool)
    (names : List String) :
    zs.isZombieAliveLoop an alive names = (alive || names.any fun n => (an.lookup n).isSome, false) := by
  induction names generalizing alive with
  | nil => simp [isZombieAliveLoop]
  | cons name names ih =>
    cases hn : an.lookup name <;> simp [isZombieAliveLoop, hn, h, ih]

theorem isZombieAliveLoop_ne_zero (h : zs.perHostLimit ≠ 0) (an : AliveNames) (alive : Bool)
    (names : List String) :
    zs.isZombieAliveLoop an alive names =
      (alive || names.any fun n => (an.lookup n).isSome,
        names.any fun n => ((an.lookup n).map fun g => decide (zs.perHostLimit < g.length)).getD false) := by
  induction names generalizing alive with
  | nil => simp [isZombieAliveLoop]
  | cons name names ih =>
    cases hn : an.lookup name with
    | none => simp [isZombieAliveLoop, hn, ih]
    | some g =>
      by_cases hg : zs.perHostLimit < g.length
      · simp [isZombieAliveLoop, hn, h, hg]
      · simp [isZombieAliveLoop, hn, h, hg, ih]

/-- Against `getAliveNames`, `isZombieAlive` answers `keptAlive` and `isOverLimit`. -/
theorem isZombieAlive_getAliveNames (z : DNSZombieMapping) :
    zs.isZombieAlive gracePeriod z (zs.getAliveNames gracePeriod) =
      (zs.keptAlive gracePeriod z, zs.isOverLimit gracePeriod z) := by
  have hsome : (fun n => ((zs.getAliveNames gracePeriod).lookup n).isSome) =
      zs.isAliveName gracePeriod := by
    funext n
    rw [lookup_getAliveNames]
    cases zs.isAliveName gracePeriod n <;> rfl
  have hover : (fun n => (((zs.getAliveNames gracePeriod).lookup n).map
      fun g => decide (zs.perHostLimit < g.length)).getD false) = zs.isOverLimitName gracePeriod := by
    funext n
    rw [lookup_getAliveNames, isOverLimitName]
    cases zs.isAliveName gracePeriod n <;> rfl
  by_cases h : zs.perHostLimit = 0
  · cases hc : zs.isConnectionAlive gracePeriod z
    · simp only [isZombieAlive, hc, Bool.false_and, Bool.false_eq_true, ↓reduceIte,
        isZombieAliveLoop_zero h, hsome, keptAlive, isOverLimit, h, ne_eq, not_true_eq_false,
        decide_false]
    · simp [isZombieAlive, hc, h, keptAlive, isOverLimit]
  · simp only [isZombieAlive, h, decide_false, Bool.and_false, Bool.false_eq_true, ↓reduceIte,
      isZombieAliveLoop_ne_zero h, hsome, hover, keptAlive, isOverLimit, ne_eq, not_false_eq_true,
      decide_true, Bool.true_and]

theorem collectStep_getAliveNames (acc : List DNSZombieMapping × List DNSZombieMapping)
    (z : DNSZombieMapping) :
    zs.collectStep gracePeriod (zs.getAliveNames gracePeriod) acc z =
      if zs.isOverLimit gracePeriod z then acc
      else if zs.keptAlive gracePeriod z then (acc.1 ++ [z.deepCopy], acc.2)
      else (acc.1, acc.2 ++ [z]) := by
  simp only [collectStep, isZombieAlive_getAliveNames]

/-- The first loop of `GC` keeps the zombies alive without limits and drops the others, leaving
out those over a limit. -/
theorem foldl_collectStep (l : List DNSZombieMapping)
    (acc : List DNSZombieMapping × List DNSZombieMapping) :
    l.foldl (zs.collectStep gracePeriod (zs.getAliveNames gracePeriod)) acc =
      (acc.1 ++ (l.filter fun z => !zs.isOverLimit gracePeriod z &&
          zs.keptAlive gracePeriod z).map DNSZombieMapping.deepCopy,
        acc.2 ++ l.filter fun z => !zs.isOverLimit gracePeriod z && !zs.keptAlive gracePeriod z) := by
  induction l generalizing acc with
  | nil => simp
  | cons z l ih =>
    rw [List.foldl_cons, ih, collectStep_getAliveNames]
    cases ho : zs.isOverLimit gracePeriod z <;> cases hk : zs.keptAlive gracePeriod z <;>
      simp [ho, hk]

/-! ### The per-host loop of `GC` -/

theorem mem_foldl_listInsert {α : Type} [DecidableEq α] {z : α} (l pa : List α) :
    z ∈ l.foldl (fun pa x => pa.insert x) pa ↔ z ∈ pa ∨ z ∈ l := by
  induction l generalizing pa with
  | nil => simp
  | cons x l ih =>
    rw [List.foldl_cons, ih, List.mem_insert_iff, List.mem_cons]
    tauto

theorem nodup_foldl_listInsert {α : Type} [DecidableEq α] (l pa : List α) (h : pa.Nodup) :
    (l.foldl (fun pa x => pa.insert x) pa).Nodup := by
  induction l generalizing pa with
  | nil => exact h
  | cons x l ih => exact ih _ h.insert

variable (zs) in
/-- What the per-host loop moves to `dead`: the first zombies in sorted order of each name over
the limit. -/
def evicted (es : List (Σ _ : String, List DNSZombieMapping)) : List DNSZombieMapping :=
  es.flatMap fun e => if (e.2.length : ℤ) ≤ zs.perHostLimit then []
    else (sortZombieMappingSlice e.2).take ((e.2.length : ℤ) - zs.perHostLimit).toNat

theorem foldl_limitStep_fst (es : List (Σ _ : String, List DNSZombieMapping))
    (acc : List DNSZombieMapping × List DNSZombieMapping) :
    (es.foldl zs.limitStep acc).1 = acc.1 ++ zs.evicted es := by
  induction es generalizing acc with
  | nil => simp [evicted]
  | cons e es ih =>
    rw [List.foldl_cons, ih, limitStep]
    split <;> simp_all [evicted]

theorem mem_foldl_limitStep_snd (es : List (Σ _ : String, List DNSZombieMapping))
    (acc : List DNSZombieMapping × List DNSZombieMapping) (z : DNSZombieMapping) :
    z ∈ (es.foldl zs.limitStep acc).2 ↔ z ∈ acc.2 ∨ ∃ e ∈ es, zs.perHostLimit < e.2.length ∧
      z ∈ (sortZombieMappingSlice e.2).drop ((e.2.length : ℤ) - zs.perHostLimit).toNat := by
  induction es generalizing acc with
  | nil => simp
  | cons e es ih =>
    rw [List.foldl_cons, ih, limitStep, List.exists_mem_cons_iff]
    split
    · have : ¬zs.perHostLimit < e.2.length := not_lt.mpr ‹_›
      simp [this]
    · simp only [mem_foldl_listInsert]
      have : zs.perHostLimit < e.2.length := lt_of_not_ge ‹_›
      simp only [this, true_and]
      tauto

theorem nodup_foldl_limitStep_snd (es : List (Σ _ : String, List DNSZombieMapping))
    (acc : List DNSZombieMapping × List DNSZombieMapping) (h : acc.2.Nodup) :
    (es.foldl zs.limitStep acc).2.Nodup := by
  induction es generalizing acc with
  | nil => exact h
  | cons e es ih =>
    rw [List.foldl_cons]
    apply ih
    rw [limitStep]
    split
    · exact h
    · exact nodup_foldl_listInsert _ _ h

theorem evictOverLimit_eq (an : AliveNames) (alive dead : List DNSZombieMapping) :
    zs.evictOverLimit an alive dead =
      (alive ++ (((an.entries.foldl zs.limitStep (dead, [])).2.filter
          (· ∉ zs.evicted an.entries)).map DNSZombieMapping.deepCopy),
        dead ++ zs.evicted an.entries) := by
  have hfst := @foldl_limitStep_fst zs an.entries (dead, [])
  rcases h : an.entries.foldl zs.limitStep (dead, []) with ⟨dead', possibleAlive⟩
  rw [h] at hfst
  simp only at hfst
  simp only [evictOverLimit, h, hfst, List.drop_left]

theorem mem_entries_getAliveNames {e : Σ _ : String, List DNSZombieMapping} :
    e ∈ (zs.getAliveNames gracePeriod).entries ↔
      zs.isAliveName gracePeriod e.1 = true ∧ e.2 = zs.nameZombies gracePeriod e.1 := by
  obtain ⟨n, g⟩ := e
  rw [← AList.mem_lookup_iff, lookup_getAliveNames]
  cases zs.isAliveName gracePeriod n <;> simp [eq_comm]

theorem perm_sortZombieMappingSlice (l : List DNSZombieMapping) :
    (sortZombieMappingSlice l).Perm l :=
  List.perm_insertionSort _ _

theorem mem_take_or_mem_drop {z : DNSZombieMapping} {l : List DNSZombieMapping} (k : ℕ)
    (h : z ∈ l) : z ∈ (sortZombieMappingSlice l).take k ∨ z ∈ (sortZombieMappingSlice l).drop k := by
  rw [← List.mem_append, List.take_append_drop]
  exact (perm_sortZombieMappingSlice l).mem_iff.mpr h

/-- A zombie the per-host loop evicts carries an alive name over the limit. -/
theorem exists_name_of_mem_evicted {z : DNSZombieMapping}
    (h : z ∈ zs.evicted (zs.getAliveNames gracePeriod).entries) :
    ∃ n, zs.isAliveName gracePeriod n = true ∧
      zs.perHostLimit < (zs.nameZombies gracePeriod n).length ∧
      z ∈ zs.nameZombies gracePeriod n := by
  obtain ⟨⟨n, g⟩, he, hz⟩ := List.mem_flatMap.mp h
  obtain ⟨hn, hg⟩ := mem_entries_getAliveNames.mp he
  simp only at hn hg hz
  subst hg
  split at hz
  · simp at hz
  · exact ⟨n, hn, lt_of_not_ge ‹_›,
      (perm_sortZombieMappingSlice _).subset (List.mem_of_mem_take hz)⟩

/-- A zombie the per-host loop spares carries an alive name over the limit, and is among the last
zombies of that name in sorted order. -/
theorem exists_name_of_mem_spared {z : DNSZombieMapping} {dead : List DNSZombieMapping}
    (h : z ∈ ((zs.getAliveNames gracePeriod).entries.foldl zs.limitStep (dead, [])).2) :
    ∃ n, zs.isAliveName gracePeriod n = true ∧
      zs.perHostLimit < (zs.nameZombies gracePeriod n).length ∧
      z ∈ (sortZombieMappingSlice (zs.nameZombies gracePeriod n)).drop
        (((zs.nameZombies gracePeriod n).length : ℤ) - zs.perHostLimit).toNat := by
  rw [mem_foldl_limitStep_snd] at h
  obtain h | ⟨⟨n, g⟩, he, hlt, hz⟩ := h
  · simp at h
  · obtain ⟨hn, hg⟩ := mem_entries_getAliveNames.mp he
    simp only at hn hg hlt hz
    subst hg
    exact ⟨n, hn, hlt, hz⟩

theorem isOverLimit_of_mem_nameZombies {n : String} {z : DNSZombieMapping}
    (hL : zs.perHostLimit ≠ 0) (hn : zs.isAliveName gracePeriod n = true)
    (hlt : zs.perHostLimit < (zs.nameZombies gracePeriod n).length)
    (hz : z ∈ zs.nameZombies gracePeriod n) : zs.isOverLimit gracePeriod z = true := by
  have hnz := (mem_nameZombies.mp hz).2
  simp only [isOverLimit, hL, ne_eq, not_false_eq_true, decide_true, Bool.true_and,
    List.any_eq_true]
  exact ⟨n, hnz, by simp [isOverLimitName, hn, hlt]⟩

/-- A zombie over the limit is among the zombies of one of its names over the limit. -/
theorem exists_name_of_isOverLimit {z : DNSZombieMapping} (hz : z ∈ zs.deletes)
    (h : zs.isOverLimit gracePeriod z = true) :
    ∃ n, zs.isAliveName gracePeriod n = true ∧
      zs.perHostLimit < (zs.nameZombies gracePeriod n).length ∧
      z ∈ zs.nameZombies gracePeriod n := by
  simp only [isOverLimit, Bool.and_eq_true, List.any_eq_true, isOverLimitName,
    decide_eq_true_eq] at h
  obtain ⟨-, n, hn, hA, hlt⟩ := h
  exact ⟨n, hA, hlt, mem_nameZombies.mpr ⟨hz, hn⟩⟩

theorem mem_evicted_of_mem_take {n : String} {z : DNSZombieMapping}
    (hn : zs.isAliveName gracePeriod n = true)
    (hlt : zs.perHostLimit < (zs.nameZombies gracePeriod n).length)
    (hz : z ∈ (sortZombieMappingSlice (zs.nameZombies gracePeriod n)).take
      (((zs.nameZombies gracePeriod n).length : ℤ) - zs.perHostLimit).toNat) :
    z ∈ zs.evicted (zs.getAliveNames gracePeriod).entries := by
  refine List.mem_flatMap.mpr ⟨⟨n, zs.nameZombies gracePeriod n⟩,
    mem_entries_getAliveNames.mpr ⟨hn, rfl⟩, ?_⟩
  simpa [not_le.mpr hlt] using hz

theorem mem_spared_of_mem_drop {n : String} {z : DNSZombieMapping} (dead : List DNSZombieMapping)
    (hn : zs.isAliveName gracePeriod n = true)
    (hlt : zs.perHostLimit < (zs.nameZombies gracePeriod n).length)
    (hz : z ∈ (sortZombieMappingSlice (zs.nameZombies gracePeriod n)).drop
      (((zs.nameZombies gracePeriod n).length : ℤ) - zs.perHostLimit).toNat) :
    z ∈ ((zs.getAliveNames gracePeriod).entries.foldl zs.limitStep (dead, [])).2 :=
  (mem_foldl_limitStep_snd _ _ z).mpr (.inr ⟨⟨n, zs.nameZombies gracePeriod n⟩,
    mem_entries_getAliveNames.mpr ⟨hn, rfl⟩, hlt, hz⟩)

/-! ### Before the last cut -/

variable (zs) in
/-- What `GC` holds before its last cut: the zombies it keeps alive, before their copies, and the
dead ones split the map between them, and none is kept twice. -/
structure Split (A dead : List DNSZombieMapping) : Prop where
  alive_mem : ∀ z ∈ A, z ∈ zs.deletes
  dead_mem : ∀ z ∈ dead, z ∈ zs.deletes
  covers : ∀ z ∈ zs.deletes, z ∈ A ∨ z ∈ dead
  disjoint : ∀ z ∈ A, z ∉ dead
  nodup : A.Nodup

/-- Without a zombie over a limit, the first loop of `GC` splits the map. -/
theorem split_first (h : ∀ z ∈ zs.deletes, zs.isOverLimit gracePeriod z = false) :
    zs.Split (zs.deletes.filter fun z => !zs.isOverLimit gracePeriod z && zs.keptAlive gracePeriod z)
      (zs.deletes.filter fun z => !zs.isOverLimit gracePeriod z && !zs.keptAlive gracePeriod z) where
  alive_mem _ hz := (List.mem_filter.mp hz).1
  dead_mem _ hz := (List.mem_filter.mp hz).1
  covers z hz := by
    cases hk : zs.keptAlive gracePeriod z <;> simp [hz, h z hz, hk]
  disjoint z hz hz' := by
    simp only [List.mem_filter, Bool.and_eq_true, Bool.not_eq_true'] at hz hz'
    rw [hz.2.2] at hz'
    nomatch hz'.2.2
  nodup := (zs.nodup.of_map _).filter _

/-- With a positive `perHostLimit`, the first loop and the per-host loop split the map. -/
theorem split_evict (hL : 0 < zs.perHostLimit) :
    let first := zs.deletes.filter fun z =>
      !zs.isOverLimit gracePeriod z && zs.keptAlive gracePeriod z
    let dead := zs.deletes.filter fun z =>
      !zs.isOverLimit gracePeriod z && !zs.keptAlive gracePeriod z
    let X := zs.evicted (zs.getAliveNames gracePeriod).entries
    let PA := ((zs.getAliveNames gracePeriod).entries.foldl zs.limitStep (dead, [])).2
    zs.Split (first ++ PA.filter (· ∉ X)) (dead ++ X) := by
  intro first dead X PA
  have hL0 : zs.perHostLimit ≠ 0 := hL.ne'
  -- every zombie the per-host loop touches is in the map and over the limit
  have hX : ∀ z ∈ X, z ∈ zs.deletes ∧ zs.isOverLimit gracePeriod z = true := by
    intro z hz
    obtain ⟨n, hn, hlt, hzn⟩ := exists_name_of_mem_evicted hz
    exact ⟨(mem_nameZombies.mp hzn).1, isOverLimit_of_mem_nameZombies hL0 hn hlt hzn⟩
  have hPA : ∀ z ∈ PA, z ∈ zs.deletes ∧ zs.isOverLimit gracePeriod z = true := by
    intro z hz
    obtain ⟨n, hn, hlt, hzn⟩ := exists_name_of_mem_spared hz
    have hzn' := (perm_sortZombieMappingSlice _).subset (List.mem_of_mem_drop hzn)
    exact ⟨(mem_nameZombies.mp hzn').1, isOverLimit_of_mem_nameZombies hL0 hn hlt hzn'⟩
  have hfirst : ∀ z ∈ first, zs.isOverLimit gracePeriod z = false := by
    intro z hz
    have := (List.mem_filter.mp hz).2
    simp only [Bool.and_eq_true, Bool.not_eq_true'] at this
    exact this.1
  have hdead : ∀ z ∈ dead, zs.isOverLimit gracePeriod z = false := by
    intro z hz
    have := (List.mem_filter.mp hz).2
    simp only [Bool.and_eq_true, Bool.not_eq_true'] at this
    exact this.1
  refine ⟨?_, ?_, ?_, ?_, ?_⟩
  · intro z hz
    rcases List.mem_append.mp hz with hz | hz
    · exact (List.mem_filter.mp hz).1
    · exact (hPA z (List.mem_filter.mp hz).1).1
  · intro z hz
    rcases List.mem_append.mp hz with hz | hz
    · exact (List.mem_filter.mp hz).1
    · exact (hX z hz).1
  · intro z hz
    cases ho : zs.isOverLimit gracePeriod z
    · cases hk : zs.keptAlive gracePeriod z
      · exact .inr (List.mem_append_left _ (List.mem_filter.mpr ⟨hz, by simp [ho, hk]⟩))
      · exact .inl (List.mem_append_left _ (List.mem_filter.mpr ⟨hz, by simp [ho, hk]⟩))
    · -- a zombie over the limit is evicted or spared through one of its names
      obtain ⟨n, hn, hlt, hzn⟩ := exists_name_of_isOverLimit hz ho
      by_cases hzX : z ∈ X
      · exact .inr (List.mem_append_right _ hzX)
      · refine .inl (List.mem_append_right _ (List.mem_filter.mpr ⟨?_, by simpa using hzX⟩))
        rcases mem_take_or_mem_drop
          (((zs.nameZombies gracePeriod n).length : ℤ) - zs.perHostLimit).toNat hzn with ht | hd
        · exact absurd (mem_evicted_of_mem_take hn hlt ht) hzX
        · exact mem_spared_of_mem_drop _ hn hlt hd
  · intro z hz hz'
    rcases List.mem_append.mp hz with hz | hz <;> rcases List.mem_append.mp hz' with hz' | hz'
    · simp only [first, dead, List.mem_filter, Bool.and_eq_true, Bool.not_eq_true'] at hz hz'
      rw [hz.2.2] at hz'
      nomatch hz'.2.2
    · exact Bool.false_ne_true ((hfirst z hz).symm.trans (hX z hz').2)
    · exact Bool.false_ne_true ((hdead z hz').symm.trans (hPA z (List.mem_filter.mp hz).1).2)
    · simp only [List.mem_filter, decide_eq_true_eq] at hz
      exact hz.2 hz'
  · refine List.nodup_append.mpr ⟨(zs.nodup.of_map _).filter _,
      (nodup_foldl_limitStep_snd _ _ List.nodup_nil).filter _, ?_⟩
    intro a ha b hb hab
    subst hab
    exact Bool.false_ne_true ((hfirst a ha).symm.trans (hPA a (List.mem_filter.mp hb).1).2)

/-- With a positive `perHostLimit`, no alive name is carried by more kept zombies than the limit:
past it, the kept ones are among the last zombies of the name in sorted order. -/
theorem limited_evict (hL : 0 < zs.perHostLimit) (n : String)
    (hn : zs.isAliveName gracePeriod n = true) :
    let first := zs.deletes.filter fun z =>
      !zs.isOverLimit gracePeriod z && zs.keptAlive gracePeriod z
    let dead := zs.deletes.filter fun z =>
      !zs.isOverLimit gracePeriod z && !zs.keptAlive gracePeriod z
    let X := zs.evicted (zs.getAliveNames gracePeriod).entries
    let PA := ((zs.getAliveNames gracePeriod).entries.foldl zs.limitStep (dead, [])).2
    (((first ++ PA.filter (· ∉ X)).filter (n ∈ ·.names)).length : ℤ) ≤ zs.perHostLimit := by
  intro first dead X PA
  have hs : zs.Split (first ++ PA.filter (· ∉ X)) (dead ++ X) := split_evict hL
  have hnd : ((first ++ PA.filter (· ∉ X)).filter (n ∈ ·.names)).Nodup := hs.nodup.filter _
  have hmem : ∀ z ∈ (first ++ PA.filter (· ∉ X)).filter (n ∈ ·.names),
      z ∈ zs.nameZombies gracePeriod n := by
    intro z hz
    obtain ⟨hzA, hzn⟩ := List.mem_filter.mp hz
    exact mem_nameZombies.mpr ⟨hs.alive_mem z hzA, by simpa using hzn⟩
  by_cases hlt : zs.perHostLimit < (zs.nameZombies gracePeriod n).length
  · have hsub : (first ++ PA.filter (· ∉ X)).filter (n ∈ ·.names) ⊆
        (sortZombieMappingSlice (zs.nameZombies gracePeriod n)).drop
          (((zs.nameZombies gracePeriod n).length : ℤ) - zs.perHostLimit).toNat := by
      intro z hz
      have hzn := hmem z hz
      have hover := isOverLimit_of_mem_nameZombies hL.ne' hn hlt hzn
      -- a zombie over the limit is not kept by the first loop, so the per-host loop spared it
      have hzX : z ∉ X := by
        rcases List.mem_append.mp (List.mem_filter.mp hz).1 with hf | hp
        · have := (List.mem_filter.mp hf).2
          simp [hover] at this
        · simpa using (List.mem_filter.mp hp).2
      rcases mem_take_or_mem_drop _ hzn with ht | hd
      · exact absurd (mem_evicted_of_mem_take hn hlt ht) hzX
      · exact hd
    calc (((first ++ PA.filter (· ∉ X)).filter (n ∈ ·.names)).length : ℤ)
        ≤ ((sortZombieMappingSlice (zs.nameZombies gracePeriod n)).drop
            (((zs.nameZombies gracePeriod n).length : ℤ) - zs.perHostLimit).toNat).length := by
          exact_mod_cast (List.subperm_of_subset hnd hsub).length_le
      _ = zs.perHostLimit := by
          rw [List.length_drop, (perm_sortZombieMappingSlice _).length_eq]
          omega
  · calc (((first ++ PA.filter (· ∉ X)).filter (n ∈ ·.names)).length : ℤ)
        ≤ (zs.nameZombies gracePeriod n).length := by
          exact_mod_cast (List.subperm_of_subset hnd hmem).length_le
      _ ≤ zs.perHostLimit := not_lt.mp hlt

/-- Without a zombie over the limit, the per-host loop spares none. -/
theorem spared_eq_nil (hL : 0 < zs.perHostLimit) (dead : List DNSZombieMapping)
    (h : ∀ z ∈ zs.deletes, zs.isOverLimit gracePeriod z = false) :
    ((zs.getAliveNames gracePeriod).entries.foldl zs.limitStep (dead, [])).2 = [] := by
  refine List.eq_nil_iff_forall_not_mem.mpr fun z hz => ?_
  obtain ⟨n, hn, hlt, hzn⟩ := exists_name_of_mem_spared hz
  have hzn' := (perm_sortZombieMappingSlice _).subset (List.mem_of_mem_drop hzn)
  have hover := isOverLimit_of_mem_nameZombies hL.ne' hn hlt hzn'
  rw [h z (mem_nameZombies.mp hzn').1] at hover
  nomatch hover

/-- `GC` is its last cut applied to lists that split the map; with a positive `perHostLimit` no
alive name keeps more zombies than it, and without a zombie over the limit the kept zombies are
those alive without limits. -/
theorem GC_eq_cut (hlimit : 0 ≤ zs.perHostLimit) :
    ∃ A dead, zs.Split A dead ∧
      zs.GC gracePeriod = (zs.cutToMax (A.map DNSZombieMapping.deepCopy) dead).map
        (fun (alive, dead) => (zs.deleteDead dead, alive, dead)) ∧
      (0 < zs.perHostLimit → ∀ n, zs.isAliveName gracePeriod n = true →
        ((A.filter (n ∈ ·.names)).length : ℤ) ≤ zs.perHostLimit) ∧
      ((∀ z ∈ zs.deletes, zs.isOverLimit gracePeriod z = false) →
        A = zs.deletes.filter (zs.keptAlive gracePeriod)) := by
  rcases hlimit.lt_or_eq with hL | hL
  · refine ⟨_, _, split_evict hL, ?_, fun _ n hn => limited_evict hL n hn, fun h => ?_⟩
    · simp only [GC, foldl_collectStep, List.nil_append, gt_iff_lt, hL, ↓reduceIte,
        evictOverLimit_eq, List.map_append]
    · rw [spared_eq_nil hL _ h, List.filter_nil, List.append_nil]
      exact List.filter_congr fun z hz => by simp [h z hz]
  · have hover : ∀ z ∈ zs.deletes, zs.isOverLimit gracePeriod z = false := fun z _ => by
      simp [isOverLimit, ← hL]
    refine ⟨_, _, split_first hover, ?_, fun h => absurd h (by omega),
      fun _ => List.filter_congr fun z hz => by simp [hover z hz]⟩
    simp only [GC, foldl_collectStep, List.nil_append, gt_iff_lt, ← hL, lt_irrefl, ↓reduceIte]

/-! ### From zombies to their IPs -/

theorem eq_of_ip_eq {z z' : DNSZombieMapping} (hz : z ∈ zs.deletes) (hz' : z' ∈ zs.deletes)
    (h : z.ip = z'.ip) : z = z' :=
  List.inj_on_of_nodup_map zs.nodup hz hz' h

theorem Split.mem_ips {A dead : List DNSZombieMapping} (hs : zs.Split A dead) (ip : Addr) :
    ip ∈ (A.map DNSZombieMapping.deepCopy).map DNSZombieMapping.ip ∨
        ip ∈ dead.map DNSZombieMapping.ip ↔ ip ∈ zs.deletes.map DNSZombieMapping.ip := by
  simp only [List.map_map, Function.comp_def, DNSZombieMapping.deepCopy_ip, List.mem_map]
  constructor
  · rintro (⟨z, hz, rfl⟩ | ⟨z, hz, rfl⟩)
    · exact ⟨z, hs.alive_mem z hz, rfl⟩
    · exact ⟨z, hs.dead_mem z hz, rfl⟩
  · rintro ⟨z, hz, rfl⟩
    rcases hs.covers z hz with h | h
    · exact .inl ⟨z, h, rfl⟩
    · exact .inr ⟨z, h, rfl⟩

theorem Split.ips_disjoint {A dead : List DNSZombieMapping} (hs : zs.Split A dead) :
    ∀ ip ∈ (A.map DNSZombieMapping.deepCopy).map DNSZombieMapping.ip,
      ip ∉ dead.map DNSZombieMapping.ip := by
  simp only [List.map_map, Function.comp_def, DNSZombieMapping.deepCopy_ip, List.mem_map]
  rintro ip ⟨z, hz, rfl⟩ ⟨z', hz', hip⟩
  have hzz := eq_of_ip_eq (hs.alive_mem z hz) (hs.dead_mem z' hz') hip.symm
  subst hzz
  exact hs.disjoint z hz hz'

theorem Split.ips_nodup {A dead : List DNSZombieMapping} (hs : zs.Split A dead) :
    ((A.map DNSZombieMapping.deepCopy).map DNSZombieMapping.ip).Nodup := by
  simp only [List.map_map, Function.comp_def, DNSZombieMapping.deepCopy_ip]
  exact List.Nodup.map_on
    (fun z hz z' hz' h => eq_of_ip_eq (hs.alive_mem z hz) (hs.alive_mem z' hz') h) hs.nodup

theorem mem_ips_deleteIP (ds : List DNSZombieMapping) (x ip : Addr) :
    ip ∈ (deleteIP ds x).map DNSZombieMapping.ip ↔ ip ∈ ds.map DNSZombieMapping.ip ∧ ip ≠ x := by
  simp only [deleteIP, List.mem_map, List.mem_filter, bne_iff_ne, ne_eq]
  constructor
  · rintro ⟨a, ⟨ha, hne⟩, rfl⟩
    exact ⟨⟨a, ha, rfl⟩, hne⟩
  · rintro ⟨⟨a, ha, rfl⟩, hne⟩
    exact ⟨a, ⟨ha, hne⟩, rfl⟩

theorem mem_ips_deleteDead (dead : List DNSZombieMapping) (ip : Addr) :
    ip ∈ (zs.deleteDead dead).deletes.map DNSZombieMapping.ip ↔
      ip ∈ zs.deletes.map DNSZombieMapping.ip ∧ ip ∉ dead.map DNSZombieMapping.ip := by
  suffices ∀ ds, ip ∈ (dead.foldl (fun ds z => deleteIP ds z.ip) ds).map DNSZombieMapping.ip ↔
      ip ∈ ds.map DNSZombieMapping.ip ∧ ip ∉ dead.map DNSZombieMapping.ip from this _
  induction dead with
  | nil => simp
  | cons z dead ih =>
    intro ds
    rw [List.foldl_cons, ih, mem_ips_deleteIP, List.map_cons, List.mem_cons]
    tauto

/-! ### The last cut -/

theorem cutToMax_of_le {alive dead : List DNSZombieMapping} (h : (alive.length : ℤ) ≤ zs.max) :
    zs.cutToMax alive dead = some (alive, dead) := by
  have : ¬(alive.length : ℤ) - zs.max > 0 := by omega
  simp only [cutToMax, this, ↓reduceIte]

theorem cutToMax_of_lt {alive dead : List DNSZombieMapping} (hmax : 0 ≤ zs.max)
    (h : zs.max < alive.length) :
    zs.cutToMax alive dead =
      some ((sortZombieMappingSlice alive).drop ((alive.length : ℤ) - zs.max).toNat,
        dead ++ (sortZombieMappingSlice alive).take ((alive.length : ℤ) - zs.max).toNat) := by
  have h1 : (alive.length : ℤ) - zs.max > 0 := by omega
  have h2 : ¬(alive.length : ℤ) - zs.max > alive.length := by omega
  simp only [cutToMax, h1, h2, ↓reduceIte]

section Cut

variable {s alive dead : List DNSZombieMapping} (hs : s.Perm alive) (k : ℕ)
include hs

theorem mem_ips_cut (ip : Addr) :
    ip ∈ (s.drop k).map DNSZombieMapping.ip ∨ ip ∈ (dead ++ s.take k).map DNSZombieMapping.ip ↔
      ip ∈ alive.map DNSZombieMapping.ip ∨ ip ∈ dead.map DNSZombieMapping.ip := by
  have hsplit : ip ∈ s.map DNSZombieMapping.ip ↔ ip ∈ (s.take k).map DNSZombieMapping.ip ∨
      ip ∈ (s.drop k).map DNSZombieMapping.ip := by
    rw [← List.mem_append, ← List.map_append, List.take_append_drop]
  rw [List.map_append, List.mem_append, ← (hs.map _).mem_iff, hsplit]
  tauto

theorem nodup_ips_cut (h : (alive.map DNSZombieMapping.ip).Nodup) :
    ((s.drop k).map DNSZombieMapping.ip).Nodup := by
  rw [List.map_drop]
  exact ((hs.map _).nodup_iff.mpr h).sublist (List.drop_sublist _ _)

theorem ips_disjoint_cut (hnd : (alive.map DNSZombieMapping.ip).Nodup)
    (hdis : ∀ ip ∈ alive.map DNSZombieMapping.ip, ip ∉ dead.map DNSZombieMapping.ip) :
    ∀ ip ∈ (s.drop k).map DNSZombieMapping.ip,
      ip ∉ (dead ++ s.take k).map DNSZombieMapping.ip := by
  have hnd' : ((s.take k).map DNSZombieMapping.ip ++ (s.drop k).map DNSZombieMapping.ip).Nodup := by
    rw [← List.map_append, List.take_append_drop]
    exact (hs.map _).nodup_iff.mpr hnd
  intro ip hd hd'
  rw [List.map_append, List.mem_append] at hd'
  rcases hd' with h | h
  · have hmem : ip ∈ s.map DNSZombieMapping.ip := by
      rw [← List.take_append_drop k s, List.map_append]
      exact List.mem_append_right _ hd
    exact hdis ip ((hs.map _).mem_iff.mp hmem) h
  · exact List.disjoint_of_nodup_append hnd' h hd

theorem length_filter_cut (p : DNSZombieMapping → Bool) :
    ((s.drop k).filter p).length ≤ (alive.filter p).length :=
  ((List.drop_sublist k s).filter p).length_le.trans (hs.filter p).length_eq.le

end Cut

/-- With a non-negative `max`, the last cut returns at most `max` alive zombies, moves the others
to `dead` and keeps the IPs split; below `max` it changes nothing. -/
theorem cutToMax_spec (hmax : 0 ≤ zs.max) (alive dead : List DNSZombieMapping)
    (hnd : (alive.map DNSZombieMapping.ip).Nodup)
    (hdis : ∀ ip ∈ alive.map DNSZombieMapping.ip, ip ∉ dead.map DNSZombieMapping.ip) :
    ∃ alive' dead', zs.cutToMax alive dead = some (alive', dead') ∧
      (alive'.length : ℤ) ≤ zs.max ∧
      (∀ ip, ip ∈ alive'.map DNSZombieMapping.ip ∨ ip ∈ dead'.map DNSZombieMapping.ip ↔
        ip ∈ alive.map DNSZombieMapping.ip ∨ ip ∈ dead.map DNSZombieMapping.ip) ∧
      (alive'.map DNSZombieMapping.ip).Nodup ∧
      (∀ ip ∈ alive'.map DNSZombieMapping.ip, ip ∉ dead'.map DNSZombieMapping.ip) ∧
      (∀ p : DNSZombieMapping → Bool, (alive'.filter p).length ≤ (alive.filter p).length) ∧
      ((alive.length : ℤ) ≤ zs.max → alive' = alive) := by
  by_cases h : (alive.length : ℤ) ≤ zs.max
  · exact ⟨alive, dead, cutToMax_of_le h, h, fun _ => Iff.rfl, hnd, hdis, fun _ => le_rfl,
      fun _ => rfl⟩
  · have hs := perm_sortZombieMappingSlice alive
    refine ⟨_, _, cutToMax_of_lt hmax (lt_of_not_ge h), ?_, mem_ips_cut hs _,
      nodup_ips_cut hs _ hnd, ips_disjoint_cut hs _ hnd hdis, length_filter_cut hs _,
      fun h' => absurd h' h⟩
    rw [List.length_drop, hs.length_eq]
    omega

/-! ### `GC` -/

variable (gracePeriod zs) in
/-- What `GC` returns, as sets of IPs: the alive and dead zombies split the zombies it ran on, the
map keeps exactly the alive ones, at most `max` of them and, for a positive `perHostLimit`, at
most that many per alive name; when no limit binds, the alive zombies are those alive without
limits. -/
structure GCResult (zs' : DNSZombieMappings) (alive dead : List DNSZombieMapping) : Prop where
  disjoint : ∀ ip ∈ alive.map DNSZombieMapping.ip, ip ∉ dead.map DNSZombieMapping.ip
  covers : ∀ ip, ip ∈ alive.map DNSZombieMapping.ip ∨ ip ∈ dead.map DNSZombieMapping.ip ↔
    ip ∈ zs.deletes.map DNSZombieMapping.ip
  nodup : (alive.map DNSZombieMapping.ip).Nodup
  remaining : ∀ ip, ip ∈ zs'.deletes.map DNSZombieMapping.ip ↔ ip ∈ alive.map DNSZombieMapping.ip
  le_max : (alive.length : ℤ) ≤ zs.max
  per_name : 0 < zs.perHostLimit → ∀ n, zs.isAliveName gracePeriod n = true →
    ((alive.filter (n ∈ ·.names)).length : ℤ) ≤ zs.perHostLimit
  unlimited : (∀ z ∈ zs.deletes, z.names.Nodup) →
    (zs.perHostLimit = 0 ∨ ∀ n, zs.isAliveName gracePeriod n = true →
      ((zs.deletes.filter (n ∈ ·.names)).length : ℤ) ≤ zs.perHostLimit) →
    ((zs.deletes.filter (zs.keptAlive gracePeriod)).length : ℤ) ≤ zs.max →
    ∀ ip, ip ∈ alive.map DNSZombieMapping.ip ↔
      ∃ z ∈ zs.deletes, z.ip = ip ∧ zs.keptAlive gracePeriod z = true

/-- When names have no duplicates and no alive name is carried by more zombies than a non-zero
`perHostLimit`, no zombie is over the limit. -/
theorem isOverLimit_eq_false (hnames : ∀ z ∈ zs.deletes, z.names.Nodup)
    (hper : zs.perHostLimit = 0 ∨ ∀ n, zs.isAliveName gracePeriod n = true →
      ((zs.deletes.filter (n ∈ ·.names)).length : ℤ) ≤ zs.perHostLimit)
    (z : DNSZombieMapping) : zs.isOverLimit gracePeriod z = false := by
  rcases hper with h | h
  · simp [isOverLimit, h]
  · simp only [isOverLimit, isOverLimitName, Bool.and_eq_false_iff, List.any_eq_false,
      Bool.and_eq_true, decide_eq_true_eq, not_and, not_lt]
    refine .inr fun n _ hn => ?_
    rw [length_nameZombies n hnames]
    exact h n hn

/-- With a non-negative `max` and `perHostLimit`, `GC` returns, and what it returns is as
`GCResult` says. -/
theorem GC_spec (hmax : 0 ≤ zs.max) (hlimit : 0 ≤ zs.perHostLimit) :
    ∃ zs' alive dead, zs.GC gracePeriod = some (zs', alive, dead) ∧
      zs.GCResult gracePeriod zs' alive dead := by
  obtain ⟨A, dead, hs, hgc, hlim, hkept⟩ := @GC_eq_cut gracePeriod zs hlimit
  obtain ⟨alive', dead', hcut, hlen, hmem, hnd, hdis, hfilter, hsame⟩ :=
    zs.cutToMax_spec hmax _ dead hs.ips_nodup hs.ips_disjoint
  rw [hcut, Option.map_some] at hgc
  have hcov : ∀ ip, ip ∈ alive'.map DNSZombieMapping.ip ∨ ip ∈ dead'.map DNSZombieMapping.ip ↔
      ip ∈ zs.deletes.map DNSZombieMapping.ip := fun ip => (hmem ip).trans (hs.mem_ips ip)
  refine ⟨_, alive', dead', hgc, hdis, hcov, hnd, ?_, hlen, ?_, ?_⟩
  · -- the map loses the IPs of the dead zombies, which leaves those of the alive ones
    intro ip
    rw [mem_ips_deleteDead]
    constructor
    · rintro ⟨hD, hnot⟩
      exact ((hcov ip).mpr hD).resolve_right hnot
    · intro ha
      exact ⟨(hcov ip).mp (.inl ha), hdis ip ha⟩
  · intro hL n hn
    calc ((alive'.filter (n ∈ ·.names)).length : ℤ)
        ≤ ((A.map DNSZombieMapping.deepCopy).filter (n ∈ ·.names)).length := by
          exact_mod_cast hfilter _
      _ = (A.filter (n ∈ ·.names)).length := by
          rw [List.filter_map, List.length_map]
          rfl
      _ ≤ zs.perHostLimit := hlim hL n hn
  · -- no zombie is over the limit and the last cut keeps every alive one
    intro hnames hper hmaxk ip
    have hA := hkept fun z _ => isOverLimit_eq_false hnames hper z
    have halive : alive' = A.map DNSZombieMapping.deepCopy :=
      hsame (by rw [List.length_map, hA]; exact hmaxk)
    rw [halive, hA]
    simp only [List.map_map, Function.comp_def, DNSZombieMapping.deepCopy_ip, List.mem_map,
      List.mem_filter]
    constructor
    · rintro ⟨z, ⟨hz, hk⟩, rfl⟩
      exact ⟨z, hz, rfl, hk⟩
    · rintro ⟨z, hz, rfl, hk⟩
      exact ⟨z, ⟨hz, hk⟩, rfl⟩

example :
    let zs : DNSZombieMappings :=
      ⟨[⟨["a.com."], .v4 1, 0, 0, 0⟩, ⟨["a.com."], .v4 2, 5, 0, 0⟩], 3, 2, 1, 1, by decide⟩
    0 ≤ zs.max ∧ 0 ≤ zs.perHostLimit ∧
      ∃ zs' alive dead, zs.GC 0 = some (zs', alive, dead) ∧ zs.GCResult 0 zs' alive dead := by
  intro zs
  exact ⟨by decide, by decide, GC_spec (by decide) (by decide)⟩

end DNSZombieMappings

end Cilium.Fqdn
