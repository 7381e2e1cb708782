import Cilium.Identity.Labels
import Mathlib.Data.Finset.Card

/-! The reference counters of `pkg/counter`: `IntCounter`, a count for each integer key it holds,
and `PrefixLengthCounter`, one such counter of prefix lengths for each address family, limited in
the number of lengths it may hold.  A prefix's family is that of its address; the zero address,
whose bit length `Add` rejects, is not an `Addr` of the model. -/

namespace Cilium.Counter

open Cilium.Ipcache

/-- `counter.IntCounter`. -/
abbrev IntCounter := AList fun _ : ℕ => ℕ

/-- The reference count of a key, `c[key]`: zero for a key the counter does not hold. -/
def IntCounter.count (c : IntCounter) (key : ℕ) : ℕ := (c.lookup key).getD 0

/-- `Counter.Add`: the counter, and whether the key is new. -/
def IntCounter.add (c : IntCounter) (key : ℕ) : IntCounter × Bool :=
  (c.insert key (c.count key + 1), !(c.lookup key).isSome)

/-- `Counter.Delete`: the counter, and whether the key went away. -/
def IntCounter.delete (c : IntCounter) (key : ℕ) : IntCounter × Bool :=
  let value := c.count key
  if value ≤ 1 then (c.erase key, true) else (c.insert key (value - 1), false)

/-- `IntCounter.ToBPFData`: the keys, from high to low.  The keys are distinct, so every sort
gives this list. -/
def IntCounter.toBPFData (c : IntCounter) : List ℕ := c.keys.insertionSort fun a b => b ≤ a

/-- `counter.PrefixLengthCounter`. -/
structure PrefixLengthCounter where
  v4 : IntCounter
  v6 : IntCounter
  maxUniquePrefixes4 : ℕ
  maxUniquePrefixes6 : ℕ

def newPrefixLengthCounter (maxUniquePrefixes6 maxUniquePrefixes4 : ℕ) : PrefixLengthCounter :=
  ⟨∅, ∅, maxUniquePrefixes4, maxUniquePrefixes6⟩

/-- The error of `checkLimits`: "adding specified prefixes would result in too many prefix
lengths (current: %d, result: %d, max: %d)". -/
inductive CounterError where
  | tooManyPrefixLengths (current result max : ℕ)
  deriving DecidableEq, Repr

def checkLimits (current newCount max : ℕ) : Option CounterError :=
  if newCount > max then some (.tooManyPrefixLengths current newCount max) else none

/-- The loop of `Add` over the prefixes, on copies of both counters, noting for each family
whether it gained a length. -/
def addLoop : List Prefix → IntCounter × IntCounter × Bool × Bool →
    IntCounter × IntCounter × Bool × Bool
  | [], acc => acc
  | p :: ps, (v4, v6, new4, new6) =>
    match p.addr with
    | .v4 _ =>
      let r := v4.add p.bits
      addLoop ps (r.1, v6, new4 || r.2, new6)
    | .v6 _ =>
      let r := v6.add p.bits
      addLoop ps (v4, r.1, new4, new6 || r.2)

/-- `PrefixLengthCounter.Add`: the counters change only when neither family would exceed its
limit. -/
def PrefixLengthCounter.add (p : PrefixLengthCounter) (prefixes : List Prefix) :
    PrefixLengthCounter × Except CounterError Bool :=
  let (v4, v6, new4, new6) := addLoop prefixes (p.v4, p.v6, false, false)
  let limit4 := if new4 then checkLimits p.v4.keys.length v4.keys.length p.maxUniquePrefixes4
    else none
  let limit6 := if new6 then checkLimits p.v6.keys.length v6.keys.length p.maxUniquePrefixes6
    else none
  match limit4, limit6 with
  | some e, _ => (p, .error e)
  | none, some e => (p, .error e)
  | none, none => ({ p with v4 := v4, v6 := v6 }, .ok (new4 || new6))

/-- `PrefixLengthCounter.Delete`. -/
def PrefixLengthCounter.delete (p : PrefixLengthCounter) (prefixes : List Prefix) :
    PrefixLengthCounter × Bool :=
  prefixes.foldl (fun (acc : PrefixLengthCounter × Bool) q =>
    match q.addr with
    | .v4 _ =>
      let r := acc.1.v4.delete q.bits
      ({ acc.1 with v4 := r.1 }, acc.2 || r.2)
    | .v6 _ =>
      let r := acc.1.v6.delete q.bits
      ({ acc.1 with v6 := r.1 }, acc.2 || r.2)) (p, false)

/-- `PrefixLengthCounter.ToBPFData`: the IPv6 lengths, then the IPv4 ones. -/
def PrefixLengthCounter.toBPFData (p : PrefixLengthCounter) : List ℕ × List ℕ :=
  (p.v6.toBPFData, p.v4.toBPFData)

/-- `createIPNet`, which is only called with the bit length of a family. -/
def createIPNet (ones bits : ℕ) : Prefix :=
  if bits = 32 then ⟨.v4 0, ones⟩ else ⟨.v6 0, ones⟩

/-- `DefaultPrefixLengthCounter`: the lengths of the world prefix and of a host, for each family.
The `Add` cannot fail (`defaultPrefixLengthCounter_add`). -/
def defaultPrefixLengthCounter : PrefixLengthCounter :=
  ((newPrefixLengthCounter (16 * 8 + 1) (4 * 8 + 1)).add
    [createIPNet 0 32, createIPNet 32 32, createIPNet 0 128, createIPNet 128 128]).1

/-! ### Counts -/

namespace IntCounter

theorem count_add (c : IntCounter) (k k' : ℕ) :
    (c.add k).1.count k' = c.count k' + if k' = k then 1 else 0 := by
  unfold add count
  by_cases h : k' = k
  · subst h
    simp
  · simp [AList.lookup_insert_ne h, h]

/-- `Delete` takes one reference, and the key with its last. -/
theorem count_delete (c : IntCounter) (k k' : ℕ) :
    (c.delete k).1.count k' = if k' = k then c.count k - 1 else c.count k' := by
  dsimp only [delete]
  by_cases hv : c.count k ≤ 1
  · rw [if_pos hv]
    by_cases h : k' = k
    · subst h
      simp only [count, AList.lookup_erase, Option.getD_none, if_true]
      unfold count at hv
      omega
    · simp only [count, AList.lookup_erase_ne h, h, if_false]
  · rw [if_neg hv]
    by_cases h : k' = k
    · subst h
      simp [count]
    · simp only [count, AList.lookup_insert_ne h, h, if_false]

theorem mem_of_count_pos {c : IntCounter} {k : ℕ} (h : 0 < c.count k) : k ∈ c := by
  unfold count at h
  rcases hk : c.lookup k with _ | v
  · rw [hk] at h
    cases h
  · exact AList.lookup_isSome.mp (by rw [hk]; rfl)

theorem mem_add {c : IntCounter} {k k' : ℕ} : k' ∈ (c.add k).1 ↔ k' = k ∨ k' ∈ c :=
  AList.mem_insert c

theorem mem_of_mem_delete {c : IntCounter} {k k' : ℕ} (h : k' ∈ (c.delete k).1) : k' ∈ c := by
  dsimp only [delete] at h
  split_ifs at h with hv
  · exact (AList.mem_erase.mp h).2
  · rcases (AList.mem_insert c).mp h with rfl | h'
    · exact mem_of_count_pos (by omega)
    · exact h'

theorem mem_toBPFData {c : IntCounter} {k : ℕ} : k ∈ c.toBPFData ↔ k ∈ c := by
  rw [toBPFData, (List.perm_insertionSort _ _).mem_iff, AList.mem_keys]

/-- The lengths come strictly from high to low. -/
theorem toBPFData_pairwise (c : IntCounter) : c.toBPFData.Pairwise (· > ·) := by
  have hsorted := List.pairwise_insertionSort (fun a b : ℕ => b ≤ a) c.keys
  have hnodup := (List.perm_insertionSort (fun a b : ℕ => b ≤ a) c.keys).nodup_iff.mpr c.keys_nodup
  exact (hsorted.and hnodup).imp fun ⟨hle, hne⟩ => lt_of_le_of_ne hle (Ne.symm hne)

end IntCounter

/-- A list of distinct numbers up to `n` has at most `n + 1` of them. -/
theorem length_le_of_nodup_of_le {l : List ℕ} {n : ℕ} (hl : l.Nodup) (h : ∀ x ∈ l, x ≤ n) :
    l.length ≤ n + 1 := by
  rw [← List.toFinset_card_of_nodup hl, ← Finset.card_range (n + 1)]
  exact Finset.card_le_card fun x hx => Finset.mem_range.mpr (Nat.lt_succ_of_le
    (h x (List.mem_toFinset.mp hx)))

namespace PrefixLengthCounter

/-- The counter of an address's family. -/
def counterOf (p : PrefixLengthCounter) : Addr → IntCounter
  | .v4 _ => p.v4
  | .v6 _ => p.v6

/-- What a counter of the default limits keeps: the limits, and only lengths of its family. -/
structure Bounded (p : PrefixLengthCounter) : Prop where
  max4 : p.maxUniquePrefixes4 = 33
  max6 : p.maxUniquePrefixes6 = 129
  le4 : ∀ L ∈ p.v4, L ≤ 32
  le6 : ∀ L ∈ p.v6, L ≤ 128

/-- Adding one valid prefix to a bounded counter never meets the limit: it counts the length in
the prefix's family. -/
theorem add_single {p : PrefixLengthCounter} (hp : p.Bounded) {q : Prefix}
    (hq : q.bits ≤ q.addr.bitLen) :
    (p.add [q]).1 = match q.addr with
      | .v4 _ => { p with v4 := (p.v4.add q.bits).1 }
      | .v6 _ => { p with v6 := (p.v6.add q.bits).1 } := by
  obtain ⟨a, bits⟩ := q
  cases a with
  | v4 b =>
    have hlen : ((p.v4.add bits).1).keys.length ≤ 33 := by
      refine length_le_of_nodup_of_le (AList.keys_nodup _) fun L hL => ?_
      rcases IntCounter.mem_add.mp (AList.mem_keys.mp hL) with rfl | hL'
      · exact hq
      · exact hp.le4 L hL'
    simp only [add, addLoop, checkLimits, hp.max4, Bool.false_or, gt_iff_lt, not_lt.mpr hlen,
      Bool.false_eq_true, if_false, ite_self]
  | v6 b =>
    have hlen : ((p.v6.add bits).1).keys.length ≤ 129 := by
      refine length_le_of_nodup_of_le (AList.keys_nodup _) fun L hL => ?_
      rcases IntCounter.mem_add.mp (AList.mem_keys.mp hL) with rfl | hL'
      · exact hq
      · exact hp.le6 L hL'
    simp only [add, addLoop, checkLimits, hp.max6, Bool.false_or, gt_iff_lt, not_lt.mpr hlen,
      Bool.false_eq_true, if_false, ite_self]

theorem delete_single (p : PrefixLengthCounter) (q : Prefix) :
    (p.delete [q]).1 = match q.addr with
      | .v4 _ => { p with v4 := (p.v4.delete q.bits).1 }
      | .v6 _ => { p with v6 := (p.v6.delete q.bits).1 } := by
  obtain ⟨a, bits⟩ := q
  cases a <;> rfl

theorem count_add_single {p : PrefixLengthCounter} (hp : p.Bounded) {q : Prefix}
    (hq : q.bits ≤ q.addr.bitLen) (a : Addr) (L : ℕ) :
    ((p.add [q]).1.counterOf a).count L =
      (p.counterOf a).count L + if q.addr.bitLen = a.bitLen ∧ L = q.bits then 1 else 0 := by
  rw [add_single hp hq]
  obtain ⟨qa, bits⟩ := q
  cases qa <;> cases a <;> simp [counterOf, IntCounter.count_add, Addr.bitLen]

theorem count_delete_single (p : PrefixLengthCounter) (q : Prefix) (a : Addr) (L : ℕ) :
    ((p.delete [q]).1.counterOf a).count L =
      if q.addr.bitLen = a.bitLen ∧ L = q.bits then (p.counterOf a).count L - 1
      else (p.counterOf a).count L := by
  rw [delete_single]
  obtain ⟨qa, bits⟩ := q
  by_cases h : L = bits
  · subst h
    cases qa <;> cases a <;> simp [counterOf, IntCounter.count_delete, Addr.bitLen]
  · cases qa <;> cases a <;> simp [counterOf, IntCounter.count_delete, Addr.bitLen, h]

theorem Bounded.add_single {p : PrefixLengthCounter} (hp : p.Bounded) {q : Prefix}
    (hq : q.bits ≤ q.addr.bitLen) : (p.add [q]).1.Bounded := by
  rw [PrefixLengthCounter.add_single hp hq]
  obtain ⟨qa, bits⟩ := q
  cases qa with
  | v4 b =>
    refine ⟨hp.max4, hp.max6, fun L hL => ?_, hp.le6⟩
    rcases IntCounter.mem_add.mp hL with rfl | hL
    · exact hq
    · exact hp.le4 L hL
  | v6 b =>
    refine ⟨hp.max4, hp.max6, hp.le4, fun L hL => ?_⟩
    rcases IntCounter.mem_add.mp hL with rfl | hL
    · exact hq
    · exact hp.le6 L hL

theorem Bounded.delete_single {p : PrefixLengthCounter} (hp : p.Bounded) (q : Prefix) :
    (p.delete [q]).1.Bounded := by
  rw [PrefixLengthCounter.delete_single]
  obtain ⟨qa, bits⟩ := q
  cases qa with
  | v4 b => exact ⟨hp.max4, hp.max6, fun L hL => hp.le4 L (IntCounter.mem_of_mem_delete hL), hp.le6⟩
  | v6 b => exact ⟨hp.max4, hp.max6, hp.le4, fun L hL => hp.le6 L (IntCounter.mem_of_mem_delete hL)⟩

end PrefixLengthCounter

theorem defaultPrefixLengthCounter_eq : defaultPrefixLengthCounter =
    ⟨((∅ : IntCounter).add 0).1.add 32 |>.1, ((∅ : IntCounter).add 0).1.add 128 |>.1, 33, 129⟩ := by
  rfl

/-- The default counter counts each family's world and host lengths once. -/
theorem count_defaultPrefixLengthCounter (a : Addr) (L : ℕ) :
    (defaultPrefixLengthCounter.counterOf a).count L =
      if L = 0 ∨ L = a.bitLen then 1 else 0 := by
  have hempty : (∅ : IntCounter).count L = 0 := rfl
  rw [defaultPrefixLengthCounter_eq]
  by_cases h0 : L = 0
  · subst h0
    cases a <;> simp [PrefixLengthCounter.counterOf, IntCounter.count_add, hempty, Addr.bitLen]
  · cases a <;>
      simp [PrefixLengthCounter.counterOf, IntCounter.count_add, hempty, Addr.bitLen, h0]

theorem bounded_defaultPrefixLengthCounter : defaultPrefixLengthCounter.Bounded := by
  rw [defaultPrefixLengthCounter_eq]
  refine ⟨rfl, rfl, fun L hL => ?_, fun L hL => ?_⟩
  · have : L = 32 ∨ L = 0 := by simpa [IntCounter.mem_add] using hL
    omega
  · have : L = 128 ∨ L = 0 := by simpa [IntCounter.mem_add] using hL
    omega

end Cilium.Counter
