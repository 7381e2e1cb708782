import Mathlib.Data.Rat.Floor
import Mathlib.Algebra.Order.Floor.Semifield
import Mathlib.Algebra.BigOperators.Field
import Mathlib.Algebra.Order.BigOperators.Group.Finset
import Mathlib.Tactic.Linarith
import Cilium.Maglev.Permutation

/-! The Maglev lookup table (computeLookupTable in pkg/maglev/maglev.go).  For each slot number
`n` below the table size `m`, a backend takes a turn, starting from `n % len` and passing over
the backends whose weight counter is ahead of `(n + 1) * weight`; the backend then walks its
permutation row from where it stopped last time, passing over taken slots, and writes its ID in
the first free slot.  The weight counters are floating point in the code and exact rationals
here.

The loops of the code are unbounded; here the turn loop has fuel `len` and the slot search fuel
`m`, and a search that would read past the end of its row fails.  The lemmas of this module are
about one iteration: the turn loop stops at a backend whose counter is not ahead as soon as
there is one, and the weighted counters always leave one (`exists_counter_not_ahead`); the slot
search finds the first free slot of the row as soon as one is ahead; a write into a free slot
takes that slot and no other.  Cilium.Maglev.Complete carries them over the whole loop. -/

namespace Cilium.Maglev

/-- The value of a slot that no backend has taken yet. -/
def sentinel : BackendID := 0xffffffff

set_option linter.dupNamespace false in
/-- The Maglev object: its configuration and the two buffers it keeps between calls. -/
structure Maglev where
  cfg : Config
  backendInfosBuffer : List BackendInfo
  permutations : List UInt64

/-- The state of the slot loop of computeLookupTable. -/
structure TableState where
  weightCntr : List ℚ
  next : List ℕ
  entry : List BackendID

section Loop

variable (backends : List BackendInfo) (perm : List UInt64) (m : ℕ)

/-- The turn loop: from backend `i`, pass over the backends whose weight counter is ahead of
`(n + 1) * weight`. -/
def chooseTurn (weightCntr : List ℚ) (n : ℕ) : ℕ → ℕ → Option ℕ
  | 0, _ => none
  | fuel + 1, i =>
    match backends[i]? with
    | none => none
    | some info =>
      if (n + 1) * info.Weight.toNat < ⌊weightCntr.getD i 0⌋₊ then
        chooseTurn weightCntr n fuel ((i + 1) % backends.length)
      else some i

/-- The slot search of row `i` from position `k`: pass over the positions whose slot is
taken.  It returns the position of the free slot.  Going past the end of the row, which the
code would do without noticing, fails here. -/
def probe (entry : List BackendID) (i : ℕ) : ℕ → ℕ → Option ℕ
  | 0, _ => none
  | fuel + 1, k =>
    if k < m then do
      let c ← perm[i * m + k]?
      let e ← entry[c.toNat]?
      if e ≠ sentinel then probe entry i fuel (k + 1) else pure k
    else none

/-- The backend whose turn slot `n` is: the one at `n % len`, or with weights the first from
there whose counter is not ahead. -/
def turnOf (weightsUsed : Bool) (weightCntr : List ℚ) (n : ℕ) : Option ℕ :=
  if weightsUsed then chooseTurn backends weightCntr n backends.length (n % backends.length)
  else some (n % backends.length)

/-- One iteration `n` of the slot loop. -/
def lookupStep (weightsUsed : Bool) (weightSum : UInt64) (st : TableState) (n : ℕ) :
    Option TableState := do
  let i ← turnOf backends weightsUsed st.weightCntr n
  let info ← backends[i]?
  let weightCntr :=
    if weightsUsed then st.weightCntr.set i (st.weightCntr.getD i 0 + weightSum.toNat)
    else st.weightCntr
  let k ← probe perm m st.entry i m (st.next.getD i 0)
  let c ← perm[i * m + k]?
  pure ⟨weightCntr, st.next.set i (k + 1), st.entry.set c.toNat info.ID⟩

end Loop

/-- The sum of the weights, in 64-bit arithmetic. -/
def weightSumOf (backends : List BackendInfo) : UInt64 :=
  backends.foldl (fun s info => s + info.Weight.toUInt64) 0

/-- `weightSum / len > 1`: whether the weights change the turns. -/
def weightsUsedOf (backends : List BackendInfo) : Bool :=
  decide (weightSumOf backends / backends.length.toUInt64 > 1)

/-- The state before the slot loop: each counter at `weight / len`, no slot taken. -/
def initTableState (backends : List BackendInfo) (m : ℕ) : TableState where
  weightCntr := backends.map fun info => (info.Weight.toNat : ℚ) / backends.length
  next := List.replicate backends.length 0
  entry := List.replicate m sentinel

section Hash

variable (hash128 : List UInt8 → UInt32 → UInt64 × UInt64)

/-- computeLookupTable, with the number of CPUs for getPermutation.  It returns the Maglev
object with its permutation buffer after the call, and the table. -/
def computeLookupTable (ml : Maglev) (numCPU : ℕ) : Option (Maglev × List BackendID) := do
  let backends := ml.backendInfosBuffer
  let m := ml.cfg.TableSize
  let perm := getPermutation hash128 ml.cfg ml.permutations backends numCPU
  let st ← (List.range m).foldlM
    (lookupStep backends perm.2 m (weightsUsedOf backends) (weightSumOf backends))
    (initTableState backends m)
  pure ({ ml with permutations := perm.1 }, st.entry)

/-- GetLookupTable: the backends sorted by their hash strings, then computeLookupTable.  The
code's sort is not stable and a merge sort stands for it; the two agree when the hash strings
are distinct, as those of distinct backend addresses are. -/
def GetLookupTable (ml : Maglev) (numCPU : ℕ) (backends : List BackendInfo) :
    Option (Maglev × List BackendID) :=
  computeLookupTable hash128
    { ml with
      backendInfosBuffer := backends.mergeSort fun a b => decide (a.hashString ≤ b.hashString) }
    numCPU

end Hash

/-! ### The turn loop -/

/-- The weight of backend `i`, as a number. -/
def weightAt (backends : List BackendInfo) (i : ℕ) : ℕ :=
  (backends[i]?.map fun b => b.Weight.toNat).getD 0

theorem weightAt_of_lt {backends : List BackendInfo} {i : ℕ} (hi : i < backends.length) :
    weightAt backends i = backends[i].Weight.toNat := by
  rw [weightAt, List.getElem?_eq_getElem hi]
  rfl

/-- The weighted turns cannot pass over every backend: if the counters sum to
`W / l + n * W'` with `W'` at most the total weight `W`, some backend's counter is not ahead of
`(n + 1)` times its weight. -/
theorem exists_counter_not_ahead {l n W' : ℕ} (w : ℕ → ℕ) (c : ℕ → ℚ) (hl : 0 < l)
    (hW : W' ≤ ∑ i ∈ Finset.range l, w i)
    (hsum : ∑ i ∈ Finset.range l, c i = (∑ i ∈ Finset.range l, (w i : ℚ)) / l + n * W') :
    ∃ i < l, ¬ (n + 1) * w i < ⌊c i⌋₊ := by
  by_contra hall
  push Not at hall
  -- every counter is then above `(n + 1)` times its weight, and so is their sum
  have hlt : ∀ i ∈ Finset.range l, ((n + 1 : ℕ) : ℚ) * w i < c i := by
    intro i hi
    have h := hall i (Finset.mem_range.mp hi)
    have h1 : (1 : ℚ) ≤ c i := (Nat.one_le_floor_iff _).mp (by omega)
    calc ((n + 1 : ℕ) : ℚ) * w i = (((n + 1) * w i : ℕ) : ℚ) := by push_cast; ring
      _ < ⌊c i⌋₊ := by exact_mod_cast h
      _ ≤ c i := Nat.floor_le (by linarith)
  have hsumlt := Finset.sum_lt_sum_of_nonempty (Finset.nonempty_range_iff.mpr hl.ne') hlt
  rw [← Finset.mul_sum, hsum] at hsumlt
  have hW0 : (0 : ℚ) ≤ ∑ i ∈ Finset.range l, (w i : ℚ) :=
    Finset.sum_nonneg fun i _ => Nat.cast_nonneg _
  have hWl : (∑ i ∈ Finset.range l, (w i : ℚ)) / l ≤ ∑ i ∈ Finset.range l, (w i : ℚ) :=
    div_le_self hW0 (by exact_mod_cast hl)
  have hW' : (W' : ℚ) ≤ ∑ i ∈ Finset.range l, (w i : ℚ) := by exact_mod_cast hW
  have hnW : (n : ℚ) * W' ≤ n * ∑ i ∈ Finset.range l, (w i : ℚ) :=
    mul_le_mul_of_nonneg_left hW' (Nat.cast_nonneg n)
  push_cast at hsumlt
  linarith

section Turn

variable {backends : List BackendInfo} {weightCntr : List ℚ} {n : ℕ}

theorem chooseTurn_of_not_lt {fuel i : ℕ} (hi : i < backends.length)
    (h : ¬ (n + 1) * weightAt backends i < ⌊weightCntr.getD i 0⌋₊) :
    chooseTurn backends weightCntr n (fuel + 1) i = some i := by
  rw [weightAt_of_lt hi] at h
  rw [chooseTurn, List.getElem?_eq_getElem hi]
  exact if_neg h

/-- The turn loop from `i0` stops at a backend whose counter is not ahead, as soon as one
stands fewer than `fuel` backends after `i0`. -/
theorem chooseTurn_spec :
    ∀ {fuel i0 t : ℕ}, i0 < backends.length → t < fuel →
      ¬ (n + 1) * weightAt backends ((i0 + t) % backends.length) <
        ⌊weightCntr.getD ((i0 + t) % backends.length) 0⌋₊ →
      ∃ k < backends.length, chooseTurn backends weightCntr n fuel i0 = some k ∧
        ¬ (n + 1) * weightAt backends k < ⌊weightCntr.getD k 0⌋₊
  | fuel + 1, i0, t, hi0, ht, hnot => by
    by_cases hpass : (n + 1) * weightAt backends i0 < ⌊weightCntr.getD i0 0⌋₊
    · -- `i0` is passed over: the loop goes on from the next backend
      have hl : 0 < backends.length := by omega
      have ht0 : t ≠ 0 := by
        rintro rfl
        rw [show (i0 + 0) % backends.length = i0 from Nat.mod_eq_of_lt hi0] at hnot
        exact hnot hpass
      have hnext : ((i0 + 1) % backends.length + (t - 1)) % backends.length =
          (i0 + t) % backends.length := by
        rw [Nat.mod_add_mod, show i0 + 1 + (t - 1) = i0 + t by omega]
      rw [← hnext] at hnot
      have hlt : weightAt backends i0 = backends[i0].Weight.toNat := weightAt_of_lt hi0
      rw [chooseTurn, List.getElem?_eq_getElem hi0]
      dsimp only
      rw [hlt] at hpass
      rw [if_pos hpass]
      exact chooseTurn_spec (Nat.mod_lt _ hl) (by omega) hnot
    · exact ⟨i0, hi0, chooseTurn_of_not_lt hi0 hpass, hpass⟩

end Turn

/-! ### The slot search -/

section Probe

variable {perm : List UInt64} {m : ℕ} {entry : List BackendID} {i : ℕ} {row : ℕ → ℕ}

/-- The slot search along row `i`, read as the stride `row`, finds the first free slot from
`k` on, as soon as there is one at a position `j0` below `m` and within the fuel. -/
theorem probe_spec
    (hrow : ∀ j < m, (perm[i * m + j]?).map UInt64.toNat = some (row j))
    (hlen : ∀ j < m, row j < entry.length) :
    ∀ {fuel k j0 : ℕ}, k ≤ j0 → j0 < m → entry[row j0]? = some sentinel → j0 - k < fuel →
      ∃ j, k ≤ j ∧ j ≤ j0 ∧ probe perm m entry i fuel k = some j ∧
        entry[row j]? = some sentinel ∧
        ∀ j', k ≤ j' → j' < j → entry[row j']? ≠ some sentinel
  | fuel + 1, k, j0, hk, hj0, hfree, hfuel => by
    have hkm : k < m := by omega
    obtain ⟨c, hc, hcrow⟩ := Option.map_eq_some_iff.mp (hrow k hkm)
    have hk' : row k < entry.length := hlen k hkm
    have hget : entry[row k]? = some entry[row k] := List.getElem?_eq_getElem hk'
    rw [probe, if_pos hkm, hc, Option.bind_eq_bind, Option.bind_some, hcrow, hget,
      Option.bind_eq_bind, Option.bind_some]
    by_cases htaken : entry[row k] ≠ sentinel
    · -- the slot at `k` is taken, so `k` is before `j0` and the search goes on
      rw [if_pos htaken]
      have hkj : k ≠ j0 := by
        rintro rfl
        rw [hget] at hfree
        exact htaken (Option.some.inj hfree)
      obtain ⟨j, hkj', hjj0, hprobe, hjfree, hbefore⟩ :=
        probe_spec hrow hlen (k := k + 1) (by omega) hj0 hfree (show j0 - (k + 1) < fuel by omega)
      refine ⟨j, by omega, hjj0, hprobe, hjfree, fun j' hj' hj'j => ?_⟩
      rcases Nat.eq_or_lt_of_le hj' with rfl | hlt
      · rw [hget]
        exact fun h => htaken (Option.some.inj h)
      · exact hbefore j' hlt hj'j
    · rw [if_neg htaken]
      push Not at htaken
      exact ⟨k, le_refl k, hk, rfl, by rw [hget, htaken], fun j' hj' hj'k => absurd hj'k (by omega)⟩

end Probe

/-! ### The slots taken -/

/-- The slots taken: those that do not hold the sentinel. -/
def occupied (entry : List BackendID) : Finset ℕ :=
  (Finset.range entry.length).filter fun c => entry[c]? ≠ some sentinel

section Occupied

variable {entry : List BackendID} {c : ℕ}

theorem mem_occupied : c ∈ occupied entry ↔ c < entry.length ∧ entry[c]? ≠ some sentinel := by
  rw [occupied, Finset.mem_filter, Finset.mem_range]

theorem notMem_occupied_of_free (hfree : entry[c]? = some sentinel) : c ∉ occupied entry :=
  fun h => (mem_occupied.mp h).2 hfree

theorem occupied_replicate (m : ℕ) : occupied (List.replicate m sentinel) = ∅ := by
  apply Finset.eq_empty_of_forall_notMem
  intro c hc
  have hc' := mem_occupied.mp hc
  rw [List.length_replicate] at hc'
  exact hc'.2 (List.getElem?_replicate_of_lt hc'.1)

theorem occupied_set_subset (id : BackendID) :
    occupied (entry.set c id) ⊆ insert c (occupied entry) := by
  intro d hd
  rw [Finset.mem_insert]
  by_cases hdc : d = c
  · exact Or.inl hdc
  · right
    have hd' := mem_occupied.mp hd
    rw [List.length_set, List.getElem?_set_ne (Ne.symm hdc)] at hd'
    exact mem_occupied.mpr hd'

/-- Writing an ID other than the sentinel into a free slot takes that slot. -/
theorem occupied_set_of_ne (hfree : entry[c]? = some sentinel) {id : BackendID}
    (hid : id ≠ sentinel) : occupied (entry.set c id) = insert c (occupied entry) := by
  apply Finset.Subset.antisymm (occupied_set_subset id)
  have hc : c < entry.length := (List.getElem?_eq_some_iff.mp hfree).1
  intro d hd
  rcases Finset.mem_insert.mp hd with rfl | hd
  · refine mem_occupied.mpr ⟨by rw [List.length_set]; exact hc, ?_⟩
    rw [List.getElem?_set_self hc]
    exact fun h => hid (Option.some.inj h)
  · have hd' := mem_occupied.mp hd
    have hdc : d ≠ c := fun h => hd'.2 (h ▸ hfree)
    refine mem_occupied.mpr ⟨by rw [List.length_set]; exact hd'.1, ?_⟩
    rw [List.getElem?_set_ne (Ne.symm hdc)]
    exact hd'.2

/-- Writing the sentinel into a free slot, as a backend whose ID is the sentinel does, leaves
the slots taken as they were. -/
theorem occupied_set_sentinel (hfree : entry[c]? = some sentinel) :
    occupied (entry.set c sentinel) = occupied entry := by
  apply Finset.Subset.antisymm
  · intro d hd
    rcases Finset.mem_insert.mp (occupied_set_subset sentinel hd) with rfl | hd'
    · have := (mem_occupied.mp hd).2
      rw [List.getElem?_set_self (List.getElem?_eq_some_iff.mp hfree).1] at this
      exact absurd rfl this
    · exact hd'
  · intro d hd
    have hd' := mem_occupied.mp hd
    have hdc : d ≠ c := fun h => hd'.2 (h ▸ hfree)
    refine mem_occupied.mpr ⟨by rw [List.length_set]; exact hd'.1, ?_⟩
    rw [List.getElem?_set_ne (Ne.symm hdc)]
    exact hd'.2

/-- An ID other than the sentinel is not overwritten by a write into a free slot. -/
theorem mem_set_of_mem (hfree : entry[c]? = some sentinel) {id id' : BackendID}
    (hmem : id ∈ entry) (hid : id ≠ sentinel) : id ∈ entry.set c id' := by
  obtain ⟨d, hd⟩ := List.mem_iff_getElem?.mp hmem
  have hdc : c ≠ d := by
    rintro rfl
    rw [hfree] at hd
    exact hid (Option.some.inj hd).symm
  exact List.mem_iff_getElem?.mpr ⟨d, by rw [List.getElem?_set_ne hdc]; exact hd⟩

/-- When every slot is taken, no slot holds the sentinel. -/
theorem sentinel_notMem_of_card (hcard : entry.length ≤ (occupied entry).card) :
    sentinel ∉ entry := by
  have hall : occupied entry = Finset.range entry.length :=
    Finset.eq_of_subset_of_card_le (Finset.filter_subset _ _) (by rwa [Finset.card_range])
  intro hmem
  obtain ⟨d, hd⟩ := List.mem_iff_getElem?.mp hmem
  have hdlt : d < entry.length := (List.getElem?_eq_some_iff.mp hd).1
  have hocc : d ∈ occupied entry := by
    rw [hall]
    exact Finset.mem_range.mpr hdlt
  exact (mem_occupied.mp hocc).2 hd

/-- When fewer slots are taken than there are, some slot still holds the sentinel. -/
theorem sentinel_mem_of_card_lt (hcard : (occupied entry).card < entry.length) :
    sentinel ∈ entry := by
  have hlt : (occupied entry).card < (Finset.range entry.length).card := by
    rwa [Finset.card_range]
  obtain ⟨d, hd, hdnot⟩ := Finset.exists_mem_notMem_of_card_lt_card hlt
  have hdlt : d < entry.length := Finset.mem_range.mp hd
  have hfree : entry[d]? = some sentinel := by
    by_contra hne
    exact hdnot (mem_occupied.mpr ⟨hdlt, hne⟩)
  exact List.mem_iff_getElem?.mpr ⟨d, hfree⟩

end Occupied

/-- A set inside one more element than a set of at most `n` has at most `n + 1`. -/
theorem card_le_succ_of_subset_insert {A B : Finset ℕ} {c n : ℕ} (h : A ⊆ insert c B)
    (hB : B.card ≤ n) : A.card ≤ n + 1 :=
  calc A.card ≤ (insert c B).card := Finset.card_le_card h
    _ ≤ B.card + 1 := Finset.card_insert_le c B
    _ ≤ n + 1 := Nat.succ_le_succ hB

/-- Adding `W'` to one counter adds `W'` to the sum of the counters. -/
theorem sum_getD_set_add {L : List ℚ} {l k : ℕ} (hk : k < l) (hlen : L.length = l) (W' : ℚ) :
    ∑ i ∈ Finset.range l, (L.set k (L.getD k 0 + W')).getD i 0 =
      ∑ i ∈ Finset.range l, L.getD i 0 + W' := by
  have hpoint : ∀ i ∈ Finset.range l,
      (L.set k (L.getD k 0 + W')).getD i 0 = L.getD i 0 + if k = i then W' else 0 := by
    intro i _
    by_cases hki : k = i
    · subst hki
      rw [List.getD_eq_getElem?_getD, List.getElem?_set_self (by omega), if_pos rfl]
      rfl
    · rw [List.getD_eq_getElem?_getD, List.getElem?_set_ne hki, if_neg hki, add_zero,
        ← List.getD_eq_getElem?_getD]
  rw [Finset.sum_congr rfl hpoint, Finset.sum_add_distrib, Finset.sum_ite_eq,
    if_pos (Finset.mem_range.mpr hk)]

theorem getD_set_self_of_lt {α : Type} {L : List α} {k : ℕ} (hk : k < L.length) (v d : α) :
    (L.set k v).getD k d = v := by
  rw [List.getD_eq_getElem?_getD, List.getElem?_set_self hk]
  rfl

theorem getD_set_of_ne {α : Type} (L : List α) {k i : ℕ} (hki : k ≠ i) (v d : α) :
    (L.set k v).getD i d = L.getD i d := by
  rw [List.getD_eq_getElem?_getD, List.getElem?_set_ne hki, ← List.getD_eq_getElem?_getD]

theorem getD_replicate_zero (l i : ℕ) : (List.replicate l 0).getD i 0 = 0 := by
  rw [List.getD_eq_getElem?_getD, List.getElem?_replicate]
  split <;> rfl

end Cilium.Maglev
