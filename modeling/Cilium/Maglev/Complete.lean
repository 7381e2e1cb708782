import Mathlib.Tactic.NormNum.Prime
import Mathlib.Data.String.Basic
import Cilium.Maglev.Table

/-! The Maglev lookup table is complete.  `LoopInv` is the invariant of the slot loop of
computeLookupTable: after `n` slots, for every row, the slots the row has visited together with
the slots taken number at most `n`, and the weight counters sum to `W / len + n * W'`.  One
iteration keeps it (`LoopInv.step`, from the turn, the slot search and the write), so the loop
runs through all `m` slots (`loopInv_run`), and at the end the invariant gives the table spec
`TableComplete`.  `computeLookupTable_complete` puts this together for the supported table
sizes, which are primes. -/

namespace Cilium.Maglev

/-! ### The invariant of the slot loop -/

section Run

variable (backends : List BackendInfo) (m : ℕ) (off skp : ℕ → ℕ) (weightsUsed : Bool) (W' : ℕ)

/-- The invariant of the slot loop after `n` slots, for rows that are the strides of `off` and
`skp`, and weighted turns that add `W'` to a counter.  `next[i]` is the number of positions of
row `i` already passed; a backend with `next[i] > 0` has had a turn. -/
structure LoopInv (st : TableState) (n : ℕ) : Prop where
  length_entry : st.entry.length = m
  length_next : st.next.length = backends.length
  length_weightCntr : st.weightCntr.length = backends.length
  /-- The count the slot search rests on. -/
  card_visited_union : ∀ i < backends.length,
    (Stride.visited m (off i) (skp i) (st.next.getD i 0) ∪ occupied st.entry).card ≤ n
  ids : ∀ id ∈ st.entry, id ≠ sentinel → ∃ b ∈ backends, b.ID = id
  card_occupied : (∀ b ∈ backends, b.ID ≠ sentinel) → (occupied st.entry).card = n
  mem_of_chosen : ∀ (i : ℕ) (hi : i < backends.length), 0 < st.next.getD i 0 →
    backends[i].ID ≠ sentinel → backends[i].ID ∈ st.entry
  card_lt_of_chosen : ∀ (i : ℕ) (hi : i < backends.length), 0 < st.next.getD i 0 →
    backends[i].ID = sentinel → (occupied st.entry).card < n
  fresh : ∀ i < backends.length, st.next.getD i 0 = 0 →
    st.weightCntr.getD i 0 = weightAt backends i / backends.length
  /-- The count the weighted turns rest on. -/
  sum_weightCntr : weightsUsed = true →
    ∑ i ∈ Finset.range backends.length, st.weightCntr.getD i 0 =
      (∑ i ∈ Finset.range backends.length, (weightAt backends i : ℚ)) / backends.length +
        n * W'
  chosen_of_lt : ∀ i < backends.length, i < n → 0 < st.next.getD i 0

theorem loopInv_init :
    LoopInv backends m off skp weightsUsed W' (initTableState backends m) 0 := by
  have hnext : ∀ i, (initTableState backends m).next.getD i 0 = 0 :=
    getD_replicate_zero backends.length
  have hcntr : ∀ i < backends.length, (initTableState backends m).weightCntr.getD i 0 =
      weightAt backends i / backends.length := by
    intro i hi
    rw [initTableState, List.getD_eq_getElem?_getD, List.getElem?_map,
      List.getElem?_eq_getElem hi, weightAt_of_lt hi]
    rfl
  refine ⟨List.length_replicate, List.length_replicate, List.length_map _, ?_, ?_, ?_, ?_, ?_,
    ?_, ?_, ?_⟩
  · intro i _
    rw [hnext, initTableState, occupied_replicate, Finset.union_empty, Stride.visited,
      Finset.range_zero, Finset.image_empty]
    rfl
  · intro id hid hne
    exact absurd (List.eq_of_mem_replicate hid) hne
  · intro _
    rw [initTableState, occupied_replicate]
    rfl
  · intro i _ hpos
    rw [hnext] at hpos
    exact absurd hpos (Nat.lt_irrefl 0)
  · intro i _ hpos
    rw [hnext] at hpos
    exact absurd hpos (Nat.lt_irrefl 0)
  · intro i hi _
    exact hcntr i hi
  · intro _
    rw [Finset.sum_congr rfl fun i hi => hcntr i (Finset.mem_range.mp hi), Finset.sum_div]
    push_cast
    ring
  · intro i _ hi
    exact absurd hi (Nat.not_lt_zero i)

variable {backends m off skp weightsUsed W'}

/-- The turn of slot `n`: some backend, and backend `n` itself when it has had no turn yet. -/
theorem LoopInv.turn {st : TableState} {n : ℕ}
    (hinv : LoopInv backends m off skp weightsUsed W' st n) (hl : 0 < backends.length)
    (hW : W' ≤ ∑ i ∈ Finset.range backends.length, weightAt backends i) :
    ∃ k, turnOf backends weightsUsed st.weightCntr n = some k ∧
      k < backends.length ∧ (n < backends.length → st.next.getD n 0 = 0 → k = n) := by
  cases weightsUsed with
  | false =>
    exact ⟨n % backends.length, rfl, Nat.mod_lt _ hl, fun hn _ => Nat.mod_eq_of_lt hn⟩
  | true =>
    rw [turnOf, if_pos rfl]
    by_cases hfirst : n < backends.length ∧ st.next.getD n 0 = 0
    · -- backend `n` has had no turn: its counter is `weight / len`, not ahead
      have hnot : ¬ (n + 1) * weightAt backends n < ⌊st.weightCntr.getD n 0⌋₊ := by
        rw [hinv.fresh n hfirst.1 hfirst.2, Nat.floor_div_eq_div]
        have := Nat.div_le_self (weightAt backends n) backends.length
        have : weightAt backends n ≤ (n + 1) * weightAt backends n :=
          Nat.le_mul_of_pos_left _ (Nat.succ_pos n)
        omega
      obtain ⟨l', hl'⟩ : ∃ l', backends.length = l' + 1 := ⟨backends.length - 1, by omega⟩
      refine ⟨n, ?_, hfirst.1, fun _ _ => rfl⟩
      rw [Nat.mod_eq_of_lt hfirst.1, hl']
      exact chooseTurn_of_not_lt hfirst.1 hnot
    · obtain ⟨i, hi, hnot⟩ := exists_counter_not_ahead (weightAt backends)
        (fun i => st.weightCntr.getD i 0) hl hW (hinv.sum_weightCntr rfl)
      -- the turn loop from `n % len` reaches `i` within `len` steps
      have hreach : (n % backends.length + (i + backends.length - n % backends.length) %
          backends.length) % backends.length = i := by
        rw [Nat.add_mod_mod, show n % backends.length + (i + backends.length -
          n % backends.length) = i + backends.length by
            have := Nat.mod_lt n hl
            omega, Nat.add_mod_right, Nat.mod_eq_of_lt hi]
      rw [← hreach] at hnot
      obtain ⟨k, hk, hchoose, -⟩ := chooseTurn_spec (Nat.mod_lt n hl) (Nat.mod_lt _ hl) hnot
      exact ⟨k, hchoose, hk, fun hn hz => absurd ⟨hn, hz⟩ hfirst⟩

/-- The slot search of backend `k` at slot `n < m` finds a free slot on its row. -/
theorem LoopInv.probe {perm : List UInt64} {st : TableState} {n k : ℕ}
    (hinv : LoopInv backends m off skp weightsUsed W' st n) (hn : n < m)
    (hk : k < backends.length) (hcop : Nat.Coprime (skp k) m)
    (hperm : ∀ j < m,
      (perm[k * m + j]?).map UInt64.toNat = some (Stride.term m (off k) (skp k) j)) :
    ∃ j, probe perm m st.entry k m (st.next.getD k 0) = some j ∧ st.next.getD k 0 ≤ j ∧
      j < m ∧ st.entry[Stride.term m (off k) (skp k) j]? = some sentinel ∧
      ∀ j', st.next.getD k 0 ≤ j' → j' < j →
        st.entry[Stride.term m (off k) (skp k) j']? ≠ some sentinel := by
  have hm : 0 < m := by omega
  have hlen : ∀ j < m, Stride.term m (off k) (skp k) j < st.entry.length := fun j _ => by
    rw [hinv.length_entry]
    exact Stride.term_lt hm j
  obtain ⟨j0, hj0k, hj0m, hj0free⟩ := Stride.exists_free hm hcop (occupied st.entry)
    (Nat.lt_of_le_of_lt (hinv.card_visited_union k hk) hn)
  have hfree0 : st.entry[Stride.term m (off k) (skp k) j0]? = some sentinel := by
    by_contra hne
    exact hj0free (mem_occupied.mpr ⟨hlen j0 hj0m, hne⟩)
  obtain ⟨j, hkj, hjj0, hprobe, hjfree, hbefore⟩ :=
    probe_spec hperm hlen hj0k hj0m hfree0 (show j0 - st.next.getD k 0 < m by omega)
  exact ⟨j, hprobe, hkj, by omega, hjfree, hbefore⟩

/-- The write of slot `n`: backend `k` puts its ID into the free slot at position `j` of its
row, and the invariant holds after `n + 1` slots. -/
theorem LoopInv.update {st : TableState} {n k j : ℕ}
    (hinv : LoopInv backends m off skp weightsUsed W' st n)
    (hk : k < backends.length) (hjk : st.next.getD k 0 ≤ j) (hjm : j < m)
    (hfree : st.entry[Stride.term m (off k) (skp k) j]? = some sentinel)
    (hbefore : ∀ j', st.next.getD k 0 ≤ j' → j' < j →
      st.entry[Stride.term m (off k) (skp k) j']? ≠ some sentinel)
    (hturn : n < backends.length → st.next.getD n 0 = 0 → k = n) :
    LoopInv backends m off skp weightsUsed W'
      ⟨if weightsUsed then st.weightCntr.set k (st.weightCntr.getD k 0 + W')
        else st.weightCntr,
       st.next.set k (j + 1), st.entry.set (Stride.term m (off k) (skp k) j) backends[k].ID⟩
      (n + 1) := by
  have hm : 0 < m := by omega
  have hkn : k < st.next.length := by rw [hinv.length_next]; exact hk
  have hcm : Stride.term m (off k) (skp k) j < st.entry.length :=
    (List.getElem?_eq_some_iff.mp hfree).1
  have hnext_k : (st.next.set k (j + 1)).getD k 0 = j + 1 := getD_set_self_of_lt hkn _ _
  have hnext_ne : ∀ i, k ≠ i → (st.next.set k (j + 1)).getD i 0 = st.next.getD i 0 :=
    fun i hki => getD_set_of_ne _ hki _ _
  have hocc : occupied (st.entry.set (Stride.term m (off k) (skp k) j) backends[k].ID) ⊆
      insert (Stride.term m (off k) (skp k) j) (occupied st.entry) :=
    occupied_set_subset _
  have hocc_le : (occupied st.entry).card ≤ n :=
    le_trans (Finset.card_le_card Finset.subset_union_right) (hinv.card_visited_union k hk)
  -- the positions of row `k` passed in this search held taken slots, and the last is free
  have hvis : Stride.visited m (off k) (skp k) (j + 1) ⊆
      insert (Stride.term m (off k) (skp k) j)
        (Stride.visited m (off k) (skp k) (st.next.getD k 0) ∪ occupied st.entry) := by
    intro d hd
    obtain ⟨j', hj', rfl⟩ := Finset.mem_image.mp hd
    have hj' := Finset.mem_range.mp hj'
    rw [Finset.mem_insert, Finset.mem_union]
    by_cases hjj : j' = j
    · exact Or.inl (by rw [hjj])
    · by_cases hlow : j' < st.next.getD k 0
      · exact Or.inr (Or.inl (Stride.term_mem_visited hlow))
      · refine Or.inr (Or.inr (mem_occupied.mpr ⟨?_, hbefore j' (by omega) (by omega)⟩))
        rw [hinv.length_entry]
        exact Stride.term_lt hm j'
  have hocc' : occupied (st.entry.set (Stride.term m (off k) (skp k) j) backends[k].ID) ⊆
      insert (Stride.term m (off k) (skp k) j)
        (Stride.visited m (off k) (skp k) (st.next.getD k 0) ∪ occupied st.entry) :=
    hocc.trans (Finset.insert_subset_insert _ Finset.subset_union_right)
  refine ⟨?_, ?_, ?_, ?_, ?_, ?_, ?_, ?_, ?_, ?_, ?_⟩ <;> dsimp only
  · rw [List.length_set]
    exact hinv.length_entry
  · rw [List.length_set]
    exact hinv.length_next
  · split
    · rw [List.length_set]
      exact hinv.length_weightCntr
    · exact hinv.length_weightCntr
  · -- each row: the new slot is the only one added to its visited and taken slots
    intro i hi
    by_cases hki : k = i
    · subst hki
      rw [hnext_k]
      exact card_le_succ_of_subset_insert (Finset.union_subset hvis hocc')
        (hinv.card_visited_union k hk)
    · rw [hnext_ne i hki]
      refine card_le_succ_of_subset_insert (c := Stride.term m (off k) (skp k) j)
        (Finset.union_subset ?_ ?_) (hinv.card_visited_union i hi)
      · exact Finset.subset_union_left.trans (Finset.subset_insert _ _)
      · exact hocc.trans (Finset.insert_subset_insert _ Finset.subset_union_right)
  · intro id hid hne
    rcases List.mem_or_eq_of_mem_set hid with hmem | rfl
    · exact hinv.ids id hmem hne
    · exact ⟨backends[k], List.getElem_mem hk, rfl⟩
  · intro hall
    rw [occupied_set_of_ne hfree (hall _ (List.getElem_mem hk)),
      Finset.card_insert_of_notMem (notMem_occupied_of_free hfree), hinv.card_occupied hall]
  · intro i hi hpos hne
    by_cases hki : k = i
    · subst hki
      exact List.mem_set hcm _
    · rw [hnext_ne i hki] at hpos
      exact mem_set_of_mem hfree (hinv.mem_of_chosen i hi hpos hne) hne
  · -- a backend whose ID is the sentinel leaves the slots taken as they were
    intro i hi hpos hsent
    by_cases hks : backends[k].ID = sentinel
    · rw [hks, occupied_set_sentinel hfree]
      omega
    · have hki : k ≠ i := by
        rintro rfl
        exact hks hsent
      rw [hnext_ne i hki] at hpos
      have hlt := hinv.card_lt_of_chosen i hi hpos hsent
      have hle := card_le_succ_of_subset_insert hocc (le_refl _)
      omega
  · intro i hi hzero
    have hki : k ≠ i := by
      rintro rfl
      rw [hnext_k] at hzero
      omega
    rw [hnext_ne i hki] at hzero
    split
    · rw [getD_set_of_ne _ hki]
      exact hinv.fresh i hi hzero
    · exact hinv.fresh i hi hzero
  · intro hw
    rw [if_pos hw, sum_getD_set_add hk hinv.length_weightCntr, hinv.sum_weightCntr hw]
    push_cast
    ring
  · intro i hi hin
    by_cases hki : k = i
    · subst hki
      rw [hnext_k]
      exact Nat.succ_pos j
    · rw [hnext_ne i hki]
      rcases Nat.lt_succ_iff_lt_or_eq.mp hin with hlt | rfl
      · exact hinv.chosen_of_lt i hi hlt
      · exact Nat.pos_of_ne_zero fun hz => hki (hturn hi hz)

/-- One iteration of the slot loop, for rows that are coprime strides, keeps the invariant. -/
theorem LoopInv.step {perm : List UInt64} {weightSum : UInt64} {st : TableState} {n : ℕ}
    (hinv : LoopInv backends m off skp weightsUsed weightSum.toNat st n) (hn : n < m)
    (hl : 0 < backends.length) (hcop : ∀ i < backends.length, Nat.Coprime (skp i) m)
    (hperm : ∀ i < backends.length, ∀ j < m,
      (perm[i * m + j]?).map UInt64.toNat = some (Stride.term m (off i) (skp i) j))
    (hW : weightSum.toNat ≤ ∑ i ∈ Finset.range backends.length, weightAt backends i) :
    ∃ st', lookupStep backends perm m weightsUsed weightSum st n = some st' ∧
      LoopInv backends m off skp weightsUsed weightSum.toNat st' (n + 1) := by
  obtain ⟨k, hturn, hk, hfirst⟩ := hinv.turn hl hW
  obtain ⟨j, hprobe, hjk, hjm, hfree, hbefore⟩ := hinv.probe hn hk (hcop k hk) (hperm k hk)
  obtain ⟨c, hc, hcrow⟩ := Option.map_eq_some_iff.mp (hperm k hk j hjm)
  refine ⟨_, ?_, hinv.update hk hjk hjm hfree hbefore hfirst⟩
  unfold lookupStep
  dsimp only
  simp only [hturn, Option.bind_eq_bind, Option.bind_some, List.getElem?_eq_getElem hk, hprobe,
    hc, hcrow]
  rfl

/-- The slot loop runs through the first `n ≤ m` slots, keeping the invariant. -/
theorem loopInv_run {perm : List UInt64} {weightSum : UInt64} (hl : 0 < backends.length)
    (hcop : ∀ i < backends.length, Nat.Coprime (skp i) m)
    (hperm : ∀ i < backends.length, ∀ j < m,
      (perm[i * m + j]?).map UInt64.toNat = some (Stride.term m (off i) (skp i) j))
    (hW : weightSum.toNat ≤ ∑ i ∈ Finset.range backends.length, weightAt backends i) :
    ∀ n ≤ m, ∃ st, (List.range n).foldlM (lookupStep backends perm m weightsUsed weightSum)
        (initTableState backends m) = some st ∧
      LoopInv backends m off skp weightsUsed weightSum.toNat st n
  | 0, _ => ⟨_, rfl, loopInv_init _ _ _ _ _ _⟩
  | n + 1, hn => by
    obtain ⟨st, hst, hinv⟩ := loopInv_run hl hcop hperm hW n (by omega)
    obtain ⟨st', hstep, hinv'⟩ := hinv.step (by omega) hl hcop hperm hW
    refine ⟨st', ?_, hinv'⟩
    rw [List.range_succ, List.foldlM_append, hst]
    simp only [Option.bind_eq_bind, Option.bind_some, List.foldlM_cons, List.foldlM_nil, hstep]
    rfl

end Run

/-! ### The table -/

/-- A complete Maglev table for `backends`: `m` slots, each holding the ID of a backend; no
sentinel left when no backend has the sentinel as its ID; and every backend in some slot
when there are at most `m` backends. -/
structure TableComplete (backends : List BackendInfo) (m : ℕ) (table : List BackendID) :
    Prop where
  length_eq : table.length = m
  mem_ids : ∀ id ∈ table, ∃ b ∈ backends, b.ID = id
  sentinel_notMem : (∀ b ∈ backends, b.ID ≠ sentinel) → sentinel ∉ table
  mem_of_le : backends.length ≤ m → ∀ b ∈ backends, b.ID ∈ table

/-- After all `m` slots the invariant says the table is complete. -/
theorem LoopInv.tableComplete {backends : List BackendInfo} {m : ℕ} {off skp : ℕ → ℕ}
    {weightsUsed : Bool} {W' : ℕ} {st : TableState}
    (hinv : LoopInv backends m off skp weightsUsed W' st m) :
    TableComplete backends m st.entry := by
  have hfull : (∀ b ∈ backends, b.ID ≠ sentinel) → sentinel ∉ st.entry := fun hall =>
    sentinel_notMem_of_card (by rw [hinv.card_occupied hall, hinv.length_entry])
  refine ⟨hinv.length_entry, ?_, hfull, ?_⟩
  · intro id hid
    by_cases hs : id = sentinel
    · -- a sentinel left in the table is the ID of some backend
      subst hs
      by_contra hno
      push Not at hno
      exact hfull hno hid
    · exact hinv.ids id hid hs
  · intro hle b hb
    obtain ⟨i, hi, rfl⟩ := List.getElem_of_mem hb
    have hpos := hinv.chosen_of_lt i hi (by omega)
    by_cases hs : backends[i].ID = sentinel
    · rw [hs]
      exact sentinel_mem_of_card_lt (by
        rw [hinv.length_entry]
        exact hinv.card_lt_of_chosen i hi hpos hs)
    · exact hinv.mem_of_chosen i hi hpos hs

theorem foldl_weight_toNat_le : ∀ (bs : List BackendInfo) (a : UInt64),
    (bs.foldl (fun s info => s + info.Weight.toUInt64) a).toNat ≤
      a.toNat + ∑ i ∈ Finset.range bs.length, weightAt bs i
  | [], a => by simp
  | b :: bs, a => by
    have ih := foldl_weight_toNat_le bs (a + b.Weight.toUInt64)
    have hadd : (a + b.Weight.toUInt64).toNat ≤ a.toNat + b.Weight.toNat := by
      rw [UInt64.toNat_add, UInt16.toNat_toUInt64]
      exact Nat.mod_le _ _
    have hshift : ∀ i, weightAt (b :: bs) (i + 1) = weightAt bs i := fun _ => rfl
    rw [List.foldl_cons, List.length_cons, Finset.sum_range_succ']
    simp only [hshift]
    have h0 : weightAt (b :: bs) 0 = b.Weight.toNat := rfl
    omega

/-- The 64-bit sum of the weights is at most their sum. -/
theorem weightSumOf_toNat_le (backends : List BackendInfo) :
    (weightSumOf backends).toNat ≤ ∑ i ∈ Finset.range backends.length, weightAt backends i := by
  have := foldl_weight_toNat_le backends 0
  rwa [UInt64.toNat_zero, Nat.zero_add] at this

/-- Every supported table size is a prime that fits the 64-bit row arithmetic. -/
theorem prime_of_mem_supported {m : ℕ} (hm : m ∈ maglevSupportedTableSizes) :
    Nat.Prime m ∧ m < 2 ^ 63 := by
  simp only [maglevSupportedTableSizes, List.mem_cons, List.not_mem_nil, or_false] at hm
  rcases hm with rfl | rfl | rfl | rfl | rfl | rfl | rfl | rfl | rfl | rfl <;> norm_num

section Hash

variable (hash128 : List UInt8 → UInt32 → UInt64 × UInt64)

/-- The offset of the row of backend `i`. -/
def rowOffsetAt (cfg : Config) (backends : List BackendInfo) (i : ℕ) : ℕ :=
  (backends[i]?.map (rowOffset hash128 cfg)).getD 0

/-- The skip of the row of backend `i`. -/
def rowSkipAt (cfg : Config) (backends : List BackendInfo) (i : ℕ) : ℕ :=
  (backends[i]?.map (rowSkip hash128 cfg)).getD 0

/-- The table of a prime size below `2 ^ 63` is complete. -/
theorem computeLookupTable_of_prime (ml : Maglev) (numCPU : ℕ)
    (hp : Nat.Prime ml.cfg.TableSize) (hm : ml.cfg.TableSize < 2 ^ 63)
    (hne : ml.backendInfosBuffer ≠ []) :
    ∃ ml' table, computeLookupTable hash128 ml numCPU = some (ml', table) ∧
      TableComplete ml.backendInfosBuffer ml.cfg.TableSize table := by
  have hl : 0 < ml.backendInfosBuffer.length := List.length_pos_iff.mpr hne
  have hcop : ∀ i < ml.backendInfosBuffer.length,
      Nat.Coprime (rowSkipAt hash128 ml.cfg ml.backendInfosBuffer i) ml.cfg.TableSize := by
    intro i hi
    rw [rowSkipAt, List.getElem?_eq_getElem hi]
    exact rowSkip_coprime hash128 ml.cfg hp (by omega) _
  have hperm : ∀ i < ml.backendInfosBuffer.length, ∀ j < ml.cfg.TableSize,
      ((getPermutation hash128 ml.cfg ml.permutations ml.backendInfosBuffer numCPU).2[i *
        ml.cfg.TableSize + j]?).map UInt64.toNat =
      some (Stride.term ml.cfg.TableSize (rowOffsetAt hash128 ml.cfg ml.backendInfosBuffer i)
        (rowSkipAt hash128 ml.cfg ml.backendInfosBuffer i) j) := by
    intro i hi j hj
    rw [rowOffsetAt, rowSkipAt, List.getElem?_eq_getElem hi]
    exact getPermutation_getElem?_toNat hash128 ml.cfg hp.two_le hm _ numCPU
      (List.getElem?_eq_getElem hi) hj
  obtain ⟨st, hst, hinv⟩ : ∃ st, (List.range ml.cfg.TableSize).foldlM
        (lookupStep ml.backendInfosBuffer
          (getPermutation hash128 ml.cfg ml.permutations ml.backendInfosBuffer numCPU).2
          ml.cfg.TableSize (weightsUsedOf ml.backendInfosBuffer)
          (weightSumOf ml.backendInfosBuffer))
        (initTableState ml.backendInfosBuffer ml.cfg.TableSize) = some st ∧
      LoopInv ml.backendInfosBuffer ml.cfg.TableSize
        (rowOffsetAt hash128 ml.cfg ml.backendInfosBuffer)
        (rowSkipAt hash128 ml.cfg ml.backendInfosBuffer) (weightsUsedOf ml.backendInfosBuffer)
        (weightSumOf ml.backendInfosBuffer).toNat st ml.cfg.TableSize :=
    loopInv_run hl hcop hperm (weightSumOf_toNat_le _) ml.cfg.TableSize (le_refl _)
  refine ⟨{ ml with
      permutations :=
        (getPermutation hash128 ml.cfg ml.permutations ml.backendInfosBuffer numCPU).1 },
    st.entry, ?_, hinv.tableComplete⟩
  rw [computeLookupTable]
  simp only [Option.bind_eq_bind, hst, Option.bind_some]
  rfl

/-- For every supported table size and every non-empty list of backends, the table is
computed (no loop runs out and no search leaves its row) and it is complete. -/
theorem computeLookupTable_complete (ml : Maglev) (numCPU : ℕ)
    (hm : ml.cfg.TableSize ∈ maglevSupportedTableSizes) (hne : ml.backendInfosBuffer ≠ []) :
    ∃ ml' table, computeLookupTable hash128 ml numCPU = some (ml', table) ∧
      TableComplete ml.backendInfosBuffer ml.cfg.TableSize table :=
  computeLookupTable_of_prime hash128 ml numCPU (prime_of_mem_supported hm).1
    (prime_of_mem_supported hm).2 hne

theorem computeLookupTable_complete_three :
    251 ∈ maglevSupportedTableSizes ∧
      ∃ ml' table, computeLookupTable (fun _ _ => (0, 0))
          ⟨⟨251, 0⟩, [⟨1, 1, "[10.0.0.1]:80/TCP,State:active]"⟩,
            ⟨2, 2, "[10.0.0.2]:80/TCP,State:active]"⟩, ⟨3, 1, "[10.0.0.3]:80/TCP,State:active]"⟩],
            []⟩ 2 = some (ml', table) ∧
        TableComplete [⟨1, 1, "[10.0.0.1]:80/TCP,State:active]"⟩,
            ⟨2, 2, "[10.0.0.2]:80/TCP,State:active]"⟩, ⟨3, 1, "[10.0.0.3]:80/TCP,State:active]"⟩]
          251 table :=
  ⟨by decide, computeLookupTable_complete (fun _ _ => (0, 0)) _ 2 (by decide)
    (List.cons_ne_nil _ _)⟩

/-- A table size that is not prime can leave a row without a free slot: with `m = 4` and a
skip of `2` the row visits two slots only, and the third slot's search runs past the row. -/
example : computeLookupTable (fun _ _ => (0, 1)) ⟨⟨4, 0⟩, [⟨1, 1, "a"⟩], []⟩ 1 = none := by
  decide +kernel

end Hash

end Cilium.Maglev
