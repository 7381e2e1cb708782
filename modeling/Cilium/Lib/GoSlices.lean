import Mathlib

/-! Go's `sort.Search` and the functions of the `slices` package that sorted slices are built
from, on lists: `BinarySearchFunc` runs the loop of `Search`, `SortFunc` sorts, `CompactFunc`
drops an element equal to the one before it, `EqualFunc` compares elementwise.  For a
comparison `cmp` that is a strict total order whose `.eq` is equality (`Std.TransCmp` and
`Std.LawfulEqCmp`), a list is a set exactly when it is `StrictlySorted`; the search then finds
the position of an element, and inserting or deleting there keeps the list strictly sorted. -/

namespace GoSlices

variable {α : Type*}

/-! ### `sort.Search` -/

/-- The loop of `sort.Search` on the window `[i, j)`; Go's `int(uint(i+j) >> 1)` is the
midpoint on Nat. -/
def searchLoop (f : ℕ → Bool) (i j : ℕ) : ℕ :=
  if i < j then
    let h := (i + j) / 2
    if !f h then searchLoop f (h + 1) j else searchLoop f i h
  else i
termination_by j - i

/-- `sort.Search`: the least index below `n` at which `f` holds, for `f` monotone there. -/
def search (n : ℕ) (f : ℕ → Bool) : ℕ := searchLoop f 0 n

section Search

variable {f : ℕ → Bool} {n : ℕ}

/-- The window keeps `f` false on its left and true on its right; with `f` monotone below `n`
a round moves one of its ends past the midpoint without breaking that. -/
theorem searchLoop_spec (hmono : ∀ a b, a ≤ b → b < n → f a = true → f b = true) {i j : ℕ}
    (hj : j ≤ n) (hij : i ≤ j) (hlo : ∀ k < i, f k = false)
    (hhi : ∀ k, j ≤ k → k < n → f k = true) :
    searchLoop f i j ≤ n ∧ (∀ k < searchLoop f i j, f k = false) ∧
      ∀ k, searchLoop f i j ≤ k → k < n → f k = true := by
  fun_induction searchLoop f i j with
  | case1 i j hlt h hfalse ih =>
    have hfh : f h = false := by simpa using hfalse
    apply ih hj (by omega)
    · intro k hk
      rcases Nat.lt_succ_iff_lt_or_eq.mp hk with hk | rfl
      · rcases Nat.lt_or_ge k i with hki | hik
        · exact hlo k hki
        · cases hfk : f k
          · rfl
          · rw [hmono k h (by omega) (by omega) hfk] at hfh
            cases hfh
      · exact hfh
    · exact hhi
  | case2 i j hlt h htrue ih =>
    apply ih (by omega) (by omega) hlo
    intro k hk hkn
    simp only [Bool.not_eq_true', Bool.not_eq_false] at htrue
    exact hmono h k hk hkn htrue
  | case3 i j hge =>
    obtain rfl : i = j := by omega
    exact ⟨hj, hlo, hhi⟩

theorem searchLoop_le {i j : ℕ} (hij : i ≤ j) : searchLoop f i j ≤ j := by
  fun_induction searchLoop f i j with
  | case1 i j hlt h _ ih => exact ih (by omega)
  | case2 i j hlt h _ ih => exact (ih (by omega)).trans (by omega)
  | case3 i j hge => exact hij

theorem search_spec (hmono : ∀ a b, a ≤ b → b < n → f a = true → f b = true) :
    search n f ≤ n ∧ (∀ k < search n f, f k = false) ∧
      ∀ k, search n f ≤ k → k < n → f k = true :=
  searchLoop_spec hmono le_rfl (Nat.zero_le n) (fun _ h => absurd h (Nat.not_lt_zero _))
    (fun _ h1 h2 => absurd h2 (by omega))

/-- Over a list along which `p` once true stays true, the search for `p` finds `findIdx`. -/
theorem search_eq_findIdx {l : List α} {p : α → Bool}
    (hmono : l.Pairwise fun a b => p a = true → p b = true)
    (hf : ∀ i (h : i < l.length), f i = p l[i]) : search l.length f = l.findIdx p := by
  have hmono' : ∀ a b, a ≤ b → b < l.length → f a = true → f b = true := by
    intro a b hab hb hfa
    rw [hf a (by omega)] at hfa
    rw [hf b hb]
    rcases Nat.lt_or_eq_of_le hab with hab | rfl
    · exact List.pairwise_iff_getElem.mp hmono a b (by omega) hb hab hfa
    · exact hfa
  obtain ⟨hle, hfalse, htrue⟩ := search_spec hmono'
  apply le_antisymm
  · by_contra hlt
    rw [not_le] at hlt
    have hidx : l.findIdx p < l.length := by omega
    have hp : p l[l.findIdx p] = true := List.findIdx_getElem
    have hf' := hfalse _ hlt
    rw [hf _ hidx, hp] at hf'
    cases hf'
  · by_contra hlt
    rw [not_le] at hlt
    have hs : search l.length f < l.length := lt_of_lt_of_le hlt List.findIdx_le_length
    have ht := htrue _ le_rfl hs
    rw [hf _ hs, List.not_of_lt_findIdx hlt] at ht
    cases ht

end Search

/-! ### Strictly sorted lists -/

/-- Strictly increasing under `cmp`. -/
def StrictlySorted (cmp : α → α → Ordering) (l : List α) : Prop :=
  l.Pairwise fun a b => cmp a b = .lt

section Sorted

variable {cmp : α → α → Ordering} [Std.TransCmp cmp] [Std.LawfulEqCmp cmp]

omit [Std.LawfulEqCmp cmp] in
theorem cmp_ne_lt_of_ne_lt {a b x : α} (hab : cmp a b = .lt) (ha : cmp a x ≠ .lt) :
    cmp b x ≠ .lt := fun hb => ha (Std.TransCmp.lt_trans hab hb)

omit [Std.TransCmp cmp] in
theorem StrictlySorted.nodup {l : List α} (h : StrictlySorted cmp l) : l.Nodup := by
  refine List.Pairwise.imp (fun {a b} hab => ?_) h
  rintro rfl
  simp [Std.ReflCmp.compare_self] at hab

/-- Two strictly sorted lists with the same elements are equal. -/
theorem StrictlySorted.eq_of_mem_iff {l₁ l₂ : List α} (h₁ : StrictlySorted cmp l₁)
    (h₂ : StrictlySorted cmp l₂) (hmem : ∀ a, a ∈ l₁ ↔ a ∈ l₂) : l₁ = l₂ := by
  have hperm := (List.perm_ext_iff_of_nodup h₁.nodup h₂.nodup).mpr hmem
  refine hperm.eq_of_pairwise (fun a b _ _ hab hba => ?_) h₁ h₂
  rw [Std.OrientedCmp.gt_iff_lt.symm] at hba
  rw [hab] at hba
  cases hba

end Sorted

/-! ### `slices.BinarySearchFunc` -/

/-- `slices.BinarySearchFunc`: the loop of `sort.Search` on "`x[h]` is not below `target`", and
whether the element found compares equal to `target`. -/
def binarySearchFunc {τ : Type*} (x : List α) (target : τ) (cmp : α → τ → Ordering) : ℕ × Bool :=
  let i := search x.length fun h => (x[h]?).all fun e => cmp e target != .lt
  (i, if hi : i < x.length then cmp x[i] target == .eq else false)

theorem binarySearchFunc_fst_le {τ : Type*} (x : List α) (target : τ) (cmp : α → τ → Ordering) :
    (binarySearchFunc x target cmp).1 ≤ x.length :=
  searchLoop_le (Nat.zero_le _)

/-- An element found is at an index of the slice. -/
theorem binarySearchFunc_fst_lt {τ : Type*} {x : List α} {target : τ} {cmp : α → τ → Ordering}
    (hfound : (binarySearchFunc x target cmp).2 = true) : (binarySearchFunc x target cmp).1 < x.length := by
  simp only [binarySearchFunc] at hfound ⊢
  split at hfound
  · assumption
  · cases hfound

section BinarySearch

variable {cmp : α → α → Ordering} [Std.TransCmp cmp] [Std.LawfulEqCmp cmp]
variable {x : List α} {t : α}

omit [Std.LawfulEqCmp cmp] in
/-- The index of `t` in `x`, or where it would go. -/
theorem binarySearchFunc_fst (hx : StrictlySorted cmp x) :
    (binarySearchFunc x t cmp).1 = x.findIdx fun e => cmp e t != .lt := by
  apply search_eq_findIdx
  · refine List.Pairwise.imp (fun {a b} hab ha => ?_) hx
    simpa using cmp_ne_lt_of_ne_lt hab (by simpa using ha)
  · intro i hi
    simp [List.getElem?_eq_getElem hi]

theorem binarySearchFunc_snd (hx : StrictlySorted cmp x) :
    (binarySearchFunc x t cmp).2 = true ↔ t ∈ x := by
  have hfst := binarySearchFunc_fst (t := t) hx
  simp only [binarySearchFunc] at hfst ⊢
  rw [hfst]
  constructor
  · intro h
    by_cases hi : x.findIdx (fun e => cmp e t != .lt) < x.length
    · rw [dif_pos hi] at h
      have heq : x[x.findIdx (fun e => cmp e t != .lt)] = t := by simpa using h
      exact heq ▸ List.getElem_mem hi
    · rw [dif_neg hi] at h
      cases h
  · intro hmem
    obtain ⟨k, hk, rfl⟩ := List.getElem_of_mem hmem
    -- the element `t` itself is not below `t`, so the search stops at or before it; an element
    -- before it is below it, so the search stops exactly there
    have hidx : x.findIdx (fun e => cmp e x[k] != .lt) = k := by
      rw [List.findIdx_eq hk]
      refine ⟨by simp [Std.ReflCmp.compare_self], fun j hj => ?_⟩
      simpa using List.pairwise_iff_getElem.mp hx j k (by omega) hk hj
    simp [hidx, hk, Std.ReflCmp.compare_self]

end BinarySearch

/-! ### Insertion and deletion at the index found -/

/-- Go's in-place insertion, `append(s[:j+1], s[j:]...)` and then `s[j] = x`. -/
theorem insertIdx_eq_take_drop (l : List α) (x : α) {j : ℕ} (h : j ≤ l.length) :
    l.insertIdx j x = l.take j ++ x :: l.drop j := by
  induction l generalizing j with
  | nil =>
    obtain rfl : j = 0 := by simpa using h
    rfl
  | cons y l ih =>
    cases j with
    | zero => rfl
    | succ j =>
      rw [List.insertIdx_succ_cons, ih (by simpa using h)]
      rfl

section InsertDelete

variable {cmp : α → α → Ordering} [Std.TransCmp cmp] [Std.LawfulEqCmp cmp]

/-- `slices.Insert` at the index the search finds for an absent element keeps the order. -/
theorem StrictlySorted.insertIdx_findIdx {l : List α} {t : α} (hl : StrictlySorted cmp l)
    (ht : t ∉ l) : StrictlySorted cmp (l.insertIdx (l.findIdx fun e => cmp e t != .lt) t) := by
  induction l with
  | nil => simp [StrictlySorted]
  | cons b l ih =>
    have hbl := List.pairwise_cons.mp hl
    have htb : t ≠ b := fun h => ht (h ▸ List.mem_cons_self)
    rw [List.findIdx_cons]
    by_cases hb : cmp b t = .lt
    · -- `b` stays in front and `t` goes into the tail
      simp only [hb, bne_self_eq_false, cond_false]
      rw [List.insertIdx_succ_cons]
      refine List.pairwise_cons.mpr ⟨fun a ha => ?_, ih hbl.2 (fun h => ht (List.mem_cons_of_mem b h))⟩
      rcases List.eq_or_mem_of_mem_insertIdx ha with rfl | ha
      · exact hb
      · exact hbl.1 a ha
    · -- `t` goes in front of `b`, which is above it
      have hbt : cmp t b = .lt := by
        rcases hcmp : cmp b t with _ | _ | _
        · exact absurd hcmp hb
        · exact absurd (Std.LawfulEqCmp.compare_eq_iff_eq.mp hcmp).symm htb
        · exact Std.OrientedCmp.gt_iff_lt.mp hcmp
      simp only [show (cmp b t != .lt) = true by simpa using hb, cond_true, List.insertIdx_zero]
      refine List.pairwise_cons.mpr ⟨fun a ha => ?_, hl⟩
      rcases List.mem_cons.mp ha with rfl | ha
      · exact hbt
      · exact Std.TransCmp.lt_trans hbt (hbl.1 a ha)

omit [Std.TransCmp cmp] [Std.LawfulEqCmp cmp] in
theorem mem_insertIdx_findIdx {l : List α} {t a : α} :
    a ∈ l.insertIdx (l.findIdx fun e => cmp e t != .lt) t ↔ a = t ∨ a ∈ l :=
  List.mem_insertIdx List.findIdx_le_length

omit [Std.TransCmp cmp] in
/-- `slices.Delete` at the index the search finds for a present element removes that element. -/
theorem StrictlySorted.mem_eraseIdx_findIdx {l : List α} {t a : α} (hl : StrictlySorted cmp l)
    (ht : t ∈ l) : a ∈ l.eraseIdx (l.findIdx fun e => cmp e t != .lt) ↔ a ≠ t ∧ a ∈ l := by
  obtain ⟨k, hk, rfl⟩ := List.getElem_of_mem ht
  have hidx : l.findIdx (fun e => cmp e l[k] != .lt) = k := by
    rw [List.findIdx_eq hk]
    refine ⟨by simp [Std.ReflCmp.compare_self], fun j hj => ?_⟩
    simpa using List.pairwise_iff_getElem.mp hl j k (by omega) hk hj
  rw [hidx, List.mem_eraseIdx_iff_getElem]
  constructor
  · rintro ⟨i, hi, hik, rfl⟩
    exact ⟨fun h => hik ((List.Nodup.getElem_inj_iff hl.nodup).mp h), List.getElem_mem hi⟩
  · rintro ⟨hne, hmem⟩
    obtain ⟨i, hi, rfl⟩ := List.getElem_of_mem hmem
    exact ⟨i, hi, fun h => hne (by simp [h]), rfl⟩

omit [Std.TransCmp cmp] [Std.LawfulEqCmp cmp] in
theorem StrictlySorted.eraseIdx {l : List α} (hl : StrictlySorted cmp l) (i : ℕ) :
    StrictlySorted cmp (l.eraseIdx i) :=
  hl.sublist (List.eraseIdx_sublist l i)

end InsertDelete

/-! ### `slices.SortFunc` and `slices.CompactFunc` -/

/-- `slices.SortFunc`.  Go sorts with pdqsort, which is not stable; for a strict total order
whose `.eq` is equality there is one sorted order, which merge sort gives as well. -/
def sortFunc (cmp : α → α → Ordering) (xs : List α) : List α :=
  xs.mergeSort fun a b => cmp a b != .gt

@[simp] theorem length_sortFunc (cmp : α → α → Ordering) (xs : List α) :
    (sortFunc cmp xs).length = xs.length :=
  List.length_mergeSort _

/-- The loop of `slices.CompactFunc` after the first element: an element is kept unless `eq`
holds between it and the element before it. -/
def compactLoop (eq : α → α → Bool) : α → List α → List α
  | _, [] => []
  | prev, x :: xs => if eq x prev then compactLoop eq x xs else x :: compactLoop eq x xs

/-- `slices.CompactFunc`. -/
def compactFunc (eq : α → α → Bool) : List α → List α
  | [] => []
  | x :: xs => x :: compactLoop eq x xs

section SortCompact

variable {cmp : α → α → Ordering} [Std.TransCmp cmp] [Std.LawfulEqCmp cmp]

omit [Std.TransCmp cmp] [Std.LawfulEqCmp cmp] in
theorem sortFunc_perm (xs : List α) : (sortFunc cmp xs).Perm xs := List.mergeSort_perm _ _

omit [Std.LawfulEqCmp cmp] in
theorem sortFunc_sorted (xs : List α) :
    (sortFunc cmp xs).Pairwise fun a b => cmp a b ≠ .gt := by
  have htrans : ∀ a b c : α, (cmp a b != .gt) = true → (cmp b c != .gt) = true →
      (cmp a c != .gt) = true := fun a b c hab hbc => by
    simpa using Std.TransCmp.le_trans (by simpa using hab) (by simpa using hbc)
  have htotal : ∀ a b : α, ((cmp a b != .gt) || (cmp b a != .gt)) = true := fun a b => by
    rcases hab : cmp a b with _ | _ | _
    · simp
    · simp
    · simp [Std.OrientedCmp.gt_iff_lt.mp hab]
  exact (List.pairwise_mergeSort htrans htotal xs).imp fun hab => by simpa using hab

omit [Std.TransCmp cmp] [Std.LawfulEqCmp cmp] in
theorem mem_compactLoop {eq : α → α → Bool} {prev a : α} {xs : List α} :
    a ∈ compactLoop eq prev xs → a ∈ xs := by
  induction xs generalizing prev with
  | nil => simp [compactLoop]
  | cons x xs ih =>
    simp only [compactLoop]
    split
    · exact fun h => List.mem_cons_of_mem x (ih h)
    · rintro (_ | ⟨_, h⟩)
      · exact List.mem_cons_self
      · exact List.mem_cons_of_mem x (ih h)

omit [Std.TransCmp cmp] [Std.LawfulEqCmp cmp] in
theorem compactLoop_sublist (eq : α → α → Bool) (prev : α) (xs : List α) :
    (compactLoop eq prev xs).Sublist xs := by
  induction xs generalizing prev with
  | nil => exact List.Sublist.slnil
  | cons x xs ih =>
    simp only [compactLoop]
    split
    · exact (ih x).cons x
    · exact (ih x).cons_cons x

omit [Std.TransCmp cmp] [Std.LawfulEqCmp cmp] in
theorem length_compactFunc_le (eq : α → α → Bool) (xs : List α) :
    (compactFunc eq xs).length ≤ xs.length := by
  cases xs with
  | nil => exact le_rfl
  | cons x xs => simpa [compactFunc] using (compactLoop_sublist eq x xs).length_le

omit [Std.TransCmp cmp] [Std.LawfulEqCmp cmp] in
/-- Fewer than two elements have no repeat to drop. -/
theorem compactFunc_of_length_lt (eq : α → α → Bool) {xs : List α} (hxs : xs.length < 2) :
    compactFunc eq xs = xs := by
  rcases xs with _ | ⟨x, _ | ⟨y, xs⟩⟩
  · rfl
  · rfl
  · simp at hxs

/-- On a list sorted with repeats, dropping each element equal to the one before it leaves the
elements after `prev` strictly above it and strictly sorted, and loses none. -/
theorem compactLoop_spec {prev : α} {xs : List α}
    (hs : (prev :: xs).Pairwise fun a b => cmp a b ≠ .gt) :
    (prev :: compactLoop (fun a b => cmp a b == .eq) prev xs).Pairwise (fun a b => cmp a b = .lt) ∧
      ∀ a ∈ xs, a = prev ∨ a ∈ compactLoop (fun a b => cmp a b == .eq) prev xs := by
  induction xs generalizing prev with
  | nil => simp [compactLoop]
  | cons x xs ih =>
    have hpx : cmp prev x ≠ .gt := List.rel_of_pairwise_cons hs List.mem_cons_self
    have htail : (x :: xs).Pairwise fun a b => cmp a b ≠ .gt := (List.pairwise_cons.mp hs).2
    obtain ⟨ihs, ihm⟩ := ih htail
    simp only [compactLoop]
    split
    · -- `x` repeats `prev` and is dropped
      rename_i heq
      have hxp : x = prev := by simpa using heq
      subst hxp
      refine ⟨ihs, fun a ha => ?_⟩
      rcases List.mem_cons.mp ha with rfl | ha
      · exact .inl rfl
      · exact ihm a ha
    · -- `x` is above `prev` and kept
      rename_i hne
      have hlt : cmp prev x = .lt := by
        rcases hcmp : cmp prev x with _ | _ | _
        · rfl
        · obtain rfl := Std.LawfulEqCmp.compare_eq_iff_eq.mp hcmp
          simp [Std.ReflCmp.compare_self] at hne
        · exact absurd hcmp hpx
      refine ⟨List.pairwise_cons.mpr ⟨fun a ha => ?_, ihs⟩, fun a ha => .inr ?_⟩
      · rcases List.mem_cons.mp ha with rfl | ha
        · exact hlt
        · exact Std.TransCmp.lt_trans hlt (List.rel_of_pairwise_cons ihs ha)
      · rcases List.mem_cons.mp ha with rfl | ha
        · exact List.mem_cons_self
        · rcases ihm a ha with rfl | h
          · exact List.mem_cons_self
          · exact List.mem_cons_of_mem _ h

theorem compactFunc_spec {xs : List α} (hs : xs.Pairwise fun a b => cmp a b ≠ .gt) :
    StrictlySorted cmp (compactFunc (fun a b => cmp a b == .eq) xs) ∧
      ∀ a, a ∈ compactFunc (fun a b => cmp a b == .eq) xs ↔ a ∈ xs := by
  cases xs with
  | nil => simp [compactFunc, StrictlySorted]
  | cons x xs =>
    obtain ⟨hsorted, hmem⟩ := compactLoop_spec hs
    refine ⟨hsorted, fun a => ⟨fun ha => ?_, fun ha => ?_⟩⟩
    · rcases List.mem_cons.mp ha with rfl | ha
      · exact List.mem_cons_self
      · exact List.mem_cons_of_mem x (mem_compactLoop ha)
    · rcases List.mem_cons.mp ha with rfl | ha
      · exact List.mem_cons_self
      · rcases hmem a ha with rfl | h
        · exact List.mem_cons_self
        · exact List.mem_cons_of_mem _ h

end SortCompact

/-! ### `slices.EqualFunc` -/

/-- `slices.EqualFunc`: equal lengths and `eq` at every index. -/
def equalFunc {β : Type*} (s1 : List α) (s2 : List β) (eq : α → β → Bool) : Bool :=
  s1.length == s2.length && (s1.zip s2).all fun p => eq p.1 p.2

theorem equalFunc_iff {cmp : α → α → Ordering} [Std.LawfulEqCmp cmp]
    (s1 s2 : List α) : equalFunc s1 s2 (fun a b => cmp a b == .eq) = true ↔ s1 = s2 := by
  induction s1 generalizing s2 with
  | nil => cases s2 <;> simp [equalFunc]
  | cons a s1 ih =>
    cases s2 with
    | nil => simp [equalFunc]
    | cons b s2 =>
      have := ih s2
      simp only [equalFunc, List.length_cons, List.zip_cons_cons, List.all_cons, Bool.and_eq_true,
        beq_iff_eq, Nat.add_right_cancel_iff, List.cons.injEq] at this ⊢
      rw [Std.LawfulEqCmp.compare_eq_iff_eq]
      tauto

end GoSlices
