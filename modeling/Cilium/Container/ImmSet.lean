import Cilium.Lib.GoSlices

/-! `ImmSet` of `pkg/container/immset.go`: an immutable set kept as a slice sorted by its
comparison function, without repeats.  For a comparison that is a strict total order whose `.eq`
is equality, every set built by `NewImmSetFunc` and the operations stays strictly sorted
(`ImmSet.WF`), and each operation denotes its operation on sets (`ImmSet.Correct`).  Go's
`func(T, T) int` is read through its sign as an `Ordering`.  Here a slice is the list of what it
shows; `Container/ImmSetMemory` runs the same operations on slices into backing arrays and shows
that they hold these lists. -/

namespace Cilium.Container

open GoSlices

variable {α : Type*}

/-- `cmpToEqual`. -/
def cmpToEqual (cmp : α → α → Ordering) : α → α → Bool := fun a b => cmp a b == .eq

/-- `ImmSet[T]`. -/
structure ImmSet (α : Type*) where
  xs : List α
  cmp : α → α → Ordering
  eq : α → α → Bool

namespace ImmSet

/-- `NewImmSetFunc`: the items, sorted, with repeats dropped. -/
def NewImmSetFunc (compare : α → α → Ordering) (items : List α) : ImmSet α :=
  let s : ImmSet α := ⟨items, compare, cmpToEqual compare⟩
  let s := { s with xs := sortFunc s.cmp s.xs }
  { s with xs := compactFunc s.eq s.xs }

/-- `NewImmSet`, with `cmp.Compare`. -/
def NewImmSet [LinearOrder α] (items : List α) : ImmSet α := NewImmSetFunc compare items

def Len (s : ImmSet α) : ℕ := s.xs.length

def Has (s : ImmSet α) (x : α) : Bool := (binarySearchFunc s.xs x s.cmp).2

/-- The merge loop of `Union`: the rest of either slice is appended once the other is empty. -/
def unionLoop (cmp : α → α → Ordering) : List α → List α → List α
  | [], ys => ys
  | x :: xs, [] => x :: xs
  | x :: xs, y :: ys =>
    match cmp x y with
    | .lt => x :: unionLoop cmp xs (y :: ys)
    | .gt => y :: unionLoop cmp (x :: xs) ys
    | .eq => x :: unionLoop cmp xs ys
termination_by xs ys => xs.length + ys.length

/-- The merge loop of `Difference`. -/
def differenceLoop (cmp : α → α → Ordering) : List α → List α → List α
  | [], _ => []
  | x :: xs, [] => x :: xs
  | x :: xs, y :: ys =>
    match cmp x y with
    | .lt => x :: differenceLoop cmp xs (y :: ys)
    | .gt => differenceLoop cmp (x :: xs) ys
    | .eq => differenceLoop cmp xs ys
termination_by xs ys => xs.length + ys.length

def Union (s s2 : ImmSet α) : ImmSet α := ⟨unionLoop s.cmp s.xs s2.xs, s.cmp, s.eq⟩

def Difference (s s2 : ImmSet α) : ImmSet α := ⟨differenceLoop s.cmp s.xs s2.xs, s.cmp, s.eq⟩

/-- `Insert`: several items go through `Union`; one is put where the search on the receiver's
slice says, into a copy. -/
def Insert (s : ImmSet α) (xs : List α) : ImmSet α :=
  if xs.length > 1 then s.Union (NewImmSetFunc s.cmp xs)
  else
    let xs2 := xs.foldl (fun xs2 x =>
      let r := binarySearchFunc s.xs x s.cmp
      if !r.2 then xs2.insertIdx r.1 x else xs2) s.xs
    ⟨xs2, s.cmp, s.eq⟩

/-- `Delete`: several items go through `Difference`; one is searched for in the copy and
removed from it. -/
def Delete (s : ImmSet α) (xs : List α) : ImmSet α :=
  if xs.length > 1 then s.Difference (NewImmSetFunc s.cmp xs)
  else
    xs.foldl (fun s x =>
      let r := binarySearchFunc s.xs x s.cmp
      if r.2 then { s with xs := s.xs.eraseIdx r.1 } else s) s

def Equal (s s2 : ImmSet α) : Bool := equalFunc s.xs s2.xs s.eq

/-- The set an `ImmSet` stands for. -/
def toSet (s : ImmSet α) : Set α := {x | x ∈ s.xs}

/-- A set made with `cmp`: it keeps `cmp` and the equality derived from it, and its slice is
strictly sorted. -/
structure WF (cmp : α → α → Ordering) (s : ImmSet α) : Prop where
  cmp_eq : s.cmp = cmp
  eq_eq : s.eq = cmpToEqual cmp
  sorted : StrictlySorted cmp s.xs

/-- The sets built from `NewImmSetFunc cmp` by the operations. -/
inductive Built (cmp : α → α → Ordering) : ImmSet α → Prop
  | new (items : List α) : Built cmp (NewImmSetFunc cmp items)
  | insert {s : ImmSet α} (xs : List α) : Built cmp s → Built cmp (s.Insert xs)
  | delete {s : ImmSet α} (xs : List α) : Built cmp s → Built cmp (s.Delete xs)
  | union {s t : ImmSet α} : Built cmp s → Built cmp t → Built cmp (s.Union t)
  | difference {s t : ImmSet α} : Built cmp s → Built cmp t → Built cmp (s.Difference t)

/-- What a set promises: membership, size, equality and each operation are those of the set it
stands for. -/
structure Correct (cmp : α → α → Ordering) (s : ImmSet α) : Prop where
  wf : s.WF cmp
  has_iff : ∀ x, s.Has x = true ↔ x ∈ s.toSet
  len_eq : s.Len = s.toSet.ncard
  insert_eq : ∀ xs, (s.Insert xs).toSet = s.toSet ∪ {x | x ∈ xs}
  delete_eq : ∀ xs, (s.Delete xs).toSet = s.toSet \ {x | x ∈ xs}
  union_eq : ∀ t : ImmSet α, t.WF cmp → (s.Union t).toSet = s.toSet ∪ t.toSet
  difference_eq : ∀ t : ImmSet α, t.WF cmp → (s.Difference t).toSet = s.toSet \ t.toSet
  equal_iff : ∀ t : ImmSet α, t.WF cmp → (s.Equal t = true ↔ s.toSet = t.toSet)

/-- With one side empty, the merge of `Union` appends the other. -/
theorem unionLoop_of_nil (cmp : α → α → Ordering) {xs ys : List α} (h : xs = [] ∨ ys = []) :
    unionLoop cmp xs ys = xs ++ ys := by
  rcases h with rfl | rfl
  · rw [unionLoop, List.nil_append]
  · cases xs with
    | nil => rw [unionLoop, List.nil_append]
    | cons x xs => rw [unionLoop, List.append_nil]

/-- With one side empty, the merge of `Difference` keeps the first. -/
theorem differenceLoop_of_nil (cmp : α → α → Ordering) {xs ys : List α} (h : xs = [] ∨ ys = []) :
    differenceLoop cmp xs ys = xs := by
  rcases h with rfl | rfl
  · rw [differenceLoop]
  · cases xs with
    | nil => rw [differenceLoop]
    | cons x xs => rw [differenceLoop]

section Lemmas

variable {cmp : α → α → Ordering} [Std.TransCmp cmp] [Std.LawfulEqCmp cmp]

@[simp] theorem mem_toSet {s : ImmSet α} {x : α} : x ∈ s.toSet ↔ x ∈ s.xs := Iff.rfl

/-! ### The merge loops -/

omit [Std.TransCmp cmp] in
theorem mem_unionLoop {xs ys : List α} {a : α} :
    a ∈ unionLoop cmp xs ys ↔ a ∈ xs ∨ a ∈ ys := by
  fun_induction unionLoop cmp xs ys with
  | case1 ys => simp
  | case2 x xs => simp
  | case3 x xs y ys hlt ih => simp [ih, or_assoc]
  | case4 x xs y ys hgt ih => simp only [List.mem_cons, ih]; tauto
  | case5 x xs y ys heq ih =>
    have hxy : x = y := Std.LawfulEqCmp.compare_eq_iff_eq.mp heq
    subst hxy
    simp only [List.mem_cons, ih]
    tauto

/-- The loop keeps the order: the element it puts in front is below every element left in
either slice. -/
theorem unionLoop_sorted {xs ys : List α} (hxs : StrictlySorted cmp xs)
    (hys : StrictlySorted cmp ys) : StrictlySorted cmp (unionLoop cmp xs ys) := by
  fun_induction unionLoop cmp xs ys with
  | case1 ys => exact hys
  | case2 x xs => exact hxs
  | case3 x xs y ys hlt ih =>
    have hx := List.pairwise_cons.mp hxs
    have hy := List.pairwise_cons.mp hys
    refine List.pairwise_cons.mpr ⟨fun a ha => ?_, ih hx.2 hys⟩
    rcases mem_unionLoop.mp ha with ha | ha
    · exact hx.1 a ha
    · rcases List.mem_cons.mp ha with rfl | ha
      · exact hlt
      · exact Std.TransCmp.lt_trans hlt (hy.1 a ha)
  | case4 x xs y ys hgt ih =>
    have hx := List.pairwise_cons.mp hxs
    have hy := List.pairwise_cons.mp hys
    have hyx : cmp y x = .lt := Std.OrientedCmp.gt_iff_lt.mp hgt
    refine List.pairwise_cons.mpr ⟨fun a ha => ?_, ih hxs hy.2⟩
    rcases mem_unionLoop.mp ha with ha | ha
    · rcases List.mem_cons.mp ha with rfl | ha
      · exact hyx
      · exact Std.TransCmp.lt_trans hyx (hx.1 a ha)
    · exact hy.1 a ha
  | case5 x xs y ys heq ih =>
    have hx := List.pairwise_cons.mp hxs
    have hy := List.pairwise_cons.mp hys
    have hxy : x = y := Std.LawfulEqCmp.compare_eq_iff_eq.mp heq
    subst hxy
    refine List.pairwise_cons.mpr ⟨fun a ha => ?_, ih hx.2 hy.2⟩
    rcases mem_unionLoop.mp ha with ha | ha
    · exact hx.1 a ha
    · exact hy.1 a ha

omit [Std.TransCmp cmp] [Std.LawfulEqCmp cmp] in
theorem differenceLoop_sublist (xs ys : List α) : (differenceLoop cmp xs ys).Sublist xs := by
  fun_induction differenceLoop cmp xs ys with
  | case1 => exact List.Sublist.refl _
  | case2 x xs => exact List.Sublist.refl _
  | case3 x xs y ys hlt ih => exact ih.cons_cons x
  | case4 x xs y ys hgt ih => exact ih
  | case5 x xs y ys heq ih => exact ih.cons x

/-- An element survives the loop exactly when the second slice lacks it; the order of both
slices puts an element of the first that is below the head of the second outside the second. -/
theorem mem_differenceLoop {xs ys : List α} (hxs : StrictlySorted cmp xs)
    (hys : StrictlySorted cmp ys) {a : α} :
    a ∈ differenceLoop cmp xs ys ↔ a ∈ xs ∧ a ∉ ys := by
  fun_induction differenceLoop cmp xs ys with
  | case1 ys => simp
  | case2 x xs => simp
  | case3 x xs y ys hlt ih =>
    have hx := List.pairwise_cons.mp hxs
    have hy := List.pairwise_cons.mp hys
    -- `x` is below `y` and so below all of `y :: ys`
    have hxy : x ∉ y :: ys := by
      intro hmem
      rcases List.mem_cons.mp hmem with h | h
      · subst h
        simp [Std.ReflCmp.compare_self] at hlt
      · have := Std.TransCmp.lt_trans hlt (hy.1 x h)
        simp [Std.ReflCmp.compare_self] at this
    rw [List.mem_cons, ih hx.2 hys, List.mem_cons (b := x)]
    constructor
    · rintro (rfl | ⟨h1, h2⟩)
      · exact ⟨.inl rfl, hxy⟩
      · exact ⟨.inr h1, h2⟩
    · rintro ⟨rfl | h1, h2⟩
      · exact .inl rfl
      · exact .inr ⟨h1, h2⟩
  | case4 x xs y ys hgt ih =>
    have hx := List.pairwise_cons.mp hxs
    have hy := List.pairwise_cons.mp hys
    -- `y` is below `x` and so below all of `x :: xs`
    have hyx : y ∉ x :: xs := by
      have hyx : cmp y x = .lt := Std.OrientedCmp.gt_iff_lt.mp hgt
      intro hmem
      rcases List.mem_cons.mp hmem with h | h
      · subst h
        simp [Std.ReflCmp.compare_self] at hyx
      · have := Std.TransCmp.lt_trans hyx (hx.1 y h)
        simp [Std.ReflCmp.compare_self] at this
    rw [ih hxs hy.2]
    constructor
    · rintro ⟨h1, h2⟩
      refine ⟨h1, fun h => ?_⟩
      rcases List.mem_cons.mp h with rfl | h
      · exact hyx h1
      · exact h2 h
    · rintro ⟨h1, h2⟩
      exact ⟨h1, fun h => h2 (List.mem_cons_of_mem _ h)⟩
  | case5 x xs y ys heq ih =>
    have hx := List.pairwise_cons.mp hxs
    have hy := List.pairwise_cons.mp hys
    have hxy : x = y := Std.LawfulEqCmp.compare_eq_iff_eq.mp heq
    subst hxy
    have hxxs : x ∉ xs := fun h => by
      have := hx.1 x h
      simp [Std.ReflCmp.compare_self] at this
    rw [ih hx.2 hy.2]
    constructor
    · rintro ⟨h1, h2⟩
      refine ⟨List.mem_cons_of_mem _ h1, fun h => ?_⟩
      rcases List.mem_cons.mp h with rfl | h
      · exact hxxs h1
      · exact h2 h
    · rintro ⟨h1, h2⟩
      rcases List.mem_cons.mp h1 with rfl | h1
      · exact absurd List.mem_cons_self h2
      · exact ⟨h1, fun h => h2 (List.mem_cons_of_mem _ h)⟩

/-! ### One lemma per operation -/

theorem wf_newImmSetFunc (items : List α) : (NewImmSetFunc cmp items).WF cmp :=
  ⟨rfl, rfl, (compactFunc_spec (sortFunc_sorted items)).1⟩

theorem toSet_newImmSetFunc (items : List α) :
    (NewImmSetFunc cmp items).toSet = {x | x ∈ items} := by
  ext a
  have hmem : a ∈ compactFunc (fun a b => cmp a b == .eq) (sortFunc cmp items) ↔
      a ∈ sortFunc cmp items := (compactFunc_spec (sortFunc_sorted items)).2 a
  simp only [mem_toSet, NewImmSetFunc, Set.mem_ofPred_eq]
  exact hmem.trans (sortFunc_perm items).mem_iff

variable {s t : ImmSet α}

theorem WF.has_iff (hs : s.WF cmp) (x : α) : s.Has x = true ↔ x ∈ s.toSet := by
  rw [Has, hs.cmp_eq]
  exact binarySearchFunc_snd hs.sorted

omit [Std.TransCmp cmp] in
theorem WF.len_eq (hs : s.WF cmp) : s.Len = s.toSet.ncard := by
  classical
  rw [toSet, ← List.coe_toFinset, Set.ncard_coe_finset,
    List.toFinset_card_of_nodup hs.sorted.nodup, Len]

theorem WF.union (hs : s.WF cmp) (ht : t.WF cmp) : (s.Union t).WF cmp := by
  refine ⟨hs.cmp_eq, hs.eq_eq, ?_⟩
  rw [Union, hs.cmp_eq]
  exact unionLoop_sorted hs.sorted ht.sorted

omit [Std.TransCmp cmp] in
theorem WF.toSet_union (hs : s.WF cmp) : (s.Union t).toSet = s.toSet ∪ t.toSet := by
  ext a
  simp only [Union, mem_toSet, Set.mem_union, hs.cmp_eq]
  exact mem_unionLoop

omit [Std.TransCmp cmp] [Std.LawfulEqCmp cmp] in
theorem WF.difference (hs : s.WF cmp) : (s.Difference t).WF cmp := by
  refine ⟨hs.cmp_eq, hs.eq_eq, ?_⟩
  rw [Difference, hs.cmp_eq]
  exact hs.sorted.sublist (differenceLoop_sublist _ _)

theorem WF.toSet_difference (hs : s.WF cmp) (ht : t.WF cmp) :
    (s.Difference t).toSet = s.toSet \ t.toSet := by
  ext a
  simp only [Difference, mem_toSet, Set.mem_sdiff, hs.cmp_eq]
  exact mem_differenceLoop hs.sorted ht.sorted

/-- `Insert` of at most one item. -/
theorem WF.insert_single (hs : s.WF cmp) {xs : List α} (hlen : xs.length ≤ 1) :
    (s.Insert xs).WF cmp ∧ (s.Insert xs).toSet = s.toSet ∪ {x | x ∈ xs} := by
  have hnot : ¬ xs.length > 1 := by omega
  match xs, hlen with
  | [], _ => exact ⟨hs, by simp [Insert]⟩
  | [x], _ =>
    simp only [Insert, hnot, if_false, List.foldl_cons, List.foldl_nil]
    rw [hs.cmp_eq, binarySearchFunc_fst hs.sorted]
    by_cases hx : x ∈ s.xs
    · have hfound := (binarySearchFunc_snd (t := x) hs.sorted).mpr hx
      simp only [hfound, Bool.not_true, Bool.false_eq_true, if_false]
      refine ⟨⟨rfl, hs.eq_eq, hs.sorted⟩, ?_⟩
      ext a
      simp only [mem_toSet, Set.mem_union, Set.mem_ofPred_eq, List.mem_singleton]
      constructor
      · exact .inl
      · rintro (h | rfl)
        · exact h
        · exact hx
    · have hfound : (binarySearchFunc s.xs x cmp).2 = false := by
        cases h : (binarySearchFunc s.xs x cmp).2
        · rfl
        · exact absurd ((binarySearchFunc_snd hs.sorted).mp h) hx
      simp only [hfound, Bool.not_false, if_true]
      refine ⟨⟨rfl, hs.eq_eq, hs.sorted.insertIdx_findIdx hx⟩, ?_⟩
      ext a
      simp only [mem_toSet, Set.mem_union, Set.mem_ofPred_eq, List.mem_singleton,
        mem_insertIdx_findIdx]
      tauto

/-- `Delete` of at most one item. -/
theorem WF.delete_single (hs : s.WF cmp) {xs : List α} (hlen : xs.length ≤ 1) :
    (s.Delete xs).WF cmp ∧ (s.Delete xs).toSet = s.toSet \ {x | x ∈ xs} := by
  have hnot : ¬ xs.length > 1 := by omega
  match xs, hlen with
  | [], _ => exact ⟨hs, by simp [Delete]⟩
  | [x], _ =>
    simp only [Delete, hnot, if_false, List.foldl_cons, List.foldl_nil]
    rw [hs.cmp_eq, binarySearchFunc_fst hs.sorted]
    by_cases hx : x ∈ s.xs
    · have hfound := (binarySearchFunc_snd (t := x) hs.sorted).mpr hx
      simp only [hfound, if_true]
      refine ⟨⟨rfl, hs.eq_eq, hs.sorted.eraseIdx _⟩, ?_⟩
      ext a
      simp only [mem_toSet, Set.mem_sdiff, Set.mem_ofPred_eq, List.mem_singleton,
        hs.sorted.mem_eraseIdx_findIdx hx]
      tauto
    · have hfound : (binarySearchFunc s.xs x cmp).2 = false := by
        cases h : (binarySearchFunc s.xs x cmp).2
        · rfl
        · exact absurd ((binarySearchFunc_snd hs.sorted).mp h) hx
      simp only [hfound, Bool.false_eq_true, if_false]
      refine ⟨hs, ?_⟩
      ext a
      simp only [mem_toSet, Set.mem_sdiff, Set.mem_ofPred_eq, List.mem_singleton]
      constructor
      · intro h
        exact ⟨h, fun h' => hx (h' ▸ h)⟩
      · exact And.left

theorem WF.insert (hs : s.WF cmp) (xs : List α) :
    (s.Insert xs).WF cmp ∧ (s.Insert xs).toSet = s.toSet ∪ {x | x ∈ xs} := by
  by_cases hlen : xs.length > 1
  · have hn : (NewImmSetFunc cmp xs).WF cmp := wf_newImmSetFunc xs
    have hins : s.Insert xs = s.Union (NewImmSetFunc cmp xs) := by
      rw [Insert, if_pos hlen, hs.cmp_eq]
    rw [hins, hs.toSet_union, toSet_newImmSetFunc]
    exact ⟨hs.union hn, rfl⟩
  · exact hs.insert_single (by omega)

theorem WF.delete (hs : s.WF cmp) (xs : List α) :
    (s.Delete xs).WF cmp ∧ (s.Delete xs).toSet = s.toSet \ {x | x ∈ xs} := by
  by_cases hlen : xs.length > 1
  · have hn : (NewImmSetFunc cmp xs).WF cmp := wf_newImmSetFunc xs
    have hdel : s.Delete xs = s.Difference (NewImmSetFunc cmp xs) := by
      rw [Delete, if_pos hlen, hs.cmp_eq]
    rw [hdel, hs.toSet_difference hn, toSet_newImmSetFunc]
    exact ⟨hs.difference, rfl⟩
  · exact hs.delete_single (by omega)

theorem WF.equal_iff (hs : s.WF cmp) (ht : t.WF cmp) : s.Equal t = true ↔ s.toSet = t.toSet := by
  rw [Equal, hs.eq_eq]
  unfold cmpToEqual
  rw [equalFunc_iff]
  constructor
  · intro h
    rw [toSet, toSet, h]
  · intro h
    exact hs.sorted.eq_of_mem_iff ht.sorted fun a => by
      simpa using Set.ext_iff.mp h a

theorem WF.correct (hs : s.WF cmp) : s.Correct cmp where
  wf := hs
  has_iff := hs.has_iff
  len_eq := hs.len_eq
  insert_eq xs := (hs.insert xs).2
  delete_eq xs := (hs.delete xs).2
  union_eq _ _ := hs.toSet_union
  difference_eq _ ht := hs.toSet_difference ht
  equal_iff _ ht := hs.equal_iff ht

theorem Built.wf (h : Built cmp s) : s.WF cmp := by
  induction h with
  | new items => exact wf_newImmSetFunc items
  | insert xs _ ih => exact (ih.insert xs).1
  | delete xs _ ih => exact (ih.delete xs).1
  | union _ _ ihs iht => exact ihs.union iht
  | difference _ _ ihs _ => exact ihs.difference

end Lemmas

end ImmSet

end Cilium.Container
