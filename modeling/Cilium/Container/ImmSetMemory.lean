import Cilium.Container.ImmSet
import Cilium.Lib.SliceHeap

/-! `ImmSet` of `pkg/container/immset.go` as Go holds it: the set's slice is a header into the
backing arrays of a heap, and each operation runs on the heap as the source runs it, with
`slices.Clone`, `make`, `append`, `slices.Insert`, `slices.Delete`, `slices.SortFunc` and
`slices.CompactFunc` writing where Go writes.  What a set holds is what its slice shows
(`ImmSet.val`), and each operation shows the list model's operation on what its arguments show
(`val_insert` and the lemmas beside it).  Every write goes to an array the operation made itself,
so the heap an operation starts from is a prefix of the one it ends with: the receiver's slice,
and every other slice that existed, shows what it showed.  `built_correct` puts both together
with the list model's `ImmSet.Correct`. -/

namespace Cilium.Container.Go

open GoSlices

variable {α : Type*}

/-- `ImmSet[T]`, its slice a header into the heap. -/
structure ImmSet (α : Type*) where
  xs : Slice
  cmp : α → α → Ordering
  eq : α → α → Bool

namespace ImmSet

/-- What a set holds in `h`: the list its slice shows, with its two functions. -/
def val (s : ImmSet α) (h : Heap α) : Container.ImmSet α := ⟨s.xs.view h, s.cmp, s.eq⟩

variable [Inhabited α]

/-- `NewImmSetFunc(compare, items...)`, on the caller's slice `items`. -/
def NewImmSetFunc (h : Heap α) (compare : α → α → Ordering) (items : Slice) :
    Heap α × ImmSet α :=
  let c := h.clone items
  let s : ImmSet α := ⟨c.2, compare, cmpToEqual compare⟩
  let h := c.1.sortFunc s.xs s.cmp
  let d := h.compactFunc s.xs s.eq
  (d.1, { s with xs := d.2 })

def Len (s : ImmSet α) : ℕ := s.xs.len

def Has (h : Heap α) (s : ImmSet α) (x : α) : Bool := (binarySearchFunc (s.xs.view h) x s.cmp).2

/-- The merge loop of `Union`: `xs1` and `xs2` are the headers it moves on, `result` the one it
appends to. -/
def unionLoop (cmp : α → α → Ordering) (h : Heap α) (result xs1 xs2 : Slice) :
    Heap α × Slice :=
  if _hlen : 0 < xs1.len ∧ 0 < xs2.len then
    let x1 := (xs1.view h).headD default
    let x2 := (xs2.view h).headD default
    match cmp x1 x2 with
    | .lt =>
      let r := h.append result [x1]
      unionLoop cmp r.1 r.2 (xs1.slice 1 xs1.len) xs2
    | .gt =>
      let r := h.append result [x2]
      unionLoop cmp r.1 r.2 xs1 (xs2.slice 1 xs2.len)
    | .eq =>
      let r := h.append result [x1]
      unionLoop cmp r.1 r.2 (xs1.slice 1 xs1.len) (xs2.slice 1 xs2.len)
  else
    let r := h.append result (xs1.view h)
    r.1.append r.2 (xs2.view r.1)
termination_by xs1.len + xs2.len
decreasing_by all_goals simp only [Slice.slice]; omega

/-- The merge loop of `Difference`. -/
def differenceLoop (cmp : α → α → Ordering) (h : Heap α) (result xs1 xs2 : Slice) :
    Heap α × Slice :=
  if _hlen : 0 < xs1.len ∧ 0 < xs2.len then
    let x1 := (xs1.view h).headD default
    let x2 := (xs2.view h).headD default
    match cmp x1 x2 with
    | .lt =>
      let r := h.append result [x1]
      differenceLoop cmp r.1 r.2 (xs1.slice 1 xs1.len) xs2
    | .gt => differenceLoop cmp h result xs1 (xs2.slice 1 xs2.len)
    | .eq => differenceLoop cmp h result (xs1.slice 1 xs1.len) (xs2.slice 1 xs2.len)
  else h.append result (xs1.view h)
termination_by xs1.len + xs2.len
decreasing_by all_goals simp only [Slice.slice]; omega

def Union (h : Heap α) (s s2 : ImmSet α) : Heap α × ImmSet α :=
  let m := h.make 0 (s.xs.len + s2.xs.len)
  let r := unionLoop s.cmp m.1 m.2 s.xs s2.xs
  (r.1, ⟨r.2, s.cmp, s.eq⟩)

def Difference (h : Heap α) (s s2 : ImmSet α) : Heap α × ImmSet α :=
  let m := h.make 0 s.xs.len
  let r := differenceLoop s.cmp m.1 m.2 s.xs s2.xs
  (r.1, ⟨r.2, s.cmp, s.eq⟩)

/-- One round of `Insert`'s loop: the search is on the receiver's slice, the insertion into the
copy `xs2`. -/
def insertStep (s : ImmSet α) (r : Heap α × Slice) (x : α) : Heap α × Slice :=
  let found := binarySearchFunc (s.xs.view r.1) x s.cmp
  if !found.2 then r.1.insert r.2 found.1 [x] else r

/-- `Insert(xs...)`: several items go through `Union`; otherwise the receiver's slice is appended
to a new one, and the items are put into it.  `range` reads the items of the caller's slice,
which no write of the loop reaches. -/
def Insert (h : Heap α) (s : ImmSet α) (xs : Slice) : Heap α × ImmSet α :=
  if xs.len > 1 then
    let t := NewImmSetFunc h s.cmp xs
    Union t.1 s t.2
  else
    let m := h.make 0 (s.xs.len + xs.len)
    let a := m.1.append m.2 (s.xs.view m.1)
    let r := (xs.view a.1).foldl (insertStep s) a
    (r.1, ⟨r.2, s.cmp, s.eq⟩)

/-- One round of `Delete`'s loop, on the copy `s.xs`. -/
def deleteStep (r : Heap α × ImmSet α) (x : α) : Heap α × ImmSet α :=
  let found := binarySearchFunc (r.2.xs.view r.1) x r.2.cmp
  if found.2 then
    let d := r.1.delete r.2.xs found.1 (found.1 + 1)
    (d.1, { r.2 with xs := d.2 })
  else r

/-- `Delete(xs...)`: several items go through `Difference`; otherwise the receiver's slice is
cloned, and each item found is deleted from the clone. -/
def Delete (h : Heap α) (s : ImmSet α) (xs : Slice) : Heap α × ImmSet α :=
  if xs.len > 1 then
    let t := NewImmSetFunc h s.cmp xs
    Difference t.1 s t.2
  else
    let c := h.clone s.xs
    (xs.view c.1).foldl deleteStep (c.1, { s with xs := c.2 })

def Equal (h : Heap α) (s s2 : ImmSet α) : Bool := equalFunc (s.xs.view h) (s2.xs.view h) s.eq

/-! ### The merge loops

The loops read `xs1` and `xs2`, slices of the heap `h0` the operation started from, and append
to `result`, a slice made after it; the heap they run in keeps `h0`, so the slices they read
show what they showed in `h0`. -/

section Loops

variable {h0 : Heap α}

/-- `xs[0]` and `xs[1:]` of a slice of `h0`, read in a heap that keeps `h0`. -/
theorem view_eq_head_cons {h : Heap α} {xs : Slice} (hp : h0 <+: h) (hv : xs.Valid h0)
    (hpos : 0 < xs.len) : xs.view h0 = (xs.view h).headD default :: (xs.slice 1 xs.len).view h0 := by
  rw [Slice.view_of_isPrefix hp hv.arr_lt]
  exact Slice.view_eq_cons hv hpos

/-- Both heads and tails, as a round of `unionLoop` or `differenceLoop` reads them. -/
theorem views_eq_head_cons {h : Heap α} {xs1 xs2 : Slice} (hp : h0 <+: h) (h1 : xs1.Valid h0)
    (h2 : xs2.Valid h0) (hlen : 0 < xs1.len ∧ 0 < xs2.len) :
    xs1.view h0 = (xs1.view h).headD default :: (xs1.slice 1 xs1.len).view h0 ∧
      xs2.view h0 = (xs2.view h).headD default :: (xs2.slice 1 xs2.len).view h0 :=
  ⟨view_eq_head_cons hp h1 hlen.1, view_eq_head_cons hp h2 hlen.2⟩

omit [Inhabited α] in
theorem view_eq_nil_or {xs1 xs2 : Slice} (h1 : xs1.Valid h0) (h2 : xs2.Valid h0)
    (hlen : ¬(0 < xs1.len ∧ 0 < xs2.len)) : xs1.view h0 = [] ∨ xs2.view h0 = [] := by
  rw [← List.length_eq_zero_iff, ← List.length_eq_zero_iff, Slice.length_view h1,
    Slice.length_view h2]
  omega

theorem unionLoop_spec (cmp : α → α → Ordering) (h : Heap α) (result xs1 xs2 : Slice) :
    Fresh h0 h result → xs1.Valid h0 → xs2.Valid h0 →
      Fresh h0 (unionLoop cmp h result xs1 xs2).1 (unionLoop cmp h result xs1 xs2).2 ∧
        (unionLoop cmp h result xs1 xs2).2.view (unionLoop cmp h result xs1 xs2).1 =
          result.view h ++ Container.ImmSet.unionLoop cmp (xs1.view h0) (xs2.view h0) := by
  fun_induction unionLoop cmp h result xs1 xs2 with
  | case1 h result xs1 xs2 hlen x1 x2 hc r ih =>
    intro hf h1 h2
    obtain ⟨hx1, hx2⟩ : xs1.view h0 = x1 :: _ ∧ xs2.view h0 = x2 :: _ :=
      views_eq_head_cons hf.keeps h1 h2 hlen
    obtain ⟨hf', hv'⟩ := ih (hf.append [x1]) (h1.slice hlen.1 h1.len_le) h2
    refine ⟨hf', ?_⟩
    rw [hv', Heap.view_append hf.valid, hx1, hx2, Container.ImmSet.unionLoop, hc]
    simp
  | case2 h result xs1 xs2 hlen x1 x2 hc r ih =>
    intro hf h1 h2
    obtain ⟨hx1, hx2⟩ : xs1.view h0 = x1 :: _ ∧ xs2.view h0 = x2 :: _ :=
      views_eq_head_cons hf.keeps h1 h2 hlen
    obtain ⟨hf', hv'⟩ := ih (hf.append [x2]) h1 (h2.slice hlen.2 h2.len_le)
    refine ⟨hf', ?_⟩
    rw [hv', Heap.view_append hf.valid, hx1, hx2, Container.ImmSet.unionLoop, hc]
    simp
  | case3 h result xs1 xs2 hlen x1 x2 hc r ih =>
    intro hf h1 h2
    obtain ⟨hx1, hx2⟩ : xs1.view h0 = x1 :: _ ∧ xs2.view h0 = x2 :: _ :=
      views_eq_head_cons hf.keeps h1 h2 hlen
    obtain ⟨hf', hv'⟩ :=
      ih (hf.append [x1]) (h1.slice hlen.1 h1.len_le) (h2.slice hlen.2 h2.len_le)
    refine ⟨hf', ?_⟩
    rw [hv', Heap.view_append hf.valid, hx1, hx2, Container.ImmSet.unionLoop, hc]
    simp
  | case4 h result xs1 xs2 hlen r =>
    intro hf h1 h2
    -- the rests of both slices are appended, one of them empty
    have hr := hf.append (xs1.view h)
    have hv1 := Slice.view_of_isPrefix hf.keeps h1.arr_lt
    have hv2 := Slice.view_of_isPrefix hr.keeps h2.arr_lt
    refine ⟨hr.append _, ?_⟩
    rw [Heap.view_append hr.valid, Heap.view_append hf.valid, hv1, hv2,
      Container.ImmSet.unionLoop_of_nil cmp (view_eq_nil_or h1 h2 hlen), List.append_assoc]

theorem differenceLoop_spec (cmp : α → α → Ordering) (h : Heap α) (result xs1 xs2 : Slice) :
    Fresh h0 h result → xs1.Valid h0 → xs2.Valid h0 →
      Fresh h0 (differenceLoop cmp h result xs1 xs2).1 (differenceLoop cmp h result xs1 xs2).2 ∧
        (differenceLoop cmp h result xs1 xs2).2.view (differenceLoop cmp h result xs1 xs2).1 =
          result.view h ++ Container.ImmSet.differenceLoop cmp (xs1.view h0) (xs2.view h0) := by
  fun_induction differenceLoop cmp h result xs1 xs2 with
  | case1 h result xs1 xs2 hlen x1 x2 hc r ih =>
    intro hf h1 h2
    obtain ⟨hx1, hx2⟩ : xs1.view h0 = x1 :: _ ∧ xs2.view h0 = x2 :: _ :=
      views_eq_head_cons hf.keeps h1 h2 hlen
    obtain ⟨hf', hv'⟩ := ih (hf.append [x1]) (h1.slice hlen.1 h1.len_le) h2
    refine ⟨hf', ?_⟩
    rw [hv', Heap.view_append hf.valid, hx1, hx2, Container.ImmSet.differenceLoop, hc]
    simp
  | case2 h result xs1 xs2 hlen x1 x2 hc ih =>
    intro hf h1 h2
    obtain ⟨hx1, hx2⟩ : xs1.view h0 = x1 :: _ ∧ xs2.view h0 = x2 :: _ :=
      views_eq_head_cons hf.keeps h1 h2 hlen
    obtain ⟨hf', hv'⟩ := ih hf h1 (h2.slice hlen.2 h2.len_le)
    refine ⟨hf', ?_⟩
    rw [hv', hx1, hx2, Container.ImmSet.differenceLoop, hc]
  | case3 h result xs1 xs2 hlen x1 x2 hc ih =>
    intro hf h1 h2
    obtain ⟨hx1, hx2⟩ : xs1.view h0 = x1 :: _ ∧ xs2.view h0 = x2 :: _ :=
      views_eq_head_cons hf.keeps h1 h2 hlen
    obtain ⟨hf', hv'⟩ := ih hf (h1.slice hlen.1 h1.len_le) (h2.slice hlen.2 h2.len_le)
    refine ⟨hf', ?_⟩
    rw [hv', hx1, hx2, Container.ImmSet.differenceLoop, hc]
  | case4 h result xs1 xs2 hlen =>
    intro hf h1 h2
    refine ⟨hf.append _, ?_⟩
    rw [Heap.view_append hf.valid, Slice.view_of_isPrefix hf.keeps h1.arr_lt,
      Container.ImmSet.differenceLoop_of_nil cmp (view_eq_nil_or h1 h2 hlen)]

end Loops

/-! ### Each operation

Each spec lemma says what the operation leaves fresh, made after any heap `h0` that the heap it
starts from keeps, and what the result shows: the list model's operation on what the arguments
show. -/

section Ops

variable {h0 h : Heap α} {s t : ImmSet α}

theorem newImmSetFunc_spec (hp : h0 <+: h) (compare : α → α → Ordering) (items : Slice) :
    Fresh h0 (NewImmSetFunc h compare items).1 (NewImmSetFunc h compare items).2.xs ∧
      (NewImmSetFunc h compare items).2.val (NewImmSetFunc h compare items).1 =
        Container.ImmSet.NewImmSetFunc compare (items.view h) := by
  have hc := Fresh.clone hp items
  have hs := hc.sortFunc compare
  refine ⟨hs.compactFunc (cmpToEqual compare), ?_⟩
  dsimp only [NewImmSetFunc, val]
  rw [Heap.view_compactFunc hs.valid, Heap.view_sortFunc hc.valid, Heap.view_clone]
  rfl

theorem union_spec (hp : h0 <+: h) (hs : s.xs.Valid h) (ht : t.xs.Valid h) :
    Fresh h0 (Union h s t).1 (Union h s t).2.xs ∧
      (Union h s t).2.val (Union h s t).1 = (s.val h).Union (t.val h) := by
  have hm := Fresh.make (List.prefix_refl h) (Nat.zero_le (s.xs.len + t.xs.len))
  obtain ⟨hf, hv⟩ := unionLoop_spec s.cmp _ _ s.xs t.xs hm hs ht
  refine ⟨hf.of_isPrefix hp, ?_⟩
  dsimp only [Union, val]
  rw [hv, Heap.view_make (Nat.zero_le _), List.replicate_zero, List.nil_append]
  rfl

theorem difference_spec (hp : h0 <+: h) (hs : s.xs.Valid h) (ht : t.xs.Valid h) :
    Fresh h0 (Difference h s t).1 (Difference h s t).2.xs ∧
      (Difference h s t).2.val (Difference h s t).1 = (s.val h).Difference (t.val h) := by
  have hm := Fresh.make (List.prefix_refl h) (Nat.zero_le s.xs.len)
  obtain ⟨hf, hv⟩ := differenceLoop_spec s.cmp _ _ s.xs t.xs hm hs ht
  refine ⟨hf.of_isPrefix hp, ?_⟩
  dsimp only [Difference, val]
  rw [hv, Heap.view_make (Nat.zero_le _), List.replicate_zero, List.nil_append]
  rfl

/-- One round of `Insert`'s loop inserts as the list model does, into a copy at least as long as
the receiver's slice, which the search's index then fits. -/
theorem insertStep_spec (hs : s.xs.Valid h0) {r : Heap α × Slice} (hf : Fresh h0 r.1 r.2)
    (hlen : (s.xs.view h0).length ≤ (r.2.view r.1).length) (x : α) :
    Fresh h0 (insertStep s r x).1 (insertStep s r x).2 ∧
      (insertStep s r x).2.view (insertStep s r x).1 =
        (let found := binarySearchFunc (s.xs.view h0) x s.cmp
         if !found.2 then (r.2.view r.1).insertIdx found.1 x else r.2.view r.1) := by
  have hsv : s.xs.view r.1 = s.xs.view h0 := Slice.view_of_isPrefix hf.keeps hs.arr_lt
  have hi : (binarySearchFunc (s.xs.view h0) x s.cmp).1 ≤ r.2.len := by
    have := binarySearchFunc_fst_le (s.xs.view h0) x s.cmp
    rw [← Slice.length_view hf.valid]
    omega
  unfold insertStep
  dsimp only
  rw [hsv]
  split_ifs with hfound
  · refine ⟨hf.insert hi [x], ?_⟩
    rw [Heap.view_insert hf.valid hi, insertIdx_eq_take_drop _ _
      (by rw [Slice.length_view hf.valid]; exact hi), List.append_assoc, List.singleton_append]
  · exact ⟨hf, rfl⟩

/-- Insert's loop, round by round: the copy stays fresh, as long as the receiver's slice, and
shows the list model's loop. -/
theorem insertLoop_spec (hs : s.xs.Valid h0) (items : List α) :
    ∀ r : Heap α × Slice, Fresh h0 r.1 r.2 → (s.xs.view h0).length ≤ (r.2.view r.1).length →
      Fresh h0 (items.foldl (insertStep s) r).1 (items.foldl (insertStep s) r).2 ∧
        (items.foldl (insertStep s) r).2.view (items.foldl (insertStep s) r).1 =
          items.foldl (fun xs2 x =>
            let found := binarySearchFunc (s.xs.view h0) x s.cmp
            if !found.2 then xs2.insertIdx found.1 x else xs2) (r.2.view r.1) := by
  induction items with
  | nil => exact fun r hf _ => ⟨hf, rfl⟩
  | cons x items ih =>
    intro r hf hlen
    obtain ⟨hf', hv'⟩ := insertStep_spec hs hf hlen x
    have hlen' : (s.xs.view h0).length ≤ ((insertStep s r x).2.view (insertStep s r x).1).length := by
      rw [hv']
      dsimp only
      split_ifs
      · rw [List.length_insertIdx]
        split_ifs <;> omega
      · exact hlen
    rw [List.foldl_cons, List.foldl_cons, ← hv']
    exact ih _ hf' hlen'

/-- One round of `Delete`'s loop deletes as the list model does. -/
theorem deleteStep_spec {r : Heap α × ImmSet α} (hf : Fresh h0 r.1 r.2.xs) (x : α) :
    Fresh h0 (deleteStep r x).1 (deleteStep r x).2.xs ∧
      (deleteStep r x).2.val (deleteStep r x).1 =
        (let found := binarySearchFunc (r.2.val r.1).xs x (r.2.val r.1).cmp
         if found.2 then { r.2.val r.1 with xs := (r.2.val r.1).xs.eraseIdx found.1 }
         else r.2.val r.1) := by
  unfold deleteStep
  dsimp only [val]
  split_ifs with hfound
  · have hi := binarySearchFunc_fst_lt hfound
    rw [Slice.length_view hf.valid] at hi
    refine ⟨hf.delete (Nat.le_succ _) hi, ?_⟩
    show (⟨_, r.2.cmp, r.2.eq⟩ : Container.ImmSet α) = _
    rw [Heap.view_delete hf.valid (Nat.le_succ _) hi, List.eraseIdx_eq_take_drop_succ]
  · exact ⟨hf, rfl⟩

theorem deleteLoop_spec (items : List α) :
    ∀ r : Heap α × ImmSet α, Fresh h0 r.1 r.2.xs →
      Fresh h0 (items.foldl deleteStep r).1 (items.foldl deleteStep r).2.xs ∧
        (items.foldl deleteStep r).2.val (items.foldl deleteStep r).1 =
          items.foldl (fun s x =>
            let found := binarySearchFunc s.xs x s.cmp
            if found.2 then { s with xs := s.xs.eraseIdx found.1 } else s) (r.2.val r.1) := by
  induction items with
  | nil => exact fun r hf => ⟨hf, rfl⟩
  | cons x items ih =>
    intro r hf
    obtain ⟨hf', hv'⟩ := deleteStep_spec hf x
    rw [List.foldl_cons, List.foldl_cons, ← hv']
    exact ih _ hf'

theorem insert_spec (hp : h0 <+: h) (hs : s.xs.Valid h) {xs : Slice} (hx : xs.Valid h) :
    Fresh h0 (Insert h s xs).1 (Insert h s xs).2.xs ∧
      (Insert h s xs).2.val (Insert h s xs).1 = (s.val h).Insert (xs.view h) := by
  have hxlen := Slice.length_view hx
  unfold Insert
  split_ifs with hlen
  · -- several items: a set of them, then `Union`
    obtain ⟨hn, hnv⟩ := newImmSetFunc_spec (List.prefix_refl h) s.cmp xs
    obtain ⟨hu, huv⟩ := union_spec hn.keeps (hs.of_isPrefix hn.keeps) hn.valid
    refine ⟨hu.of_isPrefix hp, ?_⟩
    rw [huv, hnv, val, Slice.view_of_isPrefix hn.keeps hs.arr_lt, Container.ImmSet.Insert,
      if_pos (by rw [hxlen]; exact hlen)]
    rfl
  · -- the receiver's slice appended to a new one, then each item inserted into it
    set m := h.make 0 (s.xs.len + xs.len) with hm_def
    set a := m.1.append m.2 (s.xs.view m.1) with ha_def
    have hm : Fresh h m.1 m.2 := Fresh.make (List.prefix_refl h) (Nat.zero_le _)
    have ha : Fresh h a.1 a.2 := hm.append _
    have hav : a.2.view a.1 = s.xs.view h := by
      rw [ha_def, Heap.view_append hm.valid, hm_def, Heap.view_make (Nat.zero_le _),
        List.replicate_zero, List.nil_append, Slice.view_of_isPrefix hm.keeps hs.arr_lt]
    obtain ⟨hr, hrv⟩ := insertLoop_spec hs (xs.view a.1) a ha (by rw [hav])
    refine ⟨hr.of_isPrefix hp, ?_⟩
    dsimp only [val]
    rw [hrv, hav, Slice.view_of_isPrefix ha.keeps hx.arr_lt, Container.ImmSet.Insert,
      if_neg (by rw [hxlen]; exact hlen)]

theorem delete_spec (hp : h0 <+: h) (hs : s.xs.Valid h) {xs : Slice} (hx : xs.Valid h) :
    Fresh h0 (Delete h s xs).1 (Delete h s xs).2.xs ∧
      (Delete h s xs).2.val (Delete h s xs).1 = (s.val h).Delete (xs.view h) := by
  have hxlen := Slice.length_view hx
  unfold Delete
  split_ifs with hlen
  · -- several items: a set of them, then `Difference`
    obtain ⟨hn, hnv⟩ := newImmSetFunc_spec (List.prefix_refl h) s.cmp xs
    obtain ⟨hd, hdv⟩ := difference_spec hn.keeps (hs.of_isPrefix hn.keeps) hn.valid
    refine ⟨hd.of_isPrefix hp, ?_⟩
    rw [hdv, hnv, val, Slice.view_of_isPrefix hn.keeps hs.arr_lt, Container.ImmSet.Delete,
      if_pos (by rw [hxlen]; exact hlen)]
    rfl
  · -- a clone of the receiver's slice, then each item found deleted from it
    have hc := Fresh.clone (List.prefix_refl h) s.xs
    obtain ⟨hr, hrv⟩ := deleteLoop_spec (xs.view (h.clone s.xs).1)
      ((h.clone s.xs).1, { s with xs := (h.clone s.xs).2 }) hc
    refine ⟨hr.of_isPrefix hp, ?_⟩
    rw [hrv, Slice.view_of_isPrefix hc.keeps hx.arr_lt, Container.ImmSet.Delete,
      if_neg (by rw [hxlen]; exact hlen)]
    show List.foldl _ (⟨_, s.cmp, s.eq⟩ : Container.ImmSet α) _ = _
    rw [Heap.view_clone]
    rfl

end Ops

/-! ### Sets built in memory -/

/-- The sets built from `NewImmSetFunc cmp` by the operations, on slices of the heap they run in;
between two operations the code around them may make arrays of its own (`grow`). -/
inductive Built (cmp : α → α → Ordering) : Heap α → ImmSet α → Prop
  | new (h : Heap α) (items : Slice) :
      Built cmp (NewImmSetFunc h cmp items).1 (NewImmSetFunc h cmp items).2
  | insert {h : Heap α} {s : ImmSet α} {xs : Slice} : Built cmp h s → xs.Valid h →
      Built cmp (Insert h s xs).1 (Insert h s xs).2
  | delete {h : Heap α} {s : ImmSet α} {xs : Slice} : Built cmp h s → xs.Valid h →
      Built cmp (Delete h s xs).1 (Delete h s xs).2
  | union {h : Heap α} {s t : ImmSet α} : Built cmp h s → Built cmp h t →
      Built cmp (Union h s t).1 (Union h s t).2
  | difference {h : Heap α} {s t : ImmSet α} : Built cmp h s → Built cmp h t →
      Built cmp (Difference h s t).1 (Difference h s t).2
  | grow {h h' : Heap α} {s : ImmSet α} : Built cmp h s → h <+: h' → Built cmp h' s

/-- What a set in memory promises: its slice is strictly sorted; `Has`, `Len` and `Equal` are
membership, size and equality of the set it holds; each operation holds the operation on sets;
and no operation changes an array of the heap it starts from, so that the receiver's slice, and
every other slice of that heap, shows what it showed (`Slice.view_of_isPrefix`). -/
structure Correct (cmp : α → α → Ordering) (h : Heap α) (s : ImmSet α) : Prop where
  sorted : StrictlySorted cmp (s.xs.view h)
  has_iff : ∀ x, Has h s x = true ↔ x ∈ (s.val h).toSet
  len_eq : s.Len = (s.val h).toSet.ncard
  equal_iff : ∀ t : ImmSet α, Built cmp h t →
    (Equal h s t = true ↔ (s.val h).toSet = (t.val h).toSet)
  insert_eq : ∀ xs : Slice, xs.Valid h → h <+: (Insert h s xs).1 ∧
    ((Insert h s xs).2.val (Insert h s xs).1).toSet = (s.val h).toSet ∪ {x | x ∈ xs.view h}
  delete_eq : ∀ xs : Slice, xs.Valid h → h <+: (Delete h s xs).1 ∧
    ((Delete h s xs).2.val (Delete h s xs).1).toSet = (s.val h).toSet \ {x | x ∈ xs.view h}
  union_eq : ∀ t : ImmSet α, Built cmp h t → h <+: (Union h s t).1 ∧
    ((Union h s t).2.val (Union h s t).1).toSet = (s.val h).toSet ∪ (t.val h).toSet
  difference_eq : ∀ t : ImmSet α, Built cmp h t → h <+: (Difference h s t).1 ∧
    ((Difference h s t).2.val (Difference h s t).1).toSet = (s.val h).toSet \ (t.val h).toSet

section Built

variable {cmp : α → α → Ordering} {h : Heap α} {s : ImmSet α}

/-- A set built in memory is a valid slice, and what it holds is a set that the list model
builds with the same operations. -/
theorem Built.val_built (hb : Built cmp h s) :
    s.xs.Valid h ∧ Container.ImmSet.Built cmp (s.val h) := by
  induction hb with
  | new h items =>
    obtain ⟨hf, hv⟩ := newImmSetFunc_spec (List.prefix_refl h) cmp items
    exact ⟨hf.valid, hv ▸ .new _⟩
  | insert _ hx ih =>
    obtain ⟨hf, hv⟩ := insert_spec (List.prefix_refl _) ih.1 hx
    exact ⟨hf.valid, hv ▸ ih.2.insert _⟩
  | delete _ hx ih =>
    obtain ⟨hf, hv⟩ := delete_spec (List.prefix_refl _) ih.1 hx
    exact ⟨hf.valid, hv ▸ ih.2.delete _⟩
  | union _ _ ihs iht =>
    obtain ⟨hf, hv⟩ := union_spec (List.prefix_refl _) ihs.1 iht.1
    exact ⟨hf.valid, hv ▸ ihs.2.union iht.2⟩
  | difference _ _ ihs iht =>
    obtain ⟨hf, hv⟩ := difference_spec (List.prefix_refl _) ihs.1 iht.1
    exact ⟨hf.valid, hv ▸ ihs.2.difference iht.2⟩
  | @grow h h' s _ hp ih =>
    have hval : s.val h' = s.val h := by rw [val, val, Slice.view_of_isPrefix hp ih.1.arr_lt]
    exact ⟨ih.1.of_isPrefix hp, hval ▸ ih.2⟩

theorem Built.correct [Std.TransCmp cmp] [Std.LawfulEqCmp cmp] (hb : Built cmp h s) :
    s.Correct cmp h := by
  obtain ⟨hv, hlb⟩ := hb.val_built
  have hc := hlb.wf.correct
  refine ⟨hc.wf.sorted, hc.has_iff, ?_, fun t ht => hc.equal_iff _ ht.val_built.2.wf,
    fun xs hx => ?_, fun xs hx => ?_, fun t ht => ?_, fun t ht => ?_⟩
  · rw [← hc.len_eq]
    exact (Slice.length_view hv).symm
  · obtain ⟨hf, hiv⟩ := insert_spec (List.prefix_refl h) hv hx
    exact ⟨hf.keeps, by rw [hiv]; exact hc.insert_eq _⟩
  · obtain ⟨hf, hdv⟩ := delete_spec (List.prefix_refl h) hv hx
    exact ⟨hf.keeps, by rw [hdv]; exact hc.delete_eq _⟩
  · obtain ⟨hf, huv⟩ := union_spec (List.prefix_refl h) hv ht.val_built.1
    exact ⟨hf.keeps, by rw [huv]; exact hc.union_eq _ ht.val_built.2.wf⟩
  · obtain ⟨hf, hdv⟩ := difference_spec (List.prefix_refl h) hv ht.val_built.1
    exact ⟨hf.keeps, by rw [hdv]; exact hc.difference_eq _ ht.val_built.2.wf⟩

end Built

/-- Every `ImmSet` built in memory from `NewImmSetFunc cmp` by `Insert`, `Delete`, `Union` and
`Difference`, for a strict total order `cmp` whose `.eq` is equality, keeps the promises of a
finite set, receiver immutability with them; `NewImmSetFunc` changes no array of the heap either,
and denotes the set of its items. -/
theorem built_correct {cmp : α → α → Ordering} [Std.TransCmp cmp] [Std.LawfulEqCmp cmp]
    {h : Heap α} {s : ImmSet α} (items : Slice) (hb : Built cmp h s) :
    h <+: (NewImmSetFunc h cmp items).1 ∧
      ((NewImmSetFunc h cmp items).2.val (NewImmSetFunc h cmp items).1).toSet =
        {x | x ∈ items.view h} ∧
      s.Correct cmp h := by
  obtain ⟨hn, hnv⟩ := newImmSetFunc_spec (List.prefix_refl h) cmp items
  refine ⟨hn.keeps, ?_, hb.correct⟩
  rw [hnv]
  exact Container.ImmSet.toSet_newImmSetFunc _

theorem built_correct_nat :
    (NewImmSetFunc [[3, 1, 3], [4]] compare ⟨1, 0, 1, 1⟩).1 <+:
        (NewImmSetFunc (NewImmSetFunc [[3, 1, 3], [4]] compare ⟨1, 0, 1, 1⟩).1 compare
          ⟨0, 0, 3, 3⟩).1 ∧
      ((NewImmSetFunc (NewImmSetFunc [[3, 1, 3], [4]] compare ⟨1, 0, 1, 1⟩).1 compare
          ⟨0, 0, 3, 3⟩).2.val
        (NewImmSetFunc (NewImmSetFunc [[3, 1, 3], [4]] compare ⟨1, 0, 1, 1⟩).1 compare
          ⟨0, 0, 3, 3⟩).1).toSet =
        {x : ℕ | x ∈ Slice.view ⟨0, 0, 3, 3⟩ (NewImmSetFunc [[3, 1, 3], [4]] compare ⟨1, 0, 1, 1⟩).1} ∧
      (NewImmSetFunc [[3, 1, 3], [4]] compare ⟨1, 0, 1, 1⟩).2.Correct compare
        (NewImmSetFunc [[3, 1, 3], [4]] compare ⟨1, 0, 1, 1⟩).1 :=
  built_correct ⟨0, 0, 3, 3⟩ (Built.new [[3, 1, 3], [4]] ⟨1, 0, 1, 1⟩)

end ImmSet

end Cilium.Container.Go
