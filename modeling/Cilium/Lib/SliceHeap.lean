import Cilium.Lib.GoSlices

/-! Go slices over their backing arrays.  A heap is the list of the arrays made so far, each as
long as its capacity; a slice header names an array, an offset, a length and a capacity, and shows
the `len` elements from its offset.  `make`, and an `append` past the capacity, add an array; an
`append` within the capacity, `slices.Insert` and `slices.Delete` within it, and the in-place
`slices.SortFunc` and `slices.CompactFunc` write into the slice's own array.  What a slice shows
changes only when its own array is written (`view_write_ne`), so an operation whose writes all go
to arrays made after `h0` leaves every slice of `h0` as it was, which is `h0 <+: h`. -/

namespace GoSlices

variable {α : Type*}

/-- The backing arrays made so far, each as long as its capacity. -/
abbrev Heap (α : Type*) := List (List α)

/-- A slice header: its array, the offset of its first element, its length and its capacity. -/
structure Slice where
  arr : ℕ
  off : ℕ
  len : ℕ
  cap : ℕ
  deriving DecidableEq, Repr

namespace Heap

/-- Array `a`, empty when there is none. -/
def get (h : Heap α) (a : ℕ) : List α := h.getD a []

/-- Writing `xs` into array `a` from position `pos`. -/
def write (h : Heap α) (a pos : ℕ) (xs : List α) : Heap α :=
  h.set a ((h.get a).take pos ++ xs ++ (h.get a).drop (pos + xs.length))

end Heap

namespace Slice

/-- The elements a slice shows. -/
def view (s : Slice) (h : Heap α) : List α := ((h.get s.arr).drop s.off).take s.len

/-- A slice whose window of `cap` elements lies within its array. -/
structure Valid (s : Slice) (h : Heap α) : Prop where
  arr_lt : s.arr < h.length
  len_le : s.len ≤ s.cap
  cap_le : s.off + s.cap ≤ (h.get s.arr).length

/-- `s[lo:hi]`. -/
def slice (s : Slice) (lo hi : ℕ) : Slice := ⟨s.arr, s.off + lo, hi - lo, s.cap - lo⟩

/-- `s[lo:hi:max]`. -/
def slice3 (s : Slice) (lo hi max : ℕ) : Slice := ⟨s.arr, s.off + lo, hi - lo, max - lo⟩

end Slice

/-- The capacity `append` gives a new array: twice the old one, or what is needed when that is
more.  Go's `growslice` grows by a quarter past 256 elements and rounds up to a size class; the
capacity only decides where later appends write. -/
def grow (needed oldCap : ℕ) : ℕ := max needed (2 * oldCap)

namespace Heap

variable [Inhabited α]

/-- `make([]T, len, cap)`: a new array of zero values. -/
def make (h : Heap α) (len cap : ℕ) : Heap α × Slice :=
  (h ++ [List.replicate cap default], ⟨h.length, 0, len, cap⟩)

/-- `append(s, xs...)`: in place within the capacity, else into a new array. -/
def append (h : Heap α) (s : Slice) (xs : List α) : Heap α × Slice :=
  if s.len + xs.length ≤ s.cap then
    (h.write s.arr (s.off + s.len) xs, { s with len := s.len + xs.length })
  else
    let cap := grow (s.len + xs.length) s.cap
    (h ++ [s.view h ++ xs ++ List.replicate (cap - (s.len + xs.length)) default],
      ⟨h.length, 0, s.len + xs.length, cap⟩)

/-- `slices.Clone`: `append(S{}, s...)`, onto a new slice of capacity 0 (Go gives a `nil`
slice back as it is, which shows as an empty one). -/
def clone (h : Heap α) (s : Slice) : Heap α × Slice :=
  let e := h.make 0 0
  e.1.append e.2 (s.view h)

/-- `slices.Insert(s, i, v...)`.  Past the capacity, `append(s[:i], make(S, n+m-i)...)` makes a
new array and `v` and the old tail are copied into it; within the capacity they are written over
`s[i:]` in place. -/
def insert (h : Heap α) (s : Slice) (i : ℕ) (v : List α) : Heap α × Slice :=
  if v.length = 0 then (h, s)
  else if i = s.len then h.append s v
  else if s.cap < s.len + v.length then
    let r := h.append (s.slice 0 i) (List.replicate (s.len + v.length - i) default)
    (r.1.write r.2.arr (r.2.off + i) (v ++ (s.view h).drop i), r.2)
  else (h.write s.arr (s.off + i) (v ++ (s.view h).drop i), { s with len := s.len + v.length })

/-- `slices.Delete(s, i, j)`: `append(s[:i], s[j:]...)` moves the tail down in place, and
`clear` zeroes the elements past the new length. -/
def delete (h : Heap α) (s : Slice) (i j : ℕ) : Heap α × Slice :=
  if i = j then (h, s)
  else (h.write s.arr (s.off + i) ((s.view h).drop j ++ List.replicate (j - i) default),
    { s with len := s.len - (j - i) })

/-- `slices.SortFunc`, in place. -/
def sortFunc (h : Heap α) (s : Slice) (cmp : α → α → Ordering) : Heap α :=
  h.write s.arr s.off (GoSlices.sortFunc cmp (s.view h))

/-- `slices.CompactFunc`, in place: the elements kept move to the front, and `clear` zeroes the
ones past them. -/
def compactFunc (h : Heap α) (s : Slice) (eq : α → α → Bool) : Heap α × Slice :=
  if s.len < 2 then (h, s)
  else
    let c := GoSlices.compactFunc eq (s.view h)
    (h.write s.arr s.off (c ++ List.replicate (s.len - c.length) default),
      { s with len := c.length })

end Heap

/-! ### Arrays and what slices show -/

namespace Heap

variable {h t : Heap α} {a b pos : ℕ} {xs : List α}

theorem get_append_of_lt (ha : a < h.length) : (h ++ t).get a = h.get a := by
  simp [get, List.getD_eq_getElem?_getD, List.getElem?_append_left ha]

@[simp] theorem get_append_length (x : List α) : (h ++ [x]).get h.length = x := by
  simp [get, List.getD_eq_getElem?_getD]

@[simp] theorem length_write : (h.write a pos xs).length = h.length := List.length_set

theorem get_write_ne (hne : b ≠ a) : (h.write a pos xs).get b = h.get b := by
  simp [get, write, List.getD_eq_getElem?_getD, List.getElem?_set_ne (Ne.symm hne)]

theorem get_write_self (ha : a < h.length) :
    (h.write a pos xs).get a = (h.get a).take pos ++ xs ++ (h.get a).drop (pos + xs.length) := by
  simp [write, get, List.getD_eq_getElem?_getD, List.getElem?_set_self ha]

/-- Writing nothing changes nothing. -/
@[simp] theorem write_nil : h.write a pos [] = h := by
  unfold write
  rw [List.append_nil, List.length_nil, Nat.add_zero, List.take_append_drop]
  rcases Nat.lt_or_ge a h.length with ha | ha
  · rw [get, List.getD_eq_getElem?_getD, List.getElem?_eq_getElem ha, Option.getD_some,
      List.set_getElem_self]
  · exact List.set_eq_of_length_le ha

/-- A write within an array keeps its length. -/
theorem length_get_write (hfit : pos + xs.length ≤ (h.get a).length) :
    ((h.write a pos xs).get a).length = (h.get a).length := by
  rcases Nat.lt_or_ge a h.length with ha | ha
  · rw [get_write_self ha]
    simp only [List.length_append, List.length_take, List.length_drop]
    omega
  · have : h.write a pos xs = h := List.set_eq_of_length_le ha
    rw [this]

/-- A write to an array made after `h0` keeps every array of `h0`. -/
theorem IsPrefix.write {h0 : Heap α} (hp : h0 <+: h) (ha : h0.length ≤ a) :
    h0 <+: h.write a pos xs := by
  obtain ⟨u, rfl⟩ := hp
  unfold write
  rw [List.set_append_right _ _ ha]
  exact List.prefix_append _ _

end Heap

namespace Slice

variable {s : Slice} {h t : Heap α}

theorem view_write_ne {a pos : ℕ} {xs : List α} (hne : s.arr ≠ a) :
    s.view (h.write a pos xs) = s.view h := by
  rw [view, Heap.get_write_ne hne, view]

theorem view_append_heap (hs : s.arr < h.length) : s.view (h ++ t) = s.view h := by
  rw [view, Heap.get_append_of_lt hs, view]

/-- Arrays made later do not change what a slice of `h0` shows. -/
theorem view_of_isPrefix {h0 : Heap α} (hp : h0 <+: h) (hs : s.arr < h0.length) :
    s.view h = s.view h0 := by
  obtain ⟨u, rfl⟩ := hp
  exact view_append_heap hs

theorem Valid.of_isPrefix {h0 : Heap α} (hv : s.Valid h0) (hp : h0 <+: h) : s.Valid h := by
  obtain ⟨u, rfl⟩ := hp
  exact ⟨by simp; have := hv.arr_lt; omega, hv.len_le,
    by rw [Heap.get_append_of_lt hv.arr_lt]; exact hv.cap_le⟩

theorem length_view (hv : s.Valid h) : (s.view h).length = s.len := by
  have := hv.cap_le
  have := hv.len_le
  simp [view]
  omega

/-- A write into a slice's window from position `i`, read back with length `n`. -/
theorem view_write_at (hv : s.Valid h) {i n : ℕ} {w : List α} (hi : i ≤ s.len)
    (hfit : i + w.length ≤ s.cap) (hn : n ≤ i + w.length) :
    ({ s with len := n } : Slice).view (h.write s.arr (s.off + i) w) =
      ((s.view h).take i ++ w).take n := by
  have hcap := hv.cap_le
  have hlen := hv.len_le
  simp only [view, Heap.get_write_self hv.arr_lt]
  -- the part before the offset is dropped, and the part after the write is past `n`
  have hfront : ((h.get s.arr).take (s.off + i)).drop s.off = ((h.get s.arr).drop s.off).take i := by
    rw [List.drop_take, Nat.add_sub_cancel_left]
  rw [List.drop_append_of_le_length (by simp; omega), List.drop_append_of_le_length (by simp; omega),
    hfront, List.take_append_of_le_length (by simp; omega), List.take_take, Nat.min_eq_left hi]

/-- A write that fits its array keeps every slice valid, at any length up to its capacity. -/
theorem Valid.write_len {a pos n : ℕ} {xs : List α} (hv : s.Valid h) (hn : n ≤ s.cap)
    (hfit : pos + xs.length ≤ (h.get a).length) :
    ({ s with len := n } : Slice).Valid (h.write a pos xs) := by
  refine ⟨by simpa using hv.arr_lt, hn, ?_⟩
  by_cases ha : s.arr = a
  · subst ha
    rw [Heap.length_get_write hfit]
    exact hv.cap_le
  · rw [Heap.get_write_ne ha]
    exact hv.cap_le

theorem Valid.slice (hv : s.Valid h) {lo hi : ℕ} (hlo : lo ≤ hi) (hhi : hi ≤ s.cap) :
    (s.slice lo hi).Valid h := by
  have := hv.cap_le
  exact ⟨hv.arr_lt, by simp only [Slice.slice]; omega, by simp only [Slice.slice]; omega⟩

theorem view_slice (hv : s.Valid h) {lo hi : ℕ} (hhi : hi ≤ s.len) :
    (s.slice lo hi).view h = ((s.view h).take hi).drop lo := by
  have := hv.len_le
  simp only [view, Slice.slice, List.take_take, Nat.min_eq_left hhi, List.drop_take,
    List.drop_drop]

end Slice

/-- A slice of positive length is `s[0]` followed by `s[1:]`. -/
theorem Slice.view_eq_cons [Inhabited α] {h : Heap α} {s : Slice} (hv : s.Valid h)
    (hpos : 0 < s.len) : s.view h = (s.view h).headD default :: (s.slice 1 s.len).view h := by
  have hlen := Slice.length_view hv
  rw [Slice.view_slice hv le_rfl, ← hlen, List.take_length, List.drop_one]
  obtain ⟨a, l, hal⟩ := List.exists_cons_of_length_pos (hlen ▸ hpos)
  rw [hal, List.headD_cons, List.tail_cons]

/-- The slice of a new last array. -/
theorem Slice.view_last {h : Heap α} {x : List α} {n c : ℕ} :
    (⟨h.length, 0, n, c⟩ : Slice).view (h ++ [x]) = x.take n := by
  simp [Slice.view]

/-! ### Slices in arrays made after a heap -/

/-- `s` is a valid slice of `h` in an array made after `h0`, and `h` keeps every array of `h0`:
what an operation on `s` writes leaves every slice of `h0` as it was. -/
structure Fresh (h0 h : Heap α) (s : Slice) : Prop where
  keeps : h0 <+: h
  arr_ge : h0.length ≤ s.arr
  valid : s.Valid h

namespace Heap

variable [Inhabited α] {h : Heap α} {s : Slice}

@[simp] theorem len_append (xs : List α) : (h.append s xs).2.len = s.len + xs.length := by
  unfold append
  split_ifs <;> rfl

end Heap

namespace Fresh

variable {h0 h h1 : Heap α} {s : Slice}

/-- Every valid slice is fresh after the empty heap. -/
theorem of_valid (hv : s.Valid h) : Fresh [] h s := ⟨List.nil_prefix, Nat.zero_le _, hv⟩

theorem of_isPrefix (hf : Fresh h1 h s) (hp : h0 <+: h1) : Fresh h0 h s :=
  ⟨hp.trans hf.keeps, hp.length_le.trans hf.arr_ge, hf.valid⟩

/-- What a write into the slice's own array leaves fresh. -/
theorem write_len {pos n : ℕ} {xs : List α} (hf : Fresh h0 h s) (hn : n ≤ s.cap)
    (hfit : pos + xs.length ≤ (h.get s.arr).length) :
    Fresh h0 (h.write s.arr pos xs) { s with len := n } :=
  ⟨Heap.IsPrefix.write hf.keeps hf.arr_ge, hf.arr_ge, hf.valid.write_len hn hfit⟩

/-- The slice of a new last array. -/
theorem of_last {x : List α} (hp : h0 <+: h) {n c : ℕ} (hn : n ≤ c) (hc : c = x.length) :
    Fresh h0 (h ++ [x]) ⟨h.length, 0, n, c⟩ :=
  ⟨hp.trans (List.prefix_append _ _), hp.length_le, ⟨by simp, hn, by simp [hc]⟩⟩

variable [Inhabited α]

theorem make (hp : h0 <+: h) {len cap : ℕ} (hl : len ≤ cap) :
    Fresh h0 (h.make len cap).1 (h.make len cap).2 :=
  of_last hp hl (List.length_replicate).symm

theorem append (hf : Fresh h0 h s) (xs : List α) :
    Fresh h0 (h.append s xs).1 (h.append s xs).2 := by
  have hlen := Slice.length_view hf.valid
  have hcap := hf.valid.cap_le
  unfold Heap.append
  split_ifs with hc
  · exact hf.write_len hc (by omega)
  · refine of_last hf.keeps (le_max_left _ _) ?_
    simp only [grow, List.length_append, List.length_replicate]
    omega

theorem clone (hp : h0 <+: h) (s : Slice) : Fresh h0 (h.clone s).1 (h.clone s).2 :=
  (make hp le_rfl).append _

theorem insert (hf : Fresh h0 h s) {i : ℕ} (hi : i ≤ s.len) (v : List α) :
    Fresh h0 (h.insert s i v).1 (h.insert s i v).2 := by
  have hlen := hf.valid.len_le
  have hcap := hf.valid.cap_le
  have hview := Slice.length_view hf.valid
  unfold Heap.insert
  split_ifs with hm hn hc
  · exact hf
  · exact hf.append v
  · -- the new array of `append(s[:i], make(S, n+m-i)...)`, which the copies then fill
    have hr := (⟨hf.keeps, hf.arr_ge, hf.valid.slice (Nat.zero_le i) (hi.trans hlen)⟩ :
      Fresh h0 h (s.slice 0 i)).append (List.replicate (s.len + v.length - i) default)
    have hrlen : (h.append (s.slice 0 i) (List.replicate (s.len + v.length - i) default)).2.len =
        s.len + v.length := by
      simp only [Heap.len_append, Slice.slice, List.length_replicate]
      omega
    exact hr.write_len hr.valid.len_le
      (by have := hr.valid.cap_le; have := hr.valid.len_le; simp; omega)
  · exact hf.write_len (by omega) (by simp; omega)

theorem delete (hf : Fresh h0 h s) {i j : ℕ} (hij : i ≤ j) (hj : j ≤ s.len) :
    Fresh h0 (h.delete s i j).1 (h.delete s i j).2 := by
  have hlen := Slice.length_view hf.valid
  have := hf.valid.len_le
  have := hf.valid.cap_le
  unfold Heap.delete
  split_ifs with he
  · exact hf
  · exact hf.write_len (by omega) (by simp; omega)

omit [Inhabited α] in
theorem sortFunc (hf : Fresh h0 h s) (cmp : α → α → Ordering) :
    Fresh h0 (h.sortFunc s cmp) s := by
  have hlen := Slice.length_view hf.valid
  have := hf.valid.len_le
  have := hf.valid.cap_le
  exact hf.write_len (n := s.len) hf.valid.len_le (by rw [length_sortFunc]; omega)

theorem compactFunc (hf : Fresh h0 h s) (eq : α → α → Bool) :
    Fresh h0 (h.compactFunc s eq).1 (h.compactFunc s eq).2 := by
  have hlen := Slice.length_view hf.valid
  have hc := length_compactFunc_le eq (s.view h)
  have := hf.valid.len_le
  have := hf.valid.cap_le
  unfold Heap.compactFunc
  split_ifs with hs
  · exact hf
  · exact hf.write_len (by omega) (by simp; omega)

end Fresh

/-! ### What each operation shows -/

namespace Heap

variable [Inhabited α] {h : Heap α} {s : Slice}

theorem view_make {len cap : ℕ} (hl : len ≤ cap) :
    (h.make len cap).2.view (h.make len cap).1 = List.replicate len default := by
  rw [make, Slice.view_last, List.take_replicate, Nat.min_eq_left hl]

theorem view_append (hv : s.Valid h) (xs : List α) :
    (h.append s xs).2.view (h.append s xs).1 = s.view h ++ xs := by
  have hlen := Slice.length_view hv
  unfold append
  split_ifs with hc
  · rw [Slice.view_write_at hv le_rfl hc le_rfl, ← hlen, List.take_length,
      List.take_of_length_le (by simp)]
  · rw [Slice.view_last, List.take_left' (by rw [List.length_append, hlen])]

theorem view_clone (s : Slice) : (h.clone s).2.view (h.clone s).1 = s.view h := by
  rw [clone, view_append (Fresh.make (List.prefix_refl h) le_rfl).valid, view_make le_rfl,
    List.replicate_zero, List.nil_append]

theorem view_insert (hv : s.Valid h) {i : ℕ} (hi : i ≤ s.len) (v : List α) :
    (h.insert s i v).2.view (h.insert s i v).1 = (s.view h).take i ++ v ++ (s.view h).drop i := by
  have hlen := Slice.length_view hv
  have := hv.len_le
  unfold insert
  split_ifs with hm hn hc
  · rw [List.eq_nil_of_length_eq_zero hm, List.append_nil, List.take_append_drop]
  · rw [view_append hv, hn, ← hlen, List.drop_length, List.append_nil, List.take_length]
  · -- the new array holds `s[:i]` and zeros; `v` and the tail are copied over the zeros
    have hsl := hv.slice (Nat.zero_le i) (hi.trans hv.len_le)
    set r := h.append (s.slice 0 i) (List.replicate (s.len + v.length - i) default) with hr_def
    have hsv : (s.slice 0 i).view h = (s.view h).take i := by
      rw [Slice.view_slice hv hi, List.drop_zero]
    have hr : r.2.view r.1 = (s.view h).take i ++ List.replicate (s.len + v.length - i) default := by
      rw [hr_def, view_append hsl, hsv]
    have hrv : r.2.Valid r.1 := ((Fresh.of_valid hsl).append _).valid
    have hrlen : r.2.len = s.len + v.length := by
      simp only [hr_def, len_append, Slice.slice, List.length_replicate]
      omega
    refine (Slice.view_write_at hrv (n := r.2.len) (w := v ++ (s.view h).drop i)
      (by omega) (by have := hrv.len_le; simp; omega) (by simp; omega)).trans ?_
    have hfront : ((s.view h).take i ++ List.replicate (s.len + v.length - i) default).take i =
        (s.view h).take i := List.take_left' (by simp; omega)
    rw [hr, hfront, List.take_of_length_le (by simp; omega), List.append_assoc]
  · rw [Slice.view_write_at hv hi (by simp; omega) (by simp; omega), List.append_assoc,
      List.take_of_length_le (by simp; omega)]

theorem view_delete (hv : s.Valid h) {i j : ℕ} (hij : i ≤ j) (hj : j ≤ s.len) :
    (h.delete s i j).2.view (h.delete s i j).1 = (s.view h).take i ++ (s.view h).drop j := by
  have hlen := Slice.length_view hv
  have := hv.len_le
  unfold delete
  split_ifs with he
  · rw [he, List.take_append_drop]
  · rw [Slice.view_write_at hv (by omega) (by simp; omega) (by simp; omega),
      ← List.append_assoc, List.take_left' (by simp; omega)]

omit [Inhabited α] in
theorem view_sortFunc (hv : s.Valid h) (cmp : α → α → Ordering) :
    s.view (h.sortFunc s cmp) = GoSlices.sortFunc cmp (s.view h) := by
  have hlen := Slice.length_view hv
  have := hv.len_le
  refine (Slice.view_write_at hv (i := 0) (n := s.len) (w := GoSlices.sortFunc cmp (s.view h))
    (Nat.zero_le _) (by rw [length_sortFunc]; omega) (by rw [length_sortFunc]; omega)).trans ?_
  rw [List.take_zero, List.nil_append, List.take_of_length_le (by rw [length_sortFunc]; omega)]

theorem view_compactFunc (hv : s.Valid h) (eq : α → α → Bool) :
    (h.compactFunc s eq).2.view (h.compactFunc s eq).1 = GoSlices.compactFunc eq (s.view h) := by
  have hlen := Slice.length_view hv
  have hc := length_compactFunc_le eq (s.view h)
  have := hv.len_le
  unfold compactFunc
  split_ifs with hs
  · rw [compactFunc_of_length_lt eq (by omega)]
  · refine (Slice.view_write_at hv (i := 0) (w := GoSlices.compactFunc eq (s.view h) ++
      List.replicate (s.len - (GoSlices.compactFunc eq (s.view h)).length) default)
      (Nat.zero_le _) (by simp; omega) (by simp)).trans ?_
    rw [List.take_zero, List.nil_append, List.take_left' rfl]

end Heap

end GoSlices
