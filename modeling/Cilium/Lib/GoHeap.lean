import Mathlib

/-! Go's `container/heap` over a slice, for an arbitrary order `less`: `Push` appends and moves
the new element up, `Pop` swaps the root with the last element, moves it down and removes the
last.  The loops of `up` and `down` run on fuel: `up` halves its index each round and `down` at
least doubles it, so the fuel given below is never the bound that stops them.  Both only swap, so
a heap keeps the elements pushed and not yet popped.  For an order that compares a key, `up` and
`down` restore the heap order after one element is out of place, so `Push` keeps a heap and `Pop`
returns its least element. -/

namespace GoHeap

variable {α : Type} [Inhabited α] (less : α → α → Bool)

/-- The loop of `up`, for at most `fuel` rounds. -/
def upLoop : Nat → Array α → Nat → Array α
  | 0, h, _ => h
  | fuel + 1, h, j =>
    -- Go's `(j - 1) / 2` is 0 at `j = 0`, as the truncated Nat subtraction gives
    let i := (j - 1) / 2
    if i = j ∨ !less h[j]! h[i]! then h
    else upLoop fuel (h.swapIfInBounds i j) i

/-- `up`: move element `j` towards the root while it is less than its parent. -/
def up (h : Array α) (j : Nat) : Array α := upLoop less (j + 1) h j

/-- The loop of `down`, for at most `fuel` rounds. -/
def downLoop : Nat → Array α → Nat → Nat → Array α
  | 0, h, _, _ => h
  | fuel + 1, h, i, n =>
    let j1 := 2 * i + 1
    if j1 ≥ n then h
    else
      let j := if j1 + 1 < n ∧ less h[j1 + 1]! h[j1]! then j1 + 1 else j1
      if !less h[j]! h[i]! then h
      else downLoop fuel (h.swapIfInBounds i j) j n

/-- The child of `i` that a round of `down` compares with `i`: the second one if it is among the
first `n` and less than the first. -/
def pickChild (h : Array α) (i n : Nat) : Nat :=
  let j1 := 2 * i + 1
  if j1 + 1 < n ∧ less h[j1 + 1]! h[j1]! then j1 + 1 else j1

/-- A round of `down`, with the child it picks named. -/
theorem downLoop_succ (fuel : Nat) (h : Array α) (i n : Nat) :
    downLoop less (fuel + 1) h i n =
      if 2 * i + 1 ≥ n then h
      else if !less h[pickChild less h i n]! h[i]! then h
      else downLoop less fuel (h.swapIfInBounds i (pickChild less h i n)) (pickChild less h i n) n :=
  rfl

/-- `down`: move element `i0` away from the root, among the first `n`, while a child is less. -/
def down (h : Array α) (i0 n : Nat) : Array α := downLoop less n h i0 n

/-- `heap.Push`. -/
def push (h : Array α) (x : α) : Array α := up less (h.push x) h.size

/-- `heap.Pop`, on a non-empty heap: the least element, and the heap without it. -/
def pop (h : Array α) : Array α × α :=
  let n := h.size - 1
  let h := down less (h.swapIfInBounds 0 n) 0 n
  (h.pop, h.back!)

/-- The index at which the loop of `down` leaves the element it moves. -/
def downLoopIndex : Nat → Array α → Nat → Nat → Nat
  | 0, _, i, _ => i
  | fuel + 1, h, i, n =>
    if 2 * i + 1 ≥ n then i
    else if !less h[pickChild less h i n]! h[i]! then i
    else downLoopIndex fuel (h.swapIfInBounds i (pickChild less h i n)) (pickChild less h i n) n

/-- Whether `down` moved element `i0`, which Go's `down` returns. -/
def downMoves (h : Array α) (i0 n : Nat) : Bool := i0 < downLoopIndex less n h i0 n

/-- `heap.Fix`: after the key of element `i` changed, move it down, or else up. -/
def fix (h : Array α) (i : Nat) : Array α :=
  if downMoves less h i h.size then down less h i h.size else up less h i

/-- `heap.Remove`: the element at `i`, and the heap without it. -/
def remove (h : Array α) (i : Nat) : Array α × α :=
  let n := h.size - 1
  let h := if n ≠ i then
      let h := h.swapIfInBounds i n
      if downMoves less h i n then down less h i n else up less h i
    else h
  (h.pop, h.back!)

omit [Inhabited α] in
/-- A swap of two elements, or none when one index is out of range, keeps the elements. -/
theorem swapIfInBounds_perm (a : Array α) (i j : Nat) :
    (a.swapIfInBounds i j).toList.Perm a.toList := by
  unfold Array.swapIfInBounds
  split_ifs
  · exact Array.perm_iff_toList_perm.mp (Array.swap_perm _ _)
  all_goals rfl

/-- A non-empty slice is its `pop` followed by its last element. -/
theorem pop_append_back (xs : Array α) (hne : 0 < xs.size) :
    xs.pop.toList ++ [xs.back!] = xs.toList := by
  have hl : xs.toList ≠ [] := fun h => by simp [← Array.length_toList, h] at hne
  rw [Array.toList_pop, Array.back!_eq_back?, Array.back?_eq_getElem?, ← Array.getElem?_toList,
    ← Array.length_toList, ← List.getLast?_eq_getElem?, List.getLast?_eq_some_getLast hl]
  exact List.dropLast_concat_getLast hl

theorem upLoop_perm (fuel : Nat) (h : Array α) (j : Nat) :
    (upLoop less fuel h j).toList.Perm h.toList := by
  induction fuel generalizing h j with
  | zero => rfl
  | succ fuel ih =>
    simp only [upLoop]
    split
    · rfl
    · exact (ih _ _).trans (swapIfInBounds_perm _ _ _)

theorem downLoop_perm (fuel : Nat) (h : Array α) (i n : Nat) :
    (downLoop less fuel h i n).toList.Perm h.toList := by
  induction fuel generalizing h i with
  | zero => rfl
  | succ fuel ih =>
    -- whichever child a round picks, it only swaps
    have hswap : ∀ j, (downLoop less fuel (h.swapIfInBounds i j) j n).toList.Perm h.toList :=
      fun j => (ih _ _).trans (swapIfInBounds_perm _ _ _)
    simp only [downLoop]
    split_ifs
    all_goals first | rfl | exact hswap _

/-- A push adds its element and keeps the others. -/
theorem push_perm (h : Array α) (x : α) : (push less h x).toList.Perm (h.toList ++ [x]) := by
  simpa [push, up] using upLoop_perm less _ (h.push x) h.size

/-- A pop on a non-empty heap returns one of its elements and keeps the others. -/
theorem pop_perm (h : Array α) (hne : 0 < h.size) :
    ((pop less h).1.toList ++ [(pop less h).2]).Perm h.toList := by
  set h' := down less (h.swapIfInBounds 0 (h.size - 1)) 0 (h.size - 1) with hh'
  have hperm : h'.toList.Perm h.toList :=
    (downLoop_perm less _ _ _ _).trans (swapIfInBounds_perm _ _ _)
  have hsize : 0 < h'.size := by
    rw [← Array.length_toList, hperm.length_eq, Array.length_toList]
    exact hne
  simpa only [pop, ← hh', pop_append_back h' hsize] using hperm

theorem size_push (h : Array α) (x : α) : (push less h x).size = h.size + 1 := by
  simpa [← Array.length_toList] using (push_perm less h x).length_eq

theorem size_pop (h : Array α) (hne : 0 < h.size) : (pop less h).1.size + 1 = h.size := by
  simpa [← Array.length_toList] using (pop_perm less h hne).length_eq

/-- A push onto an empty heap has nothing to move. -/
theorem push_empty (x : α) : push less #[] x = #[x] := by
  simp [push, up, upLoop]

theorem mem_push {h : Array α} {x y : α} : y ∈ (push less h x).toList ↔ y ∈ h.toList ∨ y = x := by
  rw [(push_perm less h x).mem_iff]
  simp

/-- What a pop returns and keeps was in the heap. -/
theorem mem_of_mem_pop {h : Array α} (hne : 0 < h.size) {y : α}
    (hy : y ∈ (pop less h).1.toList ∨ y = (pop less h).2) : y ∈ h.toList := by
  refine (pop_perm less h hne).subset ?_
  rcases hy with hy | rfl
  · exact List.mem_append_left _ hy
  · exact List.mem_append_right _ (List.mem_singleton_self _)

theorem size_downLoop (fuel : Nat) (h : Array α) (i n : Nat) :
    (downLoop less fuel h i n).size = h.size := by
  simpa [← Array.length_toList] using (downLoop_perm less fuel h i n).length_eq

theorem getElem!_swapIfInBounds (h : Array α) {i j : Nat} (hi : i < h.size) (hj : j < h.size)
    (x : Nat) :
    (h.swapIfInBounds i j)[x]! = if x = i then h[j]! else if x = j then h[i]! else h[x]! := by
  by_cases hx : x < h.size
  · rw [getElem!_pos _ _ (by simpa using hx), Array.getElem_swapIfInBounds]
    by_cases hxi : x = i
    · simp [hxi, hj]
    · by_cases hxj : x = j
      · subst hxj
        simp [hxi, hi]
      · simp [hxi, hxj, hx]
  · have hxi : x ≠ i := by omega
    have hxj : x ≠ j := by omega
    rw [getElem!_neg _ _ (by simpa using hx), if_neg hxi, if_neg hxj,
      getElem!_neg _ _ (by simpa using hx)]

/-- A swap leaves every other index alone, whether or not it is in range. -/
theorem getElem!_swapIfInBounds_of_ne (h : Array α) {i j x : Nat} (hxi : x ≠ i) (hxj : x ≠ j) :
    (h.swapIfInBounds i j)[x]! = h[x]! := by
  by_cases hij : i < h.size ∧ j < h.size
  · rw [getElem!_swapIfInBounds h hij.1 hij.2, if_neg hxi, if_neg hxj]
  · unfold Array.swapIfInBounds
    split_ifs with h1 h2
    · exact absurd ⟨h1, h2⟩ hij
    all_goals rfl

theorem pickChild_bounds (h : Array α) {i n : Nat} (hj1 : 2 * i + 1 < n) :
    pickChild less h i n < n ∧ 2 * i + 1 ≤ pickChild less h i n ∧
      pickChild less h i n ≤ 2 * i + 2 := by
  simp only [pickChild]
  split <;> omega

/-- `down` only swaps among its first `n` elements. -/
theorem downLoop_getElem!_of_le {n x : Nat} (hx : n ≤ x) :
    ∀ (fuel : Nat) (h : Array α) (i : Nat), (downLoop less fuel h i n)[x]! = h[x]!
  | 0, _, _ => rfl
  | fuel + 1, h, i => by
    rw [downLoop_succ]
    split
    · rfl
    · have hj := pickChild_bounds less h (show 2 * i + 1 < n by omega)
      split
      · rfl
      · rw [downLoop_getElem!_of_le hx fuel,
          getElem!_swapIfInBounds_of_ne h (by omega) (by omega)]

theorem getElem!_push_of_lt (h : Array α) (y : α) {x : Nat} (hx : x < h.size) :
    (h.push y)[x]! = h[x]! := by
  rw [getElem!_pos (h.push y) x (by simp; omega), getElem!_pos h x hx, Array.getElem_push_lt]

theorem getElem!_pop_of_lt (h : Array α) {x : Nat} (hx : x < h.size - 1) : h.pop[x]! = h[x]! := by
  rw [getElem!_pos h.pop x (by simpa using hx), getElem!_pos h x (by omega), Array.getElem_pop]

/-- `Pop` returns the root: the swap puts it last, and `down` leaves the last element alone. -/
theorem pop_snd (h : Array α) : (pop less h).2 = h[0]! := by
  simp only [pop, Array.back!, down, size_downLoop, Array.size_swapIfInBounds]
  rw [downLoop_getElem!_of_le less (Nat.le_refl (h.size - 1))]
  by_cases hne : 0 < h.size
  · rw [getElem!_swapIfInBounds h hne (by omega)]
    split_ifs with h0 <;> simp_all
  · -- an empty slice: the swap is out of range and leaves it as it is
    have h0 : h.size = 0 := by omega
    simp [Array.swapIfInBounds, h0]

/-- `up` only swaps from `j` towards the root. -/
theorem upLoop_getElem!_of_lt {x : Nat} :
    ∀ (fuel : Nat) (h : Array α) (j : Nat), j < x → (upLoop less fuel h j)[x]! = h[x]!
  | 0, _, _, _ => rfl
  | fuel + 1, h, j, hj => by
    simp only [upLoop]
    split
    · rfl
    · rw [upLoop_getElem!_of_lt fuel _ _ (by omega),
        getElem!_swapIfInBounds_of_ne h (by omega) (by omega)]

theorem fix_perm (h : Array α) (i : Nat) : (fix less h i).toList.Perm h.toList := by
  unfold fix down up
  split
  · exact downLoop_perm less _ _ _ _
  · exact upLoop_perm less _ _ _

/-- What `Remove` moves to the end before the pop: element `i`, with the others around it. -/
def removeSifted (h : Array α) (i : Nat) : Array α :=
  if h.size - 1 ≠ i then
    let h := h.swapIfInBounds i (h.size - 1)
    if downMoves less h i (h.size - 1) then down less h i (h.size - 1) else up less h i
  else h

theorem remove_eq (h : Array α) (i : Nat) :
    remove less h i = ((removeSifted less h i).pop, (removeSifted less h i).back!) := by
  simp only [remove, removeSifted, Array.size_swapIfInBounds]

theorem removeSifted_perm (h : Array α) (i : Nat) :
    (removeSifted less h i).toList.Perm h.toList := by
  unfold removeSifted down up
  dsimp only
  split_ifs
  · exact (downLoop_perm less _ _ _ _).trans (swapIfInBounds_perm _ _ _)
  · exact (upLoop_perm less _ _ _).trans (swapIfInBounds_perm _ _ _)
  · rfl

/-- The last element after the sifting is the one that was at `i`: the swap puts it last, and
neither loop reaches the last index. -/
theorem removeSifted_back (h : Array α) {i : Nat} (hi : i < h.size) :
    (removeSifted less h i).back! = h[i]! := by
  have hsize : (removeSifted less h i).size = h.size := by
    simpa [← Array.length_toList] using (removeSifted_perm less h i).length_eq
  rw [Array.back!, hsize]
  unfold removeSifted down up
  simp only [Array.size_swapIfInBounds]
  split_ifs with hne
  · rw [downLoop_getElem!_of_le less (Nat.le_refl _), getElem!_swapIfInBounds h hi (by omega),
      if_neg hne, if_pos rfl]
  · rw [upLoop_getElem!_of_lt less _ _ _ (by omega), getElem!_swapIfInBounds h hi (by omega),
      if_neg hne, if_pos rfl]
  · rw [Decidable.not_not.mp hne]

/-- `Remove` returns element `i` and keeps the others. -/
theorem remove_perm (h : Array α) {i : Nat} (hi : i < h.size) :
    ((remove less h i).1.toList ++ [(remove less h i).2]).Perm h.toList ∧
      (remove less h i).2 = h[i]! := by
  have hsize : 0 < (removeSifted less h i).size := by
    rw [← Array.length_toList, (removeSifted_perm less h i).length_eq, Array.length_toList]
    omega
  rw [remove_eq, pop_append_back _ hsize]
  exact ⟨removeSifted_perm less h i, removeSifted_back less h hi⟩

/-- On a heap without repeated elements, `Remove` keeps exactly the elements but the one at
`i`. -/
theorem mem_remove {h : Array α} (hnd : h.toList.Nodup) {i : Nat} (hi : i < h.size) {y : α} :
    y ∈ (remove less h i).1.toList ↔ y ∈ h.toList ∧ y ≠ h[i]! := by
  obtain ⟨hperm, hsnd⟩ := remove_perm less h hi
  have hnd' := hperm.nodup_iff.mpr hnd
  rw [← hperm.mem_iff, ← hsnd, List.mem_append, List.mem_singleton]
  constructor
  · rintro hy
    refine ⟨.inl hy, fun heq => ?_⟩
    subst heq
    exact (List.nodup_append.mp hnd').2.2 _ hy _ List.mem_cons_self rfl
  · rintro ⟨hy | hy, hne⟩
    · exact hy
    · exact absurd hy hne

theorem nodup_remove {h : Array α} (hnd : h.toList.Nodup) {i : Nat} (hi : i < h.size) :
    (remove less h i).1.toList.Nodup :=
  ((remove_perm less h hi).1.nodup_iff.mpr hnd).sublist (List.sublist_append_left _ _)

/-! ### The heap order -/

section Order

variable {β : Type} [LinearOrder β] (key : α → β)

/-- The first `n` elements of `h` are in heap order: none has a smaller key than its parent
`(c - 1) / 2`. -/
def Ordered (h : Array α) (n : Nat) : Prop :=
  ∀ c, 0 < c → c < n → key h[(c - 1) / 2]! ≤ key h[c]!

/-- What `up` needs while it moves element `j` towards the root: every parent and child are in
order but `j` and its parent, and the children of `j` are not below the parent of `j`. -/
structure UpOrder (h : Array α) (j n : Nat) : Prop where
  except : ∀ c, 0 < c → c < n → c ≠ j → key h[(c - 1) / 2]! ≤ key h[c]!
  grand : 0 < j → ∀ c, 0 < c → c < n → (c - 1) / 2 = j → key h[(j - 1) / 2]! ≤ key h[c]!

/-- What `down` needs while it moves element `i` away from the root: every parent and child are
in order but `i` and its children, and the children of `i` are not below the parent of `i`. -/
structure DownOrder (h : Array α) (i n : Nat) : Prop where
  except : ∀ c, 0 < c → c < n → (c - 1) / 2 ≠ i → key h[(c - 1) / 2]! ≤ key h[c]!
  grand : 0 < i → ∀ c, 0 < c → c < n → (c - 1) / 2 = i → key h[(i - 1) / 2]! ≤ key h[c]!

/-- One round of `up`: swapping `j` with its larger parent moves the exception to the parent. -/
theorem UpOrder.swap {h : Array α} {j n : Nat} (o : UpOrder key h j n) (hj0 : 0 < j)
    (hjn : j < n) (hn : n ≤ h.size) (hlt : key h[j]! < key h[(j - 1) / 2]!) :
    UpOrder key (h.swapIfInBounds ((j - 1) / 2) j) ((j - 1) / 2) n := by
  set i := (j - 1) / 2 with hi
  have hij : i < j := by omega
  have hs := getElem!_swapIfInBounds h (show i < h.size by omega) (show j < h.size by omega)
  constructor
  · intro c hc0 hcn hci
    rw [hs, hs]
    by_cases hcj : c = j
    · -- the swapped pair itself is now in order
      subst hcj
      simp only [← hi, if_neg hci]
      exact hlt.le
    rw [if_neg hci, if_neg hcj]
    by_cases hpi : (c - 1) / 2 = i
    · -- a sibling of `j`: below the old parent, which is above the old `j`
      rw [if_pos hpi]
      exact hlt.le.trans (hpi ▸ o.except c hc0 hcn hcj)
    by_cases hpj : (c - 1) / 2 = j
    · -- a child of `j`: the old parent was already above it
      rw [if_neg hpi, if_pos hpj]
      exact o.grand hj0 c hc0 hcn hpj
    rw [if_neg hpi, if_neg hpj]
    exact o.except c hc0 hcn hcj
  · intro hi0 c hc0 hcn hpc
    have hgp : (i - 1) / 2 ≠ i := by omega
    have hgpj : (i - 1) / 2 ≠ j := by omega
    have hci : c ≠ i := by omega
    have hup : key h[(i - 1) / 2]! ≤ key h[i]! := o.except i hi0 (by omega) (by omega)
    rw [hs, hs, if_neg hgp, if_neg hgpj, if_neg hci]
    by_cases hcj : c = j
    · rw [if_pos hcj]
      exact hup
    · rw [if_neg hcj]
      exact hup.trans (hpc ▸ o.except c hc0 hcn hcj)

/-- `up` stops at the root or below a parent that is not larger: the heap is in order. -/
theorem UpOrder.finish {h : Array α} {j n : Nat} (o : UpOrder key h j n)
    (hstop : 0 < j → key h[(j - 1) / 2]! ≤ key h[j]!) : Ordered key h n := by
  intro c hc0 hcn
  by_cases hcj : c = j
  · subst hcj
    exact hstop hc0
  · exact o.except c hc0 hcn hcj

/-- One round of `down`: swapping `i` with its least child, which is smaller, moves the exception
to that child. -/
theorem DownOrder.swap {h : Array α} {i j n : Nat} (o : DownOrder key h i n) (hjn : j < n)
    (hn : n ≤ h.size) (hchild : 0 < j ∧ (j - 1) / 2 = i)
    (hmin : ∀ c, 0 < c → c < n → (c - 1) / 2 = i → key h[j]! ≤ key h[c]!)
    (hlt : key h[j]! < key h[i]!) :
    DownOrder key (h.swapIfInBounds i j) j n := by
  obtain ⟨hj0, hpj⟩ := hchild
  have hij : i < j := by omega
  have hs := getElem!_swapIfInBounds h (show i < h.size by omega) (show j < h.size by omega)
  constructor
  · intro c hc0 hcn hpc
    rw [hs, hs]
    by_cases hcj : c = j
    · -- the swapped pair itself is now in order
      subst hcj
      have hci : c ≠ i := by omega
      rw [hpj, if_pos rfl, if_neg hci, if_pos rfl]
      exact hlt.le
    by_cases hci : c = i
    · -- `i` itself, below its parent: the grand order of the old children
      subst hci
      have hgp : (c - 1) / 2 ≠ c := by omega
      have hgpj : (c - 1) / 2 ≠ j := by omega
      rw [if_neg hgp, if_neg hgpj, if_pos rfl]
      exact o.grand hc0 j hj0 hjn hpj
    rw [if_neg hci, if_neg hcj]
    by_cases hpi : (c - 1) / 2 = i
    · -- a sibling of `j`: the least child is not above it
      rw [if_pos hpi]
      exact hmin c hc0 hcn hpi
    rw [if_neg hpi, if_neg hpc]
    exact o.except c hc0 hcn hpi
  · intro _ c hc0 hcn hpc
    have hci : c ≠ i := by omega
    have hcj : c ≠ j := by omega
    rw [hs, hs, hpj, if_pos rfl, if_neg hci, if_neg hcj]
    exact hpc ▸ o.except c hc0 hcn (by omega)

/-- `down` stops where no child of `i` is smaller: the heap is in order. -/
theorem DownOrder.finish {h : Array α} {i n : Nat} (o : DownOrder key h i n)
    (hstop : ∀ c, 0 < c → c < n → (c - 1) / 2 = i → key h[i]! ≤ key h[c]!) :
    Ordered key h n := by
  intro c hc0 hcn
  by_cases hpc : (c - 1) / 2 = i
  · rw [hpc]
    exact hstop c hc0 hcn hpc
  · exact o.except c hc0 hcn hpc

/-- In heap order, the root is the least of the first `n` elements. -/
theorem Ordered.root_le {h : Array α} {n : Nat} (ho : Ordered key h n) :
    ∀ x, x < n → key h[0]! ≤ key h[x]! := by
  intro x
  induction x using Nat.strongRecOn with
  | ind x ih =>
    intro hx
    rcases Nat.eq_zero_or_pos x with rfl | hx0
    · exact le_rfl
    · exact (ih _ (by omega) (by omega)).trans (ho x hx0 hx)

section Loops

variable {less : α → α → Bool} (hless : ∀ a b, less a b = decide (key a < key b))
include hless

/-- `up` restores the order: its fuel outlasts the halvings of the index. -/
theorem upLoop_ordered {n : Nat} :
    ∀ (fuel : Nat) (h : Array α) (j : Nat), j < fuel → j < n → n ≤ h.size →
      UpOrder key h j n → Ordered key (upLoop less fuel h j) n
  | 0, _, _, hf, _, _, _ => absurd hf (Nat.not_lt_zero _)
  | fuel + 1, h, j, hf, hjn, hn, o => by
    simp only [upLoop]
    split
    next hstop =>
      -- at the root, or below a parent that is not larger
      refine o.finish key fun hj0 => ?_
      have hne : (j - 1) / 2 ≠ j := by omega
      simpa [hne, hless] using hstop
    next hgo =>
      simp only [not_or, Bool.not_eq_eq_eq_not, Bool.not_true, Bool.not_eq_false, hless,
        decide_eq_true_eq] at hgo
      have hj0 : 0 < j := by omega
      exact upLoop_ordered fuel _ _ (by omega) (by omega) (by simpa using hn)
        (o.swap key hj0 hjn hn hgo.2)

/-- The child that a round of `down` picks is the least child of `i` among the first `n`. -/
theorem pickChild_le (h : Array α) {i n : Nat} :
    ∀ c, 0 < c → c < n → (c - 1) / 2 = i → key h[pickChild less h i n]! ≤ key h[c]! := by
  intro c hc0 hcn hpc
  have hc : c = 2 * i + 1 ∨ c = 2 * i + 1 + 1 := by omega
  simp only [pickChild, hless, decide_eq_true_eq]
  split
  next hpick =>
    rcases hc with rfl | rfl
    · exact hpick.2.le
    · exact le_rfl
  next hpick =>
    rcases hc with rfl | rfl
    · exact le_rfl
    · exact not_lt.mp fun hlt => hpick ⟨hcn, hlt⟩

/-- `down` restores the order: every round moves the index at least one step deeper. -/
theorem downLoop_ordered {n : Nat} :
    ∀ (fuel : Nat) (h : Array α) (i : Nat), n ≤ fuel + i → n ≤ h.size →
      DownOrder key h i n → Ordered key (downLoop less fuel h i n) n
  | 0, h, i, hf, _, o => by
    -- past the end, `i` has no children
    exact o.finish key fun c _ hcn hpc => absurd hcn (by omega)
  | fuel + 1, h, i, hf, hn, o => by
    rw [downLoop_succ]
    split
    next hend => exact o.finish key fun c _ hcn hpc => absurd hcn (by omega)
    next hj1 =>
      have hpick := pickChild_le key hless h (i := i) (n := n)
      have hj := pickChild_bounds less h (show 2 * i + 1 < n by omega)
      split
      next hstop =>
        simp only [Bool.not_eq_eq_eq_not, Bool.not_true, hless, decide_eq_false_iff_not,
          not_lt] at hstop
        exact o.finish key fun c hc0 hcn hpc => hstop.trans (hpick c hc0 hcn hpc)
      next hgo =>
        simp only [Bool.not_eq_eq_eq_not, Bool.not_true, Bool.not_eq_false, hless,
          decide_eq_true_eq] at hgo
        exact downLoop_ordered fuel _ _ (by omega) (by simpa using hn)
          (o.swap key hj.1 hn ⟨by omega, by omega⟩ hpick hgo)

/-- `Push` keeps a heap in order. -/
theorem push_ordered {h : Array α} (ho : Ordered key h h.size) (y : α) :
    Ordered key (push less h y) (push less h y).size := by
  rw [size_push]
  refine upLoop_ordered key hless _ _ _ (Nat.lt_succ_self _) (Nat.lt_succ_self _) (by simp) ?_
  constructor
  · -- the old elements keep their order
    intro c hc0 hcn hcj
    rw [getElem!_push_of_lt h y (show c < h.size by omega),
      getElem!_push_of_lt h y (show (c - 1) / 2 < h.size by omega)]
    exact ho c hc0 (by omega)
  · -- the new element is last and has no children
    intro hj0 c _ hcn hpc
    omega

/-- `Pop` keeps a heap in order. -/
theorem pop_ordered {h : Array α} (ho : Ordered key h h.size) :
    Ordered key (pop less h).1 (pop less h).1.size := by
  set n := h.size - 1 with hn
  have hs : ∀ x, x < n → (h.swapIfInBounds 0 n)[x]! = if x = 0 then h[n]! else h[x]! := by
    intro x hx
    rw [getElem!_swapIfInBounds h (by omega) (by omega), if_neg (show x ≠ n by omega)]
  -- with the last element at the root, only the root can be out of place
  have start : DownOrder key (h.swapIfInBounds 0 n) 0 n := by
    constructor
    · intro c hc0 hcn hpc
      rw [hs c hcn, hs _ (by omega), if_neg (show c ≠ 0 by omega), if_neg hpc]
      exact ho c hc0 (by omega)
    · intro h0
      exact absurd h0 (Nat.lt_irrefl 0)
  have hord := downLoop_ordered key hless n _ 0 (by omega) (by simp [hn]) start
  have hsize : (pop less h).1.size = n := by simp [pop, down, size_downLoop, hn]
  rw [hsize]
  intro c hc0 hcn
  have hlt : ∀ x, x < n → x < (downLoop less n (h.swapIfInBounds 0 n) 0 n).size - 1 := by
    intro x hx
    rw [size_downLoop, Array.size_swapIfInBounds]
    omega
  simp only [pop, down]
  rw [getElem!_pop_of_lt _ (hlt c hcn), getElem!_pop_of_lt _ (hlt _ (by omega))]
  exact hord c hc0 hcn

end Loops

/-- `Pop` on a heap in order returns an element that no element left is below. -/
theorem pop_le {h : Array α} (ho : Ordered key h h.size) (hne : 0 < h.size) :
    ∀ y ∈ (pop less h).1.toList, key (pop less h).2 ≤ key y := by
  intro y hy
  have hmem : y ∈ h.toList :=
    (pop_perm less h hne).subset (List.mem_append_left _ hy)
  obtain ⟨x, hx, rfl⟩ := List.getElem_of_mem hmem
  rw [pop_snd, Array.getElem_toList]
  have := ho.root_le key x (by simpa using hx)
  rwa [getElem!_pos h x (by simpa using hx)] at this

end Order

end GoHeap
