import Cilium.Lib.GoSlices

/-! `RingBuffer` of `pkg/container/ring_buffer.go`: a slice that grows by appending up to
`maxSize` and then overwrites its oldest element at `next`, and that `Compact` cuts down to the
elements from the first valid one.  Its contents are the slice rotated by `next`
(`RingBuffer.Represents`), and along any run of `Add` and `Compact` with a monotone validity test
they are the list a bounded FIFO with prefix truncation holds (`run_refines_fifo`). -/

namespace Cilium.Container

open GoSlices

/-- `RingBuffer[T]`. -/
structure RingBuffer (α : Type*) where
  buffer : List α
  next : ℕ
  maxSize : ℕ

namespace RingBuffer

variable {α : Type*}

def NewRingBuffer (bufferSize : ℕ) : RingBuffer α := ⟨[], 0, bufferSize⟩

def isFull (eb : RingBuffer α) : Bool := decide (eb.buffer.length ≥ eb.maxSize)

def incr (eb : RingBuffer α) : RingBuffer α := { eb with next := (eb.next + 1) % eb.maxSize }

def Add (eb : RingBuffer α) (e : α) : RingBuffer α :=
  if eb.maxSize = 0 then eb
  else if eb.isFull then { eb with buffer := eb.buffer.set eb.next e }.incr
  else
    let eb := eb.incr
    { eb with buffer := eb.buffer ++ [e] }

def mapIndex (eb : RingBuffer α) (indexOffset : ℕ) : ℕ := (eb.next + indexOffset) % eb.buffer.length

def «at» [Inhabited α] (eb : RingBuffer α) (i : ℕ) : α := eb.buffer[eb.mapIndex i]!

def firstValidIndex [Inhabited α] (eb : RingBuffer α) (isValid : α → Bool) : ℕ :=
  search eb.buffer.length fun i => isValid (eb.at i)

/-- `IterateValid`: the elements passed to the callback, in order. -/
def IterateValid [Inhabited α] (eb : RingBuffer α) (isValid : α → Bool) : List α :=
  let startIndex := eb.firstValidIndex isValid
  let l := eb.buffer.length - startIndex
  (List.range l).map fun i => eb.buffer[eb.mapIndex (startIndex + i)]!

/-- The end of both branches of `Compact`: the head goes after the last element, or to 0 when
the buffer is full. -/
def resetNext (eb : RingBuffer α) (buffer : List α) : RingBuffer α :=
  let eb := { eb with buffer := buffer, next := buffer.length }
  if eb.isFull then { eb with next := eb.next % eb.maxSize } else eb

def Compact [Inhabited α] (eb : RingBuffer α) (isValid : α → Bool) : RingBuffer α :=
  if eb.buffer.length = 0 then eb
  else
    let startIndex := eb.firstValidIndex isValid
    if startIndex ≥ eb.buffer.length then { eb with buffer := [], next := 0 }
    else
      let mappedStart := eb.mapIndex startIndex
      let newBufferLength := eb.buffer.length - startIndex
      if mappedStart + newBufferLength > eb.buffer.length then
        -- the valid elements wrap around the end of the slice
        let «end» := eb.mapIndex (startIndex + newBufferLength)
        let tmp := eb.buffer.take «end»
        eb.resetNext (eb.buffer.drop mappedStart ++ tmp)
      else eb.resetNext ((eb.buffer.drop mappedStart).take newBufferLength)

def Iterate [Inhabited α] (eb : RingBuffer α) : List α := eb.IterateValid fun _ => true

def Size (eb : RingBuffer α) : ℕ := eb.buffer.length

/-! ### The bounded FIFO -/

/-- Append `e`, dropping the oldest element once there are more than `maxSize`. -/
def fifoAdd (maxSize : ℕ) (L : List α) (e : α) : List α :=
  if (L ++ [e]).length > maxSize then (L ++ [e]).drop 1 else L ++ [e]

/-- Drop the longest prefix of elements that are not valid. -/
def fifoCompact (isValid : α → Bool) (L : List α) : List α := L.dropWhile fun e => !isValid e

/-- The runs from `NewRingBuffer maxSize`, beside the FIFO list they should hold; `Compact` is
given a test that, once true along the list, stays true. -/
inductive Run [Inhabited α] (maxSize : ℕ) : RingBuffer α → List α → Prop
  | init : Run maxSize (NewRingBuffer maxSize) []
  | add {eb : RingBuffer α} {L : List α} (e : α) :
      Run maxSize eb L → Run maxSize (eb.Add e) (fifoAdd maxSize L e)
  | compact {eb : RingBuffer α} {L : List α} (isValid : α → Bool) :
      Run maxSize eb L → L.Pairwise (fun a b => isValid a = true → isValid b = true) →
      Run maxSize (eb.Compact isValid) (fifoCompact isValid L)

/-- The buffer holds `L`: it is no longer than `maxSize`, its head is its length until it is
full and an index of it after, and `L` is the slice rotated by the head. -/
structure Represents (eb : RingBuffer α) (L : List α) : Prop where
  maxSize_pos : 0 < eb.maxSize
  length_le : eb.buffer.length ≤ eb.maxSize
  next_eq : eb.buffer.length < eb.maxSize → eb.next = eb.buffer.length
  next_lt : eb.buffer.length = eb.maxSize → eb.next < eb.maxSize
  view : eb.buffer.rotate eb.next = L

/-! ### Index arithmetic -/

theorem mod_of_lt_two_mul {a n : ℕ} (h : a < 2 * n) : a % n = if a < n then a else a - n := by
  split
  · exact Nat.mod_eq_of_lt ‹_›
  · rw [Nat.mod_eq_sub_mod (by omega), Nat.mod_eq_of_lt (by omega)]

/-- Overwriting the head of a full slice and moving the head on rotates to the old contents
without their first element, followed by the new one. -/
theorem rotate_set_succ {b : List α} {r : ℕ} (e : α) (hr : r < b.length) :
    (b.set r e).rotate ((r + 1) % b.length) = (b.rotate r ++ [e]).drop 1 := by
  apply List.ext_getElem (by simp)
  intro k hk _
  simp only [List.length_rotate, List.length_set] at hk
  rw [List.getElem_rotate, List.getElem_drop, List.getElem_append, List.getElem_set]
  simp only [List.length_set, Nat.add_mod_mod, List.length_rotate]
  have hmod := mod_of_lt_two_mul (a := k + (r + 1)) (n := b.length) (by omega)
  by_cases hlast : 1 + k < b.length
  · rw [dif_pos hlast, List.getElem_rotate]
    have hne : r ≠ (k + (r + 1)) % b.length := by
      rw [hmod]
      split <;> omega
    rw [if_neg hne]
    congr 1
    rw [hmod, mod_of_lt_two_mul (a := 1 + k + r) (by omega)]
    split <;> split <;> omega
  · rw [dif_neg hlast]
    have heq : r = (k + (r + 1)) % b.length := by
      rw [hmod]
      split <;> omega
    rw [if_pos heq]
    simp

/-- Dropping `s` elements of the contents, in terms of the slice: the part from `r + s` to the
end and then the part before `r`, or, when `r + s` wraps, one piece starting at `r + s - n`. -/
theorem drop_rotate {b : List α} {r s : ℕ} (hr : r < b.length) (hs : s < b.length) :
    (b.rotate r).drop s =
      if r + s < b.length then b.drop (r + s) ++ b.take r
      else (b.drop (r + s - b.length)).take (b.length - s) := by
  apply List.ext_getElem
  · split <;> simp <;> omega
  intro k hk hk'
  simp only [List.length_drop, List.length_rotate] at hk
  rw [List.getElem_drop, List.getElem_rotate]
  have hmod := mod_of_lt_two_mul (a := s + k + r) (n := b.length) (by omega)
  split
  · rename_i hlt
    rw [List.getElem_append]
    split
    · simp only [List.getElem_drop]
      congr 1
      rw [hmod]
      split <;> simp_all <;> omega
    · simp only [List.getElem_take]
      congr 1
      simp only [List.length_drop] at *
      rw [hmod]
      split <;> omega
  · simp only [List.getElem_take, List.getElem_drop]
    congr 1
    rw [hmod]
    split <;> omega

/-! ### One lemma per operation -/

variable {eb : RingBuffer α} {L : List α}

theorem represents_newRingBuffer {maxSize : ℕ} (hpos : 0 < maxSize) :
    (NewRingBuffer maxSize : RingBuffer α).Represents [] :=
  ⟨hpos, Nat.zero_le _, fun _ => rfl, fun h => by simp [NewRingBuffer] at h; omega, rfl⟩

theorem Represents.length_eq (hr : eb.Represents L) : L.length = eb.buffer.length := by
  rw [← hr.view, List.length_rotate]

section Reads

variable [Inhabited α]

/-- `at i` reads element `i` of the contents. -/
theorem Represents.at_eq (hr : eb.Represents L) {i : ℕ} (hi : i < L.length) :
    eb.at i = L[i] := by
  have hpos : 0 < eb.buffer.length := hr.length_eq ▸ Nat.lt_of_le_of_lt (Nat.zero_le i) hi
  have hlt : (eb.next + i) % eb.buffer.length < eb.buffer.length := Nat.mod_lt _ hpos
  have hget : eb.buffer[(eb.next + i) % eb.buffer.length]! =
      eb.buffer[(eb.next + i) % eb.buffer.length] :=
    getElem!_pos eb.buffer ((eb.next + i) % eb.buffer.length) hlt
  simp only [«at», mapIndex, hget]
  simp only [← hr.view, List.getElem_rotate, Nat.add_comm i]

theorem Represents.firstValidIndex_eq (hr : eb.Represents L) {isValid : α → Bool}
    (hmono : L.Pairwise fun a b => isValid a = true → isValid b = true) :
    eb.firstValidIndex isValid = L.findIdx isValid := by
  rw [firstValidIndex, ← hr.length_eq]
  exact search_eq_findIdx hmono fun i hi => by rw [hr.at_eq hi]

/-- `IterateValid` visits the contents from the first element that passes the test. -/
theorem Represents.iterateValid_eq (hr : eb.Represents L) {isValid : α → Bool}
    (hmono : L.Pairwise fun a b => isValid a = true → isValid b = true) :
    eb.IterateValid isValid = fifoCompact isValid L := by
  have hfind : L.findIdx (fun a => !!isValid a) = L.findIdx isValid := by simp
  have hlen := hr.length_eq
  have hiter : eb.IterateValid isValid =
      (List.range (eb.buffer.length - L.findIdx isValid)).map
        fun i => eb.at (L.findIdx isValid + i) := by
    rw [IterateValid, hr.firstValidIndex_eq hmono]
    rfl
  rw [fifoCompact, List.dropWhile_eq_drop_findIdx_not, hfind, hiter]
  apply List.ext_getElem (by simp [hr.length_eq])
  intro k hk _
  simp only [List.length_map, List.length_range] at hk
  rw [List.getElem_map, List.getElem_range, List.getElem_drop, hr.at_eq (by omega)]

theorem Represents.iterate_eq (hr : eb.Represents L) : eb.Iterate = L := by
  rw [Iterate, hr.iterateValid_eq (List.Pairwise.imp (fun _ => id) (List.pairwise_of_forall
    (R := fun _ _ => True) (fun _ _ => trivial)))]
  simp [fifoCompact]

end Reads

theorem Represents.add (hr : eb.Represents L) (e : α) :
    (eb.Add e).Represents (fifoAdd eb.maxSize L e) := by
  have hpos := hr.maxSize_pos
  have hlen := hr.length_eq
  unfold Add
  rw [if_neg (Nat.pos_iff_ne_zero.mp hpos)]
  by_cases hfull : eb.isFull = true
  · -- a full buffer overwrites its oldest element and moves its head on
    have hmax : eb.buffer.length = eb.maxSize :=
      le_antisymm hr.length_le (by simpa [isFull] using hfull)
    have hnext := hr.next_lt hmax
    rw [if_pos hfull]
    refine ⟨hpos, by simp [incr, hmax], fun h => by simp [incr, hmax] at h, fun _ => ?_, ?_⟩
    · exact Nat.mod_lt _ hpos
    · simp only [incr, fifoAdd, List.length_append, List.length_singleton]
      rw [if_pos (by omega), ← hmax, rotate_set_succ e (hmax ▸ hnext), hr.view]
  · -- otherwise the element is appended behind the head, which is the length
    have hlt : eb.buffer.length < eb.maxSize := by simpa [isFull] using hfull
    have hnext := hr.next_eq hlt
    have hL : L = eb.buffer := by rw [← hr.view, hnext, List.rotate_length]
    rw [if_neg hfull]
    simp only [incr, fifoAdd, List.length_append, List.length_singleton, hnext]
    rw [if_neg (by omega), hL]
    rcases Nat.lt_or_ge (eb.buffer.length + 1) eb.maxSize with h | h
    · rw [Nat.mod_eq_of_lt h]
      have happ : (eb.buffer ++ [e]).length = eb.buffer.length + 1 := by simp
      refine ⟨hpos, by simp; omega, fun _ => by simp, fun h' => by simp at h'; omega, ?_⟩
      dsimp only
      rw [← happ, List.rotate_length]
    · have h1 : eb.buffer.length + 1 = eb.maxSize := by omega
      rw [h1, Nat.mod_self]
      exact ⟨hpos, by simp; omega, fun h' => by simp at h'; omega, fun _ => hpos,
        List.rotate_zero _⟩

theorem represents_resetNext (hpos : 0 < eb.maxSize) {buffer : List α}
    (hle : buffer.length ≤ eb.maxSize) : (eb.resetNext buffer).Represents buffer := by
  unfold resetNext isFull
  dsimp only
  by_cases hfull : buffer.length ≥ eb.maxSize
  · have heq : buffer.length = eb.maxSize := le_antisymm hle hfull
    rw [if_pos (by simpa using hfull)]
    refine ⟨hpos, hle, fun h => ?_, fun _ => Nat.mod_lt _ hpos, ?_⟩
    · dsimp only at h
      omega
    · dsimp only
      rw [heq, Nat.mod_self, List.rotate_zero]
  · rw [if_neg (by simpa using hfull)]
    refine ⟨hpos, hle, fun _ => rfl, fun h => ?_, List.rotate_length _⟩
    dsimp only at h
    omega

@[simp] theorem maxSize_resetNext (buffer : List α) :
    (eb.resetNext buffer).maxSize = eb.maxSize := by
  unfold resetNext
  dsimp only
  split <;> rfl

@[simp] theorem maxSize_add (e : α) : (eb.Add e).maxSize = eb.maxSize := by
  unfold Add
  split
  · rfl
  · split <;> rfl

variable [Inhabited α]

/-- `Compact` keeps the contents from the first valid element; the two branches of the source
are the two shapes that `drop_rotate` gives. -/
theorem Represents.compact (hr : eb.Represents L) {isValid : α → Bool}
    (hmono : L.Pairwise fun a b => isValid a = true → isValid b = true) :
    (eb.Compact isValid).Represents (fifoCompact isValid L) := by
  have hpos := hr.maxSize_pos
  have hlen := hr.length_eq
  have hfirst := hr.firstValidIndex_eq hmono
  have hfind : L.findIdx (fun a => !!isValid a) = L.findIdx isValid := by simp
  have hdrop : fifoCompact isValid L = L.drop (L.findIdx isValid) := by
    rw [fifoCompact, List.dropWhile_eq_drop_findIdx_not, hfind]
  unfold Compact
  by_cases h0 : eb.buffer.length = 0
  · rw [if_pos h0]
    have hnil : L = [] := List.eq_nil_of_length_eq_zero (hlen.trans h0)
    simpa [hnil, fifoCompact] using hr
  rw [if_neg h0]
  simp only [hfirst]
  by_cases hall : L.findIdx isValid ≥ eb.buffer.length
  · -- nothing is valid: the buffer is emptied
    rw [if_pos hall, hdrop, List.drop_eq_nil_of_le (by omega)]
    exact ⟨hpos, Nat.zero_le _, fun _ => rfl, fun h => by simp at h; omega, rfl⟩
  rw [if_neg hall]
  -- the contents from `s` on, as two pieces of the slice or one
  set s := L.findIdx isValid with hs
  set n := eb.buffer.length with hn
  have hnpos : 0 < n := Nat.pos_of_ne_zero h0
  set r := eb.next % n with hrdef
  have hrlt : r < n := Nat.mod_lt _ hnpos
  have hslt : s < n := by omega
  have hview : fifoCompact isValid L = (eb.buffer.rotate r).drop s := by
    rw [hdrop, hrdef, List.rotate_mod, hr.view]
  have hmap : ∀ i, eb.mapIndex i = (r + i) % n := fun i => by
    rw [mapIndex, hrdef, Nat.mod_add_mod]
  rw [hview, drop_rotate hrlt hslt]
  simp only [hmap]
  have hle : ∀ b : List α, b.length ≤ n → b.length ≤ eb.maxSize := fun b hb =>
    hb.trans hr.length_le
  by_cases hwrap : r + s < n
  · rw [if_pos hwrap, Nat.mod_eq_of_lt hwrap]
    by_cases hr0 : r = 0
    · rw [if_neg (by omega)]
      have htake : (eb.buffer.drop (r + s)).take (n - s) = eb.buffer.drop (r + s) ++
          eb.buffer.take r := by
        rw [List.take_of_length_le (by simp; omega), hr0, List.take_zero, List.append_nil]
      rw [htake]
      exact represents_resetNext hpos (hle _ (by simp; omega))
    · rw [if_pos (by omega)]
      have hend : (r + (s + (n - s))) % n = r := by
        rw [show r + (s + (n - s)) = r + n by omega, Nat.add_mod_right, Nat.mod_eq_of_lt hrlt]
      rw [hend]
      exact represents_resetNext hpos (hle _ (by simp; omega))
  · rw [if_neg hwrap, mod_of_lt_two_mul (by omega), if_neg hwrap, if_neg (by omega)]
    exact represents_resetNext hpos (hle _ (by simp))

@[simp] theorem maxSize_compact (isValid : α → Bool) :
    (eb.Compact isValid).maxSize = eb.maxSize := by
  unfold Compact
  dsimp only
  split_ifs <;> simp

theorem Run.represents {maxSize : ℕ} (hpos : 0 < maxSize) {eb : RingBuffer α} {L : List α}
    (h : Run maxSize eb L) : eb.Represents L ∧ eb.maxSize = maxSize := by
  induction h with
  | init => exact ⟨represents_newRingBuffer hpos, rfl⟩
  | add e _ ih =>
    refine ⟨?_, by simp [ih.2]⟩
    rw [← ih.2]
    exact ih.1.add e
  | compact isValid _ hmono ih => exact ⟨ih.1.compact hmono, by simp [ih.2]⟩

end RingBuffer

/-- Along every run of `Add` and `Compact` from `NewRingBuffer maxSize` with `maxSize > 0`, where
each validity test is monotone along the contents, the ring buffer holds the list of a bounded
FIFO with prefix truncation: `Size` is its length, `Iterate` visits it in order, `IterateValid`
with a monotone test visits it from the first element that passes, and the head is the length
while the buffer is not full. -/
theorem run_refines_fifo {α : Type*} [Inhabited α] {maxSize : ℕ} (hpos : 0 < maxSize)
    {eb : RingBuffer α} {L : List α} (h : RingBuffer.Run maxSize eb L) :
    eb.Size = L.length ∧ eb.Iterate = L ∧
      (∀ p : α → Bool, L.Pairwise (fun a b => p a = true → p b = true) →
        eb.IterateValid p = L.dropWhile fun e => !p e) ∧
      (eb.buffer.length < maxSize → eb.next = eb.buffer.length) := by
  obtain ⟨hr, hmax⟩ := h.represents hpos
  refine ⟨hr.length_eq.symm, hr.iterate_eq, fun p hp => hr.iterateValid_eq hp, fun hlt => ?_⟩
  exact hr.next_eq (hmax ▸ hlt)

theorem run_refines_fifo_three_adds :
    let L := RingBuffer.fifoAdd 2 (RingBuffer.fifoAdd 2 (RingBuffer.fifoAdd 2 [] 1) 2) 3
    let eb := (((RingBuffer.NewRingBuffer 2 : RingBuffer ℕ).Add 1).Add 2).Add 3
    0 < 2 ∧ eb.Size = L.length ∧ eb.Iterate = L ∧
      (∀ p : ℕ → Bool, L.Pairwise (fun a b => p a = true → p b = true) →
        eb.IterateValid p = L.dropWhile fun e => !p e) ∧
      (eb.buffer.length < 2 → eb.next = eb.buffer.length) :=
  ⟨by decide, run_refines_fifo (by decide) (((RingBuffer.Run.init.add 1).add 2).add 3)⟩

end Cilium.Container
