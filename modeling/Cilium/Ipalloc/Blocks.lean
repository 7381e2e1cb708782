import Cilium.Ipalloc.HashAllocator

/-! The shape of `availableBlockList` that `take` and `put` keep.  `BlockList.WF` says that the
heap holds each block once, that no two blocks overlap, and that `prev` and `next` link the
blocks both ways in address order; `Avail` is the set of addresses in the blocks.  The helpers
`delete`, `insert` and `merge`, and a store of a block's new range, keep `WF` and change `Avail`
by what they add or remove. -/

namespace Cilium.Ipalloc

@[simp] theorem LinkedBlock.within_iff (b : LinkedBlock) (x : ℕ) :
    b.within x = true ↔ b.fromAddr ≤ x ∧ x ≤ b.toAddr := by
  simp [LinkedBlock.within]

@[simp] theorem LinkedBlock.calcSize_fromAddr (b : LinkedBlock) : b.calcSize.fromAddr = b.fromAddr := rfl

@[simp] theorem LinkedBlock.calcSize_toAddr (b : LinkedBlock) : b.calcSize.toAddr = b.toAddr := rfl

@[simp] theorem LinkedBlock.calcSize_prev (b : LinkedBlock) : b.calcSize.prev = b.prev := rfl

@[simp] theorem LinkedBlock.calcSize_next (b : LinkedBlock) : b.calcSize.next = b.next := rfl

namespace BlockList

variable (l : BlockList)

/-! ### Stores through pointers, and the heap operations -/

section Frame

variable {p q i : ℕ} {b : LinkedBlock} {o n : Option ℕ}

/-- A store out of range changes nothing, as `Array.set!` does. -/
theorem get_set : (l.set p b).get q = if q = p ∧ p < l.mem.size then b else l.get q := by
  simp only [get, set, Array.set!_eq_setIfInBounds, getElem!_def, Array.getElem?_setIfInBounds]
  by_cases hq : q = p
  · subst hq
    by_cases hp : q < l.mem.size <;> simp [hp]
  · rw [if_neg (Ne.symm hq), if_neg (fun h => hq h.1)]

theorem get_mem_push : ({ l with mem := l.mem.push b } : BlockList).get q =
    if q = l.mem.size then b else l.get q := by
  simp only [get]
  rcases Nat.lt_trichotomy q l.mem.size with hq | rfl | hq
  · rw [if_neg (by omega), GoHeap.getElem!_push_of_lt _ _ hq]
  · simp
  · rw [if_neg (by omega), getElem!_neg _ q (by simp; omega), getElem!_neg l.mem q (by omega)]

theorem get_mem_push_push {b' : LinkedBlock} :
    ({ l with mem := (l.mem.push b).push b' } : BlockList).get q =
      if q = l.mem.size + 1 then b' else if q = l.mem.size then b else l.get q := by
  have := get_mem_push { l with mem := l.mem.push b } (b := b') (q := q)
  simp only [Array.size_push] at this
  rw [this, get_mem_push]

@[simp] theorem abl_set : (l.set p b).abl = l.abl := rfl

@[simp] theorem size_set : (l.set p b).mem.size = l.mem.size := by simp [set]

@[simp] theorem abl_setNext : (l.setNext o n).abl = l.abl := by cases o <;> rfl

@[simp] theorem size_setNext : (l.setNext o n).mem.size = l.mem.size := by
  cases o <;> simp [setNext]

@[simp] theorem abl_setPrev : (l.setPrev o n).abl = l.abl := by cases o <;> rfl

@[simp] theorem size_setPrev : (l.setPrev o n).mem.size = l.mem.size := by
  cases o <;> simp [setPrev]

theorem get_setNext : (l.setNext o n).get q =
    if o = some q ∧ q < l.mem.size then { l.get q with next := n } else l.get q := by
  cases o with
  | none => simp [setNext]
  | some p =>
    simp only [setNext, get_set, Option.some.injEq]
    by_cases hq : q = p
    · subst hq; rfl
    · rw [if_neg (fun h => hq h.1), if_neg (fun h => hq h.1.symm)]

theorem get_setPrev : (l.setPrev o n).get q =
    if o = some q ∧ q < l.mem.size then { l.get q with prev := n } else l.get q := by
  cases o with
  | none => simp [setPrev]
  | some p =>
    simp only [setPrev, get_set, Option.some.injEq]
    by_cases hq : q = p
    · subst hq; rfl
    · rw [if_neg (fun h => hq h.1), if_neg (fun h => hq h.1.symm)]

/-! A relink changes one pointer of one block and nothing else. -/

@[simp] theorem fromAddr_setNext : ((l.setNext o n).get q).fromAddr = (l.get q).fromAddr := by
  rw [get_setNext]; split <;> rfl

@[simp] theorem toAddr_setNext : ((l.setNext o n).get q).toAddr = (l.get q).toAddr := by
  rw [get_setNext]; split <;> rfl

@[simp] theorem prev_setNext : ((l.setNext o n).get q).prev = (l.get q).prev := by
  rw [get_setNext]; split <;> rfl

theorem next_setNext : ((l.setNext o n).get q).next =
    if o = some q ∧ q < l.mem.size then n else (l.get q).next := by
  rw [get_setNext]; split <;> rfl

@[simp] theorem fromAddr_setPrev : ((l.setPrev o n).get q).fromAddr = (l.get q).fromAddr := by
  rw [get_setPrev]; split <;> rfl

@[simp] theorem toAddr_setPrev : ((l.setPrev o n).get q).toAddr = (l.get q).toAddr := by
  rw [get_setPrev]; split <;> rfl

@[simp] theorem next_setPrev : ((l.setPrev o n).get q).next = (l.get q).next := by
  rw [get_setPrev]; split <;> rfl

theorem prev_setPrev : ((l.setPrev o n).get q).prev =
    if o = some q ∧ q < l.mem.size then n else (l.get q).prev := by
  rw [get_setPrev]; split <;> rfl

/-! The heap operations permute the pointers and leave the memory alone. -/

@[simp] theorem get_push : (l.push p).get q = l.get q := rfl

@[simp] theorem mem_push_mem : (l.push p).mem = l.mem := rfl

@[simp] theorem get_fix : (l.fix i).get q = l.get q := rfl

@[simp] theorem mem_fix_mem : (l.fix i).mem = l.mem := rfl

@[simp] theorem get_remove : (l.remove i).1.get q = l.get q := rfl

@[simp] theorem mem_remove_mem : (l.remove i).1.mem = l.mem := rfl

theorem mem_push : q ∈ (l.push p).abl.toList ↔ q ∈ l.abl.toList ∨ q = p :=
  GoHeap.mem_push l.less

theorem nodup_push (hnd : l.abl.toList.Nodup) (hp : p ∉ l.abl.toList) :
    (l.push p).abl.toList.Nodup :=
  (GoHeap.push_perm l.less l.abl p).nodup_iff.mpr (List.nodup_append.mpr
    ⟨hnd, List.nodup_singleton p, fun _ hx _ hy => by
      rw [List.mem_singleton.mp hy]; exact fun h => hp (h ▸ hx)⟩)

@[simp] theorem mem_fix : q ∈ (l.fix i).abl.toList ↔ q ∈ l.abl.toList :=
  (GoHeap.fix_perm l.less l.abl i).mem_iff

theorem remove_snd (hi : i < l.abl.size) : (l.remove i).2 = l.abl[i]! :=
  (GoHeap.remove_perm l.less l.abl hi).2

theorem mem_remove (hnd : l.abl.toList.Nodup) (hi : i < l.abl.size) :
    q ∈ (l.remove i).1.abl.toList ↔ q ∈ l.abl.toList ∧ q ≠ l.abl[i]! :=
  GoHeap.mem_remove l.less hnd hi

theorem nodup_remove (hnd : l.abl.toList.Nodup) (hi : i < l.abl.size) :
    (l.remove i).1.abl.toList.Nodup :=
  GoHeap.nodup_remove l.less hnd hi

end Frame

/-- The addresses in the available blocks. -/
def Avail (x : ℕ) : Prop := ∃ p ∈ l.abl.toList, (l.get p).within x = true

instance : DecidablePred l.Avail := fun _ => inferInstanceAs (Decidable (∃ _ ∈ _, _))

/-- The shape of the available blocks: each once in the heap and in memory, none empty or
overlapping another, and linked to their neighbours in address order both ways. -/
structure WF : Prop where
  nodup : l.abl.toList.Nodup
  lt_size : ∀ p ∈ l.abl.toList, p < l.mem.size
  le : ∀ p ∈ l.abl.toList, (l.get p).fromAddr ≤ (l.get p).toAddr
  disjoint : ∀ p ∈ l.abl.toList, ∀ q ∈ l.abl.toList, p ≠ q →
    (l.get p).toAddr < (l.get q).fromAddr ∨ (l.get q).toAddr < (l.get p).fromAddr
  next_link : ∀ p ∈ l.abl.toList, ∀ q, (l.get p).next = some q →
    q ∈ l.abl.toList ∧ (l.get q).prev = some p ∧ (l.get p).toAddr < (l.get q).fromAddr
  prev_link : ∀ q ∈ l.abl.toList, ∀ p, (l.get q).prev = some p →
    p ∈ l.abl.toList ∧ (l.get p).next = some q

namespace WF

variable {l} (w : l.WF)
include w

theorem lt_of_prev {p q : ℕ} (hq : q ∈ l.abl.toList) (h : (l.get q).prev = some p) :
    (l.get p).toAddr < (l.get q).fromAddr :=
  have hp := w.prev_link q hq p h
  (w.next_link p hp.1 q hp.2).2.2

/-- A block's neighbours on the two sides differ: one ends before it, the other starts after it. -/
theorem next_ne_prev {p x y : ℕ} (hp : p ∈ l.abl.toList) (hx : (l.get p).next = some x)
    (hy : (l.get p).prev = some y) : x ≠ y := by
  rintro rfl
  have h1 := (w.next_link p hp x hx).2.2
  have h2 := w.lt_of_prev hp hy
  have h3 := w.le x (w.next_link p hp x hx).1
  have h4 := w.le p hp
  omega

theorem next_ne_self {p : ℕ} (hp : p ∈ l.abl.toList) (h : (l.get p).next = some p) : False := by
  have := (w.next_link p hp p h).2.2
  have := w.le p hp
  omega

theorem prev_ne_self {p : ℕ} (hp : p ∈ l.abl.toList) (h : (l.get p).prev = some p) : False := by
  have := w.lt_of_prev hp h
  have := w.le p hp
  omega

/-- Two blocks with the same right neighbour are one: the neighbour's `prev` names it. -/
theorem next_inj {p q r : ℕ} (hp : p ∈ l.abl.toList) (hq : q ∈ l.abl.toList)
    (h1 : (l.get p).next = some r) (h2 : (l.get q).next = some r) : p = q := by
  have := (w.next_link p hp r h1).2.1
  rw [(w.next_link q hq r h2).2.1] at this
  exact (Option.some.inj this).symm

/-- At most one block holds an address. -/
theorem eq_of_within {p q x : ℕ} (hp : p ∈ l.abl.toList) (hq : q ∈ l.abl.toList)
    (hpx : (l.get p).within x = true) (hqx : (l.get q).within x = true) : p = q := by
  by_contra hne
  simp only [LinkedBlock.within_iff] at hpx hqx
  have := w.disjoint p hp q hq hne
  omega

/-- The heap order does not matter to the shape: a permutation of the pointers keeps it. -/
theorem of_perm {l' : BlockList} (hmem : l'.mem = l.mem)
    (habl : l'.abl.toList.Perm l.abl.toList) : l'.WF := by
  have hget : l'.get = l.get := by funext q; simp [get, hmem]
  have hm : ∀ q, q ∈ l'.abl.toList ↔ q ∈ l.abl.toList := fun _ => habl.mem_iff
  obtain ⟨hnd, hlt, hle, hdisj, hnext, hprev⟩ := w
  refine ⟨habl.nodup_iff.mpr hnd, ?_, ?_, ?_, ?_, ?_⟩ <;>
    (simp only [hget, hm, hmem]; assumption)

theorem fix (i : ℕ) : (l.fix i).WF :=
  w.of_perm rfl (GoHeap.fix_perm l.less l.abl i)

omit w in
theorem avail_fix (i x : ℕ) : (l.fix i).Avail x ↔ l.Avail x := by
  simp only [Avail, mem_fix, get_fix]

/-- A store of a new range into block `p`, its links kept: the shape stays when the new range
is not empty, meets the old one, and overlaps no other block. -/
theorem set_range {p : ℕ} (hp : p ∈ l.abl.toList) {b : LinkedBlock}
    (hprev : b.prev = (l.get p).prev) (hnext : b.next = (l.get p).next)
    (hle : b.fromAddr ≤ b.toAddr)
    (hmeet : b.fromAddr ≤ (l.get p).toAddr ∧ (l.get p).fromAddr ≤ b.toAddr)
    (hdisj : ∀ q ∈ l.abl.toList, q ≠ p →
      b.toAddr < (l.get q).fromAddr ∨ (l.get q).toAddr < b.fromAddr) :
    (l.set p b).WF := by
  have hget : ∀ q, (l.set p b).get q = if q = p then b else l.get q := fun q => by
    simp [get_set, w.lt_size p hp]
  refine ⟨by simpa using w.nodup, by simpa using w.lt_size, ?le, ?disjoint, ?next, ?prev⟩
  case le =>
    intro q hq
    rw [hget]
    split_ifs
    · exact hle
    · exact w.le q (by simpa using hq)
  case disjoint =>
    intro q hq r hr hqr
    simp only [abl_set] at hq hr
    rw [hget, hget]
    split_ifs with h1 h2 h2
    · exact absurd (h1.trans h2.symm) hqr
    · exact hdisj r hr (h1 ▸ hqr).symm
    · exact (hdisj q hq h1).symm
    · exact w.disjoint q hq r hr hqr
  case next =>
    intro q hq r hqr
    simp only [abl_set] at hq ⊢
    rw [hget] at hqr
    split_ifs at hqr with hqp
    · -- the store keeps `p`'s right neighbour, which starts after the new range
      subst hqp
      obtain ⟨hr, hrp, hlt⟩ := w.next_link q hq r (hnext ▸ hqr)
      have hrq : r ≠ q := fun h => w.next_ne_self hq (by rw [← hnext, hqr, h])
      have := w.le r hr
      rw [hget, hget, if_neg hrq, if_pos rfl]
      refine ⟨hr, hrp, ?_⟩
      rcases hdisj r hr hrq with h | h
      · exact h
      · omega
    · obtain ⟨hr, hrp, hlt⟩ := w.next_link q hq r hqr
      rw [hget, hget, if_neg hqp]
      by_cases hrp' : r = p
      · -- `q` is `p`'s left neighbour, which ends before the new range
        subst hrp'
        have := w.le q hq
        rw [if_pos rfl, hprev]
        refine ⟨hr, hrp, ?_⟩
        rcases hdisj q hq hqp with h | h
        · omega
        · exact h
      · rw [if_neg hrp']
        exact ⟨hr, hrp, hlt⟩
  case prev =>
    intro q hq r hqr
    simp only [abl_set] at hq ⊢
    rw [hget] at hqr
    split_ifs at hqr with hqp
    · subst hqp
      obtain ⟨hr, hrq⟩ := w.prev_link q hq r (hprev ▸ hqr)
      have hne : r ≠ q := fun h => w.prev_ne_self hq (by rw [← hprev, hqr, h])
      rw [hget, if_neg hne]
      exact ⟨hr, hrq⟩
    · obtain ⟨hr, hrq⟩ := w.prev_link q hq r hqr
      rw [hget]
      split_ifs with hrp
      · subst hrp
        exact ⟨hr, hnext.trans hrq⟩
      · exact ⟨hr, hrq⟩

theorem avail_set_range {p : ℕ} (hp : p ∈ l.abl.toList) (b : LinkedBlock) (x : ℕ) :
    (l.set p b).Avail x ↔ (l.Avail x ∧ ¬(l.get p).within x = true) ∨ b.within x = true := by
  have hget : ∀ q, (l.set p b).get q = if q = p then b else l.get q := fun q => by
    simp [get_set, w.lt_size p hp]
  simp only [Avail, abl_set, hget]
  constructor
  · rintro ⟨q, hq, hx⟩
    split_ifs at hx with hqp
    · exact .inr hx
    · exact .inl ⟨⟨q, hq, hx⟩, fun hpx => hqp (w.eq_of_within hq hp hx hpx)⟩
  · rintro (⟨⟨q, hq, hx⟩, hpx⟩ | hx)
    · refine ⟨q, hq, ?_⟩
      rwa [if_neg (fun h : q = p => hpx (h ▸ hx))]
    · exact ⟨p, hp, by rwa [if_pos rfl]⟩

end WF

/-! ### `delete` -/

section Delete

variable {i q : ℕ}

theorem delete_eq : l.delete i =
    (((l.remove i).1.setNext (l.get (l.remove i).2).prev (l.get (l.remove i).2).next).setPrev
      (l.get (l.remove i).2).next (l.get (l.remove i).2).prev) := rfl

@[simp] theorem abl_delete : (l.delete i).abl = (l.remove i).1.abl := by simp [delete_eq]

@[simp] theorem size_delete : (l.delete i).mem.size = l.mem.size := by simp [delete_eq]

@[simp] theorem fromAddr_delete : ((l.delete i).get q).fromAddr = (l.get q).fromAddr := by
  simp [delete_eq]

@[simp] theorem toAddr_delete : ((l.delete i).get q).toAddr = (l.get q).toAddr := by
  simp [delete_eq]

theorem next_delete (hq : q < l.mem.size) : ((l.delete i).get q).next =
    if (l.get (l.remove i).2).prev = some q then (l.get (l.remove i).2).next
    else (l.get q).next := by
  simp [delete_eq, next_setNext, hq]

theorem prev_delete (hq : q < l.mem.size) : ((l.delete i).get q).prev =
    if (l.get (l.remove i).2).next = some q then (l.get (l.remove i).2).prev
    else (l.get q).prev := by
  simp [delete_eq, prev_setPrev, hq]

theorem getElem!_mem {i : ℕ} (hi : i < l.abl.size) : l.abl[i]! ∈ l.abl.toList := by
  rw [getElem!_pos l.abl i hi]
  exact Array.getElem_mem_toList hi

namespace WF

variable {l} (w : l.WF)
include w

/-- `delete` unlinks block `abl[i]`, and its two neighbours then link to each other. -/
theorem delete (hi : i < l.abl.size) : (l.delete i).WF := by
  set p := l.abl[i]! with hp_def
  have hp : p ∈ l.abl.toList := l.getElem!_mem hi
  have hsnd : (l.remove i).2 = p := l.remove_snd hi
  have hmem : ∀ q, q ∈ (l.delete i).abl.toList ↔ q ∈ l.abl.toList ∧ q ≠ p := fun q => by
    simpa using l.mem_remove w.nodup hi
  have hnext : ∀ q ∈ l.abl.toList, ((l.delete i).get q).next =
      if (l.get p).prev = some q then (l.get p).next else (l.get q).next := fun q hq => by
    rw [next_delete _ (w.lt_size q hq), hsnd]
  have hprev : ∀ q ∈ l.abl.toList, ((l.delete i).get q).prev =
      if (l.get p).next = some q then (l.get p).prev else (l.get q).prev := fun q hq => by
    rw [prev_delete _ (w.lt_size q hq), hsnd]
  refine ⟨?nodup, ?lt, ?le, ?disj, ?next, ?prev⟩
  case nodup => simpa using l.nodup_remove w.nodup hi
  case lt => intro q hq; simpa using w.lt_size q ((hmem q).mp hq).1
  case le => intro q hq; simpa using w.le q ((hmem q).mp hq).1
  case disj =>
    intro q hq r hr hqr
    simpa using w.disjoint q ((hmem q).mp hq).1 r ((hmem r).mp hr).1 hqr
  case next =>
    intro q hq r hqr
    obtain ⟨hq, hqp⟩ := (hmem q).mp hq
    rw [hnext q hq] at hqr
    simp only [hmem, fromAddr_delete, toAddr_delete]
    split_ifs at hqr with hpq
    · -- `q` was the left neighbour of `p`, and now links to its right one
      obtain ⟨hr, hrp, hlt⟩ := w.next_link p hp r hqr
      have hrp' : r ≠ p := fun h => w.next_ne_self hp (h ▸ hqr)
      refine ⟨⟨hr, hrp'⟩, by rw [hprev r hr, if_pos hqr, hpq], ?_⟩
      have := w.lt_of_prev hp hpq
      have := w.le p hp
      omega
    · obtain ⟨hr, hrq, hlt⟩ := w.next_link q hq r hqr
      have hrp : r ≠ p := fun h => hpq (h ▸ hrq)
      refine ⟨⟨hr, hrp⟩, ?_, hlt⟩
      rw [hprev r hr, if_neg]
      · exact hrq
      · -- the right neighbour of `p` has `p` as its left one, not `q`
        intro hpr
        exact hqp (Option.some.inj (hrq.symm.trans (w.next_link p hp r hpr).2.1))
  case prev =>
    intro q hq r hqr
    obtain ⟨hq, hqp⟩ := (hmem q).mp hq
    rw [hprev q hq] at hqr
    simp only [hmem]
    split_ifs at hqr with hpq
    · -- `q` was the right neighbour of `p`, and now links back to its left one
      obtain ⟨hr, hrp⟩ := w.prev_link p hp r hqr
      have hrp' : r ≠ p := fun h => w.prev_ne_self hp (h ▸ hqr)
      exact ⟨⟨hr, hrp'⟩, by rw [hnext r hr, if_pos hqr, hpq]⟩
    · obtain ⟨hr, hrq⟩ := w.prev_link q hq r hqr
      have hrp : r ≠ p := fun h => hpq (h ▸ hrq)
      refine ⟨⟨hr, hrp⟩, ?_⟩
      rw [hnext r hr, if_neg]
      · exact hrq
      · intro hpr
        exact hqp (Option.some.inj (hrq.symm.trans (w.prev_link p hp r hpr).2))

theorem avail_delete (hi : i < l.abl.size) (x : ℕ) :
    (l.delete i).Avail x ↔ l.Avail x ∧ ¬(l.get l.abl[i]!).within x = true := by
  have hp := l.getElem!_mem hi
  simp only [Avail, abl_delete, l.mem_remove w.nodup hi, LinkedBlock.within_iff, fromAddr_delete,
    toAddr_delete]
  constructor
  · rintro ⟨q, ⟨hq, hqp⟩, hx⟩
    exact ⟨⟨q, hq, hx⟩, fun hpx =>
      hqp (w.eq_of_within (x := x) hq hp (by simpa using hx) (by simpa using hpx))⟩
  · rintro ⟨⟨q, hq, hx⟩, hpx⟩
    exact ⟨q, ⟨hq, fun h => hpx (h ▸ hx)⟩, hx⟩

end WF

end Delete

/-! ### `insert` -/

section Insert

variable {left right : Option ℕ} {ip q : ℕ}

theorem insert_eq : l.insert left right ip =
    ((({ l with mem := l.mem.push ⟨ip, ip, 1, left, right⟩ } : BlockList).setNext left
      (some l.mem.size)).setPrev right (some l.mem.size)).push l.mem.size := rfl

theorem mem_insert :
    q ∈ (l.insert left right ip).abl.toList ↔ q ∈ l.abl.toList ∨ q = l.mem.size := by
  rw [insert_eq, mem_push]
  simp

@[simp] theorem size_insert : (l.insert left right ip).mem.size = l.mem.size + 1 := by
  simp [insert_eq]

theorem get_insert_self (hl : left ≠ some l.mem.size) (hr : right ≠ some l.mem.size) :
    (l.insert left right ip).get l.mem.size = ⟨ip, ip, 1, left, right⟩ := by
  simp [insert_eq, get_setNext, get_setPrev, get_mem_push, hl, hr]

theorem fromAddr_insert (hq : q ≠ l.mem.size) :
    ((l.insert left right ip).get q).fromAddr = (l.get q).fromAddr := by
  simp [insert_eq, get_mem_push, hq]

theorem toAddr_insert (hq : q ≠ l.mem.size) :
    ((l.insert left right ip).get q).toAddr = (l.get q).toAddr := by
  simp [insert_eq, get_mem_push, hq]

theorem next_insert (hq : q < l.mem.size) : ((l.insert left right ip).get q).next =
    if left = some q then some l.mem.size else (l.get q).next := by
  simp [insert_eq, next_setNext, get_mem_push, hq.ne, Nat.lt_succ_of_lt hq]

theorem prev_insert (hq : q < l.mem.size) : ((l.insert left right ip).get q).prev =
    if right = some q then some l.mem.size else (l.get q).prev := by
  simp [insert_eq, prev_setPrev, get_mem_push, hq.ne, Nat.lt_succ_of_lt hq]

namespace WF

variable {l} (w : l.WF)
include w

/-- `insert` links a block of `ip` alone between `left` and `right`, two neighbours with no
available address between them but `ip`. -/
theorem insert (hip : ¬l.Avail ip)
    (hleft : ∀ p, left = some p →
      p ∈ l.abl.toList ∧ (l.get p).next = right ∧ (l.get p).toAddr < ip)
    (hright : ∀ p, right = some p →
      p ∈ l.abl.toList ∧ (l.get p).prev = left ∧ ip < (l.get p).fromAddr) :
    (l.insert left right ip).WF := by
  have hs : ∀ q ∈ l.abl.toList, q < l.mem.size := w.lt_size
  have hnew : (l.insert left right ip).get l.mem.size = ⟨ip, ip, 1, left, right⟩ :=
    l.get_insert_self (fun h => Nat.lt_irrefl _ (hs _ (hleft _ h).1))
      (fun h => Nat.lt_irrefl _ (hs _ (hright _ h).1))
  have hfrom : ∀ q ∈ l.abl.toList, ((l.insert left right ip).get q).fromAddr = (l.get q).fromAddr :=
    fun q hq => l.fromAddr_insert (hs q hq).ne
  have hto : ∀ q ∈ l.abl.toList, ((l.insert left right ip).get q).toAddr = (l.get q).toAddr :=
    fun q hq => l.toAddr_insert (hs q hq).ne
  have hnx : ∀ q ∈ l.abl.toList, ((l.insert left right ip).get q).next =
      if left = some q then some l.mem.size else (l.get q).next := fun q hq => l.next_insert (hs q hq)
  have hpv : ∀ q ∈ l.abl.toList, ((l.insert left right ip).get q).prev =
      if right = some q then some l.mem.size else (l.get q).prev :=
    fun q hq => l.prev_insert (hs q hq)
  -- no block holds `ip`, so each lies on one side of it
  have hout : ∀ q ∈ l.abl.toList, (l.get q).toAddr < ip ∨ ip < (l.get q).fromAddr := by
    intro q hq
    by_contra h
    exact hip ⟨q, hq, by simp only [LinkedBlock.within_iff]; omega⟩
  refine ⟨?nodup, ?lt, ?le, ?disj, ?next, ?prev⟩
  case nodup =>
    rw [insert_eq]
    exact nodup_push _ (by simpa using w.nodup) (by simpa using fun h => Nat.lt_irrefl _ (hs _ h))
  case lt =>
    intro q hq
    rcases l.mem_insert.mp hq with hq | rfl
    · have := hs q hq
      simp only [size_insert]
      omega
    · simp
  case le =>
    intro q hq
    rcases l.mem_insert.mp hq with hq | rfl
    · rw [hfrom q hq, hto q hq]
      exact w.le q hq
    · rw [hnew]
  case disj =>
    intro q hq r hr hqr
    rcases l.mem_insert.mp hq with hq | rfl <;> rcases l.mem_insert.mp hr with hr | rfl
    · rw [hfrom q hq, hto q hq, hfrom r hr, hto r hr]
      exact w.disjoint q hq r hr hqr
    · rw [hfrom q hq, hto q hq, hnew]
      exact hout q hq
    · rw [hfrom r hr, hto r hr, hnew]
      exact (hout r hr).symm
    · exact absurd rfl hqr
  case next =>
    intro q hq r hqr
    rw [mem_insert]
    rcases l.mem_insert.mp hq with hq | rfl
    · rw [hnx q hq] at hqr
      split_ifs at hqr with hlq
      · -- `q` is `left`, whose right neighbour is now the new block
        cases hqr
        refine ⟨.inr rfl, by rw [hnew, hlq], ?_⟩
        rw [hto q hq, hnew]
        exact (hleft q hlq).2.2
      · obtain ⟨hr, hrq, hlt⟩ := w.next_link q hq r hqr
        refine ⟨.inl hr, ?_, by rwa [hto q hq, hfrom r hr]⟩
        rw [hpv r hr, if_neg]
        · exact hrq
        · -- the left neighbour of `right` is `left`, not `q`
          intro hrr
          exact hlq ((hright r hrr).2.1.symm.trans hrq)
    · rw [hnew] at hqr
      obtain ⟨hr, -, hlt⟩ := hright r hqr
      exact ⟨.inl hr, by rw [hpv r hr, if_pos hqr], by rw [hnew, hfrom r hr]; exact hlt⟩
  case prev =>
    intro q hq r hqr
    rw [mem_insert]
    rcases l.mem_insert.mp hq with hq | rfl
    · rw [hpv q hq] at hqr
      split_ifs at hqr with hrq
      · cases hqr
        exact ⟨.inr rfl, by rw [hnew, hrq]⟩
      · obtain ⟨hr, hrq'⟩ := w.prev_link q hq r hqr
        refine ⟨.inl hr, ?_⟩
        rw [hnx r hr, if_neg]
        · exact hrq'
        · intro hlr
          exact hrq ((hleft r hlr).2.1.symm.trans hrq')
    · rw [hnew] at hqr
      obtain ⟨hr, -, -⟩ := hleft r hqr
      exact ⟨.inl hr, by rw [hnx r hr, if_pos hqr]⟩

theorem avail_insert (hl : left ≠ some l.mem.size) (hr : right ≠ some l.mem.size) (x : ℕ) :
    (l.insert left right ip).Avail x ↔ l.Avail x ∨ x = ip := by
  have hwithin : ∀ q ∈ l.abl.toList,
      ((l.insert left right ip).get q).within x = (l.get q).within x := fun q hq => by
    simp only [LinkedBlock.within, l.fromAddr_insert (w.lt_size q hq).ne,
      l.toAddr_insert (w.lt_size q hq).ne]
  simp only [Avail, mem_insert]
  constructor
  · rintro ⟨q, hq | rfl, hx⟩
    · exact .inl ⟨q, hq, hwithin q hq ▸ hx⟩
    · rw [l.get_insert_self hl hr] at hx
      simp only [LinkedBlock.within_iff] at hx
      exact .inr (by omega)
  · rintro (⟨q, hq, hx⟩ | rfl)
    · exact ⟨q, .inl hq, (hwithin q hq).symm ▸ hx⟩
    · exact ⟨_, .inr rfl, by simp [l.get_insert_self hl hr]⟩

end WF

end Insert

/-! ### `merge` -/

section Merge

variable {left right p q : ℕ}

theorem idxOf_lt_size (hp : p ∈ l.abl.toList) : l.abl.toList.idxOf p < l.abl.size := by
  simpa using List.idxOf_lt_length_iff.mpr hp

/-- `heap.Remove` at `slices.Index` of a pointer removes that pointer. -/
theorem mem_remove_idxOf (hnd : l.abl.toList.Nodup) (hp : p ∈ l.abl.toList) :
    q ∈ (l.remove (l.abl.toList.idxOf p)).1.abl.toList ↔ q ∈ l.abl.toList ∧ q ≠ p := by
  have hi := l.idxOf_lt_size hp
  have hget : l.abl[l.abl.toList.idxOf p]! = p := by
    rw [getElem!_pos l.abl _ hi, ← Array.getElem_toList]
    exact List.getElem_idxOf _
  have := l.mem_remove (q := q) hnd hi
  rwa [hget] at this

theorem nodup_remove_idxOf (hnd : l.abl.toList.Nodup) (hp : p ∈ l.abl.toList) :
    (l.remove (l.abl.toList.idxOf p)).1.abl.toList.Nodup :=
  l.nodup_remove hnd (l.idxOf_lt_size hp)

theorem merge_eq : l.merge left right =
    let l1 : BlockList := (({ l with mem := l.mem.push (LinkedBlock.calcSize
        ⟨(l.get left).fromAddr, (l.get right).toAddr, 0, (l.get left).prev, (l.get right).next⟩) } :
        BlockList).setNext (l.get left).prev (some l.mem.size)).setPrev (l.get right).next
        (some l.mem.size)
    let l2 := (l1.remove (l1.abl.toList.idxOf left)).1
    (l2.remove (l2.abl.toList.idxOf right)).1.push l.mem.size := rfl

/-- The heap steps at the end of `merge`, on any list with the heap of `l`: both blocks leave it
and the merged one enters. -/
theorem remove_remove_push {l1 : BlockList} (habl : l1.abl = l.abl) (hnd : l.abl.toList.Nodup)
    (hl : left ∈ l.abl.toList) (hr : right ∈ l.abl.toList) (hlr : left ≠ right) (m : ℕ) :
    let l2 := (l1.remove (l1.abl.toList.idxOf left)).1
    let l3 := (l2.remove (l2.abl.toList.idxOf right)).1.push m
    (∀ q, q ∈ l3.abl.toList ↔ (q ∈ l.abl.toList ∧ q ≠ left ∧ q ≠ right) ∨ q = m) ∧
      (m ∉ l.abl.toList → l3.abl.toList.Nodup) := by
  intro l2 l3
  rw [← habl] at hnd hl hr
  have h1 := fun q => l1.mem_remove_idxOf (q := q) hnd hl
  have hnd2 : l2.abl.toList.Nodup := l1.nodup_remove_idxOf hnd hl
  have hr2 : right ∈ l2.abl.toList := (h1 right).mpr ⟨hr, Ne.symm hlr⟩
  have h2 := fun q => l2.mem_remove_idxOf (q := q) hnd2 hr2
  refine ⟨fun q => ?_, fun hm => nodup_push _ (l2.nodup_remove_idxOf hnd2 hr2) ?_⟩
  · rw [mem_push, h2, h1, habl, and_assoc]
  · rw [h2, h1, habl]
    exact fun h => hm h.1.1

theorem mem_merge (hnd : l.abl.toList.Nodup) (hl : left ∈ l.abl.toList)
    (hr : right ∈ l.abl.toList) (hlr : left ≠ right) :
    q ∈ (l.merge left right).abl.toList ↔
      (q ∈ l.abl.toList ∧ q ≠ left ∧ q ≠ right) ∨ q = l.mem.size := by
  rw [merge_eq]
  exact (l.remove_remove_push (by simp) hnd hl hr hlr _).1 q

theorem nodup_merge (hnd : l.abl.toList.Nodup) (hl : left ∈ l.abl.toList)
    (hr : right ∈ l.abl.toList) (hlr : left ≠ right) (hs : l.mem.size ∉ l.abl.toList) :
    (l.merge left right).abl.toList.Nodup := by
  rw [merge_eq]
  exact (l.remove_remove_push (by simp) hnd hl hr hlr _).2 hs

@[simp] theorem size_merge : (l.merge left right).mem.size = l.mem.size + 1 := by
  simp [merge_eq]

theorem get_merge_self (hl : (l.get left).prev ≠ some l.mem.size)
    (hr : (l.get right).next ≠ some l.mem.size) :
    (l.merge left right).get l.mem.size = LinkedBlock.calcSize
      ⟨(l.get left).fromAddr, (l.get right).toAddr, 0, (l.get left).prev, (l.get right).next⟩ := by
  simp [merge_eq, get_setNext, get_setPrev, get_mem_push, hl, hr]

theorem fromAddr_merge (hq : q ≠ l.mem.size) :
    ((l.merge left right).get q).fromAddr = (l.get q).fromAddr := by
  simp [merge_eq, get_mem_push, hq]

theorem toAddr_merge (hq : q ≠ l.mem.size) :
    ((l.merge left right).get q).toAddr = (l.get q).toAddr := by
  simp [merge_eq, get_mem_push, hq]

theorem next_merge (hq : q < l.mem.size) : ((l.merge left right).get q).next =
    if (l.get left).prev = some q then some l.mem.size else (l.get q).next := by
  simp [merge_eq, next_setNext, get_mem_push, hq.ne, Nat.lt_succ_of_lt hq]

theorem prev_merge (hq : q < l.mem.size) : ((l.merge left right).get q).prev =
    if (l.get right).next = some q then some l.mem.size else (l.get q).prev := by
  simp [merge_eq, prev_setPrev, get_mem_push, hq.ne, Nat.lt_succ_of_lt hq]

namespace WF

variable {l} (w : l.WF)
include w

/-- No two blocks are each other's right neighbour. -/
theorem not_next_cycle (hp : p ∈ l.abl.toList) (hpq : (l.get p).next = some q)
    (hqp : (l.get q).next = some p) : False := by
  have h1 := w.next_link p hp q hpq
  have h2 := (w.next_link q h1.1 p hqp).2.2
  have := w.le p hp
  have := w.le q h1.1
  omega

/-- `merge` replaces two neighbours that meet by one block of both ranges, linked to their outer
neighbours. -/
theorem merge (hl : left ∈ l.abl.toList) (hn : (l.get left).next = some right)
    (hadj : (l.get left).toAddr + 1 = (l.get right).fromAddr) : (l.merge left right).WF := by
  obtain ⟨hr, -, -⟩ := w.next_link left hl right hn
  have hlr : left ≠ right := fun h => w.next_ne_self hl (by rw [hn, h])
  have hs : ∀ q ∈ l.abl.toList, q < l.mem.size := w.lt_size
  have hnew := l.get_merge_self (fun h => Nat.lt_irrefl _ (hs _ (w.prev_link left hl _ h).1))
    (fun h => Nat.lt_irrefl _ (hs _ (w.next_link right hr _ h).1))
  have hfrom : ∀ q ∈ l.abl.toList, ((l.merge left right).get q).fromAddr = (l.get q).fromAddr :=
    fun q hq => l.fromAddr_merge (hs q hq).ne
  have hto : ∀ q ∈ l.abl.toList, ((l.merge left right).get q).toAddr = (l.get q).toAddr :=
    fun q hq => l.toAddr_merge (hs q hq).ne
  have hnx : ∀ q ∈ l.abl.toList, ((l.merge left right).get q).next =
      if (l.get left).prev = some q then some l.mem.size else (l.get q).next :=
    fun q hq => l.next_merge (hs q hq)
  have hpv : ∀ q ∈ l.abl.toList, ((l.merge left right).get q).prev =
      if (l.get right).next = some q then some l.mem.size else (l.get q).prev :=
    fun q hq => l.prev_merge (hs q hq)
  have hmem := fun q => l.mem_merge (q := q) w.nodup hl hr hlr
  -- every other block lies wholly before `left` or wholly after `right`
  have hout : ∀ q ∈ l.abl.toList, q ≠ left → q ≠ right →
      (l.get q).toAddr < (l.get left).fromAddr ∨ (l.get right).toAddr < (l.get q).fromAddr := by
    intro q hq hql hqr
    have := w.disjoint q hq left hl hql
    have := w.disjoint q hq right hr hqr
    have := w.le q hq
    omega
  refine ⟨?nodup, ?lt, ?le, ?disj, ?next, ?prev⟩
  case nodup => exact l.nodup_merge w.nodup hl hr hlr (fun h => Nat.lt_irrefl _ (hs _ h))
  case lt =>
    intro q hq
    rcases (hmem q).mp hq with ⟨hq, -⟩ | rfl
    · have := hs q hq
      simp only [size_merge]
      omega
    · simp
  case le =>
    intro q hq
    rcases (hmem q).mp hq with ⟨hq, -⟩ | rfl
    · rw [hfrom q hq, hto q hq]
      exact w.le q hq
    · have := w.le left hl
      have := w.le right hr
      simp only [hnew, LinkedBlock.calcSize_fromAddr, LinkedBlock.calcSize_toAddr]
      omega
  case disj =>
    intro q hq r hr' hqr
    rcases (hmem q).mp hq with ⟨hq, hql, hqr'⟩ | rfl <;>
      rcases (hmem r).mp hr' with ⟨hr', hrl, hrr⟩ | rfl
    · rw [hfrom q hq, hto q hq, hfrom r hr', hto r hr']
      exact w.disjoint q hq r hr' hqr
    · rw [hfrom q hq, hto q hq, hnew]
      exact hout q hq hql hqr'
    · rw [hfrom r hr', hto r hr', hnew]
      exact (hout r hr' hrl hrr).symm
    · exact absurd rfl hqr
  case next =>
    intro q hq r hqr
    rw [hmem r]
    rcases (hmem q).mp hq with ⟨hq, hql, hqr'⟩ | rfl
    · rw [hnx q hq] at hqr
      split_ifs at hqr with hLq
      · -- `q` is the left neighbour of `left`, and now links to the merged block
        cases hqr
        refine ⟨.inr rfl, by rw [hnew, LinkedBlock.calcSize_prev, hLq], ?_⟩
        rw [hto q hq, hnew, LinkedBlock.calcSize_fromAddr]
        exact w.lt_of_prev hl hLq
      · obtain ⟨hr', hrq, hlt⟩ := w.next_link q hq r hqr
        have hrl : r ≠ left := fun h => hLq (by rw [← h]; exact hrq)
        have hrr : r ≠ right := fun h => hql (w.next_inj hq hl hqr (by rw [h]; exact hn))
        refine ⟨.inl ⟨hr', hrl, hrr⟩, ?_, by rwa [hto q hq, hfrom r hr']⟩
        rw [hpv r hr', if_neg]
        · exact hrq
        · -- the right neighbour of `right` has `right` on its left, not `q`
          intro hRr
          exact hqr' (Option.some.inj ((w.next_link right hr r hRr).2.1.symm.trans hrq)).symm
    · -- the merged block's right neighbour is that of `right`
      rw [hnew, LinkedBlock.calcSize_next] at hqr
      obtain ⟨hr', -, hlt⟩ := w.next_link right hr r hqr
      have hrl : r ≠ left := fun h => w.not_next_cycle hl hn (by rw [← h]; exact hqr)
      have hrr : r ≠ right := fun h => w.next_ne_self hr (by rw [hqr, h])
      refine ⟨.inl ⟨hr', hrl, hrr⟩, by rw [hpv r hr', if_pos hqr], ?_⟩
      rw [hnew, hfrom r hr', LinkedBlock.calcSize_toAddr]
      exact hlt
  case prev =>
    intro q hq r hqr
    rw [hmem r]
    rcases (hmem q).mp hq with ⟨hq, hql, hqr'⟩ | rfl
    · rw [hpv q hq] at hqr
      split_ifs at hqr with hRq
      · -- `q` is the right neighbour of `right`, and now links back to the merged block
        cases hqr
        exact ⟨.inr rfl, by rw [hnew, LinkedBlock.calcSize_next, hRq]⟩
      · obtain ⟨hr', hrq⟩ := w.prev_link q hq r hqr
        have hrl : r ≠ left := fun h =>
          hqr' (Option.some.inj ((show (l.get left).next = some q by rw [← h]; exact hrq).symm.trans hn))
        have hrr : r ≠ right := fun h => hRq (by rw [← h]; exact hrq)
        refine ⟨.inl ⟨hr', hrl, hrr⟩, ?_⟩
        rw [hnx r hr', if_neg]
        · exact hrq
        · -- the left neighbour of `left` has `left` on its right, not `q`
          intro hLr
          exact hql (Option.some.inj (hrq.symm.trans (w.prev_link left hl r hLr).2))
    · rw [hnew, LinkedBlock.calcSize_prev] at hqr
      obtain ⟨hr', hrL⟩ := w.prev_link left hl r hqr
      have hrl : r ≠ left := fun h => w.prev_ne_self hl (by rw [hqr, h])
      have hrr : r ≠ right := fun h => w.not_next_cycle hl hn (by rw [← h]; exact hrL)
      exact ⟨.inl ⟨hr', hrl, hrr⟩, by rw [hnx r hr', if_pos hqr]⟩

theorem avail_merge (hl : left ∈ l.abl.toList) (hn : (l.get left).next = some right)
    (hadj : (l.get left).toAddr + 1 = (l.get right).fromAddr) (x : ℕ) :
    (l.merge left right).Avail x ↔ l.Avail x := by
  obtain ⟨hr, -, -⟩ := w.next_link left hl right hn
  have hlr : left ≠ right := fun h => w.next_ne_self hl (by rw [hn, h])
  have hnew := l.get_merge_self (fun h => Nat.lt_irrefl _ (w.lt_size _ (w.prev_link left hl _ h).1))
    (fun h => Nat.lt_irrefl _ (w.lt_size _ (w.next_link right hr _ h).1))
  have hwithin : ∀ q ∈ l.abl.toList,
      ((l.merge left right).get q).within x = (l.get q).within x := fun q hq => by
    simp only [LinkedBlock.within, l.fromAddr_merge (w.lt_size q hq).ne,
      l.toAddr_merge (w.lt_size q hq).ne]
  have hl' := w.le left hl
  have hr' := w.le right hr
  simp only [Avail, l.mem_merge w.nodup hl hr hlr]
  constructor
  · rintro ⟨q, ⟨hq, -, -⟩ | rfl, hx⟩
    · exact ⟨q, hq, hwithin q hq ▸ hx⟩
    · -- the merged range is the two ranges side by side
      simp only [hnew, LinkedBlock.within_iff, LinkedBlock.calcSize_fromAddr,
        LinkedBlock.calcSize_toAddr] at hx
      by_cases hxl : x ≤ (l.get left).toAddr
      · exact ⟨left, hl, by simp only [LinkedBlock.within_iff]; omega⟩
      · exact ⟨right, hr, by simp only [LinkedBlock.within_iff]; omega⟩
  · rintro ⟨q, hq, hx⟩
    by_cases hq' : q = left ∨ q = right
    · refine ⟨_, .inr rfl, ?_⟩
      simp only [hnew, LinkedBlock.within_iff, LinkedBlock.calcSize_fromAddr,
        LinkedBlock.calcSize_toAddr]
      rw [LinkedBlock.within_iff] at hx
      rcases hq' with rfl | rfl <;> omega
    · exact ⟨q, .inl ⟨hq, not_or.mp hq'⟩, (hwithin q hq).symm ▸ hx⟩

end WF

end Merge

end BlockList

end Cilium.Ipalloc
