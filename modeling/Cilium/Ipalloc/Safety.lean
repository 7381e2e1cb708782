import Cilium.Ipalloc.Blocks
import Cilium.Lib.Trace

/-! `take` and `put` on available blocks of the shape `BlockList.WF`: `take ip` fails exactly when
no block holds `ip`, and otherwise removes `ip` and nothing else; `put ip` of an address no block
holds adds it and nothing else.  From these, the allocator's invariant over every run from
`NewHashAllocator`: the blocks hold exactly the addresses of the range that are not allocated.
The heap order is not part of it (`free_breaks_heap_order` shows that it can break), and nothing
here rests on it. -/

namespace Cilium.Ipalloc

namespace BlockList

variable {l : BlockList} {ip : ℕ}

/-- With an address available, the heap is not empty. -/
theorem size_pos_of_avail (h : l.Avail ip) : 0 < l.abl.size := by
  obtain ⟨p, hp, -⟩ := h
  have : 0 < l.abl.toList.length := List.length_pos_of_mem hp
  simpa using this

theorem take_of_not_avail (h : ¬l.Avail ip) : l.take ip = .error .inUse := by
  have hnone : l.abl.toList.findIdx? (fun p => (l.get p).within ip) = none :=
    List.findIdx?_eq_none_iff.mpr fun p hp => Bool.eq_false_iff.mpr fun hw => h ⟨p, hp, hw⟩
  simp only [take, hnone]

namespace WF

variable (w : l.WF)
include w

/-- A store into block `p` of a range that is `p`'s without `ip`. -/
theorem avail_set_shrink {p : ℕ} (hp : p ∈ l.abl.toList) (hip : (l.get p).within ip = true)
    {b : LinkedBlock} (hb : ∀ x, b.within x = true ↔ (l.get p).within x = true ∧ x ≠ ip) (x : ℕ) :
    (l.set p b).Avail x ↔ l.Avail x ∧ x ≠ ip := by
  rw [w.avail_set_range hp, hb]
  constructor
  · rintro (⟨ha, hx⟩ | ⟨hx, hne⟩)
    · exact ⟨ha, fun h => hx (h ▸ hip)⟩
    · exact ⟨⟨p, hp, hx⟩, hne⟩
  · rintro ⟨ha, hne⟩
    by_cases hx : (l.get p).within x = true
    · exact .inr ⟨hx, hne⟩
    · exact .inl ⟨ha, hx⟩

/-- A store into block `p` of a range that is `p`'s with `ip`. -/
theorem avail_set_grow {p : ℕ} (hp : p ∈ l.abl.toList) {b : LinkedBlock}
    (hb : ∀ x, b.within x = true ↔ (l.get p).within x = true ∨ x = ip) (x : ℕ) :
    (l.set p b).Avail x ↔ l.Avail x ∨ x = ip := by
  rw [w.avail_set_range hp, hb]
  constructor
  · rintro (⟨ha, -⟩ | hx | hx)
    · exact .inl ha
    · exact .inl ⟨p, hp, hx⟩
    · exact .inr hx
  · rintro (ha | hx)
    · by_cases hpx : (l.get p).within x = true
      · exact .inr (.inl hpx)
      · exact .inl ⟨ha, hpx⟩
    · exact .inr (.inr hx)

/-- The split in `take`: block `abl[index]` loses `ip` from its inside, and its two sides become
two new blocks, linked to each other and to its neighbours. -/
theorem take_split {index : ℕ} (hi : index < l.abl.size)
    (hlo : (l.get l.abl[index]!).fromAddr < ip) (hhi : ip < (l.get l.abl[index]!).toAddr) :
    let b := l.get l.abl[index]!
    let l1 := (l.remove index).1
    let S := (((({ l1 with mem := (l1.mem.push (LinkedBlock.calcSize
        ⟨b.fromAddr, ip - 1, 0, b.prev, some (l1.mem.size + 1)⟩)).push (LinkedBlock.calcSize
        ⟨ip + 1, b.toAddr, 0, some l1.mem.size, b.next⟩) } : BlockList).setNext b.prev
        (some l1.mem.size)).setPrev b.next (some (l1.mem.size + 1))).push l1.mem.size).push
        (l1.mem.size + 1)
    S.WF ∧ ∀ x, S.Avail x ↔ l.Avail x ∧ x ≠ ip := by
  intro b l1 S
  have hp : l.abl[index]! ∈ l.abl.toList := l.getElem!_mem hi
  have hs : ∀ q ∈ l.abl.toList, q < l.mem.size := w.lt_size
  have hLL : b.prev ≠ some l.mem.size ∧ b.prev ≠ some (l.mem.size + 1) := by
    constructor <;> intro h <;> have := hs _ (w.prev_link _ hp _ h).1 <;> omega
  have hRR : b.next ≠ some l.mem.size ∧ b.next ≠ some (l.mem.size + 1) := by
    constructor <;> intro h <;> have := hs _ (w.next_link _ hp _ h).1 <;> omega
  have hmem : ∀ q, q ∈ S.abl.toList ↔
      (q ∈ l.abl.toList ∧ q ≠ l.abl[index]!) ∨ q = l.mem.size ∨ q = l.mem.size + 1 := by
    intro q
    simp only [S, l1, mem_push, abl_setPrev, abl_setNext, l.mem_remove w.nodup hi, mem_remove_mem,
      or_assoc]
  have hL : S.get l.mem.size =
      LinkedBlock.calcSize ⟨b.fromAddr, ip - 1, 0, b.prev, some (l.mem.size + 1)⟩ := by
    simp only [S, l1, get_push, get_setPrev, get_setNext, get_mem_push_push]
    simp [hLL.1, hRR.1]
  have hR : S.get (l.mem.size + 1) =
      LinkedBlock.calcSize ⟨ip + 1, b.toAddr, 0, some l.mem.size, b.next⟩ := by
    simp only [S, l1, get_push, get_setPrev, get_setNext, get_mem_push_push]
    simp [hLL.2, hRR.2]
  have hold : ∀ q ∈ l.abl.toList, (S.get q).fromAddr = (l.get q).fromAddr ∧
      (S.get q).toAddr = (l.get q).toAddr ∧
      (S.get q).next = (if b.prev = some q then some l.mem.size else (l.get q).next) ∧
      (S.get q).prev = (if b.next = some q then some (l.mem.size + 1) else (l.get q).prev) := by
    intro q hq
    have := hs q hq
    simp only [S, l1, get_push, fromAddr_setPrev, fromAddr_setNext, toAddr_setPrev, toAddr_setNext,
      next_setPrev, next_setNext, prev_setPrev, prev_setNext, get_mem_push_push]
    simp [show q ≠ l.mem.size by omega, show q ≠ l.mem.size + 1 by omega,
      show q < l.mem.size + 1 + 1 by omega]
  -- every other block lies wholly on one side of `b`
  have hside : ∀ q ∈ l.abl.toList, q ≠ l.abl[index]! →
      (l.get q).toAddr < b.fromAddr ∨ b.toAddr < (l.get q).fromAddr :=
    fun q hq hqp => w.disjoint q hq _ hp hqp
  have hlo' : b.fromAddr < ip := hlo
  have hhi' : ip < b.toAddr := hhi
  have hbl : b.fromAddr ≤ b.toAddr := w.le _ hp
  refine ⟨⟨?nodup, ?lt, ?le, ?disj, ?next, ?prev⟩, ?avail⟩
  case nodup =>
    refine nodup_push _ (nodup_push _ (by simpa using l.nodup_remove w.nodup hi) ?_) ?_
    · simp only [l1, abl_setPrev, abl_setNext, mem_remove_mem, l.mem_remove w.nodup hi]
      exact fun h => Nat.lt_irrefl _ (hs _ h.1)
    · simp only [l1, mem_push, abl_setPrev, abl_setNext, mem_remove_mem, l.mem_remove w.nodup hi]
      rintro (h | h)
      · have := hs _ h.1
        omega
      · omega
  case lt =>
    intro q hq
    simp only [S, l1, mem_push_mem, size_setPrev, size_setNext, Array.size_push, mem_remove_mem]
    rcases (hmem q).mp hq with ⟨hq, -⟩ | rfl | rfl
    · have := hs q hq
      omega
    · omega
    · omega
  case le =>
    intro q hq
    rcases (hmem q).mp hq with ⟨hq, -⟩ | rfl | rfl
    · rw [(hold q hq).1, (hold q hq).2.1]
      exact w.le q hq
    · simp only [hL, LinkedBlock.calcSize_fromAddr, LinkedBlock.calcSize_toAddr]
      omega
    · simp only [hR, LinkedBlock.calcSize_fromAddr, LinkedBlock.calcSize_toAddr]
      omega
  case disj =>
    intro q hq r hr hqr
    -- the two sides lie where `b` lay, so every other block misses them
    have hnew : ∀ q ∈ l.abl.toList, q ≠ l.abl[index]! →
        ((S.get q).toAddr < (S.get l.mem.size).fromAddr ∨
          (S.get l.mem.size).toAddr < (S.get q).fromAddr) ∧
        ((S.get q).toAddr < (S.get (l.mem.size + 1)).fromAddr ∨
          (S.get (l.mem.size + 1)).toAddr < (S.get q).fromAddr) := by
      intro q hq hqp
      have := hside q hq hqp
      simp only [hL, hR, (hold q hq).1, (hold q hq).2.1, LinkedBlock.calcSize_fromAddr,
        LinkedBlock.calcSize_toAddr]
      omega
    have hLR : (S.get l.mem.size).toAddr < (S.get (l.mem.size + 1)).fromAddr := by
      simp only [hL, hR, LinkedBlock.calcSize_fromAddr, LinkedBlock.calcSize_toAddr]
      omega
    rcases (hmem q).mp hq with ⟨hq, hqp⟩ | rfl | rfl <;>
      rcases (hmem r).mp hr with ⟨hr, hrp⟩ | rfl | rfl
    · simpa only [(hold q hq).1, (hold q hq).2.1, (hold r hr).1, (hold r hr).2.1] using
        w.disjoint q hq r hr hqr
    · exact (hnew q hq hqp).1
    · exact (hnew q hq hqp).2
    · exact (hnew r hr hrp).1.symm
    · exact absurd rfl hqr
    · exact .inl hLR
    · exact (hnew r hr hrp).2.symm
    · exact .inr hLR
    · exact absurd rfl hqr
  case next =>
    intro q hq r hqr
    rw [hmem r]
    rcases (hmem q).mp hq with ⟨hq, hqp⟩ | rfl | rfl
    · rw [(hold q hq).2.2.1] at hqr
      split_ifs at hqr with hbq
      · -- `q` was the left neighbour of `b`, and now links to the left side
        cases hqr
        refine ⟨.inr (.inl rfl), by rw [hL, LinkedBlock.calcSize_prev, hbq], ?_⟩
        rw [(hold q hq).2.1, hL, LinkedBlock.calcSize_fromAddr]
        exact w.lt_of_prev hp hbq
      · obtain ⟨hr, hrq, hlt⟩ := w.next_link q hq r hqr
        have hrp : r ≠ l.abl[index]! := fun h => hbq (by rw [← hrq, h])
        refine ⟨.inl ⟨hr, hrp⟩, ?_, by rwa [(hold q hq).2.1, (hold r hr).1]⟩
        rw [(hold r hr).2.2.2, if_neg]
        · exact hrq
        · -- the right neighbour of `b` has `b` on its left, not `q`
          intro hbr
          exact hqp (Option.some.inj (hrq.symm.trans (w.next_link _ hp r hbr).2.1))
    · -- the left side links to the right side
      simp only [hL, LinkedBlock.calcSize_next, Option.some.injEq] at hqr
      subst hqr
      refine ⟨.inr (.inr rfl), by rw [hR, LinkedBlock.calcSize_prev], ?_⟩
      simp only [hL, hR, LinkedBlock.calcSize_fromAddr, LinkedBlock.calcSize_toAddr]
      omega
    · -- the right side links to the right neighbour of `b`
      simp only [hR, LinkedBlock.calcSize_next] at hqr
      obtain ⟨hr, -, hlt⟩ := w.next_link _ hp r hqr
      have hrp : r ≠ l.abl[index]! := fun h => w.next_ne_self hp (by rw [h] at hqr; exact hqr)
      refine ⟨.inl ⟨hr, hrp⟩, by rw [(hold r hr).2.2.2, if_pos hqr], ?_⟩
      rw [hR, (hold r hr).1, LinkedBlock.calcSize_toAddr]
      exact hlt
  case prev =>
    intro q hq r hqr
    rw [hmem r]
    rcases (hmem q).mp hq with ⟨hq, hqp⟩ | rfl | rfl
    · rw [(hold q hq).2.2.2] at hqr
      split_ifs at hqr with hbq
      · -- `q` was the right neighbour of `b`, and now links back to the right side
        cases hqr
        exact ⟨.inr (.inr rfl), by rw [hR, LinkedBlock.calcSize_next, hbq]⟩
      · obtain ⟨hr, hrq⟩ := w.prev_link q hq r hqr
        have hrp : r ≠ l.abl[index]! := fun h => hbq (by rw [← hrq, h])
        refine ⟨.inl ⟨hr, hrp⟩, ?_⟩
        rw [(hold r hr).2.2.1, if_neg]
        · exact hrq
        · intro hbr
          exact hqp (Option.some.inj (hrq.symm.trans (w.prev_link _ hp r hbr).2))
    · -- the left side links back to the left neighbour of `b`
      simp only [hL, LinkedBlock.calcSize_prev] at hqr
      obtain ⟨hr, -⟩ := w.prev_link _ hp r hqr
      have hrp : r ≠ l.abl[index]! := fun h => w.prev_ne_self hp (by rw [h] at hqr; exact hqr)
      exact ⟨.inl ⟨hr, hrp⟩, by rw [(hold r hr).2.2.1, if_pos hqr]⟩
    · simp only [hR, LinkedBlock.calcSize_prev, Option.some.injEq] at hqr
      subst hqr
      exact ⟨.inr (.inl rfl), by rw [hL, LinkedBlock.calcSize_next]⟩
  case avail =>
    intro x
    have hwb : ∀ q ∈ l.abl.toList, (S.get q).within x = (l.get q).within x := fun q hq => by
      simp only [LinkedBlock.within, (hold q hq).1, (hold q hq).2.1]
    have hip : (l.get l.abl[index]!).within ip = true := by
      simp only [LinkedBlock.within_iff]; omega
    simp only [Avail, hmem]
    constructor
    · rintro ⟨q, ⟨hq, hqp⟩ | rfl | rfl, hx⟩
      · rw [hwb q hq] at hx
        exact ⟨⟨q, hq, hx⟩, fun h => hqp (w.eq_of_within hq hp hx (h ▸ hip))⟩
      · simp only [hL, LinkedBlock.within_iff, LinkedBlock.calcSize_fromAddr,
          LinkedBlock.calcSize_toAddr] at hx
        exact ⟨⟨_, hp, show b.within x = true by simp only [LinkedBlock.within_iff]; omega⟩,
          by omega⟩
      · simp only [hR, LinkedBlock.within_iff, LinkedBlock.calcSize_fromAddr,
          LinkedBlock.calcSize_toAddr] at hx
        exact ⟨⟨_, hp, show b.within x = true by simp only [LinkedBlock.within_iff]; omega⟩,
          by omega⟩
    · rintro ⟨⟨q, hq, hx⟩, hne⟩
      by_cases hqp : q = l.abl[index]!
      · -- an address of `b` other than `ip` is in one of its sides
        subst hqp
        have hx : b.fromAddr ≤ x ∧ x ≤ b.toAddr := by rw [LinkedBlock.within_iff] at hx; exact hx
        by_cases hlt : x < ip
        · exact ⟨_, .inr (.inl rfl), by
            simp only [hL, LinkedBlock.within_iff, LinkedBlock.calcSize_fromAddr,
              LinkedBlock.calcSize_toAddr]; omega⟩
        · exact ⟨_, .inr (.inr rfl), by
            simp only [hR, LinkedBlock.within_iff, LinkedBlock.calcSize_fromAddr,
              LinkedBlock.calcSize_toAddr]; omega⟩
      · exact ⟨q, .inl ⟨hq, hqp⟩, by rwa [hwb q hq]⟩

/-- `take` of an available address succeeds, keeps the shape, and makes that address alone
unavailable. -/
theorem take (h : l.Avail ip) :
    ∃ l', l.take ip = .ok l' ∧ l'.WF ∧ ∀ x, l'.Avail x ↔ l.Avail x ∧ x ≠ ip := by
  -- the search finds the block that holds `ip`
  obtain ⟨index, hfind⟩ :
      ∃ index, l.abl.toList.findIdx? (fun p => (l.get p).within ip) = some index := by
    obtain ⟨p, hp, hw⟩ := h
    refine Option.ne_none_iff_exists'.mp fun hn => ?_
    have := List.findIdx?_eq_none_iff.mp hn p hp
    rw [hw] at this
    exact Bool.noConfusion this
  obtain ⟨hi, hwithin, -⟩ := List.findIdx?_eq_some_iff_getElem.mp hfind
  have hi' : index < l.abl.size := by simpa using hi
  have hpx : l.abl[index]! = l.abl.toList[index] := by
    rw [getElem!_pos l.abl index hi']
    simp
  rw [← hpx, LinkedBlock.within_iff] at hwithin
  have hp := l.getElem!_mem hi'
  have hle := w.le _ hp
  simp only [BlockList.take, hfind]
  split_ifs with h1 h2 h3 h4
  · -- `ip` is the only address of its block
    refine ⟨_, rfl, w.delete hi', fun x => ?_⟩
    rw [w.avail_delete hi', LinkedBlock.within_iff]
    exact and_congr_right fun _ => by omega
  · -- the block loses its first address
    refine ⟨_, rfl, (w.set_range hp ?_ ?_ ?_ ?_ ?_).fix _, fun x => ?_⟩
    · rfl
    · rfl
    · simp only [LinkedBlock.calcSize_fromAddr, LinkedBlock.calcSize_toAddr]
      omega
    · simp only [LinkedBlock.calcSize_fromAddr, LinkedBlock.calcSize_toAddr]
      omega
    · intro q hq hqp
      have := w.disjoint q hq _ hp hqp
      simp only [LinkedBlock.calcSize_fromAddr, LinkedBlock.calcSize_toAddr]
      omega
    · rw [BlockList.WF.avail_fix, w.avail_set_shrink hp (by simp only [LinkedBlock.within_iff]; omega)]
      intro y
      simp only [LinkedBlock.within_iff, LinkedBlock.calcSize_fromAddr, LinkedBlock.calcSize_toAddr]
      omega
  · -- the code's second test of a block of one address: `ip` would be its first
    omega
  · -- the block loses its last address
    refine ⟨_, rfl, (w.set_range hp ?_ ?_ ?_ ?_ ?_).fix _, fun x => ?_⟩
    · rfl
    · rfl
    · simp only [LinkedBlock.calcSize_fromAddr, LinkedBlock.calcSize_toAddr]
      omega
    · simp only [LinkedBlock.calcSize_fromAddr, LinkedBlock.calcSize_toAddr]
      omega
    · intro q hq hqp
      have := w.disjoint q hq _ hp hqp
      simp only [LinkedBlock.calcSize_fromAddr, LinkedBlock.calcSize_toAddr]
      omega
    · rw [BlockList.WF.avail_fix, w.avail_set_shrink hp (by simp only [LinkedBlock.within_iff]; omega)]
      intro y
      simp only [LinkedBlock.within_iff, LinkedBlock.calcSize_fromAddr, LinkedBlock.calcSize_toAddr]
      omega
  · -- `ip` is inside the block
    exact ⟨_, rfl, w.take_split hi' (by omega) (by omega)⟩

theorem insert_spec {left right : Option ℕ} (hip : ¬l.Avail ip)
    (hleft : ∀ p, left = some p →
      p ∈ l.abl.toList ∧ (l.get p).next = right ∧ (l.get p).toAddr < ip)
    (hright : ∀ p, right = some p →
      p ∈ l.abl.toList ∧ (l.get p).prev = left ∧ ip < (l.get p).fromAddr) :
    (l.insert left right ip).WF ∧ ∀ x, (l.insert left right ip).Avail x ↔ l.Avail x ∨ x = ip :=
  ⟨w.insert hip hleft hright, w.avail_insert (fun h => Nat.lt_irrefl _ (w.lt_size _ (hleft _ h).1))
    (fun h => Nat.lt_irrefl _ (w.lt_size _ (hright _ h).1))⟩

/-- `put` grows block `curr` by `ip`, just before its first address. -/
theorem grow_left {curr : ℕ} (hc : curr ∈ l.abl.toList) (hip : ¬l.Avail ip)
    (hadj : (l.get curr).fromAddr - 1 = ip) (hlt : ip < (l.get curr).fromAddr) :
    let l1 := l.set curr { l.get curr with fromAddr := (l.get curr).fromAddr - 1 }.calcSize
    l1.WF ∧ ∀ x, l1.Avail x ↔ l.Avail x ∨ x = ip := by
  intro l1
  have hcl := w.le curr hc
  refine ⟨w.set_range hc ?_ ?_ ?_ ?_ ?_, w.avail_set_grow hc ?_⟩
  · rfl
  · rfl
  · simp only [LinkedBlock.calcSize_fromAddr, LinkedBlock.calcSize_toAddr]
    omega
  · simp only [LinkedBlock.calcSize_fromAddr, LinkedBlock.calcSize_toAddr]
    omega
  · -- a block before `curr` ends before `ip`, which no block holds
    intro q hq hqc
    have := w.disjoint q hq curr hc hqc
    have := w.le q hq
    have : ¬(l.get q).within ip = true := fun hw => hip ⟨q, hq, hw⟩
    simp only [LinkedBlock.within_iff, LinkedBlock.calcSize_fromAddr,
      LinkedBlock.calcSize_toAddr] at this ⊢
    omega
  · intro x
    simp only [LinkedBlock.within_iff, LinkedBlock.calcSize_fromAddr, LinkedBlock.calcSize_toAddr]
    omega

/-- `put` grows block `curr` by `ip`, just after its last address. -/
theorem grow_right {curr : ℕ} (hc : curr ∈ l.abl.toList) (hip : ¬l.Avail ip)
    (hadj : (l.get curr).toAddr + 1 = ip) (i : ℕ) :
    let l1 := (l.set curr { l.get curr with toAddr := (l.get curr).toAddr + 1 }.calcSize).fix i
    l1.WF ∧ ∀ x, l1.Avail x ↔ l.Avail x ∨ x = ip := by
  intro l1
  have hcl := w.le curr hc
  refine ⟨(w.set_range hc ?_ ?_ ?_ ?_ ?_).fix i, fun x => ?_⟩
  · rfl
  · rfl
  · simp only [LinkedBlock.calcSize_fromAddr, LinkedBlock.calcSize_toAddr]
    omega
  · simp only [LinkedBlock.calcSize_fromAddr, LinkedBlock.calcSize_toAddr]
    omega
  · -- a block after `curr` starts after `ip`, which no block holds
    intro q hq hqc
    have := w.disjoint q hq curr hc hqc
    have := w.le q hq
    have : ¬(l.get q).within ip = true := fun hw => hip ⟨q, hq, hw⟩
    simp only [LinkedBlock.within_iff, LinkedBlock.calcSize_fromAddr,
      LinkedBlock.calcSize_toAddr] at this ⊢
    omega
  · rw [BlockList.WF.avail_fix, w.avail_set_grow hc]
    intro y
    simp only [LinkedBlock.within_iff, LinkedBlock.calcSize_fromAddr, LinkedBlock.calcSize_toAddr]
    omega

end WF

/-- Where the walk of `put` came from: `prev` is the block it just left, a neighbour of `curr` on
the side of `ip`. -/
def PutFrom (l : BlockList) (ip curr : ℕ) (prev : Option ℕ) : Prop :=
  ∀ q, prev = some q → ((l.get curr).next = some q ∧ ip < (l.get q).fromAddr) ∨
    ((l.get curr).prev = some q ∧ (l.get q).toAddr < ip)

namespace WF

variable (w : l.WF)
include w

/-- The walk of `put` from a block with a neighbour behind it on the side of `ip`: whatever it
returns keeps the shape and adds `ip` to the available addresses.  It only turns back towards
the block it came from to insert `ip` between the two. -/
theorem putLoop (hip : ¬l.Avail ip) (fuel : ℕ) :
    ∀ (i curr : ℕ) (prev : Option ℕ) (l' : BlockList), curr ∈ l.abl.toList →
      PutFrom l ip curr prev → l.putLoop ip fuel i curr prev = .ok l' →
      l'.WF ∧ ∀ x, l'.Avail x ↔ l.Avail x ∨ x = ip := by
  induction fuel with
  | zero => intro _ _ _ _ _ _ h; simp [BlockList.putLoop] at h
  | succ fuel ih =>
    intro i curr prev l' hc hfrom h
    have hcl := w.le curr hc
    have hco : ¬(l.get curr).within ip = true := fun hw => hip ⟨curr, hc, hw⟩
    rw [LinkedBlock.within_iff] at hco
    simp only [BlockList.putLoop] at h
    split_ifs at h with hlt hadj hadj'
    · -- `ip` is just before `curr`: grow it, then merge it with its left neighbour if they meet
      obtain ⟨w1, hav1⟩ := w.grow_left hc hip hadj hlt
      split at h
      · rename_i pv hpv
        split_ifs at h with hto
        · cases h
          obtain ⟨hp, hpc⟩ := w.prev_link curr hc pv hpv
          have hne : pv ≠ curr := fun e => w.prev_ne_self hc (by rw [hpv, e])
          set l1 := l.set curr { l.get curr with fromAddr := (l.get curr).fromAddr - 1 }.calcSize
            with hl1
          have hgp : l1.get pv = l.get pv := by simp [hl1, get_set, hne]
          have hgc : l1.get curr = { l.get curr with fromAddr := (l.get curr).fromAddr - 1 }.calcSize := by
            simp [hl1, get_set, w.lt_size curr hc]
          have hp1 : pv ∈ l1.abl.toList := by simpa only [hl1, abl_set] using hp
          have hnext1 : (l1.get pv).next = some curr := by rw [hgp, hpc]
          -- `pv` ends just before `ip`: it ends before `curr` and does not hold `ip`
          have hadj1 : (l1.get pv).toAddr + 1 = (l1.get curr).fromAddr := by
            have hpo : ¬(l.get pv).within ip = true := fun hw => hip ⟨pv, hp, hw⟩
            have := w.le pv hp
            rw [LinkedBlock.within_iff] at hpo
            simp only [hgp, hgc, LinkedBlock.calcSize_fromAddr] at hto ⊢
            omega
          exact ⟨w1.merge hp1 hnext1 hadj1,
            fun x => (w1.avail_merge hp1 hnext1 hadj1 x).trans (hav1 x)⟩
        · cases h
          exact ⟨w1, hav1⟩
      · cases h
        exact ⟨w1, hav1⟩
    · split at h
      · rename_i pv hpv
        obtain ⟨hp, hpc⟩ := w.prev_link curr hc pv hpv
        split_ifs at h with hpp
        · -- back at the block it came from: `ip` lies between the two
          cases h
          have hpt : (l.get pv).toAddr < ip := by
            rcases hfrom pv hpp.symm with ⟨hn, -⟩ | ⟨-, hpt⟩
            · exact absurd rfl (w.next_ne_prev hc hn hpv)
            · exact hpt
          exact w.insert_spec hip (fun p hp' => by cases hp'; exact ⟨hp, hpc, hpt⟩)
            (fun p hp' => by cases hp'; exact ⟨hc, hpv, hlt⟩)
        · -- on to the left neighbour, which ends before `curr` starts
          exact ih (i + 1) pv (some curr) l' hp
            (fun q hq => by cases hq; exact .inl ⟨hpc, hlt⟩) h
      · -- `curr` is the first block
        cases h
        rename_i hpv
        exact w.insert_spec hip (fun _ h => by cases h)
          (fun p hp' => by cases hp'; exact ⟨hc, hpv, hlt⟩)
    · -- `ip` is just after `curr`: grow it, then merge it with its right neighbour if they meet
      obtain ⟨w1, hav1⟩ := w.grow_right hc hip hadj' i
      split at h
      · rename_i nx hnx
        split_ifs at h with hfr
        · cases h
          obtain ⟨hn, -, -⟩ := w.next_link curr hc nx hnx
          have hne : nx ≠ curr := fun e => w.next_ne_self hc (by rw [hnx, e])
          set l1 := (l.set curr { l.get curr with toAddr := (l.get curr).toAddr + 1 }.calcSize).fix i
            with hl1
          have hgn : l1.get nx = l.get nx := by simp [hl1, get_set, hne]
          have hgc : l1.get curr = { l.get curr with toAddr := (l.get curr).toAddr + 1 }.calcSize := by
            simp [hl1, get_set, w.lt_size curr hc]
          have hc1 : curr ∈ l1.abl.toList := by simpa only [hl1, mem_fix, abl_set] using hc
          have hnext1 : (l1.get curr).next = some nx := by
            simp only [hgc, LinkedBlock.calcSize_next]
            exact hnx
          have hadj1 : (l1.get curr).toAddr + 1 = (l1.get nx).fromAddr := by
            simp only [hgc, hgn, LinkedBlock.calcSize_toAddr] at hfr ⊢
            omega
          exact ⟨w1.merge hc1 hnext1 hadj1,
            fun x => (w1.avail_merge hc1 hnext1 hadj1 x).trans (hav1 x)⟩
        · cases h
          exact ⟨w1, hav1⟩
      · cases h
        exact ⟨w1, hav1⟩
    · -- `ip` is after `curr`, not next to it
      have hct : (l.get curr).toAddr < ip := by omega
      split at h
      · rename_i nx hnx
        obtain ⟨hn, hnc, -⟩ := w.next_link curr hc nx hnx
        split_ifs at h with hpp
        · -- back at the block it came from: `ip` lies between the two
          cases h
          have hnf : ip < (l.get nx).fromAddr := by
            rcases hfrom nx hpp.symm with ⟨-, hnf⟩ | ⟨hpv, -⟩
            · exact hnf
            · exact absurd rfl (w.next_ne_prev hc hnx hpv)
          exact w.insert_spec hip (fun p hp' => by cases hp'; exact ⟨hc, hnx, hct⟩)
            (fun p hp' => by cases hp'; exact ⟨hn, hnc, hnf⟩)
        · -- on to the right neighbour, which starts after `curr` ends
          exact ih (i + 1) nx (some curr) l' hn
            (fun q hq => by cases hq; exact .inr ⟨hnc, hct⟩) h
      · -- `curr` is the last block
        cases h
        rename_i hnx
        exact w.insert_spec hip (fun p hp' => by cases hp'; exact ⟨hc, hnx, hct⟩)
          (fun _ h => by cases h)

/-- `put` of an address no block holds keeps the shape and adds that address. -/
theorem put (hip : ¬l.Avail ip) {l' : BlockList} (h : l.put ip = .ok l') :
    l'.WF ∧ ∀ x, l'.Avail x ↔ l.Avail x ∨ x = ip := by
  unfold BlockList.put at h
  split_ifs at h with h0
  · -- no blocks: a block of `ip` alone, which is `insert` with no neighbours
    cases h
    have hins : (l.insert none none ip).WF ∧
        ∀ x, (l.insert none none ip).Avail x ↔ l.Avail x ∨ x = ip :=
      w.insert_spec hip (fun _ h => by cases h) (fun _ h => by cases h)
    exact hins
  · exact w.putLoop hip maxIter 0 _ none l' (l.getElem!_mem (by omega)) (fun _ h => by cases h) h

end WF

end BlockList

namespace HashAllocator

open BlockList

variable {T : Type} {a a' : HashAllocator T} {start stop : ℕ}

/-- What the allocator of the range `[start, stop]` keeps: the available blocks have their shape
and hold exactly the addresses of the range that are not allocated, and every allocated address
is in the range. -/
structure Inv (start stop : ℕ) (a : HashAllocator T) : Prop where
  start_eq : a.start = start
  stop_eq : a.stop = stop
  wf : a.availableBlocks.WF
  avail : ∀ x, a.availableBlocks.Avail x ↔ start ≤ x ∧ x ≤ stop ∧ x ∉ a.allocations
  alloc_range : ∀ x ∈ a.allocations, start ≤ x ∧ x ≤ stop

theorem inv_newHashAllocator (h : newHashAllocator start stop = .ok a) : a.Inv start stop := by
  unfold newHashAllocator at h
  split_ifs at h with hss
  cases h
  have hget : ∀ q, q ∈ [0] → (BlockList.get ⟨#[LinkedBlock.calcSize ⟨start, stop, 0, none, none⟩],
      #[0]⟩ q) = LinkedBlock.calcSize ⟨start, stop, 0, none, none⟩ := by
    intro q hq
    rw [List.mem_singleton.mp hq]
    rfl
  refine ⟨rfl, rfl, ⟨by simp, by simp, ?_, ?_, ?_, ?_⟩, fun x => ?_, fun x hx => absurd hx (by simp)⟩
  · intro q hq
    rw [hget q hq]
    simp only [LinkedBlock.calcSize_fromAddr, LinkedBlock.calcSize_toAddr]
    omega
  · intro q hq r hr hqr
    simp only [List.mem_singleton] at hq hr
    exact absurd (hq.trans hr.symm) hqr
  · intro q hq r h
    rw [hget q hq] at h
    cases h
  · intro q hq r h
    rw [hget q hq] at h
    cases h
  · simp only [Avail, LinkedBlock.within_iff]
    constructor
    · rintro ⟨q, hq, hx⟩
      rw [hget q hq] at hx
      exact ⟨hx.1, hx.2, by simp⟩
    · rintro ⟨h1, h2, -⟩
      exact ⟨0, by simp, by rw [hget 0 (by simp)]; exact ⟨h1, h2⟩⟩

namespace Inv

variable (hi : a.Inv start stop)
include hi

/-- The first address of the block at the root of the heap is available. -/
theorem avail_root (h0 : 0 < a.availableBlocks.abl.size) :
    a.availableBlocks.Avail (a.availableBlocks.get a.availableBlocks.abl[0]!).fromAddr :=
  ⟨_, a.availableBlocks.getElem!_mem h0, by
    simp only [LinkedBlock.within_iff, le_refl, true_and]
    exact hi.wf.le _ (a.availableBlocks.getElem!_mem h0)⟩

/-- A `take` of an available address, then its entry in the map: the invariant holds again. -/
theorem take_insert {ip : ℕ} {bl : BlockList} (val : T) (hip : a.availableBlocks.Avail ip)
    (wf : bl.WF) (hav : ∀ x, bl.Avail x ↔ a.availableBlocks.Avail x ∧ x ≠ ip) :
    Inv start stop { a with allocations := a.allocations.insert ip val, availableBlocks := bl } := by
  have hr := (hi.avail ip).mp hip
  refine ⟨hi.start_eq, hi.stop_eq, wf, fun x => ?_, fun x hx => ?_⟩
  · simp only [hav, hi.avail, AList.mem_insert]
    constructor
    · rintro ⟨⟨h1, h2, h3⟩, hne⟩
      exact ⟨h1, h2, by tauto⟩
    · rintro ⟨h1, h2, h3⟩
      exact ⟨⟨h1, h2, fun h => h3 (.inr h)⟩, fun h => h3 (.inl h)⟩
  · rcases (AList.mem_insert _).mp hx with rfl | hx
    · exact ⟨hr.1, hr.2.1⟩
    · exact hi.alloc_range x hx

theorem allocAny {val : T} {ip : ℕ} (h : a.allocAny val = .ok (a', ip)) :
    a'.Inv start stop ∧ start ≤ ip ∧ ip ≤ stop ∧ ip ∉ a.allocations := by
  unfold HashAllocator.allocAny at h
  split_ifs at h with h0
  have hroot := hi.avail_root (by omega)
  obtain ⟨bl, htake, wf, hav⟩ := hi.wf.take hroot
  dsimp only at h
  rw [htake] at h
  cases h
  exact ⟨hi.take_insert val hroot wf hav, (hi.avail _).mp hroot⟩

/-- `AllocAny` fails only when every address of the range is allocated, and then says so. -/
theorem allocAny_error {val : T} {e : AllocError} (h : a.allocAny val = .error e) :
    e = .full ∧ ∀ x, start ≤ x → x ≤ stop → x ∈ a.allocations := by
  unfold HashAllocator.allocAny at h
  split_ifs at h with h0
  · cases h
    refine ⟨rfl, fun x h1 h2 => ?_⟩
    by_contra h3
    have := size_pos_of_avail ((hi.avail x).mpr ⟨h1, h2, h3⟩)
    omega
  · obtain ⟨bl, htake, -⟩ := hi.wf.take (hi.avail_root (by omega))
    dsimp only at h
    rw [htake] at h
    cases h

theorem alloc {ip : ℕ} {val : T} (h : a.alloc ip val = .ok a') : a'.Inv start stop := by
  unfold HashAllocator.alloc at h
  split_ifs at h with hr hin h0
  have := hi.start_eq
  have := hi.stop_eq
  have hip := (hi.avail ip).mpr ⟨by omega, by omega, hin⟩
  obtain ⟨bl, htake, wf, hav⟩ := hi.wf.take hip
  rw [htake] at h
  cases h
  exact hi.take_insert val hip wf hav

/-- `Alloc` succeeds exactly on the addresses of the range that are not allocated. -/
theorem alloc_ok_iff {ip : ℕ} {val : T} :
    (∃ a', a.alloc ip val = .ok a') ↔ start ≤ ip ∧ ip ≤ stop ∧ ip ∉ a.allocations := by
  unfold HashAllocator.alloc
  rw [hi.start_eq, hi.stop_eq]
  constructor
  · rintro ⟨a', h⟩
    split_ifs at h with hr hin
    exact ⟨by omega, by omega, hin⟩
  · rintro ⟨h1, h2, h3⟩
    have hip := (hi.avail ip).mpr ⟨h1, h2, h3⟩
    obtain ⟨bl, htake, -⟩ := hi.wf.take hip
    have := size_pos_of_avail hip
    rw [if_neg (by omega), if_neg h3, if_neg (by omega), htake]
    exact ⟨_, rfl⟩

theorem update {ip : ℕ} {val : T} (h : a.update ip val = .ok a') : a'.Inv start stop := by
  unfold HashAllocator.update at h
  split_ifs at h with hin
  cases h
  -- the key is there already, so the set of allocated addresses stays
  have hmem : ∀ x, x ∈ a.allocations.insert ip val ↔ x ∈ a.allocations := fun x => by
    rw [AList.mem_insert]
    exact ⟨fun h => h.elim (· ▸ hin) id, .inr⟩
  exact ⟨hi.start_eq, hi.stop_eq, hi.wf, fun x => by simp only [hmem]; exact hi.avail x,
    fun x hx => hi.alloc_range x ((hmem x).mp hx)⟩

theorem free {ip : ℕ} (h : a.free ip = .ok a') : a'.Inv start stop := by
  unfold HashAllocator.free at h
  split_ifs at h with hin
  have hr := hi.alloc_range ip hin
  -- an allocated address is in no block
  have hip : ¬a.availableBlocks.Avail ip := fun h => ((hi.avail ip).mp h).2.2 hin
  split at h
  · cases h
  · rename_i bl hput
    cases h
    obtain ⟨wf, hav⟩ := hi.wf.put hip hput
    refine ⟨hi.start_eq, hi.stop_eq, wf, fun x => ?_,
      fun x hx => hi.alloc_range x (AList.mem_erase.mp hx).2⟩
    simp only [hav, hi.avail, AList.mem_erase]
    constructor
    · rintro (⟨h1, h2, h3⟩ | rfl)
      · exact ⟨h1, h2, fun h => h3 h.2⟩
      · exact ⟨hr.1, hr.2, fun h => h.1 rfl⟩
    · rintro ⟨h1, h2, h3⟩
      by_cases hx : x = ip
      · exact .inr hx
      · exact .inl ⟨h1, h2, fun h => h3 ⟨hx, h⟩⟩

end Inv

/-- A call of the allocator's API. -/
inductive Op (T : Type) where
  | allocAny (val : T)
  | alloc (ip : ℕ) (val : T)
  | update (ip : ℕ) (val : T)
  | free (ip : ℕ)

/-- The allocator after a call: every call checks before it changes anything, so one that fails
leaves the allocator as it was. -/
def step (a : HashAllocator T) : Op T → HashAllocator T
  | .allocAny val =>
    match a.allocAny val with
    | .ok (a', _) => a'
    | .error _ => a
  | .alloc ip val =>
    match a.alloc ip val with
    | .ok a' => a'
    | .error _ => a
  | .update ip val =>
    match a.update ip val with
    | .ok a' => a'
    | .error _ => a
  | .free ip =>
    match a.free ip with
    | .ok a' => a'
    | .error _ => a

/-- The allocator after a sequence of calls. -/
def run (a : HashAllocator T) (ops : List (Op T)) : HashAllocator T := ops.foldl step a

theorem Inv.step (hi : a.Inv start stop) (op : Op T) : (a.step op).Inv start stop := by
  cases op with
  | allocAny val =>
    simp only [HashAllocator.step]
    split
    · exact (hi.allocAny ‹_›).1
    · exact hi
  | alloc ip val =>
    simp only [HashAllocator.step]
    split
    · exact hi.alloc ‹_›
    · exact hi
  | update ip val =>
    simp only [HashAllocator.step]
    split
    · exact hi.update ‹_›
    · exact hi
  | free ip =>
    simp only [HashAllocator.step]
    split
    · exact hi.free ‹_›
    · exact hi

theorem Inv.run (hi : a.Inv start stop) (ops : List (Op T)) : (a.run ops).Inv start stop :=
  Trace.foldl_rel HashAllocator.step (fun a a' => Inv start stop a → Inv start stop a')
    (fun _ h => h) (fun _ _ _ h₁ h₂ h => h₂ (h₁ h)) (fun _ op h => h.step op) ops a hi

/-! ### Runs from `NewHashAllocator` -/

/-- Over every run of calls from `NewHashAllocator`, the available blocks keep their shape and
hold exactly the addresses of the range that are not allocated, whatever the heap order. -/
theorem run_availableBlocks (h : newHashAllocator start stop = .ok a) (ops : List (Op T)) :
    (a.run ops).availableBlocks.WF ∧ ∀ x, (a.run ops).availableBlocks.Avail x ↔
      start ≤ x ∧ x ≤ stop ∧ x ∉ (a.run ops).allocations :=
  have hi := (inv_newHashAllocator h).run ops
  ⟨hi.wf, hi.avail⟩

/-- The calls after which `AllocAny` takes from a block that is not a smallest one. -/
theorem run_availableBlocks_after_free :
    newHashAllocator 1 4 = .ok (⟨1, 4, ∅, ⟨#[LinkedBlock.calcSize ⟨1, 4, 0, none, none⟩], #[0]⟩⟩ :
      HashAllocator Unit) ∧
    let r := (⟨1, 4, ∅, ⟨#[LinkedBlock.calcSize ⟨1, 4, 0, none, none⟩], #[0]⟩⟩ :
      HashAllocator Unit).run [.alloc 1 (), .alloc 3 (), .free 1]
    r.availableBlocks.WF ∧ ∀ x, r.availableBlocks.Avail x ↔ 1 ≤ x ∧ x ≤ 4 ∧ x ∉ r.allocations :=
  ⟨rfl, run_availableBlocks rfl _⟩

/-- Over every run of calls from `NewHashAllocator`, `AllocAny` hands out an address of the range
that is not allocated, and fails, with `ErrFull`, only when every address of the range is
allocated. -/
theorem run_allocAny (h : newHashAllocator start stop = .ok a) (ops : List (Op T)) (val : T) :
    (∀ a' ip, (a.run ops).allocAny val = .ok (a', ip) →
      start ≤ ip ∧ ip ≤ stop ∧ ip ∉ (a.run ops).allocations) ∧
    (∀ e, (a.run ops).allocAny val = .error e →
      e = .full ∧ ∀ x, start ≤ x → x ≤ stop → x ∈ (a.run ops).allocations) :=
  have hi := (inv_newHashAllocator h).run ops
  ⟨fun _ _ hany => (hi.allocAny hany).2, fun _ he => hi.allocAny_error he⟩

theorem run_allocAny_after_free :
    newHashAllocator 1 4 = .ok (⟨1, 4, ∅, ⟨#[LinkedBlock.calcSize ⟨1, 4, 0, none, none⟩], #[0]⟩⟩ :
      HashAllocator Unit) ∧
    let r := (⟨1, 4, ∅, ⟨#[LinkedBlock.calcSize ⟨1, 4, 0, none, none⟩], #[0]⟩⟩ :
      HashAllocator Unit).run [.alloc 1 (), .alloc 3 (), .free 1]
    (∀ a' ip, r.allocAny () = .ok (a', ip) → 1 ≤ ip ∧ ip ≤ 4 ∧ ip ∉ r.allocations) ∧
    (∀ e, r.allocAny () = .error e → e = .full ∧ ∀ x, 1 ≤ x → x ≤ 4 → x ∈ r.allocations) :=
  ⟨rfl, run_allocAny rfl _ ()⟩

/-- Over every run of calls from `NewHashAllocator`, `Alloc` succeeds exactly on the addresses of
the range that are not allocated. -/
theorem run_alloc_ok_iff (h : newHashAllocator start stop = .ok a) (ops : List (Op T)) (ip : ℕ)
    (val : T) :
    (∃ a', (a.run ops).alloc ip val = .ok a') ↔
      start ≤ ip ∧ ip ≤ stop ∧ ip ∉ (a.run ops).allocations :=
  ((inv_newHashAllocator h).run ops).alloc_ok_iff

theorem run_alloc_ok_iff_after_free :
    newHashAllocator 1 4 = .ok (⟨1, 4, ∅, ⟨#[LinkedBlock.calcSize ⟨1, 4, 0, none, none⟩], #[0]⟩⟩ :
      HashAllocator Unit) ∧
    let r := (⟨1, 4, ∅, ⟨#[LinkedBlock.calcSize ⟨1, 4, 0, none, none⟩], #[0]⟩⟩ :
      HashAllocator Unit).run [.alloc 1 (), .alloc 3 (), .free 1]
    ((∃ a', r.alloc 1 () = .ok a') ↔ 1 ≤ 1 ∧ 1 ≤ 4 ∧ 1 ∉ r.allocations) :=
  ⟨rfl, run_alloc_ok_iff rfl _ 1 ()⟩

end HashAllocator

end Cilium.Ipalloc
