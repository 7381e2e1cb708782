import Cilium.Ip.Coalesce

/-! `mergeAdjacentCIDRs` of `pkg/ip/ip.go` on ranges of 16-byte addresses, read as numbers: the
merged ranges cover the addresses that the given ones cover, and they are ascending and
disjoint.  The merge test asks whether the address before a range's first one is above the last
address of the range below, so it rests on `getPreviousIP` subtracting one, which its loop does
byte by byte with a borrow. -/

namespace Cilium.Ip

open GoNet

/-! ### `getPreviousIP` -/

/-- The round of the loop of `getPreviousIP` at byte `i`: decrement it when it is the last byte or
the bytes after it borrowed, and borrow when it wrapped from zero. -/
def previousStep (ip : IP) (acc : IP × Bool) (i : ℕ) : IP × Bool :=
  let prev := if acc.2 ∨ i = ip.length - 1 then acc.1.set i (acc.1[i]! - 1) else acc.1
  (prev, ip[i]! = 0 ∧ prev[i]! = 255)

/-- The bytes from `lowerByteBound` to the end, the last first. -/
theorem filter_range_reverse (n L : ℕ) :
    (List.range n).reverse.filter (L ≤ ·) = (List.range' L (n - L)).reverse := by
  rw [List.filter_reverse, List.range_eq_range']
  congr 1
  by_cases hL : L ≤ n
  · have hsplit : List.range' 0 n = List.range' 0 L ++ List.range' L (n - L) := by
      have := List.range'_append_1 (s := 0) (m := L) (n := n - L)
      rwa [Nat.zero_add, show L + (n - L) = n by omega, eq_comm] at this
    rw [hsplit, List.filter_append, List.filter_eq_nil_iff.mpr, List.filter_eq_self.mpr,
      List.nil_append]
    · intro i hi
      simpa using (List.mem_range'_1.mp hi).1
    · intro i hi
      simpa using (List.mem_range'_1.mp hi).2
  · rw [show n - L = 0 by omega, List.range'_zero, List.filter_eq_nil_iff]
    intro i hi
    have := (List.mem_range'_1.mp hi).2
    simp only [decide_eq_true_eq, not_le]
    omega

theorem previousLoop_eq (ip : IP) (L : ℕ) :
    previousLoop ip L =
      ((List.range' L (ip.length - L)).foldr (fun i acc => previousStep ip acc i) (ip, false)).1 := by
  rw [previousLoop, filter_range_reverse, List.foldl_reverse]
  rfl

theorem drop_set_self {α : Type} {l : List α} {L : ℕ} (hL : L < l.length) (v : α) :
    (l.set L v).drop L = v :: l.drop (L + 1) := by
  rw [List.drop_set, if_neg (Nat.lt_irrefl L), Nat.sub_self, List.drop_eq_getElem_cons hL]
  rfl

theorem getElem!_set_self {l : List UInt8} {L : ℕ} (hL : L < l.length) (v : UInt8) :
    (l.set L v)[L]! = v := by
  rw [getElem!_pos (l.set L v) L (by simpa using hL), List.getElem_set_self]

theorem getElem!_of_take_eq {l l' : List UInt8} {n i : ℕ} (h : l.take n = l'.take n) (hi : i < n) :
    l[i]! = l'[i]! := by
  have := congrArg (·[i]?) h
  simp only [List.getElem?_take, if_pos hi] at this
  simp only [getElem!_def, this]

theorem take_of_take_succ {l l' : List UInt8} {L : ℕ} (h : l.take (L + 1) = l'.take (L + 1)) :
    l.take L = l'.take L := by
  have := congrArg (List.take L) h
  simpa [List.take_take] using this

theorem sub_one_eq_255 (x : UInt8) : x - 1 = 255 ↔ x = 0 := by
  rw [sub_eq_iff_eq_add]
  rfl

theorem toNat_eq_zero (x : UInt8) : x.toNat = 0 ↔ x = 0 :=
  ⟨fun h => UInt8.toNat_inj.mp h, fun h => h ▸ rfl⟩

/-- A byte's value after a decrement. -/
theorem toNat_sub_one (x : UInt8) : (x - 1).toNat = if x.toNat = 0 then 255 else x.toNat - 1 := by
  split_ifs with hx
  · rw [show x = 0 from UInt8.toNat_inj.mp hx]
    rfl
  · rw [UInt8.toNat_sub_of_le _ _ (by rw [UInt8.le_iff_toNat_le]; simp only [UInt8.toNat_one]; omega)]
    rfl

/-- The loop of `getPreviousIP` over the bytes from `L`, the last first: it subtracts one from the
number those bytes write, modulo their range, and leaves the bytes before `L` alone; it ends
borrowing exactly when those bytes were all zero. -/
theorem previousFold (ip : IP) : ∀ (m L : ℕ), L + m = ip.length → 0 < m →
    let r := (List.range' L m).foldr (fun i acc => previousStep ip acc i) (ip, false)
    r.1.length = ip.length ∧ r.1.take L = ip.take L ∧
      setBytes (r.1.drop L) =
        (if setBytes (ip.drop L) = 0 then 256 ^ m - 1 else setBytes (ip.drop L) - 1) ∧
      (r.2 = true ↔ setBytes (ip.drop L) = 0) := by
  intro m
  induction m with
  | zero => intro _ _ h; omega
  | succ m ih =>
    intro L hLm _
    have hL : L < ip.length := by omega
    have hdrop : ip.drop L = ip[L]! :: ip.drop (L + 1) := by
      rw [List.drop_eq_getElem_cons hL, getElem!_pos ip L hL]
    have hlen : (ip.drop (L + 1)).length = m := by simp; omega
    have hs : setBytes (ip.drop L) = ip[L]!.toNat * 256 ^ m + setBytes (ip.drop (L + 1)) := by
      rw [hdrop, setBytes_cons, hlen]
    rw [List.range'_succ, List.foldr_cons]
    rcases Nat.eq_zero_or_pos m with rfl | hm
    · -- the last byte, decremented whatever it holds
      have hlast : L = ip.length - 1 := by omega
      have hnil : ip.drop (L + 1) = [] := List.drop_eq_nil_of_le (by omega)
      have hset : (ip.set L (ip[L]! - 1)).drop L = [ip[L]! - 1] := by
        rw [drop_set_self hL, hnil]
      simp only [List.range'_zero, List.foldr_nil, previousStep, ← hlast, or_true, if_true,
        List.length_set, List.take_set_of_le (le_refl L), hset, hs, hnil, true_and]
      refine ⟨?_, ?_⟩
      · rw [setBytes_cons, toNat_sub_one]
        simp only [List.length_nil, pow_zero, mul_one, setBytes, List.foldl_nil, add_zero]
        split_ifs <;> simp_all
      · rw [getElem!_set_self hL]
        simp only [pow_zero, mul_one, setBytes, List.foldl_nil, add_zero, decide_eq_true_eq,
          sub_one_eq_255, and_self, toNat_eq_zero]
    · -- a byte before the last, decremented only when the bytes after it borrowed
      obtain ⟨hylen, hytake, hyval, hyborrow⟩ := ih (L + 1) (by omega) hm
      set y := (List.range' (L + 1) m).foldr (fun i acc => previousStep ip acc i) (ip, false)
      have hyL : y.1[L]! = ip[L]! := getElem!_of_take_eq hytake (Nat.lt_succ_self L)
      have hyL' : L < y.1.length := by omega
      have hydrop : y.1.drop L = ip[L]! :: y.1.drop (L + 1) := by
        rw [List.drop_eq_getElem_cons hyL', ← hyL, getElem!_pos y.1 L hyL']
      have hylen' : (y.1.drop (L + 1)).length = m := by simp only [List.length_drop]; omega
      have hP : 0 < 256 ^ m := by positivity
      have hlt : setBytes (ip.drop (L + 1)) < 256 ^ m := hlen ▸ setBytes_lt _
      simp only [previousStep, show L ≠ ip.length - 1 by omega, or_false, hs, pow_succ]
      by_cases hS' : setBytes (ip.drop (L + 1)) = 0
      · have hb : y.2 = true := hyborrow.mpr hS'
        rw [if_pos hS'] at hyval
        simp only [hb, if_true, List.length_set, hylen, List.take_set_of_le (le_refl L),
          take_of_take_succ hytake, drop_set_self hyL', setBytes_cons, hylen', hyval, hS',
          getElem!_set_self hyL', hyL, sub_one_eq_255, and_self, decide_eq_true_eq, true_and,
          add_zero, Nat.mul_eq_zero, hP.ne', or_false, toNat_eq_zero, toNat_sub_one, and_true]
        split_ifs with h0
        · omega
        · have h1 : 1 ≤ ip[L]!.toNat := Nat.one_le_iff_ne_zero.mpr (mt (toNat_eq_zero _).mp h0)
          have h2 : 256 ^ m ≤ ip[L]!.toNat * 256 ^ m := Nat.le_mul_of_pos_left _ h1
          rw [Nat.sub_one_mul]
          omega
      · have hb : y.2 = false := by simpa [hS'] using hyborrow
        rw [if_neg hS'] at hyval
        simp only [hb, Bool.false_eq_true, if_false, hylen, take_of_take_succ hytake, hydrop,
          setBytes_cons, hylen', hyval, true_and]
        rw [if_neg (by omega)]
        refine ⟨by omega, ?_⟩
        simp only [decide_eq_true_eq]
        constructor
        · rintro ⟨h0, h255⟩
          rw [hyL, h0] at h255
          exact absurd h255 (by decide)
        · intro h
          omega

/-- The loop from `L` subtracts one from the whole address when the bytes from `L` on are not
all zero. -/
theorem setBytes_previousLoop {ip : IP} {L : ℕ} (hL : L < ip.length)
    (hz : setBytes (ip.drop L) ≠ 0) :
    (previousLoop ip L).length = ip.length ∧ setBytes (previousLoop ip L) = setBytes ip - 1 := by
  obtain ⟨hlen, htake, hval, -⟩ := previousFold ip (ip.length - L) L (by omega) (by omega)
  rw [previousLoop_eq]
  set r := (List.range' L (ip.length - L)).foldr (fun i acc => previousStep ip acc i) (ip, false)
  have hdl : (r.1.drop L).length = (ip.drop L).length := by simp only [List.length_drop, hlen]
  have hpos : 1 ≤ setBytes (ip.drop L) := Nat.one_le_iff_ne_zero.mpr hz
  refine ⟨hlen, ?_⟩
  rw [← List.take_append_drop L r.1, setBytes_append, htake, hval, if_neg hz, hdl]
  conv_rhs => rw [← List.take_append_drop L ip, setBytes_append]
  omega

theorem equal_of_length_eq {ip x : IP} (h : ip.length = x.length) : ip.equal x = (ip == x) := by
  simp [IP.equal, h]

theorem take_of_to4_ne_nil {ip : IP} (h : ip.length = ipv6len) (h4 : ip.to4 ≠ []) :
    ip.take 12 = v4InV6Prefix := by
  unfold IP.to4 at h4
  rw [h] at h4
  split_ifs at h4 with h1 h2
  · exact absurd h1 (by decide)
  · exact h2.2
  · exact absurd rfl h4

theorem eq_defaultIPv4 {ip : IP} (h : ip.length = ipv6len) (hp : ip.take 12 = v4InV6Prefix)
    (hz : setBytes (ip.drop 12) = 0) : ip = defaultIPv4 := by
  have hd : ip.drop 12 = List.replicate 4 0 :=
    List.eq_replicate_iff.mpr ⟨by simp [h, ipv6len], (setBytes_eq_zero_iff _).mp hz⟩
  rw [← List.take_append_drop 12 ip, hp, hd]
  rfl

theorem eq_defaultIPv6 {ip : IP} (h : ip.length = ipv6len) (hz : setBytes ip = 0) :
    ip = defaultIPv6 :=
  List.eq_replicate_iff.mpr ⟨h, (setBytes_eq_zero_iff _).mp hz⟩

/-- `getPreviousIP` on a 16-byte address subtracts one, except from `::ffff:0.0.0.0`, which it
returns as it is although `::fffe:ffff:ffff` is below it. -/
theorem getPreviousIP_spec {ip : IP} (h : ip.length = ipv6len) :
    (getPreviousIP ip).length = ipv6len ∧
      setBytes (getPreviousIP ip) = if ip = defaultIPv4 then setBytes ip else setBytes ip - 1 := by
  have h4 : ip.length = defaultIPv4.length := h
  have h6 : ip.length = defaultIPv6.length := h
  unfold getPreviousIP
  rw [equal_of_length_eq h4, equal_of_length_eq h6]
  by_cases hd4 : ip = defaultIPv4
  · rw [if_pos (by simp [hd4]), if_pos hd4]
    exact ⟨h, rfl⟩
  by_cases hd6 : ip = defaultIPv6
  · rw [if_pos (by simp [hd6]), if_neg hd4, hd6]
    exact ⟨rfl, rfl⟩
  rw [if_neg (by simp [hd4, hd6]), if_neg hd4]
  split_ifs with hv4
  · -- a mapped IPv4 address borrows only within its last four bytes
    have hp := take_of_to4_ne_nil h hv4
    obtain ⟨hl, hv⟩ := setBytes_previousLoop (L := 12) (by rw [h]; decide)
      fun hz => hd4 (eq_defaultIPv4 h hp hz)
    exact ⟨hl.trans h, hv⟩
  · obtain ⟨hl, hv⟩ := setBytes_previousLoop (L := 0) (by rw [h]; decide)
      fun hz => hd6 (eq_defaultIPv6 h hz)
    exact ⟨hl.trans h, hv⟩

theorem getPreviousIP_spec_borrow :
    (v4Mappedv6Prefix ++ [10, 0, 1, 0]).length = ipv6len ∧
      (getPreviousIP (v4Mappedv6Prefix ++ [10, 0, 1, 0])).length = ipv6len ∧
      setBytes (getPreviousIP (v4Mappedv6Prefix ++ [10, 0, 1, 0])) =
        if v4Mappedv6Prefix ++ [10, 0, 1, 0] = defaultIPv4 then
          setBytes (v4Mappedv6Prefix ++ [10, 0, 1, 0])
        else setBytes (v4Mappedv6Prefix ++ [10, 0, 1, 0]) - 1 :=
  ⟨rfl, getPreviousIP_spec rfl⟩

theorem getPreviousIP_bounds {ip : IP} (h : ip.length = ipv6len) :
    (getPreviousIP ip).length = ipv6len ∧ setBytes (getPreviousIP ip) ≤ setBytes ip ∧
      setBytes ip ≤ setBytes (getPreviousIP ip) + 1 := by
  obtain ⟨hl, hv⟩ := getPreviousIP_spec h
  refine ⟨hl, ?_⟩
  split_ifs at hv <;> omega

/-! ### The merge loop -/

namespace netWithRange

/-- The addresses a range covers, as numbers. -/
def addrs (r : netWithRange) : Set ℕ := Set.Icc (setBytes r.first) (setBytes r.last)

/-- A range of two 16-byte addresses, the first not above the last, as `ipNetToRange` makes
them. -/
structure WF (r : netWithRange) : Prop where
  first_length : r.first.length = ipv6len
  last_length : r.last.length = ipv6len
  le : setBytes r.first ≤ setBytes r.last

/-- `r` ends below where `s` starts. -/
def Below (r s : netWithRange) : Prop := setBytes r.last < setBytes s.first

/-- An address of neither range lies between them, unless `s` starts at `::ffff:0.0.0.0`. -/
def Apart (r s : netWithRange) : Prop :=
  setBytes r.last + 1 < setBytes s.first ∨ s.first = defaultIPv4

end netWithRange

open netWithRange

/-- The addresses that some range of the list covers. -/
def covered (rs : List netWithRange) : Set ℕ := ⋃ r ∈ rs, r.addrs

theorem mem_covered {rs : List netWithRange} {n : ℕ} : n ∈ covered rs ↔ ∃ r ∈ rs, n ∈ r.addrs := by
  simp [covered]

theorem covered_cons (r : netWithRange) (rs : List netWithRange) :
    covered (r :: rs) = r.addrs ∪ covered rs := by
  ext n
  simp [mem_covered]

theorem covered_perm {rs rs' : List netWithRange} (h : rs.Perm rs') : covered rs = covered rs' := by
  ext n
  simp only [mem_covered, h.mem_iff]

/-- A range that reaches up to the address before another one starts and ends below where that
ends makes one range with it. -/
theorem addrs_merge {p c : netWithRange} {m : IP}
    (hm : setBytes m = min (setBytes p.first) (setBytes c.first))
    (hle : setBytes p.last ≤ setBytes c.last) (hadj : setBytes c.first ≤ setBytes p.last + 1) :
    (⟨m, c.last, none⟩ : netWithRange).addrs = c.addrs ∪ p.addrs := by
  ext n
  simp only [addrs, Set.mem_union, Set.mem_Icc]
  omega

/-- The first address of a merged range, which `mergeLoop` picks by `bytes.Compare`. -/
theorem setBytes_minFirstIP {p c : netWithRange} (hp : p.WF) (hc : c.WF) :
    let m := if compareBytes p.first c.first = .lt then p.first else c.first
    m.length = ipv6len ∧ setBytes m = min (setBytes p.first) (setBytes c.first) := by
  intro m
  simp only [m]
  split_ifs with h <;>
    rw [compareBytes_eq_lt_iff (hp.first_length.trans hc.first_length.symm)] at h
  · exact ⟨hp.first_length, (min_eq_left h.le).symm⟩
  · exact ⟨hc.first_length, (min_eq_right (not_lt.mp h)).symm⟩

/-- What holds at each round of `mergeLoop current rest done`: the ranges still to merge come
by descending last address, none beyond `current`, and `current` and the ranges done ascend
with a gap between neighbours. -/
structure MergeInv (current : netWithRange) (rest done : List netWithRange) : Prop where
  wf : ∀ r ∈ current :: (rest ++ done), r.WF
  sorted : rest.Pairwise fun a b => setBytes b.last ≤ setBytes a.last
  le_current : ∀ r ∈ rest, setBytes r.last ≤ setBytes current.last
  below : (current :: done).Pairwise Below
  apart : (current :: done).IsChain Apart

/-- `Below` and `Apart` read only the last address of the range on their left. -/
theorem pairwise_below_of_last_eq {c c' : netWithRange} {done : List netWithRange}
    (hb : (c :: done).Pairwise Below) (h : c'.last = c.last) : (c' :: done).Pairwise Below := by
  refine List.Pairwise.cons (fun d hd => ?_) hb.of_cons
  rw [Below, h]
  exact List.rel_of_pairwise_cons hb hd

theorem isChain_apart_of_last_eq {c c' : netWithRange} {done : List netWithRange}
    (ha : (c :: done).IsChain Apart) (h : c'.last = c.last) : (c' :: done).IsChain Apart := by
  obtain ⟨hhead, htail⟩ := List.isChain_cons.mp ha
  refine List.isChain_cons.mpr ⟨fun d hd => ?_, htail⟩
  rw [Apart, h]
  exact hhead d hd

namespace MergeInv

variable {current prev : netWithRange} {rest done : List netWithRange}

theorem wf_prev (hi : MergeInv current (prev :: rest) done) : prev.WF :=
  hi.wf prev (by simp)

/-- A range that reaches up to the address before `current` is merged into it. -/
theorem merge (hi : MergeInv current (prev :: rest) done)
    (hm : compareBytes (getPreviousIP current.first) prev.last ≠ .gt) :
    let minFirstIP := if compareBytes prev.first current.first = .lt then prev.first
      else current.first
    MergeInv ⟨minFirstIP, current.last, none⟩ rest done ∧
      covered (⟨minFirstIP, current.last, none⟩ :: (rest ++ done)) =
        covered (current :: (prev :: rest ++ done)) := by
  intro minFirstIP
  have hc : current.WF := hi.wf current (by simp)
  have hp := hi.wf_prev
  obtain ⟨hml, hmv⟩ := setBytes_minFirstIP hp hc
  obtain ⟨hgl, -, hgv⟩ := getPreviousIP_bounds hc.first_length
  rw [compareBytes_ne_gt_iff (hgl.trans hp.last_length.symm)] at hm
  have hle := hi.le_current prev (by simp)
  refine ⟨⟨?_, hi.sorted.of_cons, ?_, pairwise_below_of_last_eq hi.below rfl,
    isChain_apart_of_last_eq hi.apart rfl⟩, ?_⟩
  · intro r hr
    rcases List.mem_cons.mp hr with rfl | hr
    · exact ⟨hml, hc.last_length, by rw [hmv]; exact (min_le_right _ _).trans hc.le⟩
    · exact hi.wf r (by simp_all)
  · intro r hr
    exact (List.rel_of_pairwise_cons hi.sorted hr).trans hle
  · rw [covered_cons, covered_cons, List.cons_append, covered_cons, ← Set.union_assoc,
      addrs_merge hmv hle (by omega)]

/-- A range that ends below the address before `current` leaves it done, and is the next one to
merge into. -/
theorem skip (hi : MergeInv current (prev :: rest) done)
    (hm : ¬compareBytes (getPreviousIP current.first) prev.last ≠ .gt) :
    MergeInv prev rest (current :: done) ∧
      covered (prev :: (rest ++ current :: done)) = covered (current :: (prev :: rest ++ done)) := by
  have hc : current.WF := hi.wf current (by simp)
  have hp := hi.wf_prev
  obtain ⟨hgl, hgle, -⟩ := getPreviousIP_bounds hc.first_length
  have hv := (getPreviousIP_spec hc.first_length).2
  rw [compareBytes_ne_gt_iff (hgl.trans hp.last_length.symm), not_le] at hm
  have hle := hi.le_current prev (by simp)
  refine ⟨⟨?_, hi.sorted.of_cons, fun r hr => List.rel_of_pairwise_cons hi.sorted hr, ?_, ?_⟩, ?_⟩
  · intro r hr
    apply hi.wf r
    simp only [List.cons_append, List.mem_cons, List.mem_append] at hr ⊢
    tauto
  · -- `prev` ends below `current`, which ends below the ranges done
    refine List.Pairwise.cons (fun r hr => ?_) hi.below
    rcases List.mem_cons.mp hr with rfl | hr
    · exact lt_of_lt_of_le hm hgle
    · exact lt_of_le_of_lt hle (List.rel_of_pairwise_cons hi.below hr)
  · refine List.IsChain.cons_cons ?_ hi.apart
    by_cases hd : current.first = defaultIPv4
    · exact Or.inr hd
    · rw [if_neg hd] at hv
      left
      omega
  · exact covered_perm ((List.Perm.cons _ List.perm_middle).trans (List.Perm.swap _ _ _))

end MergeInv

/-- Every round keeps the invariant and the addresses covered, so the loop ends with ascending
ranges, apart from one another, that cover what the ranges it started from covered. -/
theorem mergeLoop_spec (current : netWithRange) (rest done : List netWithRange)
    (hi : MergeInv current rest done) :
    let out := mergeLoop current rest done
    (∀ r ∈ out, r.WF) ∧ covered out = covered (current :: (rest ++ done)) ∧
      out.Pairwise Below ∧ out.IsChain Apart := by
  induction rest generalizing current done with
  | nil =>
    simp only [mergeLoop]
    exact ⟨fun r hr => hi.wf r (by simpa using hr), rfl, hi.below, hi.apart⟩
  | cons prev rest ih =>
    simp only [mergeLoop]
    by_cases hm : compareBytes (getPreviousIP current.first) prev.last ≠ .gt
    · rw [if_pos hm]
      obtain ⟨hi', hcov⟩ := hi.merge hm
      obtain ⟨hwf, hout, hbelow, hapart⟩ := ih _ _ hi'
      exact ⟨hwf, hout.trans hcov, hbelow, hapart⟩
    · rw [if_neg hm]
      obtain ⟨hi', hcov⟩ := hi.skip hm
      obtain ⟨hwf, hout, hbelow, hapart⟩ := ih _ _ hi'
      exact ⟨hwf, hout.trans hcov, hbelow, hapart⟩

/-! ### Sorting and merging -/

/-- The order that `mergeAdjacentCIDRs` sorts by: `NetsByRange.Less` compares the first address
with itself, so only the last addresses decide. -/
theorem netsByRangeLess_eq_false_iff (a b : netWithRange) :
    netsByRangeLess b a = false ↔ compareBytes a.last b.last ≠ .gt := by
  unfold netsByRangeLess
  rw [compareBytes_swap a.last b.last]
  rcases compareBytes a.last b.last <;> simp [Ordering.swap, compareBytes_self]

/-- The sorted ranges, reversed, are the ranges given, by descending last address. -/
theorem reverse_insertionSort (ranges : List netWithRange) (hwf : ∀ r ∈ ranges, r.WF) :
    let sorted := (ranges.insertionSort fun a b => netsByRangeLess b a = false).reverse
    sorted.Perm ranges ∧ sorted.Pairwise fun a b => setBytes b.last ≤ setBytes a.last := by
  intro sorted
  let R := fun a b : netWithRange => netsByRangeLess b a = false
  have hR (a b : netWithRange) : R a b ↔ compareBytes a.last b.last ≠ .gt :=
    netsByRangeLess_eq_false_iff a b
  have : Std.Total R := ⟨fun a b => by
    rw [hR, hR, compareBytes_swap a.last b.last]
    rcases compareBytes a.last b.last <;> simp [Ordering.swap]⟩
  have : IsTrans netWithRange R := ⟨fun a b c hab hbc => by
    rw [hR] at hab hbc ⊢
    exact compareBytes_ne_gt_trans hab hbc⟩
  have hperm := List.perm_insertionSort R ranges
  refine ⟨(List.reverse_perm _).trans hperm, List.pairwise_reverse.mpr ?_⟩
  refine (List.pairwise_insertionSort R ranges).imp_of_mem fun ha hb hab => ?_
  have hwa := hwf _ (hperm.mem_iff.mp ha)
  have hwb := hwf _ (hperm.mem_iff.mp hb)
  rwa [hR, compareBytes_ne_gt_iff (hwa.last_length.trans hwb.last_length.symm)] at hab

/-- `mergeAdjacentCIDRs` on ranges of 16-byte addresses gives ranges that cover exactly the
addresses the given ones cover, ascending and disjoint, with an address of none of them between
two neighbours unless the upper one starts at `::ffff:0.0.0.0`. -/
theorem mergeAdjacentCIDRs_spec (ranges : List netWithRange) (hwf : ∀ r ∈ ranges, r.WF) :
    let out := mergeAdjacentCIDRs ranges
    (∀ r ∈ out, r.WF) ∧ covered out = covered ranges ∧ out.Pairwise Below ∧ out.IsChain Apart := by
  simp only [mergeAdjacentCIDRs]
  obtain ⟨hperm, hsorted⟩ := reverse_insertionSort ranges hwf
  generalize (ranges.insertionSort fun a b => netsByRangeLess b a = false).reverse = sorted
    at hperm hsorted ⊢
  cases sorted with
  | nil =>
    rw [← covered_perm hperm]
    simp
  | cons current rest =>
    have hi : MergeInv current rest [] :=
      ⟨fun r hr => hwf r (hperm.mem_iff.mp (by simpa using hr)), hsorted.of_cons,
        fun r hr => List.rel_of_pairwise_cons hsorted hr, List.pairwise_singleton _ _,
        List.isChain_singleton _⟩
    obtain ⟨hwf', hcov, hb, ha⟩ := mergeLoop_spec current rest [] hi
    refine ⟨hwf', ?_, hb, ha⟩
    rw [hcov, List.append_nil, covered_perm hperm]

theorem mergeAdjacentCIDRs_spec_two_hosts :
    let ranges : List netWithRange :=
      [⟨v4Mappedv6Prefix ++ [10, 0, 0, 2], v4Mappedv6Prefix ++ [10, 0, 0, 2], none⟩,
        ⟨v4Mappedv6Prefix ++ [10, 0, 0, 1], v4Mappedv6Prefix ++ [10, 0, 0, 1], none⟩]
    (∀ r ∈ ranges, r.WF) ∧
      let out := mergeAdjacentCIDRs ranges
      (∀ r ∈ out, r.WF) ∧ covered out = covered ranges ∧ out.Pairwise Below ∧
        out.IsChain Apart :=
  have h : ∀ r ∈ ([⟨v4Mappedv6Prefix ++ [10, 0, 0, 2], v4Mappedv6Prefix ++ [10, 0, 0, 2], none⟩,
      ⟨v4Mappedv6Prefix ++ [10, 0, 0, 1], v4Mappedv6Prefix ++ [10, 0, 0, 1], none⟩] :
      List netWithRange), r.WF := by
    intro r hr
    simp only [List.mem_cons, List.not_mem_nil, or_false] at hr
    rcases hr with rfl | rfl <;> exact ⟨rfl, rfl, le_refl _⟩
  ⟨h, mergeAdjacentCIDRs_spec _ h⟩

end Cilium.Ip
