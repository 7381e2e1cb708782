import Cilium.Labels.ArrayList
import Cilium.Lib.GoSlices

/-! `LabelArray.less` is the lexicographic order on arrays of (key, value, source) triples, and
`mergeSorted` of two strictly sorted lists is their sorted union when no included label has
source any (`mergeSorted_sorted_union`); an included label of source any `equals` a label of a
lesser source, and its array is dropped. -/

namespace Cilium

/-! ### `less` is a strict total order -/

def Label.triple (l : Label) : String ×ₗ String ×ₗ String :=
  toLex (l.key, toLex (l.value, l.source))

theorem Label.triple_injective : Function.Injective Label.triple := by
  intro l m h
  simp only [Label.triple, toLex_inj, Prod.mk.injEq] at h
  obtain ⟨h1, h2, h3⟩ := h
  cases l
  cases m
  simp only at h1 h2 h3
  rw [h1, h2, h3]

theorem Label.triple_lt_iff (l m : Label) : l.triple < m.triple ↔ l.key < m.key ∨
    l.key = m.key ∧ (l.value < m.value ∨ l.value = m.value ∧ l.source < m.source) := by
  simp only [Label.triple, Prod.Lex.lt_iff, ofLex_toLex]

theorem Label.equals_iff_eq {l m : Label} (h : l.isAnySource = false) :
    l.equals m = true ↔ l = m := by
  cases l
  cases m
  simp only [Label.equals, h, Bool.not_false, Bool.true_and, bne_iff_ne, ne_eq]
  split_ifs with hs <;> simp_all

/-- The order that `less` decides: the lexicographic order of the arrays of (key, value, source)
triples. -/
def LabelArray.ord (ls : LabelArray) : List (String ×ₗ String ×ₗ String) := ls.map Label.triple

namespace LabelArray

theorem less_cons_cons (l m : Label) (ls ms : LabelArray) :
    LabelArray.less (l :: ls) (m :: ms) = true ↔
      l.triple < m.triple ∨ l = m ∧ LabelArray.less ls ms = true := by
  rw [Label.triple_lt_iff]
  simp only [LabelArray.less, gt_iff_lt]
  rcases lt_trichotomy l.key m.key with hk | hk | hk
  · simp [hk]
  · rcases lt_trichotomy l.value m.value with hv | hv | hv
    · simp [hk, hv]
    · rcases lt_trichotomy l.source m.source with hs | hs | hs
      · simp [hk, hv, hs]
      · have hlm : l = m := by cases l; cases m; simp_all
        subst hlm
        simp
      · have hne : l ≠ m := by rintro rfl; exact lt_irrefl _ hs
        simp [hk, hv, hs, hne, not_lt_of_gt hs]
    · have hne : l ≠ m := by rintro rfl; exact lt_irrefl _ hv
      simp [hk, hv, hv.ne', hne, not_lt_of_gt hv]
  · have hne : l ≠ m := by rintro rfl; exact lt_irrefl _ hk
    simp [hk, hk.ne', hne, not_lt_of_gt hk]

theorem less_iff_lt (a b : LabelArray) : a.less b = true ↔ a.ord < b.ord := by
  induction a generalizing b with
  | nil => cases b <;> simp [LabelArray.less, LabelArray.ord, List.nil_lt_cons]
  | cons l ls ih =>
    cases b with
    | nil => simp [LabelArray.less, LabelArray.ord, List.not_lt_nil]
    | cons m ms =>
      simp only [LabelArray.ord, List.map_cons] at ih ⊢
      rw [less_cons_cons, ih, List.cons_lt_cons_iff, Label.triple_injective.eq_iff]

theorem less_irrefl (a : LabelArray) : a.less a = false := by
  rw [← Bool.not_eq_true, less_iff_lt]
  exact lt_irrefl _

theorem less_trans {a b c : LabelArray} (hab : a.less b = true) (hbc : b.less c = true) :
    a.less c = true := by
  rw [less_iff_lt] at hab hbc ⊢
  exact hab.trans hbc

theorem less_or_less_of_ne {a b : LabelArray} (h : a ≠ b) : a.less b = true ∨ b.less a = true := by
  rw [less_iff_lt, less_iff_lt]
  have hne : a.ord ≠ b.ord := fun e => h ((List.map_injective_iff.mpr Label.triple_injective) e)
  exact hne.lt_or_gt

theorem equals_iff_eq {a b : LabelArray} (h : ∀ l ∈ a, l.isAnySource = false) :
    a.equals b = true ↔ a = b := by
  induction a generalizing b with
  | nil => cases b <;> simp [LabelArray.equals]
  | cons l ls ih =>
    cases b with
    | nil => simp [LabelArray.equals]
    | cons m ms =>
      have hl := Label.equals_iff_eq (m := m) (h l (by simp))
      have ih' := @ih ms (fun l' hl' => h l' (List.mem_cons_of_mem _ hl'))
      simp only [LabelArray.equals, List.length_cons, List.zip_cons_cons, List.all_cons,
        Nat.add_right_cancel_iff, beq_iff_eq, Bool.and_eq_true, List.cons.injEq] at ih' ⊢
      rw [← hl]
      constructor
      · rintro ⟨hlen, he, hall⟩
        exact ⟨he, ih'.mp ⟨hlen, hall⟩⟩
      · rintro ⟨he, hrest⟩
        exact ⟨(ih'.mpr hrest).1, he, (ih'.mpr hrest).2⟩

end LabelArray

/-! ### The list merge is the sorted union -/

namespace LabelArrayList

section Merge

variable (lsp incl : LabelArrayList)

/-- What holds at each test of the loop of `mergeSorted`: the list is strictly sorted, holds the
receiver and the first `i` arrays of `incl`, and its first `j` arrays come before every array
of `incl` from `i` on. -/
structure MergeInv (i j : ℕ) (merged : LabelArrayList) : Prop where
  sorted : merged.Pairwise fun a b => a.less b = true
  below : ∀ x ∈ merged.take j, ∀ y ∈ incl.drop i, x.less y = true
  mem : ∀ x, x ∈ merged ↔ x ∈ lsp ∨ x ∈ incl.take i
  le : j ≤ merged.length

variable {lsp incl}

theorem take_succ_mem {α : Type*} {l : List α} {i : ℕ} (h : i < l.length) {x : α} :
    x ∈ l.take (i + 1) ↔ x ∈ l.take i ∨ x = l[i] := by
  rw [← List.take_concat_get' l i h, List.mem_append, List.mem_singleton]

/-- In a strictly sorted list, the array at `i` comes before every later one. -/
theorem less_of_mem_drop {l : LabelArrayList} (hl : l.Pairwise fun a b => a.less b = true)
    {i : ℕ} (hi : i < l.length) : ∀ y ∈ l.drop (i + 1), l[i].less y = true := by
  have hd := hl.sublist (List.drop_sublist i l)
  rw [List.drop_eq_getElem_cons hi, List.pairwise_cons] at hd
  exact hd.1

theorem mem_drop_iff {l : LabelArrayList} {i : ℕ} (hi : i < l.length) {y : LabelArray} :
    y ∈ l.drop i ↔ y = l[i] ∨ y ∈ l.drop (i + 1) := by
  rw [List.drop_eq_getElem_cons hi, List.mem_cons]

/-- The arrays of `incl` from `i` on come after its array at `i`, or are it. -/
theorem le_of_mem_drop {l : LabelArrayList} (hl : l.Pairwise fun a b => a.less b = true)
    {i : ℕ} (hi : i < l.length) {x y : LabelArray} (hx : x.less l[i] = true)
    (hy : y ∈ l.drop i) : x.less y = true := by
  rcases (mem_drop_iff hi).mp hy with rfl | hy
  · exact hx
  · exact LabelArray.less_trans hx (less_of_mem_drop hl hi y hy)

theorem MergeInv.init (hlsp : lsp.Pairwise fun a b => a.less b = true) :
    MergeInv lsp incl 0 0 lsp where
  sorted := hlsp
  below := by simp
  mem := by simp
  le := Nat.zero_le _

section Step

variable (hincl : incl.Pairwise fun a b => a.less b = true) {i j : ℕ} {merged : LabelArrayList}
  (hinv : MergeInv lsp incl i j merged) (hi : i < incl.length) (hj : j < merged.length)
include hincl hinv hi hj

/-- An array of `incl` before `merged[j]` is inserted there. -/
theorem MergeInv.insert (hlt : incl[i].less merged[j] = true) :
    MergeInv lsp incl (i + 1) (j + 1) (merged.insertIdx j incl[i]) := by
  have hsplit := GoSlices.insertIdx_eq_take_drop merged incl[i] hinv.le
  have hm := List.take_append_drop j merged
  have hsorted := hinv.sorted
  rw [← hm, List.pairwise_append] at hsorted
  obtain ⟨hP, hR, hPR⟩ := hsorted
  have hxR : ∀ b ∈ merged.drop j, incl[i].less b = true := by
    intro b hb
    rw [List.drop_eq_getElem_cons hj] at hR hb
    rcases List.mem_cons.mp hb with rfl | hb
    · exact hlt
    · exact LabelArray.less_trans hlt ((List.pairwise_cons.mp hR).1 b hb)
  have hPx : ∀ a ∈ merged.take j, a.less incl[i] = true := fun a ha =>
    hinv.below a ha _ ((mem_drop_iff hi).mpr (.inl rfl))
  have htake : (merged.insertIdx j incl[i]).take (j + 1) = merged.take j ++ [incl[i]] := by
    have hlen : j + 1 = (merged.take j).length + 1 := by
      rw [List.length_take_of_le hinv.le]
    rw [hsplit, hlen, List.take_append, List.take_of_length_le (Nat.le_succ _),
      Nat.add_sub_cancel_left, List.take_succ_cons, List.take_zero]
  refine ⟨?_, ?_, ?_, ?_⟩
  · -- sorted: the inserted array sits between the two parts
    rw [hsplit, List.pairwise_append, List.pairwise_cons]
    refine ⟨hP, ⟨hxR, hR⟩, fun a ha b hb => ?_⟩
    rcases List.mem_cons.mp hb with rfl | hb
    · exact hPx a ha
    · exact hPR a ha b hb
  · intro x hx y hy
    rw [htake, List.mem_append, List.mem_singleton] at hx
    have hy' : y ∈ incl.drop i := (mem_drop_iff hi).mpr (.inr hy)
    rcases hx with hx | rfl
    · exact hinv.below x hx y hy'
    · exact less_of_mem_drop hincl hi y hy
  · intro x
    rw [List.mem_insertIdx hinv.le, take_succ_mem hi, hinv.mem]
    tauto
  · rw [List.length_insertIdx_of_le_length hinv.le]
    omega

/-- An array of `incl` equal to `merged[j]` is skipped, and so is `merged[j]`. -/
theorem MergeInv.equal (heq : incl[i] = merged[j]) :
    MergeInv lsp incl (i + 1) (j + 1) merged := by
  refine ⟨hinv.sorted, ?_, ?_, hj⟩
  · intro x hx y hy
    rw [← List.take_concat_get' merged j hj, List.mem_append, List.mem_singleton] at hx
    rcases hx with hx | rfl
    · exact hinv.below x hx y ((mem_drop_iff hi).mpr (.inr hy))
    · rw [← heq]
      exact less_of_mem_drop hincl hi y hy
  · intro x
    rw [take_succ_mem hi, ← or_assoc, ← hinv.mem]
    constructor
    · exact .inl
    · rintro (h | rfl)
      · exact h
      · rw [heq]
        exact List.getElem_mem hj

/-- `merged[j]`, before the array of `incl` at `i`, is passed. -/
theorem MergeInv.skip (hlt : merged[j].less incl[i] = true) :
    MergeInv lsp incl i (j + 1) merged := by
  refine ⟨hinv.sorted, ?_, hinv.mem, hj⟩
  intro x hx y hy
  rw [← List.take_concat_get' merged j hj, List.mem_append, List.mem_singleton] at hx
  rcases hx with hx | rfl
  · exact hinv.below x hx y hy
  · exact le_of_mem_drop hincl hi hlt hy

end Step

/-- The loop ends with the invariant, and with the whole list below the arrays of `incl` it has
not reached. -/
theorem mergeSortedLoop_inv (hincl : incl.Pairwise fun a b => a.less b = true)
    (hany : ∀ a ∈ incl, ∀ l ∈ a, l.isAnySource = false) {i j : ℕ} {merged : LabelArrayList}
    (hinv : MergeInv lsp incl i j merged) :
    let r := mergeSortedLoop incl i j merged
    MergeInv lsp incl r.1 r.2.length r.2 ∨ incl.length ≤ r.1 ∧
      (∀ x, x ∈ r.2 ↔ x ∈ lsp ∨ x ∈ incl) ∧ r.2.Pairwise fun a b => a.less b = true := by
  fun_induction mergeSortedLoop incl i j merged with
  | case1 i j merged h hlt ih => exact ih (hinv.insert hincl h.1 h.2 hlt)
  | case2 i j merged h hlt heq ih =>
    have he := (LabelArray.equals_iff_eq (hany _ (List.getElem_mem h.1))).mp heq
    exact ih (hinv.equal hincl h.1 h.2 he)
  | case3 i j merged h hlt heq ih =>
    have hne : incl[i] ≠ merged[j] := fun e =>
      heq ((LabelArray.equals_iff_eq (hany _ (List.getElem_mem h.1))).mpr e)
    have hgt : merged[j].less incl[i] = true := by
      rcases LabelArray.less_or_less_of_ne hne with h' | h'
      · simp [h'] at hlt
      · exact h'
    exact ih (hinv.skip hincl h.1 h.2 hgt)
  | case4 i j merged h =>
    dsimp only
    by_cases hi : i < incl.length
    · left
      have hj : j = merged.length := by
        have := hinv.le
        omega
      exact hj ▸ hinv
    · right
      refine ⟨Nat.le_of_not_lt hi, fun x => ?_, hinv.sorted⟩
      rw [hinv.mem, List.take_of_length_le (Nat.le_of_not_lt hi)]

/-- Two strictly sorted lists with the same arrays are equal. -/
theorem eq_of_sorted_of_mem_iff {l m : LabelArrayList}
    (hl : l.Pairwise fun a b => a.less b = true) (hm : m.Pairwise fun a b => a.less b = true)
    (h : ∀ x, x ∈ l ↔ x ∈ m) : l = m := by
  have hnodup : ∀ {k : LabelArrayList}, (k.Pairwise fun a b => a.less b = true) → k.Nodup :=
    fun hk => hk.imp fun hab e => by rw [e, LabelArray.less_irrefl] at hab; cases hab
  refine List.Perm.eq_of_pairwise (fun a b _ _ hab hba => ?_) hl hm
    ((List.perm_ext_iff_of_nodup (hnodup hl) (hnodup hm)).mpr h)
  have := LabelArray.less_trans hab hba
  rw [LabelArray.less_irrefl] at this
  cases this

theorem mergeSorted_sorted_union (hlsp : lsp.Pairwise fun a b => a.less b = true)
    (hincl : incl.Pairwise fun a b => a.less b = true)
    (hany : ∀ a ∈ incl, ∀ l ∈ a, l.isAnySource = false) :
    ((lsp.mergeSorted incl).Pairwise fun a b => a.less b = true) ∧
      (∀ x, x ∈ lsp.mergeSorted incl ↔ x ∈ lsp ∨ x ∈ incl) ∧
      ∀ M : LabelArrayList, (M.Pairwise fun a b => a.less b = true) →
        (∀ x, x ∈ M ↔ x ∈ lsp ∨ x ∈ incl) → lsp.mergeSorted incl = M := by
  have hres : ((lsp.mergeSorted incl).Pairwise fun a b => a.less b = true) ∧
      ∀ x, x ∈ lsp.mergeSorted incl ↔ x ∈ lsp ∨ x ∈ incl := by
    unfold LabelArrayList.mergeSorted
    have hloop := mergeSortedLoop_inv hincl hany (@MergeInv.init lsp incl hlsp)
    generalize mergeSortedLoop incl 0 0 lsp = r at hloop ⊢
    obtain ⟨i, merged⟩ := r
    dsimp only at hloop ⊢
    rcases hloop with hinv | ⟨hle, hmem, hs⟩
    · split_ifs with hi
      · -- the arrays of incl not reached are appended after the whole list
        refine ⟨?_, fun x => ?_⟩
        · rw [List.pairwise_append]
          refine ⟨hinv.sorted, hincl.sublist (List.drop_sublist _ _), fun a ha b hb => ?_⟩
          rw [← List.take_length (l := merged)] at ha
          exact hinv.below a ha b hb
        · rw [List.mem_append, hinv.mem, or_assoc, ← List.mem_append, List.take_append_drop]
      · refine ⟨hinv.sorted, fun x => ?_⟩
        rw [hinv.mem, List.take_of_length_le (Nat.le_of_not_lt hi)]
    · rw [if_neg (Nat.not_lt_of_ge hle)]
      exact ⟨hs, hmem⟩
  exact ⟨hres.1, hres.2, fun M hM hmem =>
    eq_of_sorted_of_mem_iff hres.1 hM fun x => (hres.2 x).trans (hmem x).symm⟩

theorem mergeSorted_sorted_union_k8s :
    let L1 : LabelArrayList := [[⟨"c", "", "k8s"⟩], [⟨"e", "", "k8s"⟩]]
    let L2 : LabelArrayList := [[⟨"a", "", "k8s"⟩], [⟨"d", "", "k8s"⟩]]
    (L1.Pairwise fun a b => a.less b = true) ∧ (L2.Pairwise fun a b => a.less b = true) ∧
      (∀ a ∈ L2, ∀ l ∈ a, l.isAnySource = false) ∧
      ((L1.mergeSorted L2).Pairwise fun a b => a.less b = true) ∧
      (∀ x, x ∈ L1.mergeSorted L2 ↔ x ∈ L1 ∨ x ∈ L2) ∧
      ∀ M : LabelArrayList, (M.Pairwise fun a b => a.less b = true) →
        (∀ x, x ∈ M ↔ x ∈ L1 ∨ x ∈ L2) → L1.mergeSorted L2 = M := by
  intro L1 L2
  have h1 : L1.Pairwise fun a b => a.less b = true := by decide
  have h2 : L2.Pairwise fun a b => a.less b = true := by decide
  have h3 : ∀ a ∈ L2, ∀ l ∈ a, l.isAnySource = false := by decide
  exact ⟨h1, h2, h3, mergeSorted_sorted_union h1 h2 h3⟩

/-- Without the hypothesis on sources: `[any:k]` is not `less` than `[a:k]` and `equals` it. -/
theorem mergeSorted_drops_any_source :
    let L1 : LabelArrayList := [[⟨"k", "", "a"⟩]]
    let L2 : LabelArrayList := [[⟨"k", "", "any"⟩]]
    L1.SortedSet ∧ L2.SortedSet ∧ [⟨"k", "", "any"⟩] ∈ L2 ∧
      L1.mergeSorted L2 = [[⟨"k", "", "a"⟩]] := by
  decide +kernel

end Merge

end LabelArrayList

end Cilium
