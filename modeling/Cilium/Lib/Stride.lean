import Mathlib.Data.Nat.ModEq
import Mathlib.Data.Finset.Card

/-! The stride `x, x + s, x + 2 * s, …` taken modulo `m`.  When `s` is coprime to `m`, its first
`m` terms are the residues below `m`, each once.  A walk along the stride that has visited the
first `k` terms, with a set `F` of slots occupied, still has a term ahead of it outside `F` as
long as the visited terms and `F` together cover fewer than `m` slots. -/

namespace Stride

variable {m x s : ℕ}

/-- The `j`-th term of the stride from `x` by `s`, modulo `m`. -/
def term (m x s j : ℕ) : ℕ := (x + j * s) % m

/-- The slots of the first `k` terms. -/
def visited (m x s k : ℕ) : Finset ℕ := (Finset.range k).image (term m x s)

theorem term_lt (hm : 0 < m) (j : ℕ) : term m x s j < m := Nat.mod_lt _ hm

theorem term_succ (j : ℕ) : term m x s (j + 1) = (term m x s j + s) % m := by
  unfold term
  rw [Nat.mod_add_mod, Nat.add_mul, Nat.one_mul, Nat.add_assoc]

theorem term_start_succ (j : ℕ) : term m ((x + s) % m) s j = term m x s (j + 1) := by
  unfold term
  rw [Nat.mod_add_mod, Nat.add_mul, Nat.one_mul]
  congr 1
  omega

theorem term_injOn (hcop : Nat.Coprime s m) :
    Set.InjOn (term m x s) (Finset.range m : Set ℕ) := by
  intro j hj j' hj' heq
  have hj : j < m := Finset.mem_range.mp hj
  have hj' : j' < m := Finset.mem_range.mp hj'
  -- cancel `x`, then the unit `s`, in the congruence of the two terms
  have hs : j * s ≡ j' * s [MOD m] := Nat.ModEq.add_left_cancel' x heq
  have hmul : j ≡ j' [MOD m] :=
    Nat.ModEq.cancel_right_of_coprime (Nat.Coprime.symm hcop) hs
  exact Nat.ModEq.eq_of_lt_of_lt hmul hj hj'

theorem visited_range (hm : 0 < m) (hcop : Nat.Coprime s m) :
    visited m x s m = Finset.range m := by
  apply Finset.eq_of_subset_of_card_le
  · intro c hc
    obtain ⟨j, _, rfl⟩ := Finset.mem_image.mp hc
    exact Finset.mem_range.mpr (term_lt hm j)
  · rw [visited, Finset.card_image_of_injOn (term_injOn hcop)]

theorem term_surj (hm : 0 < m) (hcop : Nat.Coprime s m) {c : ℕ} (hc : c < m) :
    ∃ j < m, term m x s j = c := by
  have hmem : c ∈ visited m x s m := by
    rw [visited_range hm hcop]
    exact Finset.mem_range.mpr hc
  obtain ⟨j, hj, hjc⟩ := Finset.mem_image.mp hmem
  exact ⟨j, Finset.mem_range.mp hj, hjc⟩

theorem visited_succ (k : ℕ) :
    visited m x s (k + 1) = insert (term m x s k) (visited m x s k) := by
  rw [visited, Finset.range_add_one, Finset.image_insert, ← visited]

theorem term_mem_visited {j k : ℕ} (hjk : j < k) : term m x s j ∈ visited m x s k :=
  Finset.mem_image.mpr ⟨j, Finset.mem_range.mpr hjk, rfl⟩

/-- The pigeonhole step of a probe along the stride: if the first `k` terms and the occupied
slots `F` cover fewer than `m` slots, some term at or after `k`, and before `m`, is free. -/
theorem exists_free (hm : 0 < m) (hcop : Nat.Coprime s m) {k : ℕ} (F : Finset ℕ)
    (hcard : (visited m x s k ∪ F).card < m) :
    ∃ j, k ≤ j ∧ j < m ∧ term m x s j ∉ F := by
  have hlt : (visited m x s k ∪ F).card < (Finset.range m).card := by
    rwa [Finset.card_range]
  obtain ⟨c, hc, hcnot⟩ := Finset.exists_mem_notMem_of_card_lt_card hlt
  obtain ⟨j, hj, rfl⟩ := term_surj (x := x) hm hcop (Finset.mem_range.mp hc)
  have hk : k ≤ j := by
    by_contra hjk
    exact hcnot (Finset.mem_union_left F (term_mem_visited (Nat.lt_of_not_le hjk)))
  exact ⟨j, hk, hj, fun hF => hcnot (Finset.mem_union_right _ hF)⟩

end Stride
