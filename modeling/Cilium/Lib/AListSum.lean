import Mathlib

/-! Sums over the entries of an association list: `AList.sumBy f m` adds `f a b` over the
entries `⟨a, b⟩` of `m`.  Counting the keys whose value has some property is the sum of its
indicator, and a table of reference counts sums to the references it holds.  The lemmas say how
a sum changes when one key is set or erased, which is how a proof follows a program that
updates a map one key at a time. -/

namespace AList

variable {α : Type} [DecidableEq α] {β : α → Type}

/-- The sum of `f` over the entries of `m`. -/
def sumBy (f : (a : α) → β a → Nat) (m : AList β) : Nat :=
  (m.entries.map fun s => f s.1 s.2).sum

/-- `f` at the entry of `a`, or `0` when `a` has none. -/
def sumAt (f : (a : α) → β a → Nat) (m : AList β) (a : α) : Nat :=
  ((m.lookup a).map (f a)).getD 0

omit [DecidableEq α] in
@[simp] theorem sumBy_empty (f : (a : α) → β a → Nat) : sumBy f (∅ : AList β) = 0 := rfl

theorem sumAt_of_lookup_eq_none {f : (a : α) → β a → Nat} {m : AList β} {a : α}
    (h : m.lookup a = none) : sumAt f m a = 0 := by
  simp [sumAt, h]

theorem sumAt_of_lookup_eq_some {f : (a : α) → β a → Nat} {m : AList β} {a : α} {b : β a}
    (h : m.lookup a = some b) : sumAt f m a = f a b := by
  simp [sumAt, h]

/-- Erasing the first entry of a key from a list of entries takes its term out of the sum. -/
theorem sum_kerase (f : (a : α) → β a → Nat) (a : α) (l : List (Sigma β)) :
    ((l.kerase a).map fun s => f s.1 s.2).sum + ((l.dlookup a).map (f a)).getD 0 =
      (l.map fun s => f s.1 s.2).sum := by
  induction l with
  | nil => simp
  | cons s l ih =>
    obtain ⟨a', b'⟩ := s
    by_cases h : a = a'
    · subst h
      simp [List.kerase_cons_eq, List.dlookup_cons_eq, Nat.add_comm]
    · rw [List.kerase_cons_ne h, List.dlookup_cons_ne _ _ h]
      simp only [List.map_cons, List.sum_cons]
      omega

theorem sumBy_erase (f : (a : α) → β a → Nat) (m : AList β) (a : α) :
    sumBy f (m.erase a) + sumAt f m a = sumBy f m :=
  sum_kerase f a m.entries

/-- Setting a key replaces its term in the sum. -/
theorem sumBy_insert (f : (a : α) → β a → Nat) (m : AList β) (a : α) (b : β a) :
    sumBy f (m.insert a b) + sumAt f m a = sumBy f m + f a b := by
  have h := sumBy_erase f m a
  have hins : sumBy f (m.insert a b) = f a b + sumBy f (m.erase a) := by
    simp [sumBy, AList.entries_insert, AList.erase]
  omega

theorem sumBy_insert_of_lookup_eq_none {f : (a : α) → β a → Nat} {m : AList β} {a : α}
    (b : β a) (h : m.lookup a = none) : sumBy f (m.insert a b) = sumBy f m + f a b := by
  have := sumBy_insert f m a b
  rw [sumAt_of_lookup_eq_none h] at this
  omega

/-- Sums of two functions that agree on the entries agree. -/
theorem sumBy_congr {f g : (a : α) → β a → Nat} {m : AList β}
    (h : ∀ a b, m.lookup a = some b → f a b = g a b) : sumBy f m = sumBy g m := by
  unfold sumBy
  congr 1
  refine List.map_congr_left fun s hs => h s.1 s.2 ?_
  exact AList.mem_lookup_iff.mpr hs

/-- A sum over a map with no entries that count is zero. -/
theorem sumBy_eq_zero {f : (a : α) → β a → Nat} {m : AList β}
    (h : ∀ a b, m.lookup a = some b → f a b = 0) : sumBy f m = 0 := by
  rw [sumBy_congr (g := fun _ _ => 0) h]
  simp [sumBy]

omit [DecidableEq α] in
/-- The sum of an indicator counts the entries where it holds. -/
theorem sumBy_ite_eq_count {γ : Type} [DecidableEq γ] (g : (a : α) → β a → γ) (m : AList β) (c : γ) :
    sumBy (fun a b => if g a b = c then 1 else 0) m = (m.entries.map fun s => g s.1 s.2).count c := by
  unfold sumBy
  induction m.entries with
  | nil => rfl
  | cons s l ih =>
    simp only [List.map_cons, List.sum_cons, List.count_cons, ih, beq_iff_eq]
    omega

end AList
