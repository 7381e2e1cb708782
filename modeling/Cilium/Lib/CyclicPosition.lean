import Mathlib.Tactic.Common

/-! Positions modulo `D * C` seen as a cycle `p / D` below `C` and a slot `p % D` below `D`, as a
ring buffer of `D` slots with a wrapping counter reads them.  The distance of `p` behind `L`
modulo `D * C` is `(D * C - p + L) % (D * C)`; the lemmas say which cycles and slots a distance
below `D` comes from, and when a window of cycles ahead of `L` is crossed. -/

namespace CyclicPosition

variable {D C h p L : Nat}

theorem div_mod_of_eq {q s : Nat} (hD : 0 < D) (hs : s < D) (hp : p = q * D + s) :
    p / D = q ∧ p % D = s := by
  subst hp
  constructor
  · rw [Nat.add_comm, Nat.add_mul_div_right _ _ hD, Nat.div_eq_of_lt hs, Nat.zero_add]
  · rw [Nat.add_comm, Nat.add_mul_mod_self_right, Nat.mod_eq_of_lt hs]

theorem sub_add_mod_of_le {N : Nat} (hp : p ≤ L) (hL : L < N) : (N - p + L) % N = L - p := by
  rw [show N - p + L = L - p + N by omega, Nat.add_mod_right, Nat.mod_eq_of_lt (by omega)]

theorem sub_add_mod_of_lt {N : Nat} (hp : L < p) (hpN : p < N) :
    (N - p + L) % N = N - p + L :=
  Nat.mod_eq_of_lt (by omega)

theorem prev_cycle_of_pos {a : Nat} (ha : 0 < a) (haC : a ≤ C) : (a + C - 1) % C = a - 1 := by
  rw [show a + C - 1 = a - 1 + C by omega, Nat.add_mod_right, Nat.mod_eq_of_lt (by omega)]

theorem prev_cycle_zero (hC : 0 < C) : (0 + C - 1) % C = C - 1 := by
  rw [Nat.zero_add]
  exact Nat.mod_eq_of_lt (by omega)

/-- Going back one from zero modulo a multiple of C lands on C - 1 modulo C. -/
theorem sub_one_add_mod {m a : Nat} (hm : 0 < m) (hC : 0 < C) :
    (m * C - 1 + a) % C = (a + C - 1) % C := by
  have hCm : (m - 1) * C + C = m * C := by
    rw [Nat.sub_one_mul]
    have : C ≤ m * C := Nat.le_mul_of_pos_left C hm
    omega
  rw [show m * C - 1 + a = a + C - 1 + (m - 1) * C by omega, Nat.add_mul_mod_self_right]

theorem prev_mul_add {a : Nat} (ha : 0 < a) : (a - 1) * D + D = a * D := by
  rw [Nat.sub_one_mul]
  have : D ≤ a * D := Nat.le_mul_of_pos_left D ha
  omega

theorem sub_one_mul_add (hC : 0 < C) : (C - 1) * D + D = D * C := by
  rw [Nat.sub_one_mul, Nat.mul_comm C D]
  have : D ≤ D * C := Nat.le_mul_of_pos_right D hC
  omega

/-- A reader in the writer's cycle behind its slot is one to `L % D` behind the last write. -/
theorem writer_cycle_iff (hD : 0 < D) (hL : L < D * C) (hp : p < D * C) :
    (p / D = L / D ∧ p % D < L % D) ↔
      (1 ≤ (D * C - p + L) % (D * C) ∧ (D * C - p + L) % (D * C) ≤ L % D) := by
  have hLdm := Nat.div_add_mod' L D
  have hpdm := Nat.div_add_mod' p D
  have hi : L % D < D := Nat.mod_lt L hD
  constructor
  · rintro ⟨hb, hj⟩
    rw [hb] at hpdm
    rw [sub_add_mod_of_le (by omega) hL]
    omega
  · rintro ⟨h1, h2⟩
    by_cases hpl : p ≤ L
    · rw [sub_add_mod_of_le hpl hL] at h1 h2
      obtain ⟨hb', hj'⟩ := div_mod_of_eq hD (by omega : L % D - (L - p) < D)
        (by omega : p = L / D * D + (L % D - (L - p)))
      omega
    -- a position after the last write is at least L + 1 behind it
    · rw [sub_add_mod_of_lt (by omega) hp] at h2
      omega

/-- A reader in the previous cycle ahead of the writer's slot is `L % D + 1` to `D - 1` behind
the last write; from cycle zero the previous cycle is the last one. -/
theorem prev_cycle_iff (hD : 0 < D) (hC : 2 ≤ C) (hL : L < D * C) (hp : p < D * C) :
    (p / D = (L / D + C - 1) % C ∧ L % D < p % D) ↔
      (L % D < (D * C - p + L) % (D * C) ∧ (D * C - p + L) % (D * C) < D) := by
  have hLdm := Nat.div_add_mod' L D
  have hpdm := Nat.div_add_mod' p D
  have hj : p % D < D := Nat.mod_lt p hD
  have ha : L / D < C := Nat.div_lt_of_lt_mul hL
  have hcyc := sub_one_mul_add (D := D) (by omega : 0 < C)
  constructor
  · rintro ⟨hb, hj⟩
    rcases Nat.eq_zero_or_pos (L / D) with ha0 | ha0
    -- the writer in cycle 0 and the reader in the last cycle: the distance wraps
    · rw [ha0, prev_cycle_zero (by omega)] at hb
      rw [hb] at hpdm
      rw [ha0, Nat.zero_mul] at hLdm
      rw [sub_add_mod_of_lt (by omega) hp]
      omega
    · rw [prev_cycle_of_pos ha0 (Nat.le_of_lt ha)] at hb
      rw [hb] at hpdm
      have hcyc' := prev_mul_add (D := D) ha0
      rw [sub_add_mod_of_le (by omega) hL]
      omega
  · rintro ⟨h1, h2⟩
    by_cases hpl : p ≤ L
    -- the slot difference wraps within a cycle, so the writer is past cycle 0
    · rw [sub_add_mod_of_le hpl hL] at h1 h2
      have ha0 : 0 < L / D := by
        rcases Nat.eq_zero_or_pos (L / D) with ha0 | ha0
        · rw [ha0, Nat.zero_mul] at hLdm
          omega
        · exact ha0
      have hcyc' := prev_mul_add (D := D) ha0
      obtain ⟨hb', hj'⟩ := div_mod_of_eq hD (by omega : D + L % D - (L - p) < D)
        (by omega : p = (L / D - 1) * D + (D + L % D - (L - p)))
      rw [prev_cycle_of_pos ha0 (Nat.le_of_lt ha)]
      omega
    -- the reader ahead of the writer by position: only a wrap from cycle 0 is close enough
    · rw [sub_add_mod_of_lt (by omega) hp] at h1 h2
      have hLD : L < D := by omega
      rw [Nat.div_eq_of_lt hLD, Nat.mod_eq_of_lt hLD, prev_cycle_zero (by omega)]
      obtain ⟨hb', hj'⟩ := div_mod_of_eq hD (by omega : p - (C - 1) * D < D)
        (by omega : p = (C - 1) * D + (p - (C - 1) * D))
      omega

/-- When the writer's cycle leaves room for `h` cycles ahead of it, the reader is in that window
and not behind the last write iff it is less than `h * D - L % D` past the last write. -/
theorem ahead_iff (hD : 0 < D) (hL : L < D * C) (hp : p < D * C) (hlow : L / D + h < C)
    (hnot : ¬(p / D = L / D ∧ p % D < L % D)) :
    (L / D ≤ p / D ∧ p / D < (L / D + h) % C) ↔ (D * C - L + p) % (D * C) < h * D - L % D := by
  have hLdm := Nat.div_add_mod' L D
  have hpdm := Nat.div_add_mod' p D
  have hi : L % D < D := Nat.mod_lt L hD
  have hj : p % D < D := Nat.mod_lt p hD
  have hhD : (L / D + h) * D + D ≤ D * C := by
    rw [Nat.mul_comm D C, ← Nat.succ_mul]
    exact Nat.mul_le_mul_right D hlow
  rw [Nat.add_mul] at hhD
  rw [Nat.mod_eq_of_lt hlow]
  constructor
  · rintro ⟨h1, h2⟩
    -- a reader in the writer's cycle is at or after its slot, one in a later cycle is past it
    have hpL : L ≤ p := by
      rcases Nat.eq_or_lt_of_le h1 with h1 | h1
      · rw [h1] at hLdm
        omega
      · have : (L / D + 1) * D ≤ p / D * D := Nat.mul_le_mul_right D h1
        rw [Nat.add_mul, Nat.one_mul] at this
        omega
    have hbD : (p / D + 1) * D ≤ (L / D + h) * D := Nat.mul_le_mul_right D h2
    rw [Nat.add_mul, Nat.add_mul, Nat.one_mul] at hbD
    rw [sub_add_mod_of_le hpL hp]
    omega
  · intro ht
    by_cases hpL : L ≤ p
    · rw [sub_add_mod_of_le hpL hp] at ht
      refine ⟨Nat.div_le_div_right hpL, ?_⟩
      rw [Nat.div_lt_iff_lt_mul hD, Nat.add_mul]
      omega
    -- a position before the last write would be more than the whole window past it
    · rw [sub_add_mod_of_lt (by omega) hL] at ht
      omega

/-- When the window of `h` cycles ahead of the writer wraps past the last cycle, its end is
below the writer's cycle and no cycle lies in it. -/
theorem not_ahead_of_wrap (hL : L < D * C) (hh : h < C) (hhigh : C ≤ L / D + h) :
    ¬(L / D ≤ p / D ∧ p / D < (L / D + h) % C) := by
  have ha : L / D < C := Nat.div_lt_of_lt_mul hL
  rw [show L / D + h = L / D + h - C + C by omega, Nat.add_mod_right,
    Nat.mod_eq_of_lt (by omega)]
  omega

end CyclicPosition
