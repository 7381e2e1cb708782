import Mathlib

/-! Aligned blocks of naturals: the block of `2 ^ k` numbers that holds `x` is the numbers with
the quotient of `x` by `2 ^ k`.  Two blocks that share a number are nested, and the complement
`2 ^ w - 1 - p` maps blocks below `2 ^ w` to blocks.  `climb s lo n` is the run of blocks that
carries `s` up to the end of its block of `2 ^ (lo + n)`, one block for each clear bit of `s`
from `lo` on, each just past the last.  A block that lies in a set while its parent block does
not holds every block in the set that meets it, so that a cover of the set needs a member of its
own inside each of a family of disjoint such blocks. -/

namespace Dyadic

/-- `p` is in the block of `2 ^ k` numbers that holds `x`. -/
def InBlock (k x p : Nat) : Prop := p / 2 ^ k = x / 2 ^ k

instance (k x p : Nat) : Decidable (InBlock k x p) := inferInstanceAs (Decidable (_ = _))

section Blocks

variable {k j x y p q : Nat}

theorem InBlock.refl (k x : Nat) : InBlock k x x := rfl

theorem InBlock.symm (h : InBlock k x p) : InBlock k p x := Eq.symm h

theorem InBlock.trans (h1 : InBlock k x p) (h2 : InBlock k y x) : InBlock k y p := Eq.trans h1 h2

/-- The block of `2 ^ j` that holds a block of `2 ^ k`, for `k ≤ j`. -/
theorem InBlock.mono (h : InBlock k x p) (hkj : k ≤ j) : InBlock j x p := by
  have hsplit : ∀ n, n / 2 ^ j = n / 2 ^ k / 2 ^ (j - k) := fun n => by
    rw [Nat.div_div_eq_div_mul, ← pow_add, Nat.add_sub_cancel' hkj]
  unfold InBlock at *
  rw [hsplit p, hsplit x, h]

/-- The block as an interval: `2 ^ k` numbers from the multiple of `2 ^ k` at or below `x`. -/
theorem inBlock_iff : InBlock k x p ↔ x / 2 ^ k * 2 ^ k ≤ p ∧ p < x / 2 ^ k * 2 ^ k + 2 ^ k := by
  have hpos : 0 < 2 ^ k := Nat.two_pow_pos k
  constructor
  · intro h
    rw [← show p / 2 ^ k = x / 2 ^ k from h]
    exact ⟨Nat.div_mul_le_self p _, Nat.lt_div_mul_add hpos⟩
  · rintro ⟨h1, h2⟩
    have hle : x / 2 ^ k ≤ p / 2 ^ k := (Nat.le_div_iff_mul_le hpos).mpr h1
    have hlt : p / 2 ^ k < x / 2 ^ k + 1 :=
      (Nat.div_lt_iff_lt_mul hpos).mpr (by rw [Nat.succ_mul]; exact h2)
    show p / 2 ^ k = x / 2 ^ k
    omega

/-- A block from a multiple of its size starts there. -/
theorem inBlock_iff_of_dvd (hx : 2 ^ k ∣ x) : InBlock k x p ↔ x ≤ p ∧ p < x + 2 ^ k := by
  rw [inBlock_iff, Nat.div_mul_cancel hx]

/-- A block that lies in `I` while its parent block does not holds, whole, every block in `I`
that meets it: a larger block that meets it would hold the parent. -/
theorem InBlock.of_parent_not_subset {I : Nat → Prop} (hpar : InBlock (k + 1) x q) (hq : ¬I q)
    (hsub : ∀ p, InBlock j y p → I p) (hmeet : InBlock j y x) (hp : InBlock j y p) :
    InBlock k x p := by
  rcases Nat.lt_or_ge k j with hkj | hjk
  · exact absurd (hsub q ((hpar.mono hkj).trans hmeet)) hq
  · exact (hp.trans hmeet.symm).mono hjk

end Blocks

/-! ### The complement below `2 ^ w` -/

/-- The quotient of a complement is the complement of the quotient. -/
theorem compl_div_two_pow {w k p : Nat} (hp : p < 2 ^ w) (hk : k ≤ w) :
    (2 ^ w - (p + 1)) / 2 ^ k = 2 ^ (w - k) - (p / 2 ^ k + 1) := by
  have hq : p / 2 ^ k < 2 ^ (w - k) := by
    rw [Nat.div_lt_iff_lt_mul (Nat.two_pow_pos k), ← pow_add, Nat.sub_add_cancel hk]
    exact hp
  apply Nat.eq_of_testBit_eq
  intro i
  rw [Nat.testBit_div_two_pow, Nat.testBit_two_pow_sub_succ hp, Nat.testBit_two_pow_sub_succ hq,
    Nat.testBit_div_two_pow]
  congr 1
  exact decide_eq_decide.mpr (by omega)

/-- The complement maps the block of `x` to the block of the complement of `x`. -/
theorem inBlock_compl {w k x p : Nat} (hx : x < 2 ^ w) (hp : p < 2 ^ w) (hk : k ≤ w) :
    InBlock k (2 ^ w - (x + 1)) (2 ^ w - (p + 1)) ↔ InBlock k x p := by
  have hbound : ∀ n, n < 2 ^ w → n / 2 ^ k < 2 ^ (w - k) := fun n hn => by
    rw [Nat.div_lt_iff_lt_mul (Nat.two_pow_pos k), ← pow_add, Nat.sub_add_cancel hk]
    exact hn
  unfold InBlock
  rw [compl_div_two_pow hp hk, compl_div_two_pow hx hk]
  have := hbound x hx
  have := hbound p hp
  omega

/-! ### Climbing from `s` to the end of its block -/

/-- The last number of the block of `2 ^ b` that holds `s`. -/
def top (s b : Nat) : Nat := s / 2 ^ b * 2 ^ b + 2 ^ b - 1

/-- The blocks that carry `s` up through bits `lo` to `lo + n - 1`: for each of them clear in
`s`, the block of `2 ^ b` that follows the one holding `s`. -/
def climb (s lo n : Nat) : List (Nat × Nat) :=
  ((List.range' lo n).filter fun b => !s.testBit b).map fun b => (b, s + 2 ^ b)

theorem climb_zero (s lo : Nat) : climb s lo 0 = [] := rfl

theorem climb_succ (s lo n : Nat) :
    climb s lo (n + 1) =
      (if s.testBit lo then [] else [(lo, s + 2 ^ lo)]) ++ climb s (lo + 1) n := by
  unfold climb
  rw [List.range'_succ, List.filter_cons]
  cases s.testBit lo <;> simp

theorem le_top (s b : Nat) : s ≤ top s b := by
  have := Nat.lt_div_mul_add (a := s) (Nat.two_pow_pos b)
  unfold top
  omega

theorem inBlock_top (s b : Nat) : InBlock b s (top s b) := by
  have := Nat.two_pow_pos b
  rw [inBlock_iff]
  unfold top
  omega

section Climb

variable {s b p : Nat}

/-- The quotient of `s` by the next power of two, and the parity of the quotient by this one. -/
theorem div_two_pow_succ (s b : Nat) :
    s / 2 ^ b = 2 * (s / 2 ^ (b + 1)) + (if s.testBit b then 1 else 0) := by
  rw [pow_succ, ← Nat.div_div_eq_div_mul, Nat.testBit_eq_decide_div_mod_eq]
  have := Nat.div_add_mod (s / 2 ^ b) 2
  have := Nat.mod_two_eq_zero_or_one (s / 2 ^ b)
  split <;> simp_all

/-- A clear bit `b` doubles what is left of the block of `2 ^ b`; a set bit leaves the end where
it is. -/
theorem top_succ (s b : Nat) :
    top s (b + 1) = if s.testBit b then top s b else top s b + 2 ^ b := by
  have hd := div_two_pow_succ s b
  have hpos := Nat.two_pow_pos b
  unfold top
  generalize s / 2 ^ (b + 1) = r at hd
  rw [pow_succ, hd]
  split
  · ring_nf
  · ring_nf
    omega

/-- With bit `b` of `s` clear, the block that follows `s`'s own block of `2 ^ b` is the stretch
that the next bit adds to the top. -/
theorem inBlock_add_two_pow_iff (hb : s.testBit b = false) :
    InBlock b (s + 2 ^ b) p ↔ top s b < p ∧ p ≤ top s (b + 1) := by
  have hdiv : (s + 2 ^ b) / 2 ^ b = s / 2 ^ b + 1 := Nat.add_div_right s (Nat.two_pow_pos b)
  have hpos := Nat.two_pow_pos b
  rw [inBlock_iff, hdiv, top_succ, hb, if_neg Bool.false_ne_true, Nat.add_mul, Nat.one_mul]
  unfold top
  omega

/-- With the stretch from `s` to the top of its block of `2 ^ lo`, the climb fills the stretch
from `s` to the top of its block of `2 ^ (lo + n)`. -/
theorem mem_climb_iff (s lo n p : Nat) :
    (s ≤ p ∧ p ≤ top s lo) ∨ (∃ β ∈ climb s lo n, InBlock β.1 β.2 p) ↔
      s ≤ p ∧ p ≤ top s (lo + n) := by
  induction n generalizing lo with
  | zero => simp [climb_zero]
  | succ n ih =>
    rw [climb_succ, show lo + (n + 1) = lo + 1 + n by omega, ← ih (lo + 1), top_succ]
    have hle := le_top s lo
    cases hb : s.testBit lo
    · -- the block of the clear bit continues the stretch up to the next top
      have hblock := inBlock_add_two_pow_iff (p := p) hb
      rw [top_succ, hb, if_neg Bool.false_ne_true] at hblock
      have hjoin : (s ≤ p ∧ p ≤ top s lo ∨ InBlock lo (s + 2 ^ lo) p) ↔
          s ≤ p ∧ p ≤ top s lo + 2 ^ lo := by
        have := Nat.two_pow_pos lo
        rw [hblock]
        omega
      simp only [Bool.false_eq_true, ↓reduceIte, List.singleton_append, List.exists_mem_cons_iff,
        ← or_assoc, hjoin]
    · simp

/-- Every block of the climb lies past the stretch it starts from. -/
theorem top_lt_of_mem_climb (s lo n : Nat) :
    ∀ β ∈ climb s lo n, ∀ p, InBlock β.1 β.2 p → top s lo < p := by
  intro β hβ p hp
  have hcov := (mem_climb_iff s lo n p).mp (.inr ⟨β, hβ, hp⟩)
  unfold climb at hβ
  simp only [List.mem_map, List.mem_filter, List.mem_range', Nat.one_mul, Bool.not_eq_eq_eq_not,
    Bool.not_true] at hβ
  obtain ⟨b, ⟨⟨i, hi, rfl⟩, hbit⟩, rfl⟩ := hβ
  have hmono : top s lo ≤ top s (lo + i) := by
    clear hi hbit hp hcov
    induction i with
    | zero => rfl
    | succ i ih =>
      rw [← Nat.add_assoc, top_succ]
      have := Nat.two_pow_pos (lo + i)
      split <;> omega
  exact lt_of_le_of_lt hmono ((inBlock_add_two_pow_iff hbit).mp hp).1

/-- The blocks of the climb are pairwise disjoint. -/
theorem climb_pairwise (s lo n : Nat) :
    (climb s lo n).Pairwise fun β γ => ∀ p, InBlock β.1 β.2 p → ¬InBlock γ.1 γ.2 p := by
  induction n generalizing lo with
  | zero => exact List.Pairwise.nil
  | succ n ih =>
    rw [climb_succ]
    cases hb : s.testBit lo
    · -- the new block ends at the top from which the rest of the climb starts
      rw [if_neg Bool.false_ne_true]
      refine List.pairwise_append.mpr ⟨List.pairwise_singleton _ _, ih (lo + 1), ?_⟩
      intro β hβ γ hγ p hpβ hpγ
      simp only [List.mem_singleton] at hβ
      subst hβ
      have h1 := ((inBlock_add_two_pow_iff hb).mp hpβ).2
      have h2 := top_lt_of_mem_climb s (lo + 1) n γ hγ p hpγ
      omega
    · rw [if_pos rfl, List.nil_append]
      exact ih (lo + 1)

/-- Once `s` is off the boundary of `2 ^ lo`, the parent of every block of the climb reaches
below `s`: the block of `2 ^ b` and its parent both start at the multiple of `2 ^ b` below `s`. -/
theorem parent_below_of_mem_climb (hs : s % 2 ^ lo ≠ 0) :
    ∀ β ∈ climb s lo n, ∃ q, InBlock (β.1 + 1) β.2 q ∧ q < s := by
  intro β hβ
  unfold climb at hβ
  simp only [List.mem_map, List.mem_filter, List.mem_range', Nat.one_mul, Bool.not_eq_eq_eq_not,
    Bool.not_true] at hβ
  obtain ⟨b, ⟨⟨i, hi, rfl⟩, hbit⟩, rfl⟩ := hβ
  refine ⟨s / 2 ^ (lo + i) * 2 ^ (lo + i), ?_, ?_⟩
  · have hd := div_two_pow_succ s (lo + i)
    rw [hbit, if_neg Bool.false_ne_true] at hd
    have hsum : (s + 2 ^ (lo + i)) / 2 ^ (lo + i) = s / 2 ^ (lo + i) + 1 :=
      Nat.add_div_right s (Nat.two_pow_pos _)
    unfold InBlock
    rw [Nat.pow_succ, ← Nat.div_div_eq_div_mul, ← Nat.div_div_eq_div_mul, hsum,
      Nat.mul_div_cancel _ (Nat.two_pow_pos _), hd]
    omega
  · -- `s` is not a multiple of `2 ^ (lo + i)`, since it is not one of `2 ^ lo`
    have hne : s % 2 ^ (lo + i) ≠ 0 := fun h0 => hs (Nat.mod_eq_zero_of_dvd
      (dvd_trans (pow_dvd_pow 2 (Nat.le_add_right lo i)) (Nat.dvd_of_mod_eq_zero h0)))
    have := Nat.div_add_mod s (2 ^ (lo + i))
    have : s / 2 ^ (lo + i) * 2 ^ (lo + i) = 2 ^ (lo + i) * (s / 2 ^ (lo + i)) := Nat.mul_comm _ _
    omega

end Climb

/-! ### Ladders: from a block of `2 ^ t` to the end of the block of `2 ^ m` -/

/-- The blocks that carry `s` from the start of its block of `2 ^ t` to the end of its block of
`2 ^ m`: that block of `2 ^ t`, then the climb through the bits from `t + 1` below `m`. -/
def ladder (s t m : Nat) : List (Nat × Nat) := (t, s) :: climb s (t + 1) (m - (t + 1))

/-- Where a ladder may start: `s` is a multiple of `2 ^ t`, and unless `t` is `m` its bit `t` is
set, so that the block of `2 ^ t` is the largest that starts at `s` below `m`. -/
structure LadderStart (s t m : Nat) : Prop where
  dvd : 2 ^ t ∣ s
  le : t ≤ m
  bit : t < m → s.testBit t = true

section Ladder

variable {s t m : Nat}

theorem LadderStart.top_eq (h : LadderStart s t m) (ht : t < m) : top s (t + 1) = top s t := by
  rw [top_succ, h.bit ht, if_pos rfl]

/-- A ladder fills the stretch from `s` to the end of its block of `2 ^ m`. -/
theorem mem_ladder_iff (h : LadderStart s t m) (p : Nat) :
    (∃ β ∈ ladder s t m, InBlock β.1 β.2 p) ↔ s ≤ p ∧ p ≤ top s m := by
  have hown : InBlock t s p ↔ s ≤ p ∧ p ≤ top s t := by
    have := Nat.two_pow_pos t
    rw [inBlock_iff_of_dvd h.dvd]
    unfold top
    rw [Nat.div_mul_cancel h.dvd]
    omega
  unfold ladder
  rw [List.exists_mem_cons_iff, hown]
  rcases Nat.lt_or_ge t m with ht | ht
  · rw [← h.top_eq ht, mem_climb_iff, show t + 1 + (m - (t + 1)) = m by omega]
  · have htm : t = m := le_antisymm h.le ht
    subst htm
    simp [show t - (t + 1) = 0 by omega, climb_zero]

/-- The blocks of a ladder are pairwise disjoint. -/
theorem ladder_pairwise (h : LadderStart s t m) :
    (ladder s t m).Pairwise fun β γ => ∀ p, InBlock β.1 β.2 p → ¬InBlock γ.1 γ.2 p := by
  refine List.Pairwise.cons ?_ (climb_pairwise s (t + 1) _)
  intro γ hγ p hp hpγ
  have hlt := top_lt_of_mem_climb s (t + 1) _ γ hγ p hpγ
  have hm : t < m := by
    by_contra hle
    simp [show m - (t + 1) = 0 by omega, climb_zero] at hγ
  have := ((mem_ladder_iff h p).mp ⟨_, List.mem_cons_self, hp⟩).1
  have hown : p ≤ top s t := by
    have := Nat.two_pow_pos t
    rw [inBlock_iff_of_dvd h.dvd] at hp
    unfold top
    rw [Nat.div_mul_cancel h.dvd]
    omega
  rw [h.top_eq hm] at hlt
  omega

/-- Off the boundary of `2 ^ m`, the parent of every block of a ladder reaches below `s`. -/
theorem ladder_parent_below (h : LadderStart s t m) (ht : t < m) :
    ∀ β ∈ ladder s t m, ∃ q, InBlock (β.1 + 1) β.2 q ∧ q < s := by
  -- `s` is a multiple of `2 ^ t` with bit `t` set, so not one of `2 ^ (t + 1)`
  have hd := div_two_pow_succ s t
  rw [h.bit ht, if_pos rfl] at hd
  have hs : s % 2 ^ (t + 1) ≠ 0 := by
    intro h0
    have hdvd : 2 ^ (t + 1) ∣ s := Nat.dvd_of_mod_eq_zero h0
    have : (s / 2 ^ t) % 2 = 0 := by
      obtain ⟨c, rfl⟩ := hdvd
      rw [pow_succ, Nat.mul_assoc, Nat.mul_div_cancel_left _ (Nat.two_pow_pos t)]
      simp
    omega
  intro β hβ
  rcases List.mem_cons.mp hβ with rfl | hβ
  · refine ⟨s / 2 ^ (t + 1) * 2 ^ (t + 1), ?_, ?_⟩
    · unfold InBlock
      rw [Nat.mul_div_cancel _ (Nat.two_pow_pos _)]
    · have := Nat.div_add_mod s (2 ^ (t + 1))
      have : s / 2 ^ (t + 1) * 2 ^ (t + 1) = 2 ^ (t + 1) * (s / 2 ^ (t + 1)) := Nat.mul_comm _ _
      omega
  · exact parent_below_of_mem_climb hs β hβ

/-- Every block of a ladder has at most `2 ^ m` numbers. -/
theorem fst_le_of_mem_ladder (h : LadderStart s t m) : ∀ β ∈ ladder s t m, β.1 ≤ m := by
  intro β hβ
  rcases List.mem_cons.mp hβ with rfl | hβ
  · exact h.le
  · unfold climb at hβ
    simp only [List.mem_map, List.mem_filter, List.mem_range'] at hβ
    obtain ⟨b, ⟨⟨i, hi, rfl⟩, -⟩, rfl⟩ := hβ
    omega

/-- The start of every block of a ladder lies in the ladder's stretch. -/
theorem snd_mem_of_mem_ladder (h : LadderStart s t m) :
    ∀ β ∈ ladder s t m, s ≤ β.2 ∧ β.2 ≤ top s m :=
  fun β hβ => (mem_ladder_iff h β.2).mp ⟨β, hβ, InBlock.refl _ _⟩

end Ladder

/-- A number in a block of a number below `2 ^ w`, of at most `2 ^ w` numbers, is below `2 ^ w`. -/
theorem InBlock.lt_two_pow {w k x p : Nat} (h : InBlock k x p) (hx : x < 2 ^ w) (hk : k ≤ w) :
    p < 2 ^ w := by
  have hq : x / 2 ^ k < 2 ^ (w - k) := by
    rw [Nat.div_lt_iff_lt_mul (Nat.two_pow_pos k), ← pow_add, Nat.sub_add_cancel hk]
    exact hx
  have hp : p / 2 ^ k < 2 ^ (w - k) := by rw [show p / 2 ^ k = x / 2 ^ k from h]; exact hq
  rw [Nat.div_lt_iff_lt_mul (Nat.two_pow_pos k), ← pow_add, Nat.sub_add_cancel hk] at hp
  exact hp

theorem top_lt_two_pow {w s m : Nat} (hs : s < 2 ^ w) (hm : m ≤ w) : top s m < 2 ^ w :=
  (inBlock_top s m).lt_two_pow hs hm

/-- The end of the block of the complement is the complement of the start of the block. -/
theorem compl_top {w m x : Nat} (hx : x < 2 ^ w) (hm : m ≤ w) :
    2 ^ w - 1 - top (2 ^ w - (x + 1)) m = x / 2 ^ m * 2 ^ m := by
  have hq : x / 2 ^ m < 2 ^ (w - m) := by
    rw [Nat.div_lt_iff_lt_mul (Nat.two_pow_pos m), ← pow_add, Nat.sub_add_cancel hm]
    exact hx
  have hw : 2 ^ w = 2 ^ (w - m) * 2 ^ m := by rw [← pow_add, Nat.sub_add_cancel hm]
  unfold top
  rw [compl_div_two_pow hx hm, Nat.sub_mul, Nat.add_mul, Nat.one_mul, ← hw]
  have : (x / 2 ^ m + 1) * 2 ^ m ≤ 2 ^ w := by
    rw [hw]
    exact Nat.mul_le_mul_right _ hq
  rw [Nat.add_mul, Nat.one_mul] at this
  have := Nat.two_pow_pos m
  omega

/-- The remainder of a complement is the complement of the remainder. -/
theorem compl_mod_two_pow {w k p : Nat} (hp : p < 2 ^ w) (hk : k ≤ w) :
    (2 ^ w - (p + 1)) % 2 ^ k = 2 ^ k - (p % 2 ^ k + 1) := by
  have hr : p % 2 ^ k < 2 ^ k := Nat.mod_lt _ (Nat.two_pow_pos k)
  apply Nat.eq_of_testBit_eq
  intro i
  rw [Nat.testBit_mod_two_pow, Nat.testBit_two_pow_sub_succ hp, Nat.testBit_two_pow_sub_succ hr,
    Nat.testBit_mod_two_pow]
  by_cases hi : i < k
  · simp [hi, show i < w by omega]
  · simp [hi]

/-- A ladder whose first block is maximal on its own, when it reaches `m`, is made of blocks
whose parents leave the stretch from `s` to `e`. -/
theorem ladder_parent_outside {s t m e : Nat} (h : LadderStart s t m)
    (hfirst : t = m → e < top s (m + 1)) :
    ∀ β ∈ ladder s t m, ∃ q, InBlock (β.1 + 1) β.2 q ∧ (q < s ∨ e < q) := by
  rcases Nat.lt_or_ge t m with ht | ht
  · intro β hβ
    obtain ⟨q, hq, hlt⟩ := ladder_parent_below h ht β hβ
    exact ⟨q, hq, .inl hlt⟩
  · have htm : t = m := le_antisymm h.le ht
    subst htm
    intro β hβ
    simp only [ladder, show t - (t + 1) = 0 by omega, climb_zero, List.mem_singleton] at hβ
    subst hβ
    exact ⟨top s (t + 1), inBlock_top s (t + 1), .inr (hfirst rfl)⟩

/-! ### Two ends that straddle the middle of their block -/

/-- `s` and `e` share their bits above `m`, and bit `m` is clear in `s` and set in `e`: the two
ends of a range that straddles the middle of their block of `2 ^ (m + 1)`. -/
structure Straddle (m s e : Nat) : Prop where
  div_eq : s / 2 ^ (m + 1) = e / 2 ^ (m + 1)
  low : s.testBit m = false
  high : e.testBit m = true

namespace Straddle

variable {m s e : Nat}

/-- The lower half ends right before the upper half starts. -/
theorem top_add_one (h : Straddle m s e) : top s m + 1 = e / 2 ^ m * 2 ^ m := by
  have hs := div_two_pow_succ s m
  have he := div_two_pow_succ e m
  rw [h.low, if_neg Bool.false_ne_true] at hs
  rw [h.high, if_pos rfl, ← h.div_eq] at he
  have hpos := Nat.two_pow_pos m
  unfold top
  rw [he, hs]
  ring_nf
  omega

/-- A ladder from `s` that is a single block of `2 ^ m` is maximal in the stretch to `e` unless
the stretch is the whole block of `2 ^ (m + 1)`. -/
theorem lt_top_succ {t : Nat} (h : Straddle m s e) (hs : LadderStart s t m)
    (hwhole : s % 2 ^ (m + 1) = 0 → e % 2 ^ (m + 1) ≠ 2 ^ (m + 1) - 1) :
    t = m → e < top s (m + 1) := by
  intro htm
  subst htm
  -- `s` is a multiple of `2 ^ t` with bit `t` clear, so a multiple of `2 ^ (t + 1)`
  have hd := div_two_pow_succ s t
  rw [h.low, if_neg Bool.false_ne_true] at hd
  have hmod : s % 2 ^ t = 0 := Nat.mod_eq_zero_of_dvd hs.dvd
  have hs2 : s % 2 ^ (t + 1) = 0 := by
    have := Nat.div_add_mod s (2 ^ t)
    rw [hmod, hd] at this
    apply Nat.mod_eq_zero_of_dvd
    refine ⟨s / 2 ^ (t + 1), ?_⟩
    generalize s / 2 ^ (t + 1) = q at this ⊢
    rw [← this, pow_succ]
    ring
  have he := hwhole hs2
  have hlt := Nat.mod_lt e (Nat.two_pow_pos (t + 1))
  have := Nat.div_add_mod e (2 ^ (t + 1))
  have : e / 2 ^ (t + 1) * 2 ^ (t + 1) = 2 ^ (t + 1) * (e / 2 ^ (t + 1)) := Nat.mul_comm _ _
  unfold top
  rw [h.div_eq]
  omega

/-- The complement below `2 ^ w` swaps the two ends. -/
theorem compl {w : Nat} (h : Straddle m s e) (hs : s < 2 ^ w) (he : e < 2 ^ w) (hm : m < w) :
    Straddle m (2 ^ w - (e + 1)) (2 ^ w - (s + 1)) where
  div_eq := by rw [compl_div_two_pow he hm, compl_div_two_pow hs hm, h.div_eq]
  low := by rw [Nat.testBit_two_pow_sub_succ he, h.high]; simp
  high := by rw [Nat.testBit_two_pow_sub_succ hs, h.low]; simp [hm]

end Straddle

/-! ### Covers and disjoint blocks -/

/-- A cover needs at least as many members as a family of pairwise disjoint sets each of which
holds, whole, a non-empty member of the cover. -/
theorem card_le_of_forall_exists_subset {α ι κ : Type*} {P : Finset ι} {S : Finset κ}
    {A : ι → Set α} {B : κ → Set α} (hdisj : (P : Set ι).PairwiseDisjoint A)
    (h : ∀ β ∈ P, ∃ γ ∈ S, (B γ).Nonempty ∧ B γ ⊆ A β) : P.card ≤ S.card := by
  rcases P.eq_empty_or_nonempty with rfl | ⟨β₀, hβ₀⟩
  · simp
  have : Nonempty κ := ⟨(h β₀ hβ₀).choose⟩
  choose! f hfS hne hsub using h
  refine Finset.card_le_card_of_injOn f (fun β hβ => hfS β hβ) ?_
  intro β₁ h₁ β₂ h₂ heq
  by_contra hne'
  obtain ⟨a, ha⟩ := hne β₁ h₁
  have h2 : a ∈ B (f β₂) := heq ▸ ha
  exact Set.disjoint_left.mp (hdisj h₁ h₂ hne') (hsub β₁ h₁ ha) (hsub β₂ h₂ h2)

end Dyadic
