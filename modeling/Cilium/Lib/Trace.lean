import Mathlib.Algebra.BigOperators.Group.Finset.Basic
import Mathlib.Order.Interval.Finset.Nat

/-! Infinite runs of a system given by a partial step function: `tr n` is the state before step
`n` and `act n` its action.  The lemmas are those that safety and liveness proofs about such runs
are made of: an invariant of every step holds all along, a fact kept by the steps of an interval
holds at its end, the first step of a kind after a point and the last one before it, the number
of steps of a kind in an interval, and weak fairness.  For a finite run folded from a list of
actions, an entry of a log that the run ends with was added by one of its steps, and a relation
kept by every step is kept by the run. -/

namespace Trace

variable {σ α : Type}

/-- An infinite run of `step` from `init`. -/
structure IsBehavior (step : σ → α → Option σ) (init : σ) (tr : ℕ → σ) (act : ℕ → α) : Prop where
  init : tr 0 = init
  next : ∀ n, step (tr n) (act n) = some (tr (n + 1))

/-- Weak fairness: what is enabled at every step from some point on is taken at a step after it. -/
def WeakFair (enabled occurs : ℕ → Prop) : Prop :=
  ∀ start, (∀ n, start ≤ n → enabled n) → ∃ n, start ≤ n ∧ occurs n

/-- The number of steps in `[a, b)` whose action satisfies `q`. -/
def countIn (q : α → Bool) (act : ℕ → α) (a b : ℕ) : ℕ :=
  ((Finset.Ico a b).filter fun n => q (act n) = true).card

section Behavior

variable {step : σ → α → Option σ} {init : σ} {tr : ℕ → σ} {act : ℕ → α}

/-- An invariant of every step holds all along a run. -/
theorem IsBehavior.invariant (hb : IsBehavior step init tr act) {I : σ → Prop} (h0 : I init)
    (hstep : ∀ s a s', I s → step s a = some s' → I s') (n : ℕ) : I (tr n) := by
  induction n with
  | zero => rw [hb.init]; exact h0
  | succ n ih => exact hstep _ _ _ ih (hb.next n)

end Behavior

/-- A fact kept by every step of `[a, b)` holds at `b` when it holds at `a`. -/
theorem propagate {P : ℕ → Prop} {a b : ℕ} (hab : a ≤ b) (ha : P a)
    (h : ∀ n, a ≤ n → n < b → P n → P (n + 1)) : P b := by
  induction b, hab using Nat.le_induction with
  | base => exact ha
  | succ n hn ih => exact h n hn (by omega) (ih fun k hk hkn => h k hk (by omega))

/-- The first point at or after `t` where `q` holds, when there is one. -/
theorem exists_first {q : ℕ → Prop} {t : ℕ} (h : ∃ n, t ≤ n ∧ q n) :
    ∃ u, t ≤ u ∧ q u ∧ ∀ v, t ≤ v → v < u → ¬ q v := by
  classical
  have hex : ∃ k, q (t + k) := by
    obtain ⟨n, htn, hn⟩ := h
    exact ⟨n - t, by rwa [Nat.add_sub_cancel' htn]⟩
  refine ⟨t + Nat.find hex, by omega, Nat.find_spec hex, fun v htv hvu hv => ?_⟩
  have hlt : v - t < Nat.find hex := by omega
  exact Nat.find_min hex hlt (by rwa [Nat.add_sub_cancel' htv])

/-- The last point before `u` where `q` holds, when there is one. -/
theorem exists_last {q : ℕ → Prop} {u : ℕ} (h : ∃ n, n < u ∧ q n) :
    ∃ c, c < u ∧ q c ∧ ∀ v, c < v → v < u → ¬ q v := by
  induction u with
  | zero => obtain ⟨n, hn, -⟩ := h; omega
  | succ u ih =>
    by_cases hu : q u
    · exact ⟨u, by omega, hu, fun v hv hvu => by omega⟩
    · obtain ⟨n, hn, hqn⟩ := h
      have hn' : n < u := by
        rcases Nat.lt_succ_iff_lt_or_eq.mp hn with hn | rfl
        · exact hn
        · exact absurd hqn hu
      obtain ⟨c, hc, hqc, hlast⟩ := ih ⟨n, hn', hqn⟩
      refine ⟨c, by omega, hqc, fun v hcv hvu => ?_⟩
      rcases Nat.lt_succ_iff_lt_or_eq.mp hvu with hvu | rfl
      · exact hlast v hcv hvu
      · exact hu

section Count

variable {q : α → Bool} {act : ℕ → α}

@[simp] theorem countIn_self (a : ℕ) : countIn q act a a = 0 := by simp [countIn]

theorem countIn_succ {a b : ℕ} (hab : a ≤ b) :
    countIn q act a (b + 1) = countIn q act a b + if q (act b) = true then 1 else 0 := by
  unfold countIn
  rw [← Nat.succ_eq_add_one, Nat.Ico_succ_right_eq_insert_Ico hab, Finset.filter_insert]
  split
  · rw [Finset.card_insert_of_notMem (by simp)]
  · rfl

/-- No step of the kind in `[a, b)`. -/
theorem countIn_eq_zero {a b : ℕ} :
    countIn q act a b = 0 ↔ ∀ n, a ≤ n → n < b → q (act n) = false := by
  simp [countIn, Finset.filter_eq_empty_iff]

end Count

section Finite

variable {σ β γ : Type}

/-- An entry of a log at the end of a finite run was there at its start or was added by one of
its steps: the run then splits at that step. -/
theorem foldl_mem_log (step : σ → β → σ) (log : σ → List γ) (Q : σ → β → γ → Prop)
    (hstep : ∀ s b x, x ∈ log (step s b) → x ∈ log s ∨ Q s b x) (ops : List β) (s : σ) (x : γ)
    (hx : x ∈ log (ops.foldl step s)) :
    x ∈ log s ∨ ∃ pre b post, ops = pre ++ b :: post ∧ Q (pre.foldl step s) b x := by
  induction ops generalizing s with
  | nil => exact .inl hx
  | cons b ops ih =>
    rcases ih (step s b) hx with hx | ⟨pre, b', post, rfl, hq⟩
    · rcases hstep s b x hx with hx | hq
      · exact .inl hx
      · exact .inr ⟨[], b, ops, rfl, hq⟩
    · exact .inr ⟨b :: pre, b', post, rfl, hq⟩

/-- A reflexive and transitive relation that holds across every step holds across every finite
run. -/
theorem foldl_rel (step : σ → β → σ) (r : σ → σ → Prop) (refl : ∀ s, r s s)
    (trans : ∀ s₁ s₂ s₃, r s₁ s₂ → r s₂ s₃ → r s₁ s₃) (hstep : ∀ s b, r s (step s b))
    (ops : List β) (s : σ) : r s (ops.foldl step s) := by
  induction ops generalizing s with
  | nil => exact refl s
  | cons b ops ih => exact trans _ _ _ (hstep s b) (ih (step s b))

/-- An invariant of a finite run that may speak of the steps still to come holds at its end when
every step keeps it. -/
theorem foldl_invariant_rest (step : σ → β → σ) (I : σ → List β → Prop)
    (hstep : ∀ s b rest, I s (b :: rest) → I (step s b) rest) (ops : List β) (s : σ)
    (h0 : I s ops) : I (ops.foldl step s) [] := by
  induction ops generalizing s with
  | nil => exact h0
  | cons b ops ih => exact ih (step s b) (hstep s b ops h0)

end Finite

end Trace
