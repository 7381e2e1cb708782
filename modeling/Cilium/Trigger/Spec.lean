import Cilium.Trigger.Run
import Mathlib.Algebra.Order.BigOperators.Group.Finset

/-! The guarantees of `pkg/trigger` over every run: runs of `TriggerFunc` are serialized and
`MinInterval` apart, every call is counted in exactly one run, a run that folds nothing follows
a call that landed between the waiter's two critical sections, and, when the waiter and the calls
are scheduled fairly and time passes, every call is followed by a run with its reason unless the
waiter returned on `closeChan` first.  The last needs no tick of the ticker: the wake-ups of
`wakeupChan` are enough. -/

namespace Cilium.Trigger

open Trace Sys

namespace Sys

/-- Whether some action of the waiter can be taken. -/
def waiterEnabled (s : Sys) : Bool :=
  match s.waiter with
  | .loop | .triggered | .collecting | .running .. => true
  | .sleeping w => decide (w ≤ s.now)
  | .selecting => s.t.wakeupChan || s.tick || s.t.closeChan
  | .exited => false

theorem waiterEnabled_iff (s : Sys) :
    s.waiterEnabled = true ↔ ∃ a, a.isWaiter = true ∧ (s.step a).isSome := by
  constructor
  · intro h
    cases hw : s.waiter with
    | loop => exact ⟨.clear, rfl, by simp [step, hw]⟩
    | triggered => exact ⟨.needsDelay, rfl, by simp [step, hw]⟩
    | sleeping w => exact ⟨.wake, rfl, by simpa [step, hw, waiterEnabled] using h⟩
    | collecting => exact ⟨.collect, rfl, by simp [step, hw]⟩
    | running => exact ⟨.postRun, rfl, by simp [step, hw]⟩
    | selecting =>
      simp only [waiterEnabled, hw, Bool.or_eq_true] at h
      rcases h with (h | h) | h
      · exact ⟨.recvWakeup, rfl, by simp [step, hw, h]⟩
      · exact ⟨.recvTick, rfl, by simp [step, hw, h]⟩
      · exact ⟨.recvClose, rfl, by simp [step, hw, h]⟩
    | exited => simp [waiterEnabled, hw] at h
  · rintro ⟨a, ha, hs⟩
    cases a <;> simp only [Action.isWaiter, Bool.false_eq_true] at ha <;>
      cases hw : s.waiter <;> simp_all [step, waiterEnabled]

end Sys

/-- Fair scheduling: the waiter and the calls that still have to send each take a step when they
can from some point on, and time passes. -/
structure Fair (tr : ℕ → Sys) (act : ℕ → Action) : Prop where
  waiter : WeakFair (fun n => (tr n).waiterEnabled = true) (fun n => (act n).isWaiter = true)
  send : WeakFair (fun n => 0 < (tr n).sending) (fun n => act n = .send)
  clock : ∀ T, ∃ n, T ≤ (tr n).now

namespace Waiter

/-- How far the waiter is from its second critical section, going round the loop. -/
def rank : Waiter → ℕ
  | .collecting => 0
  | .sleeping _ => 1
  | .triggered => 2
  | .loop => 3
  | .selecting => 4
  | .running .. => 5
  | .exited => 0

end Waiter

/-- With folds pending, every step of the waiter other than its second critical section and its
return brings it closer to that section. -/
theorem rank_step {s s' : Sys} {a : Action} (hi : Inv s) (hn : 0 < s.t.numFolds)
    (h : s.step a = some s') (hw : a.isWaiter = true) (hc : a ≠ .collect) (hx : a ≠ .recvClose) :
    s'.waiter.rank < s.waiter.rank ∧ s'.waiter ≠ .exited := by
  cases a with
  | clear =>
    obtain ⟨hl, rfl⟩ := step_clear_eq.mp h
    -- the pending folds keep the flag set while the waiter is at the head of its loop
    have ht : s.t.trigger = true := by simpa [hl, Waiter.inWindow] using hi.pending hn
    simp [ht, hl, Waiter.rank]
  | needsDelay =>
    obtain ⟨hl, rfl⟩ := step_needsDelay_eq.mp h
    cases (s.t.needsDelay s.now).1 <;> simp [hl, Waiter.rank]
  | wake =>
    obtain ⟨w, hl, -, rfl⟩ := step_wake_eq.mp h
    simp [hl, Waiter.rank]
  | postRun =>
    obtain ⟨⟨r, k, l, hl⟩, rfl⟩ := step_postRun_eq.mp h
    simp [hl, Waiter.rank]
  | recvWakeup =>
    obtain ⟨hl, -, rfl⟩ := step_recvWakeup_eq.mp h
    simp [hl, Waiter.rank]
  | recvTick =>
    obtain ⟨hl, -, rfl⟩ := step_recvTick_eq.mp h
    simp [hl, Waiter.rank]
  | collect => exact absurd rfl hc
  | recvClose => exact absurd rfl hx
  | _ => simp [Action.isWaiter] at hw

namespace IsRun

variable {p : Parameters} {tr : ℕ → Sys} {act : ℕ → Action}

/-! ### Serialized and spaced runs of `TriggerFunc` -/

/-- `TriggerFunc` returns between any two of its runs. -/
theorem postRun_between (hr : IsRun p tr act) {u₁ u₂ : ℕ} (h12 : u₁ < u₂)
    (h1 : act u₁ = .collect) (h2 : act u₂ = .collect) :
    ∃ f, u₁ < f ∧ f < u₂ ∧ act f = .postRun := by
  by_contra hno
  push Not at hno
  have hrun : ∃ rs k l, (tr u₂).waiter = .running rs k l := by
    refine propagate (P := fun n => ∃ rs k l, (tr n).waiter = .running rs k l) (a := u₁ + 1) h12
      ?_ fun n hn hnb ⟨rs, k, l, hw⟩ => ⟨rs, k, l, ?_⟩
    · have := hr.step u₁
      rw [h1] at this
      rw [(step_collect_eq.mp this).2]
      exact ⟨_, _, _, rfl⟩
    · exact ((hr.effect n).running rs k l hw (hno n (by omega) hnb)).trans hw
  obtain ⟨rs, k, l, hw⟩ := hrun
  rw [hr.waiter_of_collect h2] at hw
  cases hw

/-- The start of a run of `TriggerFunc` sets `lastTrigger`, which no later one lowers. -/
theorem now_le_lastTrigger (hr : IsRun p tr act) {u n : ℕ} (hu : act u = .collect) (hun : u < n) :
    (tr u).now ≤ (tr n).t.lastTrigger := by
  refine propagate (P := fun m => (tr u).now ≤ (tr m).t.lastTrigger) (a := u + 1) hun ?_
    fun m hm _ ih => ?_
  · rw [(hr.effect u).lastTrigger, if_pos hu]
  · rw [(hr.effect m).lastTrigger]
    split
    · exact hr.now_mono (by omega)
    · exact ih

/-- Runs of `TriggerFunc` start at least `MinInterval` apart. -/
theorem spaced (hr : IsRun p tr act) {u₁ u₂ : ℕ} (h12 : u₁ < u₂)
    (h1 : act u₁ = .collect) (h2 : act u₂ = .collect) :
    (tr u₁).now + p.minInterval ≤ (tr u₂).now := by
  have hlast := hr.now_le_lastTrigger h1 h12
  rcases (hr.inv u₂).collecting (hr.waiter_of_collect h2) with h0 | hle
  · rw [hr.minInterval] at h0
    rw [h0, add_zero]
    exact hr.now_mono h12.le
  · rw [hr.minInterval] at hle
    omega

/-! ### Folds -/

/-- What `PostRun` has been passed, what the running `TriggerFunc` will pass it, and the folds not
yet taken add up to the calls made. -/
theorem folds_posted (hr : IsRun p tr act) (n : ℕ) :
    (∑ k ∈ Finset.range n, if act k = .postRun then (tr k).waiter.heldFolds else 0) +
      (tr n).waiter.heldFolds + (tr n).t.numFolds = countIn Action.isCall act 0 n := by
  induction n with
  | zero => simp [hr.start.1, hr.start.2.2.1, Waiter.heldFolds]
  | succ n ih =>
    have e := hr.effect n
    rw [Finset.sum_range_succ, countIn_succ (Nat.zero_le n), e.heldFolds, e.numFolds, ← ih]
    by_cases hk : act n = .collect
    · -- the folds move from the trigger to the waiter
      have hw := hr.waiter_of_collect hk
      simp [hk, hw, Waiter.heldFolds, Action.isCall]
    · by_cases hp : act n = .postRun
      · simp [hp, Action.isCall]
      · simp only [hk, hp, if_false]
        split <;> omega

/-- The folds before a step with no `TriggerFunc` start since the window's start `a`, which is
the start of the run or just past the previous start, are the calls since `a`. -/
theorem folds_since (hr : IsRun p tr act) {a u : ℕ} (hau : a ≤ u)
    (ha : a = 0 ∨ (0 < a ∧ act (a - 1) = .collect)) (hno : ∀ n, a ≤ n → n < u → act n ≠ .collect) :
    (tr u).t.numFolds = countIn Action.isCall act a u ∧
      ∀ r, r ∈ (tr u).t.foldedReasons ↔ ∃ n, a ≤ n ∧ n < u ∧ act n = .triggerWithReason r := by
  have hstart : (tr a).t.numFolds = 0 ∧ ∀ r, r ∉ (tr a).t.foldedReasons := by
    rcases ha with rfl | ⟨ha, hc⟩
    · exact ⟨hr.start.2.2.1, by simp [hr.start.2.2.2.1]⟩
    · have e := hr.effect (a - 1)
      rw [Nat.sub_add_cancel ha] at e
      exact ⟨by rw [e.numFolds, if_pos hc], fun r h => ((e.foldedReasons r).mp h).1 hc⟩
  refine ⟨by rw [hr.numFolds_eq hau hno, hstart.1, zero_add], fun r => ?_⟩
  rw [hr.mem_foldedReasons hau hno r]
  simp [hstart.2 r]

/-- A run of `TriggerFunc` with no folds follows a run whose window, from the waiter's first
critical section that found the flag set to its second one, saw a call. -/
theorem empty_fold (hr : IsRun p tr act) {u : ℕ} (hu : act u = .collect)
    (h0 : (tr u).t.numFolds = 0) :
    ∃ u₁ c f, c < f ∧ f < u₁ ∧ u₁ < u ∧ act u₁ = .collect ∧
      (∀ n, u₁ < n → n < u → act n ≠ .collect) ∧ act c = .clear ∧
      (∀ n, c < n → n < u₁ → act n ≠ .clear) ∧ (act f).isCall = true := by
  -- the flag that sent the waiter to this run was set by a call `f` the waiter had not seen
  obtain ⟨c₂, hc₂u, hc₂, ht₂, hwin₂⟩ :=
    hr.window_entered (n := u) (by simp [hr.waiter_of_collect hu, Waiter.inWindow])
  obtain ⟨f, hfc₂, hf, hnoclear⟩ := hr.trigger_set ht₂
  have hcall_ne : ∀ n, (act n).isCall = true → act n ≠ .collect ∧ act n ≠ .clear := by
    intro n h
    constructor <;> intro he <;> simp [he, Action.isCall] at h
  -- a run started before this one, or `f` would be among its folds
  have hprev : ∃ n, n < u ∧ act n = .collect := by
    by_contra hnone
    push Not at hnone
    have hcount := (hr.folds_since (Nat.zero_le u) (.inl rfl) fun n _ hn => hnone n hn).1
    rw [h0, eq_comm, countIn_eq_zero] at hcount
    simp [hcount f (Nat.zero_le f) (by omega)] at hf
  obtain ⟨u₁, hu₁u, hu₁, hlast⟩ := exists_last hprev
  have hfolds := (hr.folds_since (a := u₁ + 1) hu₁u (.inr ⟨by omega, hu₁⟩)
    fun n hn hnu => hlast n (by omega) hnu).1
  rw [h0, eq_comm, countIn_eq_zero] at hfolds
  have hfu₁ : f < u₁ := by
    by_contra hle
    rcases Nat.lt_or_ge u₁ f with hlt | hge
    · simp [hfolds f hlt (by omega)] at hf
    · exact (hcall_ne f hf).1 (by rw [show f = u₁ by omega]; exact hu₁)
  have hu₁c₂ : u₁ < c₂ := by
    by_contra hle
    rcases Nat.lt_or_ge c₂ u₁ with hlt | hge
    · exact (hwin₂ u₁ hlt hu₁u).2 hu₁
    · rw [show c₂ = u₁ by omega] at hc₂
      simp [hc₂] at hu₁
  -- the previous run's window started at `c₁`, before the call
  obtain ⟨c₁, hc₁u₁, hc₁, -, hwin₁⟩ :=
    hr.window_entered (n := u₁) (by simp [hr.waiter_of_collect hu₁, Waiter.inWindow])
  have hc₁f : c₁ < f := by
    by_contra hle
    rcases Nat.lt_or_ge f c₁ with hlt | hge
    · exact hnoclear c₁ hlt (by omega) hc₁
    · exact (hcall_ne f hf).2 (by rw [show f = c₁ by omega]; exact hc₁)
  exact ⟨u₁, c₁, f, hc₁f, hfu₁, hu₁u, hu₁, fun n h1 h2 => hlast n h1 h2, hc₁,
    fun n h1 h2 => (hwin₁ n h1 h2).1, hf⟩

/-! ### No call is lost -/

/-- Under fair scheduling, a waiter that has not returned takes a step, as long as folds are
pending: in `select`, the pending folds keep the flag set, and a set flag has a wake-up in
`wakeupChan` or on its way there. -/
theorem waiter_steps (hr : IsRun p tr act) (hf : Fair tr act) {n : ℕ}
    (hx : (tr n).waiter ≠ .exited) (hn : 0 < (tr n).t.numFolds) :
    ∃ u, n ≤ u ∧ (act u).isWaiter = true := by
  by_contra hno
  push Not at hno
  have hno' : ∀ u, n ≤ u → (act u).isWaiter = false := fun u hu => by simpa using hno u hu
  have hfrz : ∀ u, n ≤ u → (tr u).waiter = (tr n).waiter :=
    fun u hu => hr.waiter_eq hu fun v hv _ => hno' v hv
  -- a waiter that stays enabled from some point on steps
  have never : ∀ m, n ≤ m → ¬ ∀ u, m ≤ u → (tr u).waiterEnabled = true := by
    intro m hm hen
    obtain ⟨u, hu, hw⟩ := hf.waiter m hen
    exact hno u (by omega) hw
  cases hw : (tr n).waiter with
  | exited => exact hx hw
  | sleeping w =>
    obtain ⟨m, hm⟩ := hf.clock w
    refine never (max n m) (le_max_left _ _) fun u hu => ?_
    have := hr.now_mono (le_of_max_le_right hu)
    simp only [waiterEnabled, hfrz u (le_of_max_le_left hu), hw, decide_eq_true_eq]
    omega
  | selecting =>
    have hi := hr.inv n
    have ht : (tr n).t.trigger = true := by
      simpa [hw, Waiter.inWindow] using hi.pending hn
    -- a wake-up is in the channel from some step on
    have hwake : ∃ m, n ≤ m ∧ (tr m).t.wakeupChan = true := by
      rcases hi.wakeup ht (by simp [hw]) with h | hs
      · exact ⟨n, le_rfl, h⟩
      · have hsend : ∃ m, n ≤ m ∧ act m = .send := by
          by_contra hnos
          push Not at hnos
          refine absurd (hf.send n fun u hu => ?_) (by push Not; exact hnos)
          exact propagate (P := fun u => 0 < (tr u).sending) hu hs
            fun v hv _ ih => lt_of_lt_of_le ih ((hr.effect v).sending (hnos v hv))
        obtain ⟨m, hm, hsm⟩ := hsend
        exact ⟨m + 1, by omega, ((hr.effect m).wakeupChan).mpr (.inl hsm)⟩
    obtain ⟨m, hm, hwm⟩ := hwake
    refine never m hm fun u hu => ?_
    have hwu : (tr u).t.wakeupChan = true := by
      refine propagate (P := fun v => (tr v).t.wakeupChan = true) hu hwm fun v hv _ ih => ?_
      -- only the waiter takes the wake-up out of the channel
      have hnw : act v ≠ .recvWakeup := fun h => by simpa [h, Action.isWaiter] using hno' v (by omega)
      exact ((hr.effect v).wakeupChan).mpr (.inr ⟨ih, hnw⟩)
    simp [waiterEnabled, hfrz u (by omega), hw, hwu]
  | _ => exact never n le_rfl fun u hu => by simp [waiterEnabled, hfrz u hu, hw]

/-- From any step after the call with its reason still folded, the waiter starts `TriggerFunc`
with it or returns; by induction on how far the waiter is from its second critical section. -/
theorem served_from (hr : IsRun p tr act) (hf : Fair tr act) {r : String} (k : ℕ) :
    ∀ m, r ∈ (tr m).t.foldedReasons → (tr m).waiter.rank = k → (tr m).waiter ≠ .exited →
      ∃ u, m ≤ u ∧ ((act u = .collect ∧ r ∈ (tr u).t.foldedReasons) ∨ act u = .recvClose) := by
  induction k using Nat.strong_induction_on with
  | _ k ih =>
    intro m hrm hk hx
    obtain ⟨u₀, hmu₀, hw₀⟩ := hr.waiter_steps hf hx ((hr.inv m).folded r hrm)
    obtain ⟨u, hmu, hwu, hfirst⟩ := exists_first (q := fun v => (act v).isWaiter = true) ⟨u₀, hmu₀, hw₀⟩
    -- until `u` only other goroutines step: the waiter stays, and so does the reason
    have hother : ∀ v, m ≤ v → v < u → (act v).isWaiter = false :=
      fun v h1 h2 => by simpa using hfirst v h1 h2
    have hnotcollect : ∀ v, m ≤ v → v < u → act v ≠ .collect :=
      fun v h1 h2 h => by simpa [h, Action.isWaiter] using hother v h1 h2
    have hwait : (tr u).waiter = (tr m).waiter := hr.waiter_eq hmu hother
    have hru : r ∈ (tr u).t.foldedReasons :=
      (hr.mem_foldedReasons hmu hnotcollect r).mpr (.inl hrm)
    by_cases hc : act u = .collect
    · exact ⟨u, hmu, .inl ⟨hc, hru⟩⟩
    by_cases hcl : act u = .recvClose
    · exact ⟨u, hmu, .inr hcl⟩
    obtain ⟨hlt, hx'⟩ := rank_step (hr.inv u) ((hr.inv u).folded r hru) (hr.step u) hwu hc hcl
    have hr' : r ∈ (tr (u + 1)).t.foldedReasons := ((hr.effect u).foldedReasons r).mpr ⟨hc, .inl hru⟩
    rw [hwait, hk] at hlt
    obtain ⟨u', hu', hres⟩ := ih _ hlt (u + 1) hr' rfl hx'
    exact ⟨u', by omega, hres⟩

/-- Every call is followed by a run of `TriggerFunc` whose reasons hold its reason, unless the
waiter returned on `closeChan` before such a run. -/
theorem served (hr : IsRun p tr act) (hf : Fair tr act) {n : ℕ} {r : String}
    (hc : act n = .triggerWithReason r) :
    ∃ u, (n < u ∧ act u = .collect ∧ r ∈ (tr u).t.foldedReasons.keys) ∨
      (act u = .recvClose ∧ ∀ v, n < v → v < u → ¬ (act v = .collect ∧ r ∈ (tr v).t.foldedReasons.keys)) := by
  classical
  have hrn : r ∈ (tr (n + 1)).t.foldedReasons :=
    ((hr.effect n).foldedReasons r).mpr ⟨by simp [hc], .inr hc⟩
  have hsome : ∃ u, (n < u ∧ act u = .collect ∧ r ∈ (tr u).t.foldedReasons) ∨ act u = .recvClose := by
    by_cases hx : (tr (n + 1)).waiter = .exited
    · obtain ⟨u, -, hu⟩ := hr.exited_of hx
      exact ⟨u, .inr hu⟩
    · obtain ⟨u, hu, hres⟩ := hr.served_from hf _ (n + 1) hrn rfl hx
      exact ⟨u, hres.imp_left fun h => ⟨by omega, h⟩⟩
  -- `TriggerFunc` is passed the keys of the reason set
  obtain ⟨u, hu⟩ := hsome
  rcases hu with h | hcl
  · exact ⟨u, .inl h⟩
  · -- the first run with the reason after the call, if one comes before the return
    by_cases hbefore : ∃ v, n < v ∧ v < u ∧ act v = .collect ∧ r ∈ (tr v).t.foldedReasons
    · obtain ⟨v, hnv, -, hv⟩ := hbefore
      exact ⟨v, .inl ⟨hnv, hv⟩⟩
    · push Not at hbefore
      exact ⟨u, .inr ⟨hcl, fun v hnv hvu h => hbefore v hnv hvu h.1 h.2⟩⟩

end IsRun

/-- What `pkg/trigger` promises of a run. -/
structure Guarantees (p : Parameters) (tr : ℕ → Sys) (act : ℕ → Action) : Prop where
  /-- `TriggerFunc` returns before it is started again. -/
  serialized : ∀ u₁ u₂, u₁ < u₂ → act u₁ = .collect → act u₂ = .collect →
    ∃ f, u₁ < f ∧ f < u₂ ∧ act f = .postRun
  /-- Its runs start, and set `lastTrigger`, at least `MinInterval` apart. -/
  spaced : ∀ u₁ u₂, u₁ < u₂ → act u₁ = .collect → act u₂ = .collect →
    (tr u₁).now + p.minInterval ≤ (tr u₂).now
  /-- The folds passed to `PostRun`, those the running `TriggerFunc` holds, and those not yet
  taken add up to the calls. -/
  posted : ∀ n, (∑ k ∈ Finset.range n, if act k = .postRun then (tr k).waiter.heldFolds else 0) +
    (tr n).waiter.heldFolds + (tr n).t.numFolds = countIn Action.isCall act 0 n
  /-- A run folds exactly the calls since the previous run started, and passes their reasons. -/
  folded : ∀ a u, act u = .collect → a ≤ u → (a = 0 ∨ (0 < a ∧ act (a - 1) = .collect)) →
    (∀ n, a ≤ n → n < u → act n ≠ .collect) →
    (tr u).t.numFolds = countIn Action.isCall act a u ∧
      ∀ r, r ∈ (tr u).t.foldedReasons.keys ↔ ∃ n, a ≤ n ∧ n < u ∧ act n = .triggerWithReason r
  /-- A run that folds nothing follows a run during whose window a call landed. -/
  emptyFold : ∀ u, act u = .collect → (tr u).t.numFolds = 0 →
    ∃ u₁ c f, c < f ∧ f < u₁ ∧ u₁ < u ∧ act u₁ = .collect ∧
      (∀ n, u₁ < n → n < u → act n ≠ .collect) ∧ act c = .clear ∧
      (∀ n, c < n → n < u₁ → act n ≠ .clear) ∧ (act f).isCall = true
  /-- Under fair scheduling, a call is followed by a run with its reason, unless the waiter
  returned before. -/
  served : Fair tr act → ∀ n r, act n = .triggerWithReason r →
    ∃ u, (n < u ∧ act u = .collect ∧ r ∈ (tr u).t.foldedReasons.keys) ∨
      (act u = .recvClose ∧
        ∀ v, n < v → v < u → ¬ (act v = .collect ∧ r ∈ (tr v).t.foldedReasons.keys))

theorem run_guarantees {p : Parameters} {tr : ℕ → Sys} {act : ℕ → Action} (hr : IsRun p tr act) :
    Guarantees p tr act where
  serialized _ _ h12 h1 h2 := hr.postRun_between h12 h1 h2
  spaced _ _ h12 h1 h2 := hr.spaced h12 h1 h2
  posted := hr.folds_posted
  folded _ _ _ hau ha hno := hr.folds_since hau ha hno
  emptyFold _ hu h0 := hr.empty_fold hu h0
  served hf _ _ hc := hr.served hf hc

/-! ### A fair run that serves a call

A call of `TriggerWithReason` makes its critical section and its send; the waiter clears the
flag, needs no delay, runs `TriggerFunc` with the call's reason, returns to `select` and takes the
wake-up.  From then on it idles round its loop on ticks while time passes, so the waiter and the
clock never stop and the run is fair. -/

/-- The trigger that `NewTrigger` returns with no `MinInterval`. -/
def idleTrigger : Trigger :=
  ⟨false, ⟨0, true, 1000000000⟩, zeroTime, false, false, 0, ∅, zeroTime⟩

/-- The waiter's idle loop: its first critical section, the ticker, the tick received, and a
nanosecond. -/
def idleAct (n : ℕ) : Action :=
  if n % 4 = 0 then .clear else if n % 4 = 1 then .tick else if n % 4 = 2 then .recvTick
  else .advance 1

/-- The system `n` steps into the idle loop with trigger `t`, from time zero. -/
def idleState (t : Trigger) (n : ℕ) : Sys :=
  ⟨t, if n % 4 = 1 ∨ n % 4 = 2 then .selecting else .loop, decide (n % 4 = 2), 0,
    ((n / 4 : ℕ) : ℤ)⟩

/-- The idle loop is a run of the system from any trigger whose flag is clear. -/
theorem idleState_step {t : Trigger} (ht : t.trigger = false) (n : ℕ) :
    (idleState t n).step (idleAct n) = some (idleState t (n + 1)) := by
  have hclear : { t with trigger := false } = t := by
    cases t
    simp_all
  have hcases : n % 4 = 0 ∨ n % 4 = 1 ∨ n % 4 = 2 ∨ n % 4 = 3 := by omega
  rcases hcases with h | h | h | h
  · have h' : (n + 1) % 4 = 1 := by omega
    have hq : (n + 1) / 4 = n / 4 := by omega
    simp [idleState, idleAct, step, h, h', hq, ht, hclear]
  · have h' : (n + 1) % 4 = 2 := by omega
    have hq : (n + 1) / 4 = n / 4 := by omega
    simp [idleState, idleAct, step, h, h', hq]
  · have h' : (n + 1) % 4 = 3 := by omega
    have hq : (n + 1) / 4 = n / 4 := by omega
    simp [idleState, idleAct, step, h, h', hq]
  · have h' : (n + 1) % 4 = 0 := by omega
    have hq : (n + 1) / 4 = n / 4 + 1 := by omega
    simp [idleState, idleAct, step, h, h', hq]

/-- The trigger once the call is served: the flag clear, `lastTrigger` and the start of the wait
at time zero, nothing folded. -/
def servedTrigger : Trigger :=
  ⟨false, ⟨0, true, 1000000000⟩, 0, false, false, 0, ∅, 0⟩

def servedAct : ℕ → Action
  | 0 => .triggerWithReason "r"
  | 1 => .send
  | 2 => .clear
  | 3 => .needsDelay
  | 4 => .collect
  | 5 => .postRun
  | 6 => .recvWakeup
  | n + 7 => idleAct n

/-- The states of the run: the first seven are what the actions make of the system that
`NewTrigger` starts, then comes the idle loop. -/
def servedState : ℕ → Sys
  | 0 => Sys.init idleTrigger 0
  | n + 1 => if n < 6 then ((servedState n).step (servedAct n)).getD (servedState n)
    else idleState servedTrigger (n - 6)

theorem servedState_add_seven (n : ℕ) : servedState (n + 7) = idleState servedTrigger n := by
  rw [servedState, if_neg (by omega), Nat.add_sub_cancel]

theorem served_isRun : IsRun ⟨0, true, 1000000000⟩ servedState servedAct := by
  refine ⟨0, idleTrigger, by simp [Trigger.newTrigger, idleTrigger], ⟨rfl, fun n => ?_⟩⟩
  -- the call and the run that serves it are evaluated step by step; then the idle loop
  obtain _ | _ | _ | _ | _ | _ | _ | m := n
  all_goals try rfl
  rw [servedState_add_seven, show m + 7 + 1 = (m + 1) + 7 by omega, servedState_add_seven]
  exact idleState_step rfl m

theorem served_fair : Fair servedState servedAct where
  waiter start _ := ⟨4 * start + 7, by omega, by
    simp [servedAct, idleAct, Action.isWaiter]⟩
  send start h := by
    have hs := h (start + 7) (by omega)
    simp [servedState_add_seven, idleState] at hs
  clock T := ⟨4 * T.toNat + 7, by simp [servedState_add_seven, idleState]⟩

theorem run_guarantees_served :
    IsRun ⟨0, true, 1000000000⟩ servedState servedAct ∧ Fair servedState servedAct ∧
      servedAct 0 = .triggerWithReason "r" ∧ servedAct 4 = .collect ∧
      "r" ∈ (servedState 4).t.foldedReasons.keys ∧
      Guarantees ⟨0, true, 1000000000⟩ servedState servedAct :=
  ⟨served_isRun, served_fair, rfl, rfl, by decide, run_guarantees served_isRun⟩

end Cilium.Trigger
