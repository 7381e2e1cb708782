import Cilium.Trigger.Trigger
import Cilium.Lib.Trace

/-! What one step of the trigger's system does, the invariant of its reachable states, and the
facts about a whole run that follow.  `StepEffect` says once how a step moves the fields that the
guarantees read; `Inv` is kept by every step.  The invariant carries the argument that no request is
lost: folded calls leave the trigger flag set or the waiter between its two critical sections,
and a set flag seen by a waiter that is not at the head of its loop has a wake-up on its way. -/

namespace Cilium.Trigger

open Trace

namespace Waiter

/-- Between the two critical sections: past a set flag, and before the folds are taken. -/
def inWindow : Waiter → Bool
  | .triggered | .sleeping _ | .collecting => true
  | _ => false

/-- What the waiter passes to `PostRun` once `TriggerFunc` returns. -/
def heldFolds : Waiter → ℕ
  | .running _ k _ => k
  | _ => 0

end Waiter

set_option linter.dupNamespace false in
theorem Trigger.newTrigger_ok {p : Parameters} {now : ℤ} {t : Trigger}
    (h : Trigger.newTrigger p now = .ok t) :
    t.trigger = false ∧ t.numFolds = 0 ∧ t.foldedReasons = ∅ ∧ t.params.minInterval = p.minInterval := by
  by_cases hs : p.sleepInterval = 0 <;> by_cases hf : p.triggerFunc = true <;>
    simp [Trigger.newTrigger, hs, hf] at h <;> subst h <;> simp

namespace Sys

variable {s s' : Sys} {a : Action}

/-! ### One lemma per action of the waiter -/

theorem step_clear_eq : s.step .clear = some s' ↔ s.waiter = .loop ∧
    s' = { s with
      t := { s.t with trigger := false }
      waiter := if s.t.trigger then .triggered else .selecting } := by
  cases hw : s.waiter <;> simp [step, hw, @eq_comm _ _ s']

theorem step_needsDelay_eq : s.step .needsDelay = some s' ↔ s.waiter = .triggered ∧
    s' = { s with
      waiter := if (s.t.needsDelay s.now).1 then .sleeping (s.now + (s.t.needsDelay s.now).2)
        else .collecting } := by
  cases hw : s.waiter <;> simp [step, hw, @eq_comm _ _ s']

theorem step_wake_eq : s.step .wake = some s' ↔ ∃ w, s.waiter = .sleeping w ∧ w ≤ s.now ∧
    s' = { s with waiter := .collecting } := by
  cases hw : s.waiter <;> simp [step, hw, @eq_comm _ _ s']

theorem step_collect_eq : s.step .collect = some s' ↔ s.waiter = .collecting ∧
    s' = { s with
      t := (s.t.collect s.now).1
      waiter := .running (s.t.collect s.now).2.1 (s.t.collect s.now).2.2.1
        (s.t.collect s.now).2.2.2 } := by
  cases hw : s.waiter <;> simp [step, hw, @eq_comm _ _ s']

theorem step_postRun_eq : s.step .postRun = some s' ↔ (∃ r k l, s.waiter = .running r k l) ∧
    s' = { s with waiter := .selecting } := by
  cases hw : s.waiter <;> simp [step, hw, @eq_comm _ _ s']

theorem step_recvWakeup_eq : s.step .recvWakeup = some s' ↔ s.waiter = .selecting ∧
    s.t.wakeupChan = true ∧ s' = { s with t := { s.t with wakeupChan := false }, waiter := .loop } := by
  cases hw : s.waiter <;> simp [step, hw, @eq_comm _ _ s']

theorem step_recvTick_eq : s.step .recvTick = some s' ↔ s.waiter = .selecting ∧
    s.tick = true ∧ s' = { s with tick := false, waiter := .loop } := by
  cases hw : s.waiter <;> simp [step, hw, @eq_comm _ _ s']

theorem step_recvClose_eq : s.step .recvClose = some s' ↔ s.waiter = .selecting ∧
    s.t.closeChan = true ∧ s' = { s with waiter := .exited } := by
  cases hw : s.waiter <;> simp [step, hw, @eq_comm _ _ s']

theorem step_send_eq : s.step .send = some s' ↔ 0 < s.sending ∧
    s' = { s with t := { s.t with wakeupChan := true }, sending := s.sending - 1 } := by
  simp [step, @eq_comm _ _ s']

theorem step_shutdown_eq : s.step .shutdown = some s' ↔ s.t.closeChan = false ∧
    s' = { s with t := { s.t with closeChan := true } } := by
  simp [step, @eq_comm _ _ s']

/-! ### What a step does -/

/-- How one step moves the fields that the guarantees read. -/
structure StepEffect (s : Sys) (a : Action) (s' : Sys) : Prop where
  now : s.now ≤ s'.now
  params : s'.t.params = s.t.params
  lastTrigger : s'.t.lastTrigger = if a = .collect then s.now else s.t.lastTrigger
  numFolds : s'.t.numFolds = if a = .collect then 0 else s.t.numFolds + if a.isCall then 1 else 0
  foldedReasons : ∀ r, r ∈ s'.t.foldedReasons ↔
    a ≠ .collect ∧ (r ∈ s.t.foldedReasons ∨ a = .triggerWithReason r)
  trigger : s'.t.trigger = (a.isCall || (s.t.trigger && a != .clear))
  wakeupChan : s'.t.wakeupChan = true ↔ a = .send ∨ (s.t.wakeupChan = true ∧ a ≠ .recvWakeup)
  sending : a ≠ .send → s.sending ≤ s'.sending
  waiter : a.isWaiter = false → s'.waiter = s.waiter
  running : ∀ r k l, s.waiter = .running r k l → a ≠ .postRun → s'.waiter = s.waiter
  exited : s'.waiter = .exited → s.waiter = .exited ∨ a = .recvClose
  heldFolds : s'.waiter.heldFolds =
    if a = .collect then s.t.numFolds else if a = .postRun then 0 else s.waiter.heldFolds
  inWindow : s'.waiter.inWindow =
    if a = .clear then s.t.trigger else if a = .collect then false else s.waiter.inWindow

theorem step_effect (h : s.step a = some s') : StepEffect s a s' := by
  cases a with
  | triggerWithReason r =>
    cases h
    constructor <;> try simp [Trigger.triggerWithReason, Action.isCall, Action.isWaiter]
    intro r'
    rw [@eq_comm _ r' r]
    exact or_comm
  | send =>
    obtain ⟨-, rfl⟩ := step_send_eq.mp h
    constructor <;> simp [Action.isCall, Action.isWaiter]
  | shutdown =>
    obtain ⟨-, rfl⟩ := step_shutdown_eq.mp h
    constructor <;> simp [Action.isCall, Action.isWaiter]
  | tick =>
    cases h
    constructor <;> simp [Action.isCall, Action.isWaiter]
  | advance d =>
    cases h
    constructor <;> simp [Action.isCall, Action.isWaiter]
  | clear =>
    obtain ⟨hw, rfl⟩ := step_clear_eq.mp h
    constructor <;> cases s.t.trigger <;> simp [Action.isCall, Action.isWaiter, Waiter.heldFolds, Waiter.inWindow, hw]
  | needsDelay =>
    obtain ⟨hw, rfl⟩ := step_needsDelay_eq.mp h
    constructor <;> cases (s.t.needsDelay s.now).1 <;>
      simp [Action.isCall, Action.isWaiter, Waiter.heldFolds, Waiter.inWindow, hw]
  | wake =>
    obtain ⟨w, hw, -, rfl⟩ := step_wake_eq.mp h
    constructor <;> simp [Action.isCall, Action.isWaiter, Waiter.heldFolds, Waiter.inWindow, hw]
  | collect =>
    obtain ⟨hw, rfl⟩ := step_collect_eq.mp h
    constructor <;> simp [Action.isCall, Action.isWaiter, Waiter.heldFolds, Waiter.inWindow, Trigger.collect, hw]
  | postRun =>
    obtain ⟨⟨r, k, l, hw⟩, rfl⟩ := step_postRun_eq.mp h
    constructor <;> simp [Action.isCall, Action.isWaiter, Waiter.heldFolds, Waiter.inWindow, hw]
  | recvWakeup =>
    obtain ⟨hw, -, rfl⟩ := step_recvWakeup_eq.mp h
    constructor <;> simp [Action.isCall, Action.isWaiter, Waiter.heldFolds, Waiter.inWindow, hw]
  | recvTick =>
    obtain ⟨hw, -, rfl⟩ := step_recvTick_eq.mp h
    constructor <;> simp [Action.isCall, Action.isWaiter, Waiter.heldFolds, Waiter.inWindow, hw]
  | recvClose =>
    obtain ⟨hw, -, rfl⟩ := step_recvClose_eq.mp h
    constructor <;> simp [Action.isCall, Action.isWaiter, Waiter.heldFolds, Waiter.inWindow, hw]

/-! ### The invariant -/

/-- The invariant of the reachable states.  `pending` and `wakeup` are why a folded call is not
lost; `sleeping` and `collecting` are why runs are `MinInterval` apart. -/
structure Inv (s : Sys) : Prop where
  folded : ∀ r, r ∈ s.t.foldedReasons → 0 < s.t.numFolds
  pending : 0 < s.t.numFolds → s.t.trigger = true ∨ s.waiter.inWindow = true
  wakeup : s.t.trigger = true → s.waiter ≠ .loop → s.t.wakeupChan = true ∨ 0 < s.sending
  sleeping : ∀ w, s.waiter = .sleeping w → w = s.t.lastTrigger + s.t.params.minInterval
  collecting : s.waiter = .collecting →
    s.t.params.minInterval = 0 ∨ s.t.lastTrigger + s.t.params.minInterval ≤ s.now

theorem inv_init {t : Trigger} (now : ℤ) (ht : t.trigger = false) (hn : t.numFolds = 0)
    (hr : t.foldedReasons = ∅) : Inv (init t now) where
  folded r h := by simp [init, hr] at h
  pending h := by simp [init, hn] at h
  wakeup h := by simp [init, ht] at h
  sleeping w h := nomatch h
  collecting h := nomatch h

/-- `needsDelay` either sleeps until `MinInterval` after the last run, or finds it over. -/
theorem needsDelay_spec (t : Trigger) (now : ℤ) :
    ((t.needsDelay now).1 = true → now + (t.needsDelay now).2 = t.lastTrigger + t.params.minInterval) ∧
    ((t.needsDelay now).1 = false →
      t.params.minInterval = 0 ∨ t.lastTrigger + t.params.minInterval ≤ now) := by
  unfold Trigger.needsDelay
  split
  · simp_all
  · simp only [decide_eq_true_eq, decide_eq_false_iff_not, not_lt]
    omega

theorem Inv.step (hi : Inv s) (h : s.step a = some s') : Inv s' := by
  have e := step_effect h
  cases a with
  | triggerWithReason r =>
    cases h
    exact ⟨(fun _ _ => by simp [Trigger.triggerWithReason]), (fun _ => .inl rfl),
      (fun _ _ => .inr (Nat.succ_pos _)), hi.sleeping, hi.collecting⟩
  | send =>
    obtain ⟨-, rfl⟩ := step_send_eq.mp h
    exact ⟨hi.folded, hi.pending, (fun _ _ => .inl rfl), hi.sleeping, hi.collecting⟩
  | shutdown =>
    obtain ⟨-, rfl⟩ := step_shutdown_eq.mp h
    exact ⟨hi.folded, hi.pending, hi.wakeup, hi.sleeping, hi.collecting⟩
  | tick =>
    cases h
    exact ⟨hi.folded, hi.pending, hi.wakeup, hi.sleeping, hi.collecting⟩
  | advance d =>
    cases h
    refine ⟨hi.folded, hi.pending, hi.wakeup, hi.sleeping, (fun hw => ?_)⟩
    rcases hi.collecting hw with h0 | hle
    · exact .inl h0
    · exact .inr (by simp only; omega)
  | clear =>
    obtain ⟨hw, rfl⟩ := step_clear_eq.mp h
    refine ⟨hi.folded, (fun hn => ?_), (fun ht => nomatch ht), (fun w hw' => ?_), (fun hw' => ?_)⟩
    · -- the folds were left by a set flag, which sends the waiter into the window
      have ht : s.t.trigger = true := by
        simpa [hw, Waiter.inWindow] using hi.pending hn
      simp [ht, Waiter.inWindow]
    all_goals split at hw' <;> cases hw'
  | needsDelay =>
    obtain ⟨hw, rfl⟩ := step_needsDelay_eq.mp h
    have hd := needsDelay_spec s.t s.now
    refine ⟨hi.folded, (fun _ => .inr ?_), (fun ht _ => hi.wakeup ht (by simp [hw])),
      (fun w hw' => ?_), (fun hw' => ?_)⟩
    · cases (s.t.needsDelay s.now).1 <;> simp [Waiter.inWindow]
    · cases hb : (s.t.needsDelay s.now).1 <;> simp [hb] at hw'
      exact hw' ▸ hd.1 hb
    · cases hb : (s.t.needsDelay s.now).1 <;> simp [hb] at hw'
      exact hd.2 hb
  | wake =>
    obtain ⟨w, hw, hle, rfl⟩ := step_wake_eq.mp h
    refine ⟨hi.folded, (fun _ => .inr rfl), (fun ht _ => hi.wakeup ht (by simp [hw])),
      (fun _ h => nomatch h), (fun _ => .inr ?_)⟩
    exact (hi.sleeping w hw) ▸ hle
  | collect =>
    obtain ⟨hw, rfl⟩ := step_collect_eq.mp h
    refine ⟨(fun r hr => by simp [Trigger.collect] at hr), (fun hn => by simp [Trigger.collect] at hn),
      (fun ht _ => hi.wakeup ht (by simp [hw])), (fun _ h => nomatch h), (fun h => nomatch h)⟩
  | postRun =>
    obtain ⟨⟨r, k, l, hw⟩, rfl⟩ := step_postRun_eq.mp h
    refine ⟨hi.folded, (fun hn => .inl ?_), (fun ht _ => hi.wakeup ht (by simp [hw])),
      (fun _ h => nomatch h), (fun h => nomatch h)⟩
    simpa [hw, Waiter.inWindow] using hi.pending hn
  | recvWakeup =>
    obtain ⟨hw, -, rfl⟩ := step_recvWakeup_eq.mp h
    refine ⟨hi.folded, (fun hn => .inl ?_), (fun _ h => absurd rfl h), (fun _ h => nomatch h),
      (fun h => nomatch h)⟩
    simpa [hw, Waiter.inWindow] using hi.pending hn
  | recvTick =>
    obtain ⟨hw, -, rfl⟩ := step_recvTick_eq.mp h
    refine ⟨hi.folded, (fun hn => .inl ?_), (fun _ h => absurd rfl h), (fun _ h => nomatch h),
      (fun h => nomatch h)⟩
    simpa [hw, Waiter.inWindow] using hi.pending hn
  | recvClose =>
    obtain ⟨hw, -, rfl⟩ := step_recvClose_eq.mp h
    refine ⟨hi.folded, (fun hn => .inl ?_), (fun ht _ => hi.wakeup ht (by simp [hw])),
      (fun _ h => nomatch h), (fun h => nomatch h)⟩
    simpa [hw, Waiter.inWindow] using hi.pending hn

end Sys

/-! ### Runs -/

open Sys

/-- A run of the trigger from what `NewTrigger` returns for the parameters `p`. -/
def IsRun (p : Parameters) (tr : ℕ → Sys) (act : ℕ → Action) : Prop :=
  ∃ now t, Trigger.newTrigger p now = .ok t ∧ IsBehavior Sys.step (Sys.init t now) tr act

namespace IsRun

variable {p : Parameters} {tr : ℕ → Sys} {act : ℕ → Action}

theorem step (hr : IsRun p tr act) (n : ℕ) : (tr n).step (act n) = some (tr (n + 1)) := by
  obtain ⟨_, _, _, hb⟩ := hr
  exact hb.next n

theorem effect (hr : IsRun p tr act) (n : ℕ) : StepEffect (tr n) (act n) (tr (n + 1)) :=
  step_effect (hr.step n)

theorem start (hr : IsRun p tr act) :
    (tr 0).waiter = .loop ∧ (tr 0).t.trigger = false ∧ (tr 0).t.numFolds = 0 ∧
      (tr 0).t.foldedReasons = ∅ ∧ (tr 0).t.params.minInterval = p.minInterval := by
  obtain ⟨now, t, ht, hb⟩ := hr
  obtain ⟨h1, h2, h3, h4⟩ := Trigger.newTrigger_ok ht
  rw [hb.init]
  exact ⟨rfl, h1, h2, h3, h4⟩

theorem inv (hr : IsRun p tr act) (n : ℕ) : Inv (tr n) := by
  obtain ⟨now, t, ht, hb⟩ := hr
  obtain ⟨h1, h2, h3, -⟩ := Trigger.newTrigger_ok ht
  exact hb.invariant (inv_init now h1 h2 h3) (fun _ _ _ hi h => hi.step h) n

theorem minInterval (hr : IsRun p tr act) (n : ℕ) : (tr n).t.params.minInterval = p.minInterval := by
  induction n with
  | zero => exact hr.start.2.2.2.2
  | succ n ih => rw [(hr.effect n).params, ih]

theorem now_mono (hr : IsRun p tr act) {a b : ℕ} (hab : a ≤ b) : (tr a).now ≤ (tr b).now :=
  propagate (P := fun n => (tr a).now ≤ (tr n).now) hab le_rfl
    fun n _ _ h => h.trans (hr.effect n).now

/-- Steps of other goroutines leave the waiter where it is. -/
theorem waiter_eq (hr : IsRun p tr act) {a b : ℕ} (hab : a ≤ b)
    (h : ∀ n, a ≤ n → n < b → (act n).isWaiter = false) : (tr b).waiter = (tr a).waiter :=
  propagate (P := fun n => (tr n).waiter = (tr a).waiter) hab rfl
    fun n han hnb hn => ((hr.effect n).waiter (h n han hnb)).trans hn

theorem waiter_of_collect (hr : IsRun p tr act) {n : ℕ} (h : act n = .collect) :
    (tr n).waiter = .collecting := by
  have := hr.step n
  rw [h] at this
  exact (step_collect_eq.mp this).1

/-- Between two steps that start no run of `TriggerFunc`, the folds are those before plus the
calls in between. -/
theorem numFolds_eq (hr : IsRun p tr act) {a b : ℕ} (hab : a ≤ b)
    (h : ∀ n, a ≤ n → n < b → act n ≠ .collect) :
    (tr b).t.numFolds = (tr a).t.numFolds + countIn Action.isCall act a b := by
  refine propagate (P := fun n => (tr n).t.numFolds = (tr a).t.numFolds + countIn Action.isCall act a n)
    hab (by simp) fun n han hnb ih => ?_
  rw [(hr.effect n).numFolds, if_neg (h n han hnb), ih, countIn_succ han]
  omega

theorem mem_foldedReasons (hr : IsRun p tr act) {a b : ℕ} (hab : a ≤ b)
    (h : ∀ n, a ≤ n → n < b → act n ≠ .collect) (r : String) :
    r ∈ (tr b).t.foldedReasons ↔
      r ∈ (tr a).t.foldedReasons ∨ ∃ n, a ≤ n ∧ n < b ∧ act n = .triggerWithReason r := by
  refine propagate (P := fun m => (r ∈ (tr m).t.foldedReasons ↔
      r ∈ (tr a).t.foldedReasons ∨ ∃ n, a ≤ n ∧ n < m ∧ act n = .triggerWithReason r))
    hab (by simp; omega) fun m ham hmb ih => ?_
  rw [(hr.effect m).foldedReasons, ih]
  constructor
  · rintro ⟨-, (h1 | ⟨n, hn, hnm, hact⟩) | h2⟩
    · exact .inl h1
    · exact .inr ⟨n, hn, by omega, hact⟩
    · exact .inr ⟨m, ham, by omega, h2⟩
  · rintro (h1 | ⟨n, hn, hnm, hact⟩)
    · exact ⟨h m ham hmb, .inl (.inl h1)⟩
    · refine ⟨h m ham hmb, ?_⟩
      rcases Nat.lt_succ_iff_lt_or_eq.mp hnm with hnm | rfl
      · exact .inl (.inr ⟨n, hn, hnm, hact⟩)
      · exact .inr hact

/-- A set flag was set by a call that no first critical section of the waiter has seen. -/
theorem trigger_set (hr : IsRun p tr act) {n : ℕ} (h : (tr n).t.trigger = true) :
    ∃ f < n, (act f).isCall = true ∧ ∀ v, f < v → v < n → act v ≠ .clear := by
  induction n with
  | zero => simp [hr.start.2.1] at h
  | succ n ih =>
    rw [(hr.effect n).trigger] at h
    by_cases hc : (act n).isCall = true
    · exact ⟨n, by omega, hc, fun v hv hvn => by omega⟩
    · simp only [hc, Bool.false_or, Bool.and_eq_true, bne_iff_ne, ne_eq] at h
      obtain ⟨f, hf, hfc, hno⟩ := ih h.1
      refine ⟨f, by omega, hfc, fun v hfv hvn => ?_⟩
      rcases Nat.lt_succ_iff_lt_or_eq.mp hvn with hvn | rfl
      · exact hno v hfv hvn
      · exact h.2

/-- A waiter between its critical sections got there from a first critical section that found
the flag set, with no critical section of the waiter since. -/
theorem window_entered (hr : IsRun p tr act) {n : ℕ} (h : (tr n).waiter.inWindow = true) :
    ∃ c < n, act c = .clear ∧ (tr c).t.trigger = true ∧
      ∀ v, c < v → v < n → act v ≠ .clear ∧ act v ≠ .collect := by
  induction n with
  | zero => simp [hr.start.1, Waiter.inWindow] at h
  | succ n ih =>
    rw [(hr.effect n).inWindow] at h
    by_cases hc : act n = .clear
    · rw [if_pos hc] at h
      exact ⟨n, by omega, hc, h, fun v hv hvn => by omega⟩
    · by_cases hk : act n = .collect
      · simp [hk] at h
      · rw [if_neg hc, if_neg hk] at h
        obtain ⟨c, hcn, hcc, hct, hno⟩ := ih h
        refine ⟨c, by omega, hcc, hct, fun v hcv hvn => ?_⟩
        rcases Nat.lt_succ_iff_lt_or_eq.mp hvn with hvn | rfl
        · exact hno v hcv hvn
        · exact ⟨hc, hk⟩

/-- The waiter only returns on `closeChan`. -/
theorem exited_of (hr : IsRun p tr act) {n : ℕ} (h : (tr n).waiter = .exited) :
    ∃ u < n, act u = .recvClose := by
  induction n with
  | zero => simp [hr.start.1] at h
  | succ n ih =>
    rcases (hr.effect n).exited h with h | h
    · obtain ⟨u, hu, hc⟩ := ih h
      exact ⟨u, by omega, hc⟩
    · exact ⟨n, by omega, h⟩

end IsRun

end Cilium.Trigger
