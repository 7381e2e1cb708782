import Mathlib.Data.List.AList

/-! `pkg/trigger`: calls of `TriggerWithReason` are folded into runs of `TriggerFunc` that one
waiter goroutine makes, one at a time and `MinInterval` apart.  The system is the `Trigger`, the
place of the waiter in its loop, the ticker's channel, the number of calls past their critical
section that have not yet made their send, and the clock.  A step is one atomic action of one
goroutine: a critical section, a non-blocking send, one case of the waiter's `select`, or a part of
the waiter that touches nothing shared.  Times are nanoseconds of the monotonic clock, so
`time.Since(x)` is `now - x`; channels are whether their one slot is full (`wakeupChan`, the
ticker's) or whether they are closed (`closeChan`).  The ticker may tick at any step: its period
only bounds how long the waiter sleeps in `select`. -/

namespace Cilium.Trigger

set_option linter.dupNamespace false

/-- `trigger.Parameters`.  `TriggerFunc`, `ShutdownFunc` and the metrics observer are calls that
the waiter's steps stand for; `triggerFunc` is whether `TriggerFunc` is set. -/
structure Parameters where
  minInterval : ℤ
  triggerFunc : Bool
  sleepInterval : ℤ
  deriving DecidableEq, Repr

/-- The zero `time.Time`, January 1 of year 1, in nanoseconds from the Unix epoch. -/
def zeroTime : ℤ := -62135596800000000000

/-- `trigger.Trigger`; `foldedReasons` is the `reasonStack`, a set of reasons. -/
structure Trigger where
  trigger : Bool
  params : Parameters
  lastTrigger : ℤ
  wakeupChan : Bool
  closeChan : Bool
  numFolds : ℕ
  foldedReasons : AList fun _ : String => Unit
  waitStart : ℤ

namespace Trigger

/-- `NewTrigger` at time `now`, before it starts the waiter. -/
def newTrigger (p : Parameters) (now : ℤ) : Except String Trigger :=
  let p := if p.sleepInterval = 0 then { p with sleepInterval := 1000000000 } else p
  if !p.triggerFunc then .error "trigger function is nil"
  else .ok ⟨false, p, if 0 < p.minInterval then now + -1 * p.minInterval else zeroTime, false, false,
    0, ∅, zeroTime⟩

/-- `Trigger.needsDelay` at time `now`: whether to sleep, and for how long. -/
def needsDelay (t : Trigger) (now : ℤ) : Bool × ℤ :=
  if t.params.minInterval = 0 then (false, 0)
  else
    let sleepTime := now - (t.lastTrigger + t.params.minInterval)
    (decide (sleepTime < 0), sleepTime * -1)

/-- The critical section of `TriggerWithReason` at time `now`. -/
def triggerWithReason (t : Trigger) (reason : String) (now : ℤ) : Trigger :=
  { t with
    trigger := true
    waitStart := if t.numFolds = 0 then now else t.waitStart
    numFolds := t.numFolds + 1
    foldedReasons := t.foldedReasons.insert reason () }

/-- The second critical section of the waiter at time `now`: the trigger after it, and the
reasons, the number of folds and the latency it hands to `TriggerFunc` and `PostRun`. -/
def collect (t : Trigger) (now : ℤ) : Trigger × List String × ℕ × ℤ :=
  ({ t with lastTrigger := now, numFolds := 0, foldedReasons := ∅ },
    t.foldedReasons.keys, t.numFolds, now - t.waitStart)

end Trigger

/-- Where the waiter goroutine is in its loop: at its head, past a set trigger flag (before
`needsDelay`), in `time.Sleep`, before its second critical section, in `TriggerFunc` (with what
`PostRun` will be passed), in `select`, or returned. -/
inductive Waiter where
  | loop
  | triggered
  | sleeping (wakeAt : ℤ)
  | collecting
  | running (reasons : List String) (numFolds : ℕ) (callLatency : ℤ)
  | selecting
  | exited
  deriving DecidableEq, Repr

/-- The trigger with its goroutines: the waiter, the ticker's channel, the calls that are past
their critical section and have not yet sent to `wakeupChan`, and the clock. -/
structure Sys where
  t : Trigger
  waiter : Waiter
  tick : Bool
  sending : ℕ
  now : ℤ

/-- The atomic actions.  A call of `TriggerWithReason` is its critical section, then its send;
`Shutdown` closes `closeChan`; the ticker ticks; time passes.  The rest are the waiter's: its first
critical section, `needsDelay` and the start of `time.Sleep`, the end of the sleep, its second
critical section with the start of `TriggerFunc`, the return of `TriggerFunc` with `PostRun`, and
the three cases of `select`. -/
inductive Action where
  | triggerWithReason (reason : String)
  | send
  | shutdown
  | tick
  | advance (d : ℕ)
  | clear
  | needsDelay
  | wake
  | collect
  | postRun
  | recvWakeup
  | recvTick
  | recvClose
  deriving DecidableEq, Repr

/-- The actions of the waiter goroutine. -/
def Action.isWaiter : Action → Bool
  | .clear | .needsDelay | .wake | .collect | .postRun | .recvWakeup | .recvTick | .recvClose => true
  | _ => false

/-- The critical sections of `TriggerWithReason`. -/
def Action.isCall : Action → Bool
  | .triggerWithReason _ => true
  | _ => false

namespace Sys

/-- The system right after `NewTrigger` started the waiter. -/
def init (t : Trigger) (now : ℤ) : Sys := ⟨t, .loop, false, 0, now⟩

/-- One action, or `none` when it cannot be taken: the waiter is elsewhere, the channel it
receives from is empty, the sleep is not over, no call is left to send, or `closeChan` is already
closed (a second `close` panics). -/
def step (s : Sys) : Action → Option Sys
  | .triggerWithReason reason =>
    some { s with t := s.t.triggerWithReason reason s.now, sending := s.sending + 1 }
  | .send =>
    -- `select` with a `default`: the send is dropped when the slot is full
    if 0 < s.sending then some { s with t := { s.t with wakeupChan := true }, sending := s.sending - 1 }
    else none
  | .shutdown => if s.t.closeChan then none else some { s with t := { s.t with closeChan := true } }
  | .tick => some { s with tick := true }
  | .advance d => some { s with now := s.now + d }
  | .clear =>
    match s.waiter with
    | .loop =>
      let triggerEnabled := s.t.trigger
      some { s with
        t := { s.t with trigger := false }
        waiter := if triggerEnabled then .triggered else .selecting }
    | _ => none
  | .needsDelay =>
    match s.waiter with
    | .triggered =>
      let (delayNeeded, delay) := s.t.needsDelay s.now
      some { s with waiter := if delayNeeded then .sleeping (s.now + delay) else .collecting }
    | _ => none
  | .wake =>
    match s.waiter with
    | .sleeping wakeAt => if wakeAt ≤ s.now then some { s with waiter := .collecting } else none
    | _ => none
  | .collect =>
    match s.waiter with
    | .collecting =>
      let (t, reasons, numFolds, callLatency) := s.t.collect s.now
      some { s with t, waiter := .running reasons numFolds callLatency }
    | _ => none
  | .postRun =>
    match s.waiter with
    | .running .. => some { s with waiter := .selecting }
    | _ => none
  | .recvWakeup =>
    match s.waiter with
    | .selecting =>
      if s.t.wakeupChan then some { s with t := { s.t with wakeupChan := false }, waiter := .loop }
      else none
    | _ => none
  | .recvTick =>
    match s.waiter with
    | .selecting => if s.tick then some { s with tick := false, waiter := .loop } else none
    | _ => none
  | .recvClose =>
    match s.waiter with
    | .selecting => if s.t.closeChan then some { s with waiter := .exited } else none
    | _ => none

end Sys

end Cilium.Trigger
