import Cilium.Xds.Cache
import Mathlib.Data.Finset.Basic

/-! `pkg/envoy/xds/ack.go`: the `AckingResourceMutatorWrapper` over a `Cache`, which registers a
completion for each update that callers wait on and completes it when the proxies acknowledge the
new version, together with the completions of `pkg/completion` that it registers.  Completion `id`
is the `id`-th registered; `Complete` only takes effect once, and its callback calls are recorded.
The wait groups act on the completions from outside: when a wait group's context ends, `Wait`
completes a completion with the context's error and then calls `CleanupAfterWait`, as two steps
that other calls may come between.  The logger, the metrics and the first-ACK channels of
`WaitForFirstAck` are left out. -/

namespace Cilium.Xds

/-- The error a completion is completed with: the `ProxyError` of a NACK, which wraps
`ErrNackReceived` with the detail the proxy sent, or the error of the wait group's context. -/
inductive CompletionError
  | proxyError (detail : String)
  | canceled
  | deadlineExceeded
  deriving DecidableEq, Repr

/-- `completion.Completion`: whether its `completed` channel is closed, and its `err`. -/
structure Completion where
  completed : Bool
  err : Option CompletionError
  deriving DecidableEq, Repr

/-- A call of a caller's callback: by `Complete` for completion `id`, or at once with `nil` by
`Upsert` and `Delete` when there is nothing to wait for. -/
inductive Callback
  | completion (id : ℕ) (err : Option CompletionError)
  | immediate
  deriving DecidableEq, Repr

/-- The completion a callback call is for. -/
def Callback.completionId : Callback → Option ℕ
  | .completion id _ => some id
  | .immediate => none

/-- `pendingCompletion`, without its owner: the version and type URL to be acknowledged, and for
each node still to acknowledge, the resource names it has still to acknowledge. -/
structure pendingCompletion where
  version : ℕ
  typeURL : String
  remainingNodesResources : List (String × Finset String)
  deriving DecidableEq

/-- An `AckingResourceMutatorWrapper` with the `Cache` it wraps, together with the completions
registered so far (`nextId` of them) and the calls of callbacks so far. -/
structure State (α : Type) where
  mutator : Cache α
  version : ℕ
  ackedVersions : AList fun _ : String => ℕ
  pendingCompletions : List (ℕ × pendingCompletion)
  restoring : Bool
  completions : ℕ → Completion
  nextId : ℕ
  callbacks : List Callback

/-- What the loops over `pendingCompletions` do with one completion that has not failed: keep it,
possibly changed, or drop it after completing it with `err` (`some err`) or without (`none`). -/
inductive PendingAction
  | keep (pending : pendingCompletion)
  | drop (complete : Option (Option CompletionError))

variable {α : Type}

namespace State

/-- `NewAckingResourceMutatorWrapper`. -/
def newAckingResourceMutatorWrapper (mutator : Cache α) : State α :=
  ⟨mutator, 0, ∅, [], false, fun _ => ⟨false, none⟩, 0, []⟩

/-- `Completion.Err` of completion `id`. -/
def err (s : State α) (id : ℕ) : Option CompletionError := (s.completions id).err

/-- `Completion.Complete` on completion `id`: the first call closes `completed`, sets `err` and
calls the callback; a later one changes nothing. -/
def complete (s : State α) (id : ℕ) (err : Option CompletionError) : State α :=
  if id < s.nextId ∧ (s.completions id).completed = false then
    { s with
      completions := Function.update s.completions id ⟨true, err⟩
      callbacks := s.callbacks ++ [.completion id err] }
  else s

/-- `wg.AddCompletionWithCallback(comp, callback)` followed by `m.pendingCompletions[c] = comp`. -/
def addCompletion (s : State α) (comp : pendingCompletion) : State α :=
  { s with
    pendingCompletions := s.pendingCompletions ++ [(s.nextId, comp)]
    nextId := s.nextId + 1 }

/-- One pending completion in the loops over `pendingCompletions` of `CancelCompletions`,
`Delete` and `HandleResourceVersionAck`, with the state and the completions kept so far: one whose
`Err()` is not `nil` is dropped, and `f` says what happens to each other one. -/
def sweepStep (f : pendingCompletion → PendingAction)
    (acc : State α × List (ℕ × pendingCompletion)) (p : ℕ × pendingCompletion) :
    State α × List (ℕ × pendingCompletion) :=
  if (acc.1.err p.1).isSome then acc
  else match f p.2 with
    | .keep pending => (acc.1, acc.2 ++ [(p.1, pending)])
    | .drop none => acc
    | .drop (some err) => (acc.1.complete p.1 err, acc.2)

/-- The loop over `pendingCompletions`; the map afterwards holds the completions kept. -/
def sweep (s : State α) (f : pendingCompletion → PendingAction) : State α :=
  let r := s.pendingCompletions.foldl (sweepStep f) (s, [])
  { r.1 with pendingCompletions := r.2 }

/-- The nodes that `addCurrentVersionCompletion` waits for: those that have not acknowledged the
current version, once each, with no resource names. -/
def currentVersionNodes (s : State α) (nodeIPs : List String) : List (String × Finset String) :=
  ((nodeIPs.filter fun nodeIP => match s.ackedVersions.lookup nodeIP with
      | some acked => !decide (acked ≥ s.version)
      | none => true).dedup).map fun nodeIP => (nodeIP, ∅)

/-- `addCurrentVersionCompletion`: the state, and whether the caller should wait. -/
def addCurrentVersionCompletion (s : State α) (typeURL : String) (nodeIPs : List String) :
    State α × Bool :=
  let remainingNodesResources := s.currentVersionNodes nodeIPs
  if remainingNodesResources = [] then (s, false)
  else (s.addCompletion ⟨s.version, typeURL, remainingNodesResources⟩, true)

/-- `maybeAddCurrentVersionCompletion`. -/
def maybeAddCurrentVersionCompletion (s : State α) (wait : Bool) (typeURL : String)
    (nodeIPs : List String) : State α :=
  let (s, wait) := if wait then s.addCurrentVersionCompletion typeURL nodeIPs else (s, false)
  if wait then s else { s with callbacks := s.callbacks ++ [.immediate] }

/-- `CancelCompletions`: every pending completion of the type URL is completed with `nil`. -/
def cancelCompletions (s : State α) (typeURL : String) : State α :=
  s.sweep fun pending => if pending.typeURL = typeURL then .drop (some none) else .keep pending

/-- `Upsert`, where `wg` is whether a wait group is given; it returns the revert transaction that
the returned `AckingResourceMutatorRevertFunc` runs, if any. -/
def upsert [DecidableEq α] (s : State α) (typeURL resourceName : String) (resource : α)
    (nodeIDs : List String) (wg : Bool) : State α × Option (revertTX α) :=
  let wait := wg && !s.restoring
  let (mutator, version, updated, revert) := s.mutator.upsert typeURL resourceName resource
  let s := { s with mutator, version }
  if !updated then (s.maybeAddCurrentVersionCompletion wait typeURL nodeIDs, none)
  else if wait then
    (s.addCompletion ⟨version, typeURL, nodeIDs.dedup.map fun nodeID => (nodeID, {resourceName})⟩,
      revert)
  else ({ s with callbacks := s.callbacks ++ [.immediate] }, revert)

/-- What `Delete` does to a pending completion: its type URL's completions no longer wait for the
deleted name, and the sets left empty stay, so that an N/ACK of the node still completes them. -/
def deletePending (typeURL resourceName : String) (pending : pendingCompletion) :
    pendingCompletion :=
  if pending.typeURL = typeURL then
    { pending with remainingNodesResources :=
        pending.remainingNodesResources.map fun e => (e.1, e.2.erase resourceName) }
  else pending

/-- `Delete`; it returns the revert transaction, as `Upsert` does. -/
def delete [DecidableEq α] (s : State α) (typeURL resourceName : String) (nodeIDs : List String)
    (wg : Bool) : State α × Option (revertTX α) :=
  let wait := wg && !s.restoring
  let (mutator, version, updated, revert) := s.mutator.delete typeURL resourceName
  let s := { s with mutator, version }.sweep fun pending =>
    .keep (deletePending typeURL resourceName pending)
  (s.maybeAddCurrentVersionCompletion wait typeURL nodeIDs, if updated then revert else none)

/-- An `AckingResourceMutatorRevertFunc`: it runs the cache's revert function and takes the version
it returns. -/
def revert [DecidableEq α] (s : State α) (r : revertTX α) : State α :=
  let (mutator, version, _) := s.mutator.revert r
  { s with mutator, version }

/-- The acked version of a node after `HandleResourceVersionAck`: set when the node has none, or
when the ACK advances it. -/
def ackedVersionsAfter (ackedVersions : AList fun _ : String => ℕ) (nodeIP : String)
    (ackVersion : ℕ) : AList fun _ : String => ℕ :=
  match ackedVersions.lookup nodeIP with
  | some previouslyAckedVersion =>
    if previouslyAckedVersion < ackVersion then ackedVersions.insert nodeIP ackVersion
    else ackedVersions
  | none => ackedVersions.insert nodeIP ackVersion

/-- The names that a node still owes set to `S`: the deletions of `HandleResourceVersionAck` from
the node's set. -/
def setNames (remaining : List (String × Finset String)) (nodeIP : String) (S : Finset String) :
    List (String × Finset String) :=
  remaining.map fun e => if e.1 = nodeIP then (e.1, S) else e

/-- `delete(pending.remainingNodesResources, nodeIP)`. -/
def eraseNode (remaining : List (String × Finset String)) (nodeIP : String) :
    List (String × Finset String) :=
  remaining.filter fun e => e.1 ≠ nodeIP

/-- What `HandleResourceVersionAck` does to a pending completion that has not failed, when
`nodeIP` N/ACKs `responseVersion` of `typeURL` with the resource names `resourceNames`: the node no
longer waits for those names; a node left with none completes the completion as a NACK, or else
stops waiting; once no node waits, an ACK of the completion's version completes it. -/
def ackPending (nodeIP : String) (ackVersion responseVersion : ℕ) (isNACK : Bool)
    (errorDetail typeURL : String) (resourceNames : List String) (pending : pendingCompletion) :
    PendingAction :=
  if pending.typeURL = typeURL ∧ pending.version ≤ responseVersion then
    match pending.remainingNodesResources.lookup nodeIP with
    | none => .keep pending
    | some names =>
      let remainingResourceNames := names \ resourceNames.toFinset
      let remaining := setNames pending.remainingNodesResources nodeIP remainingResourceNames
      if remainingResourceNames = ∅ ∧ isNACK = true then
        .drop (some (some (.proxyError errorDetail)))
      else
        let remaining := if remainingResourceNames = ∅ then eraseNode remaining nodeIP
          else remaining
        if remaining = [] ∧ pending.version ≤ ackVersion then .drop (some none)
        else .keep { pending with remainingNodesResources := remaining }
  else .keep pending

/-- `HandleResourceVersionAck`. -/
def handleResourceVersionAck (s : State α) (nodeIP : String) (ackVersion responseVersion : ℕ)
    (isNACK : Bool) (errorDetail typeURL : String) (resourceNames : List String) : State α :=
  { s with ackedVersions := ackedVersionsAfter s.ackedVersions nodeIP ackVersion }.sweep
    (ackPending nodeIP ackVersion responseVersion isNACK errorDetail typeURL resourceNames)

/-- `pendingCompletion.CleanupAfterWait`. -/
def cleanupAfterWait (s : State α) (id : ℕ) : State α :=
  { s with pendingCompletions := s.pendingCompletions.filter fun p => p.1 ≠ id }

end State

/-- The calls on a wrapper and the steps of the wait groups on its completions. -/
inductive Op (α : Type)
  | upsert (typeURL resourceName : String) (resource : α) (nodeIDs : List String) (wg : Bool)
  | delete (typeURL resourceName : String) (nodeIDs : List String) (wg : Bool)
  /-- a call of a revert function that `Upsert` or `Delete` returned -/
  | revert (r : revertTX α)
  | cancelCompletions (typeURL : String)
  | handleResourceVersionAck (nodeIP : String) (ackVersion responseVersion : ℕ) (isNACK : Bool)
      (errorDetail typeURL : String) (resourceNames : List String)
  | markRestorePending
  | markRestoreCompleted
  /-- `Wait` completes completion `id` with its context's error, `DeadlineExceeded` or
  `Canceled` -/
  | waitComplete (id : ℕ) (deadlineExceeded : Bool)
  /-- `Wait` then calls `CleanupAfterWait` for it -/
  | cleanupAfterWait (id : ℕ)

namespace State

variable [DecidableEq α]

/-- One step. -/
def step (s : State α) : Op α → State α
  | .upsert typeURL resourceName resource nodeIDs wg =>
    (s.upsert typeURL resourceName resource nodeIDs wg).1
  | .delete typeURL resourceName nodeIDs wg => (s.delete typeURL resourceName nodeIDs wg).1
  | .revert r => s.revert r
  | .cancelCompletions typeURL => s.cancelCompletions typeURL
  | .handleResourceVersionAck nodeIP ackVersion responseVersion isNACK errorDetail typeURL
      resourceNames =>
    s.handleResourceVersionAck nodeIP ackVersion responseVersion isNACK errorDetail typeURL
      resourceNames
  | .markRestorePending => { s with restoring := true }
  | .markRestoreCompleted => { s with restoring := false }
  | .waitComplete id deadlineExceeded =>
    s.complete id (some (if deadlineExceeded then .deadlineExceeded else .canceled))
  | .cleanupAfterWait id => s.cleanupAfterWait id

/-- The state after a sequence of steps. -/
def run (s : State α) (ops : List (Op α)) : State α := ops.foldl step s

end State

namespace State

section Complete

variable (s : State α) (id : ℕ) (e : Option CompletionError)

@[simp] theorem complete_pendingCompletions :
    (s.complete id e).pendingCompletions = s.pendingCompletions := by
  unfold complete; split <;> rfl

@[simp] theorem complete_nextId : (s.complete id e).nextId = s.nextId := by
  unfold complete; split <;> rfl

theorem complete_with_pending (l : List (ℕ × pendingCompletion)) :
    ({ s with pendingCompletions := l }.complete id e) =
      { s.complete id e with pendingCompletions := l } := by
  simp only [complete]
  split_ifs <;> rfl

theorem complete_completions (j : ℕ) :
    (s.complete id e).completions j =
      if j = id ∧ id < s.nextId ∧ (s.completions id).completed = false then ⟨true, e⟩
      else s.completions j := by
  unfold complete
  split
  · next h => by_cases hj : j = id <;> simp [hj, h]
  · next h => simp [h]

theorem complete_callbacks :
    (s.complete id e).callbacks =
      if id < s.nextId ∧ (s.completions id).completed = false then
        s.callbacks ++ [.completion id e]
      else s.callbacks := by
  unfold complete; split <;> rfl

theorem callbacks_prefix_complete : s.callbacks <+: (s.complete id e).callbacks := by
  rw [complete_callbacks]
  split
  · exact List.prefix_append _ _
  · exact List.prefix_refl _

end Complete

section Sweep

variable (f : pendingCompletion → PendingAction)

/-- What one visit of the loop of `sweep` can do: leave the state and the kept completions as they
are (a failed completion, or one dropped without completing), keep the completion, or complete it
and drop it. -/
theorem sweepStep_cases (t : State α) (kept : List (ℕ × pendingCompletion))
    (p : ℕ × pendingCompletion) :
    (sweepStep f (t, kept) p = (t, kept) ∧ ((t.err p.1).isSome ∨ f p.2 = .drop none)) ∨
    (∃ p', t.err p.1 = none ∧ f p.2 = .keep p' ∧
      sweepStep f (t, kept) p = (t, kept ++ [(p.1, p')])) ∨
    (∃ e, t.err p.1 = none ∧ f p.2 = .drop (some e) ∧
      sweepStep f (t, kept) p = (t.complete p.1 e, kept)) := by
  by_cases h : (t.err p.1).isSome
  · exact .inl ⟨by simp [sweepStep, h], .inl h⟩
  · have h' : t.err p.1 = none := Option.not_isSome_iff_eq_none.mp h
    cases hf : f p.2 with
    | keep p' => exact .inr (.inl ⟨p', h', rfl, by simp [sweepStep, h, hf]⟩)
    | drop c =>
      cases c with
      | none => exact .inl ⟨by simp [sweepStep, h, hf], .inr rfl⟩
      | some e => exact .inr (.inr ⟨e, h', rfl, by simp [sweepStep, h, hf]⟩)

theorem sweepStep_of_keep {t : State α} {kept : List (ℕ × pendingCompletion)}
    {q : ℕ × pendingCompletion} {p' : pendingCompletion} (herr : t.err q.1 = none)
    (hf : f q.2 = .keep p') : sweepStep f (t, kept) q = (t, kept ++ [(q.1, p')]) := by
  simp [sweepStep, herr, hf]

theorem sweepStep_of_complete {t : State α} {kept : List (ℕ × pendingCompletion)}
    {q : ℕ × pendingCompletion} {e : Option CompletionError} (herr : t.err q.1 = none)
    (hf : f q.2 = .drop (some e)) : sweepStep f (t, kept) q = (t.complete q.1 e, kept) := by
  simp [sweepStep, herr, hf]

/-- A visit leaves the completions of the others as they were; the kept completions and the
callbacks only grow. -/
theorem sweepStep_frame (t : State α) (kept : List (ℕ × pendingCompletion))
    (q : ℕ × pendingCompletion) {id : ℕ} (hid : q.1 ≠ id) :
    (sweepStep f (t, kept) q).1.completions id = t.completions id ∧
      kept ⊆ (sweepStep f (t, kept) q).2 ∧
      t.callbacks <+: (sweepStep f (t, kept) q).1.callbacks ∧
      (sweepStep f (t, kept) q).1.nextId = t.nextId := by
  rcases sweepStep_cases f t kept q with ⟨hst, -⟩ | ⟨p', -, -, hst⟩ | ⟨e, -, -, hst⟩ <;>
    rw [hst]
  · exact ⟨rfl, fun _ h => h, List.prefix_refl _, rfl⟩
  · exact ⟨rfl, fun _ h => List.mem_append_left _ h, List.prefix_refl _, rfl⟩
  · refine ⟨?_, fun _ h => h, callbacks_prefix_complete _ _ _, complete_nextId _ _ _⟩
    rw [complete_completions, if_neg fun h => hid h.1.symm]

/-- Induction over the loop of `sweep`: a property of the state, the completions kept so far and
those still to visit that holds at the start and is kept by every visit holds at the end. -/
theorem sweep_induction (s : State α)
    (P : State α → List (ℕ × pendingCompletion) → List (ℕ × pendingCompletion) → Prop)
    (h0 : P s [] s.pendingCompletions)
    (hstep : ∀ t kept p rest, P t kept (p :: rest) →
      P (sweepStep f (t, kept) p).1 (sweepStep f (t, kept) p).2 rest) :
    ∃ t kept, P t kept [] ∧ s.sweep f = { t with pendingCompletions := kept } := by
  have key : ∀ rest (acc : State α × List (ℕ × pendingCompletion)), P acc.1 acc.2 rest →
      P (rest.foldl (sweepStep f) acc).1 (rest.foldl (sweepStep f) acc).2 [] := by
    intro rest
    induction rest with
    | nil => exact fun _ h => h
    | cons p rest ih => exact fun acc h => ih _ (hstep acc.1 acc.2 p rest h)
  exact ⟨_, _, key s.pendingCompletions (s, []) h0, rfl⟩

/-- The loop of `sweep` changes the completions and the callbacks only: every other field but the
pending completions is as it was. -/
theorem sweep_eq (s : State α) : ∃ completions callbacks, s.sweep f =
    { s with completions, callbacks, pendingCompletions := (s.sweep f).pendingCompletions } := by
  obtain ⟨t, kept, ⟨completions, callbacks, ht⟩, hs⟩ := sweep_induction f s
    (fun t _ _ => ∃ completions callbacks, t = { s with completions, callbacks })
    ⟨_, _, rfl⟩ fun t kept p rest ⟨cs, cbs, ht⟩ => by
      subst ht
      rcases sweepStep_cases f _ kept p with ⟨h, -⟩ | ⟨p', -, -, h⟩ | ⟨e, -, -, h⟩ <;> rw [h]
      · exact ⟨cs, cbs, rfl⟩
      · exact ⟨cs, cbs, rfl⟩
      · unfold complete; split
        · exact ⟨_, _, rfl⟩
        · exact ⟨cs, cbs, rfl⟩
  subst ht
  exact ⟨completions, callbacks, by rw [hs]⟩

@[simp] theorem sweep_nextId (s : State α) : (s.sweep f).nextId = s.nextId := by
  obtain ⟨_, _, h⟩ := sweep_eq f s
  rw [h]

@[simp] theorem sweep_restoring (s : State α) : (s.sweep f).restoring = s.restoring := by
  obtain ⟨_, _, h⟩ := sweep_eq f s
  rw [h]

end Sweep

section Pending

variable {nodeIP : String} {ackVersion responseVersion : ℕ} {isNACK : Bool}
  {errorDetail typeURL : String} {resourceNames : List String} {pending p' : pendingCompletion}

theorem eraseNode_setNames (l : List (String × Finset String)) (nodeIP : String)
    (S : Finset String) : eraseNode (setNames l nodeIP S) nodeIP = eraseNode l nodeIP := by
  induction l with
  | nil => rfl
  | cons e l ih =>
    simp only [eraseNode, setNames] at ih ⊢
    rw [List.map_cons, List.filter_cons, List.filter_cons, ih]
    by_cases he : e.1 = nodeIP <;> simp [he]

theorem mem_eraseNode {l : List (String × Finset String)} {nodeIP : String}
    {e : String × Finset String} : e ∈ eraseNode l nodeIP ↔ e ∈ l ∧ e.1 ≠ nodeIP := by
  simp [eraseNode]

theorem setNames_eq_nil {l : List (String × Finset String)} {nodeIP : String}
    {S : Finset String} : setNames l nodeIP S = [] ↔ l = [] := by
  simp [setNames]

theorem mem_setNames {l : List (String × Finset String)} {nodeIP : String} {S : Finset String}
    {e : String × Finset String} :
    e ∈ setNames l nodeIP S ↔ ∃ e0 ∈ l, (if e0.1 = nodeIP then (e0.1, S) else e0) = e := by
  simp [setNames]

/-- A completion is completed as a NACK only by a NACK, for its type URL, of a response version at
least its version, from a node it waits for, whose resource names cover all that node still owes;
the error carries the detail of that NACK. -/
theorem ackPending_eq_nack {detail : String}
    (h : ackPending nodeIP ackVersion responseVersion isNACK errorDetail typeURL resourceNames
      pending = .drop (some (some (.proxyError detail)))) :
    isNACK = true ∧ detail = errorDetail ∧ pending.typeURL = typeURL ∧
      pending.version ≤ responseVersion ∧ ∃ names,
        pending.remainingNodesResources.lookup nodeIP = some names ∧
          names ⊆ resourceNames.toFinset := by
  by_cases hc : pending.typeURL = typeURL ∧ pending.version ≤ responseVersion
  · cases hl : pending.remainingNodesResources.lookup nodeIP with
    | none => simp [ackPending, hc, hl] at h
    | some names =>
      by_cases hn : names \ resourceNames.toFinset = ∅ ∧ isNACK = true
      · simp only [ackPending, hc, hl, hn, and_self, if_true, PendingAction.drop.injEq,
          Option.some.injEq, CompletionError.proxyError.injEq] at h
        exact ⟨hn.2, h.symm, hc.1, hc.2, names, rfl, Finset.sdiff_eq_empty_iff_subset.mp hn.1⟩
      · simp only [ackPending, hc, hl, hn, and_self, if_true, if_false] at h
        split_ifs at h <;> simp at h
  · simp [ackPending, hc] at h

/-- A completion that waits for no node is kept as it is by every N/ACK. -/
theorem ackPending_of_nil (h : pending.remainingNodesResources = []) :
    ackPending nodeIP ackVersion responseVersion isNACK errorDetail typeURL resourceNames pending =
      .keep pending := by
  by_cases hc : pending.typeURL = typeURL ∧ pending.version ≤ responseVersion
  · simp [ackPending, hc, h]
  · simp [ackPending, hc]

@[simp] theorem deletePending_typeURL (resourceName : String) :
    (deletePending typeURL resourceName pending).typeURL = pending.typeURL := by
  unfold deletePending; split <;> rfl

/-- The N/ACKs `acks` cover a pending completion: every node it waits for N/ACKs, in one of them,
all the names the node still owes. -/
def Covered (acks : List (String × List String)) (pending : pendingCompletion) : Prop :=
  ∀ e ∈ pending.remainingNodesResources, ∃ names, (e.1, names) ∈ acks ∧ e.2 ⊆ names.toFinset

/-- An ACK of a version at least the completion's, from a node of it, whose names cover the node
when later ACKs cover the others: either the completion is completed with `nil`, or it is kept,
waiting for some node still, and the later ACKs cover it. -/
theorem ackPending_covered {names : List String} {acks : List (String × List String)} {v : ℕ}
    (errorDetail : String) (hcov : Covered ((nodeIP, names) :: acks) pending)
    (hne : pending.remainingNodesResources ≠ []) (hv : pending.version ≤ v) :
    ackPending nodeIP v v false errorDetail pending.typeURL names pending = .drop (some none) ∨
      ∃ p', ackPending nodeIP v v false errorDetail pending.typeURL names pending = .keep p' ∧
        p'.typeURL = pending.typeURL ∧ p'.version = pending.version ∧
        p'.remainingNodesResources ≠ [] ∧ Covered acks p' := by
  -- a node other than `nodeIP` is covered by a later ACK
  have hother : ∀ e ∈ pending.remainingNodesResources, e.1 ≠ nodeIP →
      ∃ ns, (e.1, ns) ∈ acks ∧ e.2 ⊆ ns.toFinset := by
    intro e he hne'
    obtain ⟨ns, hmem, hsub⟩ := hcov e he
    rcases List.mem_cons.mp hmem with heq | htail
    · exact absurd (Prod.mk.inj heq).1 hne'
    · exact ⟨ns, htail, hsub⟩
  cases hl : pending.remainingNodesResources.lookup nodeIP with
  | none =>
    refine .inr ⟨pending, by simp [ackPending, hv, hl], rfl, rfl, hne, fun e he => hother e he ?_⟩
    intro heq
    have := List.lookup_eq_none_iff.mp hl e he
    simp [heq] at this
  | some S =>
    have hS : (nodeIP, S) ∈ pending.remainingNodesResources := by
      obtain ⟨l₁, l₂, h, -⟩ := List.lookup_eq_some_iff.mp hl
      rw [h]
      simp
    by_cases hR : S \ names.toFinset = ∅
    · -- the node has acknowledged all it owed: it stops waiting
      by_cases hempty : eraseNode pending.remainingNodesResources nodeIP = []
      · left
        simp [ackPending, hv, hl, hR, eraseNode_setNames, hempty]
      · right
        refine ⟨{ pending with remainingNodesResources := eraseNode _ nodeIP }, by
          simp [ackPending, hv, hl, hR, eraseNode_setNames, hempty], rfl, rfl, hempty,
          fun e he => ?_⟩
        obtain ⟨he, hne'⟩ := mem_eraseNode.mp he
        exact hother e he hne'
    · -- some names are still owed: the node keeps waiting for them
      right
      refine ⟨{ pending with remainingNodesResources := setNames _ nodeIP (S \ names.toFinset) },
        by simp [ackPending, hv, hl, hR, setNames_eq_nil, hne], rfl, rfl,
        fun h => hne (setNames_eq_nil.mp h), fun e he => ?_⟩
      obtain ⟨e0, he0, rfl⟩ := mem_setNames.mp he
      by_cases h0 : e0.1 = nodeIP
      · simp only [h0, if_true]
        obtain ⟨ns, hmem, hsub⟩ := hcov (nodeIP, S) hS
        rcases List.mem_cons.mp hmem with heq | htail
        · obtain ⟨-, rfl⟩ := Prod.mk.inj heq
          exact absurd (Finset.sdiff_eq_empty_iff_subset.mpr hsub) hR
        · exact ⟨ns, htail, Finset.sdiff_subset.trans hsub⟩
      · simp only [h0, if_false]
        exact hother e0 he0 h0

end Pending

end State

end Cilium.Xds
