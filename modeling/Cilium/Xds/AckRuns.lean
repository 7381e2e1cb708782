import Cilium.Xds.Ack
import Cilium.Lib.Trace

/-! Runs of an `AckingResourceMutatorWrapper`.  `Coherent` is what every state it reaches
satisfies: each pending completion is registered and pending once, it has not completed unless its
wait group's context ended it, and the callbacks of completions are called once each, for the
completed ones.  Over whole runs it follows that a completion completed by the wrapper leaves the
pending completions; that a NACK completion comes from a NACK that covered what a node owed; that
ACKs from every node a completion waits for complete it; and that a completion registered by an
`Upsert` with no node IDs is never completed by the wrapper except by `CancelCompletions`. -/

namespace Cilium.Xds

variable {α : Type}

/-- The error of a wait group's context. -/
def IsContextError (e : Option CompletionError) : Prop :=
  e = some .canceled ∨ e = some .deadlineExceeded

namespace State

theorem mem_completionIds {cbs : List Callback} {id : ℕ} :
    id ∈ cbs.filterMap Callback.completionId ↔ ∃ e, Callback.completion id e ∈ cbs := by
  simp only [List.mem_filterMap]
  constructor
  · rintro ⟨cb, hcb, hid⟩
    cases cb with
    | completion id' e =>
      simp only [Callback.completionId, Option.some.injEq] at hid
      exact ⟨e, hid ▸ hcb⟩
    | immediate => simp [Callback.completionId] at hid
  · rintro ⟨e, hcb⟩
    exact ⟨_, hcb, rfl⟩

/-- What every reachable state satisfies. -/
structure Coherent (s : State α) : Prop where
  lt : ∀ p ∈ s.pendingCompletions, p.1 < s.nextId
  nodup : (s.pendingCompletions.map Prod.fst).Nodup
  fresh : ∀ id, s.nextId ≤ id → s.completions id = ⟨false, none⟩
  pending : ∀ p ∈ s.pendingCompletions, (s.completions p.1).completed = true →
    IsContextError (s.completions p.1).err
  called : ∀ id e, Callback.completion id e ∈ s.callbacks ↔ s.completions id = ⟨true, e⟩
  once : (s.callbacks.filterMap Callback.completionId).Nodup

variable {s : State α}

theorem coherent_new (mutator : Cache α) :
    Coherent (newAckingResourceMutatorWrapper mutator) where
  lt := by simp [newAckingResourceMutatorWrapper]
  nodup := by simp [newAckingResourceMutatorWrapper]
  fresh := fun _ _ => rfl
  pending := by simp [newAckingResourceMutatorWrapper]
  called := by simp [newAckingResourceMutatorWrapper]
  once := by simp [newAckingResourceMutatorWrapper]

/-- `Coherent` speaks of the pending completions, the completions and the callbacks only. -/
theorem Coherent.of_eq {t : State α} (h : Coherent s)
    (hp : t.pendingCompletions = s.pendingCompletions) (hc : t.completions = s.completions)
    (hn : t.nextId = s.nextId) (hcb : t.callbacks = s.callbacks) : Coherent t where
  lt := by rw [hp, hn]; exact h.lt
  nodup := by rw [hp]; exact h.nodup
  fresh := by rw [hc, hn]; exact h.fresh
  pending := by rw [hp, hc]; exact h.pending
  called := by rw [hc, hcb]; exact h.called
  once := by rw [hcb]; exact h.once

/-- Dropping pending completions keeps `Coherent`, and so does changing what a kept one waits
for. -/
theorem Coherent.sublist (h : Coherent s) {l : List (ℕ × pendingCompletion)}
    (hl : (l.map Prod.fst).Sublist (s.pendingCompletions.map Prod.fst)) :
    Coherent { s with pendingCompletions := l } where
  lt := fun p hp => by
    obtain ⟨q, hq, hqp⟩ := List.mem_map.mp (hl.subset (List.mem_map_of_mem (f := Prod.fst) hp))
    exact hqp ▸ h.lt q hq
  nodup := h.nodup.sublist hl
  fresh := h.fresh
  pending := fun p hp => by
    obtain ⟨q, hq, hqp⟩ := List.mem_map.mp (hl.subset (List.mem_map_of_mem (f := Prod.fst) hp))
    exact hqp ▸ h.pending q hq
  called := h.called
  once := h.once

theorem Coherent.immediate (h : Coherent s) :
    Coherent { s with callbacks := s.callbacks ++ [.immediate] } where
  lt := h.lt
  nodup := h.nodup
  fresh := h.fresh
  pending := h.pending
  called := fun id e => by simpa using h.called id e
  once := by simpa [List.filterMap_cons, Callback.completionId] using h.once

theorem Coherent.addCompletion (h : Coherent s) (comp : pendingCompletion) :
    Coherent (s.addCompletion comp) where
  lt := fun p hp => by
    rcases List.mem_append.mp hp with hp | hp
    · exact Nat.lt_succ_of_lt (h.lt p hp)
    · simp_all [State.addCompletion]
  nodup := by
    simp only [State.addCompletion, List.map_append, List.map_cons, List.map_nil]
    refine List.nodup_append.mpr ⟨h.nodup, List.nodup_singleton _, ?_⟩
    intro a ha b hb
    obtain ⟨p, hp, rfl⟩ := List.mem_map.mp ha
    simp only [List.mem_singleton] at hb
    exact hb ▸ (h.lt p hp).ne
  fresh := fun id hid => h.fresh id (by simp [State.addCompletion] at hid; omega)
  pending := fun p hp hc => by
    rcases List.mem_append.mp hp with hp | hp
    · exact h.pending p hp hc
    · simp only [List.mem_singleton] at hp
      subst hp
      simp [State.addCompletion, h.fresh s.nextId le_rfl] at hc
  called := h.called
  once := h.once

/-- Completing a completion keeps `Coherent` when a pending one is completed with its wait group's
context error. -/
theorem Coherent.complete (h : Coherent s) (id : ℕ) (e : Option CompletionError)
    (hctx : id ∈ s.pendingCompletions.map Prod.fst → IsContextError e) :
    Coherent (s.complete id e) := by
  by_cases hg : id < s.nextId ∧ (s.completions id).completed = false
  · have hlt := hg.1
    -- no callback of `id` has been called, since it had not completed
    have hnone : id ∉ s.callbacks.filterMap Callback.completionId := by
      intro hmem
      obtain ⟨e', he'⟩ := mem_completionIds.mp hmem
      have := (h.called id e').mp he'
      simp [this] at hg
    refine ⟨fun p hp => ?_, ?_, fun j hj => ?_, fun p hp hc => ?_, fun j e' => ?_, ?_⟩
    · simpa using h.lt p (by simpa using hp)
    · simpa using h.nodup
    · simp only [complete_nextId] at hj
      rw [complete_completions, if_neg fun hc => by have := hc.1; omega]
      exact h.fresh j hj
    · simp only [complete_pendingCompletions] at hp
      rw [complete_completions] at hc ⊢
      by_cases hj : p.1 = id
      · simp only [hj, hg, and_self, if_true] at hc ⊢
        exact hctx (hj ▸ List.mem_map_of_mem hp)
      · simp only [hj, false_and, if_false] at hc ⊢
        exact h.pending p hp hc
    · rw [complete_callbacks, if_pos hg, complete_completions]
      by_cases hj : j = id
      · subst hj
        have hno : Callback.completion j e' ∉ s.callbacks := fun hm =>
          hnone (mem_completionIds.mpr ⟨e', hm⟩)
        simp [hg, hno, eq_comm]
      · simp [hj, h.called j e']
    · rw [complete_callbacks, if_pos hg, List.filterMap_append]
      refine List.nodup_append.mpr ⟨h.once, by simp [Callback.completionId], fun a ha b hb => ?_⟩
      simp only [List.filterMap_cons, Callback.completionId, List.filterMap_nil,
        List.mem_singleton] at hb
      rintro rfl
      subst hb
      exact hnone ha
  · have : s.complete id e = s := by simp [State.complete, hg]
    rw [this]
    exact h

/-- The loop of `sweep` keeps `Coherent`: it completes only completions it drops. -/
theorem Coherent.sweep (h : Coherent s) (f : pendingCompletion → PendingAction) :
    Coherent (s.sweep f) := by
  obtain ⟨t, kept, ht, hs⟩ := sweep_induction f s
    (fun t kept rest => Coherent { t with pendingCompletions := kept ++ rest })
    (by simpa using h) fun t kept p rest hc => by
      -- the visit of `p` keeps it, drops it, or completes and drops it
      have hdrop : Coherent { t with pendingCompletions := kept ++ rest } :=
        hc.sublist (by simp)
      rcases sweepStep_cases f t kept p with ⟨hst, -⟩ | ⟨p', -, -, hst⟩ | ⟨e, -, -, hst⟩ <;>
        rw [hst]
      · exact hdrop
      · exact hc.sublist (by simp)
      · have hfresh : p.1 ∉ (kept ++ rest).map Prod.fst := by
          have := hc.nodup
          dsimp only at this
          simp only [List.map_append, List.map_cons] at this ⊢
          exact (List.nodup_cons.mp (List.nodup_middle.mp this)).1
        have := hdrop.complete p.1 e fun hm => absurd hm hfresh
        rw [complete_with_pending] at this
        simpa using this
  rw [hs]
  simpa using ht

/-- The callbacks that the loop of `sweep` calls come after those already called, and each is for a
completion that it visits and drops, with the error `f` gives it. -/
theorem sweep_callbacks (s : State α) (f : pendingCompletion → PendingAction) :
    s.callbacks <+: (s.sweep f).callbacks ∧
      ∀ id e, Callback.completion id e ∈ (s.sweep f).callbacks →
        Callback.completion id e ∈ s.callbacks ∨
          ∃ pending, (id, pending) ∈ s.pendingCompletions ∧ f pending = .drop (some e) := by
  obtain ⟨t, kept, ⟨hpre, hcb, -⟩, hs⟩ := sweep_induction f s
    (fun t _ rest => s.callbacks <+: t.callbacks ∧
      (∀ id e, Callback.completion id e ∈ t.callbacks → Callback.completion id e ∈ s.callbacks ∨
        ∃ pending, (id, pending) ∈ s.pendingCompletions ∧ f pending = .drop (some e)) ∧
      rest ⊆ s.pendingCompletions)
    ⟨List.prefix_refl _, fun _ _ h => .inl h, fun _ h => h⟩
    fun t kept p rest ⟨hpre, hcb, hrest⟩ => by
      have hrest' : rest ⊆ s.pendingCompletions := fun q hq => hrest (List.mem_cons_of_mem _ hq)
      rcases sweepStep_cases f t kept p with ⟨hst, -⟩ | ⟨p', -, -, hst⟩ | ⟨e, -, hf, hst⟩ <;>
        rw [hst]
      · exact ⟨hpre, hcb, hrest'⟩
      · exact ⟨hpre, hcb, hrest'⟩
      · -- the one callback the visit may call is that of `p`, with the error `f` gives it
        refine ⟨hpre.trans (callbacks_prefix_complete _ _ _), fun id e' h => ?_, hrest'⟩
        rw [complete_callbacks] at h
        split at h
        · rcases List.mem_append.mp h with h | h
          · exact hcb id e' h
          · simp only [List.mem_singleton, Callback.completion.injEq] at h
            obtain ⟨rfl, rfl⟩ := h
            exact .inr ⟨p.2, hrest (List.mem_cons_self ..), hf⟩
        · exact hcb id e' h
  rw [hs]
  exact ⟨hpre, hcb⟩

/-- Of pending completions with distinct ids, the one visited first is the one with its id. -/
theorem eq_of_mem_cons {q p : ℕ × pendingCompletion} {rest : List (ℕ × pendingCompletion)}
    (hnd : ((q :: rest).map Prod.fst).Nodup) (hp : p ∈ q :: rest) (hq : q.1 = p.1) : q = p := by
  rcases List.mem_cons.mp hp with rfl | hp
  · rfl
  · exact absurd (hq ▸ List.mem_map_of_mem hp) (List.nodup_cons.mp hnd).1

/-- A completion that has not failed and that `f` keeps stays pending, changed as `f` says, and
the loop leaves it uncompleted. -/
theorem Coherent.sweep_keep (h : Coherent s) {f : pendingCompletion → PendingAction} {id : ℕ}
    {pending p' : pendingCompletion} (hp : (id, pending) ∈ s.pendingCompletions)
    (herr : s.err id = none) (hf : f pending = .keep p') :
    (id, p') ∈ (s.sweep f).pendingCompletions ∧ (s.sweep f).completions id = s.completions id := by
  obtain ⟨t, kept, ⟨-, hc, hcase⟩, hs⟩ := sweep_induction f s
    (fun t kept rest => (rest.map Prod.fst).Nodup ∧ t.completions id = s.completions id ∧
      ((id, pending) ∈ rest ∨ (id, p') ∈ kept ∧ id ∉ rest.map Prod.fst))
    ⟨h.nodup, rfl, .inl hp⟩ fun t kept q rest ⟨hnd, hc, hcase⟩ => by
      have hnd' : q.1 ∉ rest.map Prod.fst ∧ (rest.map Prod.fst).Nodup := by
        rw [← List.nodup_cons, ← List.map_cons]
        exact hnd
      by_cases hq : q.1 = id
      · -- the visit of the completion itself keeps it
        rcases hcase with hin | ⟨-, hout⟩
        · obtain rfl := eq_of_mem_cons hnd hin hq
          rw [sweepStep_of_keep f (by rw [State.err, hc]; exact herr) hf]
          exact ⟨hnd'.2, hc, .inr ⟨List.mem_append_right _ (List.mem_singleton_self _), hnd'.1⟩⟩
        · exact absurd (by simp [← hq]) hout
      · obtain ⟨hc', hkept, -, -⟩ := sweepStep_frame f t kept q hq
        refine ⟨hnd'.2, hc'.trans hc, ?_⟩
        rcases hcase with hin | ⟨hk, hout⟩
        · exact .inl ((List.mem_cons.mp hin).resolve_left fun e => hq (e ▸ rfl))
        · exact .inr ⟨hkept hk, fun hr => hout (List.mem_cons_of_mem _ hr)⟩
  rw [hs]
  rcases hcase with hin | ⟨hk, -⟩
  · cases hin
  · exact ⟨hk, hc⟩

/-- A completion that has not failed and that `f` drops with an error has its callback called
with it. -/
theorem Coherent.sweep_complete (h : Coherent s) {f : pendingCompletion → PendingAction} {id : ℕ}
    {pending : pendingCompletion} {e : Option CompletionError}
    (hp : (id, pending) ∈ s.pendingCompletions) (herr : s.err id = none)
    (hf : f pending = .drop (some e)) :
    Callback.completion id e ∈ (s.sweep f).callbacks := by
  -- it has not completed, since a pending completion that has holds a context error
  have hopen : (s.completions id).completed = false := by
    by_contra hc
    rcases h.pending (id, pending) hp (by simpa using hc) with he | he <;>
      simp [State.err, he] at herr
  obtain ⟨t, kept, ⟨-, -, hcase⟩, hs⟩ := sweep_induction f s
    (fun t _ rest => (rest.map Prod.fst).Nodup ∧ t.nextId = s.nextId ∧
      ((id, pending) ∈ rest ∧ t.completions id = s.completions id ∨
        Callback.completion id e ∈ t.callbacks))
    ⟨h.nodup, rfl, .inl ⟨hp, rfl⟩⟩ fun t kept q rest ⟨hnd, hn, hcase⟩ => by
      have hnd' : q.1 ∉ rest.map Prod.fst ∧ (rest.map Prod.fst).Nodup := by
        rw [← List.nodup_cons, ← List.map_cons]
        exact hnd
      by_cases hq : q.1 = id
      · rcases hcase with ⟨hin, hc⟩ | hcb
        · -- the visit of the completion itself completes it
          obtain rfl := eq_of_mem_cons hnd hin hq
          rw [sweepStep_of_complete f (by rw [State.err, hc]; exact herr) hf]
          refine ⟨hnd'.2, by simp [hn], .inr ?_⟩
          rw [complete_callbacks, if_pos ⟨hn ▸ h.lt _ hp, hc ▸ hopen⟩]
          exact List.mem_append_right _ (List.mem_singleton_self _)
        · rcases sweepStep_cases f t kept q with ⟨hst, -⟩ | ⟨p', -, -, hst⟩ | ⟨e', -, -, hst⟩ <;>
            rw [hst]
          · exact ⟨hnd'.2, hn, .inr hcb⟩
          · exact ⟨hnd'.2, hn, .inr hcb⟩
          · exact ⟨hnd'.2, by simp [hn], .inr ((callbacks_prefix_complete _ _ _).subset hcb)⟩
      · obtain ⟨hc', -, hcb', hn'⟩ := sweepStep_frame f t kept q hq
        refine ⟨hnd'.2, hn'.trans hn, ?_⟩
        rcases hcase with ⟨hin, hc⟩ | hcb
        · exact .inl ⟨(List.mem_cons.mp hin).resolve_left fun e => hq (e ▸ rfl), hc'.trans hc⟩
        · exact .inr (hcb'.subset hcb)
  rw [hs]
  rcases hcase with ⟨hin, -⟩ | hcb
  · cases hin
  · exact hcb

theorem maybeAddCurrentVersionCompletion_eq (s : State α) (wait : Bool) (typeURL : String)
    (nodeIPs : List String) :
    s.maybeAddCurrentVersionCompletion wait typeURL nodeIPs =
      if wait = true ∧ s.currentVersionNodes nodeIPs ≠ [] then
        s.addCompletion ⟨s.version, typeURL, s.currentVersionNodes nodeIPs⟩
      else { s with callbacks := s.callbacks ++ [.immediate] } := by
  cases wait <;> by_cases hn : s.currentVersionNodes nodeIPs = [] <;>
    simp [maybeAddCurrentVersionCompletion, addCurrentVersionCompletion, hn]

/-- `maybeAddCurrentVersionCompletion` only adds a pending completion, or calls back at once. -/
theorem maybeAddCurrentVersionCompletion_frame (s : State α) (wait : Bool) (typeURL : String)
    (nodeIPs : List String) :
    s.pendingCompletions ⊆
        (s.maybeAddCurrentVersionCompletion wait typeURL nodeIPs).pendingCompletions ∧
      (s.maybeAddCurrentVersionCompletion wait typeURL nodeIPs).completions = s.completions ∧
      s.callbacks <+: (s.maybeAddCurrentVersionCompletion wait typeURL nodeIPs).callbacks ∧
      ∀ id e, Callback.completion id e ∈
        (s.maybeAddCurrentVersionCompletion wait typeURL nodeIPs).callbacks →
          Callback.completion id e ∈ s.callbacks := by
  rw [maybeAddCurrentVersionCompletion_eq]
  split
  · exact ⟨by simp [State.addCompletion], rfl, List.prefix_refl _, fun _ _ h => h⟩
  · exact ⟨fun _ h => h, rfl, List.prefix_append _ _, fun _ _ h => by simpa using h⟩

theorem Coherent.maybeAddCurrentVersionCompletion (h : Coherent s) (wait : Bool)
    (typeURL : String) (nodeIPs : List String) :
    Coherent (s.maybeAddCurrentVersionCompletion wait typeURL nodeIPs) := by
  rw [maybeAddCurrentVersionCompletion_eq]
  split
  · exact h.addCompletion _
  · exact h.immediate

variable [DecidableEq α]

/-- The state `Upsert` leaves: the cache's version, then a completion to wait on, or a call back
at once. -/
theorem upsert_eq (s : State α) (typeURL resourceName : String) (resource : α)
    (nodeIDs : List String) (wg : Bool) :
    (s.upsert typeURL resourceName resource nodeIDs wg).1 =
      let r := s.mutator.upsert typeURL resourceName resource
      let s' := { s with mutator := r.1, version := r.2.1 }
      if r.2.2.1 = true then
        if wg = true ∧ s.restoring = false then
          s'.addCompletion ⟨s'.version, typeURL,
            nodeIDs.dedup.map fun nodeID => (nodeID, {resourceName})⟩
        else { s' with callbacks := s'.callbacks ++ [.immediate] }
      else s'.maybeAddCurrentVersionCompletion (wg && !s.restoring) typeURL nodeIDs := by
  rcases hr : s.mutator.upsert typeURL resourceName resource with ⟨m, v, u, rv⟩
  cases u <;> cases wg <;> cases hs : s.restoring <;> simp [upsert, hr, hs]

/-- The state `Delete` leaves: the cache's version, the pending completions without the deleted
name, then a completion to wait on, or a call back at once. -/
theorem delete_eq (s : State α) (typeURL resourceName : String) (nodeIDs : List String)
    (wg : Bool) :
    (s.delete typeURL resourceName nodeIDs wg).1 =
      ({ s with
          mutator := (s.mutator.delete typeURL resourceName).1
          version := (s.mutator.delete typeURL resourceName).2.1 }.sweep fun pending =>
        .keep (deletePending typeURL resourceName pending)).maybeAddCurrentVersionCompletion
        (wg && !s.restoring) typeURL nodeIDs := by
  rcases hr : s.mutator.delete typeURL resourceName with ⟨m, v, u, rv⟩
  simp [delete, hr]

/-- Every step keeps `Coherent`. -/
theorem Coherent.step (h : Coherent s) (op : Op α) : Coherent (s.step op) := by
  cases op with
  | upsert typeURL resourceName resource nodeIDs wg =>
    have h' : Coherent { s with
        mutator := (s.mutator.upsert typeURL resourceName resource).1
        version := (s.mutator.upsert typeURL resourceName resource).2.1 } :=
      h.of_eq rfl rfl rfl rfl
    simp only [State.step, upsert_eq]
    split
    · split
      · exact h'.addCompletion _
      · exact h'.immediate
    · exact h'.maybeAddCurrentVersionCompletion _ _ _
  | delete typeURL resourceName nodeIDs wg =>
    simp only [State.step, delete_eq]
    refine Coherent.maybeAddCurrentVersionCompletion (Coherent.sweep ?_ _) _ _ _
    exact h.of_eq rfl rfl rfl rfl
  | revert r =>
    simp only [State.step, State.revert]
    exact h.of_eq rfl rfl rfl rfl
  | cancelCompletions typeURL => exact h.sweep _
  | handleResourceVersionAck nodeIP ackVersion responseVersion isNACK errorDetail typeURL
      resourceNames =>
    simp only [State.step, handleResourceVersionAck]
    refine Coherent.sweep ?_ _
    exact h.of_eq rfl rfl rfl rfl
  | markRestorePending => exact h.of_eq rfl rfl rfl rfl
  | markRestoreCompleted => exact h.of_eq rfl rfl rfl rfl
  | waitComplete id deadlineExceeded =>
    -- `Wait` completes with its context's error, which is what a pending completion may hold
    refine h.complete id _ fun _ => ?_
    cases deadlineExceeded
    · exact .inl rfl
    · exact .inr rfl
  | cleanupAfterWait id => exact h.sublist (by simpa using List.filter_sublist.map Prod.fst)

theorem Coherent.run (h : Coherent s) (ops : List (Op α)) : Coherent (s.run ops) := by
  induction ops generalizing s with
  | nil => exact h
  | cons op ops ih => exact ih (h.step op)

theorem run_append (s : State α) (ops ops' : List (Op α)) :
    s.run (ops ++ ops') = (s.run ops).run ops' := List.foldl_append

/-- What a step does to the callbacks: it calls them after those already called, and it calls the
callback of a completion only in `CancelCompletions`, with `nil`, in `Wait`, with its context's
error, and in `HandleResourceVersionAck`, with what `ackPending` gives a pending completion. -/
theorem step_callbacks (s : State α) (op : Op α) :
    s.callbacks <+: (s.step op).callbacks ∧
      ∀ id e, Callback.completion id e ∈ (s.step op).callbacks →
        Callback.completion id e ∈ s.callbacks ∨
        (∃ typeURL, op = .cancelCompletions typeURL ∧ e = none) ∨
        (∃ d, op = .waitComplete id d ∧ IsContextError e) ∨
        ∃ nodeIP ackVersion responseVersion isNACK errorDetail typeURL resourceNames pending,
          op = .handleResourceVersionAck nodeIP ackVersion responseVersion isNACK errorDetail
            typeURL resourceNames ∧ (id, pending) ∈ s.pendingCompletions ∧
          ackPending nodeIP ackVersion responseVersion isNACK errorDetail typeURL resourceNames
            pending = .drop (some e) := by
  cases op with
  | upsert typeURL resourceName resource nodeIDs wg =>
    simp only [State.step, upsert_eq]
    split
    · split
      · exact ⟨List.prefix_refl _, fun _ _ h => .inl h⟩
      · exact ⟨List.prefix_append _ _, fun _ _ h => .inl (by simpa using h)⟩
    · obtain ⟨-, -, hpre, hcb⟩ := maybeAddCurrentVersionCompletion_frame
        { s with
          mutator := (s.mutator.upsert typeURL resourceName resource).1
          version := (s.mutator.upsert typeURL resourceName resource).2.1 }
        (wg && !s.restoring) typeURL nodeIDs
      exact ⟨hpre, fun id e h => .inl (hcb id e h)⟩
  | delete typeURL resourceName nodeIDs wg =>
    simp only [State.step, delete_eq]
    obtain ⟨hpre, hcb⟩ := sweep_callbacks
      { s with
        mutator := (s.mutator.delete typeURL resourceName).1
        version := (s.mutator.delete typeURL resourceName).2.1 }
      fun pending => .keep (deletePending typeURL resourceName pending)
    obtain ⟨-, -, hpre', hcb'⟩ := maybeAddCurrentVersionCompletion_frame
      ({ s with
        mutator := (s.mutator.delete typeURL resourceName).1
        version := (s.mutator.delete typeURL resourceName).2.1 }.sweep
        fun pending => .keep (deletePending typeURL resourceName pending))
      (wg && !s.restoring) typeURL nodeIDs
    -- `Delete` keeps every completion it visits, so it completes none
    refine ⟨hpre.trans hpre', fun id e h => ?_⟩
    rcases hcb id e (hcb' id e h) with h | ⟨_, _, hf⟩
    · exact .inl h
    · cases hf
  | revert r => exact ⟨List.prefix_refl _, fun _ _ h => .inl h⟩
  | cancelCompletions typeURL =>
    obtain ⟨hpre, hcb⟩ := sweep_callbacks s fun pending =>
      if pending.typeURL = typeURL then .drop (some none) else .keep pending
    refine ⟨hpre, fun id e h => ?_⟩
    rcases hcb id e h with h | ⟨pending, -, hf⟩
    · exact .inl h
    · split at hf
      · simp only [PendingAction.drop.injEq, Option.some.injEq] at hf
        exact .inr (.inl ⟨typeURL, rfl, hf.symm⟩)
      · cases hf
  | handleResourceVersionAck nodeIP ackVersion responseVersion isNACK errorDetail typeURL
      resourceNames =>
    obtain ⟨hpre, hcb⟩ := sweep_callbacks
      { s with ackedVersions := ackedVersionsAfter s.ackedVersions nodeIP ackVersion }
      (ackPending nodeIP ackVersion responseVersion isNACK errorDetail typeURL resourceNames)
    refine ⟨hpre, fun id e h => ?_⟩
    rcases hcb id e h with h | ⟨pending, hp, hf⟩
    · exact .inl h
    · exact .inr (.inr (.inr ⟨_, _, _, _, _, _, _, pending, rfl, hp, hf⟩))
  | markRestorePending => exact ⟨List.prefix_refl _, fun _ _ h => .inl h⟩
  | markRestoreCompleted => exact ⟨List.prefix_refl _, fun _ _ h => .inl h⟩
  | waitComplete id' deadlineExceeded =>
    refine ⟨callbacks_prefix_complete _ _ _, fun id e h => ?_⟩
    simp only [State.step] at h
    rw [complete_callbacks] at h
    split at h
    · rcases List.mem_append.mp h with h | h
      · exact .inl h
      · simp only [List.mem_singleton, Callback.completion.injEq] at h
        obtain ⟨rfl, rfl⟩ := h
        refine .inr (.inr (.inl ⟨deadlineExceeded, rfl, ?_⟩))
        cases deadlineExceeded
        · exact .inl rfl
        · exact .inr rfl
    · exact .inl h
  | cleanupAfterWait id => exact ⟨List.prefix_refl _, fun _ _ h => .inl h⟩

/-- Every completion's callback is called at most once in a run of a wrapper, and a completion
whose callback the wrapper called, with `nil` or a NACK, is no longer pending. -/
theorem run_callbacks_once (mutator : Cache α) (ops : List (Op α)) :
    let s := (newAckingResourceMutatorWrapper mutator).run ops
    (s.callbacks.filterMap Callback.completionId).Nodup ∧
      ∀ id e, Callback.completion id e ∈ s.callbacks → ¬ IsContextError e →
        id ∉ s.pendingCompletions.map Prod.fst := by
  intro s
  have h : Coherent s := (coherent_new mutator).run ops
  refine ⟨h.once, fun id e hcb hctx hid => ?_⟩
  obtain ⟨p, hp, rfl⟩ := List.mem_map.mp hid
  have hdone := (h.called p.1 e).mp hcb
  have := h.pending p hp (by rw [hdone])
  rw [hdone] at this
  exact hctx this

theorem run_callbacks_extend (s : State α) (ops : List (Op α)) :
    s.callbacks <+: (s.run ops).callbacks := by
  induction ops generalizing s with
  | nil => exact List.prefix_refl _
  | cons op ops ih => exact (step_callbacks s op).1.trans (ih _)

/-- A state that a wrapper reaches from its creation. -/
def Reachable (s : State α) : Prop :=
  ∃ mutator ops, s = (newAckingResourceMutatorWrapper mutator).run ops

theorem Reachable.coherent {s : State α} (h : Reachable s) : Coherent s := by
  obtain ⟨mutator, ops, rfl⟩ := h
  exact (coherent_new mutator).run ops

/-- ACKs of a version at least a pending completion's, for its type URL, that cover it complete it
with `nil`, once the ones that follow it cover what it still waits for. -/
theorem Coherent.acks_complete (h : Coherent s) {id : ℕ} {pending : pendingCompletion}
    (hp : (id, pending) ∈ s.pendingCompletions) (herr : s.err id = none)
    (hnodes : pending.remainingNodesResources ≠ []) (acks : List (String × List String))
    (hcov : Covered acks pending) (version : ℕ) (hv : pending.version ≤ version)
    (errorDetail typeURL : String) (ht : pending.typeURL = typeURL) :
    Callback.completion id none ∈ (s.run (acks.map fun a =>
      .handleResourceVersionAck a.1 version version false errorDetail typeURL a.2)).callbacks := by
  induction acks generalizing s pending with
  | nil =>
    obtain ⟨e, he⟩ := List.exists_mem_of_ne_nil _ hnodes
    obtain ⟨_, hmem, -⟩ := hcov e he
    cases hmem
  | cons a acks ih =>
    obtain ⟨nodeIP, names⟩ := a
    subst ht
    have h1 : Coherent
        { s with ackedVersions := ackedVersionsAfter s.ackedVersions nodeIP version } :=
      h.of_eq rfl rfl rfl rfl
    simp only [List.map_cons, State.run, List.foldl_cons]
    rcases ackPending_covered errorDetail hcov hnodes hv with hf | ⟨p', hf, ht', hv', hne', hcov'⟩
    · -- the ACK completes it; later steps only add callbacks
      exact (run_callbacks_extend _ _).subset (h1.sweep_complete hp herr hf)
    · -- the ACK keeps it, still waiting, and the later ACKs cover it
      obtain ⟨hp', hc'⟩ := h1.sweep_keep hp herr hf
      have herr' : (s.step (.handleResourceVersionAck nodeIP version version false errorDetail
          pending.typeURL names)).err id = none := by
        simp only [State.err, State.step, handleResourceVersionAck] at herr ⊢
        rw [hc']
        exact herr
      exact ht' ▸ ih (h.step _) hp' herr' hne' hcov' (hv'.symm ▸ hv) ht'

/-- A completion whose callback is called with a NACK's error was completed by a NACK: the run
splits at a `HandleResourceVersionAck` with `isNACK` and that detail, for the completion's type
URL at a response version at least its version, from a node the completion was waiting for, whose
resource names cover every name that node still owed. -/
theorem run_nack_completion (mutator : Cache α) (ops : List (Op α)) (id : ℕ) (detail : String)
    (h : Callback.completion id (some (.proxyError detail)) ∈
      ((newAckingResourceMutatorWrapper mutator).run ops).callbacks) :
    ∃ pre post nodeIP ackVersion responseVersion typeURL resourceNames pending names,
      ops = pre ++ .handleResourceVersionAck nodeIP ackVersion responseVersion true detail typeURL
        resourceNames :: post ∧
      (id, pending) ∈ ((newAckingResourceMutatorWrapper mutator).run pre).pendingCompletions ∧
      pending.typeURL = typeURL ∧ pending.version ≤ responseVersion ∧
      pending.remainingNodesResources.lookup nodeIP = some names ∧
      names ⊆ resourceNames.toFinset := by
  -- the step that added the callback was such a NACK
  rcases Trace.foldl_mem_log State.step State.callbacks
    (fun s op x => ∀ id d, x = Callback.completion id (some (.proxyError d)) →
      ∃ nodeIP ackVersion responseVersion typeURL resourceNames pending names,
        op = .handleResourceVersionAck nodeIP ackVersion responseVersion true d typeURL
          resourceNames ∧ (id, pending) ∈ s.pendingCompletions ∧ pending.typeURL = typeURL ∧
        pending.version ≤ responseVersion ∧
        pending.remainingNodesResources.lookup nodeIP = some names ∧
        names ⊆ resourceNames.toFinset)
    (fun s op x hx => by
      by_cases hold : x ∈ s.callbacks
      · exact .inl hold
      refine .inr fun id d hxd => ?_
      subst hxd
      rcases (step_callbacks s op).2 id _ hx with h | ⟨_, _, he⟩ | ⟨_, _, he⟩ |
          ⟨nodeIP, ackVersion, responseVersion, isNACK, errorDetail, typeURL, resourceNames,
            pending, rfl, hp, hf⟩
      · exact absurd h hold
      · cases he
      · rcases he with he | he <;> cases he
      · obtain ⟨rfl, rfl, ht, hv, names, hl, hsub⟩ := ackPending_eq_nack hf
        exact ⟨nodeIP, ackVersion, responseVersion, typeURL, resourceNames, pending, names, rfl,
          hp, ht, hv, hl, hsub⟩)
    ops _ _ h with h0 | ⟨pre, op, post, rfl, hq⟩
  · simp [newAckingResourceMutatorWrapper] at h0
  · obtain ⟨nodeIP, ackVersion, responseVersion, typeURL, resourceNames, pending, names, rfl, hp,
      ht, hv, hl, hsub⟩ := hq id detail rfl
    exact ⟨pre, post, nodeIP, ackVersion, responseVersion, typeURL, resourceNames, pending, names,
      rfl, hp, ht, hv, hl, hsub⟩

theorem run_nack_completion_single_node :
    let ops : List (Op ℕ) := [.upsert "t" "r" 0 ["n"] true,
      .handleResourceVersionAck "n" 1 2 true "D" "t" ["r"]]
    ∃ pre post nodeIP ackVersion responseVersion typeURL resourceNames pending names,
      ops = pre ++ .handleResourceVersionAck nodeIP ackVersion responseVersion true "D" typeURL
        resourceNames :: post ∧
      (0, pending) ∈ ((newAckingResourceMutatorWrapper newCache).run pre).pendingCompletions ∧
      pending.typeURL = typeURL ∧ pending.version ≤ responseVersion ∧
      pending.remainingNodesResources.lookup nodeIP = some names ∧
      names ⊆ resourceNames.toFinset :=
  run_nack_completion newCache _ 0 "D" (by decide)

/-- ACKs of a version at least a pending completion's version, for its type URL, one from each node
it waits for and covering what that node owes, complete it with `nil`: in any order, whatever
other nodes and names they carry, and even when a node ACKs more than once. -/
theorem acks_complete_pending {s : State α} (hs : Reachable s) (id : ℕ)
    (pending : pendingCompletion) (hp : (id, pending) ∈ s.pendingCompletions)
    (herr : s.err id = none) (hnodes : pending.remainingNodesResources ≠ [])
    (acks : List (String × List String)) (hcov : Covered acks pending) (version : ℕ)
    (hv : pending.version ≤ version) (errorDetail : String) :
    Callback.completion id none ∈ (s.run (acks.map fun a => .handleResourceVersionAck a.1 version
      version false errorDetail pending.typeURL a.2)).callbacks :=
  hs.coherent.acks_complete hp herr hnodes acks hcov version hv errorDetail _ rfl

theorem acks_complete_pending_two_nodes :
    Callback.completion 0 none ∈ (((newAckingResourceMutatorWrapper newCache).run
      [.upsert "t" "r" (0 : ℕ) ["a", "b"] true]).run
      ([("b", ["r", "x"]), ("c", []), ("a", ["r"])].map fun a =>
        .handleResourceVersionAck a.1 3 3 false "" "t" a.2)).callbacks :=
  acks_complete_pending ⟨newCache, _, rfl⟩ 0 ⟨2, "t", [("a", {"r"}), ("b", {"r"})]⟩
    (by decide) (by decide) (by decide) _ (by
      intro e he
      simp only [List.mem_cons, List.not_mem_nil, or_false] at he
      rcases he with rfl | rfl
      · exact ⟨["r"], by simp, by simp⟩
      · exact ⟨["r", "x"], by simp, by simp⟩) 3 (by decide) ""

theorem upsert_frame (s : State α) (typeURL resourceName : String) (resource : α)
    (nodeIDs : List String) (wg : Bool) :
    s.pendingCompletions ⊆
        (s.upsert typeURL resourceName resource nodeIDs wg).1.pendingCompletions ∧
      (s.upsert typeURL resourceName resource nodeIDs wg).1.completions = s.completions := by
  simp only [upsert_eq]
  split
  · split
    · exact ⟨by simp [State.addCompletion], rfl⟩
    · exact ⟨fun _ h => h, rfl⟩
  · obtain ⟨hsub, hc, -⟩ := maybeAddCurrentVersionCompletion_frame
      { s with
        mutator := (s.mutator.upsert typeURL resourceName resource).1
        version := (s.mutator.upsert typeURL resourceName resource).2.1 }
      (wg && !s.restoring) typeURL nodeIDs
    exact ⟨hsub, hc⟩

/-- A pending completion that waits for no node and has not completed stays so through every
step but `CancelCompletions` of its type URL and the two steps of its wait group. -/
theorem Coherent.waits_on_no_node (h : Coherent s) {id : ℕ} {pending : pendingCompletion}
    (hp : (id, pending) ∈ s.pendingCompletions) (hnil : pending.remainingNodesResources = [])
    (hc : s.completions id = ⟨false, none⟩) (op : Op α)
    (hop : op ≠ .cancelCompletions pending.typeURL ∧ (∀ d, op ≠ .waitComplete id d) ∧
      op ≠ .cleanupAfterWait id) :
    ∃ p', (id, p') ∈ (s.step op).pendingCompletions ∧ p'.typeURL = pending.typeURL ∧
      p'.remainingNodesResources = [] ∧ (s.step op).completions id = ⟨false, none⟩ := by
  have herr : s.err id = none := by simp [State.err, hc]
  obtain ⟨hcancel, hwait, hclean⟩ := hop
  cases op with
  | upsert typeURL resourceName resource nodeIDs wg =>
    obtain ⟨hsub, hc'⟩ := upsert_frame s typeURL resourceName resource nodeIDs wg
    exact ⟨pending, hsub hp, rfl, hnil, hc'.symm ▸ hc⟩
  | delete typeURL resourceName nodeIDs wg =>
    -- `Delete` keeps it, without the deleted name, and may add a completion after it
    have h1 : Coherent { s with
        mutator := (s.mutator.delete typeURL resourceName).1
        version := (s.mutator.delete typeURL resourceName).2.1 } := h.of_eq rfl rfl rfl rfl
    obtain ⟨hp', hc'⟩ := h1.sweep_keep (f := fun pending =>
      .keep (deletePending typeURL resourceName pending)) hp herr rfl
    obtain ⟨hsub, hc'', -⟩ := maybeAddCurrentVersionCompletion_frame _ (wg && !s.restoring)
      typeURL nodeIDs
    refine ⟨deletePending typeURL resourceName pending, ?_, deletePending_typeURL _, ?_, ?_⟩
    · simp only [State.step, delete_eq]
      exact hsub hp'
    · unfold deletePending
      split <;> simp [hnil]
    · simp only [State.step, delete_eq]
      rw [hc'', hc']
      exact hc
  | revert r => exact ⟨pending, hp, rfl, hnil, hc⟩
  | cancelCompletions typeURL =>
    have hne : pending.typeURL ≠ typeURL := fun he => hcancel (he ▸ rfl)
    have hf : (if pending.typeURL = typeURL then PendingAction.drop (some none)
        else .keep pending) = .keep pending := by simp [hne]
    obtain ⟨hp', hc'⟩ := h.sweep_keep (f := fun pending =>
      if pending.typeURL = typeURL then .drop (some none) else .keep pending) hp herr hf
    exact ⟨pending, hp', rfl, hnil, hc'.trans hc⟩
  | handleResourceVersionAck nodeIP ackVersion responseVersion isNACK errorDetail typeURL
      resourceNames =>
    -- an N/ACK finds no node of it
    have h1 : Coherent
        { s with ackedVersions := ackedVersionsAfter s.ackedVersions nodeIP ackVersion } :=
      h.of_eq rfl rfl rfl rfl
    obtain ⟨hp', hc'⟩ := h1.sweep_keep hp herr (ackPending_of_nil hnil)
    exact ⟨pending, hp', rfl, hnil, hc'.trans hc⟩
  | markRestorePending => exact ⟨pending, hp, rfl, hnil, hc⟩
  | markRestoreCompleted => exact ⟨pending, hp, rfl, hnil, hc⟩
  | waitComplete id' deadlineExceeded =>
    have hid : id' ≠ id := fun he => hwait deadlineExceeded (he ▸ rfl)
    refine ⟨pending, by simpa [State.step] using hp, rfl, hnil, ?_⟩
    simp only [State.step]
    rw [complete_completions, if_neg fun h' => hid h'.1.symm]
    exact hc
  | cleanupAfterWait id' =>
    have hid : id' ≠ id := fun he => hclean (he ▸ rfl)
    exact ⟨pending, List.mem_filter.mpr ⟨hp, by simpa using hid.symm⟩, rfl, hnil, hc⟩

/-- An `Upsert` that changes a resource, with a wait group, no node IDs and outside a restore,
registers a completion that waits for no node: every later sequence of calls leaves it pending and
uncompleted, unless it holds `CancelCompletions` of its type URL or a step of its wait group. -/
theorem upsert_no_nodes_stays_pending {s : State α} (hs : Reachable s)
    (typeURL resourceName : String) (resource : α) (hrestoring : s.restoring = false)
    (hchanged : (s.mutator.upsert typeURL resourceName resource).2.2.1 = true)
    (ops : List (Op α))
    (hops : ∀ op ∈ ops, op ≠ .cancelCompletions typeURL ∧
      (∀ d, op ≠ .waitComplete s.nextId d) ∧ op ≠ .cleanupAfterWait s.nextId) :
    let s' := s.run (.upsert typeURL resourceName resource [] true :: ops)
    s.nextId ∈ s'.pendingCompletions.map Prod.fst ∧
      (s'.completions s.nextId).completed = false := by
  intro s'
  have h := hs.coherent
  -- the completion the `Upsert` registers
  have hreg : ∃ p, (s.nextId, p) ∈
        (s.step (.upsert typeURL resourceName resource [] true)).pendingCompletions ∧
      p.typeURL = typeURL ∧ p.remainingNodesResources = [] ∧
      (s.step (.upsert typeURL resourceName resource [] true)).completions s.nextId =
        ⟨false, none⟩ := by
    refine ⟨⟨(s.mutator.upsert typeURL resourceName resource).2.1, typeURL, []⟩, ?_, rfl, rfl, ?_⟩
    · simp [State.step, upsert_eq, hchanged, hrestoring, State.addCompletion]
    · simp only [State.step, upsert_eq, hchanged, hrestoring, if_true, and_self]
      exact h.fresh s.nextId le_rfl
  -- every later step keeps it so
  have key : ∀ (ops : List (Op α)) (t : State α), Coherent t → (∀ op ∈ ops,
      op ≠ .cancelCompletions typeURL ∧ (∀ d, op ≠ .waitComplete s.nextId d) ∧
        op ≠ .cleanupAfterWait s.nextId) →
      (∃ p, (s.nextId, p) ∈ t.pendingCompletions ∧ p.typeURL = typeURL ∧
        p.remainingNodesResources = [] ∧ t.completions s.nextId = ⟨false, none⟩) →
      ∃ p, (s.nextId, p) ∈ (t.run ops).pendingCompletions ∧
        (t.run ops).completions s.nextId = ⟨false, none⟩ := by
    intro ops
    induction ops with
    | nil => exact fun t _ _ ⟨p, hp, _, _, hc⟩ => ⟨p, hp, hc⟩
    | cons op ops ih =>
      intro t ht hops ⟨p, hp, hpt, hnil, hc⟩
      obtain ⟨p', hp', hpt', hnil', hc'⟩ := ht.waits_on_no_node hp hnil hc op
        (hpt ▸ hops op (List.mem_cons_self ..))
      exact ih (t.step op) (ht.step op) (fun o ho => hops o (List.mem_cons_of_mem _ ho))
        ⟨p', hp', hpt' ▸ hpt, hnil', hc'⟩
  obtain ⟨p, hp, hc⟩ := key ops _ (h.step _) hops hreg
  refine ⟨List.mem_map_of_mem (f := Prod.fst) hp, ?_⟩
  show (((s.step _).run ops).completions s.nextId).completed = false
  rw [hc]

theorem upsert_no_nodes_stays_pending_after_ack :
    let s := newAckingResourceMutatorWrapper (newCache : Cache ℕ)
    let s' := s.run (.upsert "t" "r" 0 [] true ::
      [.handleResourceVersionAck "n" 2 2 false "" "t" ["r"], .delete "t" "r" ["n"] true])
    s.nextId ∈ s'.pendingCompletions.map Prod.fst ∧ (s'.completions s.nextId).completed = false :=
  upsert_no_nodes_stays_pending ⟨newCache, [], rfl⟩ "t" "r" 0 rfl (by decide) _ (by simp)

end State

end Cilium.Xds
