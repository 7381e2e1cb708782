import Mathlib.Data.List.AList
import Mathlib.Data.List.Dedup
import Mathlib.Data.List.Induction

/-! A finite map as the result of a history of calls that set or erase one key each.  `latest`
reads the map off the history (the value of the last call on a key), `live` lists the keys that
hold a value, and `replay` runs the calls on a Mathlib `AList`; `lookup_replay` and
`length_replay` say that the two agree.  The `kerase` lemmas at the end connect `AList`'s
removal with list filtering, the form in which implementations usually state what they keep. -/

namespace MapHistory

variable {κ T : Type} [DecidableEq κ]

/-- One call on a finite map. -/
inductive Update (κ T : Type) where
  | set (c : κ) (v : T)
  | erase (c : κ)

/-- The key a call acts on. -/
def Update.key : Update κ T → κ
  | .set c _ => c
  | .erase c => c

/-- What a call leaves at its key. -/
def Update.value : Update κ T → Option T
  | .set _ v => some v
  | .erase _ => none

/-- The value at `c` after the calls `us`: that of the latest call on `c`, if it sets one. -/
def latest (us : List (Update κ T)) (c : κ) : Option T :=
  (us.reverse.find? (·.key == c)).bind Update.value

/-- The keys that hold a value after `us`, each once. -/
def live (us : List (Update κ T)) : List κ :=
  (us.map Update.key).dedup.filter fun c => (latest us c).isSome

/-- A call on an association list. -/
def Update.apply (a : AList fun _ : κ => T) : Update κ T → AList fun _ : κ => T
  | .set c v => a.insert c v
  | .erase c => a.erase c

/-- The association list that the calls `us` build from the empty one. -/
def replay (us : List (Update κ T)) : AList fun _ : κ => T :=
  us.foldl Update.apply ∅

@[simp] theorem latest_nil (c : κ) : latest ([] : List (Update κ T)) c = none := rfl

theorem latest_append_singleton (us : List (Update κ T)) (u : Update κ T) (c : κ) :
    latest (us ++ [u]) c = if u.key = c then u.value else latest us c := by
  by_cases h : u.key = c <;> simp [latest, h]

theorem replay_append_singleton (us : List (Update κ T)) (u : Update κ T) :
    replay (us ++ [u]) = u.apply (replay us) := by
  simp [replay, List.foldl_append]

theorem lookup_apply (a : AList fun _ : κ => T) (u : Update κ T) (c : κ) :
    (u.apply a).lookup c = if u.key = c then u.value else a.lookup c := by
  cases u with
  | set c' v =>
    by_cases h : c' = c
    · subst h
      simp [Update.apply, Update.key, Update.value, AList.lookup_insert]
    · simp [Update.apply, Update.key, h, AList.lookup_insert_ne (Ne.symm h)]
  | erase c' =>
    by_cases h : c' = c
    · subst h
      simp [Update.apply, Update.key, Update.value, AList.lookup_erase]
    · simp [Update.apply, Update.key, h, AList.lookup_erase_ne (Ne.symm h)]

/-- Replaying the calls gives, at every key, the value of the latest call on it. -/
theorem lookup_replay (us : List (Update κ T)) (c : κ) : (replay us).lookup c = latest us c := by
  induction us using List.reverseRecOn with
  | nil => simp [replay, AList.lookup_empty]
  | append_singleton us u ih =>
    rw [replay_append_singleton, lookup_apply, latest_append_singleton, ih]

/-- A key holds a value only if some call acted on it. -/
theorem mem_keys_of_latest {us : List (Update κ T)} {c : κ} (h : (latest us c).isSome) :
    c ∈ us.map Update.key := by
  unfold latest at h
  cases hf : us.reverse.find? (·.key == c) with
  | none => simp [hf] at h
  | some u =>
    have hmem := List.mem_reverse.mp (List.mem_of_find?_eq_some hf)
    have hkey : u.key = c := by simpa using List.find?_some hf
    exact List.mem_map.mpr ⟨u, hmem, hkey⟩

theorem mem_live {us : List (Update κ T)} {c : κ} : c ∈ live us ↔ (latest us c).isSome := by
  simp only [live, List.mem_filter, List.mem_dedup, and_iff_right_iff_imp]
  exact mem_keys_of_latest

theorem live_nodup (us : List (Update κ T)) : (live us).Nodup :=
  (List.nodup_dedup _).filter _

/-- The replayed list holds one binding for each live key. -/
theorem length_replay (us : List (Update κ T)) : (replay us).entries.length = (live us).length := by
  have hperm : (replay us).keys.Perm (live us) := by
    refine (List.perm_ext_iff_of_nodup (replay us).keys_nodup (live_nodup us)).mpr fun c => ?_
    rw [← AList.mem_keys, ← AList.lookup_isSome, lookup_replay, mem_live]
  rw [← hperm.length_eq, AList.keys, List.keys, List.length_map]

/-! ### Calls on a view of a state

A program often keeps its map inside a larger state and changes it through steps of its own.
When each step acts on a view of the state as one call acts on a map, a run of steps acts as
the history of those calls, from whatever the view held before. -/

/-- The value at `c` after the calls `us` on a map that held `old`: the latest call's, and
`old c` where no call acts on `c`. -/
def latestOr (us : List (Update κ T)) (old : κ → Option T) (c : κ) : Option T :=
  if c ∈ us.map Update.key then latest us c else old c

theorem latestOr_append_singleton (us : List (Update κ T)) (u : Update κ T) (old : κ → Option T)
    (c : κ) : latestOr (us ++ [u]) old c = if u.key = c then u.value else latestOr us old c := by
  by_cases h : u.key = c
  · simp [latestOr, latest_append_singleton, h]
  · have hne : c ≠ u.key := Ne.symm h
    simp [latestOr, latest_append_singleton, h, hne]

/-- Steps that each act on the view `get` as a call: the view after them is that of the calls. -/
theorem foldl_view {σ ι : Type} (get : σ → κ → Option T) (step : σ → ι → σ) (call : ι → Update κ T)
    (l : List ι) (hstep : ∀ s, ∀ x ∈ l, ∀ c, get (step s x) c =
      if (call x).key = c then (call x).value else get s c) (s : σ) (c : κ) :
    get (l.foldl step s) c = latestOr (l.map call) (get s) c := by
  induction l using List.reverseRecOn generalizing c with
  | nil => simp [latestOr]
  | append_singleton l x ih =>
    rw [List.foldl_append, List.foldl_cons, List.foldl_nil, List.map_append, List.map_cons,
      List.map_nil, latestOr_append_singleton, hstep _ x (by simp)]
    split
    · rfl
    · exact ih (fun s' x' hx' => hstep s' x' (List.mem_append_left _ hx')) c

/-- Where every call on `c` leaves `v`, and some call acts on `c`, the latest leaves `v`. -/
theorem latest_of_forall {us : List (Update κ T)} {c : κ} {v : Option T}
    (h : ∀ u ∈ us, u.key = c → u.value = v) (hc : c ∈ us.map Update.key) : latest us c = v := by
  induction us using List.reverseRecOn with
  | nil => simp at hc
  | append_singleton us u ih =>
    rw [latest_append_singleton]
    split
    · next hu => exact h u (by simp) hu
    · next hu =>
      have hc' : c ∈ us.map Update.key := by
        rw [List.map_append, List.mem_append] at hc
        exact hc.resolve_right fun h' => hu (by simp at h'; exact h'.symm)
      exact ih (fun u' hu' => h u' (List.mem_append_left _ hu')) hc'

/-! ### `kerase` and filtering -/

variable {β : κ → Type}

/-- On a list with one binding per key, `kerase` drops every binding of the key. -/
theorem kerase_eq_filter (c : κ) :
    ∀ {l : List (Sigma β)}, l.NodupKeys → l.kerase c = l.filter fun s => s.1 ≠ c
  | [], _ => rfl
  | s :: l, hnd => by
    obtain ⟨hs, hl⟩ := List.nodupKeys_cons.mp hnd
    by_cases h : c = s.1
    · subst h
      rw [List.kerase_cons_eq rfl, List.filter_cons_of_neg (by simp)]
      refine (List.filter_eq_self.mpr fun s' hs' => ?_).symm
      have : s'.1 ≠ s.1 := fun he => hs (he ▸ List.mem_keys_of_mem hs')
      simpa using this
    · rw [List.kerase_cons_ne h, List.filter_cons_of_pos (by simpa using Ne.symm h),
        kerase_eq_filter c hl]

/-- `kerase` removes one binding exactly when the key is bound. -/
theorem length_kerase (c : κ) (l : List (Sigma β)) :
    (l.kerase c).length = if c ∈ l.keys then l.length - 1 else l.length := by
  split
  next h =>
    obtain ⟨b, l₁, l₂, -, rfl, he⟩ := List.exists_of_kerase h
    rw [he]
    simp
  next h => rw [List.kerase_of_notMem_keys h]

omit [DecidableEq κ] in
theorem length_pos_of_mem_keys {c : κ} {l : List (Sigma β)} (h : c ∈ l.keys) : 0 < l.length := by
  cases l with
  | nil => simp at h
  | cons _ _ => simp

/-- Inserting adds a binding exactly when the key was unbound. -/
theorem length_insert (a : AList β) (c : κ) (v : β c) :
    (a.insert c v).entries.length = if c ∈ a then a.entries.length else a.entries.length + 1 := by
  rw [AList.entries_insert, List.length_cons, length_kerase]
  by_cases h : c ∈ a
  · have h' : c ∈ a.entries.keys := h
    have := length_pos_of_mem_keys h'
    rw [if_pos h', if_pos h]
    omega
  · have h' : c ∉ a.entries.keys := h
    rw [if_neg h', if_neg h]

/-- Erasing removes a binding exactly when the key was bound. -/
theorem length_erase (a : AList β) (c : κ) :
    (a.erase c).entries.length = if c ∈ a then a.entries.length - 1 else a.entries.length := by
  change (a.entries.kerase c).length = _
  rw [length_kerase]
  by_cases h : c ∈ a
  · have h' : c ∈ a.entries.keys := h
    rw [if_pos h', if_pos h]
  · have h' : c ∉ a.entries.keys := h
    rw [if_neg h', if_neg h]

end MapHistory
