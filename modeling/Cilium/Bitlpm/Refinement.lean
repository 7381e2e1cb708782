import Cilium.Bitlpm.Update
import Cilium.Bitlpm.Unsigned
import Cilium.Lib.MapHistory

/-! The trie is a finite map whose keys are slots: a prefix length and the bits of a key up to it.
`Refines` relates a trie to a Mathlib `AList` over slots; `Upsert` and `Delete` act on it as
`insert` and `erase` of the clamped slot, `ExactLookup` reads it as `lookup`, and `Len` is its
size.  Over any sequence of calls on a new trie, the trie therefore answers as the history of
calls does (`MapHistory.latest` and `MapHistory.live`). -/

namespace Cilium.Bitlpm

open Key MapHistory

variable {K T : Type} [Key K]

/-- The first `n` bits of a key. -/
def bitsOf (k : K) (n : Nat) : List Bool := (List.range n).map (bitValueAt k)

/-- The keys of the abstract map: a prefix length and the bits of a key up to it. -/
abbrev Slot := Nat × List Bool

/-- The slot that `(prefixLen, k)` names in a trie with maximum prefix `maxPrefix`, whose calls
clamp the prefix length to it. -/
def slot (maxPrefix prefixLen : Nat) (k : K) : Slot :=
  (min prefixLen maxPrefix, bitsOf k (min prefixLen maxPrefix))

/-- An entry of the tree as a binding of the abstract map. -/
def Entry.binding (e : Entry K T) : Sigma fun _ : Slot => T :=
  ⟨(e.prefixLen, bitsOf e.key e.prefixLen), e.value⟩

theorem bitsOf_eq_iff {a b : K} {n : Nat} : bitsOf a n = bitsOf b n ↔ Agree a b n := by
  simp [bitsOf, List.map_inj_left, Agree]

theorem class_iff {p : Nat} {k : K} {e : Entry K T} :
    Class p k e ↔ e.binding.1 = (p, bitsOf k p) := by
  simp only [Class, Entry.binding, Prod.mk.injEq]
  constructor
  · rintro ⟨rfl, ha⟩
    exact ⟨rfl, bitsOf_eq_iff.mpr ha⟩
  · rintro ⟨rfl, hb⟩
    exact ⟨rfl, bitsOf_eq_iff.mp hb⟩

/-- The first entry of the class of `(p, k)` holds the value bound at its slot. -/
theorem find?_class (p : Nat) (k : K) : ∀ l : List (Entry K T),
    (l.find? fun e => decide (Class p k e)).map Entry.value =
      (l.map Entry.binding).dlookup (p, bitsOf k p)
  | [] => rfl
  | e :: l => by
    by_cases h : Class p k e
    · have hb : e.binding = ⟨(p, bitsOf k p), e.value⟩ := Sigma.ext (class_iff.mp h) HEq.rfl
      rw [List.find?_cons_of_pos (p := fun e => decide (Class p k e)) (decide_eq_true h),
        List.map_cons, hb, List.dlookup_cons_eq]
      rfl
    · rw [List.find?_cons_of_neg (by simpa using h), List.map_cons,
        List.dlookup_cons_ne _ _ fun he => h (class_iff.mpr he.symm), find?_class p k l]

/-- Dropping the class of `(p, k)` drops the bindings of its slot. -/
theorem map_filter_not_class (p : Nat) (k : K) (l : List (Entry K T)) :
    (l.filter fun e => !decide (Class p k e)).map Entry.binding =
      (l.map Entry.binding).filter fun s => s.1 ≠ (p, bitsOf k p) := by
  rw [List.filter_map]
  congr 1
  exact List.filter_congr fun e _ => by simp [class_iff]

/-- `Delete` in the terms of its loop: the subtree left in place of the root, and whether an
entry was found. -/
theorem Trie.delete_eq [Inhabited T] (t : Trie K T) (p : Nat) (k : K) :
    t.delete p k =
      ({ t with root := (t.root.delete (min p t.maxPrefix) k).result t.root,
                entries := if (t.root.delete (min p t.maxPrefix) k).found then t.entries - 1
                  else t.entries },
        (t.root.delete (min p t.maxPrefix) k).found) := by
  unfold Trie.delete
  cases t.root.delete (min p t.maxPrefix) k <;> rfl

/-- A trie with maximum prefix `M` is the abstract map `a`: its tree is well formed, its counter
is its number of entries, and its entries are the bindings of `a`. -/
structure Refines (M : Nat) (t : Trie K T) (a : AList fun _ : Slot => T) : Prop where
  maxPrefix : t.maxPrefix = M
  wf : t.root.WF M
  count : t.entries = t.root.entries.length
  entries : (t.root.entries.map Entry.binding).Perm a.entries

theorem refines_newTrie (M : Nat) : Refines M (newTrie M : Trie K T) ∅ :=
  ⟨rfl, trivial, rfl, List.Perm.refl _⟩

namespace Refines

variable {M : Nat} {t : Trie K T} {a : AList fun _ : Slot => T}

theorem nodupKeys (h : Refines M t a) : (t.root.entries.map Entry.binding).NodupKeys :=
  (List.perm_nodupKeys h.entries).mpr a.nodupKeys

theorem length_entries (h : Refines M t a) : t.root.entries.length = a.entries.length := by
  simpa using h.entries.length_eq

/-- The tree holds an entry of the class of `(p, k)` exactly when `a` binds its slot. -/
theorem exists_class_iff (h : Refines M t a) (p : Nat) (k : K) :
    (∃ e ∈ t.root.entries, Class p k e) ↔ (p, bitsOf k p) ∈ a := by
  rw [AList.mem_keys, AList.keys, List.keys, ← (h.entries.map Sigma.fst).mem_iff]
  simp [class_iff]

section Calls

variable [Inhabited T] (hK : Contract K M)
include hK

omit [Inhabited T] in
/-- `ExactLookup` reads the binding of the clamped slot. -/
theorem exactLookup (h : Refines M t a) (p : Nat) (k : K) :
    t.exactLookup p k = a.lookup (slot M p k) := by
  have hp : min p M ≤ M := Nat.min_le_right p M
  simp only [Trie.exactLookup, h.maxPrefix]
  rw [h.wf.traverse_find hK hp k, find?_class]
  exact List.perm_dlookup _ h.nodupKeys h.entries

/-- `Upsert` inserts at the clamped slot, and reports whether the slot was unbound. -/
theorem upsert (h : Refines M t a) (p : Nat) (k : K) (v : T) :
    Refines M (t.upsert p k v).1 (a.insert (slot M p k) v) ∧
      (t.upsert p k v).2 = (a.lookup (slot M p k)).isNone := by
  have hmem : (∃ e ∈ t.root.entries, Class (min p M) k e) ↔ slot M p k ∈ a :=
    h.exists_class_iff _ _
  have hnd := h.nodupKeys
  have hlen := h.length_entries
  have hs := h.wf.upsertSpec hK (Nat.min_le_right p M) k v
  obtain ⟨root, M', n⟩ := t
  obtain ⟨hM, hw, hc, he⟩ := h
  dsimp only at hM hc he hmem hnd hlen hs
  subst hM
  -- the flag of the loop is the absence of the slot
  have hgrew : (root.upsert M' (min p M') k v).2 = true ↔ slot M' p k ∉ a := by
    rw [hs.grew, ← hmem]
    simp
  have hperm : ((root.upsert M' (min p M') k v).1.entries.map Entry.binding).Perm
      (a.insert (slot M' p k) v).entries := by
    rw [AList.entries_insert]
    refine (hs.entries.map _).trans ?_
    rw [List.map_append, map_filter_not_class, ← kerase_eq_filter _ hnd]
    exact (List.perm_append_singleton _ _).trans ((he.kerase hnd).cons _)
  refine ⟨⟨rfl, hs.wf, ?_, hperm⟩, ?_⟩
  · -- the counter grows exactly when the slot was unbound
    have hnew : (root.upsert M' (min p M') k v).1.entries.length =
        (a.insert (slot M' p k) v).entries.length := by
      simpa using hperm.length_eq
    show (if (root.upsert M' (min p M') k v).2 then n + 1 else n) =
      (root.upsert M' (min p M') k v).1.entries.length
    rw [hnew, length_insert, hc, hlen]
    by_cases hin : slot M' p k ∈ a
    · rw [if_pos hin, if_neg (fun hg => hgrew.mp hg hin)]
    · rw [if_neg hin, if_pos (hgrew.mpr hin)]
  · show (root.upsert M' (min p M') k v).2 = _
    rw [Bool.eq_iff_iff, hgrew, Option.isNone_iff_eq_none, AList.lookup_eq_none]

/-- `Delete` erases the clamped slot, and reports whether it was bound. -/
theorem delete (h : Refines M t a) (p : Nat) (k : K) :
    Refines M (t.delete p k).1 (a.erase (slot M p k)) ∧
      (t.delete p k).2 = (a.lookup (slot M p k)).isSome := by
  have hmem : (∃ e ∈ t.root.entries, Class (min p M) k e) ↔ slot M p k ∈ a :=
    h.exists_class_iff _ _
  have hnd := h.nodupKeys
  have hlen := h.length_entries
  have hs := h.wf.deleteSpec hK (Nat.min_le_right p M) k
  obtain ⟨root, M', n⟩ := t
  obtain ⟨hM, hw, hc, he⟩ := h
  dsimp only at hM hc he hmem hnd hlen hs
  subst hM
  rw [Trie.delete_eq]
  have hfound : (root.delete (min p M') k).found = true ↔ slot M' p k ∈ a :=
    hs.found.trans hmem
  have hperm : (((root.delete (min p M') k).result root).entries.map Entry.binding).Perm
      (a.erase (slot M' p k)).entries := by
    refine (hs.entries.map _).trans ?_
    rw [map_filter_not_class, ← kerase_eq_filter _ hnd]
    exact he.kerase hnd
  refine ⟨⟨rfl, hs.wf, ?_, hperm⟩, ?_⟩
  · -- the counter drops exactly when the slot was bound
    have hnew : ((root.delete (min p M') k).result root).entries.length =
        (a.erase (slot M' p k)).entries.length := by
      simpa using hperm.length_eq
    show (if (root.delete (min p M') k).found then n - 1 else n) = _
    rw [hnew, length_erase, hc, hlen]
    by_cases hin : slot M' p k ∈ a
    · rw [if_pos hin, if_pos (hfound.mpr hin)]
    · rw [if_neg hin, if_neg (fun hf => hin (hfound.mp hf))]
  · show (root.delete (min p M') k).found = _
    rw [Bool.eq_iff_iff, hfound, AList.lookup_isSome]

end Calls

end Refines

/-- A call of the trie's API that changes it. -/
inductive Op (K T : Type) where
  | upsert (prefixLen : Nat) (k : K) (value : T)
  | delete (prefixLen : Nat) (k : K)

/-- A call on the trie, with its result. -/
def Op.apply [Inhabited T] (t : Trie K T) : Op K T → Trie K T × Bool
  | .upsert p k v => t.upsert p k v
  | .delete p k => t.delete p k

/-- The same call on the abstract map, at the clamped slot. -/
def Op.update (M : Nat) : Op K T → Update Slot T
  | .upsert p k v => .set (slot M p k) v
  | .delete p k => .erase (slot M p k)

/-- The trie that the calls `ops` build from `NewTrie(maxPrefix)`. -/
def run [Inhabited T] (maxPrefix : Nat) (ops : List (Op K T)) : Trie K T :=
  ops.foldl (fun t o => (o.apply t).1) (newTrie maxPrefix)

section Run

variable [Inhabited T] {M : Nat} (hK : Contract K M)
include hK

/-- One call keeps the abstraction, with the abstract map updated by the same call. -/
theorem Refines.apply {t : Trie K T} {a : AList fun _ : Slot => T} (h : Refines M t a)
    (o : Op K T) : Refines M (o.apply t).1 ((o.update M).apply a) := by
  cases o with
  | upsert p k v => exact (h.upsert hK p k v).1
  | delete p k => exact (h.delete hK p k).1

/-- Every trie built by calls is the map that the same calls build. -/
theorem refines_run (ops : List (Op K T)) :
    Refines M (run M ops) (replay (ops.map (Op.update M))) := by
  induction ops using List.reverseRecOn with
  | nil => exact refines_newTrie M
  | append_singleton ops o ih =>
    rw [run, List.foldl_append, List.map_append, List.map_singleton, replay_append_singleton]
    exact ih.apply hK o

/-- After any sequence of calls on a new trie, `ExactLookup` returns the value of the latest call
on the clamped slot if it was an `Upsert`, `Upsert` reports a new entry and `Delete` a removed one
exactly when the slot holds no value or one, and `Len` is the number of slots holding a value. -/
theorem run_refines_history (ops : List (Op K T)) (p : Nat) (k : K) (v : T) :
    (run M ops).exactLookup p k = latest (ops.map (Op.update M)) (slot M p k) ∧
      ((run M ops).upsert p k v).2 = (latest (ops.map (Op.update M)) (slot M p k)).isNone ∧
      ((run M ops).delete p k).2 = (latest (ops.map (Op.update M)) (slot M p k)).isSome ∧
      (run M ops).len = (live (ops.map (Op.update M))).length := by
  have h := refines_run hK ops
  refine ⟨?_, ?_, ?_, ?_⟩
  · rw [h.exactLookup hK, lookup_replay]
  · rw [(h.upsert hK p k v).2, lookup_replay]
  · rw [(h.delete hK p k).2, lookup_replay]
  · rw [Trie.len, h.count, h.length_entries, length_replay]

end Run

/-- On 8-bit unsigned keys, after upserting `0xf0/4` and `0xf3/8` and deleting `0xff/4`, the
slot `0xf7/4` is empty again and the trie holds one entry. -/
theorem run_refines_history_uint8 :
    Contract (UnsignedKey 8) 8 ∧
      let ops : List (Op (UnsignedKey 8) Nat) :=
        [.upsert 4 ⟨0xf0⟩ 1, .upsert 8 ⟨0xf3⟩ 2, .delete 4 ⟨0xff⟩]
      let k : UnsignedKey 8 := ⟨0xf7⟩
      ((run 8 ops).exactLookup 4 k = latest (ops.map (Op.update 8)) (slot 8 4 k) ∧
        ((run 8 ops).upsert 4 k 3).2 = (latest (ops.map (Op.update 8)) (slot 8 4 k)).isNone ∧
        ((run 8 ops).delete 4 k).2 = (latest (ops.map (Op.update 8)) (slot 8 4 k)).isSome ∧
        (run 8 ops).len = (live (ops.map (Op.update 8))).length) :=
  ⟨unsigned_contract 8, run_refines_history (unsigned_contract 8) _ _ _ _⟩

example : (run 8 [Op.upsert 4 (⟨0xf0⟩ : UnsignedKey 8) (1 : Nat), .upsert 8 ⟨0xf3⟩ 2,
    .upsert 2 ⟨0xc0⟩ 5]).exactLookup 4 ⟨0xf7⟩ = some 1 := by decide

end Cilium.Bitlpm
