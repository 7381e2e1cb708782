import Cilium.Bitlpm.Refinement

/-! A trie whose prefixes all stay at most `P`, below its maximum prefix `M`.  Its calls with a
prefix of at most `P` never reach the stops at `M` that `traverse` and `Upsert` make, so they do
exactly what they do in the same tree with maximum prefix `P`.  A key type that meets the
contract at `P` only, with more bits past `P` than `commonPrefix` counts, then still gets the
refinement of `Refinement.lean` for such a trie. -/

namespace Cilium.Bitlpm

open Key

variable {K T : Type} [Key K]

omit [Key K] in
/-- The trie with its maximum prefix set to `P`. -/
def Trie.withMaxPrefix (t : Trie K T) (P : Nat) : Trie K T := { t with maxPrefix := P }

omit [Key K] in
@[simp] theorem Trie.withMaxPrefix_root (t : Trie K T) (P : Nat) :
    (t.withMaxPrefix P).root = t.root := rfl

omit [Key K] in
@[simp] theorem Trie.withMaxPrefix_maxPrefix (t : Trie K T) (P : Nat) :
    (t.withMaxPrefix P).maxPrefix = P := rfl

/-- Below a node at the bound, a well-formed tree has nothing: a child would need a longer
prefix. -/
theorem Node.eq_nil_of_fits {P : Nat} {n : Node K T} (hw : n.WF P) {key : K} {b : Bool}
    (hf : n.Fits P key b) : n = .nil := by
  cases n with
  | nil => rfl
  | node c0 c1 pl k inter v =>
    obtain ⟨hlt, -⟩ := hf
    exact absurd hw.1 (by omega)

section Bounded

variable {P M : Nat} (hPM : P ≤ M)
include hPM

theorem Node.traverse_of_wf {p : Nat} (hp : p ≤ P) (k : K) :
    ∀ {n : Node K T}, n.WF P → n.traverse M p k = n.traverse P p k
  | .nil, _ => rfl
  | .node c0 c1 pl key inter v, ⟨hpl, hf0, hf1, hw0, hw1⟩ => by
    have ih0 := Node.traverse_of_wf hp k hw0
    have ih1 := Node.traverse_of_wf hp k hw1
    have hle := prefixMatch_le pl key p k
    simp only [Node.traverse, ih0, ih1]
    split
    · rfl
    · next hlt =>
      -- the node matches to its whole prefix, so its prefix is at most `p`
      have hm : prefixMatch pl key p k = pl := by omega
      split
      · rfl
      · rw [hm]
        by_cases hP : pl = P
        · -- at the bound its children are empty, so both stops give the node alone
          subst hP
          have h0 := Node.eq_nil_of_fits hw0 hf0
          have h1 := Node.eq_nil_of_fits hw1 hf1
          subst h0 h1
          by_cases hM : pl = M <;> simp [hM, Node.traverse]
        · have hM : pl ≠ M := by omega
          rw [if_neg hM, if_neg hP]

theorem Node.upsert_of_wf [Inhabited T] {p : Nat} (hp : p ≤ P) (k : K) (v : T) :
    ∀ {n : Node K T}, n.WF P → n.upsert M p k v = n.upsert P p k v
  | .nil, _ => rfl
  | .node c0 c1 pl key inter v', ⟨hpl, _, _, hw0, hw1⟩ => by
    have ih0 := Node.upsert_of_wf hp k v hw0
    have ih1 := Node.upsert_of_wf hp k v hw1
    have hle := prefixMatch_le pl key p k
    -- both stops at the maximum prefix fall under the stop at the new entry's prefix
    have hstop : (pl ≠ prefixMatch pl key p k ∨ pl = M ∨ pl = p) ↔
        (pl ≠ prefixMatch pl key p k ∨ pl = P ∨ pl = p) := by omega
    simp only [Node.upsert, ih0, ih1]
    by_cases h : pl ≠ prefixMatch pl key p k ∨ pl = P ∨ pl = p
    · rw [if_pos (hstop.mpr h), if_pos h]
    · rw [if_neg (fun h' => h (hstop.mp h')), if_neg h]

variable {t : Trie K T} (ht : t.maxPrefix = M) (hw : t.root.WF P) {p : Nat} (hp : p ≤ P)
include ht hw hp

theorem Trie.exactLookup_withMaxPrefix (k : K) :
    t.exactLookup p k = (t.withMaxPrefix P).exactLookup p k := by
  simp only [Trie.exactLookup, ht, Trie.withMaxPrefix_maxPrefix, Trie.withMaxPrefix_root,
    Nat.min_eq_left (hp.trans hPM), Nat.min_eq_left hp, Node.traverse_of_wf hPM hp k hw]

theorem Trie.upsert_withMaxPrefix [Inhabited T] (k : K) (v : T) :
    (t.upsert p k v).1.withMaxPrefix P = ((t.withMaxPrefix P).upsert p k v).1 ∧
      (t.upsert p k v).2 = ((t.withMaxPrefix P).upsert p k v).2 := by
  simp [Trie.upsert, Trie.withMaxPrefix, ht, Nat.min_eq_left (hp.trans hPM), Nat.min_eq_left hp,
    Node.upsert_of_wf hPM hp k v hw]

omit hw in
theorem Trie.delete_withMaxPrefix [Inhabited T] (k : K) :
    (t.delete p k).1.withMaxPrefix P = ((t.withMaxPrefix P).delete p k).1 ∧
      (t.delete p k).2 = ((t.withMaxPrefix P).delete p k).2 := by
  unfold Trie.delete
  simp only [ht, Trie.withMaxPrefix_maxPrefix, Trie.withMaxPrefix_root,
    Nat.min_eq_left (hp.trans hPM), Nat.min_eq_left hp]
  cases t.root.delete p k <;> exact ⟨rfl, rfl⟩

end Bounded

/-- A trie with maximum prefix `M` whose entries stay at most `P` is the abstract map `a` of
its tree with maximum prefix `P`. -/
structure RefinesBelow (P M : Nat) (t : Trie K T) (a : AList fun _ : Slot => T) : Prop where
  le : P ≤ M
  maxPrefix : t.maxPrefix = M
  refines : Refines P (t.withMaxPrefix P) a

theorem refinesBelow_newTrie {P M : Nat} (h : P ≤ M) :
    RefinesBelow P M (newTrie M : Trie K T) ∅ :=
  ⟨h, rfl, refines_newTrie P⟩

namespace RefinesBelow

variable {P M : Nat} {t : Trie K T} {a : AList fun _ : Slot => T}

/-- Every entry of the tree is a binding of the abstract map. -/
theorem lookup_of_mem (h : RefinesBelow P M t a) {e : Entry K T} (he : e ∈ t.root.entries) :
    a.lookup e.binding.1 = some e.value := by
  have hmem : e.binding ∈ a.entries :=
    h.refines.entries.subset (List.mem_map_of_mem he)
  exact AList.mem_lookup_iff.mpr hmem

variable [Inhabited T] (hK : Contract K P)
include hK

omit [Inhabited T] in
theorem exactLookup (h : RefinesBelow P M t a) {p : Nat} (hp : p ≤ P) (k : K) :
    t.exactLookup p k = a.lookup (slot P p k) := by
  rw [Trie.exactLookup_withMaxPrefix h.le h.maxPrefix h.refines.wf hp]
  exact h.refines.exactLookup hK p k

theorem upsert (h : RefinesBelow P M t a) {p : Nat} (hp : p ≤ P) (k : K) (v : T) :
    RefinesBelow P M (t.upsert p k v).1 (a.insert (slot P p k) v) := by
  have hr := (h.refines.upsert hK p k v).1
  rw [← (Trie.upsert_withMaxPrefix h.le h.maxPrefix h.refines.wf hp k v).1] at hr
  exact ⟨h.le, by simp [Trie.upsert, h.maxPrefix], hr⟩

theorem delete (h : RefinesBelow P M t a) {p : Nat} (hp : p ≤ P) (k : K) :
    RefinesBelow P M (t.delete p k).1 (a.erase (slot P p k)) := by
  have hr := (h.refines.delete hK p k).1
  rw [← (Trie.delete_withMaxPrefix h.le h.maxPrefix hp k).1] at hr
  refine ⟨h.le, ?_, hr⟩
  unfold Trie.delete
  cases t.root.delete (min p t.maxPrefix) k <;> exact h.maxPrefix

end RefinesBelow

end Cilium.Bitlpm
