import Cilium.Bitlpm.Trie
import Mathlib.Data.List.Perm.Basic
import Mathlib.Order.MinMax

/-! The shape invariant of the trie and what a well-formed trie denotes.  A key type meets the
contract of `Key[K]` when `commonPrefix` is the length of the longest common prefix of the two
bit sequences, capped at the maximum prefix.  A trie is well formed when every child has a longer
prefix than its parent, agrees with the parent's key on the parent's prefix, and sits in the slot
of its bit just past that prefix.  A well-formed node denotes the list of its non-intermediate
nodes, and `traverse` finds in it exactly the entry with the prefix asked for whose key agrees
with the search key on that prefix. -/

namespace Cilium.Bitlpm

open Key

variable {K T : Type} [Key K]

/-- `a` and `b` have the same first `n` bits. -/
def Agree (a b : K) (n : Nat) : Prop := ∀ i < n, bitValueAt a i = bitValueAt b i

instance (a b : K) (n : Nat) : Decidable (Agree a b n) :=
  inferInstanceAs (Decidable (∀ i < n, bitValueAt a i = bitValueAt b i))

namespace Agree

theorem refl (a : K) (n : Nat) : Agree a a n := fun _ _ => rfl

theorem symm {a b : K} {n : Nat} (h : Agree a b n) : Agree b a n := fun i hi => (h i hi).symm

theorem trans {a b c : K} {n : Nat} (h1 : Agree a b n) (h2 : Agree b c n) : Agree a c n :=
  fun i hi => (h1 i hi).trans (h2 i hi)

theorem mono {a b : K} {n m : Nat} (h : Agree a b m) (hnm : n ≤ m) : Agree a b n :=
  fun i hi => h i (by omega)

theorem succ {a b : K} {n : Nat} (h : Agree a b n) (hb : bitValueAt a n = bitValueAt b n) :
    Agree a b (n + 1) := by
  intro i hi
  rcases Nat.lt_succ_iff_lt_or_eq.mp hi with hi | rfl
  · exact h i hi
  · exact hb

end Agree

/-- The contract of `Key[K]` for a trie with maximum prefix `maxPrefix`: `commonPrefix a b` is
at most `maxPrefix`, and below `maxPrefix` it bounds exactly the lengths on which the bits of `a`
and `b` agree, so it is their longest common prefix capped at `maxPrefix`. -/
structure Contract (K : Type) [Key K] (maxPrefix : Nat) : Prop where
  le_max : ∀ a b : K, commonPrefix a b ≤ maxPrefix
  le_iff : ∀ (a b : K) (n : Nat), n ≤ maxPrefix → (n ≤ commonPrefix a b ↔ Agree a b n)

namespace Contract

variable {M : Nat} (hK : Contract K M)
include hK

theorem agree {a b : K} {n : Nat} (hn : n ≤ M) (h : n ≤ commonPrefix a b) : Agree a b n :=
  (hK.le_iff a b n hn).mp h

theorem le_of_agree {a b : K} {n : Nat} (hn : n ≤ M) (h : Agree a b n) : n ≤ commonPrefix a b :=
  (hK.le_iff a b n hn).mpr h

/-- Short of the maximum, two keys differ at the bit just past their common prefix. -/
theorem bit_ne {a b : K} (h : commonPrefix a b < M) :
    bitValueAt a (commonPrefix a b) ≠ bitValueAt b (commonPrefix a b) := by
  intro heq
  have hagree : Agree a b (commonPrefix a b + 1) :=
    (hK.agree (n := commonPrefix a b) (hK.le_max a b) (Nat.le_refl _)).succ heq
  have := hK.le_of_agree (by omega) hagree
  omega

end Contract

/-! ### What `prefixMatch` says about the two keys -/

theorem prefixMatch_le (pl : Nat) (key : K) (p : Nat) (k : K) :
    prefixMatch pl key p k ≤ pl ∧ prefixMatch pl key p k ≤ p := by
  rw [prefixMatch_eq]
  split <;> omega

section PrefixMatch

variable {M : Nat} (hK : Contract K M) {pl p : Nat} {key k : K}
include hK

/-- The node matches to its whole prefix exactly when its prefix is at most the one searched for
and its key agrees with the searched key on it. -/
theorem prefixMatch_eq_iff (hpl : pl ≤ M) :
    prefixMatch pl key p k = pl ↔ pl ≤ p ∧ Agree key k pl := by
  rw [prefixMatch_eq]
  constructor
  · intro h
    split at h
    · exact ⟨by omega, hK.agree hpl (by omega)⟩
    · exact ⟨by omega, hK.agree hpl (by omega)⟩
  · rintro ⟨hp, ha⟩
    have := hK.le_of_agree hpl ha
    split <;> omega

theorem prefixMatch_lt_iff (hpl : pl ≤ M) :
    prefixMatch pl key p k < pl ↔ ¬(pl ≤ p ∧ Agree key k pl) := by
  rw [← prefixMatch_eq_iff hK hpl]
  have := (prefixMatch_le pl key p k).1
  omega

/-- A match that stops at the searched prefix, short of the node's: the keys agree on it. -/
theorem prefixMatch_eq_search (hp : p ≤ M) (h : prefixMatch pl key p k = p) (hne : p ≠ pl) :
    p < pl ∧ Agree key k p := by
  have hle := prefixMatch_le pl key p k
  rw [prefixMatch_eq] at h
  split at h
  · exact ⟨by omega, hK.agree hp (by omega)⟩
  · exact ⟨by omega, hK.agree hp (by omega)⟩

/-- A match short of both prefixes is the common prefix, past which the keys differ. -/
theorem prefixMatch_short (hpl : pl ≤ M) (h1 : prefixMatch pl key p k ≠ pl)
    (h2 : prefixMatch pl key p k ≠ p) :
    prefixMatch pl key p k = commonPrefix key k ∧ commonPrefix key k < pl ∧
      commonPrefix key k < p ∧ Agree key k (commonPrefix key k) ∧
      bitValueAt key (commonPrefix key k) ≠ bitValueAt k (commonPrefix key k) := by
  rw [prefixMatch_eq] at h1 h2 ⊢
  by_cases hc : commonPrefix key k ≥ min pl p
  · rw [if_pos hc] at h1 h2
    omega
  · rw [if_neg hc] at h1 h2 ⊢
    refine ⟨rfl, by omega, by omega, hK.agree (by omega) (Nat.le_refl _), hK.bit_ne (by omega)⟩

end PrefixMatch

/-! ### Well-formed nodes and their entries -/

/-- The root of a subtree may hang below a node with prefix `q` and key `key` in slot `b`: its
prefix is longer, its key agrees with `key` on `q` bits, and its bit `q` is `b`. -/
def Node.Fits (q : Nat) (key : K) (b : Bool) : Node K T → Prop
  | .nil => True
  | .node _ _ pl k _ _ => q < pl ∧ Agree k key q ∧ bitValueAt k q = b

/-- The shape invariant of `trie.go`: prefixes are at most `maxPrefix` and every child fits below
its parent in its own slot. -/
def Node.WF (maxPrefix : Nat) : Node K T → Prop
  | .nil => True
  | .node c0 c1 pl key _ _ =>
    pl ≤ maxPrefix ∧ c0.Fits pl key false ∧ c1.Fits pl key true ∧ c0.WF maxPrefix ∧
      c1.WF maxPrefix

/-- The entries of a subtree in the order of `forEach`: the node, then `children[0]`, then
`children[1]`. -/
def Node.entries : Node K T → List (Entry K T)
  | .nil => []
  | .node c0 c1 pl key inter v =>
    (if inter then [] else [⟨pl, key, v⟩]) ++ (c0.entries ++ c1.entries)

/-- `e` is the entry for prefix length `p` and key `k`: it has that prefix and agrees with `k`
on it. -/
def Class (p : Nat) (k : K) (e : Entry K T) : Prop := e.prefixLen = p ∧ Agree e.key k p

instance (p : Nat) (k : K) (e : Entry K T) : Decidable (Class p k e) :=
  inferInstanceAs (Decidable (_ ∧ _))

omit [Key K] in
@[simp] theorem entries_nil : (Node.nil : Node K T).entries = [] := rfl

omit [Key K] in
theorem entries_node (c0 c1 : Node K T) (pl : Nat) (key : K) (inter : Bool) (v : T) :
    (Node.node c0 c1 pl key inter v).entries =
      (if inter then [] else [⟨pl, key, v⟩]) ++ (c0.entries ++ c1.entries) := rfl

variable {M : Nat}

/-- Every entry of a subtree that fits below `(q, key, b)` fits there too. -/
theorem Node.WF.entry_fits {q : Nat} {key : K} {b : Bool} :
    ∀ {n : Node K T}, n.WF M → n.Fits q key b →
      ∀ e ∈ n.entries, q < e.prefixLen ∧ Agree e.key key q ∧ bitValueAt e.key q = b
  | .nil, _, _, e, he => by simp at he
  | .node c0 c1 pl k' inter v, hw, hf, e, he => by
    obtain ⟨_, f0, f1, w0, w1⟩ := hw
    obtain ⟨hq, hagree, hbit⟩ := hf
    -- an entry below a child agrees with `k'` past `q`, so it inherits the fit of `k'`
    have below : ∀ e' : Entry K T, pl < e'.prefixLen → Agree e'.key k' pl →
        q < e'.prefixLen ∧ Agree e'.key key q ∧ bitValueAt e'.key q = b :=
      fun e' hlt ha => ⟨by omega, (ha.mono hq.le).trans hagree, (ha q hq).trans hbit⟩
    rw [entries_node] at he
    rcases List.mem_append.mp he with hs | hc
    · split at hs
      · simp at hs
      · simp only [List.mem_singleton] at hs
        subst hs
        exact ⟨hq, hagree, hbit⟩
    · rcases List.mem_append.mp hc with h0 | h1
      · obtain ⟨h, ha, _⟩ := w0.entry_fits f0 e h0
        exact below e h ha
      · obtain ⟨h, ha, _⟩ := w1.entry_fits f1 e h1
        exact below e h ha

/-- Every entry of a node's subtree extends the node: a prefix at least the node's, and the
node's bits up to it. -/
theorem Node.WF.entry_extends {c0 c1 : Node K T} {pl : Nat} {key : K} {inter : Bool} {v : T}
    (hw : (Node.node c0 c1 pl key inter v).WF M) :
    ∀ e ∈ (Node.node c0 c1 pl key inter v).entries, pl ≤ e.prefixLen ∧ Agree e.key key pl := by
  obtain ⟨_, f0, f1, w0, w1⟩ := hw
  intro e he
  rw [entries_node] at he
  rcases List.mem_append.mp he with hs | hc
  · split at hs
    · simp at hs
    · simp only [List.mem_singleton] at hs
      subst hs
      exact ⟨Nat.le_refl _, Agree.refl _ _⟩
  · rcases List.mem_append.mp hc with h0 | h1
    · obtain ⟨h, ha, _⟩ := w0.entry_fits f0 e h0
      exact ⟨h.le, ha⟩
    · obtain ⟨h, ha, _⟩ := w1.entry_fits f1 e h1
      exact ⟨h.le, ha⟩

theorem Node.WF.prefixLen_le : ∀ {n : Node K T}, n.WF M → ∀ e ∈ n.entries, e.prefixLen ≤ M
  | .nil, _, e, he => by simp at he
  | .node c0 c1 pl key inter v, hw, e, he => by
    rw [entries_node] at he
    rcases List.mem_append.mp he with hs | hc
    · split at hs
      · simp at hs
      · simp only [List.mem_singleton] at hs
        subst hs
        exact hw.1
    · rcases List.mem_append.mp hc with h0 | h1
      · exact hw.2.2.2.1.prefixLen_le e h0
      · exact hw.2.2.2.2.prefixLen_le e h1

/-- No entry below `(q, key, b)` is the entry for `(p, k)` when `k` leaves that slot before `p`. -/
theorem Node.WF.not_class_of_bit {n : Node K T} {q p : Nat} {key k : K} {b : Bool}
    (hw : n.WF M) (hf : n.Fits q key b) (hq : q < p) (hb : bitValueAt k q ≠ b) :
    ∀ e ∈ n.entries, ¬Class p k e := by
  intro e he ⟨_, ha⟩
  exact hb ((ha q hq).symm.trans (hw.entry_fits hf e he).2.2)

/-- No entry of a node's subtree is the entry for `(p, k)` when `p` is short of the node's
prefix. -/
theorem Node.WF.not_class_of_short {c0 c1 : Node K T} {pl p : Nat} {key k : K} {inter : Bool}
    {v : T} (hw : (Node.node c0 c1 pl key inter v).WF M) (hp : p < pl) :
    ∀ e ∈ (Node.node c0 c1 pl key inter v).entries, ¬Class p k e := by
  intro e he ⟨hpe, _⟩
  have := (hw.entry_extends e he).1
  omega

/-- No entry of a node's subtree is the entry for `(p, k)` when `k` leaves the node's bits
before `p`. -/
theorem Node.WF.not_class_of_disagree {c0 c1 : Node K T} {pl p : Nat} {key k : K}
    {inter : Bool} {v : T} (hw : (Node.node c0 c1 pl key inter v).WF M) (hpl : pl ≤ p)
    (hd : ¬Agree key k pl) :
    ∀ e ∈ (Node.node c0 c1 pl key inter v).entries, ¬Class p k e := by
  intro e he ⟨_, ha⟩
  exact hd (((hw.entry_extends e he).2).symm.trans (ha.mono hpl))

/-- A node that does not match `(p, k)` to its whole prefix holds no entry for `(p, k)`. -/
theorem Node.WF.not_class_of_mismatch (hK : Contract K M) {c0 c1 : Node K T} {pl p : Nat}
    {key k : K} {inter : Bool} {v : T} (hw : (Node.node c0 c1 pl key inter v).WF M)
    (hm : prefixMatch pl key p k < pl) :
    ∀ e ∈ (Node.node c0 c1 pl key inter v).entries, ¬Class p k e := by
  rcases Nat.lt_or_ge p pl with hlt | hge
  · exact hw.not_class_of_short hlt
  · exact hw.not_class_of_disagree hge fun ha => (prefixMatch_lt_iff hK hw.1).mp hm ⟨hge, ha⟩

/-- The children of a node hold longer prefixes than the node, so none is the entry for the
node's own prefix. -/
theorem Node.WF.not_class_kids {c0 c1 : Node K T} {pl : Nat} {key k : K} {inter : Bool} {v : T}
    (hw : (Node.node c0 c1 pl key inter v).WF M) :
    ∀ e ∈ c0.entries ++ c1.entries, ¬Class pl k e := by
  obtain ⟨_, f0, f1, w0, w1⟩ := hw
  intro e he hc
  rcases List.mem_append.mp he with h0 | h1
  · have := (w0.entry_fits f0 e h0).1
    exact absurd hc.1 (by omega)
  · have := (w1.entry_fits f1 e h1).1
    exact absurd hc.1 (by omega)

/-! ### `traverse` finds the entry -/

omit [Key K] in
theorem find?_none_of_forall {l : List (Entry K T)} {P : Entry K T → Bool}
    (h : ∀ e ∈ l, P e = false) : l.find? P = none :=
  List.find?_eq_none.mpr fun e he hP => by simp [h e he] at hP

/-- Of the two children, only the one in the slot of `k` can hold the entry for `(p, k)` once the
node's prefix is passed. -/
theorem find?_children {c0 c1 : Node K T} {pl p : Nat} {key k : K} (hw0 : c0.WF M)
    (hw1 : c1.WF M) (f0 : c0.Fits pl key false) (f1 : c1.Fits pl key true) (hlt : pl < p) :
    (c0.entries ++ c1.entries).find? (fun e => decide (Class p k e)) =
      (if bitValueAt k pl then c1 else c0).entries.find? (fun e => decide (Class p k e)) := by
  rw [List.find?_append]
  cases hb : bitValueAt k pl
  · rw [find?_none_of_forall (l := c1.entries) fun e he => decide_eq_false
      (hw1.not_class_of_bit f1 hlt (by simp [hb]) e he)]
    simp
  · rw [find?_none_of_forall (l := c0.entries) fun e he => decide_eq_false
      (hw0.not_class_of_bit f0 hlt (by simp [hb]) e he)]
    simp

/-- `traverse` reaches the entry for `(p, k)` of a well-formed subtree, and stops there. -/
theorem Node.WF.traverse_find (hK : Contract K M) {p : Nat} (hp : p ≤ M) (k : K) :
    ∀ {n : Node K T}, n.WF M →
      (n.traverse M p k).find? (·.prefixLen == p) =
        n.entries.find? (fun e => decide (Class p k e))
  | .nil, _ => rfl
  | .node c0 c1 pl key inter v, hw => by
    have hw' := hw
    obtain ⟨hpl, f0, f1, w0, w1⟩ := hw'
    have ih : (if bitValueAt k pl then c1.traverse M p k else c0.traverse M p k).find?
        (·.prefixLen == p) =
          (if bitValueAt k pl then c1 else c0).entries.find? (fun e => decide (Class p k e)) := by
      split
      · exact w1.traverse_find hK hp k
      · exact w0.traverse_find hK hp k
    simp only [Node.traverse]
    by_cases hm : prefixMatch pl key p k < pl
    · -- the node does not match: nothing below it is the entry
      rw [if_pos hm, List.find?_nil]
      exact (find?_none_of_forall fun e he =>
        decide_eq_false (hw.not_class_of_mismatch hK hm e he)).symm
    rw [if_neg hm]
    have hmatch : prefixMatch pl key p k = pl := by
      have := (prefixMatch_le pl key p k).1
      omega
    obtain ⟨hple, hagree⟩ := (prefixMatch_eq_iff hK hpl).mp hmatch
    rw [entries_node, List.find?_append]
    rcases Nat.lt_or_ge pl p with hlt | hge
    · -- the entry, if any, is in the child of `k`'s bit
      have hself : ∀ e ∈ (if inter then [] else [(⟨pl, key, v⟩ : Entry K T)]),
          decide (Class p k e) = false := by
        intro e he
        split at he
        · simp at he
        · simp only [List.mem_singleton] at he
          subst he
          exact decide_eq_false fun h => by simp [Class] at h; omega
      rw [find?_none_of_forall hself, Option.none_or, find?_children w0 w1 f0 f1 hlt, ← ih]
      have hne : prefixMatch pl key p k ≠ M := by omega
      cases inter
      · simp only [Bool.false_eq_true, if_false, if_neg hne, List.find?_cons]
        have : (pl == p) = false := by simp; omega
        simp [this]
      · simp
    · -- the node has the prefix asked for: no child can hold the entry
      have hpeq : pl = p := by omega
      subst hpeq
      have hkids : ∀ e ∈ c0.entries ++ c1.entries, decide (Class pl k e) = false :=
        fun e he => decide_eq_false (hw.not_class_kids e he)
      rw [find?_none_of_forall hkids, Option.or_none]
      cases inter
      · have hcls : decide (Class pl k (⟨pl, key, v⟩ : Entry K T)) = true :=
          decide_eq_true ⟨rfl, hagree⟩
        simp only [Bool.false_eq_true, if_false, List.find?_singleton, hcls]
        split <;> simp
      · simp only [if_true, List.find?_nil]
        rw [ih]
        split
        · exact find?_none_of_forall fun e he => hkids e (List.mem_append_right _ he)
        · exact find?_none_of_forall fun e he => hkids e (List.mem_append_left _ he)

end Cilium.Bitlpm
