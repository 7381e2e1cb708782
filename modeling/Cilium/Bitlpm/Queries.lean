import Cilium.Bitlpm.Iterators
import Cilium.Bitlpm.Refinement

/-! What the range queries of `trie.go` return.  On a well-formed tree, `traverse` yields the
entries that contain the prefix-key pair asked for, in the order of `forEach`, and that order is
by strictly growing prefix; the descendant walks stop at a node whose subtree holds exactly the
entries that the pair contains.  `forEach` yields that subtree in its own order, the stack of
`DescendantIterator` in another, and the heap of the shortest-prefix-first forms by growing
prefix.  On a trie built by calls, these entries are the bindings of the abstract map whose slots
contain the pair or lie within it, each once. -/

namespace Cilium.Bitlpm

open Key MapHistory

variable {K T : Type} [Key K]

/-- The entry `e` contains the prefix-key pair `(p, k)`: its prefix is at most `p` and its key
agrees with `k` on that prefix. -/
def Contains (p : Nat) (k : K) (e : Entry K T) : Prop :=
  e.prefixLen ≤ p ∧ Agree e.key k e.prefixLen

instance (p : Nat) (k : K) (e : Entry K T) : Decidable (Contains p k e) :=
  inferInstanceAs (Decidable (_ ∧ _))

/-- The entry `e` is contained by `(p, k)`: its prefix is at least `p` and its key agrees with `k`
on the first `p` bits. -/
def ContainedBy (p : Nat) (k : K) (e : Entry K T) : Prop :=
  p ≤ e.prefixLen ∧ Agree e.key k p

instance (p : Nat) (k : K) (e : Entry K T) : Decidable (ContainedBy p k e) :=
  inferInstanceAs (Decidable (_ ∧ _))

/-- The slot `s` of the abstract map contains `(p, k)`: its prefix is at most `p` and its bits are
those of `k`. -/
def SlotContains (p : Nat) (k : K) (s : Slot) : Prop :=
  s.1 ≤ p ∧ s.2 = bitsOf k s.1

instance (p : Nat) (k : K) (s : Slot) : Decidable (SlotContains p k s) :=
  inferInstanceAs (Decidable (_ ∧ _))

/-- The slot `s` is contained by `(p, k)`: its prefix is at least `p` and its first `p` bits are
those of `k`. -/
def SlotContainedBy (p : Nat) (k : K) (s : Slot) : Prop :=
  p ≤ s.1 ∧ s.2.take p = bitsOf k p

instance (p : Nat) (k : K) (s : Slot) : Decidable (SlotContainedBy p k s) :=
  inferInstanceAs (Decidable (_ ∧ _))

theorem bitsOf_take (a : K) {m n : Nat} (h : m ≤ n) : (bitsOf a n).take m = bitsOf a m := by
  rw [bitsOf, bitsOf, ← List.map_take, List.take_range, Nat.min_eq_left h]

theorem contains_iff_slot {p : Nat} {k : K} {e : Entry K T} :
    Contains p k e ↔ SlotContains p k e.binding.1 := by
  simp [Contains, SlotContains, Entry.binding, bitsOf_eq_iff]

theorem containedBy_iff_slot {p : Nat} {k : K} {e : Entry K T} :
    ContainedBy p k e ↔ SlotContainedBy p k e.binding.1 := by
  simp only [ContainedBy, SlotContainedBy, Entry.binding]
  constructor
  · rintro ⟨hle, ha⟩
    exact ⟨hle, by rw [bitsOf_take _ hle, bitsOf_eq_iff.mpr ha]⟩
  · rintro ⟨hle, hb⟩
    exact ⟨hle, bitsOf_eq_iff.mp (by rwa [bitsOf_take _ hle] at hb)⟩

variable {M : Nat}

/-! ### The children of a node on the path of a key -/

/-- An entry below the child off the path of `k` leaves that path at the node's prefix. -/
theorem Node.WF.off_path {c0 c1 : Node K T} {pl : Nat} {key : K} {inter : Bool} {v : T}
    (hw : (Node.node c0 c1 pl key inter v).WF M) (k : K) :
    ∀ e ∈ (if bitValueAt k pl then c0 else c1).entries,
      pl < e.prefixLen ∧ Agree e.key key pl ∧ bitValueAt e.key pl ≠ bitValueAt k pl := by
  obtain ⟨_, f0, f1, w0, w1⟩ := hw
  intro e he
  cases hb : bitValueAt k pl
  · rw [hb, if_neg Bool.false_ne_true] at he
    obtain ⟨hlt, ha, hbit⟩ := w1.entry_fits f1 e he
    exact ⟨hlt, ha, by simp [hbit]⟩
  · rw [hb, if_pos rfl] at he
    obtain ⟨hlt, ha, hbit⟩ := w0.entry_fits f0 e he
    exact ⟨hlt, ha, by simp [hbit]⟩

/-- An entry below a child has a longer prefix than the node, and at most the maximum. -/
theorem Node.WF.child_entry {c0 c1 : Node K T} {pl : Nat} {key : K} {inter : Bool} {v : T}
    (hw : (Node.node c0 c1 pl key inter v).WF M) (b : Bool) :
    ∀ e ∈ (if b then c1 else c0).entries, pl < e.prefixLen ∧ e.prefixLen ≤ M := by
  obtain ⟨_, f0, f1, w0, w1⟩ := hw
  intro e he
  cases b
  · exact ⟨(w0.entry_fits f0 e he).1, w0.prefixLen_le e he⟩
  · exact ⟨(w1.entry_fits f1 e he).1, w1.prefixLen_le e he⟩

omit [Key K] in
/-- When no entry off the path satisfies `P`, the entries of the two children that satisfy it
are those of the child on the path. -/
theorem filter_children (P : Entry K T → Bool) {c0 c1 : Node K T} (b : Bool)
    (hoff : ∀ e ∈ (if b then c0 else c1).entries, P e = false) :
    (c0.entries ++ c1.entries).filter P = (if b then c1 else c0).entries.filter P := by
  have hnil : (if b then c0 else c1).entries.filter P = [] :=
    List.filter_eq_nil_iff.mpr fun e he hP => by rw [hoff e he] at hP; exact Bool.false_ne_true hP
  rw [List.filter_append]
  cases b
  · rw [if_neg Bool.false_ne_true] at hnil ⊢
    rw [hnil, List.append_nil]
  · rw [if_pos rfl] at hnil ⊢
    rw [hnil, List.nil_append]

/-- No entry off the path of `k` contains a pair with key `k`. -/
theorem Node.WF.off_path_not_contains {c0 c1 : Node K T} {pl : Nat} {key : K} {inter : Bool}
    {v : T} (hw : (Node.node c0 c1 pl key inter v).WF M) (p : Nat) (k : K) :
    ∀ e ∈ (if bitValueAt k pl then c0 else c1).entries, decide (Contains p k e) = false := by
  intro e he
  obtain ⟨hlt, -, hbit⟩ := hw.off_path k e he
  exact decide_eq_false fun hc => hbit (hc.2 pl hlt)

/-- An entry of a well-formed subtree has at least the prefix of its root. -/
theorem Node.WF.prefixLen_le_of_mem {n : Node K T} (hw : n.WF M) {e : Entry K T}
    (he : e ∈ n.entries) : n.prefixLen ≤ e.prefixLen := by
  cases n with
  | nil => simp at he
  | node c0 c1 pl key inter v => exact (hw.entry_extends e he).1

/-- The entries of a subtree that contain a pair lie on one path, by strictly growing prefix. -/
theorem Node.WF.pairwise_contains (p : Nat) (k : K) : ∀ {n : Node K T}, n.WF M →
    (n.entries.filter fun e => decide (Contains p k e)).Pairwise
      (fun e e' => e.prefixLen < e'.prefixLen)
  | .nil, _ => List.Pairwise.nil
  | .node c0 c1 pl key inter v, hw => by
    rw [entries_node, List.filter_append, filter_children _ _ (hw.off_path_not_contains p k),
      List.pairwise_append]
    refine ⟨?_, ?_, ?_⟩
    · split
      · simp
      · rw [List.filter_singleton]
        cases decide (Contains p k (⟨pl, key, v⟩ : Entry K T)) <;> simp
    · split
      · exact hw.2.2.2.2.pairwise_contains p k
      · exact hw.2.2.2.1.pairwise_contains p k
    · -- the node's own entry comes first, and every entry below has a longer prefix
      intro e he e' he'
      have hpl : e.prefixLen = pl := by
        split at he <;> simp_all
      rw [hpl]
      exact (hw.child_entry _ e' (List.mem_filter.mp he').1).1

/-! ### Ancestors -/

section Ancestors

variable (hK : Contract K M)
include hK

/-- `traverse` yields the entries of the subtree that contain the pair, in the order of
`forEach`. -/
theorem Node.WF.traverse_eq_filter (p : Nat) (k : K) :
    ∀ {n : Node K T}, n.WF M → n.traverse M p k = n.entries.filter (fun e => decide (Contains p k e))
  | .nil, _ => rfl
  | .node c0 c1 pl key inter v, hw => by
    have ih : (if bitValueAt k pl then c1.traverse M p k else c0.traverse M p k) =
        (if bitValueAt k pl then c1 else c0).entries.filter (fun e => decide (Contains p k e)) := by
      split
      · exact hw.2.2.2.2.traverse_eq_filter p k
      · exact hw.2.2.2.1.traverse_eq_filter p k
    simp only [Node.traverse]
    by_cases hm : prefixMatch pl key p k < pl
    · -- the node does not match: no entry below it contains the pair
      rw [if_pos hm]
      refine (List.filter_eq_nil_iff.mpr fun e he hc => ?_).symm
      obtain ⟨hle, ha⟩ := hw.entry_extends e he
      obtain ⟨hcp, hca⟩ := of_decide_eq_true hc
      exact (prefixMatch_lt_iff hK hw.1).mp hm ⟨hle.trans hcp, ha.symm.trans (hca.mono hle)⟩
    rw [if_neg hm]
    have hmatch : prefixMatch pl key p k = pl := by
      have := (prefixMatch_le pl key p k).1
      omega
    obtain ⟨hple, hagree⟩ := (prefixMatch_eq_iff hK hw.1).mp hmatch
    have hself : decide (Contains p k (⟨pl, key, v⟩ : Entry K T)) = true :=
      decide_eq_true ⟨hple, hagree⟩
    rw [entries_node, List.filter_append, filter_children _ _ (hw.off_path_not_contains p k), ← ih,
      hmatch]
    cases inter
    · -- at the maximum prefix the node is a leaf and nothing follows it
      have hleaf : pl = M → (if bitValueAt k pl then c1.traverse M p k
          else c0.traverse M p k) = [] := by
        intro hM
        rw [ih, List.filter_eq_nil_iff]
        intro e he _
        have := hw.child_entry _ e he
        omega
      simp only [Bool.false_eq_true, if_false, List.filter_cons, hself, List.filter_nil, if_true]
      split
      next hM => rw [hleaf hM, List.singleton_append]
      next => rfl
    · simp

/-- Every prefix the walk is asked for: asking past the maximum is asking for the maximum, since
no entry is longer. -/
theorem Node.WF.traverse_clamp (p : Nat) (k : K) {n : Node K T} (hw : n.WF M) :
    n.traverse M p k = n.traverse M (min p M) k := by
  rw [hw.traverse_eq_filter hK, hw.traverse_eq_filter hK]
  refine List.filter_congr fun e he => ?_
  have := hw.prefixLen_le e he
  refine decide_eq_decide.mpr ⟨?_, ?_⟩
  · rintro ⟨hp, ha⟩
    exact ⟨le_min hp this, ha⟩
  · rintro ⟨hp, ha⟩
    exact ⟨hp.trans (min_le_left p M), ha⟩

end Ancestors

/-! ### Descendants -/

section Descendants

variable (hK : Contract K M)
include hK

/-- The node reaches `P` bits of the searched key exactly when its prefix is at least `P` and
its key agrees with the searched one on them. -/
theorem prefixMatch_ge_iff {P pl : Nat} {key k : K} (hP : P ≤ M) :
    P ≤ prefixMatch pl key P k ↔ P ≤ pl ∧ Agree key k P := by
  rw [prefixMatch_eq, ← hK.le_iff key k P hP]
  split
  · constructor
    · intro h
      exact ⟨by omega, by omega⟩
    · rintro ⟨h1, _⟩
      omega
  · constructor
    · intro h
      omega
    · rintro ⟨_, h2⟩
      omega

/-- The descendant walks stop at a node whose subtree holds exactly the entries that the pair
contains, in the order of `forEach`. -/
theorem Node.WF.descendantRoot_entries {P : Nat} (hP : P ≤ M) (k : K) :
    ∀ {n : Node K T}, n.WF M →
      (n.descendantRoot M P k).entries = n.entries.filter (fun e => decide (ContainedBy P k e))
  | .nil, _ => rfl
  | .node c0 c1 pl key inter v, hw => by
    simp only [Node.descendantRoot]
    by_cases hin : prefixMatch pl key P k ≥ P
    · -- the node lies within the pair, and with it its whole subtree
      rw [if_pos hin]
      obtain ⟨hPpl, ha⟩ := (prefixMatch_ge_iff hK hP).mp hin
      refine (List.filter_eq_self.mpr fun e he => decide_eq_true ?_).symm
      obtain ⟨hle, hae⟩ := hw.entry_extends e he
      exact ⟨hPpl.trans hle, (hae.mono hPpl).trans ha⟩
    rw [if_neg hin]
    have hout : ¬(P ≤ pl ∧ Agree key k P) := fun h => hin ((prefixMatch_ge_iff hK hP).mpr h)
    -- an entry below the node within the pair would put the node within it, once `P ≤ pl`
    have hfar : P ≤ pl → ∀ e ∈ (Node.node c0 c1 pl key inter v).entries, ¬ContainedBy P k e :=
      fun hPpl e he hc => hout ⟨hPpl, ((hw.entry_extends e he).2.mono hPpl).symm.trans hc.2⟩
    by_cases hleaf : pl ≥ M
    · rw [if_pos hleaf]
      exact (List.filter_eq_nil_iff.mpr fun e he hc =>
        hfar (hP.trans hleaf) e he (of_decide_eq_true hc)).symm
    rw [if_neg hleaf]
    have hoff : ∀ e ∈ (if bitValueAt k pl then c0 else c1).entries,
        decide (ContainedBy P k e) = false := by
      intro e he
      obtain ⟨hlt, hae, hbit⟩ := hw.off_path k e he
      refine decide_eq_false fun hc => ?_
      by_cases hPpl : P ≤ pl
      · exact hout ⟨hPpl, (hae.mono hPpl).symm.trans hc.2⟩
      · exact hbit (hc.2 pl (by omega))
    have hself : decide (ContainedBy P k (⟨pl, key, v⟩ : Entry K T)) = false :=
      decide_eq_false hout
    rw [entries_node, List.filter_append, filter_children _ _ hoff]
    have hnil : (if inter then [] else [(⟨pl, key, v⟩ : Entry K T)]).filter
        (fun e => decide (ContainedBy P k e)) = [] := by
      split
      · rfl
      · simp [hself]
    rw [hnil, List.nil_append]
    split
    · exact hw.2.2.2.2.descendantRoot_entries hP k
    · exact hw.2.2.2.1.descendantRoot_entries hP k

end Descendants

omit [Key K] in
/-- The stack of `DescendantIterator` yields a subtree's entries in another order. -/
theorem Node.preorder_perm : ∀ n : Node K T, n.preorder.Perm n.entries
  | .nil => List.Perm.nil
  | .node c0 c1 pl key inter v => by
    rw [Node.preorder, entries_node, List.append_assoc]
    exact ((c1.preorder_perm.append c0.preorder_perm).trans List.perm_append_comm).append_left _

/-- The walk to the descendant root keeps to subtrees of a well-formed tree. -/
theorem Node.WF.descendantRoot {P : Nat} (k : K) :
    ∀ {n : Node K T}, n.WF M → (n.descendantRoot M P k).WF M
  | .nil, _ => trivial
  | .node c0 c1 pl key inter v, hw => by
    simp only [Node.descendantRoot]
    split
    · exact hw
    · split
      · trivial
      · split
        · exact hw.2.2.2.2.descendantRoot k
        · exact hw.2.2.2.1.descendantRoot k

/-! ### The heap of the shortest-prefix-first walks -/

omit [Key K] in
theorem Node.size_pos {n : Node K T} (hn : n ≠ .nil) : 0 < n.size := by
  cases n with
  | nil => exact absurd rfl hn
  | node c0 c1 pl key inter v => simp [Node.size]

omit [Key K] in
theorem nodeLess_eq (a b : Node K T) : nodeLess a b = decide (a.prefixLen < b.prefixLen) := rfl

/-- The heap of the shortest-prefix-first loop: in heap order by prefix length, of well-formed
subtrees, none of them `nil`. -/
structure SPFHeap (M : Nat) (H : Array (Node K T)) : Prop where
  ordered : GoHeap.Ordered Node.prefixLen H H.size
  wf : ∀ x ∈ H.toList, x.WF M
  ne_nil : ∀ x ∈ H.toList, x ≠ .nil

theorem SPFHeap.singleton {n : Node K T} (hw : n.WF M) (hn : n ≠ .nil) : SPFHeap M #[n] where
  ordered c hc0 hc1 := absurd hc1 (by simp; omega)
  wf x hx := by simp at hx; exact hx ▸ hw
  ne_nil x hx := by simp at hx; exact hx ▸ hn

omit [Key K] in
theorem mem_pushChild {H : Array (Node K T)} {c x : Node K T} (hx : x ∈ (pushChild H c).toList) :
    x ∈ H.toList ∨ (x = c ∧ c ≠ .nil) := by
  cases c with
  | nil => exact Or.inl hx
  | node c0 c1 pl key inter v =>
    rcases (GoHeap.mem_push nodeLess).mp hx with h | h
    · exact Or.inl h
    · exact Or.inr ⟨h, fun hnil => by cases hnil⟩

theorem SPFHeap.pushChild {H : Array (Node K T)} (hH : SPFHeap M H) {c : Node K T}
    (hc : c.WF M) : SPFHeap M (pushChild H c) := by
  refine ⟨?_, fun x hx => ?_, fun x hx => ?_⟩
  · cases c with
    | nil => exact hH.ordered
    | node c0 c1 pl key inter v => exact GoHeap.push_ordered Node.prefixLen nodeLess_eq hH.ordered _
  · rcases mem_pushChild hx with h | ⟨rfl, -⟩
    · exact hH.wf x h
    · exact hc
  · rcases mem_pushChild hx with h | ⟨rfl, hne⟩
    · exact hH.ne_nil x h
    · exact hne

theorem SPFHeap.pop {H : Array (Node K T)} (hH : SPFHeap M H) (hne : 0 < H.size) :
    SPFHeap M (GoHeap.pop nodeLess H).1 where
  ordered := GoHeap.pop_ordered Node.prefixLen nodeLess_eq hH.ordered
  wf x hx := hH.wf x (GoHeap.mem_of_mem_pop nodeLess hne (Or.inl hx))
  ne_nil x hx := hH.ne_nil x (GoHeap.mem_of_mem_pop nodeLess hne (Or.inl hx))

/-- A pop from the heap returns a well-formed node whose prefix no node left is below. -/
theorem SPFHeap.pop_node {H : Array (Node K T)} (hH : SPFHeap M H) (hne : 0 < H.size) :
    ∃ c0 c1 pl key inter v, (GoHeap.pop nodeLess H).2 = .node c0 c1 pl key inter v ∧
      (Node.node c0 c1 pl key inter v).WF M ∧
      ∀ x ∈ (GoHeap.pop nodeLess H).1.toList, pl ≤ x.prefixLen := by
  have hmem := GoHeap.mem_of_mem_pop nodeLess hne (Or.inr rfl)
  have hle := GoHeap.pop_le nodeLess Node.prefixLen hH.ordered hne
  cases hn : (GoHeap.pop nodeLess H).2 with
  | nil => exact absurd hn (hH.ne_nil _ hmem)
  | node c0 c1 pl key inter v =>
    rw [hn] at hmem hle
    exact ⟨c0, c1, pl, key, inter, v, rfl, hH.wf _ hmem, hle⟩

omit [Key K] in
/-- A round of the loop on the node popped. -/
theorem spfLoop_node {fuel : Nat} {H : Array (Node K T)} (hne : 0 < H.size) {c0 c1 : Node K T}
    {pl : Nat} {key : K} {inter : Bool} {v : T}
    (hn : (GoHeap.pop nodeLess H).2 = .node c0 c1 pl key inter v) :
    spfLoop (fuel + 1) H = (if inter then [] else [⟨pl, key, v⟩]) ++
      spfLoop fuel (pushChild (pushChild (GoHeap.pop nodeLess H).1 c0) c1) := by
  rw [spfLoop, if_neg (by omega)]
  rcases hp : GoHeap.pop nodeLess H with ⟨H', n⟩
  rw [hp] at hn
  subst hn
  rfl

omit [Key K] in
theorem pushChild_entries (H : Array (Node K T)) (c : Node K T) :
    ((pushChild H c).toList.flatMap Node.entries).Perm (H.toList.flatMap Node.entries ++ c.entries) := by
  cases c with
  | nil => simp [pushChild]
  | node c0 c1 pl key inter v =>
    simpa [pushChild] using (GoHeap.push_perm nodeLess H _).flatMap_right Node.entries

omit [Key K] in
theorem pushChild_size (H : Array (Node K T)) (c : Node K T) :
    ((pushChild H c).toList.map Node.size).sum = (H.toList.map Node.size).sum + c.size := by
  cases c with
  | nil => simp [pushChild, Node.size]
  | node c0 c1 pl key inter v =>
    simpa [pushChild] using ((GoHeap.push_perm nodeLess H _).map Node.size).sum_nat

omit [Key K] in
/-- A round moves the popped node's size to its children and spends one unit on itself. -/
theorem sum_size_round {H : Array (Node K T)} (hne : 0 < H.size) {c0 c1 : Node K T} {pl : Nat}
    {key : K} {inter : Bool} {v : T} (hn : (GoHeap.pop nodeLess H).2 = .node c0 c1 pl key inter v) :
    ((pushChild (pushChild (GoHeap.pop nodeLess H).1 c0) c1).toList.map Node.size).sum + 1 =
      (H.toList.map Node.size).sum := by
  have hpop := GoHeap.pop_perm nodeLess H hne
  rw [hn] at hpop
  rw [pushChild_size, pushChild_size, ← (hpop.map Node.size).sum_nat]
  simp [Node.size]
  omega

omit [Key K] in
/-- After a round, the heap holds the subtrees it held but the popped one, and that one's
children. -/
theorem entries_round (H : Array (Node K T)) (c0 c1 : Node K T) :
    List.Perm ((pushChild (pushChild H c0) c1).toList.flatMap Node.entries)
      (H.toList.flatMap Node.entries ++ (c0.entries ++ c1.entries)) := by
  rw [← List.append_assoc]
  exact (pushChild_entries _ c1).trans ((pushChild_entries _ c0).append_right _)

/-- With fuel for every node of the heap, the loop yields every entry of its subtrees once. -/
theorem spfLoop_perm : ∀ (fuel : Nat) {H : Array (Node K T)}, SPFHeap M H →
    (H.toList.map Node.size).sum ≤ fuel →
      (spfLoop fuel H).Perm (H.toList.flatMap Node.entries)
  | 0, H, hH, hf => by
    -- no fuel: the heap is empty, since each of its nodes has a positive size
    have hzero := List.sum_eq_zero_iff_forall_eq_nat.mp (Nat.le_zero.mp hf)
    have hnil : H.toList = [] := by
      refine List.eq_nil_iff_forall_not_mem.mpr fun x hx => ?_
      have := hzero _ (List.mem_map_of_mem (f := Node.size) hx)
      have := Node.size_pos (hH.ne_nil x hx)
      omega
    simp [spfLoop, hnil]
  | fuel + 1, H, hH, hf => by
    by_cases h0 : H.size = 0
    · have hnil : H.toList = [] := by simpa using h0
      simp [spfLoop, h0, hnil]
    have hne : 0 < H.size := Nat.pos_of_ne_zero h0
    obtain ⟨c0, c1, pl, key, inter, v, hn, hw, -⟩ := hH.pop_node hne
    have hsum := sum_size_round hne hn
    have hpop := GoHeap.pop_perm nodeLess H hne
    rw [hn] at hpop
    have ih := spfLoop_perm fuel (((hH.pop hne).pushChild hw.2.2.2.1).pushChild hw.2.2.2.2)
      (by omega)
    rw [spfLoop_node hne hn]
    calc List.Perm ((if inter then [] else [⟨pl, key, v⟩]) ++
          spfLoop fuel (pushChild (pushChild (GoHeap.pop nodeLess H).1 c0) c1))
          ((if inter then [] else [⟨pl, key, v⟩]) ++
            ((GoHeap.pop nodeLess H).1.toList.flatMap Node.entries ++
              (c0.entries ++ c1.entries))) :=
          (ih.trans (entries_round _ c0 c1)).append_left _
      List.Perm _ ((GoHeap.pop nodeLess H).1.toList.flatMap Node.entries ++
            ((if inter then [] else [⟨pl, key, v⟩]) ++ (c0.entries ++ c1.entries))) :=
          List.perm_append_comm_assoc _ _ _
      _ = ((GoHeap.pop nodeLess H).1.toList ++ [Node.node c0 c1 pl key inter v]).flatMap
            Node.entries := by
          simp [entries_node]
      List.Perm _ (H.toList.flatMap Node.entries) := hpop.flatMap_right _

/-- The loop yields its entries by growing prefix: what it pops is at most every node left in the
heap, whose entries are at least their roots, and the children it pushes are longer. -/
theorem spfLoop_pairwise : ∀ (fuel : Nat) {H : Array (Node K T)}, SPFHeap M H →
    (H.toList.map Node.size).sum ≤ fuel →
      (spfLoop fuel H).Pairwise (fun e e' => e.prefixLen ≤ e'.prefixLen)
  | 0, _, _, _ => List.Pairwise.nil
  | fuel + 1, H, hH, hf => by
    by_cases h0 : H.size = 0
    · simp [spfLoop, h0]
    have hne : 0 < H.size := Nat.pos_of_ne_zero h0
    obtain ⟨c0, c1, pl, key, inter, v, hn, hw, hmin⟩ := hH.pop_node hne
    have hH' := hH.pop hne
    have hH'' := (hH'.pushChild hw.2.2.2.1).pushChild hw.2.2.2.2
    have hfuel := sum_size_round hne hn
    rw [spfLoop_node hne hn]
    -- every entry still to come lies below a node of the heap or one of the two children
    have hlater : ∀ e ∈ spfLoop fuel (pushChild (pushChild (GoHeap.pop nodeLess H).1 c0) c1),
        pl ≤ e.prefixLen := by
      intro e he
      have he' := ((spfLoop_perm fuel hH'' (by omega)).trans (entries_round _ c0 c1)).subset he
      simp only [List.mem_append, List.mem_flatMap] at he'
      rcases he' with ⟨x, hx, hex⟩ | he0 | he1
      · exact (hmin x hx).trans ((hH'.wf x hx).prefixLen_le_of_mem hex)
      · exact (hw.child_entry false e he0).1.le
      · exact (hw.child_entry true e he1).1.le
    rw [List.pairwise_append]
    refine ⟨by split <;> simp, spfLoop_pairwise fuel hH'' (by omega), ?_⟩
    intro e he e' he'
    have hpl : e.prefixLen = pl := by
      split at he <;> simp_all
    exact hpl ▸ hlater e' he'

/-- From the node the descendant walks start at, the heap yields its subtree once, by growing
prefix. -/
theorem Node.WF.spfLoop_root {n : Node K T} (hw : n.WF M) (hn : n ≠ .nil) :
    List.Perm (spfLoop n.size #[n]) n.entries ∧
      (spfLoop n.size #[n]).Pairwise (fun e e' => e.prefixLen ≤ e'.prefixLen) := by
  have hH := SPFHeap.singleton hw hn
  have hf : ((#[n] : Array (Node K T)).toList.map Node.size).sum ≤ n.size := by simp
  exact ⟨(spfLoop_perm _ hH hf).trans (by simp), spfLoop_pairwise _ hH hf⟩

/-- `DescendantsShortestPrefixFirst` and its iterator yield the same list: a push onto the empty
heap is the heap of one node. -/
theorem Trie.descendantsShortestPrefixFirstFn_eq (t : Trie K T) (p : Nat) (k : K) :
    t.descendantsShortestPrefixFirstFn p k = t.descendantsShortestPrefixFirst p k := by
  unfold Trie.descendantsShortestPrefixFirstFn Trie.descendantsShortestPrefixFirst
    Node.forEachShortestPrefixFirst
  simp only [GoHeap.push_empty]

/-- `AncestorsLongestPrefixFirst` yields the entries of `Ancestors` from the last one back. -/
theorem Trie.ancestorsLongestPrefixFirstFn_eq (t : Trie K T) (p : Nat) (k : K) :
    t.ancestorsLongestPrefixFirstFn p k = (t.ancestors p k).reverse := rfl

/-! ### On a trie that refines an abstract map -/

section Refines

variable {t : Trie K T} {a : AList fun _ : Slot => T}

/-- A filter of the tree's entries is the filter of the abstract bindings by the same condition
on their slots. -/
theorem Refines.perm_filter (h : Refines M t a) {E : Entry K T → Prop} [DecidablePred E]
    {S : Slot → Prop} [DecidablePred S] (hES : ∀ e, E e ↔ S e.binding.1) :
    List.Perm ((t.root.entries.filter fun e => decide (E e)).map Entry.binding)
      (a.entries.filter fun s => decide (S s.1)) := by
  have hcongr : (t.root.entries.filter fun e => decide (E e)) =
      t.root.entries.filter ((fun s => decide (S s.1)) ∘ Entry.binding) :=
    List.filter_congr fun e _ => by simp [hES e]
  rw [hcongr, ← List.filter_map]
  exact h.entries.filter _

variable (hK : Contract K M) (h : Refines M t a) (p : Nat) (k : K)
include hK h

theorem Refines.ancestors_perm :
    List.Perm ((t.ancestors p k).map Entry.binding)
      (a.entries.filter fun s => decide (SlotContains (min p M) k s.1)) := by
  rw [Trie.ancestors, h.maxPrefix, h.wf.traverse_eq_filter hK]
  exact h.perm_filter fun _ => contains_iff_slot

theorem Refines.ancestors_pairwise :
    (t.ancestors p k).Pairwise (fun e e' => e.prefixLen < e'.prefixLen) := by
  rw [Trie.ancestors, h.maxPrefix, h.wf.traverse_eq_filter hK]
  exact h.wf.pairwise_contains _ k

/-- The longest-prefix-first iterator, which does not clamp, yields what the callback form does. -/
theorem Refines.ancestorsLongestPrefixFirst_eq :
    t.ancestorsLongestPrefixFirst p k = t.ancestorsLongestPrefixFirstFn p k := by
  rw [Trie.ancestorsLongestPrefixFirst, Trie.ancestorsLongestPrefixFirstFn, Trie.treverse,
    h.maxPrefix, h.wf.traverse_clamp hK]

omit hK p in
theorem Refines.longestPrefixMatch_eq :
    t.longestPrefixMatch k = ((t.ancestors M k).getLast?).map fun e => (e.key, e.value) := by
  rw [Trie.longestPrefixMatch, Trie.ancestors, h.maxPrefix, Nat.min_self]

omit p in
/-- `LongestPrefixMatch` finds nothing exactly when no slot contains the key. -/
theorem Refines.longestPrefixMatch_eq_none_iff :
    t.longestPrefixMatch k = none ↔ ∀ s ∈ a.entries, ¬SlotContains M k s.1 := by
  have hp := h.ancestors_perm hK M k
  rw [Nat.min_self] at hp
  rw [h.longestPrefixMatch_eq k, Option.map_eq_none_iff, List.getLast?_eq_none_iff]
  constructor
  · intro hnil s hs hc
    rw [hnil, List.map_nil] at hp
    have := hp.symm.subset (List.mem_filter.mpr ⟨hs, decide_eq_true hc⟩)
    simp at this
  · intro hno
    have hnil : (a.entries.filter fun s => decide (SlotContains M k s.1)) = [] :=
      List.filter_eq_nil_iff.mpr fun s hs hc => hno s hs (of_decide_eq_true hc)
    rw [hnil] at hp
    exact List.map_eq_nil_iff.mp hp.eq_nil

omit p in
/-- What `LongestPrefixMatch` returns is the binding of the longest slot that contains the key. -/
theorem Refines.longestPrefixMatch_eq_some {k' : K} {v : T}
    (hsome : t.longestPrefixMatch k = some (k', v)) :
    ∃ q, (⟨(q, bitsOf k' q), v⟩ : Sigma fun _ : Slot => T) ∈ a.entries ∧
      SlotContains M k (q, bitsOf k' q) ∧ ∀ s ∈ a.entries, SlotContains M k s.1 → s.1.1 ≤ q := by
  have hp := h.ancestors_perm hK M k
  rw [Nat.min_self] at hp
  have hpw := h.ancestors_pairwise hK M k
  rw [h.longestPrefixMatch_eq k, Option.map_eq_some_iff] at hsome
  obtain ⟨e, hlast, he⟩ := hsome
  simp only [Prod.mk.injEq] at he
  obtain ⟨rfl, rfl⟩ := he
  obtain ⟨ys, hys⟩ := List.getLast?_eq_some_iff.mp hlast
  have hbind := List.mem_filter.mp (hp.subset (List.mem_map_of_mem (List.mem_of_getLast? hlast)))
  refine ⟨e.prefixLen, hbind.1, of_decide_eq_true hbind.2, fun s hs hc => ?_⟩
  obtain ⟨e', he', rfl⟩ := List.mem_map.mp
    (hp.symm.subset (List.mem_filter.mpr ⟨hs, decide_eq_true hc⟩))
  -- the ancestors grow strictly, so the last one is the longest
  rw [hys, List.pairwise_append] at hpw
  rw [hys, List.mem_append, List.mem_singleton] at he'
  rcases he' with hy | rfl
  · exact (hpw.2.2 e' hy e (List.mem_singleton_self _)).le
  · exact le_rfl

theorem Refines.descendantsFn_perm :
    List.Perm ((t.descendantsFn p k).map Entry.binding)
      (a.entries.filter fun s => decide (SlotContainedBy (min p M) k s.1)) := by
  rw [Trie.descendantsFn, h.maxPrefix, h.wf.descendantRoot_entries hK (Nat.min_le_right p M)]
  exact h.perm_filter fun _ => containedBy_iff_slot

theorem Refines.descendants_perm :
    List.Perm ((t.descendants p k).map Entry.binding)
      (a.entries.filter fun s => decide (SlotContainedBy (min p M) k s.1)) :=
  ((Node.preorder_perm _).map _).trans (h.descendantsFn_perm hK p k)

omit hK in
/-- The shortest-prefix-first iterator yields the entries of `Descendants`, by growing prefix. -/
theorem Refines.descendantsShortestPrefixFirst_spec :
    List.Perm (t.descendantsShortestPrefixFirst p k) (t.descendantsFn p k) ∧
      (t.descendantsShortestPrefixFirst p k).Pairwise (fun e e' => e.prefixLen ≤ e'.prefixLen) := by
  have hw := h.wf.descendantRoot (P := min p M) k
  unfold Trie.descendantsShortestPrefixFirst Trie.descendantsFn
  rw [h.maxPrefix]
  split
  next hnil => simp [hnil]
  next n hn => exact hw.spfLoop_root hn

/-- Below `0/0` on 8-bit keys, `forEach` reaches `0xf3/8` before `0xf4/6`, the heap after it. -/
example : let t := run 8 [Op.upsert 4 (⟨0xf0⟩ : UnsignedKey 8) (1 : Nat), .upsert 8 ⟨0xf3⟩ 2,
      .upsert 0 ⟨0⟩ 3, .upsert 6 ⟨0xf4⟩ 4]
    ((t.descendantsFn 0 ⟨0xf3⟩).map (·.value),
      (t.descendantsShortestPrefixFirst 0 ⟨0xf3⟩).map (·.value)) = ([3, 1, 2, 4], [3, 1, 4, 2]) := by
  decide

end Refines

/-- On every trie built by calls, the range queries return the bindings of the abstract map whose
slots contain the clamped pair (`Ancestors`, `AncestorIterator` by strictly growing prefix, and
both longest-prefix-first forms by strictly shrinking prefix), `LongestPrefixMatch` returns the
longest of those for the whole key, and the descendant walks return the bindings whose slots lie
within the pair (the shortest-prefix-first forms by growing prefix).  Each list is a permutation
of a filter of the abstract bindings, whose slots are distinct: every binding comes once. -/
theorem run_range_queries [Inhabited T] (hK : Contract K M) (ops : List (Op K T)) (p : Nat)
    (k : K) :
    let t := run M ops
    let a := replay (ops.map (Op.update M))
    let anc := a.entries.filter fun s => decide (SlotContains (min p M) k s.1)
    let desc := a.entries.filter fun s => decide (SlotContainedBy (min p M) k s.1)
    (List.Perm ((t.ancestors p k).map Entry.binding) anc ∧
      (t.ancestors p k).Pairwise (fun e e' => e.prefixLen < e'.prefixLen)) ∧
    (List.Perm ((t.ancestorsLongestPrefixFirstFn p k).map Entry.binding) anc ∧
      (t.ancestorsLongestPrefixFirstFn p k).Pairwise (fun e e' => e'.prefixLen < e.prefixLen)) ∧
    (List.Perm ((t.ancestorsLongestPrefixFirst p k).map Entry.binding) anc ∧
      (t.ancestorsLongestPrefixFirst p k).Pairwise (fun e e' => e'.prefixLen < e.prefixLen)) ∧
    (t.longestPrefixMatch k = none ↔ ∀ s ∈ a.entries, ¬SlotContains M k s.1) ∧
    (∀ k' v, t.longestPrefixMatch k = some (k', v) →
      ∃ q, (⟨(q, bitsOf k' q), v⟩ : Sigma fun _ : Slot => T) ∈ a.entries ∧
        SlotContains M k (q, bitsOf k' q) ∧
        ∀ s ∈ a.entries, SlotContains M k s.1 → s.1.1 ≤ q) ∧
    List.Perm ((t.descendantsFn p k).map Entry.binding) desc ∧
    List.Perm ((t.descendants p k).map Entry.binding) desc ∧
    (List.Perm ((t.descendantsShortestPrefixFirstFn p k).map Entry.binding) desc ∧
      (t.descendantsShortestPrefixFirstFn p k).Pairwise
        (fun e e' => e.prefixLen ≤ e'.prefixLen)) ∧
    (List.Perm ((t.descendantsShortestPrefixFirst p k).map Entry.binding) desc ∧
      (t.descendantsShortestPrefixFirst p k).Pairwise
        (fun e e' => e.prefixLen ≤ e'.prefixLen)) := by
  intro t a anc desc
  have h : Refines M t a := refines_run hK ops
  -- the longest-prefix-first forms are the ancestors backwards
  have hlpf : List.Perm ((t.ancestorsLongestPrefixFirstFn p k).map Entry.binding) anc ∧
      (t.ancestorsLongestPrefixFirstFn p k).Pairwise
        (fun e e' => e'.prefixLen < e.prefixLen) := by
    rw [Trie.ancestorsLongestPrefixFirstFn_eq, List.map_reverse, List.pairwise_reverse]
    exact ⟨(List.reverse_perm _).trans (h.ancestors_perm hK p k), h.ancestors_pairwise hK p k⟩
  -- the shortest-prefix-first forms are `Descendants` reordered
  have hspf := h.descendantsShortestPrefixFirst_spec p k
  have hdesc := h.descendantsFn_perm hK p k
  refine ⟨⟨h.ancestors_perm hK p k, h.ancestors_pairwise hK p k⟩, hlpf, ?_,
    h.longestPrefixMatch_eq_none_iff hK k, fun k' v => h.longestPrefixMatch_eq_some hK k,
    hdesc, h.descendants_perm hK p k, ?_, ⟨(hspf.1.map _).trans hdesc, hspf.2⟩⟩
  · rw [h.ancestorsLongestPrefixFirst_eq hK]
    exact hlpf
  · rw [Trie.descendantsShortestPrefixFirstFn_eq]
    exact ⟨(hspf.1.map _).trans hdesc, hspf.2⟩

/-- On 8-bit keys, after upserting `0xf0/4`, `0xf3/8` and `0x00/0`, the queries at `0xf3/6`. -/
theorem run_range_queries_uint8 :
    Contract (UnsignedKey 8) 8 ∧
      let ops : List (Op (UnsignedKey 8) Nat) := [.upsert 4 ⟨0xf0⟩ 1, .upsert 8 ⟨0xf3⟩ 2,
        .upsert 0 ⟨0⟩ 3]
      let t := run 8 ops
      let a := replay (ops.map (Op.update 8))
      let k : UnsignedKey 8 := ⟨0xf3⟩
      let anc := a.entries.filter fun s => decide (SlotContains (min 6 8) k s.1)
      let desc := a.entries.filter fun s => decide (SlotContainedBy (min 6 8) k s.1)
      (List.Perm ((t.ancestors 6 k).map Entry.binding) anc ∧
        (t.ancestors 6 k).Pairwise (fun e e' => e.prefixLen < e'.prefixLen)) ∧
      (List.Perm ((t.ancestorsLongestPrefixFirstFn 6 k).map Entry.binding) anc ∧
        (t.ancestorsLongestPrefixFirstFn 6 k).Pairwise (fun e e' => e'.prefixLen < e.prefixLen)) ∧
      (List.Perm ((t.ancestorsLongestPrefixFirst 6 k).map Entry.binding) anc ∧
        (t.ancestorsLongestPrefixFirst 6 k).Pairwise (fun e e' => e'.prefixLen < e.prefixLen)) ∧
      (t.longestPrefixMatch k = none ↔ ∀ s ∈ a.entries, ¬SlotContains 8 k s.1) ∧
      (∀ k' v, t.longestPrefixMatch k = some (k', v) →
        ∃ q, (⟨(q, bitsOf k' q), v⟩ : Sigma fun _ : Slot => Nat) ∈ a.entries ∧
          SlotContains 8 k (q, bitsOf k' q) ∧
          ∀ s ∈ a.entries, SlotContains 8 k s.1 → s.1.1 ≤ q) ∧
      List.Perm ((t.descendantsFn 6 k).map Entry.binding) desc ∧
      List.Perm ((t.descendants 6 k).map Entry.binding) desc ∧
      (List.Perm ((t.descendantsShortestPrefixFirstFn 6 k).map Entry.binding) desc ∧
        (t.descendantsShortestPrefixFirstFn 6 k).Pairwise
          (fun e e' => e.prefixLen ≤ e'.prefixLen)) ∧
      (List.Perm ((t.descendantsShortestPrefixFirst 6 k).map Entry.binding) desc ∧
        (t.descendantsShortestPrefixFirst 6 k).Pairwise
          (fun e e' => e.prefixLen ≤ e'.prefixLen)) :=
  ⟨unsigned_contract 8, run_range_queries (unsigned_contract 8) _ 6 _⟩

end Cilium.Bitlpm
