import Cilium.Bitlpm.Invariant

/-! `Upsert` and `Delete` keep a trie well formed and change its entries as a finite map changes
under insertion and removal.  `UpsertSpec` and `DeleteSpec` say what one call does to a
well-formed subtree; each is proved by one induction along the path the loop walks, with a case
for each of the source's four upsert cases (empty slot, replace, become parent, split) and three
delete cases (turn into an intermediate node, remove a leaf and collapse an intermediate parent,
promote a single child). -/

namespace Cilium.Bitlpm

open Key

variable {K T : Type} [Key K] {M : Nat}

/-- A subtree that fits below a key fits below any key with the same first `q` bits. -/
theorem Node.Fits.of_agree {n : Node K T} {q : Nat} {key key' : K} {b : Bool}
    (h : n.Fits q key b) (ha : Agree key key' q) : n.Fits q key' b := by
  cases n with
  | nil => trivial
  | node _ _ _ _ _ _ => exact ⟨h.1, h.2.1.trans ha, h.2.2⟩

/-- A child of a subtree that fits below `(q, key, b)` fits there too. -/
theorem Node.Fits.child {c : Node K T} {q pl : Nat} {key key' : K} {b b' : Bool}
    (hn : q < pl ∧ Agree key' key q ∧ bitValueAt key' q = b) (hc : c.Fits pl key' b') :
    c.Fits q key b := by
  cases c with
  | nil => trivial
  | node _ _ _ _ _ _ =>
    obtain ⟨hlt, ha, _⟩ := hc
    exact ⟨by omega, (ha.mono hn.1.le).trans hn.2.1, (ha q hn.1).trans hn.2.2⟩

theorem filter_not_class_of_forall {l : List (Entry K T)} {p : Nat} {k : K}
    (h : ∀ e ∈ l, ¬Class p k e) : l.filter (fun e => !decide (Class p k e)) = l :=
  List.filter_eq_self.mpr fun e he => by simp [h e he]

/-- Entries of the child that `k` leaves, or of a node whose prefix is short of `p`, are never
the entry for `(p, k)`. -/
theorem not_class_self {pl p : Nat} {key k : K} {v : T} {inter : Bool} (hne : pl ≠ p) :
    ∀ e ∈ (if inter then [] else [(⟨pl, key, v⟩ : Entry K T)]), ¬Class p k e := by
  intro e he hc
  split at he
  · simp at he
  · simp only [List.mem_singleton] at he
    subst he
    exact hne hc.1

/-! ### Upsert -/

omit [Key K] in
@[simp] theorem entries_leaf (p : Nat) (k : K) (v : T) :
    (leaf p k v : Node K T).entries = [⟨p, k, v⟩] := rfl

/-- What `Upsert` of `(p, k, v)` does to a subtree `n`, given its result `r`: the result is well
formed, holds the entries of `n` less the one for `(p, k)` plus the new entry, reports growth
exactly when `n` had no entry for `(p, k)`, and fits wherever both `n` and `k` fit. -/
structure UpsertSpec (M p : Nat) (k : K) (v : T) (n : Node K T) (r : Node K T × Bool) :
    Prop where
  wf : r.1.WF M
  entries : r.1.entries.Perm (n.entries.filter (fun e => !decide (Class p k e)) ++ [⟨p, k, v⟩])
  grew : r.2 = true ↔ ∀ e ∈ n.entries, ¬Class p k e
  fits : ∀ q key b, n.Fits q key b → q < p → Agree k key q → bitValueAt k q = b →
    r.1.Fits q key b

section Upsert

variable [Inhabited T] (hK : Contract K M) {p : Nat} (hp : p ≤ M) (k : K) (v : T)
include hK hp

omit hK in
theorem upsertSpec_nil : UpsertSpec M p k v .nil (Node.nil.upsert M p k v) where
  wf := ⟨hp, trivial, trivial, trivial, trivial⟩
  entries := by simp [Node.upsert, leaf, entries_node]
  grew := by simp [Node.upsert]
  fits _ _ _ _ hq ha hb := ⟨hq, ha, hb⟩

omit [Inhabited T] hK in
/-- Case 2 of the source: the node has exactly the new prefix and agrees with `k` on it. -/
theorem upsertSpec_replace {c0 c1 : Node K T} {pl : Nat} {key : K} {inter : Bool} {v0 : T}
    (hw : (Node.node c0 c1 pl key inter v0).WF M) (hpl : pl = p) (ha : Agree key k pl) :
    UpsertSpec M p k v (.node c0 c1 pl key inter v0)
      (.node c0 c1 p k false v, inter) := by
  subst hpl
  -- the children have longer prefixes, so only the node itself can be the entry for `(pl, k)`
  have hkids : ∀ e ∈ c0.entries ++ c1.entries, ¬Class pl k e := hw.not_class_kids
  obtain ⟨hplM, f0, f1, w0, w1⟩ := hw
  have hself : Class pl k (⟨pl, key, v0⟩ : Entry K T) := ⟨rfl, ha⟩
  have hs : (if inter then [] else [(⟨pl, key, v0⟩ : Entry K T)]).filter
      (fun e => !decide (Class pl k e)) = [] := by
    cases inter <;> simp [hself]
  refine ⟨⟨hplM, f0.of_agree ha, f1.of_agree ha, w0, w1⟩, ?_, ?_, ?_⟩
  · rw [entries_node, entries_node, List.filter_append, filter_not_class_of_forall hkids, hs,
      List.nil_append]
    exact List.perm_append_comm
  · dsimp only
    rw [entries_node]
    cases inter
    · simp only [Bool.false_eq_true, false_iff, not_forall, not_not]
      exact ⟨_, by simp, hself⟩
    · simpa using hkids
  · intro _ _ _ _ hq ha' hb
    exact ⟨hq, ha', hb⟩

omit [Inhabited T] hK in
/-- Case 3: the new prefix is shorter than the node's and the keys agree on it. -/
theorem upsertSpec_parent {n : Node K T} {pl : Nat} {key : K} (hw : n.WF M)
    (hroot : ∀ e ∈ n.entries, pl ≤ e.prefixLen ∧ Agree e.key key pl)
    (hf : ∀ b, bitValueAt key p = b → n.Fits p k b) (hlt : p < pl) :
    UpsertSpec M p k v n
      (if bitValueAt key p then .node .nil n p k false v else .node n .nil p k false v, true) := by
  have hnone : ∀ e ∈ n.entries, ¬Class p k e := fun e he hc => by
    have := (hroot e he).1
    exact absurd hc.1 (by omega)
  refine ⟨?_, ?_, by simpa using hnone, fun _ _ _ _ hq ha hb => ?_⟩
  · dsimp only
    split
    next h => exact ⟨hp, trivial, hf true h, trivial, hw⟩
    next h => exact ⟨hp, hf false (by simpa using h), trivial, hw, trivial⟩
  · rw [filter_not_class_of_forall hnone]
    dsimp only
    split
    · rw [entries_node]
      simpa using (List.perm_append_singleton _ _).symm
    · rw [entries_node]
      simpa using (List.perm_append_singleton _ _).symm
  · dsimp only
    split <;> exact ⟨hq, ha, hb⟩

/-- Case 4: the keys part before both prefixes; an intermediate node joins them at the common
prefix `m`. -/
theorem upsertSpec_split {c0 c1 : Node K T} {pl m : Nat} {key : K} {inter : Bool} {v0 : T}
    (hw : (Node.node c0 c1 pl key inter v0).WF M) (hm : m = commonPrefix key k) (hmpl : m < pl)
    (hmp : m < p) (ha : Agree key k m) (hbit : bitValueAt key m ≠ bitValueAt k m) :
    UpsertSpec M p k v (.node c0 c1 pl key inter v0)
      (if bitValueAt k m then .node (.node c0 c1 pl key inter v0) (leaf p k v) m key true default
        else .node (leaf p k v) (.node c0 c1 pl key inter v0) m key true default, true) := by
  have hplM := hw.1
  have hnone : ∀ e ∈ (Node.node c0 c1 pl key inter v0).entries, ¬Class p k e := by
    intro e he hc
    have hb := (hw.entry_extends e he).2 m hmpl
    exact hbit (hb.symm.trans (hc.2 m hmp))
  have hleaf : (leaf p k v : Node K T).WF M := ⟨hp, trivial, trivial, trivial, trivial⟩
  refine ⟨?_, ?_, by simpa using hnone, ?_⟩
  · dsimp only
    cases hk : bitValueAt k m
    · exact ⟨by omega, ⟨hmp, ha.symm, hk⟩, ⟨hmpl, Agree.refl _ _, by simpa [hk] using hbit⟩,
        hleaf, hw⟩
    · exact ⟨by omega, ⟨hmpl, Agree.refl _ _, by simpa [hk] using hbit⟩, ⟨hmp, ha.symm, hk⟩,
        hw, hleaf⟩
  · rw [filter_not_class_of_forall hnone]
    dsimp only
    split
    · rw [entries_node, entries_leaf]
      simp
    · rw [entries_node, entries_leaf]
      simpa using (List.perm_append_singleton _ _).symm
  · -- both keys fit below `(q, key', b)`, so they agree past `q` and the join is below `q`
    intro q key' b hfn hq hak hbk
    obtain ⟨hqpl, hakey, hbkey⟩ := hfn
    have hagree : Agree key k (q + 1) :=
      (hakey.trans hak.symm).succ (hbkey.trans hbk.symm)
    have := hK.le_of_agree (by omega) hagree
    dsimp only
    split <;> exact ⟨by omega, hakey, hbkey⟩

/-- `Upsert` below a well-formed subtree. -/
theorem Node.WF.upsertSpec : ∀ {n : Node K T}, n.WF M → UpsertSpec M p k v n (n.upsert M p k v)
  | .nil, _ => upsertSpec_nil hp k v
  | .node c0 c1 pl key inter v0, hw => by
    have hw' := hw
    obtain ⟨hplM, f0, f1, w0, w1⟩ := hw'
    have hle := prefixMatch_le pl key p k
    by_cases hstop : pl ≠ prefixMatch pl key p k ∨ pl = M ∨ pl = p
    · simp only [Node.upsert, if_pos hstop, upsertAt]
      by_cases hm1 : prefixMatch pl key p k = pl
      · -- the loop stopped on a node matching to its whole prefix: it has the new prefix
        rw [if_pos hm1]
        obtain ⟨_, ha⟩ := (prefixMatch_eq_iff hK hplM).mp hm1
        exact upsertSpec_replace hp k v hw (by omega) ha
      rw [if_neg hm1]
      by_cases hm2 : prefixMatch pl key p k = p
      · rw [if_pos hm2]
        obtain ⟨hlt, ha⟩ := prefixMatch_eq_search hK hp hm2 (by omega)
        rw [hm2]
        exact upsertSpec_parent hp k v hw hw.entry_extends
          (fun b hb => ⟨hlt, ha, hb⟩) hlt
      · rw [if_neg hm2]
        obtain ⟨hcp, hcpl, hcpp, ha, hbit⟩ := prefixMatch_short hK hplM hm1 hm2
        rw [hcp]
        exact upsertSpec_split hK hp k v hw rfl hcpl hcpp ha hbit
    · -- the node matches to its whole prefix, short of `p`: the loop goes down one slot
      simp only [Node.upsert, if_neg hstop]
      have hm : prefixMatch pl key p k = pl := by omega
      obtain ⟨_, ha⟩ := (prefixMatch_eq_iff hK hplM).mp hm
      have hlt : pl < p := by omega
      have hself : ∀ e ∈ (if inter then [] else [(⟨pl, key, v0⟩ : Entry K T)]), ¬Class p k e :=
        not_class_self (by omega)
      cases hb : bitValueAt k pl
      · simp only [Bool.false_eq_true, if_false]
        have ih := w0.upsertSpec
        have hkid : ∀ e ∈ c1.entries, ¬Class p k e :=
          w1.not_class_of_bit f1 hlt (by simp [hb])
        refine ⟨⟨hplM, ih.fits _ _ _ f0 hlt ha.symm hb, f1, ih.wf, w1⟩, ?_, ?_, fun _ _ _ h _ _ _ => h⟩
        · dsimp only
          rw [entries_node, entries_node, List.filter_append, List.filter_append,
            filter_not_class_of_forall hself, filter_not_class_of_forall hkid]
          simp only [List.append_assoc]
          refine List.Perm.append_left _ ?_
          refine (ih.entries.append_right _).trans ?_
          simp only [List.append_assoc]
          exact List.Perm.append_left _ List.perm_append_comm
        · dsimp only
          rw [ih.grew, entries_node]
          simp only [List.mem_append]
          exact ⟨fun h e he => he.elim (hself e) (fun he => he.elim (h e) (hkid e)),
            fun h e he => h e (Or.inr (Or.inl he))⟩
      · simp only [if_true]
        have ih := w1.upsertSpec
        have hkid : ∀ e ∈ c0.entries, ¬Class p k e :=
          w0.not_class_of_bit f0 hlt (by simp [hb])
        refine ⟨⟨hplM, f0, ih.fits _ _ _ f1 hlt ha.symm hb, w0, ih.wf⟩, ?_, ?_, fun _ _ _ h _ _ _ => h⟩
        · dsimp only
          rw [entries_node, entries_node, List.filter_append, List.filter_append,
            filter_not_class_of_forall hself, filter_not_class_of_forall hkid]
          simp only [List.append_assoc]
          exact List.Perm.append_left _ (List.Perm.append_left _ ih.entries)
        · dsimp only
          rw [ih.grew, entries_node]
          simp only [List.mem_append]
          exact ⟨fun h e he => he.elim (hself e) (fun he => he.elim (hkid e) (h e)),
            fun h e he => h e (Or.inr (Or.inr he))⟩

end Upsert

/-! ### Delete -/

/-- The subtree that takes the place of `n` after a removal below it. -/
def Deleted.result (n : Node K T) : Deleted K T → Node K T
  | .notFound => n
  | .leafRemoved => .nil
  | .replaced n' => n'

/-- The result of `Delete`: whether an entry was removed. -/
def Deleted.found : Deleted K T → Bool
  | .notFound => false
  | _ => true

/-- What `Delete` of `(p, k)` does to a subtree `n`: what takes its place is well formed, holds
the entries of `n` less the one for `(p, k)`, is reported found exactly when `n` had that entry,
and fits wherever `n` fits. -/
structure DeleteSpec (M p : Nat) (k : K) (n : Node K T) (d : Deleted K T) : Prop where
  wf : (d.result n).WF M
  entries : (d.result n).entries.Perm (n.entries.filter (fun e => !decide (Class p k e)))
  found : d.found = true ↔ ∃ e ∈ n.entries, Class p k e
  fits : ∀ q key b, n.Fits q key b → (d.result n).Fits q key b

omit [Key K] in
/-- The entries of a node, with those of its child `b` first. -/
theorem entries_node_perm (c0 c1 : Node K T) (pl : Nat) (key : K) (inter : Bool) (v : T)
    (b : Bool) :
    (Node.node c0 c1 pl key inter v).entries.Perm
      ((if inter then [] else [⟨pl, key, v⟩]) ++
        ((child b c0 c1).entries ++ (child (!b) c0 c1).entries)) := by
  rw [entries_node]
  cases b
  · exact List.Perm.refl _
  · exact List.Perm.append_left _ List.perm_append_comm

omit [Key K] in
/-- The entries of a node whose child `b` is replaced by `x`. -/
theorem entries_slot_perm (c0 c1 x : Node K T) (pl : Nat) (key : K) (inter : Bool) (v : T)
    (b : Bool) :
    (if b then Node.node c0 x pl key inter v else .node x c1 pl key inter v).entries.Perm
      ((if inter then [] else [⟨pl, key, v⟩]) ++ (x.entries ++ (child (!b) c0 c1).entries)) := by
  cases b
  · exact List.Perm.refl _
  · exact List.Perm.append_left _ List.perm_append_comm

/-- Replacing the child `b` of a well-formed node by a well-formed subtree that fits that slot
keeps the node well formed. -/
theorem Node.WF.slot {c0 c1 x : Node K T} {pl : Nat} {key : K} {inter : Bool} {v : T}
    {b : Bool} (hw : (Node.node c0 c1 pl key inter v).WF M) (hx : x.WF M)
    (hf : x.Fits pl key b) :
    (if b then Node.node c0 x pl key inter v else .node x c1 pl key inter v).WF M := by
  obtain ⟨hplM, f0, f1, w0, w1⟩ := hw
  cases b
  · exact ⟨hplM, hf, f1, hx, w1⟩
  · exact ⟨hplM, f0, hf, w0, hx⟩

section Delete

variable [Inhabited T] {p : Nat} {k : K}

omit [Inhabited T] in
/-- A subtree without the entry is left as it is. -/
theorem deleteSpec_notFound {n : Node K T} (hw : n.WF M) (hnone : ∀ e ∈ n.entries, ¬Class p k e) :
    DeleteSpec M p k n .notFound where
  wf := hw
  entries := by rw [Deleted.result, filter_not_class_of_forall hnone]
  found := by simpa [Deleted.found] using hnone
  fits _ _ _ h := h

/-- What `deleteAt` leaves in place of a node: its two subtrees, under an intermediate node only
when both are there. -/
theorem deleteAt_spec {c0 c1 : Node K T} {pl : Nat} {key : K} {inter : Bool} {v : T}
    (hw : (Node.node c0 c1 pl key inter v).WF M) :
    (deleteAt c0 c1 pl key).found = true ∧
      ((deleteAt c0 c1 pl key).result (.node c0 c1 pl key inter v)).WF M ∧
      ((deleteAt c0 c1 pl key).result (.node c0 c1 pl key inter v)).entries.Perm
        (c0.entries ++ c1.entries) ∧
      ∀ q key' b, (Node.node c0 c1 pl key inter v).Fits q key' b →
        ((deleteAt c0 c1 pl key).result (.node c0 c1 pl key inter v)).Fits q key' b := by
  obtain ⟨hplM, f0, f1, w0, w1⟩ := hw
  cases c0 with
  | nil =>
    cases c1 with
    | nil => exact ⟨rfl, trivial, List.Perm.refl _, fun _ _ _ _ => trivial⟩
    | node _ _ _ _ _ _ => exact ⟨rfl, w1, List.Perm.refl _, fun _ _ _ h => Node.Fits.child h f1⟩
  | node _ _ _ _ _ _ =>
    cases c1 with
    | nil =>
      exact ⟨rfl, w0, by rw [entries_nil, List.append_nil]; exact List.Perm.refl _,
        fun _ _ _ h => Node.Fits.child h f0⟩
    | node _ _ _ _ _ _ => exact ⟨rfl, ⟨hplM, f0, f1, w0, w1⟩, List.Perm.refl _, fun _ _ _ h => h⟩

/-- The node holding the entry: the three cases of the source are those of `deleteAt_spec`. -/
theorem deleteSpec_at {c0 c1 : Node K T} {pl : Nat} {key : K} {v : T}
    (hw : (Node.node c0 c1 pl key false v).WF M) (hpl : pl = p) (ha : Agree key k pl) :
    DeleteSpec M p k (.node c0 c1 pl key false v) (deleteAt c0 c1 pl key) := by
  subst hpl
  obtain ⟨hfound, hwf, hperm, hfits⟩ := deleteAt_spec hw
  have hself : Class pl k (⟨pl, key, v⟩ : Entry K T) := ⟨rfl, ha⟩
  refine ⟨hwf, ?_, ?_, hfits⟩
  · rw [entries_node, List.filter_append, filter_not_class_of_forall hw.not_class_kids]
    simpa [hself] using hperm
  · exact iff_of_true hfound ⟨_, by simp [entries_node], hself⟩

omit [Inhabited T] in
/-- The parent of the node the loop went on to, in the slot `b` of `k`: it keeps its other child
whole, and relinks what the removal left of the child `b`. -/
theorem deleteSpec_relink {c0 c1 : Node K T} {pl : Nat} {key : K} {inter : Bool} {v : T}
    {b : Bool} {d : Deleted K T} (hw : (Node.node c0 c1 pl key inter v).WF M) (hlt : pl < p)
    (hb : bitValueAt k pl = b) (ih : DeleteSpec M p k (child b c0 c1) d) :
    DeleteSpec M p k (.node c0 c1 pl key inter v) (relink b c0 c1 pl key inter v d) := by
  have hw' := hw
  obtain ⟨hplM, f0, f1, w0, w1⟩ := hw'
  have hself : ∀ e ∈ (if inter then [] else [(⟨pl, key, v⟩ : Entry K T)]), ¬Class p k e :=
    not_class_self (by omega)
  have hfb : (child b c0 c1).Fits pl key b := by cases b <;> assumption
  have hfs : (child (!b) c0 c1).Fits pl key (!b) := by cases b <;> assumption
  -- the sibling lies off the path of `k`, so it keeps all its entries
  have hsib : ∀ e ∈ (child (!b) c0 c1).entries, ¬Class p k e := by
    cases b
    · exact w1.not_class_of_bit f1 hlt (by simp [hb])
    · exact w0.not_class_of_bit f0 hlt (by simp [hb])
  have hfilt : ((Node.node c0 c1 pl key inter v).entries.filter
      fun e => !decide (Class p k e)).Perm ((if inter then [] else [⟨pl, key, v⟩]) ++
        ((child b c0 c1).entries.filter (fun e => !decide (Class p k e)) ++
          (child (!b) c0 c1).entries)) := by
    refine ((entries_node_perm c0 c1 pl key inter v b).filter _).trans ?_
    rw [List.filter_append, List.filter_append, filter_not_class_of_forall hself,
      filter_not_class_of_forall hsib]
  have hmem : ∀ e ∈ (child b c0 c1).entries, e ∈ (Node.node c0 c1 pl key inter v).entries :=
    fun e he => (entries_node_perm c0 c1 pl key inter v b).symm.subset (by simp [he])
  -- the parent stays, with what is left of the child `b` in its slot
  have hslot : ∀ x : Node K T, x.WF M → x.Fits pl key b →
      x.entries.Perm ((child b c0 c1).entries.filter fun e => !decide (Class p k e)) →
      (∃ e ∈ (child b c0 c1).entries, Class p k e) →
      DeleteSpec M p k (.node c0 c1 pl key inter v)
        (.replaced (if b then .node c0 x pl key inter v else .node x c1 pl key inter v)) := by
    intro x hx hf hperm ⟨e, he, hc⟩
    refine ⟨hw.slot hx hf, ?_, iff_of_true rfl ⟨e, hmem e he, hc⟩, ?_⟩
    · exact (entries_slot_perm c0 c1 x pl key inter v b).trans
        (((hperm.append_right _).append_left _).trans hfilt.symm)
    · intro q key' b' h
      cases b <;> exact h
  cases d with
  | notFound =>
    have hkid : ∀ e ∈ (child b c0 c1).entries, ¬Class p k e := by
      simpa [Deleted.found] using ih.found
    refine deleteSpec_notFound hw fun e he => ?_
    rcases List.mem_append.mp ((entries_node_perm c0 c1 pl key inter v b).subset he) with hs | hc
    · exact hself e hs
    · exact (List.mem_append.mp hc).elim (hkid e) (hsib e)
  | replaced n' => exact hslot n' ih.wf (ih.fits _ _ _ hfb) ih.entries (ih.found.mp rfl)
  | leafRemoved =>
    have hgone : (child b c0 c1).entries.filter (fun e => !decide (Class p k e)) = [] :=
      ih.entries.nil_eq.symm
    cases inter
    · exact hslot .nil trivial trivial (by rw [hgone]; exact List.Perm.refl _) (ih.found.mp rfl)
    · -- an intermediate parent holds no entry of its own and gives way to the sibling
      obtain ⟨e, he, hc⟩ := ih.found.mp rfl
      refine ⟨?_, ?_, iff_of_true rfl ⟨e, hmem e he, hc⟩, fun _ _ _ h => Node.Fits.child h hfs⟩
      · cases b
        · exact w1
        · exact w0
      · show (child (!b) c0 c1).entries.Perm _
        rw [hgone] at hfilt
        simpa using hfilt.symm

/-- `Delete` below a well-formed subtree. -/
theorem Node.WF.deleteSpec (hK : Contract K M) (hp : p ≤ M) (k : K) :
    ∀ {n : Node K T}, n.WF M → DeleteSpec M p k n (n.delete p k)
  | .nil, _ => deleteSpec_notFound trivial (by simp)
  | .node c0 c1 pl key inter v, hw => by
    have hplM := hw.1
    have hle := prefixMatch_le pl key p k
    by_cases hstop : pl ≠ prefixMatch pl key p k ∨ pl = p
    · simp only [Node.delete, if_pos hstop]
      by_cases hat : pl ≠ p ∨ pl ≠ prefixMatch pl key p k ∨ inter = true
      · rw [if_pos hat]
        refine deleteSpec_notFound hw ?_
        by_cases hm : prefixMatch pl key p k < pl
        · exact hw.not_class_of_mismatch hK hm
        -- the node has the prefix asked for but is an intermediate node
        have hpl : pl = p := by omega
        have hinter : inter = true := (hat.resolve_left (by omega)).resolve_left (by omega)
        subst hpl hinter
        intro e he
        rw [entries_node] at he
        exact hw.not_class_kids e (by simpa using he)
      · rw [if_neg hat]
        obtain ⟨hpl, hm, hinter⟩ : pl = p ∧ pl = prefixMatch pl key p k ∧ inter = false := by
          simpa using hat
        obtain ⟨_, ha⟩ := (prefixMatch_eq_iff hK hplM).mp hm.symm
        subst hinter
        exact deleteSpec_at hw hpl ha
    · -- the node matches to its whole prefix, short of `p`: the loop goes down one slot
      simp only [Node.delete, if_neg hstop]
      have hlt : pl < p := by omega
      cases hb : bitValueAt k pl
      · simp only [Bool.false_eq_true, if_false]
        exact deleteSpec_relink hw hlt hb (hw.2.2.2.1.deleteSpec hK hp k)
      · simp only [if_true]
        exact deleteSpec_relink hw hlt hb (hw.2.2.2.2.deleteSpec hK hp k)

end Delete

end Cilium.Bitlpm
