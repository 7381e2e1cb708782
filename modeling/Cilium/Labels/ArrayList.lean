import Cilium.Policy.Selector
import Cilium.Policy.Origin

/-! Label arrays of `pkg/labels` (`array.go`, `arraylist.go`): their equality, order and text,
and `LabelArrayList.MergeSorted`, which merges two sorted lists by inserting in place.  The text
of a list is kept as the label arrays it writes, as `Policy.LabelArrayListString` keeps it, so
that `Policy.mergeSortedLabelArrayListStrings` merges the texts of two lists. -/

namespace Cilium

open Labels

/-- `Label.IsAnySource`. -/
def Label.isAnySource (l : Label) : Bool := l.source == labelSourceAny

/-- `Label.Equals`: a label of source any equals a label of any source with its key and value. -/
def Label.equals (l b : Label) : Bool :=
  if !l.isAnySource && l.source != b.source then false
  else l.key == b.key && l.value == b.value

/-- `Label.BuildString`. -/
def Label.buildString (l : Label) : String :=
  l.source ++ ":" ++ l.key ++ if l.value.length != 0 then "=" ++ l.value else ""

/-- `labels.LabelArray`. -/
abbrev LabelArray := List Label

/-- `LabelArray.Equals`. -/
def LabelArray.equals (ls b : LabelArray) : Bool :=
  ls.length == b.length && (ls.zip b).all fun p => p.1.equals p.2

/-- `LabelArray.Less`: the first label that differs decides, by key, then value, then source;
a proper prefix comes first. -/
def LabelArray.less : LabelArray → LabelArray → Bool
  | l :: ls, b :: bs =>
    if l.key < b.key then true
    else if l.key > b.key then false
    else if l.value < b.value then true
    else if l.value > b.value then false
    else if l.source < b.source then true
    else if l.source > b.source then false
    else LabelArray.less ls bs
  | ls, bs => ls.length < bs.length

/-- `LabelArray.BuildString`. -/
def LabelArray.buildString (ls : LabelArray) : String :=
  "[" ++ " ".intercalate (ls.map Label.buildString) ++ "]"

/-- A label array as its constructors leave it: sorted by key. -/
def LabelArray.Sorted (ls : LabelArray) : Prop := ls.Pairwise fun l m => l.key ≤ m.key

instance (ls : LabelArray) : Decidable ls.Sorted := by unfold LabelArray.Sorted; infer_instance

/-- `labels.LabelArrayList`. -/
abbrev LabelArrayList := List LabelArray

/-- `LabelArrayList.ArrayListString`, as the label arrays it writes. -/
def LabelArrayList.arrayListString (ls : LabelArrayList) : Policy.LabelArrayListString :=
  ls.map LabelArray.buildString

/-- The input condition of both merges: every array sorted, and the list strictly increasing in
`less`, so without duplicates. -/
def LabelArrayList.SortedSet (ls : LabelArrayList) : Prop :=
  (∀ la ∈ ls, la.Sorted) ∧ ls.Pairwise fun a b => a.less b = true

instance (ls : LabelArrayList) : Decidable ls.SortedSet := by
  unfold LabelArrayList.SortedSet; infer_instance

/-- The loop of `MergeSorted`: `j` walks the receiver, which grows by each array of `incl`
inserted before `merged[j]`; an array of `incl` that equals `merged[j]` is skipped. -/
def LabelArrayList.mergeSortedLoop (incl : LabelArrayList) (i j : ℕ) (merged : LabelArrayList) :
    ℕ × LabelArrayList :=
  if h : i < incl.length ∧ j < merged.length then
    if incl[i].less merged[j] then
      mergeSortedLoop incl (i + 1) (j + 1) (merged.insertIdx j incl[i])
    else if incl[i].equals merged[j] then mergeSortedLoop incl (i + 1) (j + 1) merged
    else mergeSortedLoop incl i (j + 1) merged
  else (i, merged)
termination_by (incl.length - i) + (merged.length - j)
decreasing_by
  · rw [List.length_insertIdx_of_le_length (Nat.le_of_lt h.2)]
    omega
  · omega
  · omega

/-- `LabelArrayList.MergeSorted`; what is left of `incl` when the receiver is exhausted is
appended. -/
def LabelArrayList.mergeSorted (lsp incl : LabelArrayList) : LabelArrayList :=
  let (i, merged) := mergeSortedLoop incl 0 0 lsp
  if i < incl.length then merged ++ incl.drop i else merged

/-- When the first array of b is passed and the next one is above the current array of a, the
outer loop of the text merge moves past both current arrays without writing them; the list merge
keeps them, and the merge of rule origins depends on the order of its arguments. -/
theorem mergeSortedLabelArrayListStrings_drops_arrays :
    let L1 : LabelArrayList := [[⟨"c", "", "k8s"⟩], [⟨"e", "", "k8s"⟩]]
    let L2 : LabelArrayList := [[⟨"a", "", "k8s"⟩], [⟨"d", "", "k8s"⟩]]
    L1.SortedSet ∧ L2.SortedSet ∧
      L1.mergeSorted L2 =
        [[⟨"a", "", "k8s"⟩], [⟨"c", "", "k8s"⟩], [⟨"d", "", "k8s"⟩], [⟨"e", "", "k8s"⟩]] ∧
      (L1.mergeSorted L2).arrayListString = ["[k8s:a]", "[k8s:c]", "[k8s:d]", "[k8s:e]"] ∧
      Policy.mergeSortedLabelArrayListStrings L1.arrayListString L2.arrayListString =
        ["[k8s:a]", "[k8s:e]"] ∧
      (Policy.ruleOrigin.merge (Policy.makeRuleOrigin L1.arrayListString ["r1"])
        (Policy.makeRuleOrigin L2.arrayListString ["r2"])).labelsString = ["[k8s:a]", "[k8s:e]"] ∧
      (Policy.ruleOrigin.merge (Policy.makeRuleOrigin L2.arrayListString ["r2"])
        (Policy.makeRuleOrigin L1.arrayListString ["r1"])).labelsString = ["[k8s:a]", "[k8s:c]"] := by
  decide +kernel

end Cilium
