import Mathlib.Data.List.Dedup
import Mathlib.Data.List.Sort

/-! The rule origin of a policy map entry (`pkg/policy/origin.go`): the labels of the rules an
entry derives from and their log lines, interned as a `unique.Handle[RuleMeta]`.  Interned
handles are equal exactly when their values are, so a handle is its value, and `none` is the
zero handle.  The two string encodings of the source are kept as the lists they encode: a
`stringList` as the items its `List` method returns (no log line holds the separator `\x1f`),
and a `LabelArrayListString` as its label arrays, each written with its brackets, in order. -/

namespace Cilium.Policy

/-- `stringList`, as the items of `strings.Split` at the separator. -/
abbrev stringList := List String

/-- `labels.LabelArrayListString`, as its label arrays. -/
abbrev LabelArrayListString := List String

/-- `newStringList`: the items sorted and joined.  No items join to the empty string, which
splits into one empty item. -/
def newStringList : List String → stringList
  | [] => [""]
  | items => items.insertionSort (· ≤ ·)

/-- `mergeStringList`: the sorted union of the items, unless one side is empty. -/
def mergeStringList (a b : stringList) : stringList :=
  if a = [""] then b
  else if b = [""] then a
  else newStringList (a ++ b).dedup

mutual

/-- The outer loop of `MergeSortedLabelArrayListStrings`: take the next array of each side, or
write what remains of the other side. -/
def mergeLoop : Nat → LabelArrayListString → LabelArrayListString → LabelArrayListString
  | 0, _, _ => []
  | fuel + 1, as, bs =>
    match as, bs with
    | [], bs => bs
    | a :: as, [] => a :: as
    | a :: as, b :: bs => addLesserA fuel a as b bs

/-- "Add lesser label arrays from 'a'": write the arrays of `a` below `b`. -/
def addLesserA : Nat → String → LabelArrayListString → String → LabelArrayListString →
    LabelArrayListString
  | 0, _, _, _, _ => []
  | fuel + 1, a, as, b, bs =>
    if a < b then
      a :: match as with
        | [] => b :: bs
        | a' :: as' => addLesserA fuel a' as' b bs
    else addLesserB fuel a as b bs

/-- "Add lesser values from 'b'", then the array both sides have; the loop then takes the next
array of both sides, whether or not the current ones were written. -/
def addLesserB : Nat → String → LabelArrayListString → String → LabelArrayListString →
    LabelArrayListString
  | 0, _, _, _, _ => []
  | fuel + 1, a, as, b, bs =>
    if b < a then
      b :: match bs with
        | [] => a :: as
        | b' :: bs' => addLesserB fuel a as b' bs'
    else (if a = b then [b] else []) ++ mergeLoop fuel as bs

end

/-- `labels.MergeSortedLabelArrayListStrings`.  Every three rounds of the loops take at least one
array, so the fuel never runs out. -/
def mergeSortedLabelArrayListStrings (la lb : LabelArrayListString) : LabelArrayListString :=
  mergeLoop (3 * (la.length + lb.length) + 3) la lb

/-- `RuleMeta`. -/
structure RuleMeta where
  labels : LabelArrayListString
  log : stringList
  deriving DecidableEq, Repr

/-- `ruleOrigin`, an interned `RuleMeta`; `none` is the zero handle. -/
abbrev ruleOrigin := Option RuleMeta

/-- `ruleOrigin.LabelsString`. -/
def ruleOrigin.labelsString : ruleOrigin → LabelArrayListString
  | none => []
  | some rm => rm.labels

/-- `ruleOrigin.LogString`, which its callers only compare: the JSON text of the log items is
replaced by the items, which it encodes one to one, and the empty text of the zero handle by
`none`. -/
def ruleOrigin.logString (ro : ruleOrigin) : Option stringList := ro.map (·.log)

/-- `makeRuleOrigin`. -/
def makeRuleOrigin (lbls : LabelArrayListString) (logs : List String) : ruleOrigin :=
  some ⟨lbls, newStringList logs⟩

/-- `makeSingleRuleOrigin`, with the label array as its string. -/
def makeSingleRuleOrigin (lbls : String) (log : String) : ruleOrigin := makeRuleOrigin [lbls] [log]

/-- `NilRuleOrigin`: the labels `[]` and an empty log. -/
def nilRuleOrigin : ruleOrigin := some ⟨["[]"], [""]⟩

/-- `ruleOrigin.Merge`. -/
def ruleOrigin.merge (ro other : ruleOrigin) : ruleOrigin :=
  if ro = other then ro
  else
    match ro, other with
    | none, _ => other
    | _, none => ro
    | some a, some b =>
      some ⟨mergeSortedLabelArrayListStrings a.labels b.labels, mergeStringList a.log b.log⟩

end Cilium.Policy
