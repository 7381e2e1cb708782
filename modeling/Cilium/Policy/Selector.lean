import Cilium.Identity.Labels

/-! The CIDR selectors of `pkg/policy/types/selector.go` and the requirements they are made of
(`requirements.go`), over the labels of `pkg/labels`.  A label here carries the prefix that
`getCIDRLabel` caches in its `cidr` field, which `HasKey` compares by containment and
`hasCIDRLabel` reads; every CIDR label of the model carries one, so `HasKey` never has to parse a
key.  The CIDRs of a rule are kept as the prefixes they parse to, and a rule is the form with a
`Cidr`: the forms that name a CIDR group are left out. -/

namespace Cilium

open Cilium.Ipcache

/-- `Addr.Is4`. -/
def Ipcache.Addr.is4 : Addr → Bool
  | .v4 _ => true
  | .v6 _ => false

/-- `netip.Prefix.Contains`: a valid prefix holds the addresses of its family whose first `bits`
bits are its own. -/
def Prefix.contains (p : Prefix) (ip : Addr) : Bool :=
  p.isValid && match p.addr, ip with
    | .v4 a, .v4 b => (a ^^^ b) >>> (32 - p.bits) == 0
    | .v6 a, .v6 b => (a ^^^ b) >>> (128 - p.bits) == 0
    | _, _ => false

/-- `q` lies within `p`: no shorter, and its address in `p`. -/
def Prefix.within (q p : Prefix) : Bool := p.bits ≤ q.bits && p.contains q.addr

/-- `DaemonConfig.PolicyCIDRMatchesPods`. -/
def DaemonConfig.policyCIDRMatchesPods (c : DaemonConfig) : Bool :=
  c.policyCIDRMatchMode.contains "pods"

namespace Labels

def labelSourceAny : String := "any"

end Labels

namespace Policy

open Labels

/-- A `labels.Label` with the prefix cached in its `cidr` field, which every CIDR label has. -/
structure CachedLabel where
  label : Label
  cidr : Option Prefix
  cached : label.source = labelSourceCIDR → cidr.isSome
  deriving DecidableEq

/-- The label of `getCIDRLabel`, with its prefix. -/
def cidrLabel (p : Prefix) : CachedLabel := ⟨getCIDRLabel p, some p, fun _ => rfl⟩

theorem source_getCIDRLabel (p : Prefix) : (getCIDRLabel p).source = labelSourceCIDR := rfl

theorem source_getWorldLabel (cfg : DaemonConfig) (a : Addr) :
    (getWorldLabel cfg a).source = labelSourceReserved := by
  cases a <;> simp only [getWorldLabel] <;> split <;> rfl

/-- The world label of an address's family, which has no prefix. -/
def worldLabelOf (cfg : DaemonConfig) (a : Addr) : CachedLabel :=
  ⟨getWorldLabel cfg a, none, fun h => absurd (h.symm.trans (source_getWorldLabel cfg a)) (by decide)⟩

/-- `Label.HasKey`: the sources agree unless the target's is `any`; two CIDR labels compare by
the containment of their prefixes, any other two by key. -/
def CachedLabel.hasKey (l target : CachedLabel) : Bool :=
  if target.label.source != labelSourceAny && l.label.source != target.label.source then false
  else if target.label.source == labelSourceCIDR && l.label.source == labelSourceCIDR then
    match target.cidr, l.cidr with
    | some tc, some lc => tc.bits ≤ lc.bits && tc.contains lc.addr
    -- a CIDR label always carries its prefix
    | _, _ => false
  else l.label.key == target.label.key

/-- `selection.Operator`. -/
inductive Operator where
  | «in»
  | equals
  | doubleEquals
  | notIn
  | notEquals
  | «exists»
  | doesNotExist
  | greaterThan
  | lessThan
  deriving DecidableEq, Repr

/-- `types.Requirement`: a label key, an operator and the values it compares with. -/
structure Requirement where
  key : CachedLabel
  operator : Operator
  values : List String

/-- `NewExistRequirement`. -/
def newExistRequirement (lbl : CachedLabel) : Requirement := ⟨lbl, .exists, []⟩

/-- `NewExceptRequirement`. -/
def newExceptRequirement (lbl : CachedLabel) : Requirement := ⟨lbl, .doesNotExist, []⟩

/-- `LabelArray.LookupLabel`: the value of the first label that has the key. -/
def lookupLabel (ls : List CachedLabel) (key : CachedLabel) : Option String :=
  (ls.find? (·.hasKey key)).map (·.label.value)

/-- `MatchesRequirement`.  The numeric comparisons parse with `String.toInt?`, without the 64-bit
range of `strconv.ParseInt`. -/
def matchesRequirement (r : Requirement) (ls : List CachedLabel) : Bool :=
  let v := lookupLabel ls r.key
  match r.operator with
  | .in | .equals | .doubleEquals =>
    match v with
    | some val => r.values.contains val
    | none => false
  | .notIn | .notEquals =>
    match v with
    | some val => !r.values.contains val
    | none => true
  | .exists => v.isSome
  | .doesNotExist => v.isNone
  | .greaterThan | .lessThan =>
    match v.bind String.toInt?, r.values with
    | some lsValue, [rv] =>
      match rv.toInt? with
      | some rValue =>
        (r.operator == .greaterThan && decide (lsValue > rValue)) ||
          (r.operator == .lessThan && decide (lsValue < rValue))
      | none => false
    | _, _ => false

/-- `LabelArray.Labels`: the labels by key, a later one replacing an earlier one of its key. -/
def labelsOf (ls : List CachedLabel) : AList fun _ : String => CachedLabel :=
  ls.foldl (fun m l => m.insert l.label.key l) ∅

section LabelsOf

variable (lbls : AList fun _ : String => CachedLabel)

def hasLabelWithKey (key : String) : Bool := (lbls.lookup key).isSome

/-- `Labels.HasWorldLabel`. -/
def hasWorldLabel : Bool :=
  hasLabelWithKey lbls idNameWorld || hasLabelWithKey lbls idNameWorldIPv4 ||
    hasLabelWithKey lbls idNameWorldIPv6

/-- `hasCIDRLabel`: some label carries a valid prefix of the family asked for. -/
def hasCIDRLabel (is4 : Bool) : Bool :=
  lbls.entries.any fun s => match s.2.cidr with
    | some pfx => pfx.isValid && pfx.addr.is4 == is4
    | none => false

end LabelsOf

/-- `matchesCIDRWildcard`: with pods selectable, a requirement on a world label counts as met by
labels that carry a CIDR label of an enabled family the world label stands for. -/
def matchesCIDRWildcard (cfg : DaemonConfig) (req : Requirement)
    (lbls : AList fun _ : String => CachedLabel) : Bool :=
  if !cfg.policyCIDRMatchesPods || req.key.label.source != labelSourceReserved then false
  else
    let isIPv4Req := req.key.label.key == idNameWorldIPv4 || req.key.label.key == idNameWorld
    let isIPv6Req := req.key.label.key == idNameWorldIPv6 || req.key.label.key == idNameWorld
    if cfg.enableIPv4 && isIPv4Req && hasCIDRLabel lbls true then true
    else if cfg.enableIPv6 && isIPv6Req && hasCIDRLabel lbls false then true
    else false

/-- `CIDRSelector`, of a rule with a `Cidr`: the requirements that `Matches` checks. -/
structure CIDRSelector where
  requirements : List Requirement

/-- `CIDRSelector.Matches`: labels of the world, of a node when nodes are selectable, or of
anything else when pods are, that meet every requirement, or its wildcard. -/
def CIDRSelector.matches (cfg : DaemonConfig) (p : CIDRSelector) (ls : List CachedLabel) :
    Bool :=
  let lbls := labelsOf ls
  let isWorld := hasWorldLabel lbls
  let isNode := hasLabelWithKey lbls idNameHost || hasLabelWithKey lbls idNameRemoteNode
  let allowed := isWorld || (isNode && cfg.policyCIDRMatchesNodes) ||
    (!isWorld && !isNode && cfg.policyCIDRMatchesPods)
  if !allowed then false
  else p.requirements.all fun req => matchesCIDRWildcard cfg req lbls || matchesRequirement req ls

/-- `IPStringToLabel`, on the prefix its text parses to: the CIDR label, or for an empty prefix
the world label of its family. -/
def ipStringToLabel (cfg : DaemonConfig) (p : Prefix) : CachedLabel :=
  if 0 < p.bits then cidrLabel p else worldLabelOf cfg p.addr

/-- `GetCIDRLabelArray`: the CIDR label, unless the prefix is empty, then the world label. -/
def getCIDRLabelArray (cfg : DaemonConfig) (p : Prefix) : List CachedLabel :=
  (if 0 < p.bits then [cidrLabel p] else []) ++ [worldLabelOf cfg p.addr]

/-- A `CIDRRule` with a `Cidr`, and its `ExceptCIDRs`. -/
structure CIDRRule where
  cidr : Prefix
  exceptCIDRs : List Prefix

/-- The exception loop of `CIDRRule.sanitize` (`rule_validation.go`), on parsed prefixes: every
exception lies within the rule's CIDR, of the same family. -/
def CIDRRule.sanitize (c : CIDRRule) : Bool := c.exceptCIDRs.all fun e => e.within c.cidr

/-- `newCIDRSelectorFromRequirements`: one `DoesNotExist` requirement per exception. -/
def newCIDRSelectorFromRequirements (cfg : DaemonConfig) (reqs : List Requirement)
    (except : List Prefix) : CIDRSelector :=
  ⟨reqs ++ except.map fun exCIDR => newExceptRequirement (ipStringToLabel cfg exCIDR)⟩

/-- `NewCIDRSelector`. -/
def newCIDRSelector (cfg : DaemonConfig) (cidr : Prefix) (except : List Prefix) : CIDRSelector :=
  newCIDRSelectorFromRequirements cfg [newExistRequirement (ipStringToLabel cfg cidr)] except

/-- `newCIDRRuleSelector`, for a rule with a `Cidr`. -/
def newCIDRRuleSelector (cfg : DaemonConfig) (rule : CIDRRule) : CIDRSelector :=
  newCIDRSelector cfg rule.cidr rule.exceptCIDRs

/-! ### What the selector of a rule matches -/

section Matches

variable {cfg : DaemonConfig}

theorem hasKey_cidrLabel (p q : Prefix) : (cidrLabel p).hasKey (cidrLabel q) = p.within q := by
  simp [CachedLabel.hasKey, cidrLabel, getCIDRLabel, Prefix.within]

theorem hasKey_worldLabelOf_cidrLabel (a : Addr) (q : Prefix) :
    (worldLabelOf cfg a).hasKey (cidrLabel q) = false := by
  simp only [CachedLabel.hasKey, worldLabelOf, cidrLabel, source_getWorldLabel,
    source_getCIDRLabel]
  rw [if_pos (by decide)]

theorem hasKey_cidrLabel_worldLabelOf (p : Prefix) (a : Addr) :
    (cidrLabel p).hasKey (worldLabelOf cfg a) = false := by
  simp only [CachedLabel.hasKey, worldLabelOf, cidrLabel, source_getWorldLabel,
    source_getCIDRLabel]
  rw [if_pos (by decide)]

/-- With a family enabled, the world labels of two addresses have one key exactly when the
addresses are of one family. -/
theorem hasKey_worldLabelOf (hfam : cfg.enableIPv4 = true ∨ cfg.enableIPv6 = true) (a b : Addr) :
    (worldLabelOf cfg a).hasKey (worldLabelOf cfg b) = (a.is4 == b.is4) := by
  simp only [CachedLabel.hasKey, worldLabelOf, source_getWorldLabel]
  rw [if_neg (by decide), if_neg (by decide)]
  -- the keys per family and per enabled families
  cases a <;> cases b <;> cases h4 : cfg.enableIPv4 <;> cases h6 : cfg.enableIPv6 <;>
    simp only [h4, h6, Bool.false_eq_true, or_self] at hfam <;>
    simp only [getWorldLabel, h4, h6, Addr.is4, if_true, if_false, Bool.false_eq_true] <;> decide

/-- An empty prefix holds exactly the addresses of its family. -/
theorem within_of_bits_eq_zero (p : Prefix) {q : Prefix} (hq : q.bits = 0) :
    p.within q = (q.addr.is4 == p.addr.is4) := by
  obtain ⟨qa, qb⟩ := q
  obtain ⟨pa, pb⟩ := p
  subst hq
  cases qa <;> cases pa <;>
    simp [Prefix.within, Prefix.contains, Prefix.isValid, Addr.is4, Addr.bitLen,
      BitVec.ushiftRight_eq_zero]

theorem isSome_lookupLabel (ls : List CachedLabel) (key : CachedLabel) :
    (lookupLabel ls key).isSome = ls.any (·.hasKey key) := by
  induction ls with
  | nil => rfl
  | cons l ls ih =>
    simp only [lookupLabel, Option.isSome_map] at ih ⊢
    cases h : l.hasKey key <;> simp [h, ih]

/-- The label of a rule's CIDR is found in the labels of a non-empty prefix exactly when the
prefix lies within the CIDR. -/
theorem lookupLabel_ipStringToLabel (hfam : cfg.enableIPv4 = true ∨ cfg.enableIPv6 = true)
    (p q : Prefix) (hp : 0 < p.bits) :
    (lookupLabel (getCIDRLabelArray cfg p) (ipStringToLabel cfg q)).isSome = p.within q := by
  rw [isSome_lookupLabel, getCIDRLabelArray, if_pos hp, ipStringToLabel]
  split
  · simp [hasKey_cidrLabel, hasKey_worldLabelOf_cidrLabel]
  · rw [within_of_bits_eq_zero p (by omega)]
    simp [hasKey_cidrLabel_worldLabelOf, hasKey_worldLabelOf hfam, Bool.beq_comm]

/-- The labels of a prefix carry its world label. -/
theorem hasWorldLabel_getCIDRLabelArray (p : Prefix) :
    hasWorldLabel (labelsOf (getCIDRLabelArray cfg p)) = true := by
  have hkey : (getWorldLabel cfg p.addr).key = idNameWorld ∨
      (getWorldLabel cfg p.addr).key = idNameWorldIPv4 ∨
      (getWorldLabel cfg p.addr).key = idNameWorldIPv6 := by
    cases p.addr <;> simp only [getWorldLabel] <;> split <;> simp [worldLabel, worldLabelV4, worldLabelV6]
  -- the world label is the last one inserted, so its key is found
  have hlast : hasLabelWithKey (labelsOf (getCIDRLabelArray cfg p))
      (getWorldLabel cfg p.addr).key = true := by
    simp only [hasLabelWithKey, labelsOf, getCIDRLabelArray, List.foldl_append, List.foldl_cons,
      List.foldl_nil, worldLabelOf, AList.lookup_insert, Option.isSome_some]
  simp only [hasWorldLabel]
  rcases hkey with h | h | h <;> simp [← h, hlast]

/-- Unless pods are selectable, the selector of a rule matches the labels of a non-empty prefix
exactly when the prefix lies within the rule's CIDR and within none of its exceptions. -/
theorem newCIDRRuleSelector_matches (hfam : cfg.enableIPv4 = true ∨ cfg.enableIPv6 = true)
    (hpods : cfg.policyCIDRMatchesPods = false) (rule : CIDRRule) (p : Prefix) (hp : 0 < p.bits) :
    (newCIDRRuleSelector cfg rule).matches cfg (getCIDRLabelArray cfg p) =
      (p.within rule.cidr && rule.exceptCIDRs.all fun e => !p.within e) := by
  have hwild : ∀ req lbls, matchesCIDRWildcard cfg req lbls = false := by
    intro req lbls
    simp [matchesCIDRWildcard, hpods]
  simp only [CIDRSelector.matches, hasWorldLabel_getCIDRLabelArray, Bool.true_or, Bool.not_true,
    Bool.false_eq_true, if_false, newCIDRRuleSelector, newCIDRSelector,
    newCIDRSelectorFromRequirements, hwild, Bool.false_or, List.all_append, List.all_cons,
    List.all_nil, Bool.and_true, List.all_map]
  simp only [matchesRequirement, newExistRequirement, newExceptRequirement, Function.comp_def,
    ← Option.not_isSome, lookupLabel_ipStringToLabel hfam p _ hp]

end Matches

/-- With pods selectable, an empty exception is ignored: the selector of `0.0.0.0/0` except
`0.0.0.0/0`, a rule that `sanitize` accepts, matches the labels of `10.0.0.0/16`, which lies
within the exception. -/
theorem newCIDRRuleSelector_ignores_empty_except :
    let cfg : DaemonConfig := ⟨true, false, ["pods"], false⟩
    let rule : CIDRRule := ⟨⟨.v4 0, 0⟩, [⟨.v4 0, 0⟩]⟩
    let p : Prefix := ⟨.v4 0x0a000000, 16⟩
    rule.sanitize = true ∧ (newCIDRRuleSelector cfg rule).matches cfg (getCIDRLabelArray cfg p) = true ∧
      p.within ⟨.v4 0, 0⟩ = true := by
  decide

end Policy

end Cilium
