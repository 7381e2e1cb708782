import Cilium.Policy.Insert
import Cilium.Policy.PortRange
import Cilium.Lib.LowByte

/-! `L4Filter.toMapState` (`pkg/policy/l4.go`): the keys and entries that one L4 filter adds to an
endpoint's map state, selector by selector, in one order of Go's map iteration.  A selector whose
per-selector policy would give the datapath what the wildcard selector's gives is skipped
(`selectorCoveredByWildcard`); `toMapStateWith` takes that test as a parameter, so that the call
with the test forced to `false` can be compared with the call of the source.

A cached selector is a number.  What the filter reads of the endpoint (the selections of its
selector snapshot, its named ports and its realized redirects) is a structure of functions, and
the protocol of a redirect is the filter's protocol number. -/

namespace Cilium.Policy

open Cilium.Policy.Types

namespace Types

/-- `Priority.ToPrecedenceWithListenerPriority`. -/
def Priority.toPrecedenceWithListenerPriority (p : Priority) (deny redirect : Bool)
    (lp : ListenerPriority) : Precedence :=
  let precedence := p.toBasePrecedence
  if deny then precedence ||| precedenceByteDeny
  else if !redirect then precedence ||| precedenceByteAllow
  else precedence.withListenerPriority lp

def authTypeDisabled : AuthRequirement := 0
def authTypeSpire : AuthRequirement := 1
def authTypeAlwaysFail : AuthRequirement := 2

end Types

/-- `CachedSelector`, by its number. -/
abbrev CachedSelector := ℕ

/-- `api.AuthenticationMode`; `unknown` is a mode this agent does not know. -/
inductive AuthenticationMode where
  | disabled
  | required
  | alwaysFail
  | unknown
  deriving DecidableEq, Repr

/-- `getAuthType`: whether an authentication is explicit, and its auth type. -/
def getAuthType : Option AuthenticationMode → Bool × AuthRequirement
  | none => (false, authTypeDisabled)
  | some .disabled => (true, authTypeDisabled)
  | some .required => (true, authTypeSpire)
  | some .alwaysFail => (true, authTypeAlwaysFail)
  | some .unknown => (false, authTypeDisabled)

/-- The fields of a `PerSelectorPolicy` that its map state entries are made from; `""` is
`ParserTypeNone`. -/
structure PerSelectorPolicy where
  priority : Priority
  verdict : Verdict
  l7Parser : String
  listener : String
  listenerPriority : ListenerPriority
  authentication : Option AuthenticationMode
  deriving DecidableEq, Repr

/-! The methods of a `*PerSelectorPolicy`, which read `nil` as the default allow. -/

namespace PerSelectorPolicy

def getL7Parser : Option PerSelectorPolicy → String
  | none => ""
  | some a => a.l7Parser

def getListener : Option PerSelectorPolicy → String
  | none => ""
  | some a => a.listener

def getListenerPriority : Option PerSelectorPolicy → ListenerPriority
  | none => 0
  | some a => a.listenerPriority

def getPriority : Option PerSelectorPolicy → Priority
  | none => 0
  | some a => a.priority

def getVerdict : Option PerSelectorPolicy → Verdict
  | none => .allow
  | some a => a.verdict

def isRedirect (a : Option PerSelectorPolicy) : Bool := getL7Parser a != ""

def getPrecedence : Option PerSelectorPolicy → Precedence
  | none => maxAllowPrecedence
  | some a =>
    if a.verdict = .pass then a.priority.toPassPrecedence
    else a.priority.toPrecedenceWithListenerPriority (a.verdict = .deny) (isRedirect (some a))
      a.listenerPriority

def getAuthRequirement : Option PerSelectorPolicy → AuthRequirement
  | none => authTypeDisabled
  | some a =>
    let (explicit, authType) := getAuthType a.authentication
    if explicit then authType ||| authTypeIsExplicit else authType

/-- `datapathEquivalent`: the same precedence (verdict, priority and listener priority), L7
parser, listener and auth requirement. -/
def datapathEquivalent (a b : Option PerSelectorPolicy) : Bool :=
  getPrecedence a == getPrecedence b && getL7Parser a == getL7Parser b &&
    getListener a == getListener b && getAuthRequirement a == getAuthRequirement b

end PerSelectorPolicy

/-! ### Precedence bytes

The precedence of a per-selector policy is its base precedence, a multiple of 256, plus a byte
that tells its verdict: so two policies of the same precedence have the same verdict and base. -/

namespace Types

theorem Priority.toBasePrecedence_and_255 (q : Priority) : q.toBasePrecedence &&& 255 = 0 :=
  LowByte.shiftLeft_8_and_255 _

theorem Precedence.and_not_255_of_and_255 {b : Precedence} (hb : b &&& 255 = 0) :
    b &&& ~~~255 = b := by
  have h := (LowByte.and_255_eq_zero_iff b).mp hb
  apply UInt32.toNat_inj.mp
  rw [LowByte.toNat_and_not_255]
  omega

theorem Precedence.or_and_not_255 {b c : Precedence} (hb : b &&& 255 = 0) (hc : c.toNat < 256) :
    (b ||| c) &&& ~~~255 = b := by
  have h := (LowByte.and_255_eq_zero_iff b).mp hb
  apply UInt32.toNat_inj.mp
  rw [LowByte.toNat_and_not_255, LowByte.toNat_or_of_and_255 hb hc]
  omega

theorem toNat_min_maxListenerPriority (lp : ListenerPriority) :
    (min lp maxListenerPriority).toNat = min lp.toNat 126 := by
  simp [UInt8.toNat_min, maxListenerPriority]

/-- The byte that a listener priority gives a redirect's precedence. -/
def listenerByte (lp : ListenerPriority) : ℕ :=
  if lp > 0 then 255 - (min lp maxListenerPriority).toNat else 2

theorem listenerByte_bounds (lp : ListenerPriority) :
    2 ≤ listenerByte lp ∧ listenerByte lp < 255 := by
  unfold listenerByte
  rw [toNat_min_maxListenerPriority]
  split
  · have : 0 < lp.toNat := by simpa [UInt8.lt_iff_toNat_lt] using ‹lp > 0›
    omega
  · omega

theorem toNat_withListenerPriority {b : Precedence} (hb : b &&& 255 = 0) (lp : ListenerPriority) :
    (b.withListenerPriority lp).toNat = b.toNat + 1 + (listenerByte lp - 1) := by
  unfold Precedence.withListenerPriority listenerByte
  simp only [precedenceByteMask, precedenceByteAllow, Precedence.and_not_255_of_and_255 hb]
  split
  · have hm := toNat_min_maxListenerPriority lp
    have hd : ((255 : UInt32) - 1 - (min lp maxListenerPriority).toUInt32).toNat =
        254 - (min lp maxListenerPriority).toNat := by
      rw [show (255 : UInt32) - 1 = 254 from rfl, UInt32.toNat_sub_of_le]
      · simp
      · rw [UInt32.le_iff_toNat_le]; simp; omega
    rw [LowByte.toNat_or_add_of_and_255 hb (by rw [hd]; simp; omega), hd]
    have : 0 < lp.toNat := by simpa [UInt8.lt_iff_toNat_lt] using ‹lp > 0›
    simp only [UInt32.reduceToNat]
    omega
  · rw [LowByte.toNat_or_add_of_and_255 hb (by simp)]
    simp

theorem Precedence.or_one_withListenerPriority {b : Precedence} (hb : b &&& 255 = 0)
    (lp : ListenerPriority) : (b ||| 1).withListenerPriority lp = b.withListenerPriority lp := by
  unfold Precedence.withListenerPriority
  rw [show precedenceByteMask = 255 from rfl, Precedence.or_and_not_255 hb (by simp),
    Precedence.and_not_255_of_and_255 hb]

end Types

namespace PerSelectorPolicy

/-- The low byte of a policy's precedence: 0 for a pass, 255 for a deny, 1 for an allow, and the
byte of its listener priority for a redirect. -/
def precedenceByte (a : Option PerSelectorPolicy) : ℕ :=
  match getVerdict a with
  | .pass => 0
  | .deny => 255
  | .allow => if isRedirect a then listenerByte (getListenerPriority a) else 1

theorem toNat_getPrecedence (a : Option PerSelectorPolicy) :
    (getPrecedence a).toNat = (getPriority a).toBasePrecedence.toNat + precedenceByte a := by
  have hb := Priority.toBasePrecedence_and_255 (getPriority a)
  cases a with
  | none => rfl
  | some a =>
    simp only [getPrecedence, getPriority, precedenceByte, getVerdict] at hb ⊢
    cases a.verdict with
    | pass => simp [Priority.toPassPrecedence]
    | deny =>
      simp only [reduceCtorEq, if_false, if_true, Priority.toPrecedenceWithListenerPriority,
        decide_true, precedenceByteDeny]
      rw [LowByte.toNat_or_of_and_255 hb (by decide)]
      rfl
    | allow =>
      simp only [reduceCtorEq, if_false, Priority.toPrecedenceWithListenerPriority, decide_false]
      cases isRedirect (some a) with
      | false =>
        simp only [Bool.not_false, if_true, precedenceByteAllow]
        rw [LowByte.toNat_or_of_and_255 hb (by decide)]
        rfl
      | true =>
        have := listenerByte_bounds a.listenerPriority
        simp only [Bool.not_true, if_true, Bool.false_eq_true, if_false, getListenerPriority,
          toNat_withListenerPriority hb]
        omega

theorem precedenceByte_lt (a : Option PerSelectorPolicy) : precedenceByte a < 256 := by
  have := listenerByte_bounds (getListenerPriority a)
  unfold precedenceByte
  split <;> (try split) <;> omega

theorem precedenceByte_eq_zero_iff (a : Option PerSelectorPolicy) :
    precedenceByte a = 0 ↔ getVerdict a = .pass := by
  have := listenerByte_bounds (getListenerPriority a)
  unfold precedenceByte
  split
  next h => simp [h]
  next h => simp [h]
  next h =>
    rw [h]
    split
    · simp only [reduceCtorEq, iff_false]; omega
    · simp

theorem precedenceByte_eq_255_iff (a : Option PerSelectorPolicy) :
    precedenceByte a = 255 ↔ getVerdict a = .deny := by
  have := listenerByte_bounds (getListenerPriority a)
  unfold precedenceByte
  split
  next h => simp [h]
  next h => simp [h]
  next h =>
    rw [h]
    split
    · simp only [reduceCtorEq, iff_false]; omega
    · simp

/-- Two policies of the same precedence have the same base precedence and the same verdict. -/
theorem base_verdict_of_getPrecedence_eq {a b : Option PerSelectorPolicy}
    (h : getPrecedence a = getPrecedence b) :
    (getPriority a).toBasePrecedence = (getPriority b).toBasePrecedence ∧
      getVerdict a = getVerdict b := by
  have ha := (LowByte.and_255_eq_zero_iff _).mp (Priority.toBasePrecedence_and_255 (getPriority a))
  have hb := (LowByte.and_255_eq_zero_iff _).mp (Priority.toBasePrecedence_and_255 (getPriority b))
  have hn := congrArg UInt32.toNat h
  rw [toNat_getPrecedence, toNat_getPrecedence] at hn
  have hla := precedenceByte_lt a
  have hlb := precedenceByte_lt b
  have hbyte : precedenceByte a = precedenceByte b := by omega
  refine ⟨UInt32.toNat_inj.mp (by omega), ?_⟩
  have h0a := precedenceByte_eq_zero_iff a
  have h0b := precedenceByte_eq_zero_iff b
  have h1a := precedenceByte_eq_255_iff a
  have h1b := precedenceByte_eq_255_iff b
  rw [hbyte] at h0a h1a
  cases hva : getVerdict a <;> cases hvb : getVerdict b <;> simp_all

theorem getPrecedence_of_redirect {a : Option PerSelectorPolicy} (hv : getVerdict a = .allow)
    (hr : isRedirect a = true) :
    getPrecedence a = (getPriority a).toBasePrecedence.withListenerPriority (getListenerPriority a) := by
  cases a with
  | none => simp [isRedirect, getL7Parser] at hr
  | some a =>
    simp only [getVerdict] at hv
    simp [getPrecedence, hv, Priority.toPrecedenceWithListenerPriority, hr, getPriority,
      getListenerPriority]

end PerSelectorPolicy

/-- A `newMapStateEntry` of an allow, deny or pass at priorities of the same base precedence: the
same entry, up to the rule origin, when the listener priorities give a redirect the same
precedence. -/
theorem newMapStateEntry_congr {pa pb : Priority} (hbase : pa.toBasePrecedence = pb.toBasePrecedence)
    (tierPriority nextTierPriority : Priority) (oa ob : ruleOrigin) (proxyPort : UInt16)
    {lpa lpb : ListenerPriority} (verdict : Verdict) (auth : AuthRequirement)
    (hlp : verdict = .allow → proxyPort ≠ 0 →
      pa.toBasePrecedence.withListenerPriority lpa = pb.toBasePrecedence.withListenerPriority lpb) :
    (newMapStateEntry pa tierPriority nextTierPriority oa proxyPort lpa verdict auth).toMapStateEntry =
        (newMapStateEntry pb tierPriority nextTierPriority ob proxyPort lpb verdict auth).toMapStateEntry ∧
      (newMapStateEntry pa tierPriority nextTierPriority oa proxyPort lpa verdict auth).passes =
        (newMapStateEntry pb tierPriority nextTierPriority ob proxyPort lpb verdict auth).passes := by
  cases verdict with
  | pass => simp [newMapStateEntry, passEntry, Priority.toPassPrecedence, hbase]
  | deny =>
    simp [newMapStateEntry, MapStateEntry.new, MapStateEntry.withListenerPriority, hbase]
  | allow =>
    have ha := Priority.toBasePrecedence_and_255 pa
    have hb := Priority.toBasePrecedence_and_255 pb
    by_cases hport : proxyPort = 0
    · simp [newMapStateEntry, MapStateEntry.new, MapStateEntry.withListenerPriority, hbase, hport]
    · have hwith := hlp rfl hport
      simp only [newMapStateEntry, MapStateEntry.new, MapStateEntry.withListenerPriority,
        reduceCtorEq, if_false, decide_false, Bool.false_eq_true, bne_iff_ne, ne_eq, hport,
        not_false_eq_true, if_true, precedenceByteAllow, Precedence.or_one_withListenerPriority ha,
        Precedence.or_one_withListenerPriority hb, hwith, and_self]

/-- The fields of an `L4Filter` that `toMapState` reads: its port, end port, port name and
protocol, its direction, its wildcard selector, and its `PerSelectorPolicies` and `RuleOrigin`
maps as lists. -/
structure L4Filter where
  port : UInt16
  endPort : UInt16
  portName : String
  u8Proto : UInt8
  ingress : Bool
  wildcard : Option CachedSelector
  perSelectorPolicies : List (CachedSelector × Option PerSelectorPolicy)
  ruleOrigin : List (CachedSelector × ruleOrigin)

/-- What `toMapState` reads of an `EndpointPolicy`: the selections of its selector snapshot,
`GetIngressNamedPort` of its owner, `GetEgressNamedPorts` of its selector policy, and
`LookupRedirectPort`, `none` for its error. -/
structure EndpointPolicy where
  selections : CachedSelector → List NumericIdentity
  ingressNamedPort : String → UInt8 → UInt16
  egressNamedPorts : String → UInt8 → List NumericIdentity → List (NumericIdentity × UInt16)
  lookupRedirectPort : Bool → UInt8 → UInt16 → String → Option UInt16

/-- `KeyForDirection`. -/
def keyForDirection (ingress : Bool) : Key := if ingress then ingressKey else egressKey

namespace L4Filter

/-- `selectorCoveredByWildcard`: a selector other than the wildcard, on a concrete port, whose
policy is datapath equivalent to the wildcard's (a missing one is `nil`). -/
def selectorCoveredByWildcard (l4 : L4Filter) (cs : CachedSelector)
    (currentRule : Option PerSelectorPolicy) (wildcardPort : Bool) : Bool :=
  match l4.wildcard with
  | none => false
  | some w =>
    if cs = w ∨ wildcardPort then false
    else PerSelectorPolicy.datapathEquivalent currentRule (l4.perSelectorPolicies.lookup w).join

/-- `makeMapStateEntry`: the entry of a selector's policy, with the realized proxy port of a
redirect; the invalid entry when the redirect is not realized. -/
def makeMapStateEntry (l4 : L4Filter) (p : EndpointPolicy) (port : UInt16) (cs : CachedSelector)
    (currentRule : Option PerSelectorPolicy) (tierPriority nextTierPriority : Priority) :
    mapStateEntry :=
  let proxyPort := if PerSelectorPolicy.isRedirect currentRule then
      p.lookupRedirectPort l4.ingress l4.u8Proto port (PerSelectorPolicy.getListener currentRule)
    else some 0
  match proxyPort with
  | none => invalidMapStateEntry
  | some proxyPort =>
    newMapStateEntry (PerSelectorPolicy.getPriority currentRule) tierPriority nextTierPriority
      ((l4.ruleOrigin.lookup cs).getD none) proxyPort
      (PerSelectorPolicy.getListenerPriority currentRule) (PerSelectorPolicy.getVerdict currentRule)
      (PerSelectorPolicy.getAuthRequirement currentRule)

/-- The entries that `makeMapStateEntry` makes of two datapath-equivalent policies differ at most
in their rule origins: what `selectorCoveredByWildcard` skips is the wildcard's own entry. -/
theorem makeMapStateEntry_of_datapathEquivalent (l4 : L4Filter) (p : EndpointPolicy)
    (port : UInt16) (cs cs' : CachedSelector) {a b : Option PerSelectorPolicy}
    (tierPriority nextTierPriority : Priority)
    (h : PerSelectorPolicy.datapathEquivalent a b = true) :
    (l4.makeMapStateEntry p port cs a tierPriority nextTierPriority).toMapStateEntry =
        (l4.makeMapStateEntry p port cs' b tierPriority nextTierPriority).toMapStateEntry ∧
      (l4.makeMapStateEntry p port cs a tierPriority nextTierPriority).passes =
        (l4.makeMapStateEntry p port cs' b tierPriority nextTierPriority).passes := by
  simp only [PerSelectorPolicy.datapathEquivalent, Bool.and_eq_true, beq_iff_eq] at h
  obtain ⟨⟨⟨hprec, hparser⟩, hlistener⟩, hauth⟩ := h
  obtain ⟨hbase, hverdict⟩ := PerSelectorPolicy.base_verdict_of_getPrecedence_eq hprec
  have hredirect : PerSelectorPolicy.isRedirect a = PerSelectorPolicy.isRedirect b := by
    simp [PerSelectorPolicy.isRedirect, hparser]
  unfold makeMapStateEntry
  rw [hredirect, hlistener, hverdict, hauth]
  -- a redirect's precedence is its listener priority's, which the two policies share
  have hlp : ∀ proxyPort : UInt16, (PerSelectorPolicy.isRedirect b = true ∨ proxyPort = 0) →
      PerSelectorPolicy.getVerdict b = .allow → proxyPort ≠ 0 →
      (PerSelectorPolicy.getPriority a).toBasePrecedence.withListenerPriority
          (PerSelectorPolicy.getListenerPriority a) =
        (PerSelectorPolicy.getPriority b).toBasePrecedence.withListenerPriority
          (PerSelectorPolicy.getListenerPriority b) := by
    intro proxyPort hr hv hport
    have hr : PerSelectorPolicy.isRedirect b = true := hr.resolve_right hport
    rw [← PerSelectorPolicy.getPrecedence_of_redirect (hverdict ▸ hv) (hredirect ▸ hr),
      ← PerSelectorPolicy.getPrecedence_of_redirect hv hr, hprec]
  cases hr : PerSelectorPolicy.isRedirect b with
  | false =>
    exact newMapStateEntry_congr hbase _ _ _ _ 0 _ _ (hlp 0 (Or.inr rfl))
  | true =>
    simp only [if_true]
    split
    · exact ⟨rfl, rfl⟩
    · exact newMapStateEntry_congr hbase _ _ _ _ _ _ _ (hlp _ (Or.inl hr))

/-- Two HTTP redirects whose listener priorities both reach the lowest one make the same entry. -/
theorem makeMapStateEntry_of_datapathEquivalent_listener :
    let a : Option PerSelectorPolicy := some ⟨5, .allow, "http", "", 126, none⟩
    let b : Option PerSelectorPolicy := some ⟨5, .allow, "http", "", 200, none⟩
    let l4 : L4Filter := ⟨80, 0, "", 6, false, some 0, [(0, a), (1, b)], []⟩
    let p : EndpointPolicy := ⟨fun _ => [], fun _ _ => 0, fun _ _ _ => [], fun _ _ _ _ => some 3000⟩
    PerSelectorPolicy.datapathEquivalent a b = true ∧
      (l4.makeMapStateEntry p 80 1 a 0 lowestPriority).toMapStateEntry =
        (l4.makeMapStateEntry p 80 0 b 0 lowestPriority).toMapStateEntry ∧
      (l4.makeMapStateEntry p 80 1 a 0 lowestPriority).passes =
        (l4.makeMapStateEntry p 80 0 b 0 lowestPriority).passes := by
  intro a b l4 p
  have h : PerSelectorPolicy.datapathEquivalent a b = true := by decide
  exact ⟨h, makeMapStateEntry_of_datapathEquivalent l4 p 80 1 0 0 lowestPriority h⟩

section ToMapState

variable (clusterID : UInt32)

/-- `insertWithChanges` of one entry under each of the keys, in order. -/
def insertKeys (tierMaxPrecedence : Precedence) (entry : mapStateEntry)
    (features : policyFeatures) (keys : List Key) (s : mapState × ChangeState) :
    mapState × ChangeState :=
  keys.foldl (fun s key => s.1.insertWithChanges clusterID tierMaxPrecedence key entry features s.2) s

/-- The round of the loop of `toMapState` for one selector and its policy: skipped when
`covered`; on an egress named port, one key for each selected identity and the port it names;
else every key of the port range for each selected identity, or for every aggregate identity
for the wildcard. -/
def selectorStep (covered : CachedSelector → Option PerSelectorPolicy → Bool → Bool)
    (l4 : L4Filter) (p : EndpointPolicy) (tierPriority nextTierPriority : Priority)
    (features : policyFeatures) (port : UInt16) (egressNamedPort : Bool) (key : Key)
    (keysToAdd : List Key) (s : mapState × ChangeState)
    (sel : CachedSelector × Option PerSelectorPolicy) : mapState × ChangeState :=
  let (cs, currentRule) := sel
  let tierMaxPrecedence := tierPriority.toDenyPrecedence
  if l4.wildcard ≠ some cs ∧ covered cs currentRule (port = 0 ∧ !egressNamedPort) then s
  else
    let idents := p.selections cs
    if egressNamedPort then
      (p.egressNamedPorts l4.portName l4.u8Proto idents).foldl (fun s idPort =>
        let entry := l4.makeMapStateEntry p idPort.2 cs currentRule tierPriority nextTierPriority
        if !entry.isValid && !entry.isPassEntry then s
        else insertKeys clusterID tierMaxPrecedence entry features
          [(key.withIdentity idPort.1).withPort idPort.2] s) s
    else
      let idents := if l4.wildcard = some cs then allAggregates else idents
      let entry := l4.makeMapStateEntry p port cs currentRule tierPriority nextTierPriority
      if !entry.isValid && !entry.isPassEntry then s
      else idents.foldl (fun s id =>
        insertKeys clusterID tierMaxPrecedence entry features (keysToAdd.map (·.withIdentity id)) s) s

/-- `toMapState` with `covered` for `selectorCoveredByWildcard`: an ingress named port is
resolved once (an unknown one adds nothing), an egress one for each selector. -/
def toMapStateWith (covered : CachedSelector → Option PerSelectorPolicy → Bool → Bool)
    (l4 : L4Filter) (tierPriority nextTierPriority : Priority) (p : EndpointPolicy)
    (features : policyFeatures) (ms : mapState) (changes : ChangeState) :
    mapState × ChangeState :=
  let named := l4.port = 0 ∧ l4.portName ≠ ""
  let port := if named ∧ l4.ingress then p.ingressNamedPort l4.portName l4.u8Proto else l4.port
  let egressNamedPort := named ∧ !l4.ingress
  if named ∧ l4.ingress ∧ port = 0 then (ms, changes)
  else
    let key := (keyForDirection l4.ingress).withPortProto l4.u8Proto port
    let keysToAdd := if egressNamedPort then [] else keysForRange key port l4.endPort
    l4.perSelectorPolicies.foldl
      (selectorStep clusterID covered l4 p tierPriority nextTierPriority features port
        egressNamedPort key keysToAdd) (ms, changes)

/-- `L4Filter.toMapState`. -/
def toMapState (l4 : L4Filter) (tierPriority nextTierPriority : Priority) (p : EndpointPolicy)
    (features : policyFeatures) (ms : mapState) (changes : ChangeState) :
    mapState × ChangeState :=
  toMapStateWith clusterID l4.selectorCoveredByWildcard l4 tierPriority nextTierPriority p features
    ms changes

end ToMapState

/-- The shortcut changes what `lookup` returns.  A filter on TCP port 80 redirects both the
wildcard and a selector of identity 256 to proxy port 2000, with the same policy, and the map
state already holds an explicitly authenticated redirect of identity 256 on all of TCP to port
1000 at the same precedence.  Inserting the selector's key gives it the derived auth type, so the
wildcard's aggregate key does not prune it, and `lookup` returns it: port 2000.  Skipped, the
lookup compares the broader key of 256 with the aggregate key at equal precedence and, comparing
prefix lengths the source's way, returns the broader one: port 1000. -/
theorem wildcard_shortcut_changes_lookup :
    let features : policyFeatures := redirectRules ||| orderedRules ||| authRules
    let noChanges : ChangeState := ⟨none, none, none⟩
    let ms0 := ((newMapState features).insertWithChanges 0 (0 : Priority).toDenyPrecedence
      ((egressKey.withIdentity 256).withPortProto 6 0)
      (newMapStateEntry 5 0 lowestPriority none 1000 0 .allow (authTypeSpire ||| authTypeIsExplicit))
      features noChanges).1
    let rule : PerSelectorPolicy := ⟨5, .allow, "http", "", 0, none⟩
    let l4 : L4Filter := ⟨80, 0, "", 6, false, some 0, [(1, some rule), (0, some rule)], []⟩
    let p : EndpointPolicy :=
      ⟨fun cs => if cs = 1 then [256] else [], fun _ _ => 0, fun _ _ _ => [], fun _ _ _ _ => some 2000⟩
    let k80 := (egressKey.withIdentity 256).withPortProto 6 80
    let ms1 := (l4.toMapState 0 0 lowestPriority p features ms0 noChanges).1
    let ms2 := (l4.toMapStateWith 0 (fun _ _ _ => false) 0 lowestPriority p features ms0 noChanges).1
    l4.selectorCoveredByWildcard 1 (some rule) false = true ∧
      (ms1.lookup 0 k80).1.isAllow = true ∧ (ms2.lookup 0 k80).1.isAllow = true ∧
      (ms1.lookup 0 k80).1.proxyPort = 1000 ∧ (ms2.lookup 0 k80).1.proxyPort = 2000 := by
  decide

end L4Filter

end Cilium.Policy
