import Cilium.LoadBalancer.Reconciler
import Cilium.IPCache.IPCache

/-! Backend selection of `pkg/loadbalancer/writer/writer.go`: `DefaultSelectBackends` keeps the
backends that match the frontend and, for a frontend with a local traffic policy, live on this
node; with service topology enabled it narrows them to this node's preferred backends
(`PreferSameNode`) or to those hinted for this node's zone (`PreferSameZone`, `PreferClose`), each
only when a pre-scan of the backends finds that the narrowing keeps one.  The selection is a
subsequence of the eligible backends, is empty only when they are, and is the regime that the
pre-scans choose (`defaultSelectBackends_spec`).  A backend sequence is a list that can be run
twice, and the iterator that the function returns is the list of what it yields. -/

namespace Cilium.LoadBalancer

set_option linter.dupNamespace false

open Cilium.Ipcache

/-- `SVCType`. -/
inductive SVCType where
  | NONE
  | HostPort
  | ClusterIP
  | NodePort
  | ExternalIPs
  | LoadBalancer
  | LocalRedirect
  deriving DecidableEq, Repr

/-- `SVCTrafficPolicy`. -/
inductive SVCTrafficPolicy where
  | NONE
  | Cluster
  | Local
  deriving DecidableEq, Repr

/-- `TrafficDistribution`; `other` is any other string. -/
inductive TrafficDistribution where
  | Default
  | PreferSameZone
  | PreferClose
  | PreferSameNode
  | other (s : String)
  deriving DecidableEq, Repr

/-- The value of `Service.GetProxyDelegation`. -/
inductive SVCProxyDelegation where
  | None
  | DelegateIfLocal
  deriving DecidableEq, Repr

/-- `BackendState`. -/
inductive BackendState where
  | Active
  | Terminating
  | TerminatingNotServing
  | Quarantined
  | Maintenance
  deriving DecidableEq, Repr

/-- `ScopeExternal` and `ScopeInternal`. -/
def ScopeExternal : UInt8 := 0
def ScopeInternal : UInt8 := 1

/-- The fields of `Service` that the selection reads. -/
structure Service where
  extTrafficPolicy : SVCTrafficPolicy
  intTrafficPolicy : SVCTrafficPolicy
  trafficDistribution : TrafficDistribution
  proxyDelegation : SVCProxyDelegation

/-- The fields of `Frontend` that the selection reads; `RedirectTo` only as set or not. -/
structure Frontend where
  address : L3n4Addr AddrCluster
  type : SVCType
  portName : String
  redirectTo : Option String
  service : Service

/-- `BackendZone`. -/
structure BackendZone where
  zone : String
  forZones : List String

/-- The fields of `Backend` that the selection reads; `UnhealthyUpdatedAt` only as set or not. -/
structure Backend where
  address : L3n4Addr AddrCluster
  portNames : List String
  nodeName : String
  zone : Option BackendZone
  state : BackendState
  unhealthy : Bool
  unhealthyUpdatedAt : Option ℕ

/-- The local node: the value of its zone label (empty when unset) and its IP addresses. -/
structure LocalNode where
  zoneLabel : String
  ipAddresses : List Addr

/-- What the selection reads of `Writer`: the config flag, the node name, the health-check
predicate, and the local node in the node table, if there is one. -/
structure Writer where
  enableServiceTopology : Bool
  nodeName : String
  isServiceHealthCheckedFunc : Option (Service → Bool)
  localNode : Option LocalNode

def L3n4Addr.IsIPv6 (a : L3n4Addr AddrCluster) : Bool :=
  match a.addrCluster.addr with
  | .v4 _ => false
  | .v6 _ => true

def LocalNode.IsNodeIP (n : LocalNode) (addr : Addr) : Bool := n.ipAddresses.contains addr

def matchesFrontend (be : Backend) (fe : Option Frontend) : Bool :=
  match fe with
  | none => true
  | some fe =>
    if fe.address.protocol != be.address.protocol then false
    else if be.address.IsIPv6 != fe.address.IsIPv6 then false
    else if fe.portName != "" && !be.portNames.isEmpty then be.portNames.contains fe.portName
    else true

def Writer.topologyPreferenceCandidate (w : Writer) (svc : Service) (be : Backend) : Bool :=
  if be.state == .Terminating || be.state == .TerminatingNotServing then false
  else match w.isServiceHealthCheckedFunc with
    | none => true
    | some f =>
      if !f svc then true
      else be.state == .Active && !be.unhealthy && be.unhealthyUpdatedAt.isSome

def isExtLocal (fe : Frontend) : Bool :=
  match fe.type with
  | .NodePort | .LoadBalancer | .ExternalIPs => fe.service.extTrafficPolicy == .Local
  | _ => false

def isIntLocal (fe : Frontend) : Bool :=
  match fe.type with
  | .ClusterIP | .NodePort | .LoadBalancer | .ExternalIPs => fe.service.intTrafficPolicy == .Local
  | _ => false

def shouldUseLocalBackends (fe : Frontend) : Bool :=
  if fe.address.scope = ScopeExternal then
    if fe.type == .ClusterIP then isIntLocal fe else isExtLocal fe
  else if fe.address.scope = ScopeInternal then isIntLocal fe
  else false

/-- Whether a backend carries zone hints, and whether they name `zone`. -/
def Backend.hasHints (be : Backend) : Bool :=
  match be.zone with
  | some z => !z.forZones.isEmpty
  | none => false

def Backend.hintsZone (be : Backend) (zone : String) : Bool :=
  match be.zone with
  | some z => z.forZones.contains zone
  | none => false

/-- The zone pre-scan over the backends that pass `keep`: whether one is hinted for `zone`,
and whether one lacks hints, where the scan stops. -/
def zoneScan (keep : Backend → Bool) (zone : String) :
    List (Backend × ℕ) → Bool → Bool × Bool
  | [], found => (found, false)
  | (be, _) :: bes, found =>
    if !keep be then zoneScan keep zone bes found
    else if be.hasHints then zoneScan keep zone bes (found || be.hintsZone zone)
    else (found, true)

/-- The zone label of the local node, when there is a local node and the label is set. -/
def Writer.thisZone (w : Writer) : Option String :=
  w.localNode.bind fun node => if node.zoneLabel != "" then some node.zoneLabel else none

/-- `Writer.DefaultSelectBackends`, on a list of backends and revisions. -/
def Writer.DefaultSelectBackends (w : Writer) (bes : List (Backend × ℕ)) (svc : Service)
    (fe : Option Frontend) : List (Backend × ℕ) :=
  let onlyLocal := match fe with
    | some fe => shouldUseLocalBackends fe
    | none => svc.extTrafficPolicy == .Local
  let isLocalProxyDelegation : L3n4Addr AddrCluster → Bool :=
    match fe, svc.proxyDelegation, w.localNode with
    | none, .DelegateIfLocal, some node => fun addr => node.IsNodeIP addr.addrCluster.addr
    | _, _, _ => fun _ => true
  let sameNode : Backend → Bool := fun be =>
    be.nodeName == w.nodeName && matchesFrontend be fe && w.topologyPreferenceCandidate svc be
  let preferSameNode := w.enableServiceTopology &&
    fe.any (·.service.trafficDistribution == .PreferSameNode)
  if preferSameNode && bes.any (sameNode ·.1) then bes.filter (sameNode ·.1)
  else
    let thisZone := w.thisZone
    let isLocal : Backend → Bool := fun be =>
      !onlyLocal || ((be.nodeName.isEmpty || be.nodeName == w.nodeName) &&
        isLocalProxyDelegation be.address)
    let checkZoneHints := match thisZone, fe with
      | some zone, some fe =>
        if w.enableServiceTopology && fe.redirectTo.isNone &&
            (fe.service.trafficDistribution == .PreferClose ||
              fe.service.trafficDistribution == .PreferSameZone) then
          let r := zoneScan (fun be => matchesFrontend be (some fe) && isLocal be &&
            w.topologyPreferenceCandidate svc be) zone bes false
          r.1 && !r.2
        else false
      | _, _ => false
    bes.filter fun p => matchesFrontend p.1 fe && isLocal p.1 &&
      (!checkZoneHints || thisZone.any p.1.hintsZone)

/-! ### What the selection is -/

/-- The backends that pass the frontend match and, when the frontend uses local backends, live
on this node or on no named node. -/
def Writer.eligible (w : Writer) (fe : Frontend) (be : Backend) : Bool :=
  matchesFrontend be (some fe) &&
    (!shouldUseLocalBackends fe || be.nodeName.isEmpty || be.nodeName == w.nodeName)

/-- The selection for a frontend, in terms of the eligible backends `E`: this node's preferred
backends when `PreferSameNode` applies and one exists; else the backends hinted for this zone
when zone preference applies, every preferred backend has hints and one is hinted for this zone;
else `E`. -/
def Writer.selectSpec (w : Writer) (bes : List (Backend × ℕ)) (svc : Service) (fe : Frontend) :
    List (Backend × ℕ) :=
  let E := bes.filter (w.eligible fe ·.1)
  let cand := w.topologyPreferenceCandidate svc
  if w.enableServiceTopology ∧ fe.service.trafficDistribution = .PreferSameNode ∧
      ∃ p ∈ E, p.1.nodeName = w.nodeName ∧ cand p.1 = true then
    E.filter fun p => p.1.nodeName == w.nodeName && cand p.1
  else match w.thisZone with
    | some zone =>
      if w.enableServiceTopology ∧ fe.redirectTo = none ∧
          (fe.service.trafficDistribution = .PreferClose ∨
            fe.service.trafficDistribution = .PreferSameZone) ∧
          (∀ p ∈ E, cand p.1 = true → p.1.hasHints = true) ∧
          ∃ p ∈ E, cand p.1 = true ∧ p.1.hintsZone zone = true then
        E.filter (·.1.hintsZone zone)
      else E
    | none => E

/-! ### The pre-scans -/

section Scan

variable {keep : Backend → Bool} {zone : String}

theorem zoneScan_snd (zone : String) (bes : List (Backend × ℕ)) (found : Bool) :
    (zoneScan keep zone bes found).2 = true ↔
      ∃ p ∈ bes, keep p.1 = true ∧ p.1.hasHints = false := by
  induction bes generalizing found with
  | nil => simp [zoneScan]
  | cons p bes ih =>
    obtain ⟨be, r⟩ := p
    by_cases hk : keep be = true
    · by_cases hh : be.hasHints = true
      · simp [zoneScan, hk, hh, ih]
      · simp [zoneScan, hk, hh]
    · simp [zoneScan, hk, ih]

theorem zoneScan_fst {bes : List (Backend × ℕ)} {found : Bool}
    (h : (zoneScan keep zone bes found).2 = false) :
    (zoneScan keep zone bes found).1 = true ↔
      found = true ∨ ∃ p ∈ bes, keep p.1 = true ∧ p.1.hintsZone zone = true := by
  induction bes generalizing found with
  | nil => simp [zoneScan]
  | cons p bes ih =>
    obtain ⟨be, r⟩ := p
    by_cases hk : keep be = true
    · by_cases hh : be.hasHints = true
      · simp only [zoneScan, hk, hh, Bool.not_true, Bool.false_eq_true, if_false, if_true] at h ⊢
        rw [ih h]
        simp [hk, or_assoc]
      · simp [zoneScan, hk, hh] at h
    · simp only [zoneScan, hk, Bool.not_false, if_true] at h ⊢
      rw [ih h]
      simp [hk]

theorem zoneScan_iff (bes : List (Backend × ℕ)) :
    ((zoneScan keep zone bes false).1 && !(zoneScan keep zone bes false).2) = true ↔
      (∀ p ∈ bes, keep p.1 = true → p.1.hasHints = true) ∧
        ∃ p ∈ bes, keep p.1 = true ∧ p.1.hintsZone zone = true := by
  rw [Bool.and_eq_true, Bool.not_eq_true']
  constructor
  · rintro ⟨h1, h2⟩
    refine ⟨fun p hp hkp => ?_, ?_⟩
    · by_contra hh
      have := (zoneScan_snd zone bes false).mpr ⟨p, hp, hkp, by simpa using hh⟩
      rw [h2] at this
      cases this
    · simpa using (zoneScan_fst h2).mp h1
  · rintro ⟨hall, hex⟩
    have h2 : (zoneScan keep zone bes false).2 = false := by
      cases h : (zoneScan keep zone bes false).2
      · rfl
      · obtain ⟨p, hp, hkp, hh⟩ := (zoneScan_snd zone bes false).mp h
        rw [hall p hp hkp] at hh
        cases hh
    exact ⟨(zoneScan_fst h2).mpr (.inr hex), h2⟩

end Scan

/-! ### The filters against the eligible backends -/

theorem eligible_and (w : Writer) (fe : Frontend) (be : Backend) (q : Bool) :
    (matchesFrontend be (some fe) &&
        (!shouldUseLocalBackends fe || (be.nodeName.isEmpty || be.nodeName == w.nodeName)) && q) =
      (w.eligible fe be && q) := by
  simp only [Writer.eligible, Bool.or_assoc]

/-- A backend on this node is eligible once it matches the frontend. -/
theorem sameNode_eq (w : Writer) (svc : Service) (fe : Frontend) (be : Backend) :
    (be.nodeName == w.nodeName && matchesFrontend be (some fe) &&
        w.topologyPreferenceCandidate svc be) =
      (w.eligible fe be && (be.nodeName == w.nodeName && w.topologyPreferenceCandidate svc be)) := by
  simp only [Writer.eligible]
  cases be.nodeName == w.nodeName <;> cases matchesFrontend be (some fe) <;>
    cases w.topologyPreferenceCandidate svc be <;> simp

theorem filter_sameNode (w : Writer) (svc : Service) (fe : Frontend) (bes : List (Backend × ℕ)) :
    bes.filter (fun p => p.1.nodeName == w.nodeName && matchesFrontend p.1 (some fe) &&
        w.topologyPreferenceCandidate svc p.1) =
      (bes.filter (w.eligible fe ·.1)).filter
        (fun p => p.1.nodeName == w.nodeName && w.topologyPreferenceCandidate svc p.1) := by
  rw [List.filter_filter]
  exact List.filter_congr fun p _ => by rw [sameNode_eq, Bool.and_comm]

theorem any_sameNode_iff (w : Writer) (svc : Service) (fe : Frontend) (bes : List (Backend × ℕ)) :
    (bes.any fun p => p.1.nodeName == w.nodeName && matchesFrontend p.1 (some fe) &&
        w.topologyPreferenceCandidate svc p.1) = true ↔
      ∃ p ∈ bes.filter (w.eligible fe ·.1),
        p.1.nodeName = w.nodeName ∧ w.topologyPreferenceCandidate svc p.1 = true := by
  simp only [List.any_eq_true, sameNode_eq, List.mem_filter, Bool.and_eq_true, beq_iff_eq]
  constructor
  · rintro ⟨p, hp, he, hn, hc⟩
    exact ⟨p, ⟨hp, he⟩, hn, hc⟩
  · rintro ⟨p, ⟨hp, he⟩, hn, hc⟩
    exact ⟨p, hp, he, hn, hc⟩

/-- The zone pre-scan over the eligible preferred backends finds what `selectSpec` asks. -/
theorem zoneScan_eligible_iff (w : Writer) (svc : Service) (fe : Frontend)
    (bes : List (Backend × ℕ)) (zone : String) :
    let scan := zoneScan (fun be => matchesFrontend be (some fe) &&
      (!shouldUseLocalBackends fe || (be.nodeName.isEmpty || be.nodeName == w.nodeName)) &&
      w.topologyPreferenceCandidate svc be) zone bes false
    (scan.1 && !scan.2) = true ↔
      (∀ p ∈ bes.filter (w.eligible fe ·.1),
        w.topologyPreferenceCandidate svc p.1 = true → p.1.hasHints = true) ∧
      ∃ p ∈ bes.filter (w.eligible fe ·.1),
        w.topologyPreferenceCandidate svc p.1 = true ∧ p.1.hintsZone zone = true := by
  intro scan
  rw [zoneScan_iff]
  simp only [eligible_and, List.mem_filter, Bool.and_eq_true]
  constructor
  · rintro ⟨hall, p, hp, ⟨he, hc⟩, hz⟩
    exact ⟨fun q ⟨hq, hqe⟩ hqc => hall q hq ⟨hqe, hqc⟩, p, ⟨hp, he⟩, hc, hz⟩
  · rintro ⟨hall, p, ⟨hp, he⟩, hc, hz⟩
    exact ⟨fun q hq ⟨hqe, hqc⟩ => hall q ⟨hq, hqe⟩ hqc, p, hp, ⟨he, hc⟩, hz⟩

/-- The last loop of the selection, for a fixed outcome `b` of the zone pre-scan. -/
theorem filter_zoneHints (w : Writer) (fe : Frontend) (bes : List (Backend × ℕ))
    (b : Bool) (zone : Option String) :
    bes.filter (fun p => matchesFrontend p.1 (some fe) &&
        (!shouldUseLocalBackends fe || (p.1.nodeName.isEmpty || p.1.nodeName == w.nodeName)) &&
        (!b || zone.any p.1.hintsZone)) =
      if b then (bes.filter (w.eligible fe ·.1)).filter (fun p => zone.any p.1.hintsZone)
      else bes.filter (w.eligible fe ·.1) := by
  cases b
  · exact List.filter_congr fun p _ => by
      simp only [Writer.eligible, Bool.or_assoc, Bool.not_false, Bool.true_or, Bool.and_true]
  · rw [List.filter_filter]
    exact List.filter_congr fun p _ => by
      simp only [eligible_and, Bool.not_true, Bool.false_or, Bool.and_comm]

theorem defaultSelectBackends_eq_selectSpec (w : Writer) (bes : List (Backend × ℕ))
    (svc : Service) (fe : Frontend) :
    w.DefaultSelectBackends bes svc (some fe) = w.selectSpec bes svc fe := by
  unfold Writer.DefaultSelectBackends Writer.selectSpec
  dsimp only
  simp only [Option.any_some, Bool.and_true, filter_sameNode]
  by_cases hs : w.enableServiceTopology = true ∧
      fe.service.trafficDistribution = .PreferSameNode ∧
      ∃ p ∈ bes.filter (w.eligible fe ·.1),
        p.1.nodeName = w.nodeName ∧ w.topologyPreferenceCandidate svc p.1 = true
  · -- this node has a preferred backend
    obtain ⟨h1, h2, h3⟩ := hs
    have hb : (w.enableServiceTopology && fe.service.trafficDistribution == .PreferSameNode &&
        bes.any fun p => p.1.nodeName == w.nodeName && matchesFrontend p.1 (some fe) &&
          w.topologyPreferenceCandidate svc p.1) = true := by
      rw [Bool.and_eq_true, Bool.and_eq_true, beq_iff_eq]
      exact ⟨⟨h1, h2⟩, (any_sameNode_iff w svc fe bes).mpr h3⟩
    rw [if_pos hb, if_pos ⟨h1, h2, h3⟩]
  · have hb : ¬(w.enableServiceTopology && fe.service.trafficDistribution == .PreferSameNode &&
        bes.any fun p => p.1.nodeName == w.nodeName && matchesFrontend p.1 (some fe) &&
          w.topologyPreferenceCandidate svc p.1) = true := by
      rw [Bool.and_eq_true, Bool.and_eq_true, beq_iff_eq]
      exact fun h => hs ⟨h.1.1, h.1.2, (any_sameNode_iff w svc fe bes).mp h.2⟩
    rw [if_neg hb, if_neg hs, filter_zoneHints]
    cases hz : w.thisZone with
    | none => rfl
    | some zone =>
      dsimp only
      by_cases hc : w.enableServiceTopology = true ∧ fe.redirectTo = none ∧
          (fe.service.trafficDistribution = .PreferClose ∨
            fe.service.trafficDistribution = .PreferSameZone)
      · obtain ⟨h1, h2, h3⟩ := hc
        have hcb : (w.enableServiceTopology && fe.redirectTo.isNone &&
            (fe.service.trafficDistribution == .PreferClose ||
              fe.service.trafficDistribution == .PreferSameZone)) = true := by
          simp only [Bool.and_eq_true, Bool.or_eq_true, beq_iff_eq, Option.isNone_iff_eq_none]
          exact ⟨⟨h1, h2⟩, h3⟩
        simp only [hcb, ↓reduceIte]
        by_cases hscan : (∀ p ∈ bes.filter (w.eligible fe ·.1),
            w.topologyPreferenceCandidate svc p.1 = true → p.1.hasHints = true) ∧
          ∃ p ∈ bes.filter (w.eligible fe ·.1),
            w.topologyPreferenceCandidate svc p.1 = true ∧ p.1.hintsZone zone = true
        · simp only [(zoneScan_eligible_iff w svc fe bes zone).mpr hscan, ↓reduceIte]
          rw [if_pos ⟨h1, h2, h3, hscan⟩]
          rfl
        · have hf := mt (zoneScan_eligible_iff w svc fe bes zone).mp hscan
          simp only [Bool.not_eq_true] at hf
          simp only [hf, Bool.false_eq_true, ↓reduceIte]
          rw [if_neg (fun h => hscan h.2.2.2)]
      · have hcb : ¬(w.enableServiceTopology && fe.redirectTo.isNone &&
            (fe.service.trafficDistribution == .PreferClose ||
              fe.service.trafficDistribution == .PreferSameZone)) = true := by
          simp only [Bool.and_eq_true, Bool.or_eq_true, beq_iff_eq, Option.isNone_iff_eq_none]
          exact fun h => hc ⟨h.1.1, h.1.2, h.2⟩
        simp only [Bool.not_eq_true] at hcb
        simp only [hcb, Bool.false_eq_true, ↓reduceIte]
        rw [if_neg (fun h => hc ⟨h.1, h.2.1, h.2.2.1⟩)]

theorem selectSpec_sublist (w : Writer) (bes : List (Backend × ℕ)) (svc : Service)
    (fe : Frontend) : (w.selectSpec bes svc fe).Sublist (bes.filter (w.eligible fe ·.1)) := by
  unfold Writer.selectSpec
  dsimp only
  split_ifs
  · exact List.filter_sublist
  · split
    · split_ifs
      · exact List.filter_sublist
      · exact List.Sublist.refl _
    · exact List.Sublist.refl _

/-- Each narrowing is taken only when it keeps a backend, so the selection is empty only when
no backend is eligible. -/
theorem selectSpec_ne_nil (w : Writer) (bes : List (Backend × ℕ)) (svc : Service)
    (fe : Frontend) (h : bes.filter (w.eligible fe ·.1) ≠ []) : w.selectSpec bes svc fe ≠ [] := by
  unfold Writer.selectSpec
  dsimp only
  split_ifs with hs
  · obtain ⟨-, -, p, hp, hn, hc⟩ := hs
    exact List.ne_nil_of_mem (List.mem_filter.mpr ⟨hp, by simp [hn, hc]⟩)
  · split
    · split_ifs with hz
      · obtain ⟨-, -, -, -, p, hp, -, hh⟩ := hz
        exact List.ne_nil_of_mem (List.mem_filter.mpr ⟨hp, hh⟩)
      · exact h
    · exact h

theorem defaultSelectBackends_spec (w : Writer) (bes : List (Backend × ℕ)) (svc : Service)
    (fe : Frontend) :
    let E := bes.filter (w.eligible fe ·.1)
    let S := w.DefaultSelectBackends bes svc (some fe)
    S.Sublist E ∧ (E ≠ [] → S ≠ []) ∧ S = w.selectSpec bes svc fe := by
  intro E S
  have hS : S = w.selectSpec bes svc fe := defaultSelectBackends_eq_selectSpec w bes svc fe
  rw [hS]
  exact ⟨selectSpec_sublist w bes svc fe, selectSpec_ne_nil w bes svc fe, rfl⟩

end Cilium.LoadBalancer
