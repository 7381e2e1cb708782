import Cilium.Policy.Insert

/-! The policy map as the datapath sees it: the keys and entries that `addPolicyKey` writes
(`pkg/maps/policymap/policymap.go`), the BPF LPM trie lookup, and `__policy_can_access` of
`bpf/lib/policy.h`, which looks up the specific identity, then its aggregate, then identity 0,
and picks one entry by precedence and prefix length.  The ICMP branches, which only apply with
their configuration options on, and the accounting outputs are left out. -/

namespace Cilium.Policy

open Cilium.Policy.Types

/-- `policymap.PolicyKey`; the port is in host order, and its bits enter the LPM match most
significant first, as the network order puts them. -/
structure PolicyKey where
  prefixlen : UInt32
  identity : UInt32
  trafficDirection : UInt8
  nexthdr : UInt8
  destPort : UInt16
  deriving DecidableEq, Repr

/-- `policymap.PolicyEntry`: the deny flag and the protocol/port prefix length are in `flags`. -/
structure PolicyEntry where
  proxyPort : UInt16
  flags : UInt8
  authRequirement : AuthRequirement
  precedence : Precedence
  cookie : UInt32
  deriving DecidableEq, Repr

/-- `StaticPrefixBits`: the identity and the direction byte. -/
def staticPrefixBits : UInt32 := 40

def policyFlagDeny : UInt8 := 1
def policyFlagLPMShift : UInt8 := 3

/-- `getPolicyEntryFlags`. -/
def getPolicyEntryFlags (isDeny : Bool) (prefixLen : UInt8) : UInt8 :=
  (if isDeny then policyFlagDeny else 0) ||| (prefixLen <<< policyFlagLPMShift)

def PolicyEntry.isDeny (pe : PolicyEntry) : Bool := pe.flags &&& policyFlagDeny == policyFlagDeny

/-- `lpm_prefix_length`: the protocol and port bits of the key. -/
def PolicyEntry.getPrefixLen (pe : PolicyEntry) : UInt8 := pe.flags >>> policyFlagLPMShift

/-- `NewKeyFromPolicyKey`. -/
def newKeyFromPolicyKey (pk : Key) : PolicyKey :=
  let prefixLen := staticPrefixBits +
    if pk.nexthdr != 0 || pk.destPort != 0 then
      8 + if pk.destPort != 0 then pk.portPrefixLen.toUInt32 else 0
    else 0
  ⟨prefixLen, pk.identity, pk.trafficDirection, pk.nexthdr, pk.destPort⟩

/-- `NewEntryFromPolicyEntry`: an invalid entry, whose precedence is the deny maximum, is written
as a deny. -/
def newEntryFromPolicyEntry (key : PolicyKey) (pe : MapStateEntry) : PolicyEntry :=
  ⟨pe.proxyPort, getPolicyEntryFlags pe.isDeny (key.prefixlen - staticPrefixBits).toUInt8,
    pe.authRequirement, pe.precedence, pe.cookie⟩

/-- The policy map after `addPolicyKeys` has written every entry of the map state. -/
def exportMapState (ms : mapState) : List (PolicyKey × PolicyEntry) :=
  ms.entries.entries.map fun kv =>
    let key := newKeyFromPolicyKey kv.1
    (key, newEntryFromPolicyEntry key kv.2.toMapStateEntry)

/-- The protocol and port of a key as the 24 bits after the static prefix. -/
def PolicyKey.l4Bits (k : PolicyKey) : Nat := k.nexthdr.toNat * 65536 + k.destPort.toNat

/-- The LPM trie match: the map key's identity and direction, and its first protocol and port
bits, are those of the lookup key. -/
def lpmMatches (mk k : PolicyKey) : Bool :=
  let q := mk.prefixlen.toNat - staticPrefixBits.toNat
  mk.identity == k.identity && mk.trafficDirection == k.trafficDirection &&
    mk.l4Bits >>> (24 - q) == k.l4Bits >>> (24 - q)

/-- `map_lookup_elem` on the LPM trie: the matching entry of the longest prefix. -/
def mapLookupElem (m : List (PolicyKey × PolicyEntry)) (k : PolicyKey) : Option PolicyEntry :=
  ((m.filter fun e => lpmMatches e.1 k).foldl (fun best e => match best with
    | none => some e
    | some b => if e.1.prefixlen > b.1.prefixlen then some e else best) none).map (·.2)

/-- The return codes of `__policy_can_access`. -/
inductive PolicyRet where
  | ctxActOk
  | dropPolicyDeny
  | dropPolicyAuthRequired
  | dropPolicy
  | dropFragNoSupport
  deriving DecidableEq, Repr

/-- What `__policy_can_access` returns and writes to its outputs `proxy_port`, `cookie` and
`ext_err`; `none` is an output left as it was. -/
structure PolicyResult where
  ret : PolicyRet
  proxyPort : Option UInt16
  cookie : Option UInt32
  extErr : Option UInt8
  deriving DecidableEq, Repr

/-- `__policy_check`: a deny drops; an allow gives its proxy port and drops for auth when it has
an auth type, which a `policy2` of the same precedence lends it if the own one is derived and
lower. -/
def policyCheck (policy : PolicyEntry) (policy2 : Option PolicyEntry) : PolicyResult :=
  if policy.isDeny then ⟨.dropPolicyDeny, none, some policy.cookie, none⟩
  else
    let authType := match policy2 with
      | some p2 =>
        if p2.precedence == policy.precedence && !policy.authRequirement.isExplicit &&
            p2.authRequirement.authType > policy.authRequirement.authType then
          p2.authRequirement.authType
        else policy.authRequirement.authType
      | none => policy.authRequirement.authType
    if authType != 0 then
      ⟨.dropPolicyAuthRequired, some policy.proxyPort, some policy.cookie, some authType⟩
    else ⟨.ctxActOk, some policy.proxyPort, some policy.cookie, none⟩

/-- `aggregate_for_identity` of `bpf/lib/identity.h`, with the default 8 cluster ID bits: the
cluster ID is the identity shifted right by 16, unmasked. -/
def aggregateForIdentity (clusterID : UInt32) (identity : UInt32) : UInt32 :=
  if identity = identityUnknown ∨ identity = reservedIdentityAggregateCluster ∨
      identity = reservedIdentityAggregateClusterMesh ∨
      identity = reservedIdentityAggregateRemoteNode ∨ identity = reservedIdentityAggregateWorld then
    identity
  else if identity < 100 then identityUnknown
  else if identity &&& identityScopeMask = identityScopeRemoteNode then
    reservedIdentityAggregateRemoteNode
  else if identity &&& identityScopeMask = identityScopeLocal then reservedIdentityAggregateWorld
  else if identity >>> 16 = clusterID then reservedIdentityAggregateCluster
  else reservedIdentityAggregateClusterMesh

/-- `__policy_can_access` for a packet of protocol `proto` to port `dport` from `remoteId`. -/
def policyCanAccess (clusterID : UInt32) (m : List (PolicyKey × PolicyEntry)) (remoteId : UInt32)
    (trafficDirection proto : UInt8) (dport : UInt16) (isUntrackedFragment : Bool) :
    PolicyResult :=
  let key : PolicyKey := ⟨64, remoteId, trafficDirection, proto, dport⟩
  let policy := mapLookupElem m key
  match policy with
  | some p =>
    if p.precedence == maxPrecedence then policyCheck p none
    else
      let aggId := aggregateForIdentity clusterID remoteId
      let aggPolicy := if aggId != remoteId then mapLookupElem m { key with identity := aggId }
        else none
      match aggPolicy with
      | some a =>
        if a.precedence > p.precedence ||
            a.precedence == p.precedence && a.getPrefixLen > p.getPrefixLen then
          policyCheck a (some p)
        else policyCheck p (some a)
      | none => policyCheck p none
  | none =>
    let aggId := aggregateForIdentity clusterID remoteId
    let aggPolicy := if aggId != remoteId then mapLookupElem m { key with identity := aggId }
      else none
    -- the fallback to identity 0 when nothing was found
    let aggPolicy := if aggPolicy.isNone && aggId != 0 then mapLookupElem m { key with identity := 0 }
      else aggPolicy
    match aggPolicy with
    | some a => policyCheck a none
    | none => ⟨if isUntrackedFragment then .dropFragNoSupport else .dropPolicy, none, none, none⟩

/-- Two allows of one precedence with different proxy ports, the specific identity's on a longer
port prefix: `mapState.lookup` picks the aggregate's proxy port, the datapath the specific
one's. -/
theorem lookup_proxy_port_differs_from_datapath :
    let kAgg : Key := (ingressKey.withIdentity 11).withPortProto 6 0
    let kId : Key := (ingressKey.withIdentity 256).withPortProto 6 80
    let noChanges : ChangeState := ⟨none, none, none⟩
    let ms := ((newMapState redirectRules).insertWithChanges 0 (0 : Priority).toDenyPrecedence
      kAgg (newMapStateEntry 0 0 10 nilRuleOrigin 1000 0 .allow 0) redirectRules noChanges).1
    let ms := (ms.insertWithChanges 0 (0 : Priority).toDenyPrecedence kId
      (newMapStateEntry 0 0 10 nilRuleOrigin 2000 0 .allow 0) redirectRules noChanges).1
    (ms.lookup 0 kId).1.isAllow = true ∧ (ms.lookup 0 kId).1.proxyPort = 1000 ∧
      policyCanAccess 0 (exportMapState ms) 256 0 6 80 false =
        ⟨.ctxActOk, some 2000, some 0, none⟩ := by
  decide

end Cilium.Policy
