import Cilium.Bitlpm.Trie

/-! The types of `pkg/policy/types` that a policy map state is made of: the 32-bit precedence of
an entry (an inverted priority in the upper 24 bits, and a low byte that tells deny, allow, proxy
redirect and pass apart), `MapStateEntry`, and the policy key, split as in the source into the
`LPMKey` that the bit-LPM trie indexes (direction, protocol, port prefix) and a numeric identity;
then the aggregate identities of `pkg/policy/aggregate.go`.  Go's unsigned integers are Lean's
`UIntN`, so the source's wrap-around is the model's; Go's shifts, which give zero once the count
reaches the width, are `shr16` and `shl16`. -/

namespace Cilium.Policy

/-- `identity.NumericIdentity`. -/
abbrev NumericIdentity := UInt32

/-- Go's `x >> n` on a `uint16`. -/
def shr16 (x : UInt16) (n : Nat) : UInt16 := ⟨x.toBitVec >>> n⟩

/-- Go's `x << n` on a `uint16`. -/
def shl16 (x : UInt16) (n : Nat) : UInt16 := ⟨x.toBitVec <<< n⟩

/-- `bits.LeadingZeros8`. -/
def leadingZeros8 (x : UInt8) : Nat := x.toBitVec.clz.toNat

/-- `bits.LeadingZeros16`. -/
def leadingZeros16 (x : UInt16) : Nat := x.toBitVec.clz.toNat

namespace Types

abbrev ListenerPriority := UInt8
abbrev Priority := UInt32
abbrev Precedence := UInt32
abbrev AuthRequirement := UInt8

def maxListenerPriority : ListenerPriority := 126
def lowestPriority : Priority := ((1 : Priority) <<< 24) - 1
def precedenceByteMask : Precedence := 255
def precedenceByteDeny : Precedence := 255
def precedenceByteAllow : Precedence := 1
def precedenceBytePass : Precedence := 0
def maxPrecedence : Precedence := ~~~0
def maxDenyPrecedence : Precedence := maxPrecedence
def maxAllowPrecedence : Precedence := (maxPrecedence &&& ~~~precedenceByteMask) ||| precedenceByteAllow

/-- `Priority.toBasePrecedence`: the priority, inverted, in the upper 24 bits. -/
def Priority.toBasePrecedence (priority : Priority) : Precedence :=
  let priority := if priority > lowestPriority then lowestPriority else priority
  (lowestPriority - priority) <<< 8

def Priority.toPassPrecedence (priority : Priority) : Precedence := priority.toBasePrecedence

def Priority.toAllowPrecedence (priority : Priority) : Precedence :=
  priority.toBasePrecedence ||| precedenceByteAllow

def Priority.toDenyPrecedence (priority : Priority) : Precedence :=
  priority.toBasePrecedence ||| precedenceByteDeny

/-- `Precedence.WithListenerPriority`: the allow precedence of the same priority level, raised by
the inverted listener priority of a proxy redirect. -/
def Precedence.withListenerPriority (p : Precedence) (priority : ListenerPriority) : Precedence :=
  let p := (p &&& ~~~precedenceByteMask) ||| precedenceByteAllow
  if priority > 0 then
    let priority := min priority maxListenerPriority
    p + (precedenceByteMask - 1 - priority.toUInt32)
  else
    p + 1

def Precedence.isDeny (p : Precedence) : Bool := (p &&& precedenceByteMask) == precedenceByteDeny

def Precedence.isPass (p : Precedence) : Bool := (p &&& precedenceByteMask) == precedenceBytePass

def Precedence.isAllow (p : Precedence) : Bool := !p.isDeny && !p.isPass

/-- `Precedence.AllowPrecedence`: the precedence without its proxy redirect part. -/
def Precedence.allowPrecedence (p : Precedence) : Precedence :=
  (p &&& ~~~precedenceByteMask) ||| precedenceByteAllow

/-- `Precedence.ProxyPortPrecedenceMayDiffer`: the two precedences differ at most in the low
byte, and both or neither are denies. -/
def Precedence.proxyPortPrecedenceMayDiffer (p o : Precedence) : Bool :=
  (p ^^^ o) ≤ precedenceByteMask && p.isDeny == o.isDeny

def authTypeIsExplicit : AuthRequirement := (1 : AuthRequirement) <<< 7

def AuthRequirement.isExplicit (a : AuthRequirement) : Bool := (a &&& authTypeIsExplicit) != 0

def AuthRequirement.asDerived (a : AuthRequirement) : AuthRequirement := a &&& ~~~authTypeIsExplicit

def AuthRequirement.authType (a : AuthRequirement) : UInt8 := a.asDerived

/-- `MapStateEntry`: the datapath's view of a policy map entry. -/
structure MapStateEntry where
  precedence : Precedence
  proxyPort : UInt16
  invalid : Bool
  authRequirement : AuthRequirement
  cookie : UInt32
  deriving DecidableEq, Repr

namespace MapStateEntry

def invalidate (e : MapStateEntry) : MapStateEntry := { e with invalid := true }

def isValid (e : MapStateEntry) : Bool := !e.invalid

def isDeny (e : MapStateEntry) : Bool := e.precedence.isDeny

def isAllow (e : MapStateEntry) : Bool := e.precedence.isAllow

def isRedirectEntry (e : MapStateEntry) : Bool := e.proxyPort != 0

/-- `MapStateEntry.WithListenerPriority`: only a redirect entry carries a listener priority. -/
def withListenerPriority (e : MapStateEntry) (priority : ListenerPriority) : MapStateEntry :=
  if e.proxyPort != 0 then { e with precedence := e.precedence.withListenerPriority priority }
  else e

/-- `NewMapStateEntry`; a deny drops the proxy port, listener priority and auth requirement. -/
def new (priority : Priority) (deny : Bool) (proxyPort : UInt16)
    (listenerPriority : ListenerPriority) (authReq : AuthRequirement) : MapStateEntry :=
  let precedence := priority.toBasePrecedence
  if deny then
    withListenerPriority ⟨precedence ||| precedenceByteDeny, 0, false, 0, 0⟩ 0
  else
    withListenerPriority ⟨precedence ||| precedenceByteAllow, proxyPort, false, authReq, 0⟩
      listenerPriority

def allowEntry : MapStateEntry := ⟨maxAllowPrecedence, 0, false, 0, 0⟩

def denyEntry : MapStateEntry := ⟨maxDenyPrecedence, 0, false, 0, 0⟩

/-- `InvalidEntry`: the entry of a pass-only key, exported with the highest precedence. -/
def invalidEntry : MapStateEntry := ⟨maxDenyPrecedence, 0, true, 0, 0⟩

/-- `MapStateEntry.Merge`, called for entries on the same priority level: of two allows, the
higher precedence redirect wins (the lower port on a tie), and the higher auth type, explicit
before derived. -/
def merge (e entry : MapStateEntry) : MapStateEntry :=
  if e.isAllow && entry.isAllow then
    let e := if entry.isRedirectEntry && (entry.precedence > e.precedence ||
        entry.precedence == e.precedence && entry.proxyPort < e.proxyPort) then
      { e with proxyPort := entry.proxyPort, precedence := entry.precedence }
    else e
    if entry.authRequirement.isExplicit == e.authRequirement.isExplicit then
      if entry.authRequirement > e.authRequirement then
        { e with authRequirement := entry.authRequirement }
      else e
    else if entry.authRequirement.isExplicit then
      { e with authRequirement := entry.authRequirement }
    else e
  else e

end MapStateEntry

/-- `types.Verdict`. -/
inductive Verdict where
  | allow
  | deny
  | pass
  deriving DecidableEq, Repr

/-- `LPMKey`: the traffic direction in the top bit of `bits` and the port prefix length in its
low bits, the protocol, and the port. -/
structure LPMKey where
  bits : UInt8
  nexthdr : UInt8
  destPort : UInt16
  deriving DecidableEq, Repr

/-- `Key`: an `LPMKey` with the numeric identity, which the trie does not index. -/
structure Key extends LPMKey where
  identity : NumericIdentity
  deriving DecidableEq, Repr

def directionBitMask : UInt8 := (1 : UInt8) <<< 7

def egressKey : Key := ⟨⟨(1 : UInt8) <<< 7, 0, 0⟩, 0⟩

def ingressKey : Key := ⟨⟨0, 0, 0⟩, 0⟩

namespace LPMKey

def trafficDirection (k : LPMKey) : UInt8 := k.bits >>> 7

def portPrefixLen (k : LPMKey) : UInt8 := k.bits &&& ~~~directionBitMask

def hasPortWildcard (k : LPMKey) : Bool := (k.bits &&& ~~~directionBitMask) < 16

def endPort (k : LPMKey) : UInt16 := k.destPort + shr16 0xffff k.portPrefixLen.toNat

/-- `PrefixLength`: the direction bit, and the protocol and port prefix when there is a
protocol. -/
def prefixLength (k : LPMKey) : Nat :=
  if k.nexthdr = 0 then 1 else 9 + k.portPrefixLen.toNat

/-- `PortIsBroader`: a shorter port prefix whose bits the other port has.  Go's `^` binds looser
than `&`, so the mask applies to the other port only. -/
def portIsBroader (k c : LPMKey) : Bool :=
  k.portPrefixLen < c.portPrefixLen &&
    (k.destPort ^^^ (c.destPort &&& shl16 0xffff (16 - k.portPrefixLen).toNat)) == 0

/-- `PortIsEqual`, ignoring the traffic direction. -/
def portIsEqual (k c : LPMKey) : Bool := k.destPort == c.destPort && k.bits <<< 1 == c.bits <<< 1

def portProtoIsEqual (k c : LPMKey) : Bool := k.nexthdr == c.nexthdr && k.portIsEqual c

def portProtoIsBroader (k c : LPMKey) : Bool :=
  k.nexthdr == 0 && c.nexthdr != 0 || k.nexthdr == c.nexthdr && k.portIsBroader c

end LPMKey

/-- The trie key methods of `LPMKey`: `CommonPrefix` stops at the direction bit, then at the
protocol, then counts the common leading port bits; `BitValueAt` reads the direction bit, the
protocol bits and the port bits in that order, and zero past them, where Go's shift count
wraps around. -/
instance : Bitlpm.Key LPMKey where
  commonPrefix k b :=
    if (k.bits ^^^ b.bits) >>> 7 != 0 then 0
    else
      let v := 1 + leadingZeros8 (k.nexthdr ^^^ b.nexthdr)
      if v < 9 then v else v + leadingZeros16 (k.destPort ^^^ b.destPort)
  bitValueAt k i :=
    if i = 0 then k.bits >>> 7 == 1
    else if i < 9 then (k.nexthdr >>> (8 - i).toUInt8) &&& 1 == 1
    else if i ≤ 24 then (shr16 k.destPort (24 - i)) &&& 1 == 1
    else false

/-- `MapStatePrefixLen`, the maximum prefix of the map state's trie. -/
def mapStatePrefixLen : Nat := 32

namespace Key

def withIdentity (k : Key) (nid : NumericIdentity) : Key := { k with identity := nid }

def withProto (k : Key) (proto : UInt8) : Key := { k with nexthdr := proto }

def withPort (k : Key) (port : UInt16) : Key :=
  let bits := k.bits &&& directionBitMask
  { k with destPort := port, bits := if port != 0 then bits ||| 16 else bits }

/-- `WithPortPrefix`: the port masked to its prefix; a prefix past 16, or no prefix for a
non-zero port, is 16. -/
def withPortPrefix (k : Key) (port : UInt16) (prefixLen : UInt8) : Key :=
  let prefixLen := if prefixLen > 16 || port != 0 && prefixLen == 0 then 16 else prefixLen
  { k with destPort := port &&& shl16 0xffff (16 - prefixLen.toNat),
           bits := k.bits &&& directionBitMask ||| prefixLen }

def withPortProto (k : Key) (proto : UInt8) (port : UInt16) : Key := (k.withProto proto).withPort port

def withPortProtoPrefix (k : Key) (proto : UInt8) (port : UInt16) (prefixLen : UInt8) : Key :=
  (k.withProto proto).withPortPrefix port prefixLen

/-- `Covers`: every flow of `c` is a flow of `k`. -/
def covers (k c : Key) : Bool :=
  (k.identity == 0 || k.identity == c.identity) &&
    (k.nexthdr == 0 || k.nexthdr == c.nexthdr) &&
    (k.portIsEqual c.toLPMKey || k.portIsBroader c.toLPMKey)

end Key

end Types

/-! ### Aggregate identities (`pkg/policy/aggregate.go`) -/

open Cilium.Policy.Types

def identityUnknown : NumericIdentity := 0
def reservedIdentityAggregateCluster : NumericIdentity := 11
def reservedIdentityAggregateClusterMesh : NumericIdentity := 12
def reservedIdentityAggregateWorld : NumericIdentity := 13
def reservedIdentityAggregateRemoteNode : NumericIdentity := 14
def identityScopeMask : NumericIdentity := 0xFF000000
def identityScopeLocal : NumericIdentity := (1 : NumericIdentity) <<< 24
def identityScopeRemoteNode : NumericIdentity := (2 : NumericIdentity) <<< 24

/-- `NumericIdentity.ClusterID`, for the default `ClusterIDMax` of 255 (a shift of 16). -/
def clusterIDOf (nid : NumericIdentity) : UInt32 := (nid >>> 16) &&& 255

/-- `aggregateFor`: the identity that aggregates `nid`, for the agent's own `clusterID`
(`option.Config.ClusterID`). -/
def aggregateFor (clusterID : UInt32) (nid : NumericIdentity) : NumericIdentity :=
  if nid = identityUnknown ∨ nid = reservedIdentityAggregateCluster ∨
      nid = reservedIdentityAggregateClusterMesh ∨ nid = reservedIdentityAggregateWorld ∨
      nid = reservedIdentityAggregateRemoteNode then nid
  else if nid < 100 then identityUnknown
  else if nid &&& identityScopeMask = identityScopeRemoteNode then
    reservedIdentityAggregateRemoteNode
  else if nid &&& identityScopeMask = identityScopeLocal then reservedIdentityAggregateWorld
  else if clusterIDOf nid = clusterID then reservedIdentityAggregateCluster
  else reservedIdentityAggregateClusterMesh

/-- `aggregates`: `child` is aggregated by `agg`, and is not `agg` itself. -/
def aggregates (clusterID : UInt32) (agg child : NumericIdentity) : Bool :=
  agg != child && aggregateFor clusterID child == agg

def isAggregate (clusterID : UInt32) (nid : NumericIdentity) : Bool :=
  nid == aggregateFor clusterID nid

/-- `AllAggregates`. -/
def allAggregates : List NumericIdentity :=
  [identityUnknown, reservedIdentityAggregateRemoteNode, reservedIdentityAggregateWorld,
    reservedIdentityAggregateCluster, reservedIdentityAggregateClusterMesh]

end Cilium.Policy
