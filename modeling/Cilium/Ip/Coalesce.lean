import Cilium.Lib.GoNet

/-! `CoalesceCIDRs` of `pkg/ip/ip.go`: each CIDR becomes the range of its first and last
address (`ipNetToRange`, in 16 bytes), the ranges of each family are sorted and merged where
they overlap or touch (`mergeAdjacentCIDRs`), and a merged range is cut back into CIDRs
(`rangeToCIDRs`, from the spanning CIDR of the range and `PartitionCIDR`).

An index out of range, which panics in Go, makes a function `none`.  The integers that the source
keeps in `big.Int` are natural numbers. -/

namespace Cilium.Ip

open GoNet

def ipv4BitLen : ℕ := 8 * ipv4len
def ipv6BitLen : ℕ := 8 * ipv6len

def v4Mappedv6Prefix : List UInt8 := [0, 0, 0, 0, 0, 0, 0, 0, 0, 0, 0xff, 0xff]
def ipv4LeadingZeroes : List UInt8 := [0, 0, 0, 0, 0, 0, 0, 0, 0, 0]
def defaultIPv4 : IP := v4Mappedv6Prefix ++ [0, 0, 0, 0]
def defaultIPv6 : IP := List.replicate 16 0
def upperIPv4 : IP := v4Mappedv6Prefix ++ [255, 255, 255, 255]
def upperIPv6 : IP := List.replicate 16 255

/-- `netWithRange`: the first and last address of a range, and the CIDR it was made from, `nil`
once merged. -/
structure netWithRange where
  first : IP
  last : IP
  network : Option IPNet
  deriving DecidableEq, Repr

/-- `NetsByRange.Less`: by last address, then by first address, which the source compares with
itself. -/
def netsByRangeLess (a b : netWithRange) : Bool :=
  match compareBytes a.last b.last with
  | .lt => true
  | .gt => false
  | .eq => compareBytes a.first a.first == .lt

/-- The loop of `ipNetToRange` that sets the host bits of the last address: byte `15 - i` of it
for byte `i` from the end of the mask; `none` when an index is out of range. -/
def setHostBits (mask : IPMask) (lastIP : IP) : Option IP :=
  (List.range mask.length).foldlM (fun lastIP i =>
    if i ≤ 15 ∧ 15 - i < lastIP.length then
      some (lastIP.set (15 - i) (lastIP[15 - i]! ||| ~~~mask[mask.length - i - 1]!))
    else none) lastIP

/-- `ipNetToRange`: the masked address, mapped to 16 bytes when it is an IPv4 one, and the same
with the host bits set. -/
def ipNetToRange (ipNet : IPNet) : Option netWithRange :=
  let firstIP := ipNet.ip.mask ipNet.mask
  let lastIP := ipNet.ip.mask ipNet.mask
  let (firstIP, lastIP) := if firstIP.to4 ≠ [] then (v4Mappedv6Prefix ++ firstIP,
      v4Mappedv6Prefix ++ lastIP) else (firstIP, lastIP)
  (setHostBits ipNet.mask lastIP).map fun lastIP => ⟨firstIP, lastIP, some ipNet⟩

/-- The loop of `getPreviousIP` from the last byte down to `lowerByteBound`, borrowing while a
zero byte wraps to 255. -/
def previousLoop (ip : IP) (lowerByteBound : ℕ) : IP :=
  ((List.range ip.length).reverse.filter (lowerByteBound ≤ ·)).foldl (fun (acc : IP × Bool) i =>
    let prev := if acc.2 ∨ i = ip.length - 1 then acc.1.set i (acc.1[i]! - 1) else acc.1
    (prev, ip[i]! = 0 ∧ prev[i]! = 255)) (ip, false) |>.1

/-- `getPreviousIP`: the address before, the lowest address itself. -/
def getPreviousIP (ip : IP) : IP :=
  if ip.equal defaultIPv4 || ip.equal defaultIPv6 then ip
  else previousLoop ip (if ip.to4 ≠ [] then ipv6len - ipv4len else 0)

/-- `getNextIP`: the address after, the highest address itself. -/
def getNextIP (ip : IP) : IP :=
  if ip.equal upperIPv4 || ip.equal upperIPv6 then ip
  else if ip.length = ipv4len then putBytes 4 (setBytes ip + 1)
  else if ip.length = ipv6len then
    let lo := (setBytes (ip.drop 8) + 1) % 2 ^ 64
    let hi := if lo = 0 then setBytes (ip.take 8) + 1 else setBytes (ip.take 8)
    putBytes 8 hi ++ putBytes 8 lo
  else ip

/-- The loop of `createSpanningCIDR`: shorten the mask and clear the bits past it in the upper
bound until it is not above the lower one. -/
def spanLoop (bitLen lowest : ℕ) : ℕ → ℕ → ℕ → ℕ × ℕ
  | 0, size, highest => (size, highest)
  | fuel + 1, size, highest =>
    if size > 0 ∧ lowest < highest then
      let size := size - 1
      spanLoop bitLen lowest fuel size (highest / 2 ^ (bitLen - size) * 2 ^ (bitLen - size))
    else (size, highest)

/-- `createSpanningCIDR`: the smallest CIDR that holds the range.  The address is written with
`big.Int.Bytes`, after ten zero bytes for an IPv4 one, and is sixteen zero bytes when empty. -/
def createSpanningCIDR (r : netWithRange) : IPNet :=
  let isIPv4 := r.first.to4 ≠ []
  let bitLen := if isIPv4 then ipv4BitLen else ipv6BitLen
  let byteLen := if isIPv4 then ipv4len else ipv6len
  let (spanningMaskSize, highestBig) :=
    spanLoop bitLen (setBytes r.first) bitLen bitLen (setBytes r.last)
  let highest := if isIPv4 then ipv4LeadingZeroes ++ intBytes highestBig else intBytes highestBig
  let highest := if highest.length = 0 then List.replicate byteLen 0 else highest
  ⟨highest, cidrMask spanningMaskSize bitLen⟩

/-- The bytes of a `big.Int` bound of `PartitionCIDR`: ten zero bytes before an IPv4 one, and an
IPv6 one padded to sixteen bytes. -/
def boundBytes (targetIsIPv4 : Bool) (n : ℕ) : IP :=
  if targetIsIPv4 then ipv4LeadingZeroes ++ intBytes n
  else if (intBytes n).length ≠ ipv6len then
    List.replicate (ipv6len - (intBytes n).length) 0 ++ intBytes n
  else intBytes n

/-- The loop of `PartitionCIDR`: split the block at `iLower` of prefix `newPrefixLen` in halves
and keep the half away from the excluded address, until the prefix of `excludeCIDR`. -/
def partitionLoop (targetIsIPv4 : Bool) (bitLen excludeMaskSize : ℕ) (excludeFirstIP : IP) :
    ℕ → ℕ → ℕ → ℕ → List IPNet → List IPNet → List IPNet × List IPNet
  | 0, _, _, _, left, right => (left, right)
  | fuel + 1, newPrefixLen, iLower, iUpper, left, right =>
    if excludeMaskSize ≥ newPrefixLen then
      let iUpperBytes := boundBytes targetIsIPv4 iUpper
      let iLowerBytes := boundBytes targetIsIPv4 iLower
      let (left, right, matched) :=
        if compareBytes excludeFirstIP iUpperBytes ≠ .lt then
          (left ++ [⟨iLowerBytes, cidrMask newPrefixLen bitLen⟩], right, iUpper)
        else (left, right ++ [⟨iUpperBytes, cidrMask newPrefixLen bitLen⟩], iLower)
      let newPrefixLen := newPrefixLen + 1
      if newPrefixLen > bitLen then (left, right)
      else partitionLoop targetIsIPv4 bitLen excludeMaskSize excludeFirstIP fuel newPrefixLen
        matched (matched + 2 ^ (bitLen - newPrefixLen)) left right
    else (left, right)

/-- `PartitionCIDR`: the CIDRs of `targetCIDR` below `excludeCIDR`, `excludeCIDR` itself, and those
above it; the target on its own side when the two do not meet, or in the middle when it is not
larger. -/
def partitionCIDR (targetCIDR excludeCIDR : IPNet) :
    Option (List IPNet × List IPNet × List IPNet) := do
  let targetIsIPv4 := targetCIDR.ip.to4 ≠ []
  let targetIPRange ← ipNetToRange targetCIDR
  let excludeIPRange ← ipNetToRange excludeCIDR
  let targetMaskSize := targetCIDR.mask.size.1
  let excludeMaskSize := excludeCIDR.mask.size.1
  if compareBytes excludeIPRange.last targetIPRange.first = .lt then return ([], [], [targetCIDR])
  else if compareBytes targetIPRange.last excludeIPRange.first = .lt then
    return ([targetCIDR], [], [])
  if targetMaskSize ≥ excludeMaskSize then return ([], [targetCIDR], [])
  let newPrefixLen := targetMaskSize + 1
  let bitLen := if targetIsIPv4 then ipv4BitLen else ipv6BitLen
  let iLower := setBytes targetIPRange.first
  let iUpper := setBytes targetIPRange.first.to16 + 2 ^ (bitLen - newPrefixLen)
  let (left, right) := partitionLoop targetIsIPv4 bitLen excludeMaskSize excludeIPRange.first
    (bitLen + 1) newPrefixLen iLower iUpper [] []
  return (left, [excludeCIDR], right)

/-- `rangeToCIDRs`: the spanning CIDR of the range, cut above the address before `firstIP` and
below the address after `lastIP` where it passes them; `right[0]` of an empty partition is out of
range. -/
def rangeToCIDRs (firstIP lastIP : IP) : Option (List IPNet) := do
  let spanningCIDR := createSpanningCIDR ⟨firstIP, lastIP, none⟩
  let spanningRange ← ipNetToRange spanningCIDR
  let (cidrList, spanningCIDR) ← if compareBytes spanningRange.first firstIP = .lt then do
      let prevFirstRangeIP := getPreviousIP firstIP
      let bitLen := if prevFirstRangeIP.to4 ≠ [] then ipv4BitLen else ipv6BitLen
      let (_, _, right) ← partitionCIDR spanningCIDR ⟨prevFirstRangeIP, cidrMask bitLen bitLen⟩
      let spanningCIDR ← right.head?
      pure (right.drop 1, spanningCIDR)
    else pure ([], spanningCIDR)
  if compareBytes spanningRange.last lastIP = .gt then do
    let nextFirstRangeIP := getNextIP lastIP
    let bitLen := if nextFirstRangeIP.to4 ≠ [] then ipv4BitLen else ipv6BitLen
    let (left, _, _) ← partitionCIDR spanningCIDR ⟨nextFirstRangeIP, cidrMask bitLen bitLen⟩
    pure (cidrList ++ left)
  else pure (cidrList ++ [spanningCIDR])

/-- The loop of `mergeAdjacentCIDRs`, from the last range down: `current` is the range at the
index, merged with those above it, and `done` the ranges above that no longer change.  A range
that reaches up to the address before `current` starts is merged into it. -/
def mergeLoop : netWithRange → List netWithRange → List netWithRange → List netWithRange
  | current, [], done => current :: done
  | current, prev :: rest, done =>
    if compareBytes (getPreviousIP current.first) prev.last ≠ .gt then
      let minFirstIP := if compareBytes prev.first current.first = .lt then prev.first
        else current.first
      mergeLoop ⟨minFirstIP, current.last, none⟩ rest done
    else mergeLoop prev rest (current :: done)

/-- `mergeAdjacentCIDRs`: sort by `NetsByRange`, then merge from the end. -/
def mergeAdjacentCIDRs (ranges : List netWithRange) : List netWithRange :=
  match (ranges.insertionSort fun a b => netsByRangeLess b a = false).reverse with
  | [] => []
  | current :: rest => mergeLoop current rest []

/-- `coalesceRanges`: the CIDR of each range that was not merged, the CIDRs of each one that
was. -/
def coalesceRanges (ranges : List netWithRange) : Option (List IPNet) :=
  ranges.foldlM (fun acc netRange => match netRange.network with
    | some network => some (acc ++ [network])
    | none => (rangeToCIDRs netRange.first netRange.last).map (acc ++ ·)) []

/-- `CoalesceCIDRs`: the coalesced IPv4 and IPv6 CIDRs. -/
def coalesceCIDRs (cidrs : List IPNet) : Option (List IPNet × List IPNet) := do
  let ranges ← cidrs.mapM ipNetToRange
  let ranges4 := (cidrs.zip ranges).filter (·.1.ip.to4 ≠ []) |>.map (·.2)
  let ranges6 := (cidrs.zip ranges).filter (·.1.ip.to4 = []) |>.map (·.2)
  let v4 ← coalesceRanges (mergeAdjacentCIDRs ranges4)
  let v6 ← coalesceRanges (mergeAdjacentCIDRs ranges6)
  pure (v4, v6)

/-- Two adjacent addresses of the NAT64 prefix `64:ff9b::/96` merge into one range.  Its spanning
CIDR `64:ff9b::a00:2/127` is written with `big.Int.Bytes`, which drops the leading zero byte, so
`ipNetToRange` masks fifteen bytes with sixteen, gets `nil`, and indexes it out of range. -/
theorem coalesceCIDRs_nat64_pair_panics :
    let a : IPNet := ⟨[0, 0x64, 0xff, 0x9b, 0, 0, 0, 0, 0, 0, 0, 0, 10, 0, 0, 2], cidrMask 128 128⟩
    let b : IPNet := ⟨[0, 0x64, 0xff, 0x9b, 0, 0, 0, 0, 0, 0, 0, 0, 10, 0, 0, 3], cidrMask 128 128⟩
    (createSpanningCIDR ⟨a.ip, b.ip, none⟩).ip.length = 15 ∧ coalesceCIDRs [a, b] = none := by
  decide

end Cilium.Ip
