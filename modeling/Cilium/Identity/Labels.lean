import Cilium.IPCache.IPCache
import Mathlib.Data.List.Sort

/-! Labels (`pkg/labels`) and the prefixes they are drawn from (`net/netip`).  A `Labels` map is
keyed by the label's key, as the source's is; the allocator keys an identity by the labels sorted
by key, which is what the text of `SortedList` encodes.  A prefix gives a CIDR label whose key is
the text of its masked address: dotted decimal for IPv4, and for IPv6 the hexadecimal groups with
the longest run of zero groups written `::`, as `netip.Addr.String` writes them, and the colons
turned into dashes.  The zone of an IPv6 address and the cached prefix of a CIDR label are left
out. -/

namespace Cilium

open Cilium.Ipcache

/-- `netip.Prefix`. -/
structure Prefix where
  addr : Addr
  bits : Nat
  deriving DecidableEq, Repr

namespace Ipcache

/-- `Addr.Is4In6`: an IPv6 address in `::ffff:0:0/96`. -/
def Addr.is4In6 : Addr → Bool
  | .v4 _ => false
  | .v6 b => b >>> 32 == 0xffff

/-- `Addr.Unmap`: the IPv4 address of an IPv4-mapped IPv6 address. -/
def Addr.unmap : Addr → Addr
  | .v4 b => .v4 b
  | .v6 b => if Addr.is4In6 (.v6 b) then .v4 (b.setWidth 32) else .v6 b

/-- `Addr.Prefix`: the address with all but its first `bits` bits cleared; an error past the
address's length. -/
def Addr.prefixOf (a : Addr) (bits : Nat) : Option Prefix :=
  if bits ≤ a.bitLen then
    match a with
    | .v4 b => some ⟨.v4 ((b >>> (32 - bits)) <<< (32 - bits)), bits⟩
    | .v6 b => some ⟨.v6 ((b >>> (128 - bits)) <<< (128 - bits)), bits⟩
  else none

/-- `PrefixCluster.AsPrefix`. -/
def PrefixCluster.asPrefix (p : PrefixCluster) : Prefix := ⟨p.addr, p.bits⟩

/-- The bits of an address with its low `k` bits cleared. -/
theorem getLsbD_mask {w : Nat} (b : BitVec w) (k j : Nat) :
    (b >>> k <<< k).getLsbD j = (decide (k ≤ j) && b.getLsbD j) := by
  rw [BitVec.getLsbD_shiftLeft, BitVec.getLsbD_ushiftRight]
  by_cases hjk : j < k
  · simp [hjk]
  · by_cases hjw : j < w
    · have : k + (j - k) = j := by omega
      have hkj : k ≤ j := by omega
      simp [hjk, hjw, this, hkj]
    · simp [hjw, BitVec.getLsbD_of_ge b j (by omega)]

/-- Clearing the low bits twice clears them once. -/
theorem mask_mask {w : Nat} (b : BitVec w) (k : Nat) :
    (b >>> k <<< k) >>> k <<< k = b >>> k <<< k := by
  apply BitVec.eq_of_getLsbD_eq
  intro j _
  rw [getLsbD_mask, getLsbD_mask]
  cases decide (k ≤ j) <;> rfl

/-- Clearing low bits of an address outside `::ffff:0:0/96` keeps it outside. -/
theorem is4In6_mask (b : BitVec 128) (k : Nat) (h : Addr.is4In6 (.v6 b) = false) :
    Addr.is4In6 (.v6 (b >>> k <<< k)) = false := by
  simp only [Addr.is4In6, beq_eq_false_iff_ne, ne_eq] at h ⊢
  intro heq
  by_cases hk : k ≤ 32
  · -- the cleared bits are all below the 96 that decide
    apply h
    rw [← heq]
    apply BitVec.eq_of_getLsbD_eq
    intro j _
    rw [BitVec.getLsbD_ushiftRight, BitVec.getLsbD_ushiftRight, getLsbD_mask]
    have : k ≤ 32 + j := by omega
    simp [this]
  · -- bit 32 is cleared, but it is set in every mapped address
    have h0 := congrArg (fun v : BitVec 128 => v.getLsbD 0) heq
    simp only [BitVec.getLsbD_ushiftRight, getLsbD_mask] at h0
    have hw : ¬ k ≤ 32 + 0 := by omega
    simp [hw] at h0

theorem Addr.unmap_of_is4In6_eq_false {a : Addr} (h : a.is4In6 = false) : a.unmap = a := by
  cases a with
  | v4 b => rfl
  | v6 b => simp [Addr.unmap, h]

theorem Addr.is4In6_unmap (a : Addr) : a.unmap.is4In6 = false := by
  cases a with
  | v4 b => rfl
  | v6 b =>
    by_cases h : Addr.is4In6 (.v6 b) = true
    · simp only [Addr.unmap, h, if_true]
      rfl
    · simp [Addr.unmap, h]

theorem Addr.prefixOf_eq_some {a : Addr} {bits : Nat} {q : Prefix} (h : a.prefixOf bits = some q) :
    q.bits = bits ∧ q.addr.bitLen = a.bitLen ∧ bits ≤ a.bitLen := by
  unfold Addr.prefixOf at h
  split at h
  · rename_i hle
    cases a <;> simp only [Option.some.injEq] at h <;> subst h <;> exact ⟨rfl, rfl, hle⟩
  · cases h

/-- A masked address is its own prefix. -/
theorem Addr.prefixOf_idem {a : Addr} {bits : Nat} {q : Prefix} (h : a.prefixOf bits = some q) :
    q.addr.prefixOf bits = some q := by
  unfold Addr.prefixOf at h ⊢
  split at h
  · rename_i hle
    cases a with
    | v4 b =>
      simp only [Option.some.injEq] at h
      subst h
      have : bits ≤ 32 := hle
      simp [Addr.bitLen, this, mask_mask]
    | v6 b =>
      simp only [Option.some.injEq] at h
      subst h
      have : bits ≤ 128 := hle
      simp [Addr.bitLen, this, mask_mask]
  · cases h

theorem Addr.is4In6_prefixOf {a : Addr} {bits : Nat} {q : Prefix} (ha : a.is4In6 = false)
    (h : a.prefixOf bits = some q) : q.addr.is4In6 = false := by
  unfold Addr.prefixOf at h
  split at h
  · cases a with
    | v4 b =>
      simp only [Option.some.injEq] at h
      subst h
      rfl
    | v6 b =>
      simp only [Option.some.injEq] at h
      subst h
      exact is4In6_mask b _ ha
  · cases h

/-- The four decimal bytes of an IPv4 address, dot-separated. -/
def string4 (b : BitVec 32) : String :=
  String.intercalate "." ([24, 16, 8, 0].map fun s => toString ((b >>> s).toNat % 256))

/-- The eight 16-bit groups of an IPv6 address. -/
def groups6 (b : BitVec 128) : List Nat :=
  (List.range 8).map fun i => (b >>> (112 - 16 * i)).toNat % 65536

/-- The number of zero groups from group `i` on. -/
def zeroRun (g : List Nat) (i : Nat) : Nat := ((g.drop i).takeWhile (· == 0)).length

/-- The first longest run of at least two zero groups, as its start and end; `(255, 255)` when
there is none. -/
def longestZeroRun (g : List Nat) : Nat × Nat :=
  (List.range 8).foldl (fun (zs, ze) i =>
    let l := zeroRun g i
    if 2 ≤ l ∧ ze - zs < l then (i, i + l) else (zs, ze)) (255, 255)

/-- `Addr.string6`: lowercase hexadecimal groups, the longest zero run written `::`. -/
def string6 (b : BitVec 128) : String :=
  let g := (groups6 b).map fun n => String.ofList (Nat.toDigits 16 n)
  let (zs, ze) := longestZeroRun (groups6 b)
  if zs = 255 then String.intercalate ":" g
  else String.intercalate ":" (g.take zs) ++ "::" ++ String.intercalate ":" (g.drop ze)

/-- `Addr.String`. -/
def Addr.toString : Addr → String
  | .v4 b => string4 b
  | .v6 b => if Addr.is4In6 (.v6 b) then "::ffff:" ++ string4 (b.setWidth 32) else string6 b

end Ipcache

/-- `Prefix.IsValid`. -/
def Prefix.isValid (p : Prefix) : Bool := p.bits ≤ p.addr.bitLen

/-- `Prefix.Masked`. -/
def Prefix.masked (p : Prefix) : Prefix := (p.addr.prefixOf p.bits).getD p

/-- Whether the `Descendants` of `p` in a prefix trie reach `q`: both valid, of one family, `q`
at least as long, and the first `p.bits` bits of their addresses equal. -/
def Prefix.isDescendant (p q : Prefix) : Bool :=
  p.isValid && q.isValid && p.bits ≤ q.bits &&
    (q.addr.prefixOf p.bits).map (·.addr) == (p.addr.prefixOf p.bits).map (·.addr)

/-- `labels.Label`. -/
structure Label where
  key : String
  value : String
  source : String
  deriving DecidableEq, Repr

/-- `labels.Labels`: a map from a label key to the label of that key. -/
abbrev Labels := AList fun _ : String => Label

/-- The options of `option.Config` that the label code reads. -/
structure DaemonConfig where
  enableIPv4 : Bool
  enableIPv6 : Bool
  policyCIDRMatchMode : List String
  enableNodeSelectorLabels : Bool
  deriving DecidableEq, Repr

def DaemonConfig.policyCIDRMatchesNodes (c : DaemonConfig) : Bool := c.policyCIDRMatchMode.contains "nodes"

def DaemonConfig.perNodeLabelsEnabled (c : DaemonConfig) : Bool := c.enableNodeSelectorLabels

namespace Labels

def labelSourceReserved : String := "reserved"
def labelSourceCIDR : String := "cidr"
def labelSourceCIDRGroup : String := "cidrgroup"
def labelSourceNode : String := "node"
def labelSourceFQDN : String := "fqdn"

def idNameHost : String := "host"
def idNameRemoteNode : String := "remote-node"
def idNameWorld : String := "world"
def idNameWorldIPv4 : String := "world-ipv4"
def idNameWorldIPv6 : String := "world-ipv6"
def idNameHealth : String := "health"
def idNameIngress : String := "ingress"

/-- A map of one label. -/
def single (l : Label) : Labels := (∅ : Labels).insert l.key l

def worldLabel : Label := ⟨idNameWorld, "", labelSourceReserved⟩
def worldLabelV4 : Label := ⟨idNameWorldIPv4, "", labelSourceReserved⟩
def worldLabelV6 : Label := ⟨idNameWorldIPv6, "", labelSourceReserved⟩

def labelHost : Labels := single ⟨idNameHost, "", labelSourceReserved⟩
def labelWorld : Labels := single worldLabel
def labelWorldIPv4 : Labels := single worldLabelV4
def labelWorldIPv6 : Labels := single worldLabelV6

def hasLabelWithKey (l : Labels) (key : String) : Bool := (l.lookup key).isSome

def hasHealthLabel (l : Labels) : Bool := l.hasLabelWithKey idNameHealth
def hasIngressLabel (l : Labels) : Bool := l.hasLabelWithKey idNameIngress
def hasHostLabel (l : Labels) : Bool := l.hasLabelWithKey idNameHost
def hasRemoteNodeLabel (l : Labels) : Bool := l.hasLabelWithKey idNameRemoteNode

/-- `Labels.HasSource`. -/
def hasSource (l : Labels) (source : String) : Bool := l.entries.any (·.2.source == source)

/-- The labels whose entry `keep` accepts. -/
def filter (l : Labels) (keep : Label → Bool) : Labels :=
  ⟨l.entries.filter (keep ·.2), l.nodupKeys.sublist List.filter_sublist⟩

/-- `Labels.RemoveFromSource`. -/
def removeFromSource (l : Labels) (source : String) : Labels := l.filter (·.source != source)

/-- `Labels.Remove`: the labels whose key `fromLabels` does not have. -/
def remove (l fromLabels : Labels) : Labels := l.filter fun lbl => !fromLabels.hasLabelWithKey lbl.key

/-- `Labels.MergeLabels`: the labels of `fromLabels` overwrite those of the same key. -/
def mergeLabels (l fromLabels : Labels) : Labels := fromLabels ∪ l

/-- The labels sorted by key, which `SortedList` writes out. -/
def sortedList (l : Labels) : List Label :=
  (l.entries.map (·.2)).insertionSort fun a b => a.key ≤ b.key

/-- `Labels.DeepEqual`: the same keys with the same labels. -/
def deepEqual (l o : Labels) : Bool :=
  l.entries.length == o.entries.length && l.entries.all fun s => o.lookup s.1 == some s.2

/-- `getWorldLabel`: the world label of the address's family, qualified when the other family is
enabled too. -/
def getWorldLabel (cfg : DaemonConfig) : Addr → Label
  | .v4 _ => if cfg.enableIPv6 then worldLabelV4 else worldLabel
  | .v6 _ => if cfg.enableIPv4 then worldLabelV6 else worldLabel

/-- `Labels.AddWorldLabel`. -/
def addWorldLabel (cfg : DaemonConfig) (l : Labels) (addr : Addr) : Labels :=
  let lbl := getWorldLabel cfg addr
  l.insert lbl.key lbl

/-- The dashed text of an IPv6 address: each colon a dash, with a zero before a leading one and
after a trailing one. -/
def dashes (s : List Char) : List Char :=
  let n := s.length
  (List.range n).zip s |>.flatMap fun (i, c) =>
    if c = ':' then
      if i = 0 then ['0', '-'] else if i = n - 1 then ['-', '0'] else ['-']
    else [c]

/-- `getCIDRLabel`. -/
def getCIDRLabel (p : Prefix) : Label :=
  let ipStr := p.masked.addr.toString
  let ipStr := match p.addr with
    | .v4 _ => ipStr
    | .v6 _ => String.ofList (dashes ipStr.toList)
  ⟨ipStr ++ "/" ++ toString p.bits, "", labelSourceCIDR⟩

/-- `GetCIDRLabels`: the CIDR label, unless the prefix is empty, and the world label. -/
def getCIDRLabels (cfg : DaemonConfig) (p : Prefix) : Labels :=
  let lbls : Labels := if 0 < p.bits then single (getCIDRLabel p) else ∅
  addWorldLabel cfg lbls p.addr

end Labels

end Cilium
