import Cilium.Policy.ToMapState

/-! The egress policy of one subject, two ways.  `iteratePolicy` is the step-by-step simulator of
`pkg/policy/testutils/simulate.go`: the entries that match a flow, in tier, priority and verdict
order, the first allow or deny deciding, a pass skipping the rest of its tier.  `distill` is the
map state that the agent builds from the same entries: `computeTierPriorities` and the loop of
`resolveL4Policy` (`pkg/policy/rules.go`) give each entry an absolute priority, leaving room after
each pass for the tiers below, and `L4Filter.toMapState` of each port rule inserts its keys, tier
by tier.

An entry selects one identity or every endpoint, and TCP ports; labels, named ports, L7 rules
and redirects are left out.  Each port rule of an entry is a filter of its own, inserted in the
sorted order of the entries, where the source merges the rules of one tier and port into one
filter.  A
Go `float64` priority is a natural number, of which only the order counts. -/

namespace Cilium.Policy

open Cilium.Policy.Types

/-- A `types.PolicyEntry` of the subject in the egress direction: its tier, priority and verdict,
whether it makes the subject default deny, the peer it selects (`none` selects every endpoint),
and its TCP port rules as port and end port (none is a rule of L3 only). -/
structure Types.PolicyEntry where
  tier : ℕ
  priority : ℕ
  verdict : Verdict
  defaultDeny : Bool
  peer : Option NumericIdentity
  ports : List (UInt16 × UInt16)
  deriving DecidableEq, Repr

/-! ### The simulator -/

namespace Simulate

/-- The verdict order of `sort`: deny before allow before pass. -/
def verdictOrder : Verdict → ℕ
  | .deny => 0
  | .allow => 1
  | .pass => 2

/-- The order of `sort`: tier, then priority, then verdict. -/
def sortLE (a b : Types.PolicyEntry) : Bool :=
  a.tier < b.tier || a.tier == b.tier &&
    (a.priority < b.priority || a.priority == b.priority &&
      verdictOrder a.verdict ≤ verdictOrder b.verdict)

/-- The test of `flattenMatchingL4` on one port rule of a TCP flow: a wildcard port, the start
port, or a range that holds the port. -/
def portMatches (dport : UInt16) (pr : UInt16 × UInt16) : Bool :=
  (pr.1 == 0 && pr.2 == 0) || pr.1 == dport || (pr.2 != 0 && (pr.1 ≤ dport && dport ≤ pr.2))

/-- `findEntries` for an egress flow to `peer` on TCP port `dport`: each entry that selects the
peer once for each of its port rules that match, or once if it has none, sorted; and whether
some entry makes the subject default deny. -/
def findEntries (entries : List Types.PolicyEntry) (peer : NumericIdentity) (dport : UInt16) :
    List Types.PolicyEntry × Bool :=
  let out := entries.flatMap fun entry =>
    if entry.peer.all (· = peer) then
      if entry.ports = [] then [entry]
      else (entry.ports.filter (portMatches dport)).map fun pr => { entry with ports := [pr] }
    else []
  (out.insertionSort fun a b => sortLE a b, entries.any (·.defaultDeny))

/-- The loop of `findMatchingRule`: a pass skips the entries of tiers below the next one. -/
def findMatchingLoop (skipTierBefore : ℕ) : List Types.PolicyEntry → Bool
  | [] => false
  | entry :: rest =>
    if skipTierBefore > entry.tier then findMatchingLoop skipTierBefore rest
    else match entry.verdict with
      | .pass => findMatchingLoop (entry.tier + 1) rest
      | .deny => false
      | .allow => true

/-- `findMatchingRule`, with `true` for `DecisionAllowed`: no matching entry follows default
deny. -/
def findMatchingRule (matchingEntries : List Types.PolicyEntry) (defaultDeny : Bool) : Bool :=
  if matchingEntries = [] then !defaultDeny else findMatchingLoop 0 matchingEntries

end Simulate

/-- The egress decision of `IteratePolicy` for a TCP flow to `peer` on port `dport`. -/
def iteratePolicy (entries : List Types.PolicyEntry) (peer : NumericIdentity) (dport : UInt16) : Bool :=
  let (matching, defaultDeny) := Simulate.findEntries entries peer dport
  Simulate.findMatchingRule matching defaultDeny

/-! ### Priorities -/

/-- `perTierRoundUp`. -/
def perTierRoundUp : ℕ := 10

/-- `roundUp`. -/
def roundUp (n r : ℕ) : ℕ := ((n + (r - 1)) / r) * r

/-- The state of the loop of `computeTierPriorities`: the levels and the pass levels counted for
each tier, and the priority, level count, last pass level and tier of the rule before. -/
structure TierCount where
  tierPriorityLevels : List ℕ
  numPassVerdicts : List ℕ
  lastPrio : ℕ
  levels : ℕ
  lastPassLevel : ℕ
  lastTier : ℕ

/-- One rule of the loop of `computeTierPriorities`. -/
def countStep (nTiers : ℕ) (c : TierCount) (r : Types.PolicyEntry) : Except String TierCount := do
  let c ← if r.tier ≠ c.lastTier then
      if r.tier < c.lastTier then .error "Unordered policy entry tiers"
      else if r.tier ≥ nTiers then .error "Too high tier value"
      else pure { c with tierPriorityLevels := c.tierPriorityLevels.set c.lastTier (roundUp c.levels 10),
                         lastTier := r.tier, lastPrio := r.priority, levels := 1, lastPassLevel := 0 }
    else if r.priority ≠ c.lastPrio then
      if r.priority < c.lastPrio then .error "Unordered policy entry priorities"
      else pure { c with levels := c.levels + 1, lastPrio := r.priority }
    else pure c
  if r.verdict = .pass ∧ c.levels ≠ c.lastPassLevel then
    pure { c with numPassVerdicts := c.numPassVerdicts.set c.lastTier (c.numPassVerdicts[c.lastTier]! + 1),
                  lastPassLevel := c.levels }
  else pure c

/-- The levels each tier needs, the tiers below in the gaps after each of its pass levels, from
the last tier up. -/
def addLowerTiers (numPassVerdicts : List ℕ) : ℕ → List ℕ → List ℕ
  | 0, levels => levels
  | tier + 1, levels =>
    let levels := levels.set tier (roundUp (levels[tier]! + (numPassVerdicts[tier]! + 1) *
      levels[tier + 1]!) perTierRoundUp)
    addLowerTiers numPassVerdicts tier levels

/-- `computeTierPriorities` on rules sorted by tier and priority: the base priority of each tier,
and the number of priority levels to leave after a pass on each tier. -/
def computeTierPriorities (rules : List Types.PolicyEntry) : Except String (List ℕ × List ℕ) := do
  let first := rules.headD ⟨0, 0, .allow, false, none, []⟩
  let lastTier := (rules.getLastD first).tier
  let nTiers := lastTier + 1
  let c ← rules.foldlM (countStep nTiers)
    ⟨List.replicate nTiers 0, List.replicate nTiers 0, first.priority, 1, 0, first.tier⟩
  let levels := c.tierPriorityLevels.set c.lastTier (roundUp c.levels perTierRoundUp)
  let levels := addLowerTiers c.numPassVerdicts c.lastTier levels
  if levels[0]! > lowestPriority.toNat then .error "Too many priority levels"
  else
    let bases := (List.range lastTier).scanl (fun base tier => base + levels[tier]! -
      levels[tier + 1]!) 0
    pure (bases, levels.tail ++ [0])

/-- The state of the loop of `resolveL4Policy` that gives each rule its absolute priority. -/
structure PriorityCount where
  priority : ℕ
  increment : ℕ
  tier : ℕ
  lastPrio : ℕ

/-- One rule of the loop of `resolveL4Policy`: a new tier starts at its base, a new priority
level one increment on, and after a pass the increment leaves room for the tiers below. -/
def priorityStep (bases passLevels : List ℕ) (lastTier : ℕ) (c : PriorityCount)
    (r : Types.PolicyEntry) : PriorityCount × ℕ :=
  let c := if r.tier ≠ c.tier then ⟨bases[r.tier]!, 1, r.tier, r.priority⟩
    else if r.priority ≠ c.lastPrio then ⟨c.priority + c.increment, 1, c.tier, r.priority⟩
    else c
  let c := if r.verdict = .pass ∧ c.tier < lastTier then
      { c with increment := passLevels[c.tier]! + 1 }
    else c
  (c, c.priority)

/-- The absolute priority of each rule, in the order of the rules. -/
def assignPriorities (bases passLevels : List ℕ) (rules : List Types.PolicyEntry) : List ℕ :=
  let lastTier := bases.length - 1
  (rules.foldl (fun (acc : PriorityCount × List ℕ) r =>
    let (c, p) := priorityStep bases passLevels lastTier acc.1 r
    (c, acc.2 ++ [p])) (⟨0, 1, 0, (rules.headD ⟨0, 0, .allow, false, none, []⟩).priority⟩, [])).2

/-! ### The map state -/

/-- The features of the entries: ordered and deny rules, and pass rules when there is a pass. -/
def entryFeatures (entries : List Types.PolicyEntry) : policyFeatures :=
  orderedRules ||| denyRules ||| (if entries.any (·.verdict = .pass) then passRules else 0)

/-- The `L4Filter` of one port rule of an entry (none for a rule of L3 only): its one selector,
the wildcard when it selects every endpoint, with the entry's verdict at its absolute priority. -/
def entryFilter (r : Types.PolicyEntry) (priority : ℕ) (pr : UInt16 × UInt16) : L4Filter :=
  { port := pr.1, endPort := pr.2, portName := "", u8Proto := if r.ports = [] then 0 else 6,
    ingress := false, wildcard := if r.peer = none then some 0 else none,
    perSelectorPolicies := [(0, some ⟨priority.toUInt32, r.verdict, "", "", 0, none⟩)],
    ruleOrigin := [(0, nilRuleOrigin)] }

/-- The subject's side of an entry: its selector selects the entry's peer. -/
def entryPolicy (r : Types.PolicyEntry) : EndpointPolicy :=
  ⟨fun _ => r.peer.toList, fun _ _ => 0, fun _ _ _ => [], fun _ _ _ _ => none⟩

/-- `L4Filter.toMapState` of each port rule of an entry, at the priorities of its tier. -/
def insertEntry (features : policyFeatures) (bases : List ℕ) (ms : mapState)
    (ep : Types.PolicyEntry × ℕ) : mapState :=
  let (r, priority) := ep
  let tierPriority : Priority := (bases[r.tier]!).toUInt32
  let nextTierPriority : Priority :=
    if r.tier + 1 < bases.length then (bases[r.tier + 1]!).toUInt32 else lowestPriority
  let rules := if r.ports = [] then [(0, 0)] else r.ports
  rules.foldl (fun ms pr => ((entryFilter r priority pr).toMapState 0 tierPriority nextTierPriority
    (entryPolicy r) features ms ⟨none, none, none⟩).1) ms

/-- The map state of the entries: sorted, given their absolute priorities, and inserted tier by
tier; `none` when the priorities do not fit. -/
def distill (entries : List Types.PolicyEntry) : Option mapState :=
  let rules := entries.insertionSort fun a b => a.tier < b.tier ∨ a.tier = b.tier ∧ a.priority ≤ b.priority
  match computeTierPriorities rules with
  | .error _ => none
  | .ok (bases, passLevels) =>
    let features := entryFeatures entries
    some ((rules.zip (assignPriorities bases passLevels rules)).foldl
      (insertEntry features bases) (newMapState features))

/-- The datapath's decision for a TCP flow to `peer` on port `dport`: an allow entry found. -/
def distilledAllows (ms : mapState) (peer : NumericIdentity) (dport : UInt16) : Bool :=
  let (entry, found) := ms.lookup 0 ((egressKey.withIdentity peer).withPortProto 6 dport)
  found && entry.isAllow

/-- A pass for identity 256 on TCP/80 at the top of tier 0, a wildcard allow on TCP/80 below it,
and one allow of tier 1 for another peer.  The simulator skips the wildcard allow for 256 and
finds nothing below, so denies; the map state keeps the pass as an invalid entry, which `lookup`
ignores, and allows the flow through the aggregate entries of the wildcard. -/
theorem pass_then_wildcard_allow_allows :
    let entries : List Types.PolicyEntry :=
      [⟨0, 0, .pass, true, some 256, [(80, 0)]⟩, ⟨0, 1, .allow, true, none, [(80, 0)]⟩,
       ⟨1, 0, .allow, true, some 257, [(443, 0)]⟩]
    iteratePolicy entries 256 80 = false ∧
      (distill entries).map (fun ms => distilledAllows ms 256 80) = some true := by
  decide

end Cilium.Policy
