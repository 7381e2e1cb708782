import Mathlib.Order.Basic

/-! The bit-LPM trie of `pkg/container/bitlpm/trie.go`: a binary trie of prefix-key pairs, where
a node stores a key, a prefix length and a value, and intermediate nodes only join two subtrees.
A node pointer is `Node`, with `nil` for Go's `nil`; `Trie` is the `trie` struct with its root,
its maximum prefix and its counter of entries.  The loops of `Upsert`, `Delete` and `traverse`
walk down from the root and relink the node they stop at; here they are recursions that rebuild
the path they walked.  `traverse` returns the nodes it would pass to its callback, in order, and
a caller that stops early reads a prefix of that list. -/

namespace Cilium.Bitlpm

/-- The methods of `Key[K]` that the trie uses: the number of leading bits two keys share, and
the bit at an index, most significant first. -/
class Key (K : Type) where
  commonPrefix : K → K → Nat
  bitValueAt : K → Nat → Bool

open Key

variable {K T : Type} [Key K]

/-- A `*node[K, T]`: `nil`, or a node with `children[0]`, `children[1]`, `prefixLen`, `key`,
`intermediate` and `value`. -/
inductive Node (K T : Type) where
  | nil
  | node (child0 child1 : Node K T) (prefixLen : Nat) (key : K) (intermediate : Bool) (value : T)

/-- The `trie` struct. -/
structure Trie (K T : Type) where
  root : Node K T
  maxPrefix : Nat
  entries : Nat

/-- `NewTrie`. -/
def newTrie (maxPrefix : Nat) : Trie K T := ⟨.nil, maxPrefix, 0⟩

/-- `node.prefixMatch`: how far the node key and `k` agree, up to the shorter of the node's
prefix and `prefixLen`. -/
def prefixMatch (nodePrefixLen : Nat) (nodeKey : K) (prefixLen : Nat) (k : K) : Nat :=
  let limit := min nodePrefixLen prefixLen
  if commonPrefix nodeKey k ≥ limit then limit else commonPrefix nodeKey k

theorem prefixMatch_eq (nodePrefixLen : Nat) (nodeKey : K) (prefixLen : Nat) (k : K) :
    prefixMatch nodePrefixLen nodeKey prefixLen k =
      if commonPrefix nodeKey k ≥ min nodePrefixLen prefixLen then min nodePrefixLen prefixLen
      else commonPrefix nodeKey k := rfl

/-- `children[b]`. -/
def child (b : Bool) (child0 child1 : Node K T) : Node K T := if b then child1 else child0

/-- A node as its callers see it: the prefix length, the key and the value. -/
structure Entry (K T : Type) where
  prefixLen : Nat
  key : K
  value : T

/-- The nodes that `traverse` passes to its callback while the callback returns `true`: the
non-intermediate nodes on the path of `k` that match `k` up to their prefix, shortest first. -/
def Node.traverse (maxPrefix prefixLen : Nat) (k : K) : Node K T → List (Entry K T)
  | .nil => []
  | .node c0 c1 pl key inter v =>
    let matchLen := prefixMatch pl key prefixLen k
    let rest := if bitValueAt k pl then c1.traverse maxPrefix prefixLen k
      else c0.traverse maxPrefix prefixLen k
    if matchLen < pl then []
    else if inter then rest
    else if matchLen = maxPrefix then [⟨pl, key, v⟩]
    else ⟨pl, key, v⟩ :: rest

/-- `trie.ExactLookup`: the value of the node that `traverse` reaches with exactly the prefix
length asked for. -/
def Trie.exactLookup (t : Trie K T) (prefixLen : Nat) (k : K) : Option T :=
  let prefixLen := min prefixLen t.maxPrefix
  ((t.root.traverse t.maxPrefix prefixLen k).find? (·.prefixLen == prefixLen)).map (·.value)

/-- `trie.LongestPrefixMatch`: the last node that `traverse` reaches at the maximum prefix. -/
def Trie.longestPrefixMatch (t : Trie K T) (k : K) : Option (K × T) :=
  ((t.root.traverse t.maxPrefix t.maxPrefix k).getLast?).map fun e => (e.key, e.value)

/-- `trie.Len`. -/
def Trie.len (t : Trie K T) : Nat := t.entries

section Upsert

variable [Inhabited T] (maxPrefix prefixLen : Nat) (k : K) (value : T)

/-- The node `Upsert` builds for the new entry, with no children. -/
def leaf : Node K T := .node .nil .nil prefixLen k false value

/-- What `Upsert` does at the node `n` where its loop stops (`matchLen` is the match of `n` with
the new entry): replace `n`, put `n` below the new node, or join both under an intermediate node.
The flag is the result of `Upsert`: whether the number of entries grows. -/
def upsertAt (n : Node K T) (c0 c1 : Node K T) (pl : Nat) (key : K) (inter : Bool)
    (matchLen : Nat) : Node K T × Bool :=
  if matchLen = pl then
    -- case 2 of the source: the new node takes the place and the children of `n`
    (.node c0 c1 prefixLen k false value, inter)
  else if matchLen = prefixLen then
    -- case 3: `n` becomes a child of the new node
    (if bitValueAt key matchLen then .node .nil n prefixLen k false value
      else .node n .nil prefixLen k false value, true)
  else
    -- case 4: an intermediate node at the common prefix, with `n` and the new node as children
    (if bitValueAt k matchLen then .node n (leaf prefixLen k value) matchLen key true default
      else .node (leaf prefixLen k value) n matchLen key true default, true)

/-- The loop of `trie.Upsert` below a node: walk down while the node matches the new entry to its
whole prefix and is neither at the maximum prefix nor at the new entry's prefix. -/
def Node.upsert : Node K T → Node K T × Bool
  | .nil => (leaf prefixLen k value, true)
  | .node c0 c1 pl key inter v =>
    let matchLen := prefixMatch pl key prefixLen k
    if pl ≠ matchLen ∨ pl = maxPrefix ∨ pl = prefixLen then
      upsertAt prefixLen k value (.node c0 c1 pl key inter v) c0 c1 pl key inter matchLen
    else if bitValueAt k pl then
      let r := c1.upsert
      (.node c0 r.1 pl key inter v, r.2)
    else
      let r := c0.upsert
      (.node r.1 c1 pl key inter v, r.2)

end Upsert

/-- `trie.Upsert`: clamp the prefix, insert or replace, and count the new entry. -/
def Trie.upsert [Inhabited T] (t : Trie K T) (prefixLen : Nat) (k : K) (value : T) :
    Trie K T × Bool :=
  let prefixLen := min prefixLen t.maxPrefix
  let r := t.root.upsert t.maxPrefix prefixLen k value
  ({ t with root := r.1, entries := if r.2 then t.entries + 1 else t.entries }, r.2)

/-- What the loop of `Delete` leaves at the place of a subtree: the key is not there, the deleted
node was a leaf (its parent decides what takes its place), or a new subtree. -/
inductive Deleted (K T : Type) where
  | notFound
  | leafRemoved
  | replaced (n : Node K T)

section Delete

variable [Inhabited T] (prefixLen : Nat) (k : K)

/-- What `Delete` does at the node it stops at when that node holds the key: keep it as an
intermediate node if it has two children, report a removed leaf, or promote its only child. -/
def deleteAt (c0 c1 : Node K T) (pl : Nat) (key : K) : Deleted K T :=
  match c0, c1 with
  | .nil, .nil => .leafRemoved
  | .nil, c => .replaced c
  | c, .nil => .replaced c
  | c0, c1 => .replaced (.node c0 c1 pl key true default)

/-- The subtree after a removal from its child `b`: an intermediate parent of a removed leaf gives
way to the leaf's sibling, any other parent takes the new child in that slot. -/
def relink (b : Bool) (c0 c1 : Node K T) (pl : Nat) (key : K) (inter : Bool) (v : T) :
    Deleted K T → Deleted K T
  | .notFound => .notFound
  | .leafRemoved =>
    if inter then .replaced (child (!b) c0 c1)
    else .replaced (if b then .node c0 .nil pl key inter v else .node .nil c1 pl key inter v)
  | .replaced n => .replaced (if b then .node c0 n pl key inter v else .node n c1 pl key inter v)

/-- The loop of `trie.Delete` below a node: walk down while the node matches the key to its whole
prefix and has a shorter prefix than the one deleted. -/
def Node.delete : Node K T → Deleted K T
  | .nil => .notFound
  | .node c0 c1 pl key inter v =>
    let matchLen := prefixMatch pl key prefixLen k
    if pl ≠ matchLen ∨ pl = prefixLen then
      if pl ≠ prefixLen ∨ pl ≠ matchLen ∨ inter = true then .notFound
      else deleteAt c0 c1 pl key
    else if bitValueAt k pl then relink true c0 c1 pl key inter v c1.delete
    else relink false c0 c1 pl key inter v c0.delete

end Delete

/-- `trie.Delete`: clamp the prefix, remove the entry with exactly this prefix and key, and
report whether one was there. -/
def Trie.delete [Inhabited T] (t : Trie K T) (prefixLen : Nat) (k : K) : Trie K T × Bool :=
  match t.root.delete (min prefixLen t.maxPrefix) k with
  | .notFound => (t, false)
  | .leafRemoved => ({ t with root := .nil, entries := t.entries - 1 }, true)
  | .replaced n => ({ t with root := n, entries := t.entries - 1 }, true)

end Cilium.Bitlpm
