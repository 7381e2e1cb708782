import Cilium.Bitlpm.Invariant
import Cilium.Lib.GoHeap

/-! The iterators of `pkg/container/bitlpm/trie.go` that the policy map state uses.  Each is the
list of the entries it yields, in order: `AncestorIterator` is `traverse`, and
`AncestorLongestPrefixFirstIterator` pops the same nodes from a stack; `DescendantIterator` walks
down to the first node inside the prefix and then pops a stack that gets the children of every
node it pops, child 1 on top; `DescendantShortestPrefixFirstIterator` does the same with a
`container/heap` ordered by prefix length.  A caller that deletes the node it was just given
does not change what the Go iterators yield next: they have already taken its children.  The
forms with a callback (`AncestorsLongestPrefixFirst`, `Descendants`,
`DescendantsShortestPrefixFirst`) are the lists of the entries they pass to it. -/

namespace Cilium.Bitlpm

open Key

variable {K T : Type} [Key K]

instance : Inhabited (Node K T) := ⟨.nil⟩

/-- The `prefixLen` of a node, which the heap compares. -/
def Node.prefixLen : Node K T → Nat
  | .nil => 0
  | .node _ _ pl _ _ _ => pl

/-- The number of nodes of a subtree, which bounds the rounds of the heap loop. -/
def Node.size : Node K T → Nat
  | .nil => 0
  | .node c0 c1 _ _ _ _ => c0.size + c1.size + 1

/-- `AncestorIterator`: the entries that `traverse` visits, shortest prefix first.  `Ancestors`
passes the same entries to its callback. -/
def Trie.ancestors (t : Trie K T) (prefixLen : Nat) (k : K) : List (Entry K T) :=
  t.root.traverse t.maxPrefix (min prefixLen t.maxPrefix) k

/-- `AncestorLongestPrefixFirstIterator`: the same nodes, popped from a stack.  Unlike the other
iterators it does not clamp `prefixLen` to the maximum prefix. -/
def Trie.ancestorsLongestPrefixFirst (t : Trie K T) (prefixLen : Nat) (k : K) :
    List (Entry K T) :=
  (t.root.traverse t.maxPrefix prefixLen k).reverse

/-- The node that the descendant iterators start from: the first node on the path of `k` that
matches it to `prefixLen` bits, if the walk reaches one before a leaf at the maximum prefix. -/
def Node.descendantRoot (maxPrefix prefixLen : Nat) (k : K) : Node K T → Node K T
  | .nil => .nil
  | .node c0 c1 pl key inter v =>
    if prefixMatch pl key prefixLen k ≥ prefixLen then .node c0 c1 pl key inter v
    else if pl ≥ maxPrefix then .nil
    else if bitValueAt k pl then c1.descendantRoot maxPrefix prefixLen k
    else c0.descendantRoot maxPrefix prefixLen k

/-- The entries that the stack of `descendantIterator` yields from a subtree: the node, then
the subtree of child 1, which is on top of the stack, then that of child 0. -/
def Node.preorder : Node K T → List (Entry K T)
  | .nil => []
  | .node c0 c1 pl key inter v =>
    (if inter then [] else [⟨pl, key, v⟩]) ++ c1.preorder ++ c0.preorder

/-- `DescendantIterator`. -/
def Trie.descendants (t : Trie K T) (prefixLen : Nat) (k : K) : List (Entry K T) :=
  (t.root.descendantRoot t.maxPrefix (min prefixLen t.maxPrefix) k).preorder

/-- The order of the heap of trie nodes: `nodes.Less`. -/
def nodeLess (a b : Node K T) : Bool := a.prefixLen < b.prefixLen

/-- Push a child onto the heap unless it is `nil`. -/
def pushChild (heap : Array (Node K T)) (c : Node K T) : Array (Node K T) :=
  match c with
  | .nil => heap
  | c => GoHeap.push nodeLess heap c

/-- The loop of `descendantSPFIterator.Next`, for at most `fuel` nodes: pop the node of the
shortest prefix, push its children, and yield it unless it is intermediate. -/
def spfLoop : Nat → Array (Node K T) → List (Entry K T)
  | 0, _ => []
  | fuel + 1, heap =>
    if heap.size = 0 then []
    else
      let (heap, n) := GoHeap.pop nodeLess heap
      match n with
      | .nil => spfLoop fuel heap
      | .node c0 c1 pl key inter v =>
        (if inter then [] else [⟨pl, key, v⟩]) ++
          spfLoop fuel (pushChild (pushChild heap c0) c1)

/-- `DescendantShortestPrefixFirstIterator`.  Every round pops one node of the subtree, so its
size is enough fuel. -/
def Trie.descendantsShortestPrefixFirst (t : Trie K T) (prefixLen : Nat) (k : K) :
    List (Entry K T) :=
  match t.root.descendantRoot t.maxPrefix (min prefixLen t.maxPrefix) k with
  | .nil => []
  | n => spfLoop n.size #[n]

/-- `trie.treverse`: the nodes that `traverse` visits, stacked and passed to the callback from the
last one back. -/
def Trie.treverse (t : Trie K T) (prefixLen : Nat) (k : K) : List (Entry K T) :=
  (t.root.traverse t.maxPrefix prefixLen k).reverse

/-- `AncestorsLongestPrefixFirst`: `treverse` at the clamped prefix. -/
def Trie.ancestorsLongestPrefixFirstFn (t : Trie K T) (prefixLen : Nat) (k : K) :
    List (Entry K T) :=
  t.treverse (min prefixLen t.maxPrefix) k

/-- `Descendants`: `forEach` from the node that the descendant iterators start from.  `forEach`
visits a node, then the subtree of child 0, then that of child 1: the order of `Node.entries`. -/
def Trie.descendantsFn (t : Trie K T) (prefixLen : Nat) (k : K) : List (Entry K T) :=
  (t.root.descendantRoot t.maxPrefix (min prefixLen t.maxPrefix) k).entries

/-- `node.forEachShortestPrefixFirst`: the loop of the shortest-prefix-first iterator on a heap
that starts with the node pushed. -/
def Node.forEachShortestPrefixFirst (n : Node K T) : List (Entry K T) :=
  spfLoop n.size (GoHeap.push nodeLess #[] n)

/-- `DescendantsShortestPrefixFirst`. -/
def Trie.descendantsShortestPrefixFirstFn (t : Trie K T) (prefixLen : Nat) (k : K) :
    List (Entry K T) :=
  match t.root.descendantRoot t.maxPrefix (min prefixLen t.maxPrefix) k with
  | .nil => []
  | n => n.forEachShortestPrefixFirst

end Cilium.Bitlpm
