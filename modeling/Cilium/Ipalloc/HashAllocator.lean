import Cilium.Lib.GoHeap
import Mathlib.Data.List.AList

/-! `HashAllocator` of `pkg/ipalloc/ipalloc.go`: the allocated addresses in a map, and the
available ones as blocks that are both a min heap on size (`availableBlockList`) and a doubly
linked list in address order.  An address is its number in the allocator's family, `Next` and
`Prev` add and subtract one.  A `*linkedBlock` is an index into the memory of blocks, where
`&linkedBlock{...}` appends; the `uint128` size is a number. -/

namespace Cilium.Ipalloc

/-- `ipalloc.linkedBlock`: a `block` of available addresses with its stored size, and its
neighbours in address order. -/
structure LinkedBlock where
  fromAddr : ℕ
  toAddr : ℕ
  size : ℕ
  prev : Option ℕ
  next : Option ℕ
  deriving DecidableEq, Repr, Inhabited

/-- `block.within`. -/
def LinkedBlock.within (b : LinkedBlock) (ip : ℕ) : Bool := b.fromAddr ≤ ip && ip ≤ b.toAddr

/-- `block.calcSize`: `addrDiff(from, to)`. -/
def LinkedBlock.calcSize (b : LinkedBlock) : LinkedBlock := { b with size := b.toAddr - b.fromAddr }

/-- The errors of `pkg/ipalloc`; `invalid` carries the text of an error of `NewHashAllocator`. -/
inductive AllocError where
  | full
  | outOfRange
  | inUse
  | notFound
  | badLoop
  | invalid (msg : String)
  deriving DecidableEq, Repr

/-- `availableBlockList`, with the memory its pointers point into. -/
structure BlockList where
  mem : Array LinkedBlock
  abl : Array ℕ
  deriving DecidableEq, Repr

namespace BlockList

variable (l : BlockList)

/-- The block a pointer points to. -/
def get (p : ℕ) : LinkedBlock := l.mem[p]!

/-- A store through a pointer. -/
def set (p : ℕ) (b : LinkedBlock) : BlockList := { l with mem := l.mem.set! p b }

/-- A new block, and the pointer to it. -/
def alloc (b : LinkedBlock) : BlockList × ℕ := ({ l with mem := l.mem.push b }, l.mem.size)

/-- The available blocks in the order of the slice. -/
def blocks : List LinkedBlock := l.abl.toList.map l.get

/-- `availableBlockList.Less`: by stored size. -/
def less (p q : ℕ) : Bool := (l.get p).size < (l.get q).size

/-- `heap.Push`. -/
def push (p : ℕ) : BlockList := { l with abl := GoHeap.push l.less l.abl p }

/-- `heap.Remove`. -/
def remove (i : ℕ) : BlockList × ℕ :=
  let (abl, p) := GoHeap.remove l.less l.abl i
  ({ l with abl := abl }, p)

/-- `heap.Fix`. -/
def fix (i : ℕ) : BlockList := { l with abl := GoHeap.fix l.less l.abl i }

/-- `p.next = n` when `p` is not nil. -/
def setNext (p n : Option ℕ) : BlockList :=
  match p with
  | some p => l.set p { l.get p with next := n }
  | none => l

/-- `p.prev = n` when `p` is not nil. -/
def setPrev (p n : Option ℕ) : BlockList :=
  match p with
  | some p => l.set p { l.get p with prev := n }
  | none => l

/-- `availableBlockList.delete`: remove a block from the heap and unlink it. -/
def delete (idx : ℕ) : BlockList :=
  let (l, p) := l.remove idx
  let elem := l.get p
  (l.setNext elem.prev elem.next).setPrev elem.next elem.prev

/-- `availableBlockList.merge`: replace two neighbours by one block. -/
def merge (left right : ℕ) : BlockList :=
  let leftOfLeft := (l.get left).prev
  let rightOfRight := (l.get right).next
  let (l', merged) := l.alloc
    (LinkedBlock.calcSize ⟨(l.get left).fromAddr, (l.get right).toAddr, 0, leftOfLeft, rightOfRight⟩)
  let l' := (l'.setNext leftOfLeft (some merged)).setPrev rightOfRight (some merged)
  let l' := (l'.remove (l'.abl.toList.idxOf left)).1
  let l' := (l'.remove (l'.abl.toList.idxOf right)).1
  l'.push merged

/-- `availableBlockList.insert`: a block of one address between `left` and `right`, with the
size `uint128{lo: 1}`. -/
def insert (left right : Option ℕ) (newIP : ℕ) : BlockList :=
  let (l', p) := l.alloc ⟨newIP, newIP, 1, left, right⟩
  ((l'.setNext left (some p)).setPrev right (some p)).push p

/-- `availableBlockList.take`: shrink the block holding `ip`, or split it in two. -/
def take (ip : ℕ) : Except AllocError BlockList :=
  match l.abl.toList.findIdx? (fun p => (l.get p).within ip) with
  | none => .error .inUse
  | some index =>
    let p := l.abl[index]!
    let b := l.get p
    if b.fromAddr = ip then
      if b.fromAddr = b.toAddr then .ok (l.delete index)
      else .ok ((l.set p { b with fromAddr := b.fromAddr + 1 }.calcSize).fix index)
    else if b.toAddr = ip then
      if b.fromAddr = b.toAddr then .ok (l.delete index)
      else .ok ((l.set p { b with toAddr := b.toAddr - 1 }.calcSize).fix index)
    else
      -- `ip` is inside the block: split it
      let l := (l.remove index).1
      let leftPtr := l.mem.size
      let rightPtr := l.mem.size + 1
      let left := LinkedBlock.calcSize ⟨b.fromAddr, ip - 1, 0, b.prev, some rightPtr⟩
      let right := LinkedBlock.calcSize ⟨ip + 1, b.toAddr, 0, some leftPtr, b.next⟩
      let l : BlockList := { l with mem := (l.mem.push left).push right }
      let l := (l.setNext b.prev (some leftPtr)).setPrev b.next (some rightPtr)
      .ok ((l.push leftPtr).push rightPtr)

/-- The loop of `put` from `curr`, having come from `prev`, for at most `fuel` rounds; `i` is the
loop counter, which `heap.Fix` receives as an index. -/
def putLoop (ip : ℕ) : ℕ → ℕ → ℕ → Option ℕ → BlockList → Except AllocError BlockList
  | 0, _, _, _, _ => .error .badLoop
  | fuel + 1, i, curr, prev, l =>
    let c := l.get curr
    if ip < c.fromAddr then
      if c.fromAddr - 1 = ip then
        -- grow to the left, with no `heap.Fix`
        let l := l.set curr { c with fromAddr := c.fromAddr - 1 }.calcSize
        match c.prev with
        | some pv => if (l.get pv).toAddr = ip - 1 then .ok (l.merge pv curr) else .ok l
        | none => .ok l
      else
        match c.prev with
        | some pv =>
          if some pv = prev then .ok (l.insert (some pv) (some curr) ip)
          else putLoop ip fuel (i + 1) pv (some curr) l
        | none => .ok (l.insert none (some curr) ip)
    else
      if c.toAddr + 1 = ip then
        let l := (l.set curr { c with toAddr := c.toAddr + 1 }.calcSize).fix i
        match c.next with
        | some nx => if (l.get nx).fromAddr = ip + 1 then .ok (l.merge curr nx) else .ok l
        | none => .ok l
      else
        match c.next with
        | some nx =>
          if some nx = prev then .ok (l.insert (some curr) (some nx) ip)
          else putLoop ip fuel (i + 1) nx (some curr) l
        | none => .ok (l.insert (some curr) none ip)

/-- The bound on the rounds of `put`. -/
def maxIter : ℕ := 1000000

/-- `availableBlockList.put`: grow a block by `ip`, merging it with its neighbour, or insert a
block of `ip` alone. -/
def put (ip : ℕ) : Except AllocError BlockList :=
  if l.abl.size = 0 then .ok ((l.alloc ⟨ip, ip, 1, none, none⟩).1.push l.mem.size)
  else putLoop ip maxIter 0 l.abl[0]! none l

end BlockList

/-- `ipalloc.HashAllocator`; the peak count of allocations, which only sizes the map, is left out. -/
structure HashAllocator (T : Type) where
  start : ℕ
  stop : ℕ
  allocations : AList fun _ : ℕ => T
  availableBlocks : BlockList

namespace HashAllocator

variable {T : Type}

/-- `NewHashAllocator`: one block of the whole range. -/
def newHashAllocator (start stop : ℕ) : Except AllocError (HashAllocator T) :=
  if start > stop then .error (.invalid "'start' must be less then or equal to 'stop'")
  else .ok ⟨start, stop, ∅, ⟨#[LinkedBlock.calcSize ⟨start, stop, 0, none, none⟩], #[0]⟩⟩

variable (a : HashAllocator T)

/-- `AllocAny`: the first address of the block at the root of the heap. -/
def allocAny (val : T) : Except AllocError (HashAllocator T × ℕ) :=
  if a.availableBlocks.abl.size = 0 then .error .full
  else
    let ip := (a.availableBlocks.get a.availableBlocks.abl[0]!).fromAddr
    match a.availableBlocks.take ip with
    | .error e => .error e
    | .ok bl => .ok ({ a with allocations := a.allocations.insert ip val, availableBlocks := bl }, ip)

/-- `Alloc`. -/
def alloc (ip : ℕ) (val : T) : Except AllocError (HashAllocator T) :=
  if ip < a.start ∨ ip > a.stop then .error .outOfRange
  else if ip ∈ a.allocations then .error .inUse
  else if a.availableBlocks.abl.size = 0 then .error .full
  else
    match a.availableBlocks.take ip with
    | .error e => .error e
    | .ok bl => .ok { a with allocations := a.allocations.insert ip val, availableBlocks := bl }

/-- `Update`. -/
def update (ip : ℕ) (val : T) : Except AllocError (HashAllocator T) :=
  if ip ∈ a.allocations then .ok { a with allocations := a.allocations.insert ip val }
  else .error .notFound

/-- `Free`. -/
def free (ip : ℕ) : Except AllocError (HashAllocator T) :=
  if ip ∉ a.allocations then .error .notFound
  else
    match a.availableBlocks.put ip with
    | .error e => .error e
    | .ok bl => .ok { a with availableBlocks := bl, allocations := a.allocations.erase ip }

end HashAllocator

open HashAllocator

/-- `put` grows the root block `[2, 2]` to `[1, 2]` without `heap.Fix`, so the root is larger
than its child `[4, 4]`, and `AllocAny` then takes from a block that is not a smallest one.  A
block of one address that `put` creates has the stored size one, not `to - from`. -/
theorem free_breaks_heap_order :
    ((do
      let a ← newHashAllocator (T := Unit) 1 4
      let a ← a.alloc 1 ()
      let a ← a.alloc 3 ()
      let a ← a.free 1
      let (_, ip) ← a.allocAny ()
      pure (a.availableBlocks.blocks.map fun b => (b.fromAddr, b.toAddr, b.size), ip)) :
        Except AllocError _).toOption = some ([(1, 2, 1), (4, 4, 0)], 1) ∧
    ((do
      let a ← newHashAllocator (T := Unit) 1 1
      let (a, ip) ← a.allocAny ()
      let a ← a.free ip
      pure (a.availableBlocks.blocks.map fun b => (b.fromAddr, b.toAddr, b.size))) :
        Except AllocError _).toOption = some [(1, 1, 1)] := by
  decide +kernel

end Cilium.Ipalloc
