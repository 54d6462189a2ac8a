import NanoRedis.Memory

/-! The intrusive AVL tree of `avl_tree.cpp`, and the descent by which `tree_add` of
`zset.cpp` finds the place of a new node. -/

namespace NanoRedis
open Intrusive

structure AVLNode where
  height : UInt32 := 0
  cnt : UInt32 := 0
  left : Ptr := none
  right : Ptr := none
  parent : Ptr := none
deriving DecidableEq, Repr

def avlInit (mem : Heap AVLNode) (node : Ptr) : Except Fault (Heap AVLNode) :=
  update mem node fun _ => { height := 0, cnt := 1, left := none, right := none, parent := none }

def maxU32 (lhs rhs : UInt32) : UInt32 := if lhs > rhs then lhs else rhs

def avlHeight (mem : Heap AVLNode) : Ptr → Except Fault UInt32
  | none => .ok (-1)
  | some a => do
    let node ← load mem (some a)
    return node.height

def avlCnt (mem : Heap AVLNode) : Ptr → Except Fault UInt32
  | none => .ok 0
  | some a => do
    let node ← load mem (some a)
    return node.cnt

def avlUpdate (mem : Heap AVLNode) (node : Ptr) : Except Fault (Heap AVLNode) := do
  let n ← load mem node
  let lh ← avlHeight mem n.left
  let rh ← avlHeight mem n.right
  let mem ← update mem node fun n => { n with height := 1 + maxU32 lh rh }
  let lc ← avlCnt mem n.left
  let rc ← avlCnt mem n.right
  update mem node fun n => { n with cnt := 1 + lc + rc }

def rotLeft (mem : Heap AVLNode) (node : Ptr) : Except Fault (Ptr × Heap AVLNode) := do
  let n ← load mem node
  let newRoot := n.right
  let r ← load mem newRoot
  let sbtree2 := r.left
  let mem ← update mem newRoot fun r => { r with left := node }
  let mem ← update mem node fun n => { n with right := sbtree2 }
  let n ← load mem node
  let mem ← update mem newRoot fun r => { r with parent := n.parent }
  let mem ← update mem node fun n => { n with parent := newRoot }
  let mem ← (if sbtree2.isSome then update mem sbtree2 fun s => { s with parent := node }
    else .ok mem)
  let mem ← avlUpdate mem node
  let mem ← avlUpdate mem newRoot
  return (newRoot, mem)

def rotRight (mem : Heap AVLNode) (node : Ptr) : Except Fault (Ptr × Heap AVLNode) := do
  let n ← load mem node
  let newRoot := n.left
  let r ← load mem newRoot
  let sbtree2 := r.right
  let mem ← update mem newRoot fun r => { r with right := node }
  let mem ← update mem node fun n => { n with left := sbtree2 }
  let n ← load mem node
  let mem ← update mem newRoot fun r => { r with parent := n.parent }
  let mem ← update mem node fun n => { n with parent := newRoot }
  let mem ← (if sbtree2.isSome then update mem sbtree2 fun s => { s with parent := node }
    else .ok mem)
  let mem ← avlUpdate mem node
  let mem ← avlUpdate mem newRoot
  return (newRoot, mem)

def avlFixLeft (mem : Heap AVLNode) (node : Ptr) : Except Fault (Ptr × Heap AVLNode) := do
  let n ← load mem node
  let l ← load mem n.left
  let inner ← avlHeight mem l.right
  let outer ← avlHeight mem l.left
  let mem ←
    (if inner > outer then do
      let (left, mem) ← rotLeft mem n.left
      update mem node fun n => { n with left := left }
    else .ok mem)
  rotRight mem node

def avlFixRight (mem : Heap AVLNode) (node : Ptr) : Except Fault (Ptr × Heap AVLNode) := do
  let n ← load mem node
  let r ← load mem n.right
  let inner ← avlHeight mem r.left
  let outer ← avlHeight mem r.right
  let mem ←
    (if inner > outer then do
      let (right, mem) ← rotRight mem n.right
      update mem node fun n => { n with right := right }
    else .ok mem)
  rotLeft mem node

/-- A second-order pointer (`AVLNode **`): the address of the root pointer or of a child field. -/
inductive TreeSlot
  | root
  | left (node : Nat)
  | right (node : Nat)
deriving DecidableEq, Repr

def writeTreeSlot (mem : Heap AVLNode) (root : Ptr) (node : Ptr) :
    TreeSlot → Except Fault (Ptr × Heap AVLNode)
  | .root => .ok (node, mem)
  | .left a => do
    let mem ← update mem (some a) fun n => { n with left := node }
    return (root, mem)
  | .right a => do
    let mem ← update mem (some a) fun n => { n with right := node }
    return (root, mem)

/-- `(parent->left == node) ? &parent->left : &parent->right`. -/
def childSlot (mem : Heap AVLNode) (parent : Nat) (node : Ptr) : Except Fault TreeSlot := do
  let p ← load mem (some parent)
  return if p.left = node then .left parent else .right parent

/-- The loop of `avl_fix`. Both comparisons are unsigned, so `-1` stands for the largest
`uint32_t`. The loop climbs by one level a round, of which there are at most `mem.brk`. -/
def avlFixLoop : Nat → Heap AVLNode → Ptr → Except Fault (Ptr × Heap AVLNode)
  | 0, _, _ => .error .diverges
  | fuel + 1, mem, node => do
    let mem ← avlUpdate mem node
    let n ← load mem node
    let lh ← avlHeight mem n.left
    let rh ← avlHeight mem n.right
    let slot ←
      (match n.parent with
      | none => .ok none
      | some p => do
        let slot ← childSlot mem p node
        return some slot)
    let (node, mem) ←
      (if lh - rh > 1 then avlFixLeft mem node
      else if lh - rh < -1 then avlFixRight mem node
      else .ok (node, mem))
    match slot with
    | none => return (node, mem)
    | some slot => do
      -- the slot was taken before the rotation, the parent is read after it
      let (_, mem) ← writeTreeSlot mem none node slot
      let n ← load mem node
      avlFixLoop fuel mem n.parent

def avlFix (mem : Heap AVLNode) (node : Ptr) : Except Fault (Ptr × Heap AVLNode) :=
  avlFixLoop (mem.brk + 1) mem node

/-- `while (victim->left) {victim = victim->left;}`. -/
def leftmost (mem : Heap AVLNode) : Nat → Ptr → Except Fault Ptr
  | 0, _ => .error .diverges
  | fuel + 1, victim => do
    let v ← load mem victim
    if v.left.isSome then leftmost mem fuel v.left else return victim

/-- `avl_del`, with a bound on the depth of its recursion: each call descends in the tree. -/
def avlDelRec : Nat → Heap AVLNode → Ptr → Except Fault (Ptr × Heap AVLNode)
  | 0, _, _ => .error .diverges
  | fuel + 1, mem, node => do
    let n ← load mem node
    if n.right = none then
      let parent := n.parent
      let mem ← (if n.left.isSome then update mem n.left fun l => { l with parent := parent }
        else .ok mem)
      match parent with
      | some p => do
        let slot ← childSlot mem p node
        let (_, mem) ← writeTreeSlot mem none n.left slot
        avlFix mem parent
      | none => return (n.left, mem)
    else do
      let victim ← leftmost mem (mem.brk + 1) n.right
      -- taking out the victim may rebalance, so `node` is read afterwards
      let (root, mem) ← avlDelRec fuel mem victim
      let n ← load mem node
      let mem ← update mem victim fun _ => n
      let mem ← (if n.left.isSome then update mem n.left fun l => { l with parent := victim }
        else .ok mem)
      let mem ← (if n.right.isSome then update mem n.right fun r => { r with parent := victim }
        else .ok mem)
      let n ← load mem node
      match n.parent with
      | some p => do
        let slot ← childSlot mem p node
        let (_, mem) ← writeTreeSlot mem none victim slot
        return (root, mem)
      | none => return (victim, mem)

def avlDel (mem : Heap AVLNode) (node : Ptr) : Except Fault (Ptr × Heap AVLNode) :=
  avlDelRec (mem.brk + 1) mem node

/-- The `while` loop of `tree_add` from the pointer `ptr` that is stored in `slot`; `less`
compares the new node with the one at hand. -/
def descend (mem : Heap AVLNode) (less : Nat → Except Fault Bool) :
    Nat → Ptr → TreeSlot → Ptr → Except Fault (Ptr × TreeSlot)
  | _, cur, slot, none => .ok (cur, slot)
  | 0, _, _, some _ => .error .diverges
  | fuel + 1, _, _, some cur => do
    let n ← load mem (some cur)
    if ← less cur then descend mem less fuel (some cur) (.left cur) n.left
    else descend mem less fuel (some cur) (.right cur) n.right

/-- `tree_add` on the root pointer of a set. -/
def treeAddBy (less : Nat → Except Fault Bool) (mem : Heap AVLNode) (root : Ptr) (node : Nat) :
    Except Fault (Ptr × Heap AVLNode) := do
  let (cur, slot) ← descend mem less (mem.brk + 1) none .root root
  let (_, mem) ← writeTreeSlot mem root (some node) slot
  let mem ← update mem (some node) fun n => { n with parent := cur }
  avlFix mem (some node)

end NanoRedis
