import NanoRedis.Avl.Defs
import NanoRedis.HashTable.Defs
import NanoRedis.Utils
import Mathlib.Logic.Function.Basic

/-! The sorted set of `zset.cpp`. A `ZNode` is split by member: its `tree` is a cell
of `trees`, its `hmap` one of `hnodes` and its data is in `objects`, all under the
address of the node. An `HKey` has no cell in `trees`. -/

namespace NanoRedis
open Intrusive Wire
variable {σ : Type} [LinearOrder σ]

/-- The data of a `ZNode` or an `HKey`. The name of a node has exactly `len` bytes, without a NUL
behind them. -/
inductive ZObject (σ : Type)
  | znode (score : σ) (len : Nat) (name : Bytes)
  | hkey (name : Bytes) (len : Nat)
deriving DecidableEq

structure ZMem (σ : Type) where
  trees : Heap AVLNode := {}
  hnodes : Heap HNode := {}
  objects : Nat → Option (ZObject σ) := fun _ => none

structure ZSet where
  tree : Ptr := none
  hmap : HMap := {}
deriving DecidableEq, Repr

/-- `container_of(_, ZNode, _)`, and the fields of the node. -/
def ZMem.znode (mem : ZMem σ) (a : Nat) : Except Fault (σ × Nat × Bytes) :=
  match mem.objects a with
  | some (.znode score len name) => .ok (score, len, name)
  | _ => .error .badContainer

def ZMem.hkey (mem : ZMem σ) (a : Nat) : Except Fault (Bytes × Nat) :=
  match mem.objects a with
  | some (.hkey name len) => .ok (name, len)
  | _ => .error .badContainer

def znodeNew (mem : ZMem σ) (name : Bytes) (len : Nat) (score : σ) :
    Except Fault (Nat × ZMem σ) := do
  let bytes ← readBytes name 0 len
  let node := mem.hnodes.brk
  let trees ← avlInit (mem.trees.alloc {}) (some node)
  return (node, ⟨trees, mem.hnodes.alloc { hcode := strHash bytes },
    Function.update mem.objects node (some (.znode score len bytes))⟩)

def ZMem.pushKey (mem : ZMem σ) (name : Bytes) (len : Nat) : Except Fault (Nat × ZMem σ) := do
  let bytes ← readBytes name 0 len
  let key := mem.hnodes.brk
  return (key, ⟨(mem.trees.alloc {}).free key, mem.hnodes.alloc { hcode := strHash bytes },
    Function.update mem.objects key (some (.hkey name len))⟩)

def ZMem.popKey (mem : ZMem σ) (key : Nat) : ZMem σ := { mem with hnodes := mem.hnodes.free key }

def memcmpEq (a b : Bytes) (n : Nat) : Except Fault Bool := do
  let as ← readBytes a 0 n
  let bs ← readBytes b 0 n
  return as == bs

/-- `strcmp(a, b) < 0`. The comparison runs up to the first difference or a common NUL,
and past the end of an array that has neither. -/
def strcmpLt : Bytes → Bytes → Except Fault Bool
  | a :: as, b :: bs =>
    if a ≠ b then .ok (decide (a < b))
    else if a = 0 then .ok false
    else strcmpLt as bs
  | _, _ => .error .outOfBounds

def hcmp (mem : ZMem σ) : HEq := fun node key => do
  let (_, len, name) ← mem.znode node
  let (keyName, keyLen) ← mem.hkey key
  if len ≠ keyLen then return false
  memcmpEq name keyName len

def zless (mem : ZMem σ) (lhs rhs : Nat) : Except Fault Bool := do
  let (lscore, _, lname) ← mem.znode lhs
  let (rscore, _, rname) ← mem.znode rhs
  if lscore ≠ rscore then return lscore < rscore
  strcmpLt lname rname

def treeAdd (mem : ZMem σ) (zset : ZSet) (node : Nat) : Except Fault (ZMem σ × ZSet) := do
  let (tree, trees) ← treeAddBy (zless mem node) mem.trees zset.tree node
  return ({ mem with trees := trees }, { zset with tree := tree })

def zsetLookup (mem : ZMem σ) (zset : ZSet) (name : Bytes) (len : Nat) :
    Except Fault (Ptr × ZMem σ × ZSet) := do
  -- only the tree tells whether the set is empty
  if zset.tree.isNone then return (none, mem, zset)
  let (key, mem) ← mem.pushKey name len
  let (found, hnodes, hmap) ← hmLookup mem.hnodes zset.hmap key (hcmp mem)
  return (found, { mem with hnodes := hnodes }.popKey key, { zset with hmap := hmap })

def zsetUpdate (mem : ZMem σ) (zset : ZSet) (node : Nat) (score : σ) :
    Except Fault (ZMem σ × ZSet) := do
  let (old, len, name) ← mem.znode node
  if old = score then return (mem, zset)
  let (tree, trees) ← avlDel mem.trees (some node)
  let objects := Function.update mem.objects node (some (.znode score len name))
  let trees ← avlInit trees (some node)
  treeAdd { mem with trees := trees, objects := objects } { zset with tree := tree } node

def zsetAdd (mem : ZMem σ) (zset : ZSet) (name : Bytes) (len : Nat) (score : σ) :
    Except Fault (Bool × ZMem σ × ZSet) := do
  let (found, mem, zset) ← zsetLookup mem zset name len
  match found with
  | some node =>
    let (mem, zset) ← zsetUpdate mem zset node score
    return (false, mem, zset)
  | none =>
    let (node, mem) ← znodeNew mem name len score
    let (hnodes, hmap) ← hmInsert mem.hnodes zset.hmap node
    let (mem, zset) ← treeAdd { mem with hnodes := hnodes } { zset with hmap := hmap } node
    return (true, mem, zset)

def zsetPop (mem : ZMem σ) (zset : ZSet) (name : Bytes) (len : Nat) :
    Except Fault (Ptr × ZMem σ × ZSet) := do
  let (key, mem) ← mem.pushKey name len
  let (hnode, hnodes, hmap) ← hmPop mem.hnodes zset.hmap key (hcmp mem)
  let mem := { mem with hnodes := hnodes }
  match hnode with
  | none => return (none, mem.popKey key, { zset with hmap := hmap })
  | some found =>
    let (tree, trees) ← avlDel mem.trees (some found)
    return (some found, { mem with trees := trees }.popKey key, ⟨tree, hmap⟩)

end NanoRedis
