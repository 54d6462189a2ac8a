import NanoRedis.Memory

/-! The intrusive hash map of `hashtable.cpp`. Functions that write through a
pointer return the memory and the tables they leave behind. -/

namespace NanoRedis
open Intrusive

structure HNode where
  next : Ptr := none
  hcode : UInt64 := 0
deriving DecidableEq, Repr

/-- `tab` is `none` for a NULL array; sizes fit the address space, so they are naturals. -/
structure HTab where
  tab : Option (List Ptr) := none
  mask : Nat := 0
  size : Nat := 0
deriving DecidableEq, Repr

structure HMap where
  tb1 : HTab := {}
  tb2 : HTab := {}
  resizingPos : Nat := 0
deriving DecidableEq, Repr

def kMaxLoadFactor : Nat := 8
def kResizingWork : Nat := 128

abbrev HEq := Nat → Nat → Except Fault Bool

/-- A second-order pointer (`HNode **`): the address of a bucket head or of a `next` field. -/
inductive Slot
  | bucket (pos : Nat)
  | next (node : Nat)
deriving DecidableEq, Repr

def HTab.bucket (htab : HTab) (pos : Nat) : Except Fault Ptr :=
  match htab.tab with
  | none => .error .nullDeref
  | some slots =>
    match slots[pos]? with
    | none => .error .outOfBounds
    | some p => .ok p

def HTab.setBucket (htab : HTab) (pos : Nat) (p : Ptr) : Except Fault HTab :=
  match htab.tab with
  | none => .error .nullDeref
  | some slots =>
    if pos < slots.length then .ok { htab with tab := some (slots.set pos p) }
    else .error .outOfBounds

def readSlot (mem : Heap HNode) (htab : HTab) : Slot → Except Fault Ptr
  | .bucket pos => htab.bucket pos
  | .next a => do
    let node ← load mem (some a)
    return node.next

def writeSlot (mem : Heap HNode) (htab : HTab) (p : Ptr) : Slot → Except Fault (Heap HNode × HTab)
  | .bucket pos => do
    let htab ← htab.setBucket pos p
    return (mem, htab)
  | .next a => do
    let node ← load mem (some a)
    let mem ← store mem a { node with next := p }
    return (mem, htab)

def hInit (n : Nat) : Except Fault HTab :=
  if n > 0 ∧ (n - 1) &&& n = 0 then
    .ok { tab := some (List.replicate n none), mask := n - 1, size := 0 }
  else .error (.assertion .hInit)

def hInsert (mem : Heap HNode) (htab : HTab) (newNode : Nat) :
    Except Fault (Heap HNode × HTab) := do
  let node ← load mem (some newNode)
  let pos := node.hcode.toNat &&& htab.mask
  let next ← htab.bucket pos
  let mem ← store mem newNode { node with next := next }
  let htab ← htab.setBucket pos (some newNode)
  return (mem, { htab with size := htab.size + 1 })

/-- The `for` loop of `h_lookup`. A chain without a cycle has at most `mem.brk`
cells, so a walk that outlasts the fuel is one that never ends. -/
def hLookupLoop (mem : Heap HNode) (htab : HTab) (key : Nat) (eq : HEq) :
    Nat → Slot → Except Fault (Option Slot)
  | 0, _ => .error .diverges
  | fuel + 1, slot => do
    match ← readSlot mem htab slot with
    | none => return none
    | some cur =>
      let node ← load mem (some cur)
      let keyNode ← load mem (some key)
      let hit ← (if node.hcode = keyNode.hcode then eq key cur else .ok false)
      if hit then return some slot
      else hLookupLoop mem htab key eq fuel (.next cur)

def hLookup (mem : Heap HNode) (htab : HTab) (key : Nat) (eq : HEq) :
    Except Fault (Option Slot) := do
  if htab.tab.isNone then return none
  let keyNode ← load mem (some key)
  let pos := keyNode.hcode.toNat &&& htab.mask
  if ¬ pos < htab.mask + 1 then throw (.assertion .hLookup)
  -- the bucket is read before the first cell, hence one more than the cells
  hLookupLoop mem htab key eq (mem.brk + 1) (.bucket pos)

def hDetach (mem : Heap HNode) (htab : HTab) (slot : Slot) :
    Except Fault (Ptr × Heap HNode × HTab) := do
  let detached ← readSlot mem htab slot
  let node ← load mem detached
  let (mem, htab) ← writeSlot mem htab node.next slot
  return (detached, mem, { htab with size := htab.size - 1 })

def hScanChain {α : Type} (mem : Heap HNode) (f : α → Nat → Except Fault α) :
    Nat → Ptr → α → Except Fault α
  | _, none, arg => .ok arg
  | 0, some _, _ => .error .diverges
  | fuel + 1, some target, arg => do
    let arg ← f arg target
    let node ← load mem (some target)
    hScanChain mem f fuel node.next arg

def hScan {α : Type} (mem : Heap HNode) (tab : HTab) (f : α → Nat → Except Fault α) (arg : α) :
    Except Fault α :=
  if tab.size = 0 then .ok arg
  else (List.range (tab.mask + 1)).foldlM
    (fun arg i => do
      let head ← tab.bucket i
      hScanChain mem f mem.brk head arg) arg

def inc (count : UInt32) (_node : Nat) : Except Fault UInt32 := .ok (count + 1)

def hmSize (mem : Heap HNode) (hmap : HMap) : Except Fault UInt32 := do
  let count ← hScan mem hmap.tb1 inc 0
  hScan mem hmap.tb2 inc count

def hmStartResizing (hmap : HMap) : Except Fault HMap := do
  if hmap.tb2.tab.isSome then throw (.assertion .hmStartResizing)
  let tb1 ← hInit (2 * (hmap.tb1.mask + 1))
  return { tb1 := tb1, tb2 := hmap.tb1, resizingPos := 0 }

/-- One round of the `while` loop of `hm_help_resizing`. -/
def moveNode (mem : Heap HNode) (hmap : HMap) : Except Fault (Heap HNode × HMap) := do
  let head ← hmap.tb2.bucket hmap.resizingPos
  -- one empty bucket is skipped, not a run of them
  let pos := if head.isNone then hmap.resizingPos + 1 else hmap.resizingPos
  let (toMove, mem, tb2) ← hDetach mem hmap.tb2 (.bucket pos)
  match toMove with
  | none => throw .nullDeref
  | some toMove =>
    let (mem, tb1) ← hInsert mem hmap.tb1 toMove
    return (mem, { tb1 := tb1, tb2 := tb2, resizingPos := pos })

/-- `n_work` is read by the loop condition and never written, so it stays a
parameter. Every round lowers `tb2.size`, which is therefore enough fuel. -/
def helpResizingLoop (nWork : Nat) : Nat → Heap HNode → HMap → Except Fault (Heap HNode × HMap)
  | 0, mem, hmap =>
    if nWork < kResizingWork ∧ hmap.tb2.size > 0 then .error .diverges else .ok (mem, hmap)
  | fuel + 1, mem, hmap =>
    if nWork < kResizingWork ∧ hmap.tb2.size > 0 then do
      let (mem, hmap) ← moveNode mem hmap
      helpResizingLoop nWork fuel mem hmap
    else .ok (mem, hmap)

def hmHelpResizing (mem : Heap HNode) (hmap : HMap) : Except Fault (Heap HNode × HMap) := do
  let nWork := 0
  let (mem, hmap) ← helpResizingLoop nWork hmap.tb2.size mem hmap
  if hmap.tb2.size = 0 ∧ hmap.tb2.tab.isSome then return (mem, { hmap with tb2 := {} })
  else return (mem, hmap)

def hmInsert (mem : Heap HNode) (hmap : HMap) (node : Nat) : Except Fault (Heap HNode × HMap) := do
  let tb1 ← (if hmap.tb1.tab.isNone then hInit 4 else .ok hmap.tb1)
  let (mem, tb1) ← hInsert mem tb1 node
  let hmap := { hmap with tb1 := tb1 }
  let hmap ←
    (if hmap.tb2.tab.isNone ∧ hmap.tb1.size / (hmap.tb1.mask + 1) > kMaxLoadFactor then
      hmStartResizing hmap
    else .ok hmap)
  hmHelpResizing mem hmap

def hmLookup (mem : Heap HNode) (hmap : HMap) (key : Nat) (eq : HEq) :
    Except Fault (Ptr × Heap HNode × HMap) := do
  let (mem, hmap) ← hmHelpResizing mem hmap
  match ← hLookup mem hmap.tb1 key eq with
  | some slot =>
    let node ← readSlot mem hmap.tb1 slot
    return (node, mem, hmap)
  | none =>
    match ← hLookup mem hmap.tb2 key eq with
    | some slot =>
      let node ← readSlot mem hmap.tb2 slot
      return (node, mem, hmap)
    | none => return (none, mem, hmap)

def hmPop (mem : Heap HNode) (hmap : HMap) (key : Nat) (eq : HEq) :
    Except Fault (Ptr × Heap HNode × HMap) := do
  match ← hLookup mem hmap.tb1 key eq with
  | some slot =>
    let (deleted, mem, tb1) ← hDetach mem hmap.tb1 slot
    return (deleted, mem, { hmap with tb1 := tb1 })
  | none =>
    match ← hLookup mem hmap.tb2 key eq with
    | some slot =>
      let (deleted, mem, tb2) ← hDetach mem hmap.tb2 slot
      return (deleted, mem, { hmap with tb2 := tb2 })
    | none => return (none, mem, hmap)

end NanoRedis
