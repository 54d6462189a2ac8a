import NanoRedis.HashTable.Defs
import NanoRedis.Reply
import Mathlib.Logic.Function.Basic

/-! The command handlers over the global store `g_data`. An `Entry` is split by
member: its `node` is a cell of `hnodes`, its strings are in `entries`, and both
stand under the address of the entry. -/

namespace NanoRedis
open Intrusive Wire

structure Entry where
  key : Bytes := []
  val : Bytes := []
deriving DecidableEq

/-- What the memory that `malloc` hands out holds where an `Entry` has its strings. Nothing
constructs them there, so the bytes may or may not make two strings. -/
inductive Block
  | strings
  | garbage
deriving DecidableEq

/-- An allocator that clears its memory: zeros make two empty strings. -/
def zeroed : Nat → Block := fun _ => .strings

/-- `blocks` are the answers of `malloc` to come. -/
structure Store where
  hnodes : Heap HNode := {}
  entries : Nat → Entry := fun _ => {}
  db : HMap := {}
  blocks : Nat → Block

abbrev Command := List Bytes

def arg (cmd : Command) (i : Nat) : Except Fault Bytes :=
  match cmd[i]? with
  | none => .error .outOfBounds
  | some word => .ok word

def asciiLower (b : UInt8) : UInt8 := if 65 ≤ b ∧ b ≤ 90 then b + 32 else b

/-- `strcasecmp` on C strings, each of which ends at its first NUL. -/
def strcasecmpEq (a b : Bytes) : Bool :=
  (a.takeWhile (· ≠ 0)).map asciiLower == (b.takeWhile (· ≠ 0)).map asciiLower

def cmdIs (word : Bytes) (cmd : Bytes) : Bool := strcasecmpEq word cmd

def entryEq (entries : Nat → Entry) : HEq :=
  fun lhs rhs => .ok ((entries lhs).key == (entries rhs).key)

def cbScan (entries : Nat → Entry) (out : Bytes) (node : Nat) : Except Fault Bytes :=
  .ok (outStr out (entries node).key)

/-- The handlers' local `Entry key`, hashed: its address and the store that contains it. -/
def Store.pushKey (st : Store) (k : Bytes) : Nat × Store :=
  (st.hnodes.brk, { st with
    hnodes := st.hnodes.alloc { hcode := strHash k }
    entries := Function.update st.entries st.hnodes.brk { key := k } })

def Store.popKey (st : Store) (key : Nat) : Store := { st with hnodes := st.hnodes.free key }

def doKeys (_cmd : Command) (out : Bytes) (st : Store) : Except Fault (Bytes × Store) := do
  let size ← hmSize st.hnodes st.db
  let out ← hScan st.hnodes st.db.tb1 (cbScan st.entries) (outArr out size)
  let out ← hScan st.hnodes st.db.tb2 (cbScan st.entries) out
  return (out, st)

def doGet (cmd : Command) (out : Bytes) (st : Store) : Except Fault (Bytes × Store) := do
  let k ← arg cmd 1
  let (key, st) := st.pushKey k
  let (node, hnodes, db) ← hmLookup st.hnodes st.db key (entryEq st.entries)
  let st := { st with hnodes := hnodes, db := db }
  match node with
  | none => return (outNil out, st.popKey key)
  | some node =>
    let val := (st.entries node).val
    if ¬ val.length < kMaxMsg then throw (.assertion .doGet)
    return (outStr out val, st.popKey key)

/-- The swaps take what the block of a new entry holds for strings, and the end of the locals
frees them. -/
def doSet (cmd : Command) (out : Bytes) (st : Store) : Except Fault (Bytes × Store) := do
  let k ← arg cmd 1
  let v ← arg cmd 2
  let (key, st) := st.pushKey k
  let (query, hnodes, db) ← hmLookup st.hnodes st.db key (entryEq st.entries)
  match query with
  | some query =>
    let entries := Function.update st.entries query { st.entries query with val := v }
    let st := { st with hnodes := hnodes, entries := entries, db := db }
    return (outNil out, st.popKey key)
  | none =>
    let newEntry := hnodes.brk
    if st.blocks 0 = .garbage then throw .unconstructed
    let entries := Function.update st.entries newEntry { key := k, val := v }
    let hnodes := hnodes.alloc { hcode := strHash k }
    let (hnodes, db) ← hmInsert hnodes db newEntry
    let blocks := fun n => st.blocks (n + 1)
    let st := { hnodes := hnodes, entries := entries, db := db, blocks := blocks }
    return (outNil out, Store.popKey st key)

def doDel (cmd : Command) (out : Bytes) (st : Store) : Except Fault (Bytes × Store) := do
  let k ← arg cmd 1
  let (key, st) := st.pushKey k
  let (delNode, hnodes, db) ← hmPop st.hnodes st.db key (entryEq st.entries)
  match delNode with
  | some delNode =>
    let st := { st with hnodes := hnodes.free delNode, db := db }
    return (outInt out 1, st.popKey key)
  | none => return (outInt out 0, ({ st with hnodes := hnodes, db := db } : Store).popKey key)

/-- `cmd.size() == n && cmd_is(cmd[0], name)`. -/
def isCmd (cmd : Command) (n : Nat) (name : Bytes) : Bool :=
  cmd.length == n && (cmd[0]?.elim false fun word => cmdIs word name)

def doRequest (cmd : Command) (out : Bytes) (st : Store) : Except Fault (Bytes × Store) :=
  if isCmd cmd 1 (ascii ['k', 'e', 'y', 's']) then doKeys cmd out st
  else if isCmd cmd 2 (ascii ['g', 'e', 't']) then doGet cmd out st
  else if isCmd cmd 3 (ascii ['s', 'e', 't']) then doSet cmd out st
  else if isCmd cmd 2 (ascii ['d', 'e', 'l']) then doDel cmd out st
  else .ok (outErr out errUnknown unknownCmd, st)

end NanoRedis
