import NanoRedis.Lib.Heap

/-! Faults of the store's code and checked accesses to its memory. An address
stands for the object that starts there, so `container_of` maps it to itself. -/

namespace NanoRedis
open Intrusive

inductive Assertion
  | hInit
  | hLookup
  | hmStartResizing
  | doGet
  | readFull
  | writeAll
deriving DecidableEq, Repr

inductive Fault
  | nullDeref
  | dangling
  | outOfBounds
  | badContainer
  | unconstructed
  | diverges
  | assertion (a : Assertion)
deriving DecidableEq, Repr

instance {α : Type} [DecidableEq α] : DecidableEq (Except Fault α)
  | .ok a, .ok b => decidable_of_iff (a = b) (by simp)
  | .error e, .error f => decidable_of_iff (e = f) (by simp)
  | .ok _, .error _ => isFalse (by simp)
  | .error _, .ok _ => isFalse (by simp)

def faultOf {α : Type} : Except Fault α → Option Fault
  | .ok _ => none
  | .error e => some e

theorem faultOf_eq_some {α : Type} {x : Except Fault α} {e : Fault} :
    faultOf x = some e ↔ x = .error e := by
  cases x <;> simp [faultOf]

@[simp] theorem ok_bind {α β : Type} (a : α) (f : α → Except Fault β) :
    (Except.ok a >>= f) = f a := rfl

@[simp] theorem error_bind {α β : Type} (e : Fault) (f : α → Except Fault β) :
    ((Except.error e : Except Fault α) >>= f) = .error e := rfl

@[simp] theorem pure_eq_ok {α : Type} (a : α) : (pure a : Except Fault α) = .ok a := rfl

theorem bind_eq_ok {α β : Type} {x : Except Fault α} {f : α → Except Fault β} {b : β} :
    (x >>= f) = .ok b ↔ ∃ a, x = .ok a ∧ f a = .ok b := by
  cases x <;> simp

variable {α : Type}

def load (mem : Heap α) : Ptr → Except Fault α
  | none => .error .nullDeref
  | some a =>
    match mem.get? a with
    | none => .error .dangling
    | some v => .ok v

def store (mem : Heap α) (a : Nat) (v : α) : Except Fault (Heap α) :=
  match mem.get? a with
  | none => .error .dangling
  | some _ => .ok (mem.set a v)

def update (mem : Heap α) (p : Ptr) (f : α → α) : Except Fault (Heap α) :=
  match p with
  | none => .error .nullDeref
  | some a =>
    match mem.get? a with
    | none => .error .dangling
    | some v => .ok (mem.set a (f v))

@[simp] theorem load_none (mem : Heap α) : load mem none = .error .nullDeref := rfl

theorem load_some {mem : Heap α} {a : Nat} {v : α} (h : mem.get? a = some v) :
    load mem (some a) = .ok v := by
  simp only [load, h]

theorem store_some {mem : Heap α} {a : Nat} {u : α} (h : mem.get? a = some u) (v : α) :
    store mem a v = .ok (mem.set a v) := by
  simp only [store, h]

theorem update_some {mem : Heap α} {a : Nat} {v : α} (h : mem.get? a = some v) (f : α → α) :
    update mem (some a) f = .ok (mem.set a (f v)) := by
  simp only [update, h]

end NanoRedis
