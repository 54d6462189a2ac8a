import NanoRedis.ZSet.Defs
import NanoRedis.Avl.Runs
import NanoRedis.HashTable.Runs

/-! Whole runs of a client of the sorted set, against a map from names to scores. -/

namespace NanoRedis
open Intrusive Wire
variable {σ : Type}

inductive ZReply
  | added (b : Bool)
  | node (p : Ptr)
  | done
deriving DecidableEq

/-- `handed` lists the nodes that `zset_lookup` has returned and `zset_pop` has not
detached since; `ref` is the reference map and `reply` the result of the last call. -/
structure ZClient (σ : Type) where
  mem : ZMem σ := {}
  zset : ZSet := {}
  handed : List Nat := []
  ref : Bytes → Option σ := fun _ => none
  reply : ZReply := .done

inductive ZCall (σ : Type)
  | add (name : Bytes) (score : σ)
  | lookup (name : Bytes)
  | update (node : Nat) (score : σ)
  | pop (name : Bytes)

def zsetCall [LinearOrder σ] (s : ZClient σ) : ZCall σ → Except Fault (ZClient σ)
  | .add name score => do
    let (added, mem, zset) ← zsetAdd s.mem s.zset name name.length score
    return ⟨mem, zset, s.handed, Function.update s.ref name (some score), .added added⟩
  | .lookup name => do
    let (found, mem, zset) ← zsetLookup s.mem s.zset name name.length
    return ⟨mem, zset, found.toList ++ s.handed, s.ref, .node found⟩
  | .update node score => do
    let (_, _, name) ← s.mem.znode node
    let (mem, zset) ← zsetUpdate s.mem s.zset node score
    return ⟨mem, zset, s.handed, Function.update s.ref name (some score), .done⟩
  | .pop name => do
    let (found, mem, zset) ← zsetPop s.mem s.zset name name.length
    return ⟨mem, zset, s.handed.filter fun x => found ≠ some x, Function.update s.ref name none,
      .node found⟩

/-- Names are free of NUL bytes, and only nodes obtained by a lookup are updated. -/
def ZCall.Admissible (s : ZClient σ) : ZCall σ → Prop
  | .add name _ | .lookup name | .pop name => 0 ∉ name
  | .update node _ => node ∈ s.handed

instance ZCall.decidableAdmissible (s : ZClient σ) : ∀ c : ZCall σ, Decidable (c.Admissible s)
  | .add name _ => inferInstanceAs (Decidable (0 ∉ name))
  | .lookup name => inferInstanceAs (Decidable (0 ∉ name))
  | .pop name => inferInstanceAs (Decidable (0 ∉ name))
  | .update node _ => inferInstanceAs (Decidable (node ∈ s.handed))

def ZClient.Entry (s : ZClient σ) (x : Nat) (name : Bytes) (score : σ) : Prop :=
  s.mem.objects x = some (.znode score name.length name)

structure ZClient.Holds [LinearOrder σ] (s : ZClient σ) (xs : List Nat) : Prop where
  hash : ∃ ys, Stores s.mem.hnodes s.zset.hmap ys ∧ ys.Perm xs
  tree : ∃ t, LinkedTree avlLinks s.mem.trees s.zset.tree none t ∧ inorder t = xs
  increasing : xs.Pairwise fun x y => ∀ m a n b, s.Entry x m a → s.Entry y n b →
    a < b ∨ a = b ∧ m < n
  entries : ∀ x ∈ xs, ∃ name score, s.Entry x name score
  once : ∀ x ∈ xs, ∀ y ∈ xs, ∀ name a b, s.Entry x name a → s.Entry y name b → x = y
  scores : ∀ name score, s.ref name = some score ↔ ∃ x ∈ xs, s.Entry x name score

def ZClient.Finds (s : ZClient σ) (xs : List Nat) (name : Bytes) (r : Ptr) : Prop :=
  (∀ x, r = some x → x ∈ xs ∧ ∃ score, s.Entry x name score) ∧ (r = none ↔ s.ref name = none)

def ZCall.Served (s s' : ZClient σ) (xs xs' : List Nat) : ZCall σ → Prop
  | .add name _ => s'.reply = .added (s.ref name).isNone
  | .lookup name => xs' = xs ∧ ∃ r, s'.reply = .node r ∧ s.Finds xs name r
  | .update _ _ => xs'.Perm xs
  | .pop name => ∃ r, s'.reply = .node r ∧ s.Finds xs name r ∧ xs' = xs.filter fun x => r ≠ some x

/-- The call completes as it would on the reference map, and both indexes agree before
and after it. -/
def ZCall.Refines [LinearOrder σ] (s : ZClient σ) (c : ZCall σ) : Prop :=
  ∃ s' xs xs', zsetCall s c = .ok s' ∧ s.Holds xs ∧ s'.Holds xs' ∧ c.Served s s' xs xs'

def ZCall.Adds : ZCall σ → Prop
  | .add _ _ => True
  | .lookup _ | .update _ _ | .pop _ => False

/-! ## The empty set -/

def ZMem.Aligned (mem : ZMem σ) : Prop := mem.trees.brk = mem.hnodes.brk

structure ZClient.Fresh (s : ZClient σ) : Prop where
  zset : s.zset = {}
  handed : s.handed = []
  ref : s.ref = fun _ => none
  aligned : s.mem.Aligned

theorem ZClient.Fresh.holds [LinearOrder σ] {s : ZClient σ} (h : s.Fresh) : s.Holds [] where
  hash := ⟨[], by
    rw [h.zset]
    exact stores_empty _, .nil⟩
  tree := ⟨.nil, by
    rw [h.zset]
    exact .nil none, rfl⟩
  increasing := .nil
  entries := by simp
  once := by simp
  scores := by simp [h.ref]

theorem readBytes_whole (data : Bytes) : readBytes data 0 data.length = .ok data := by
  simpa using readBytes_append [] data []

theorem hmPop_empty (mem : Heap HNode) (key : Nat) (eq : HEq) :
    hmPop mem {} key eq = .ok (none, mem, {}) := by
  simp [hmPop, hLookup]

theorem pushKey_spec (mem : ZMem σ) (name : Bytes) :
    ∃ key mem', mem.pushKey name name.length = .ok (key, mem') ∧
      (mem.Aligned → (mem'.popKey key).Aligned) := by
  have hpush : mem.pushKey name name.length =
      .ok (mem.hnodes.brk, ⟨(mem.trees.alloc {}).free mem.hnodes.brk,
      mem.hnodes.alloc { hcode := strHash name },
      Function.update mem.objects mem.hnodes.brk (some (.hkey name name.length))⟩) := by
    simp only [ZMem.pushKey, readBytes_whole, ok_bind, pure_eq_ok]
  refine ⟨_, _, hpush, fun h => ?_⟩
  simp only [ZMem.Aligned, ZMem.popKey, Heap.brk_free, Heap.brk_alloc]
  rw [h]

theorem zsetPop_empty [LinearOrder σ] (mem : ZMem σ) (name : Bytes) :
    ∃ mem', zsetPop mem {} name name.length = .ok (none, mem', {}) ∧
      (mem.Aligned → mem'.Aligned) := by
  obtain ⟨key, mem', hpush, haligned⟩ := pushKey_spec mem name
  refine ⟨mem'.popKey key, ?_, haligned⟩
  simp only [zsetPop, hpush, hmPop_empty, ok_bind, pure_eq_ok]

theorem zsetAdd_empty [LinearOrder σ] {mem : ZMem σ} (haligned : mem.Aligned) (name : Bytes)
    (score : σ) :
    zsetAdd mem {} name name.length score = .error .nullDeref := by
  have hcell : (mem.trees.alloc {}).get? mem.hnodes.brk = some {} := by
    rw [← show mem.trees.brk = mem.hnodes.brk from haligned]
    exact Heap.get?_alloc_brk _ _
  have hinit := Heap.get?_set_self hcell { height := 0, cnt := 1 }
  have hnode : (mem.hnodes.alloc { hcode := strHash name }).get? mem.hnodes.brk =
      some { hcode := strHash name } :=
    Heap.get?_alloc_brk _ _
  have hlookup : zsetLookup mem {} name name.length = .ok (none, mem, {}) := rfl
  simp only [zsetAdd, hlookup, znodeNew, readBytes_whole, avlInit, update_some hcell, ok_bind,
    pure_eq_ok]
  rcases (stores_empty _).insert_total hnode (by simp) with ⟨hnodes, hmap, hins⟩ | hins
  · have htree (less : Nat → Except Fault Bool) := treeAddBy_empty less hinit rfl rfl
    simp only [hins, ok_bind, treeAdd, htree, error_bind]
  · simp only [hins, error_bind]

/-- A run refines the reference map exactly as long as it adds nothing. -/
theorem zset_refines_iff [LinearOrder σ] {calls : List (ZCall σ)}
    (hadm : Run.AllSteps zsetCall ZCall.Admissible {} calls) :
    Run.AllSteps zsetCall ZCall.Refines {} calls ↔ ∀ c ∈ calls, ¬ c.Adds := by
  refine Run.allSteps_iff_forall (I := ZClient.Fresh) (fun s c hs hc hno => ?_)
    (fun s c hs hc hadds => ?_)
    ⟨rfl, rfl, rfl, rfl⟩ hadm
  · have hfinds (name : Bytes) : s.Finds [] name none := ⟨by simp, by simp [hs.ref]⟩
    cases c with
    | add name score => exact absurd trivial hno
    | lookup name =>
      have hstep : zsetCall s (.lookup name) = .ok { s with reply := .node none } := by
        simp only [zsetCall, hs.zset]
        rfl
      have hfresh : ZClient.Fresh { s with reply := .node none } :=
        ⟨hs.zset, hs.handed, hs.ref, hs.aligned⟩
      exact ⟨⟨_, [], [], hstep, hs.holds, hfresh.holds, rfl, none, rfl, hfinds name⟩, _, hstep,
        hfresh⟩
    | update node score =>
      have hmem : node ∈ s.handed := hc
      rw [hs.handed] at hmem
      cases hmem
    | pop name =>
      obtain ⟨mem, hpop, haligned⟩ := zsetPop_empty s.mem name
      have hstep : zsetCall s (.pop name) = .ok ⟨mem, {}, [], fun _ => none, .node none⟩ := by
        simp only [zsetCall, hs.zset, hpop, hs.handed, hs.ref, ok_bind, pure_eq_ok, List.filter_nil,
          Function.update_eq_self]
      have hfresh : ZClient.Fresh ⟨mem, {}, [], fun _ => none, .node none⟩ :=
        ⟨rfl, rfl, rfl, haligned hs.aligned⟩
      exact ⟨⟨_, [], [], hstep, hs.holds, hfresh.holds, none, rfl, hfinds name, rfl⟩, _, hstep,
        hfresh⟩
  · cases c with
    | add name score =>
      rintro ⟨s', -, -, hrun, -⟩
      simp only [zsetCall, hs.zset, zsetAdd_empty hs.aligned, error_bind] at hrun
      cases hrun
    | lookup _ | update _ _ | pop _ => exact absurd not_false hadds

theorem zset_refines_small :
    Run.AllSteps zsetCall ZCall.Refines {} [.lookup [97], .pop [97], .add [97] (1 : ℤ)] ↔
      ∀ c ∈ [ZCall.lookup [97], .pop [97], .add [97] (1 : ℤ)], ¬ c.Adds :=
  zset_refines_iff (by decide)

theorem first_add_crashes :
    Run.AllSteps zsetCall ZCall.Admissible {} [.add [97] (1 : ℤ)] ∧
      faultOf (Run.run zsetCall {} [.add [97] (1 : ℤ)]) = some .nullDeref := by
  decide

end NanoRedis
