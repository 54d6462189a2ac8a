import NanoRedis.Avl.Defs
import NanoRedis.Lib.LinkedTree
import NanoRedis.Lib.Run

/-! Whole runs of a client of the tree, which owns the nodes, keeps the root
pointer and orders the nodes by keys. -/

namespace NanoRedis
open Intrusive
variable {α : Type} [LinearOrder α]

def avlLinks : TreeLinks AVLNode := ⟨AVLNode.left, AVLNode.right, AVLNode.parent⟩

def TrueHeights (mem : Heap AVLNode) (t : BinaryTree Nat) : Prop :=
  Everywhere (fun a l r => ∃ n, mem.get? a = some n ∧ n.height.toNat = max l.height r.height) t

def TrueCounts (mem : Heap AVLNode) (t : BinaryTree Nat) : Prop :=
  Everywhere (fun a l r => ∃ n, mem.get? a = some n ∧
    n.cnt.toNat = l.numNodes + r.numNodes + 1) t

/-- At `p` below `up` hangs an AVL tree of the shape `t` with true `height` and `cnt` fields. -/
structure AvlSubtree (mem : Heap AVLNode) (p up : Ptr) (t : BinaryTree Nat) : Prop where
  linked : LinkedTree avlLinks mem p up t
  balanced : Balanced t
  heights : TrueHeights mem t
  counts : TrueCounts mem t

abbrev AvlTree (mem : Heap AVLNode) (root : Ptr) (t : BinaryTree Nat) : Prop :=
  AvlSubtree mem root none t

theorem avlSubtree_three {mem : Heap AVLNode} {up : Ptr} {a b c : Nat}
    (ha : mem.get? a = some { cnt := 1, parent := some b })
    (hb : mem.get? b =
      some { height := 1, cnt := 3, left := some a, right := some c, parent := up })
    (hc : mem.get? c = some { cnt := 1, parent := some b }) :
    AvlSubtree mem (some b) up (.node b (.node a .nil .nil) (.node c .nil .nil)) where
  linked := .node hb rfl (.node ha rfl (.nil _) (.nil _)) (.node hc rfl (.nil _) (.nil _))
  balanced := by simp [Intrusive.Balanced, Everywhere]
  heights := ⟨⟨_, hb, rfl⟩, ⟨⟨_, ha, rfl⟩, trivial, trivial⟩, ⟨_, hc, rfl⟩, trivial, trivial⟩
  counts := ⟨⟨_, hb, rfl⟩, ⟨⟨_, ha, rfl⟩, trivial, trivial⟩, ⟨_, hc, rfl⟩, trivial, trivial⟩

structure AvlClient (α : Type) where
  mem : Heap AVLNode := {}
  root : Ptr := none
  key : Nat → α
  live : List Nat := []

def AvlClient.Indexed (s : AvlClient α) : Prop :=
  ∃ t, AvlTree s.mem s.root t ∧ (inorder t).Perm s.live ∧
    (inorder t).Pairwise fun a b => s.key a ≤ s.key b

inductive AvlCall (α : Type)
  | alloc (node : AVLNode)
  | insert (node : Nat) (key : α)
  | del (node : Nat)

def avlCall (s : AvlClient α) : AvlCall α → Except Fault (AvlClient α)
  | .alloc node => .ok { s with mem := s.mem.alloc node }
  | .insert node k => do
    let key := Function.update s.key node k
    let mem ← avlInit s.mem (some node)
    let (root, mem) ← treeAddBy (fun cur => .ok (decide (key node < key cur))) mem s.root node
    return { mem := mem, root := root, key := key, live := node :: s.live }
  | .del node => do
    let (root, mem) ← avlDel s.mem (some node)
    return { s with mem := mem, root := root, live := s.live.erase node }

def AvlCall.Admissible (s : AvlClient α) : AvlCall α → Prop
  | .alloc _ => True
  | .insert node _ => (s.mem.get? node).isSome ∧ node ∉ s.live
  | .del node => node ∈ s.live

instance AvlCall.decidableAdmissible (s : AvlClient α) : ∀ c : AvlCall α, Decidable (c.Admissible s)
  | .alloc _ => isTrue trivial
  | .insert node _ => inferInstanceAs (Decidable ((s.mem.get? node).isSome ∧ node ∉ s.live))
  | .del node => inferInstanceAs (Decidable (node ∈ s.live))

def AvlCall.Inserts : AvlCall α → Prop
  | .insert _ _ => True
  | .alloc _ | .del _ => False

/-! ## The first insertion

The balance test `lh - rh < -1` is unsigned, so a node with two equal subtrees
counts as heavy on the right, a leaf included. -/

theorem avlUpdate_leaf {mem : Heap AVLNode} {a : Nat} {n : AVLNode} (hn : mem.get? a = some n)
    (hl : n.left = none) (hr : n.right = none) :
    ∃ mem', avlUpdate mem (some a) = .ok mem' ∧
      mem'.get? a = some { n with height := 0, cnt := 1 } := by
  obtain ⟨height, cnt, left, right, parent⟩ := n
  obtain ⟨rfl, rfl⟩ : left = none ∧ right = none := ⟨hl, hr⟩
  have hset := Heap.get?_set_self hn ⟨1 + maxU32 (-1) (-1), cnt, none, none, parent⟩
  refine ⟨_, ?_, Heap.get?_set_self hset ⟨0, 1, none, none, parent⟩⟩
  simp only [avlUpdate, load_some hn, avlHeight, avlCnt, ok_bind, update_some hn, update_some hset]
  rfl

theorem avlFix_leaf {mem : Heap AVLNode} {a : Nat} {n : AVLNode} (hn : mem.get? a = some n)
    (hl : n.left = none) (hr : n.right = none) (hp : n.parent = none) :
    avlFix mem (some a) = .error .nullDeref := by
  obtain ⟨mem', hupdate, hn'⟩ := avlUpdate_leaf hn hl hr
  have hheavy : ¬ ((-1 : UInt32) - -1 > 1) ∧ (-1 : UInt32) - -1 < -1 := by decide
  have hfix : avlFixRight mem' (some a) = .error .nullDeref := by
    simp only [avlFixRight, load_some hn', hr, ok_bind, load_none, error_bind]
  simp only [avlFix, avlFixLoop, hupdate, load_some hn', hl, hr, hp, avlHeight, ok_bind,
    if_neg hheavy.1, if_pos hheavy.2, hfix, error_bind]

theorem treeAddBy_empty (less : Nat → Except Fault Bool) {mem : Heap AVLNode} {a : Nat}
    {n : AVLNode} (hn : mem.get? a = some n) (hl : n.left = none) (hr : n.right = none) :
    treeAddBy less mem none a = .error .nullDeref := by
  have hset := Heap.get?_set_self hn { n with parent := none }
  simp only [treeAddBy, descend, writeTreeSlot, ok_bind, update_some hn]
  exact avlFix_leaf hset hl hr rfl

theorem insert_first {s : AvlClient α} {node : Nat} (hroot : s.root = none)
    (hnode : (s.mem.get? node).isSome) (k : α) :
    avlCall s (.insert node k) = .error .nullDeref := by
  obtain ⟨n, hn⟩ := Option.isSome_iff_exists.mp hnode
  have hinit := Heap.get?_set_self hn { height := 0, cnt := 1 }
  simp only [avlCall, avlInit, update_some hn, ok_bind, hroot, treeAddBy_empty _ hinit rfl rfl,
    error_bind]

def AvlClient.Fresh (s : AvlClient α) : Prop := s.root = none ∧ s.live = []

theorem AvlClient.Fresh.indexed {s : AvlClient α} (h : s.Fresh) : s.Indexed := by
  refine ⟨.nil, ⟨?_, trivial, trivial, trivial⟩, ?_, .nil⟩
  · rw [h.1]
    exact .nil none
  · rw [h.2]
    exact .nil

/-- A run keeps the index in order exactly as long as it inserts nothing. -/
theorem avl_indexed_iff (key : Nat → α) {calls : List (AvlCall α)}
    (hadm : Run.AllSteps avlCall AvlCall.Admissible { key := key } calls) :
    Run.AllSteps avlCall (fun s c => ∃ s', avlCall s c = .ok s' ∧ s'.Indexed) { key := key } calls ↔
      ∀ c ∈ calls, ¬ c.Inserts := by
  refine Run.allSteps_iff_forall (I := AvlClient.Fresh) (fun s c hs hc hno => ?_)
    (fun s c hs hc hins => ?_)
    ⟨rfl, rfl⟩ hadm
  · cases c with
    | alloc node =>
      have hfresh : AvlClient.Fresh { s with mem := s.mem.alloc node } := hs
      exact ⟨⟨_, rfl, hfresh.indexed⟩, _, rfl, hfresh⟩
    | insert node k => exact absurd trivial hno
    | del node =>
      have hmem : node ∈ s.live := hc
      rw [hs.2] at hmem
      cases hmem
  · cases c with
    | insert node k =>
      rintro ⟨s', hrun, -⟩
      rw [insert_first hs.1 hc.1] at hrun
      cases hrun
    | alloc _ | del _ => exact absurd not_false hins

theorem avl_indexed_single :
    Run.AllSteps avlCall (fun s c => ∃ s', avlCall s c = .ok s' ∧ s'.Indexed)
        { key := fun _ => (0 : ℤ) }
        [.alloc {}, .insert 0 5] ↔
      ∀ c ∈ [AvlCall.alloc {}, .insert 0 (5 : ℤ)], ¬ c.Inserts :=
  avl_indexed_iff _ (by decide)

theorem first_insertion_crashes :
    Run.AllSteps avlCall AvlCall.Admissible { key := fun _ => (0 : ℤ) } [.alloc {}, .insert 0 5] ∧
      faultOf (Run.run avlCall { key := fun _ => (0 : ℤ) } [.alloc {}, .insert 0 5]) =
          some .nullDeref := by
  decide

end NanoRedis
