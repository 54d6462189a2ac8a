import NanoRedis.Avl.Balancing

/-! `avl_fix_left` and `avl_fix_right` at a node with two valid subtrees, one of them
higher by two. Which rotations they make depends on the heights of two grandchildren. -/

namespace NanoRedis
open Intrusive BinaryTree

def Repairs (fix : Heap AVLNode → Ptr → Except Fault (Ptr × Heap AVLNode)) (mem : Heap AVLNode)
    (a : Nat) (up : Ptr) (xs : List Nat) : Prop :=
  ∃ q mem' t', fix mem (some a) = .ok (q, mem') ∧ LinkedTree avlLinks mem' q up t' ∧
    inorder t' = xs ∧ Intrusive.Balanced t'

def HasBoth (t : BinaryTree Nat) : Prop :=
  ∃ b x y, t = BinaryTree.node b x y ∧ x ≠ nil ∧ y ≠ nil

theorem hasBoth_join_iff {s : Side} {b : Nat} {x m : BinaryTree Nat} :
    HasBoth (join s b x m) ↔ x ≠ nil ∧ m ≠ nil := by
  constructor
  · rintro ⟨c, y, z, heq, hy, hz⟩
    cases s <;> cases heq
    · exact ⟨hy, hz⟩
    · exact ⟨hz, hy⟩
  · rintro ⟨hx, hm⟩
    cases s with
    | left => exact ⟨b, x, m, rfl, hx, hm⟩
    | right => exact ⟨b, m, x, rfl, hm, hx⟩

section Shape
variable {s : Side} {a b d : Nat} {x m m₁ m₂ u : BinaryTree Nat}

theorem balanced_single (ht : Intrusive.Balanced (join s b x m)) (hu : Intrusive.Balanced u)
    (hheavy : (join s b x m).height = u.height + 2) (hle : m.height ≤ x.height) :
    Intrusive.Balanced (join s b x (join s a m u)) := by
  obtain ⟨hside, hx, hm⟩ := balanced_join_iff.mp ht
  simp only [balanced_join_iff, height_join] at hheavy ⊢
  exact ⟨by omega, hx, by omega, hm, hu⟩

theorem balanced_double (ht : Intrusive.Balanced (join s b x (join s d m₂ m₁)))
    (hu : Intrusive.Balanced u) (hheavy : (join s b x (join s d m₂ m₁)).height = u.height + 2)
    (hlt : x.height < (join s d m₂ m₁).height) :
    Intrusive.Balanced (join s d (join s b x m₂) (join s a m₁ u)) := by
  obtain ⟨hside, hx, hm⟩ := balanced_join_iff.mp ht
  obtain ⟨hsidem, hm₂, hm₁⟩ := balanced_join_iff.mp hm
  simp only [balanced_join_iff, height_join] at hheavy hlt hside ⊢
  exact ⟨by omega, ⟨by omega, hx, hm₂⟩, by omega, hm₁, hu⟩

end Shape

def Measures (k : UInt32) (t : BinaryTree Nat) : Prop :=
  (t = nil → k = -1) ∧ (t ≠ nil → k.toNat + 1 = t.height)

section Subtrees
variable {mem : Heap AVLNode} {p up : Ptr} {s : Side} {b : Nat} {t x m : BinaryTree Nat}

theorem AvlSubtree.measures (h : AvlSubtree mem p up t) :
    ∃ k, avlHeight mem p = .ok k ∧ Measures k t := by
  cases t with
  | nil =>
    obtain rfl := h.linked.eq_none
    exact ⟨-1, rfl, fun _ => rfl, fun hne => absurd rfl hne⟩
  | node a l r =>
    obtain ⟨rfl, -⟩ := h.linked.root
    obtain ⟨n, hn, hheight⟩ := h.heights.1
    refine ⟨n.height, ?_, nofun, fun _ => congrArg (· + 1) hheight⟩
    simp only [avlHeight, load_some hn, ok_bind, pure_eq_ok]

theorem AvlSubtree.nil (mem : Heap AVLNode) (up : Ptr) : AvlSubtree mem none up .nil :=
  ⟨.nil up, trivial, trivial, trivial⟩

theorem AvlSubtree.children (h : AvlSubtree mem p up (join s b x m)) :
    p = some b ∧ ∃ c, mem.get? b = some c ∧ AvlSubtree mem (avlLinks.child s c) (some b) x ∧
      AvlSubtree mem (avlLinks.child s.other c) (some b) m := by
  have hheights : ∀ (a : Nat) (l r : BinaryTree Nat),
      (∃ n, mem.get? a = some n ∧ n.height.toNat = max l.height r.height) ↔
        ∃ n, mem.get? a = some n ∧ n.height.toNat = max r.height l.height := by
    intro a l r
    rw [max_comm]
  have hcounts : ∀ (a : Nat) (l r : BinaryTree Nat),
      (∃ n, mem.get? a = some n ∧ n.cnt.toNat = l.numNodes + r.numNodes + 1) ↔
        ∃ n, mem.get? a = some n ∧ n.cnt.toNat = r.numNodes + l.numNodes + 1 := by
    intro a l r
    rw [Nat.add_comm l.numNodes]
  obtain ⟨rfl, c, hroot, -⟩ := treeAt_join_iff.mp (avlAt_of_counts h.linked h.counts)
  obtain ⟨-, hbx, hbm⟩ := balanced_join_iff.mp h.balanced
  obtain ⟨-, hhx, hhm⟩ := (everywhere_join_iff hheights).mp h.heights
  obtain ⟨-, hcx, hcm⟩ := (everywhere_join_iff hcounts).mp h.counts
  exact ⟨rfl, c, hroot.cell, ⟨(treeAt_iff.mp hroot.near).1, hbx, hhx, hcx⟩,
    ⟨(treeAt_iff.mp hroot.far).1, hbm, hhm, hcm⟩⟩

end Subtrees

section Sides
variable {mem : Heap AVLNode} {a b : Nat} {n : AVLNode} {s : Side} {t x m u : BinaryTree Nat}

structure Leaning (mem : Heap AVLNode) (a : Nat) (n : AVLNode) (s : Side)
    (t u : BinaryTree Nat) : Prop where
  cell : mem.get? a = some n
  near : AvlSubtree mem (avlLinks.child s n) (some a) t
  far : AvlSubtree mem (avlLinks.child s.other n) (some a) u
  nodup : (inorder (join s a t u)).Nodup
  height_eq : t.height = u.height + 2

theorem Leaning.rootAt (h : Leaning mem a n s t u) : AvlRootAt mem a n n.parent s t u :=
  ⟨h.cell, rfl, avlAt_of_counts h.near.linked h.near.counts,
    avlAt_of_counts h.far.linked h.far.counts⟩

theorem Leaning.reads (h : Leaning mem a n s (join s b x m) u) :
    avlLinks.child s n = some b ∧ ∃ c inner outer, mem.get? b = some c ∧
      avlHeight mem (avlLinks.child s.other c) = .ok inner ∧ Measures inner m ∧
      avlHeight mem (avlLinks.child s c) = .ok outer ∧ Measures outer x := by
  obtain ⟨hchild, c, hc, hx, hm⟩ := h.near.children
  obtain ⟨inner, hinner⟩ := hm.measures
  obtain ⟨outer, houter⟩ := hx.measures
  exact ⟨hchild, c, inner, outer, hc, hinner.1, hinner.2, houter.1, houter.2⟩

theorem avlFixSide_no_inner (h : Leaning mem a n s (join s b x nil) u) :
    avlFixSide s mem (some a) = .error .nullDeref := by
  obtain ⟨hchild, c, inner, outer, hc, hinner, hmeasure, houter, hmeasure'⟩ := h.reads
  obtain ⟨hside, -⟩ := balanced_join_iff.mp h.near.balanced
  have heq := h.height_eq
  rw [height_join, BinaryTree.height] at heq
  rw [BinaryTree.height] at hside
  have hx : x ≠ nil := by
    rintro rfl
    rw [BinaryTree.height] at heq
    omega
  have hone := hmeasure'.2 hx
  have htop : ((-1 : UInt32)).toNat = 2 ^ 32 - 1 := rfl
  have hheavy : inner > outer := by
    rw [gt_iff_lt, UInt32.lt_iff_toNat_lt, hmeasure.1 rfl, htop]
    omega
  rw [avlFixSide_double h.cell hchild hc hinner houter hheavy]
  obtain ⟨-, c', hroot, -⟩ := treeAt_join_iff.mp h.rootAt.near
  rw [rotate_nil hroot.swap, error_bind]

/-- The empty outer subtree counts as the higher one, so a single rotation is made, which
brings the inner one to the other side. -/
theorem avlFixSide_no_outer (h : Leaning mem a n s (join s b nil m) u) :
    ∃ mem', avlFixSide s mem (some a) = .ok (some b, mem') ∧
      AvlAt mem' (some b) n.parent (join s b nil (join s a m u)) := by
  obtain ⟨hchild, c, inner, outer, hc, hinner, -, houter, hmeasure⟩ := h.reads
  have htop : ((-1 : UInt32)).toNat = 2 ^ 32 - 1 := rfl
  have hlight : ¬ inner > outer := by
    have hlt := inner.toNat_lt
    rw [gt_iff_lt, UInt32.lt_iff_toNat_lt, hmeasure.1 rfl, htop]
    omega
  obtain ⟨mem', hrotate, -, htree⟩ := rotate_join h.rootAt h.nodup
  exact ⟨mem', by rw [avlFixSide_single h.cell hchild hc hinner houter hlight, hrotate], htree⟩

theorem avlFixSide_both (h : Leaning mem a n s (join s b x m) u) (hx : x ≠ nil) (hm : m ≠ nil) :
    Repairs (avlFixSide s) mem a n.parent (inorder (join s a (join s b x m) u)) := by
  obtain ⟨hchild, c, inner, outer, hc, hinner, hmeasure, houter, hmeasure'⟩ := h.reads
  have hiff : inner > outer ↔ x.height < m.height := by
    have him := hmeasure.2 hm
    have hox := hmeasure'.2 hx
    rw [gt_iff_lt, UInt32.lt_iff_toNat_lt]
    omega
  by_cases hheavy : inner > outer
  · have hrun := avlFixSide_double h.cell hchild hc hinner houter hheavy
    obtain ⟨d, m₂, m₁, rfl⟩ := exists_join s hm
    obtain ⟨-, c', hrootb, -⟩ := treeAt_join_iff.mp h.rootAt.near
    -- the first rotation, seen from the other side of the child
    have hrootb' : AvlRootAt mem b c' (some a) s.other (join s.other d m₁ m₂) x := by
      rw [join_other]
      exact hrootb.swap
    have hsame : join s.other b (join s.other d m₁ m₂) x = join s b x (join s d m₂ m₁) := by
      rw [join_other, join_other]
    obtain ⟨mem₁, hturn, htouch, htree⟩ :=
      rotate_join hrootb' (hsame ▸ (nodup_inorder_join.mp h.nodup).1)
    rw [hsame] at htouch
    simp only [join_other] at htree
    have hchildren := (inorder_rotate s d b x m₂ m₁).symm
    obtain ⟨mem₂, hset, -, hroot₂⟩ := setChild_root h.rootAt h.nodup htouch htree hchildren
    have horder := inorder_join_congr s a u hchildren
    obtain ⟨mem₃, hrotate, -, hfinal⟩ := rotate_join hroot₂ (by rw [horder]; exact h.nodup)
    refine ⟨some d, mem₃, _, ?_, (treeAt_iff.mp hfinal).1, ?_,
      balanced_double h.near.balanced h.far.balanced h.height_eq (hiff.mp hheavy)⟩
    · simp only [hrun, hturn, ok_bind, hset, hrotate]
    · rw [inorder_rotate, horder]
  · obtain ⟨mem', hrotate, -, htree⟩ := rotate_join h.rootAt h.nodup
    have hrun := avlFixSide_single h.cell hchild hc hinner houter hheavy
    exact ⟨some b, mem', _, hrun.trans hrotate, (treeAt_iff.mp htree).1, inorder_rotate ..,
      balanced_single h.near.balanced h.far.balanced h.height_eq
        (not_lt.mp fun hlt => hheavy (hiff.mpr hlt))⟩

theorem avlFixSide_repairs_iff (h : Leaning mem a n s t u) :
    Repairs (avlFixSide s) mem a n.parent (inorder (join s a t u)) ↔ HasBoth t := by
  have hne : t ≠ nil := by
    rintro rfl
    have heq := h.height_eq
    rw [BinaryTree.height] at heq
    omega
  obtain ⟨b, x, m, rfl⟩ := exists_join s hne
  rw [hasBoth_join_iff]
  by_cases hm : m = nil
  · subst hm
    refine iff_of_false ?_ fun hboth => hboth.2 rfl
    rintro ⟨q, mem', t', hrun, -⟩
    rw [avlFixSide_no_inner h] at hrun
    cases hrun
  by_cases hx : x = nil
  · subst hx
    refine iff_of_false ?_ fun hboth => hboth.1 rfl
    rintro ⟨q, mem', t', hrun, hlinked, -, hbalanced⟩
    obtain ⟨mem'', hrun', htree⟩ := avlFixSide_no_outer h
    obtain ⟨rfl, rfl⟩ := Prod.mk.inj (Except.ok.inj (hrun.symm.trans hrun'))
    obtain rfl := (treeAt_iff.mp htree).1.unique hlinked
    have hlow := (balanced_join_iff.mp hbalanced).1.2
    have hpos : 0 < m.height := by
      cases m with
      | nil => exact absurd rfl hm
      | node => exact Nat.succ_pos _
    rw [height_join, BinaryTree.height] at hlow
    omega
  · exact iff_of_true (avlFixSide_both h hx hm) ⟨hx, hm⟩

end Sides

/-- The rotations repair the imbalance exactly where the higher subtree has two children at its
root. Otherwise it has three nodes in a row, and a missing grandchild is taken for the
higher one: the fix follows a null pointer or leaves a root that is off by two. -/
theorem avlFix_repairs_iff {mem : Heap AVLNode} {a : Nat} {n : AVLNode} {l r : BinaryTree Nat}
    (hn : mem.get? a = some n) (hl : AvlSubtree mem n.left (some a) l)
    (hr : AvlSubtree mem n.right (some a) r)
    (hnodup : (inorder (BinaryTree.node a l r)).Nodup) :
    (l.height = r.height + 2 →
        (Repairs avlFixLeft mem a n.parent (inorder (BinaryTree.node a l r)) ↔ HasBoth l)) ∧
      (r.height = l.height + 2 →
        (Repairs avlFixRight mem a n.parent (inorder (BinaryTree.node a l r)) ↔ HasBoth r)) := by
  rw [avlFixLeft_eq, avlFixRight_eq]
  constructor
  · intro hheavy
    exact avlFixSide_repairs_iff (s := .left) ⟨hn, hl, hr, hnodup, hheavy⟩
  · intro hheavy
    exact avlFixSide_repairs_iff (s := .right) ⟨hn, hr, hl, hnodup, hheavy⟩

def leaningTree : Heap AVLNode :=
  ⟨[some { cnt := 1, parent := some 1 },
    some { height := 1, cnt := 3, left := some 0, right := some 2, parent := some 3 },
    some { cnt := 1, parent := some 1 }, some { height := 2, cnt := 4, left := some 1 }]⟩

theorem avlFix_repairs_leaningTree : Repairs avlFixLeft leaningTree 3 none [0, 1, 2, 3] := by
  have hnodup : (inorder (BinaryTree.node 3 (.node 1 (.node 0 .nil .nil) (.node 2 .nil .nil))
      .nil)).Nodup := by decide
  have hn : leaningTree.get? 3 = some { height := 2, cnt := 4, left := some 1 } := rfl
  have hl : AvlSubtree leaningTree (some 1) (some 3)
      (.node 1 (.node 0 .nil .nil) (.node 2 .nil .nil)) := avlSubtree_three rfl rfl rfl
  have hiff := avlFix_repairs_iff hn hl (.nil leaningTree (some 3)) hnodup
  exact (hiff.1 rfl).mpr ⟨1, _, _, rfl, nofun, nofun⟩

def straightChain : Heap AVLNode :=
  ⟨[some { cnt := 1, parent := some 1 },
    some { height := 1, cnt := 2, left := some 0, parent := some 2 },
    some { height := 2, cnt := 3, left := some 1 }]⟩

theorem straightChain_crashes :
    let l := BinaryTree.node 1 (.node 0 .nil .nil) .nil
    AvlSubtree straightChain (some 1) (some 2) l ∧ AvlSubtree straightChain none (some 2) .nil ∧
      l.height = BinaryTree.nil.height (α := Nat) + 2 ∧
      (inorder (BinaryTree.node 2 l .nil)).Nodup ∧
      avlFixLeft straightChain (some 2) = .error .nullDeref ∧
      ¬ Repairs avlFixLeft straightChain 2 none (inorder (BinaryTree.node 2 l .nil)) := by
  refine ⟨⟨?_, ?_, ?_, ?_⟩, .nil .., rfl, by decide, rfl, ?_⟩
  · exact .node rfl rfl (.node rfl rfl (.nil _) (.nil _)) (.nil _)
  · simp [Intrusive.Balanced, Everywhere]
  · exact ⟨⟨_, rfl, rfl⟩, ⟨⟨_, rfl, rfl⟩, trivial, trivial⟩, trivial⟩
  · exact ⟨⟨_, rfl, rfl⟩, ⟨⟨_, rfl, rfl⟩, trivial, trivial⟩, trivial⟩
  · rintro ⟨q, mem', t', hrun, -⟩
    cases hrun

end NanoRedis
