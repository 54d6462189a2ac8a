import NanoRedis.Avl.Deletion

/-! What `avl_fix` does to whole trees. Where it ends it has kept the order of the nodes
and restored the counts, but it never gives back the root that it found. -/

namespace NanoRedis
open Intrusive BinaryTree

variable {mem : Heap AVLNode} {root : Ptr} {t : BinaryTree Nat} {a : Nat}

/-- The `cnt` field of `a` is the size of its subtree in the 32 bits that it has. -/
def CountWraps (mem : Heap AVLNode) (a : Nat) (l r : BinaryTree Nat) : Prop :=
  ∃ n, mem.get? a = some n ∧ n.cnt.toNat = (l.numNodes + r.numNodes + 1) % 2 ^ 32

theorem countWraps_iff {l r : BinaryTree Nat} :
    CountWraps mem a l r ↔
      ∃ n, mem.get? a = some n ∧ Counted n (l.numNodes + r.numNodes + 1) := by
  refine exists_congr fun n => and_congr_right fun _ => ?_
  unfold Counted
  rw [← UInt32.toNat_inj, UInt32.toNat_ofNat']

def CountsOffPath (mem : Heap AVLNode) (a : Nat) (t : BinaryTree Nat) : Prop :=
  Everywhere (fun b l r => a ∉ inorder (BinaryTree.node b l r) → CountWraps mem b l r) t

theorem CountsOffPath.counted {s : BinaryTree Nat} (h : CountsOffPath mem a t) (hsub : Subtree s t)
    (ha : a ∉ inorder s) : Everywhere (fun b l r => ∃ n, mem.get? b = some n ∧
      Counted n (l.numNodes + r.numNodes + 1)) s :=
  everywhere_iff.mpr fun b l r hb => countWraps_iff.mp
    (everywhere_iff.mp h b l r (hb.trans hsub) fun hab => ha (hb.sublist.subset hab))

theorem CountsOffPath.avlFix_rebuilds (h : CountsOffPath mem a t)
    (hlinked : LinkedTree avlLinks mem root none t) (hnodup : (inorder t).Nodup)
    (ha : a ∈ inorder t) :
    EndsIn (avlFix mem (some a)) fun r => Rebuilt mem none (inorder t) r ∧ r.1 ≠ root := by
  obtain ⟨fs, l, r, rfl⟩ := exists_plug_of_mem ha
  have hlinks : TreeAt avlLinks (fun _ _ => True) mem root none (plug fs (.node a l r)) := by
    refine treeAt_iff.mpr ⟨hlinked, everywhere_iff.mpr fun b x y hb => ?_⟩
    obtain ⟨q, q', hnode⟩ := hlinked.subtree hb
    obtain ⟨-, v, hv, -⟩ := hnode.root
    exact ⟨v, hv, trivial⟩
  obtain ⟨hole, up, ⟨rfl, n, hn, hparent, -, hl, hr⟩, hctx⟩ := treeAt_plug_iff.mp hlinks
  obtain ⟨hsub, -, hdis⟩ := nodup_inorder_plug.mp hnodup
  obtain ⟨hal, har⟩ := notMem_of_nodup_middle hsub
  have hnode := subtree_plug fs (BinaryTree.node a l r)
  have hroot : AvlRootAt mem a n up .left l r :=
    ⟨hn, hparent, treeAt_iff.mpr ⟨(treeAt_iff.mp hl).1, h.counted hnode.left_child hal⟩,
      treeAt_iff.mpr ⟨(treeAt_iff.mp hr).1, h.counted hnode.right_child har⟩⟩
  have hctx' : ContextAt avlLinks Counted (fun _ _ => True) mem root fs (some a) up _ :=
    hctx.siblings fun f hf => h.counted (subtree_sibling hf _) fun haf =>
      hdis a (root_mem_join .left a l r) (sibling_subset_pathNodes hf haf)
  exact NanoRedis.avlFix_rebuilds hroot hctx' hnodup

/-- `avl_fix` ends. It follows a null pointer or only rearranges the tree, and has then
restored every count in the 32 bits that it has. -/
theorem avlFix_rearranges (hlinked : LinkedTree avlLinks mem root none t)
    (hnodup : (inorder t).Nodup) (ha : a ∈ inorder t) (hcounts : CountsOffPath mem a t) :
    avlFix mem (some a) = .error .nullDeref ∨
      ∃ root' mem' t', avlFix mem (some a) = .ok (root', mem') ∧
        LinkedTree avlLinks mem' root' none t' ∧ inorder t' = inorder t ∧
        Everywhere (CountWraps mem') t' := by
  refine (hcounts.avlFix_rebuilds hlinked hnodup ha).error_or_ok.imp_right ?_
  rintro ⟨res, hrun, ⟨-, t', htree, horder⟩, -⟩
  obtain ⟨hlinked', hcounts'⟩ := treeAt_iff.mp htree
  exact ⟨res.1, res.2, t', hrun, hlinked', horder,
    hcounts'.imp le_rfl fun _ _ _ _ hcnt => countWraps_iff.mpr hcnt⟩

theorem avlFix_rearranges_tallPair :
    faultOf (avlFix tallPair (some 1)) = none ∧
      (avlFix tallPair (some 1) = .error .nullDeref ∨
        ∃ root' mem' t', avlFix tallPair (some 1) = .ok (root', mem') ∧
          LinkedTree avlLinks mem' root' none t' ∧ inorder t' = [0, 1, 2] ∧
          Everywhere (CountWraps mem') t') :=
  ⟨by decide, avlFix_rearranges tallPair_counted.linked tallPair_counted.nodup (by decide)
    ⟨fun h => absurd (by decide) h, ⟨fun _ => ⟨_, rfl, rfl⟩, trivial, trivial⟩,
      fun _ => ⟨_, rfl, rfl⟩, trivial, trivial⟩⟩

/-! ## More nodes than a count can tell -/

def chainCell (n i : Nat) : AVLNode where
  height := 1
  cnt := UInt32.ofNat (n - i)
  right := if i + 1 < n then some (i + 1) else none
  parent := some (i - 1)

/-- A root `0` whose left subtree is a chain of right children, `n` nodes in all. -/
def spine (n : Nat) : Heap AVLNode :=
  ⟨(List.range n).map fun i => some (if i = 0 then { left := some 1 } else chainCell n i)⟩

def rightChain : Nat → Nat → BinaryTree Nat
  | _, 0 => nil
  | i, k + 1 => .node i nil (rightChain (i + 1) k)

section Spine
variable {n i k : Nat}

theorem get?_spine_zero (hn : 0 < n) : (spine n).get? 0 = some { left := some 1 } := by
  simp [Heap.get?, spine, hn]

theorem get?_spine (hi : 0 < i) (hn : i < n) : (spine n).get? i = some (chainCell n i) := by
  simp [Heap.get?, spine, hn, hi.ne']

@[simp] theorem numNodes_rightChain (i k : Nat) : (rightChain i k).numNodes = k := by
  induction k generalizing i with
  | zero => rfl
  | succ k ih => simp [rightChain, numNodes, ih]

@[simp] theorem inorder_rightChain (i k : Nat) : inorder (rightChain i k) = List.range' i k := by
  induction k generalizing i with
  | zero => rfl
  | succ k ih => simp [rightChain, inorder, ih, List.range'_succ]

theorem rightChain_linked (hi : 0 < i) (hk : i + k = n) :
    LinkedTree avlLinks (spine n) (if i < n then some i else none) (some (i - 1))
      (rightChain i k) := by
  induction k generalizing i with
  | zero =>
    rw [if_neg (by omega)]
    exact .nil _
  | succ k ih =>
    rw [if_pos (by omega)]
    exact .node (get?_spine hi (by omega)) rfl (.nil _) (ih (Nat.succ_pos i) (by omega))

theorem rightChain_counts (hi : 0 < i) (hk : i + k = n) (hn : n ≤ 2 ^ 32) :
    TrueCounts (spine n) (rightChain i k) := by
  induction k generalizing i with
  | zero => trivial
  | succ k ih =>
    refine ⟨⟨_, get?_spine hi (by omega), ?_⟩, trivial, ih (Nat.succ_pos i) (by omega)⟩
    have hsize : (n - i) % 2 ^ 32 = k + 1 := by omega
    simpa [chainCell] using hsize

theorem spine_nodup (k : Nat) : (inorder (BinaryTree.node 0 (rightChain 1 k) .nil)).Nodup := by
  refine (nodup_inorder_join (s := .left)).mpr ⟨?_, by simp [inorder], by simp, by simp [inorder]⟩
  rw [inorder_rightChain]
  exact List.nodup_range'

theorem spine_root (hn : 2 < n) (hsize : n ≤ 2 ^ 32) :
    AvlRootAt (spine n) 0 { left := some 1 } none .left (rightChain 1 (n - 1)) nil := by
  have hlinked := rightChain_linked (n := n) (i := 1) (k := n - 1) one_pos (by omega)
  have hcounts := rightChain_counts (n := n) (i := 1) (k := n - 1) one_pos (by omega) hsize
  rw [if_pos (by omega)] at hlinked
  exact ⟨get?_spine_zero (by omega), rfl, avlAt_of_counts hlinked hcounts, rfl⟩

theorem avlFix_spine (hn : 2 < n) (hsize : n ≤ 2 ^ 32) :
    ∃ r, avlFix (spine n) (some 0) = .ok r := by
  have hnodup := spine_nodup (n - 1)
  obtain ⟨mem, hupdate, htouch, htree⟩ := avlUpdate_root (spine_root hn hsize) hnodup
  obtain ⟨-, v, hv, -⟩ := treeAt_join_iff.mp htree
  obtain ⟨k, hk⟩ : ∃ k, n - 1 = k + 1 := ⟨n - 2, by omega⟩
  rw [hk] at hv hnodup
  have hleft : v.left = some 1 := hv.near.1
  have hright : v.right = none := hv.far
  have hparent : v.parent = none := hv.parent
  have hone := htouch.get?_some (by simp) (get?_spine (n := n) one_pos (by omega))
  have htwo := htouch.get?_some (by simp) (get?_spine (n := n) two_pos hn)
  have hnone : avlHeight mem none = .ok (-1) := rfl
  have hheight : avlHeight mem (some 1) = .ok 1 := by
    simp only [avlHeight, load_some hone, ok_bind, pure_eq_ok, chainCell]
  have hinner : avlHeight mem (avlLinks.child .right (chainCell n 1)) = .ok 1 := by
    have hchild : avlLinks.child .right (chainCell n 1) = some 2 := if_pos hn
    rw [hchild]
    simp only [avlHeight, load_some htwo, ok_bind, pure_eq_ok, chainCell]
  have hheavy : (1 : UInt32) - -1 > 1 := by decide
  have hfix := avlFixSide_single (s := .left) hv.cell hleft hone hinner rfl (by decide)
  obtain ⟨mem', hrotate, -⟩ := rotate_join (s := .left) (x := nil) (m := rightChain 2 k) hv hnodup
  refine ⟨(some 1, mem'), ?_⟩
  simp only [avlFix, avlFixLoop, hupdate, ok_bind, load_some hv.cell, hleft, hright, hparent,
    hheight, hnone, if_pos hheavy, avlFixLeft_eq, hfix, hrotate, pure_eq_ok]

end Spine

/-- In a tree of `2 ^ 32` nodes every count below the root is true, and the one that
`avl_fix` stores at the new root cannot be. -/
theorem spine_count_overflows :
    let t := BinaryTree.node 0 (rightChain 1 (2 ^ 32 - 1)) .nil
    LinkedTree avlLinks (spine (2 ^ 32)) (some 0) none t ∧ (inorder t).Nodup ∧
      Everywhere (fun b l r => 0 ∉ inorder (BinaryTree.node b l r) →
        ∃ n, (spine (2 ^ 32)).get? b = some n ∧ n.cnt.toNat = l.numNodes + r.numNodes + 1) t ∧
      ∃ root' mem', avlFix (spine (2 ^ 32)) (some 0) = .ok (root', mem') ∧
        ¬ ∃ t', LinkedTree avlLinks mem' root' none t' ∧ inorder t' = inorder t ∧
          TrueCounts mem' t' := by
  obtain ⟨N, hN⟩ : ∃ N, N = 2 ^ 32 := ⟨_, rfl⟩
  rw [← hN]
  have hcounts := rightChain_counts (n := N) (i := 1) (k := N - 1) one_pos (by omega) hN.le
  obtain ⟨⟨root', mem'⟩, hfix⟩ := avlFix_spine (n := N) (by omega) hN.le
  have hroot := spine_root (n := N) (by omega) hN.le
  refine ⟨.node hroot.cell rfl (treeAt_iff.mp hroot.near).1 (.nil _), spine_nodup _,
    ⟨fun h => absurd (by simp [inorder]) h, ?_, trivial⟩, root', mem', hfix, ?_⟩
  · exact hcounts.imp le_rfl fun _ _ _ _ hcnt _ => hcnt
  · rintro ⟨t', -, horder, hexact⟩
    have hlen := congrArg List.length horder
    simp only [length_inorder, numNodes, numNodes_rightChain] at hlen
    cases t' with
    | nil => simp [numNodes] at hlen
    | node b l r =>
      obtain ⟨n, -, hcnt⟩ := hexact.1
      have hlt := n.cnt.toNat_lt
      rw [numNodes] at hlen
      omega

/-! ## Balanced trees -/

def LeavesAlone (mem : Heap AVLNode) (root : Ptr) (t : BinaryTree Nat) (a : Nat) : Prop :=
  ∃ mem', avlFix mem (some a) = .ok (root, mem') ∧ ∀ x ∈ inorder t, mem'.get? x = mem.get? x

theorem AvlSubtree.countsOffPath (htree : AvlSubtree mem root none t) : CountsOffPath mem a t := by
  refine htree.counts.imp le_rfl ?_
  rintro b l r - ⟨n, hn, hcnt⟩ -
  exact ⟨n, hn, by rw [← hcnt, Nat.mod_eq_of_lt n.cnt.toNat_lt]⟩

/-- No valid tree is left alone, so no application of `avl_fix` that ends in a valid tree
is repeated by the next one. -/
theorem avlFix_disturbs (htree : AvlTree mem root t) (hnodup : (inorder t).Nodup)
    (ha : a ∈ inorder t) : ¬ LeavesAlone mem root t a ∧ avlFix mem (some a) ≠ .ok (root, mem) := by
  have hrun := htree.countsOffPath.avlFix_rebuilds htree.linked hnodup ha
  have hmoves : ∀ mem', avlFix mem (some a) ≠ .ok (root, mem') := by
    intro mem' hsame
    rw [hsame] at hrun
    exact hrun.2 rfl
  refine ⟨?_, hmoves mem⟩
  rintro ⟨mem', hsame, -⟩
  exact hmoves mem' hsame

def levelPair : Heap AVLNode :=
  ⟨[some { cnt := 1, parent := some 1 },
    some { height := 1, cnt := 3, left := some 0, right := some 2 },
    some { cnt := 1, parent := some 1 }]⟩

theorem levelPair_valid :
    AvlTree levelPair (some 1) (.node 1 (.node 0 .nil .nil) (.node 2 .nil .nil)) :=
  avlSubtree_three rfl rfl rfl

theorem avlFix_disturbs_levelPair :
    ¬ LeavesAlone levelPair (some 1) (.node 1 (.node 0 .nil .nil) (.node 2 .nil .nil)) 1 ∧
      avlFix levelPair (some 1) ≠ .ok (some 1, levelPair) :=
  avlFix_disturbs levelPair_valid (by decide) (by decide)

theorem levelPair_turns :
    let t := BinaryTree.node 1 (.node 0 .nil .nil) (.node 2 .nil .nil)
    AvlTree levelPair (some 1) t ∧ (inorder t).Nodup ∧
      faultOf (avlFix levelPair (some 0)) = some .nullDeref ∧
      (∃ mem', avlFix levelPair (some 1) = .ok (some 2, mem')) ∧
      ¬ LeavesAlone levelPair (some 1) t 0 ∧ ¬ LeavesAlone levelPair (some 1) t 1 := by
  refine ⟨levelPair_valid, by decide, by decide, ⟨_, rfl⟩, ?_, ?_⟩
  · rintro ⟨mem', hrun, -⟩
    have hfault : faultOf (avlFix levelPair (some 0)) = none := congrArg faultOf hrun
    exact absurd hfault (by decide)
  · rintro ⟨mem', hrun, -⟩
    cases hrun

end NanoRedis
