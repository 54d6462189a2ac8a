import NanoRedis.Avl.Balancing

/-! `avl_del` on trees of any shape and with any heights: it takes out its node and no
other, unless rebalancing runs into a null pointer. -/

namespace NanoRedis
open Intrusive BinaryTree

variable {mem : Heap AVLNode} {a : Nat} {p up root : Ptr} {t l r : BinaryTree Nat}
  {fs : List (Frame Nat)}

theorem leftmost_at {b fuel : Nat} (ht : AvlAt mem (some b) up t) (hfuel : t.numNodes < fuel) :
    ∃ v gs r' rest, leftmost mem fuel (some b) = .ok (some v) ∧
      t = plug gs (BinaryTree.node v nil r') ∧ r'.numNodes < t.numNodes ∧
      inorder t = v :: rest := by
  induction t generalizing b up fuel with
  | nil => cases ht
  | node c l r ihl =>
    obtain ⟨fuel, rfl⟩ : ∃ m, fuel = m + 1 := ⟨fuel - 1, by omega⟩
    obtain ⟨hb, w, hw, -, -, hl, -⟩ := ht
    obtain rfl := Option.some.inj hb
    simp only [numNodes] at hfuel
    rw [leftmost]
    simp only [load_some hw, ok_bind]
    cases l with
    | nil =>
      have hleft : w.left = none := hl
      refine ⟨b, [], r, inorder r, by simp [hleft], rfl, by simp [numNodes], rfl⟩
    | node d l₁ l₂ =>
      have hleft : w.left = some d := hl.1
      have hl : AvlAt mem w.left (some b) (BinaryTree.node d l₁ l₂) := hl
      rw [hleft] at hl ⊢
      have hsize : (BinaryTree.node d l₁ l₂).numNodes < fuel := by omega
      obtain ⟨v, gs, r', rest, hrun, hshape, hlt, horder⟩ := ihl hl hsize
      refine ⟨v, gs ++ [⟨.left, b, r⟩], r', rest ++ b :: inorder r, by simpa using hrun, ?_, ?_, ?_⟩
      · rw [plug_append, ← hshape]
        rfl
      · simp only [numNodes] at hlt ⊢
        omega
      · rw [inorder, horder, List.cons_append]

/-- The tree with the root `r.1` in the store `r.2` has the nodes `xs` without `a`, in the
same order, and nothing outside of the nodes `xs` was written since `mem`. -/
structure Removed (mem : Heap AVLNode) (xs : List Nat) (a : Nat) (r : Ptr × Heap AVLNode) :
    Prop where
  touched : mem.Touched r.2 xs
  tree : ∃ t, AvlAt r.2 r.1 none t ∧ inorder t = xs.erase a

theorem counted_setChild (n : AVLNode) (k : Nat) (s : Side) (p : Ptr) (h : Counted n k) :
    Counted (n.setChild s p) k := (AVLNode.cnt_setChild s p n).trans h

theorem avlDelRec_noRight (ht : AvlAt mem root none (plug fs (BinaryTree.node a l .nil)))
    (hnodup : (inorder (plug fs (BinaryTree.node a l .nil))).Nodup) (fuel : Nat) :
    EndsIn (avlDelRec (fuel + 1) mem (some a))
      (Removed mem (inorder (plug fs (BinaryTree.node a l .nil))) a) := by
  obtain ⟨hole, up, ⟨rfl, n, hn, hparent, -, hl, hr⟩, hctx⟩ := treeAt_plug_iff.mp ht
  have hright : n.right = none := hr
  have hparent : n.parent = up := hparent
  obtain ⟨hsub, hpath, hdis⟩ := nodup_inorder_plug.mp hnodup
  have hnodupl : (inorder l).Nodup := (List.nodup_append.mp hsub).1
  have hlsub : inorder l ⊆ inorder (BinaryTree.node a l .nil) := List.subset_append_left ..
  obtain ⟨mem₁, hset₁, htouch₁, hl₁⟩ := adopt_at hl hnodupl up
  have hset₁ : (if n.left.isSome then update mem n.left fun l => { l with parent := up }
      else .ok mem) = .ok mem₁ := hset₁
  have horder := erase_inorder_plug hnodup
  cases fs with
  | nil =>
    obtain rfl : up = none := hctx.2
    simp only [avlDelRec, load_some hn, ok_bind, hright, if_true, hparent, hset₁, pure_eq_ok]
    exact ⟨htouch₁.mono hlsub, l, hl₁, horder.symm⟩
  | cons f fs =>
    obtain rfl : up = some f.node := hctx.1
    have hctx₁ := hctx.frame htouch₁ fun x hx hxl => hdis x (hlsub hxl) hx
    have hasib : a ∉ inorder f.sibling := fun ha => hdis a (by simp [inorder]) (by simp [ha])
    obtain ⟨mem₂, hwrite, htouch₂, hctx₂⟩ :=
      writeTreeSlot_context hctx₁ hpath counted_setChild none n.left
    have hl₂ := hl₁.frame_one htouch₂ fun hf => hdis f.node (hlsub hf) (by simp)
    obtain ⟨v, hroot, habove⟩ := hctx₂.rootAt hl₂
    simp only [avlDelRec, load_some hn, ok_bind, hright, if_true, hparent, hset₁,
      childSlot_of_context hctx₁ hasib, hwrite]
    have hsame : inorder (plug fs (join f.side f.node l f.sibling)) =
        (inorder (plug (f :: fs) (BinaryTree.node a l .nil))).erase a := horder.symm
    have hfix := avlFix_rebuilds hroot habove (by rw [hsame]; exact hnodup.erase a)
    rw [hsame] at hfix
    refine hfix.mono fun r hr => ⟨?_, hr.1.tree⟩
    apply ((htouch₁.trans htouch₂).trans hr.1.touched).mono
    intro x hx
    simp only [List.mem_append, List.mem_singleton] at hx
    rcases hx with (hx | rfl) | hx
    · exact mem_inorder_plug.mpr (.inl (hlsub hx))
    · exact mem_inorder_plug.mpr (.inr (by simp))
    · exact List.mem_of_mem_erase hx

def swapVictim (mem : Heap AVLNode) (root node victim : Ptr) :
    Except Fault (Ptr × Heap AVLNode) := do
  let n ← load mem node
  let mem ← update mem victim fun _ => n
  let mem ← adopt mem n.left victim
  let mem ← adopt mem n.right victim
  let n ← load mem node
  match n.parent with
  | some p => do
    let slot ← childSlot mem p node
    let (_, mem) ← writeTreeSlot mem none victim slot
    return (root, mem)
  | none => return (victim, mem)

theorem copyNode_at {v : Nat} {n w : AVLNode} (ht : AvlAt mem p up (BinaryTree.node a l r))
    (hn : mem.get? a = some n) (hnodup : (inorder (BinaryTree.node a l r)).Nodup)
    (hv : mem.get? v = some w) (hvt : v ∉ inorder (BinaryTree.node a l r)) :
    ∃ mem₁ mem₂ mem', update mem (some v) (fun _ => n) = .ok mem₁ ∧
      adopt mem₁ n.left (some v) = .ok mem₂ ∧ adopt mem₂ n.right (some v) = .ok mem' ∧
      mem.Touched mem' (v :: (inorder l ++ inorder r)) ∧
      AvlAt mem' (some v) up (BinaryTree.node v l r) := by
  obtain ⟨-, n', hn', hparent, hcnt, hl, hr⟩ := ht
  obtain rfl := Option.some.inj (hn'.symm.trans hn)
  simp only [inorder, List.mem_append, List.mem_cons, not_or] at hvt
  obtain ⟨hvl, -, hvr⟩ := hvt
  obtain ⟨hnodupl, ⟨-, hnodupr⟩, -, hlr⟩ := (nodup_inorder_join (s := .left)).mp hnodup
  obtain ⟨mem₁, hset₁, htouch₁, hv₁⟩ := update_touched hv fun _ => n'
  obtain ⟨mem₂, hset₂, htouch₂, hl₂⟩ := adopt_at (hl.frame_one htouch₁ hvl) hnodupl (some v)
  have hr₂ := (hr.frame_one htouch₁ hvr).frame htouch₂ fun x hx hxl => hlr x hxl hx
  obtain ⟨mem₃, hset₃, htouch₃, hr₃⟩ := adopt_at hr₂ hnodupr (some v)
  have hv₃ : mem₃.get? v = some n' := htouch₃.get?_some hvr (htouch₂.get?_some hvl hv₁)
  refine ⟨mem₁, mem₂, mem₃, hset₁, hset₂, hset₃, ?_, ?_⟩
  · exact ((htouch₁.trans htouch₂).trans htouch₃).mono (by simp)
  · exact ⟨rfl, n', hv₃, hparent, hcnt, hl₂.frame htouch₃ hlr, hr₃⟩

theorem swapVictim_at {v : Nat} {w : AVLNode}
    (ht : AvlAt mem root none (plug fs (BinaryTree.node a l r)))
    (hnodup : (inorder (plug fs (BinaryTree.node a l r))).Nodup) (hv : mem.get? v = some w)
    (hvt : v ∉ inorder (plug fs (BinaryTree.node a l r))) :
    ∃ root' mem', swapVictim mem root (some a) (some v) = .ok (root', mem') ∧
      mem.Touched mem' (v :: inorder (plug fs (BinaryTree.node a l r))) ∧
      AvlAt mem' root' none (plug fs (BinaryTree.node v l r)) := by
  obtain ⟨hole, up, hnode, hctx⟩ := treeAt_plug_iff.mp ht
  obtain ⟨rfl, n, hn, hparent, -⟩ := id hnode
  have hparent : n.parent = up := hparent
  rw [mem_inorder_plug, not_or] at hvt
  obtain ⟨hvnode, hvpath⟩ := hvt
  obtain ⟨hsub, hpath, hdis⟩ := nodup_inorder_plug.mp hnodup
  have hamem : a ∈ inorder (BinaryTree.node a l r) := root_mem_join .left a l r
  have hbelow : inorder l ++ inorder r ⊆ inorder (BinaryTree.node a l r) :=
    List.append_subset.mpr ⟨List.subset_append_left .., fun x hx => by simp [inorder, hx]⟩
  obtain ⟨mem₁, mem₂, mem₃, hset₁, hset₂, hset₃, htouch, hcopy⟩ :=
    copyNode_at hnode hn hsub hv hvnode
  have htouched : v :: (inorder l ++ inorder r) ⊆
      v :: inorder (plug fs (BinaryTree.node a l r)) :=
    List.cons_subset_cons v fun x hx => mem_inorder_plug.mpr (.inl (hbelow hx))
  have hn₃ : mem₃.get? a = some n := by
    obtain ⟨hal, har⟩ := notMem_of_nodup_middle hsub
    have hav : a ≠ v := fun hav => hvnode (hav ▸ hamem)
    exact htouch.get?_some (by simp [hav, hal, har]) hn
  have hctx₃ := hctx.frame htouch fun x hx hxs => by
    rcases List.mem_cons.mp hxs with rfl | hxs
    · exact hvpath hx
    · exact hdis x (hbelow hxs) hx
  cases fs with
  | nil =>
    obtain ⟨-, rfl⟩ := hctx
    refine ⟨some v, mem₃, ?_, htouch.mono htouched, hcopy⟩
    simp only [swapVictim, load_some hn, ok_bind, hset₁, hset₂, hset₃, load_some hn₃, hparent,
      pure_eq_ok]
  | cons f fs =>
    obtain rfl : up = some f.node := hctx.1
    have hasib : a ∉ inorder f.sibling := fun ha => hdis a hamem (by simp [ha])
    obtain ⟨mem₄, hwrite, htouch₄, hctx₄⟩ :=
      writeTreeSlot_context hctx₃ hpath counted_setChild none (some v)
    have hcopy₄ := hcopy.frame_one htouch₄ fun hf => by
      rcases List.mem_cons.mp (List.perm_middle.subset hf) with hfv | hf
      · exact hvpath (hfv ▸ by simp)
      · exact hdis f.node (hbelow hf) (by simp)
    have hfmem : f.node ∈ inorder (plug (f :: fs) (BinaryTree.node a l r)) :=
      mem_inorder_plug.mpr (.inr (by simp))
    refine ⟨root, mem₄, ?_, (htouch.trans htouch₄).mono ?_,
      treeAt_plug_iff.mpr ⟨some v, some f.node, hcopy₄, hctx₄⟩⟩
    · simp only [swapVictim, load_some hn, ok_bind, hset₁, hset₂, hset₃, load_some hn₃, hparent,
        childSlot_of_context hctx₃ hasib, hwrite, pure_eq_ok]
    · exact List.append_subset.mpr ⟨htouched, fun x hx =>
        List.mem_cons_of_mem v (List.mem_singleton.mp hx ▸ hfmem)⟩

theorem swapVictim_removes {mem₁ : Heap AVLNode} {xs ys : List Nat} {v : Nat} {w : AVLNode}
    (hvictim : Removed mem (xs ++ a :: v :: ys) v (root, mem₁))
    (hnodup : (xs ++ a :: v :: ys).Nodup) (hv : mem.get? v = some w) :
    EndsIn (swapVictim mem₁ root (some a) (some v)) (Removed mem (xs ++ a :: v :: ys) a) := by
  obtain ⟨htouch, t, htree, horder⟩ := hvictim
  have hav : a ≠ v := by
    rintro rfl
    simp [List.nodup_append] at hnodup
  have ha : a ∈ inorder t := by
    rw [horder, List.mem_erase_of_ne hav]
    simp
  have hvt : v ∉ inorder t := horder ▸ hnodup.not_mem_erase
  obtain ⟨w', hw'⟩ := htouch.exists_get? hv
  obtain ⟨fs, l, r, rfl⟩ := exists_plug_of_mem ha
  obtain ⟨root', mem', hswap, htouch', htree'⟩ :=
    swapVictim_at htree (horder ▸ hnodup.erase v) hw' hvt
  obtain ⟨pre, post, hnode⟩ := inorder_plug_node fs l r
  rw [hswap, endsIn_ok]
  refine ⟨(htouch.trans htouch').mono ?_, _, htree', ?_⟩
  · refine List.append_subset.mpr ⟨List.Subset.refl _, List.cons_subset.mpr ⟨by simp, ?_⟩⟩
    rw [horder]
    exact List.erase_subset
  · rw [hnode, erase_of_erase_succ hnodup (horder.symm.trans (hnode a))]

theorem avlDelRec_succ {fuel : Nat} {n : AVLNode} {v : Ptr} (hn : mem.get? a = some n)
    (hright : n.right ≠ none) (hvictim : leftmost mem (mem.brk + 1) n.right = .ok v) :
    avlDelRec (fuel + 1) mem (some a) = (do
      let (root, mem) ← avlDelRec fuel mem v
      swapVictim mem root (some a) v) := by
  simp only [avlDelRec, load_some hn, ok_bind, if_neg hright, hvictim]
  rfl

/-- By induction on the depth of the recursion: the right subtree of the victim is smaller
than the one that it was taken from. -/
theorem avlDelRec_removes {fuel : Nat}
    (ht : AvlAt mem root none (plug fs (BinaryTree.node a l r)))
    (hnodup : (inorder (plug fs (BinaryTree.node a l r))).Nodup) (hfuel : r.numNodes < fuel) :
    EndsIn (avlDelRec fuel mem (some a))
      (Removed mem (inorder (plug fs (BinaryTree.node a l r))) a) := by
  induction fuel generalizing mem root a l r fs with
  | zero => omega
  | succ fuel ih =>
    by_cases hr : r = .nil
    · subst hr
      exact avlDelRec_noRight ht hnodup fuel
    obtain ⟨hole, up, ⟨rfl, n, hn, -, -, -, hright⟩, -⟩ := treeAt_plug_iff.mp ht
    obtain ⟨b, -, hb, -⟩ := hright.exists_root hr
    have hb : n.right = some b := hb
    have hright : AvlAt mem n.right (some a) r := hright
    obtain ⟨-, ⟨-, hnodupr⟩, -⟩ :=
      (nodup_inorder_join (s := .left)).mp (nodup_inorder_plug.mp hnodup).1
    have hsize : r.numNodes ≤ mem.brk := by
      rw [← length_inorder]
      exact Heap.length_le_brk hnodupr fun x hx => hright.exists_get? hx
    rw [hb] at hright
    obtain ⟨v, gs, r', rest, hrun, hshape, hlt, horder⟩ :=
      leftmost_at hright (Nat.lt_succ_of_le hsize)
    rw [avlDelRec_succ hn (by simp [hb]) (hb ▸ hrun)]
    have hwhole : plug fs (BinaryTree.node a l r) =
        plug (gs ++ ⟨.right, a, l⟩ :: fs) (BinaryTree.node v .nil r') := by
      rw [plug_append, ← hshape]
      rfl
    have hvictim := ih (hwhole ▸ ht) (hwhole ▸ hnodup) (by omega)
    rw [← hwhole] at hvictim
    apply hvictim.bind
    intro res hres
    obtain ⟨pre, post, hplug⟩ := inorder_plug fs
    have hsplit : inorder (plug fs (BinaryTree.node a l r)) =
        (pre ++ inorder l) ++ a :: v :: (rest ++ post) := by simp [hplug, inorder, horder]
    obtain ⟨w, hw⟩ : ∃ w, mem.get? v = some w := ht.exists_get? (by simp [hsplit])
    rw [hsplit] at hnodup hres ⊢
    exact swapVictim_removes hres hnodup hw

/-- The tree `t` at `root`, with distinct nodes and true `cnt` fields. -/
structure CountedTree (mem : Heap AVLNode) (root : Ptr) (t : BinaryTree Nat) : Prop where
  linked : LinkedTree avlLinks mem root none t
  counts : Everywhere (fun a l r => ∃ n, mem.get? a = some n ∧
    n.cnt.toNat = l.numNodes + r.numNodes + 1) t
  nodup : (inorder t).Nodup

theorem CountedTree.treeAt (h : CountedTree mem root t) : AvlAt mem root none t :=
  avlAt_of_counts h.linked h.counts

theorem CountedTree.numNodes_lt (h : CountedTree mem root t) : t.numNodes < 2 ^ 32 := by
  cases t with
  | nil => exact Nat.two_pow_pos 32
  | node a l r =>
    obtain ⟨⟨n, -, hcnt⟩, -⟩ := h.counts
    rw [numNodes, ← hcnt]
    exact n.cnt.toNat_lt

theorem countedTree_of_treeAt (ht : AvlAt mem root none t) (hnodup : (inorder t).Nodup)
    (hsize : t.numNodes < 2 ^ 32) : CountedTree mem root t := by
  obtain ⟨hlinked, hcounts⟩ := treeAt_iff.mp ht
  refine ⟨hlinked, hcounts.imp (Nat.le_of_lt_succ hsize) ?_, hnodup⟩
  rintro a l r hle ⟨n, hn, hcnt⟩
  refine ⟨n, hn, ?_⟩
  rw [show n.cnt = UInt32.ofNat (l.numNodes + r.numNodes + 1) from hcnt]
  exact UInt32.toNat_ofNat_of_lt (Nat.lt_succ_of_le hle)

/-- `avl_del` ends. It follows a null pointer or leaves the tree without its node. -/
theorem avlDel_removes (htree : CountedTree mem root t) (ha : a ∈ inorder t) :
    avlDel mem (some a) = .error .nullDeref ∨
      ∃ root' mem' t', avlDel mem (some a) = .ok (root', mem') ∧ CountedTree mem' root' t' ∧
        inorder t' = (inorder t).erase a ∧ a ∉ inorder t' ∧ (t.numNodes = 1 → root' = none) := by
  obtain ⟨fs, l, r, rfl⟩ := exists_plug_of_mem ha
  have hnodup := htree.nodup
  have ht := htree.treeAt
  have hperm := inorder_plug_perm fs (BinaryTree.node a l r)
  have hlen : (inorder (plug fs (BinaryTree.node a l r))).length ≤ mem.brk :=
    Heap.length_le_brk hnodup fun x hx => ht.exists_get? hx
  have hfuel : r.numNodes < mem.brk + 1 := by
    have hsum := hperm.length_eq
    simp only [List.length_append, length_inorder, numNodes] at hsum hlen
    omega
  refine (avlDelRec_removes ht hnodup hfuel).error_or_ok.imp_right ?_
  rintro ⟨⟨root', mem'⟩, hrun, -, t', ht', horder⟩
  have hcount := numNodes_of_erase ha horder
  have hsize := htree.numNodes_lt
  refine ⟨root', mem', t', hrun,
    countedTree_of_treeAt ht' (horder ▸ hnodup.erase a) (by omega), horder,
    horder ▸ hnodup.not_mem_erase, fun hone => ?_⟩
  obtain rfl : t' = .nil := by
    cases t' with
    | nil => rfl
    | node b l' r' =>
      simp only [numNodes] at hcount
      omega
  exact ht'

def tallPair : Heap AVLNode :=
  ⟨[some { height := 1, cnt := 1, parent := some 1 },
    some { height := 2, cnt := 3, left := some 0, right := some 2 },
    some { height := 1, cnt := 1, parent := some 1 }]⟩

theorem tallPair_counted :
    CountedTree tallPair (some 1) (.node 1 (.node 0 .nil .nil) (.node 2 .nil .nil)) where
  linked := .node rfl rfl (.node rfl rfl (.nil _) (.nil _)) (.node rfl rfl (.nil _) (.nil _))
  counts := ⟨⟨_, rfl, rfl⟩, ⟨⟨_, rfl, rfl⟩, trivial, trivial⟩, ⟨_, rfl, rfl⟩, trivial, trivial⟩
  nodup := by decide

theorem avlDel_removes_tallPair :
    faultOf (avlDel tallPair (some 1)) = none ∧
      (avlDel tallPair (some 1) = .error .nullDeref ∨
        ∃ root' mem' t', avlDel tallPair (some 1) = .ok (root', mem') ∧
          CountedTree mem' root' t' ∧ inorder t' = [0, 1, 2].erase 1 ∧ 1 ∉ inorder t' ∧
          ((BinaryTree.node 1 (.node 0 .nil .nil) (.node 2 .nil .nil)).numNodes = 1 →
            root' = none)) :=
  ⟨by decide, avlDel_removes tallPair_counted (by decide)⟩

end NanoRedis
