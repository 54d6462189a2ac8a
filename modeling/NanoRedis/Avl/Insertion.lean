import NanoRedis.Avl.Deletion

/-! `tree_add` on trees of any shape. The descent always finds a free place, and the
balancing of the new leaf then follows its null right child. -/

namespace NanoRedis
open Intrusive BinaryTree

variable {mem : Heap AVLNode} {a : Nat} {n : AVLNode} {p up root : Ptr} {slot : TreeSlot}
  {t : BinaryTree Nat} {fuel : Nat}

/-- Where a descent into the tree `t` ends: at the slot it started from, in an empty tree, or at
a child slot of the node of `t` it came through last. -/
def Lands (t : BinaryTree Nat) (cur : Ptr) (slot : TreeSlot) (r : Ptr × TreeSlot) : Prop :=
  r = (cur, slot) ∨ ∃ x ∈ inorder t, r = (some x, .left x) ∨ r = (some x, .right x)

theorem Lands.child {x : Nat} {u : BinaryTree Nat} {q : Ptr × TreeSlot} (hx : x ∈ inorder t)
    (hslot : slot = .left x ∨ slot = .right x) (hsub : inorder u ⊆ inorder t)
    (h : Lands u (some x) slot q) (cur' : Ptr) (slot' : TreeSlot) : Lands t cur' slot' q := by
  rcases h with rfl | ⟨y, hy, hq⟩
  · refine .inr ⟨x, hx, ?_⟩
    rcases hslot with rfl | rfl
    · exact .inl rfl
    · exact .inr rfl
  · exact .inr ⟨y, hsub hy, hq⟩

theorem descend_lands (less : Nat → Except Fault Bool) (ht : LinkedTree avlLinks mem p up t)
    (hfuel : t.numNodes ≤ fuel) (cur : Ptr) (slot : TreeSlot) :
    (∃ r, descend mem less fuel cur slot p = .ok r ∧ Lands t cur slot r) ∨
      ∃ x ∈ inorder t, ∃ e, less x = .error e ∧ descend mem less fuel cur slot p = .error e := by
  induction ht generalizing fuel cur slot with
  | nil up => exact .inl ⟨(cur, slot), by simp only [descend], .inl rfl⟩
  | @node x v up l r hv hup hl hr ihl ihr =>
    rw [numNodes] at hfuel
    obtain ⟨k, rfl⟩ : ∃ k, fuel = k + 1 := ⟨fuel - 1, by omega⟩
    have hx : x ∈ inorder (BinaryTree.node x l r) := by simp [inorder]
    have hlsub : inorder l ⊆ inorder (BinaryTree.node x l r) := List.subset_append_left ..
    have hrsub : inorder r ⊆ inorder (BinaryTree.node x l r) := fun y hy => by simp [inorder, hy]
    cases hless : less x with
    | error e =>
      refine .inr ⟨x, hx, e, hless, ?_⟩
      simp only [descend, load_some hv, hless, ok_bind, error_bind]
    | ok b =>
      -- the comparison chooses the subtree that the descent goes on in
      cases b with
      | true =>
        have hstep : descend mem less (k + 1) cur slot (some x) =
            descend mem less k (some x) (.left x) v.left := by
          simp only [descend, load_some hv, hless, ok_bind, if_true]
        rw [hstep]
        rcases ihl (by omega : l.numNodes ≤ k) (some x) (.left x) with
          ⟨q, hrun, hlands⟩ | ⟨y, hy, e, hfault, hrun⟩
        · exact .inl ⟨q, hrun, hlands.child hx (.inl rfl) hlsub cur slot⟩
        · exact .inr ⟨y, hlsub hy, e, hfault, hrun⟩
      | false =>
        have hstep : descend mem less (k + 1) cur slot (some x) =
            descend mem less k (some x) (.right x) v.right := by
          simp only [descend, load_some hv, hless, ok_bind, Bool.false_eq_true, if_false]
        rw [hstep]
        rcases ihr (by omega : r.numNodes ≤ k) (some x) (.right x) with
          ⟨q, hrun, hlands⟩ | ⟨y, hy, e, hfault, hrun⟩
        · exact .inl ⟨q, hrun, hlands.child hx (.inr rfl) hrsub cur slot⟩
        · exact .inr ⟨y, hrsub hy, e, hfault, hrun⟩

theorem avlFix_childless (hn : mem.get? a = some n) (hl : n.left = none) (hr : n.right = none)
    (hp : ∀ x, n.parent = some x → ∃ m, mem.get? x = some m) :
    avlFix mem (some a) = .error .nullDeref := by
  have hheight : ∀ q : Ptr, q = none → avlHeight mem q = .ok (-1) := by
    rintro q rfl
    rfl
  have hcnt : ∀ q : Ptr, q = none → avlCnt mem q = .ok 0 := by
    rintro q rfl
    rfl
  obtain ⟨mem', hupdate, htouch, hcell⟩ :=
    avlUpdate_cell hn (by simp [hl]) (by simp [hr]) (hheight _ hl) (hheight _ hr) (hcnt _ hl)
      (hcnt _ hr)
  obtain ⟨n', hcell, hl', hr', hparent'⟩ : ∃ n', mem'.get? a = some n' ∧ n'.left = none ∧
      n'.right = none ∧ n'.parent = n.parent := ⟨_, hcell, hl, hr, rfl⟩
  have hheavy : ¬ ((-1 : UInt32) - -1 > 1) ∧ (-1 : UInt32) - -1 < -1 := by decide
  have hfix : avlFixRight mem' (some a) = .error .nullDeref := by
    simp only [avlFixRight, load_some hcell, hr', ok_bind, load_none, error_bind]
  cases hparent : n.parent with
  | none =>
    rw [hparent] at hparent'
    simp only [avlFix, avlFixLoop, hupdate, load_some hcell, hl', hr', hparent', avlHeight, ok_bind,
      if_neg hheavy.1, if_pos hheavy.2, hfix, error_bind]
  | some x =>
    rw [hparent] at hparent'
    obtain ⟨m, hm⟩ := hp x hparent
    obtain ⟨m', hm'⟩ := htouch.exists_get? hm
    simp only [avlFix, avlFixLoop, hupdate, load_some hcell, hl', hr', hparent', avlHeight,
      childSlot, load_some hm', pure_eq_ok, ok_bind, if_neg hheavy.1, if_pos hheavy.2, hfix,
      error_bind]

theorem treeAddBy_fails (less : Nat → Except Fault Bool)
    (ht : LinkedTree avlLinks mem root none t) (hnodup : (inorder t).Nodup)
    (hn : mem.get? a = some n) (hl : n.left = none) (hr : n.right = none) (ha : a ∉ inorder t) :
    treeAddBy less mem root a = .error .nullDeref ∨
      ∃ x ∈ inorder t, ∃ e, less x = .error e ∧ treeAddBy less mem root a = .error e := by
  have hlive : ∀ x ∈ inorder t, ∃ v, mem.get? x = some v := by
    intro x hx
    obtain ⟨l, r, hsub⟩ := Subtree.exists_of_mem hx
    obtain ⟨q, q', hx⟩ := ht.subtree hsub
    obtain ⟨-, v, hv, -⟩ := hx.root
    exact ⟨v, hv⟩
  have hsize : t.numNodes ≤ mem.brk + 1 := by
    rw [← length_inorder]
    exact Nat.le_succ_of_le (Heap.length_le_brk hnodup hlive)
  rcases descend_lands less ht hsize none .root with
    ⟨⟨cur, slot⟩, hrun, hlands⟩ | ⟨x, hx, e, hfault, hrun⟩
  · left
    -- the slot belongs to a node of the tree, so the new node keeps its null children
    obtain ⟨root', mem₁, hwrite, hn₁, hcur⟩ : ∃ root' mem₁,
        writeTreeSlot mem root (some a) slot = .ok (root', mem₁) ∧ mem₁.get? a = some n ∧
          ∀ x, cur = some x → ∃ m, mem₁.get? x = some m := by
      rcases hlands with hlands | ⟨x, hx, hlands | hlands⟩ <;>
        obtain ⟨rfl, rfl⟩ := Prod.mk.inj hlands
      · exact ⟨some a, mem, rfl, hn, by simp⟩
      all_goals
        obtain ⟨v, hv⟩ := hlive x hx
        have hax : a ≠ x := fun h => ha (h ▸ hx)
      · obtain ⟨mem₁, hset, htouch, hcell⟩ := update_touched hv fun v => { v with left := some a }
        refine ⟨root, mem₁, ?_, htouch.get?_some (by simpa using hax) hn, ?_⟩
        · simp only [writeTreeSlot, hset, ok_bind, pure_eq_ok]
        · rintro y ⟨⟩
          exact ⟨_, hcell⟩
      · obtain ⟨mem₁, hset, htouch, hcell⟩ := update_touched hv fun v => { v with right := some a }
        refine ⟨root, mem₁, ?_, htouch.get?_some (by simpa using hax) hn, ?_⟩
        · simp only [writeTreeSlot, hset, ok_bind, pure_eq_ok]
        · rintro y ⟨⟩
          exact ⟨_, hcell⟩
    obtain ⟨mem₂, hset₂, htouch₂, hn₂⟩ := update_touched hn₁ fun n => { n with parent := cur }
    have hparent : ∀ x, cur = some x → ∃ m, mem₂.get? x = some m := by
      intro x hx
      obtain ⟨m, hm⟩ := hcur x hx
      exact htouch₂.exists_get? hm
    simp only [treeAddBy, hrun, hwrite, hset₂, ok_bind, avlFix_childless hn₂ hl hr hparent]
  · exact .inr ⟨x, hx, e, hfault, by simp only [treeAddBy, hrun, error_bind]⟩

theorem CountedTree.congr {mem' : Heap AVLNode} (h : CountedTree mem root t)
    (hag : ∀ x ∈ inorder t, mem'.get? x = mem.get? x) : CountedTree mem' root t where
  linked := h.linked.congr fun x hx v hv => ⟨v, by rw [hag x hx, hv], rfl, rfl, rfl⟩
  counts := by
    rw [everywhere_iff]
    intro x l r hsub
    rw [hag x hsub.mem]
    exact everywhere_iff.mp h.counts x l r hsub
  nodup := h.nodup

theorem avlInit_ok {mem' : Heap AVLNode} (h : avlInit mem (some a) = .ok mem') :
    mem.Touched mem' [a] ∧ mem'.get? a = some { height := 0, cnt := 1 } := by
  cases hcell : mem.get? a with
  | none => simp [avlInit, update, hcell] at h
  | some n =>
    obtain rfl : mem.set a { height := 0, cnt := 1 } = mem' := by
      simpa only [avlInit, update_some hcell, Except.ok.injEq] using h
    exact ⟨.set hcell _, Heap.get?_set_self hcell _⟩

theorem reinsert_fails (less : Nat → Except Fault Bool) (htree : CountedTree mem root t)
    (ha : a ∈ inorder t) {root' : Ptr} {mem' mem'' : Heap AVLNode}
    (hdel : avlDel mem (some a) = .ok (root', mem')) (hinit : avlInit mem' (some a) = .ok mem'') :
    ∃ e, treeAddBy less mem'' root' a = .error e := by
  obtain ⟨fs, l, r, rfl⟩ := exists_plug_of_mem ha
  have hnodup := htree.nodup
  have hlen : (inorder (plug fs (BinaryTree.node a l r))).length ≤ mem.brk :=
    Heap.length_le_brk hnodup fun x hx => htree.treeAt.exists_get? hx
  have hfuel : r.numNodes < mem.brk + 1 := by
    have hsum := (inorder_plug_perm fs (BinaryTree.node a l r)).length_eq
    simp only [List.length_append, length_inorder, numNodes] at hsum hlen
    omega
  have hends := avlDelRec_removes htree.treeAt hnodup hfuel
  rw [show avlDelRec (mem.brk + 1) mem (some a) = .ok (root', mem') from hdel, endsIn_ok] at hends
  obtain ⟨-, t', ht', horder⟩ := hends
  have hout : a ∉ inorder t' := horder ▸ hnodup.not_mem_erase
  obtain ⟨htouch, hcell⟩ := avlInit_ok hinit
  have hlinked := (treeAt_iff.mp (ht'.frame_one htouch hout)).1
  rcases treeAddBy_fails less hlinked (horder ▸ hnodup.erase a) hcell rfl rfl hout with
    hfail | ⟨_, _, e, _, hfail⟩
  · exact ⟨_, hfail⟩
  · exact ⟨e, hfail⟩

end NanoRedis
