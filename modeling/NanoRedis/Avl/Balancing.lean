import NanoRedis.Avl.Runs
import NanoRedis.Lib.TreePath

/-! Rotations and `avl_fix` on trees of any shape and with any heights. They may run
into a null pointer, and otherwise keep the order of the nodes and restore the counts. -/

namespace NanoRedis
open Intrusive BinaryTree

def AVLNode.setChild (s : Side) (p : Ptr) (n : AVLNode) : AVLNode :=
  match s with
  | .left => { n with left := p }
  | .right => { n with right := p }

@[simp] theorem AVLNode.child_setChild (s : Side) (p : Ptr) (n : AVLNode) :
    avlLinks.child s (n.setChild s p) = p := by cases s <;> rfl

@[simp] theorem AVLNode.child_other_setChild (s : Side) (p : Ptr) (n : AVLNode) :
    avlLinks.child s.other (n.setChild s p) = avlLinks.child s.other n := by cases s <;> rfl

@[simp] theorem AVLNode.child_setChild_other (s : Side) (p : Ptr) (n : AVLNode) :
    avlLinks.child s (n.setChild s.other p) = avlLinks.child s n := by cases s <;> rfl

@[simp] theorem AVLNode.parent_setChild (s : Side) (p : Ptr) (n : AVLNode) :
    (n.setChild s p).parent = n.parent := by cases s <;> rfl

@[simp] theorem AVLNode.cnt_setChild (s : Side) (p : Ptr) (n : AVLNode) :
    (n.setChild s p).cnt = n.cnt := by cases s <;> rfl

def AVLNode.setParent (p : Ptr) (n : AVLNode) : AVLNode := { n with parent := p }

@[simp] theorem AVLNode.child_setParent (s : Side) (p : Ptr) (n : AVLNode) :
    avlLinks.child s (n.setParent p) = avlLinks.child s n := by cases s <;> rfl

@[simp] theorem avlLinks_parent (n : AVLNode) : avlLinks.parent n = n.parent := rfl

def Counted (n : AVLNode) (k : Nat) : Prop := n.cnt = UInt32.ofNat k

abbrev AvlAt (mem : Heap AVLNode) (p up : Ptr) (t : BinaryTree Nat) : Prop :=
  TreeAt avlLinks Counted mem p up t

abbrev AvlRootAt (mem : Heap AVLNode) (a : Nat) (n : AVLNode) (up : Ptr) (s : Side)
    (t u : BinaryTree Nat) : Prop := RootAt avlLinks Counted mem a n up s t u

def EndsIn {α : Type} (m : Except Fault α) (Q : α → Prop) : Prop :=
  match m with
  | .ok r => Q r
  | .error e => e = .nullDeref

section EndsIn
variable {α β : Type} {Q : α → Prop} {R : β → Prop}

@[simp] theorem endsIn_ok (r : α) : EndsIn (.ok r) Q ↔ Q r := Iff.rfl

@[simp] theorem endsIn_nullDeref : EndsIn (.error .nullDeref) Q := rfl

theorem EndsIn.error_or_ok {m : Except Fault α} (h : EndsIn m Q) :
    m = .error .nullDeref ∨ ∃ r, m = .ok r ∧ Q r := by
  cases m with
  | ok r => exact .inr ⟨r, rfl, h⟩
  | error e => exact .inl (congrArg _ h)

theorem EndsIn.mono {m : Except Fault α} {Q' : α → Prop} (h : EndsIn m Q)
    (hQ : ∀ r, Q r → Q' r) : EndsIn m Q' := by
  cases m with
  | ok r => exact hQ r h
  | error e => exact h

theorem EndsIn.bind {m : Except Fault α} {f : α → Except Fault β} (h : EndsIn m Q)
    (hf : ∀ r, Q r → EndsIn (f r) R) : EndsIn (m >>= f) R := by
  cases m with
  | ok r => exact hf r h
  | error e => exact h

end EndsIn

structure Rebuilt (mem : Heap AVLNode) (up : Ptr) (xs : List Nat) (r : Ptr × Heap AVLNode) :
    Prop where
  touched : mem.Touched r.2 xs
  tree : ∃ t, AvlAt r.2 r.1 up t ∧ inorder t = xs

variable {mem : Heap AVLNode} {a : Nat} {n : AVLNode} {p up : Ptr} {s : Side}
  {t u : BinaryTree Nat}

theorem update_touched (hn : mem.get? a = some n) (f : AVLNode → AVLNode) :
    ∃ mem', update mem (some a) f = .ok mem' ∧ mem.Touched mem' [a] ∧ mem'.get? a = some (f n) :=
  ⟨_, update_some hn f, .set hn _, Heap.get?_set_self hn _⟩

theorem avlCnt_at (ht : AvlAt mem p up t) : avlCnt mem p = .ok (UInt32.ofNat t.numNodes) := by
  cases t with
  | nil =>
    obtain rfl := treeAt_nil.mp ht
    rfl
  | node b l r =>
    obtain ⟨rfl, v, hv, -, hcnt, -, -⟩ := ht
    have hcnt : v.cnt = UInt32.ofNat (l.numNodes + r.numNodes + 1) := hcnt
    simp only [avlCnt, load_some hv, ok_bind, pure_eq_ok, hcnt, numNodes]

theorem avlAt_of_counts (hlinked : LinkedTree avlLinks mem p up t)
    (hcounts : TrueCounts mem t) : AvlAt mem p up t := by
  refine treeAt_iff.mpr ⟨hlinked, hcounts.imp le_rfl ?_⟩
  rintro a l r - ⟨n, hn, hcnt⟩
  exact ⟨n, hn, by rw [Counted, ← hcnt, UInt32.ofNat_toNat]⟩

theorem avlHeight_at (ht : AvlAt mem p up t) : ∃ k, avlHeight mem p = .ok k := by
  cases t with
  | nil =>
    obtain rfl := treeAt_nil.mp ht
    exact ⟨-1, rfl⟩
  | node b l r =>
    obtain ⟨rfl, v, hv, -⟩ := ht
    exact ⟨v.height, by simp only [avlHeight, load_some hv, ok_bind, pure_eq_ok]⟩

theorem one_add_ofNat (i j : Nat) :
    (1 : UInt32) + UInt32.ofNat i + UInt32.ofNat j = UInt32.ofNat (i + j + 1) := by
  rw [UInt32.ofNat_add, UInt32.ofNat_add, UInt32.add_assoc, UInt32.add_comm]
  rfl

theorem avlCnt_frame {mem' : Heap AVLNode} (htouch : mem.Touched mem' [a]) (hp : p ≠ some a) :
    avlCnt mem' p = avlCnt mem p := by
  cases p with
  | none => rfl
  | some b =>
    have hb : b ≠ a := fun h => hp (congrArg some h)
    simp only [avlCnt, load, htouch.get?_eq b (by simpa using hb)]

theorem avlUpdate_cell {lh rh lc rc : UInt32} (hn : mem.get? a = some n) (hl : n.left ≠ some a)
    (hr : n.right ≠ some a) (hlh : avlHeight mem n.left = .ok lh)
    (hrh : avlHeight mem n.right = .ok rh) (hlc : avlCnt mem n.left = .ok lc)
    (hrc : avlCnt mem n.right = .ok rc) :
    ∃ mem', avlUpdate mem (some a) = .ok mem' ∧ mem.Touched mem' [a] ∧
      mem'.get? a = some { n with height := 1 + maxU32 lh rh, cnt := 1 + lc + rc } := by
  obtain ⟨mem₁, hset₁, htouch₁, hcell₁⟩ :=
    update_touched hn fun n => { n with height := 1 + maxU32 lh rh }
  obtain ⟨mem₂, hset₂, htouch₂, hcell₂⟩ :=
    update_touched hcell₁ fun n => { n with cnt := 1 + lc + rc }
  refine ⟨mem₂, ?_, (htouch₁.trans htouch₂).mono (by simp), hcell₂⟩
  simp only [avlUpdate, load_some hn, ok_bind, hlh, hrh, hset₁, avlCnt_frame htouch₁ hl, hlc,
    avlCnt_frame htouch₁ hr, hrc, hset₂]

theorem avlUpdate_root (hroot : AvlRootAt mem a n up s t u)
    (hnodup : (inorder (join s a t u)).Nodup) :
    ∃ mem', avlUpdate mem (some a) = .ok mem' ∧ mem.Touched mem' [a] ∧
      AvlAt mem' (some a) up (join s a t u) := by
  obtain ⟨l, r, ⟨hcell, hparent, hl, hr⟩, hjoin⟩ := hroot.turn .left
  rw [← hjoin] at hnodup ⊢
  obtain ⟨-, ⟨har, -⟩, hal, -⟩ := nodup_inorder_join.mp hnodup
  obtain ⟨lh, hlh⟩ := avlHeight_at hl
  obtain ⟨rh, hrh⟩ := avlHeight_at hr
  obtain ⟨mem', hupdate, htouch, hcell'⟩ :=
    avlUpdate_cell hcell (hl.ne_some hal) (hr.ne_some har) hlh hrh (avlCnt_at hl) (avlCnt_at hr)
  refine ⟨mem', hupdate, htouch, treeAt_join_iff.mpr ⟨rfl, _, ⟨hcell', hparent, ?_, ?_⟩,
    one_add_ofNat ..⟩⟩
  · exact hl.frame_one htouch hal
  · exact hr.frame_one htouch har

/-- `if (p) {p->parent = q;}`. -/
def adopt (mem : Heap AVLNode) (p q : Ptr) : Except Fault (Heap AVLNode) :=
  if p.isSome then update mem p (AVLNode.setParent q) else .ok mem

theorem adopt_at (ht : AvlAt mem p up t) (hnodup : (inorder t).Nodup) (q : Ptr) :
    ∃ mem', adopt mem p q = .ok mem' ∧ mem.Touched mem' (inorder t) ∧ AvlAt mem' p q t := by
  cases t with
  | nil =>
    obtain rfl := treeAt_nil.mp ht
    exact ⟨mem, rfl, .refl mem _, rfl⟩
  | node b l r =>
    obtain ⟨rfl, v, hv, -⟩ := id ht
    obtain ⟨mem', hset, htouch, hcell⟩ := update_touched hv (AVLNode.setParent q)
    refine ⟨mem', hset, htouch.mono (by simp [inorder]), ?_⟩
    exact ht.reparent hnodup hv hcell rfl rfl rfl (fun _ h => h) htouch

/-- `rot_left` and `rot_right`, by the side of the child that goes up. -/
def rotate (s : Side) (mem : Heap AVLNode) (node : Ptr) : Except Fault (Ptr × Heap AVLNode) := do
  let n ← load mem node
  let newRoot := avlLinks.child s n
  let r ← load mem newRoot
  let sbtree2 := avlLinks.child s.other r
  let mem ← update mem newRoot (AVLNode.setChild s.other node)
  let mem ← update mem node (AVLNode.setChild s sbtree2)
  let n ← load mem node
  let mem ← update mem newRoot (AVLNode.setParent n.parent)
  let mem ← update mem node (AVLNode.setParent newRoot)
  let mem ← adopt mem sbtree2 node
  let mem ← avlUpdate mem node
  let mem ← avlUpdate mem newRoot
  return (newRoot, mem)

theorem rotLeft_eq : rotLeft = rotate .right := rfl

theorem rotRight_eq : rotRight = rotate .left := rfl

theorem rotate_nil (hroot : AvlRootAt mem a n up s nil u) :
    rotate s mem (some a) = .error .nullDeref := by
  have hchild : avlLinks.child s n = none := hroot.near
  simp only [rotate, load_some hroot.cell, ok_bind, hchild, load_none, error_bind]

theorem rotate_links {b : Nat} {r : AVLNode} (hn : mem.get? a = some n) (hr : mem.get? b = some r)
    (hchild : avlLinks.child s n = some b) (hab : a ≠ b) :
    ∃ mem', mem.Touched mem' [a, b] ∧
      mem'.get? a = some ((n.setChild s (avlLinks.child s.other r)).setParent (some b)) ∧
      mem'.get? b = some ((r.setChild s.other (some a)).setParent n.parent) ∧
      rotate s mem (some a) = (do
        let mem ← adopt mem' (avlLinks.child s.other r) (some a)
        let mem ← avlUpdate mem (some a)
        let mem ← avlUpdate mem (some b)
        return (some b, mem)) := by
  obtain ⟨mem₁, hset₁, htouch₁, hb₁⟩ := update_touched hr (AVLNode.setChild s.other (some a))
  have ha₁ := htouch₁.get?_some (by simpa using hab) hn
  obtain ⟨mem₂, hset₂, htouch₂, ha₂⟩ :=
    update_touched ha₁ (AVLNode.setChild s (avlLinks.child s.other r))
  have hb₂ := htouch₂.get?_some (by simpa using Ne.symm hab) hb₁
  obtain ⟨mem₃, hset₃, htouch₃, hb₃⟩ := update_touched hb₂ (AVLNode.setParent n.parent)
  have ha₃ := htouch₃.get?_some (by simpa using hab) ha₂
  obtain ⟨mem₄, hset₄, htouch₄, ha₄⟩ := update_touched ha₃ (AVLNode.setParent (some b))
  refine ⟨mem₄, ?_, ha₄, htouch₄.get?_some (by simpa using Ne.symm hab) hb₃, ?_⟩
  · exact ((htouch₁.trans htouch₂).trans (htouch₃.trans htouch₄)).mono (by simp)
  · simp only [rotate, load_some hn, ok_bind, hchild, load_some hr, hset₁, hset₂, load_some ha₂,
      AVLNode.parent_setChild, hset₃, hset₄]

theorem rotate_join {b : Nat} {x m y : BinaryTree Nat}
    (hroot : AvlRootAt mem a n up s (join s b x m) y)
    (hnodup : (inorder (join s a (join s b x m) y)).Nodup) :
    ∃ mem', rotate s mem (some a) = .ok (some b, mem') ∧
      mem.Touched mem' (inorder (join s a (join s b x m) y)) ∧
      AvlAt mem' (some b) up (join s b x (join s a m y)) := by
  obtain ⟨hcell, hparent, hnear, hfar⟩ := hroot
  obtain ⟨hchild, r, ⟨hcellb, -, hx, hm⟩, -⟩ := treeAt_join_iff.mp hnear
  have hnodup' : (inorder (join s b x (join s a m y))).Nodup := by
    rw [inorder_rotate]
    exact hnodup
  obtain ⟨hnodupt, ⟨hay, -⟩, hat, hdis⟩ := nodup_inorder_join.mp hnodup
  obtain ⟨-, ⟨hbm, hnodupm⟩, hbx, -⟩ := nodup_inorder_join.mp hnodupt
  obtain ⟨-, ⟨-, hnodupmy⟩, -, hdisx⟩ := nodup_inorder_join.mp hnodup'
  simp only [mem_inorder_join, not_or] at hat hdis hdisx
  obtain ⟨hax, hab, ham⟩ := hat
  have hby : b ∉ inorder y := hdis b (.inr (.inl rfl))
  obtain ⟨mem₁, htouch₁, ha₁, hb₁, hrotate⟩ := rotate_links hcell hcellb hchild hab
  have hframe : ∀ {p up : Ptr} {t : BinaryTree Nat}, AvlAt mem p up t → a ∉ inorder t →
      b ∉ inorder t → AvlAt mem₁ p up t := by
    intro p up t ht hat hbt
    apply ht.frame htouch₁
    intro x hx
    simp only [List.mem_cons, List.not_mem_nil, or_false, not_or]
    exact ⟨fun h => hat (h ▸ hx), fun h => hbt (h ▸ hx)⟩
  -- the inner subtree is handed over, then both nodes are updated from below
  obtain ⟨mem₂, hset₂, htouch₂, hm₂⟩ := adopt_at (hframe hm ham hbm) hnodupm (some a)
  have hx₂ := (hframe hx hax hbx).frame htouch₂ fun z hz => (hdisx z hz).1
  have hy₂ := (hframe hfar hay hby).frame htouch₂ fun z hz hzm => hdis z (.inr (.inr hzm)) hz
  have hroota : AvlRootAt mem₂ a _ (some b) s m y :=
    ⟨htouch₂.get?_some ham ha₁, rfl, by simpa using hm₂, by simpa using hy₂⟩
  obtain ⟨mem₃, hset₃, htouch₃, hmy⟩ := avlUpdate_root hroota hnodupmy
  have hx₃ := hx₂.frame_one htouch₃ hax
  have hrootb : AvlRootAt mem₃ b _ up s x (join s a m y) :=
    ⟨htouch₃.get?_some (by simpa using Ne.symm hab) (htouch₂.get?_some hbm hb₁), hparent,
      by simpa using hx₃, by simpa using hmy⟩
  obtain ⟨mem₄, hset₄, htouch₄, htree⟩ := avlUpdate_root hrootb hnodup'
  refine ⟨mem₄, ?_, ((htouch₁.trans htouch₂).trans (htouch₃.trans htouch₄)).mono ?_, htree⟩
  · simp only [hrotate, hset₂, ok_bind, hset₃, hset₄, pure_eq_ok]
  · intro z hz
    simp only [List.mem_append, List.mem_cons, List.not_mem_nil, or_false] at hz
    simp only [mem_inorder_join]
    tauto

theorem rotate_rebuilds (hroot : AvlRootAt mem a n up s t u)
    (hnodup : (inorder (join s a t u)).Nodup) :
    EndsIn (rotate s mem (some a)) fun r =>
      Rebuilt mem up (inorder (join s a t u)) r ∧ r.1 ≠ some a := by
  by_cases ht : t = nil
  · subst ht
    rw [rotate_nil hroot]
    exact endsIn_nullDeref
  · obtain ⟨b, x, m, rfl⟩ := exists_join s ht
    obtain ⟨mem', hrotate, htouch, htree⟩ := rotate_join hroot hnodup
    have hba : b ≠ a := by
      rintro rfl
      exact (nodup_inorder_join.mp hnodup).2.2.1 (root_mem_join ..)
    rw [hrotate]
    exact ⟨⟨htouch, _, htree, inorder_rotate ..⟩, fun h => hba (Option.some.inj h)⟩

/-- `avl_fix_left` and `avl_fix_right`, by the heavier side. -/
def avlFixSide (s : Side) (mem : Heap AVLNode) (node : Ptr) :
    Except Fault (Ptr × Heap AVLNode) := do
  let n ← load mem node
  let c ← load mem (avlLinks.child s n)
  let inner ← avlHeight mem (avlLinks.child s.other c)
  let outer ← avlHeight mem (avlLinks.child s c)
  let mem ←
    (if inner > outer then do
      let (child, mem) ← rotate s.other mem (avlLinks.child s n)
      update mem node (AVLNode.setChild s child)
    else .ok mem)
  rotate s mem node

theorem avlFixLeft_eq : avlFixLeft = avlFixSide .left := by
  unfold avlFixLeft
  rw [rotLeft_eq, rotRight_eq]
  rfl

theorem avlFixRight_eq : avlFixRight = avlFixSide .right := by
  unfold avlFixRight
  rw [rotLeft_eq, rotRight_eq]
  rfl

theorem avlFixSide_nil (hroot : AvlRootAt mem a n up s nil u) :
    avlFixSide s mem (some a) = .error .nullDeref := by
  have hchild : avlLinks.child s n = none := hroot.near
  simp only [avlFixSide, load_some hroot.cell, ok_bind, hchild, load_none, error_bind]

section Reads
variable {b : Nat} {c : AVLNode} {inner outer : UInt32}

theorem avlFixSide_single (hn : mem.get? a = some n) (hchild : avlLinks.child s n = some b)
    (hc : mem.get? b = some c) (hinner : avlHeight mem (avlLinks.child s.other c) = .ok inner)
    (houter : avlHeight mem (avlLinks.child s c) = .ok outer) (hlight : ¬ inner > outer) :
    avlFixSide s mem (some a) = rotate s mem (some a) := by
  simp only [avlFixSide, load_some hn, ok_bind, hchild, load_some hc, hinner, houter,
    if_neg hlight]

theorem avlFixSide_double (hn : mem.get? a = some n) (hchild : avlLinks.child s n = some b)
    (hc : mem.get? b = some c) (hinner : avlHeight mem (avlLinks.child s.other c) = .ok inner)
    (houter : avlHeight mem (avlLinks.child s c) = .ok outer) (hheavy : inner > outer) :
    avlFixSide s mem (some a) = (do
      let (child, mem) ← rotate s.other mem (some b)
      let mem ← update mem (some a) (AVLNode.setChild s child)
      rotate s mem (some a)) := by
  simp only [avlFixSide, load_some hn, ok_bind, hchild, load_some hc, hinner, houter,
    if_pos hheavy, bind_assoc]

end Reads

theorem setChild_root {mem₁ : Heap AVLNode} {child : Ptr} {t' : BinaryTree Nat}
    (hroot : AvlRootAt mem a n up s t u) (hnodup : (inorder (join s a t u)).Nodup)
    (htouch : mem.Touched mem₁ (inorder t)) (htree : AvlAt mem₁ child (some a) t')
    (horder : inorder t' = inorder t) :
    ∃ mem₂, update mem₁ (some a) (AVLNode.setChild s child) = .ok mem₂ ∧
      mem.Touched mem₂ (inorder t ++ [a]) ∧
      AvlRootAt mem₂ a (n.setChild s child) up s t' u := by
  obtain ⟨-, ⟨hau, -⟩, hat, hdis⟩ := nodup_inorder_join.mp hnodup
  obtain ⟨mem₂, hset, htouch₂, hcell⟩ :=
    update_touched (htouch.get?_some hat hroot.cell) (AVLNode.setChild s child)
  have hnear := htree.frame_one htouch₂ (horder ▸ hat)
  have hfar := (hroot.far.frame htouch fun z hz hzt => hdis z hzt hz).frame_one htouch₂ hau
  exact ⟨mem₂, hset, htouch.trans htouch₂, hcell,
    (AVLNode.parent_setChild ..).trans hroot.parent, by simpa using hnear, by simpa using hfar⟩

theorem avlFixSide_rebuilds (hroot : AvlRootAt mem a n up s t u)
    (hnodup : (inorder (join s a t u)).Nodup) :
    EndsIn (avlFixSide s mem (some a)) fun r =>
      Rebuilt mem up (inorder (join s a t u)) r ∧ r.1 ≠ some a := by
  by_cases ht : t = nil
  · subst ht
    rw [avlFixSide_nil hroot]
    exact endsIn_nullDeref
  obtain ⟨b, x, m, rfl⟩ := exists_join s ht
  obtain ⟨hchild, c, hrootb, -⟩ := treeAt_join_iff.mp hroot.near
  obtain ⟨inner, hinner⟩ := avlHeight_at hrootb.far
  obtain ⟨outer, houter⟩ := avlHeight_at hrootb.near
  by_cases hheavy : inner > outer
  · rw [avlFixSide_double hroot.cell hchild hrootb.cell hinner houter hheavy]
    have hnodupt := (nodup_inorder_join.mp hnodup).1
    have hturn := rotate_rebuilds hrootb.swap (by rwa [join_other])
    rw [join_other] at hturn
    apply hturn.bind
    intro r hr
    obtain ⟨child, mem₁⟩ := r
    obtain ⟨⟨htouch₁, t', htree, horder⟩, -⟩ := hr
    obtain ⟨mem₂, hset, htouch₂, hroot₂⟩ := setChild_root hroot hnodup htouch₁ htree horder
    have hsame := inorder_join_congr s a u horder
    simp only [hset, ok_bind]
    apply (rotate_rebuilds hroot₂ (by rwa [hsame])).mono
    intro r hr
    rw [hsame] at hr
    obtain ⟨hrebuilt, hne⟩ := hr
    refine ⟨⟨(htouch₂.trans hrebuilt.touched).mono fun z hz => ?_, hrebuilt.tree⟩, hne⟩
    simp only [List.mem_append, List.mem_singleton] at hz
    rcases hz with (hz | rfl) | hz
    · exact mem_inorder_join.mpr (.inl hz)
    · exact root_mem_join s z _ u
    · exact hz
  · rw [avlFixSide_single hroot.cell hchild hrootb.cell hinner houter hheavy]
    exact rotate_rebuilds hroot hnodup

/-- Both comparisons are unsigned, and no difference of heights fails both. -/
theorem one_lt_or_lt_neg_one (d : UInt32) : d > 1 ∨ d < -1 := by
  have hone : (1 : UInt32).toNat = 1 := rfl
  have htop : ((-1 : UInt32)).toNat = 2 ^ 32 - 1 := rfl
  rw [gt_iff_lt, UInt32.lt_iff_toNat_lt, UInt32.lt_iff_toNat_lt, hone, htop]
  omega

/-- A round of `avl_fix` always rotates. -/
theorem balance_rebuilds (htree : AvlAt mem (some a) up (join s a t u))
    (hnodup : (inorder (join s a t u)).Nodup) (lh rh : UInt32) :
    EndsIn (if lh - rh > 1 then avlFixLeft mem (some a)
      else if lh - rh < -1 then avlFixRight mem (some a) else .ok (some a, mem))
      fun r => Rebuilt mem up (inorder (join s a t u)) r ∧ r.1 ≠ some a := by
  obtain ⟨-, n, hroot, -⟩ := treeAt_join_iff.mp htree
  have hside : ∀ s', EndsIn (avlFixSide s' mem (some a)) fun r =>
      Rebuilt mem up (inorder (join s a t u)) r ∧ r.1 ≠ some a := by
    intro s'
    obtain ⟨t', u', hroot', hjoin⟩ := hroot.turn s'
    rw [← hjoin] at hnodup ⊢
    exact avlFixSide_rebuilds hroot' hnodup
  rw [avlFixLeft_eq, avlFixRight_eq]
  split_ifs with hleft hright
  · exact hside .left
  · exact hside .right
  · exact absurd (one_lt_or_lt_neg_one (lh - rh)) (not_or.mpr ⟨hleft, hright⟩)

def slotAt (s : Side) (a : Nat) : TreeSlot :=
  match s with
  | .left => .left a
  | .right => .right a

section Slots
variable {okUp : AVLNode → Nat → Prop} {root hole : Ptr} {f : Frame Nat} {fs : List (Frame Nat)}
  {k : Nat}

theorem childSlot_of_context
    (hctx : ContextAt avlLinks Counted okUp mem root (f :: fs) (some a) up k)
    (ha : a ∉ inorder f.sibling) : childSlot mem f.node (some a) = .ok (slotAt f.side f.node) := by
  obtain ⟨-, v, hv, hchild, -, hsib, -⟩ := hctx
  have hother : avlLinks.child f.side.other v ≠ some a := hsib.ne_some ha
  obtain ⟨side, b, sib⟩ := f
  cases side with
  | left =>
    have hchild : v.left = some a := hchild
    simp only [childSlot, load_some hv, ok_bind, if_pos hchild, pure_eq_ok, slotAt]
  | right =>
    have hother : v.left ≠ some a := hother
    simp only [childSlot, load_some hv, ok_bind, if_neg hother, pure_eq_ok, slotAt]

theorem writeTreeSlot_touched (hn : mem.get? a = some n) (s : Side) (root q : Ptr) :
    ∃ mem', writeTreeSlot mem root q (slotAt s a) = .ok (root, mem') ∧ mem.Touched mem' [a] ∧
      mem'.get? a = some (n.setChild s q) := by
  obtain ⟨mem', hset, htouch, hcell⟩ := update_touched hn (AVLNode.setChild s q)
  refine ⟨mem', ?_, htouch, hcell⟩
  cases s with
  | left =>
    have hset : update mem (some a) (fun n => { n with left := q }) = .ok mem' := hset
    simp only [slotAt, writeTreeSlot, hset, ok_bind, pure_eq_ok]
  | right =>
    have hset : update mem (some a) (fun n => { n with right := q }) = .ok mem' := hset
    simp only [slotAt, writeTreeSlot, hset, ok_bind, pure_eq_ok]

theorem writeTreeSlot_context
    (hctx : ContextAt avlLinks Counted okUp mem root (f :: fs) hole up k)
    (hnodup : (pathNodes (f :: fs)).Nodup)
    (hok : ∀ v i s p, okUp v i → okUp (v.setChild s p) i) (r q : Ptr) :
    ∃ mem', writeTreeSlot mem r q (slotAt f.side f.node) = .ok (r, mem') ∧
      mem.Touched mem' [f.node] ∧
      ContextAt avlLinks Counted okUp mem' root (f :: fs) q up k := by
  obtain ⟨hup, v, hv, -, hokv, hsib, hctx⟩ := hctx
  obtain ⟨mem', hwrite, htouch, hcell⟩ := writeTreeSlot_touched hv f.side r q
  simp only [pathNodes_cons, List.nodup_cons, List.mem_append, not_or] at hnodup
  obtain ⟨⟨hfsib, hfpath⟩, -⟩ := hnodup
  have hsib' := hsib.frame_one htouch hfsib
  have hctx' := hctx.frame_one htouch hfpath
  exact ⟨mem', hwrite, htouch, hup, _, hcell, AVLNode.child_setChild .., hok _ _ _ _ hokv,
    by simpa using hsib', by simpa using hctx'⟩

def avlFixRound (fuel : Nat) (mem : Heap AVLNode) (q up : Ptr) (lh rh : UInt32) :
    Except Fault (Ptr × Heap AVLNode) := do
  let slot ←
    (match up with
    | none => .ok none
    | some p => do
      let slot ← childSlot mem p q
      return some slot)
  let (q, mem) ←
    (if lh - rh > 1 then avlFixLeft mem q
    else if lh - rh < -1 then avlFixRight mem q
    else .ok (q, mem))
  match slot with
  | none => return (q, mem)
  | some slot => do
    let (_, mem) ← writeTreeSlot mem none q slot
    let n ← load mem q
    avlFixLoop fuel mem n.parent

theorem avlFixLoop_succ (hroot : AvlRootAt mem a n up s t u)
    (hnodup : (inorder (join s a t u)).Nodup) (fuel : Nat) :
    ∃ mem₁ lh rh, mem.Touched mem₁ [a] ∧ AvlAt mem₁ (some a) up (join s a t u) ∧
      avlFixLoop (fuel + 1) mem (some a) = avlFixRound fuel mem₁ (some a) up lh rh := by
  obtain ⟨mem₁, hupdate, htouch, htree⟩ := avlUpdate_root hroot hnodup
  obtain ⟨-, n₁, hroot₁, -⟩ := treeAt_join_iff.mp htree
  obtain ⟨l, r, ⟨hcell, hparent, hl, hr⟩, -⟩ := hroot₁.turn .left
  obtain ⟨lh, hlh⟩ := avlHeight_at hl
  obtain ⟨rh, hrh⟩ := avlHeight_at hr
  have hlh : avlHeight mem₁ n₁.left = .ok lh := hlh
  have hrh : avlHeight mem₁ n₁.right = .ok rh := hrh
  have hparent : n₁.parent = up := hparent
  refine ⟨mem₁, lh, rh, htouch, htree, ?_⟩
  simp only [avlFixLoop, hupdate, ok_bind, load_some hcell, hlh, hrh, hparent]
  rfl

/-- `avl_fix` climbs the path, whose nodes may all be out of date, and leaves each behind
as the root of a good tree. The last of them is not the root any more. -/
theorem avlFixLoop_rebuilds {fuel : Nat} (hroot : AvlRootAt mem a n up s t u)
    (hctx : ContextAt avlLinks Counted (fun _ _ => True) mem root fs (some a) up k)
    (hnodup : (inorder (plug fs (join s a t u))).Nodup) (hfuel : fs.length < fuel) :
    EndsIn (avlFixLoop fuel mem (some a)) fun r =>
      Rebuilt mem none (inorder (plug fs (join s a t u))) r ∧ r.1 ≠ root := by
  induction fs generalizing mem a n up s t u fuel k with
  | nil =>
    obtain ⟨fuel, rfl⟩ : ∃ m, fuel = m + 1 := ⟨fuel - 1, by omega⟩
    obtain ⟨rfl, rfl⟩ := hctx
    obtain ⟨mem₁, lh, rh, htouch, htree, hround⟩ := avlFixLoop_succ hroot hnodup fuel
    rw [hround, avlFixRound, ok_bind]
    apply (balance_rebuilds htree hnodup lh rh).bind
    intro r hr
    obtain ⟨hrebuilt, hne⟩ := hr
    refine ⟨⟨(htouch.trans hrebuilt.touched).mono ?_, hrebuilt.tree⟩, hne⟩
    simp [mem_inorder_join]
  | cons f fs ih =>
    obtain ⟨fuel, rfl⟩ : ∃ m, fuel = m + 1 := ⟨fuel - 1, by omega⟩
    obtain rfl : up = some f.node := hctx.1
    obtain ⟨hjoin, hpath, hdis⟩ := nodup_inorder_plug.mp hnodup
    obtain ⟨mem₁, lh, rh, htouch, htree, hround⟩ := avlFixLoop_succ hroot hjoin fuel
    have hapath := hdis a (root_mem_join s a t u)
    have hctx₁ := hctx.frame_one htouch hapath
    have hasib : a ∉ inorder f.sibling := fun ha => hapath (by simp [ha])
    rw [hround, avlFixRound]
    simp only [childSlot_of_context hctx₁ hasib, ok_bind, pure_eq_ok]
    apply (balance_rebuilds htree hjoin lh rh).bind
    intro r hr
    obtain ⟨q, mem₂⟩ := r
    obtain ⟨⟨htouch₂, t', htree₂, horder⟩, -⟩ := hr
    have ht' : t' ≠ nil := by
      rintro rfl
      have hmem := root_mem_join s a t u
      rw [← horder] at hmem
      cases hmem
    have hctx₂ := hctx₁.frame htouch₂ fun x hx hxt => hdis x hxt hx
    obtain ⟨mem₃, hwrite, htouch₃, hctx₃⟩ :=
      writeTreeSlot_context hctx₂ hpath (fun _ _ _ _ _ => trivial) none q
    have htree₃ := htree₂.frame_one htouch₃ fun hf => hdis f.node (horder ▸ hf) (by simp)
    obtain ⟨v, hroot₃, habove⟩ := hctx₃.rootAt htree₃
    obtain ⟨b, w, rfl, hw, hparent⟩ := htree₃.exists_root ht'
    have hparent : w.parent = some f.node := hparent
    simp only [hwrite, ok_bind, load_some hw, hparent]
    have hsame : inorder (plug fs (join f.side f.node t' f.sibling)) =
        inorder (plug (f :: fs) (join s a t u)) :=
      inorder_plug_congr fs (inorder_join_congr f.side f.node f.sibling horder)
    have hrest := ih hroot₃ habove (by rwa [hsame]) (by simpa using hfuel)
    rw [hsame] at hrest
    refine hrest.mono fun r hr => ⟨⟨?_, hr.1.tree⟩, hr.2⟩
    apply (((htouch.trans htouch₂).trans htouch₃).trans hr.1.touched).mono
    intro x hx
    simp only [List.mem_append, List.mem_singleton] at hx
    rcases hx with ((rfl | hx) | rfl) | hx
    · exact mem_inorder_plug.mpr (.inl (root_mem_join s x t u))
    · exact mem_inorder_plug.mpr (.inl hx)
    · exact mem_inorder_plug.mpr (.inr (by simp))
    · exact hx

theorem avlFix_rebuilds (hroot : AvlRootAt mem a n up s t u)
    (hctx : ContextAt avlLinks Counted okUp mem root fs (some a) up k)
    (hnodup : (inorder (plug fs (join s a t u))).Nodup) :
    EndsIn (avlFix mem (some a)) fun r =>
      Rebuilt mem none (inorder (plug fs (join s a t u))) r ∧ r.1 ≠ root := by
  have hpath : (pathNodes fs).length ≤ mem.brk :=
    Heap.length_le_brk (nodup_inorder_plug.mp hnodup).2.1 fun _ hx => hctx.exists_get? hx
  have hlen := length_le_pathNodes fs
  have hstale : ContextAt avlLinks Counted (fun _ _ => True) mem root fs (some a) up k :=
    hctx.mono fun _ _ _ _ => trivial
  exact avlFixLoop_rebuilds hroot hstale hnodup (by omega)

end Slots

end NanoRedis
