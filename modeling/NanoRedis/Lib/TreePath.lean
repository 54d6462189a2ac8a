import NanoRedis.Lib.LinkedTree

/-! Linked trees taken apart at a node: the two sides of a node, the path from a subtree
up to the root with the subtrees beside it, and what the store holds along that path. -/

namespace Intrusive
open BinaryTree

inductive Side
  | left
  | right
deriving DecidableEq, Repr

def Side.other : Side → Side
  | .left => .right
  | .right => .left

@[simp] theorem Side.other_other (s : Side) : s.other.other = s := by cases s <;> rfl

section Shape
variable {β : Type*}

def join (s : Side) (a : β) (t u : BinaryTree β) : BinaryTree β :=
  match s with
  | .left => node a t u
  | .right => node a u t

theorem join_other (s : Side) (a : β) (t u : BinaryTree β) : join s.other a t u = join s a u t := by
  cases s <;> rfl

theorem exists_join (s : Side) {t : BinaryTree β} (h : t ≠ nil) :
    ∃ a x y, t = join s a x y := by
  cases t with
  | nil => exact absurd rfl h
  | node a l r =>
    cases s with
    | left => exact ⟨a, l, r, rfl⟩
    | right => exact ⟨a, r, l, rfl⟩

@[simp] theorem numNodes_join (s : Side) (a : β) (t u : BinaryTree β) :
    (join s a t u).numNodes = t.numNodes + u.numNodes + 1 := by
  cases s with
  | left => rfl
  | right =>
    simp only [join, numNodes]
    omega

@[simp] theorem height_join (s : Side) (a : β) (t u : BinaryTree β) :
    (join s a t u).height = max t.height u.height + 1 := by
  cases s with
  | left => rfl
  | right => exact congrArg (· + 1) (max_comm ..)

theorem everywhere_join_iff {P : β → BinaryTree β → BinaryTree β → Prop} {s : Side} {a : β}
    {t u : BinaryTree β} (hP : ∀ a l r, P a l r ↔ P a r l) :
    Everywhere P (join s a t u) ↔ P a t u ∧ Everywhere P t ∧ Everywhere P u := by
  cases s with
  | left => exact Iff.rfl
  | right => exact and_congr (hP a u t) and_comm

theorem balanced_join_iff {s : Side} {a : β} {t u : BinaryTree β} :
    Balanced (join s a t u) ↔
      (t.height ≤ u.height + 1 ∧ u.height ≤ t.height + 1) ∧ Balanced t ∧ Balanced u :=
  everywhere_join_iff fun _ _ _ => and_comm

theorem inorder_join_perm (s : Side) (a : β) (t u : BinaryTree β) :
    (inorder (join s a t u)).Perm (inorder t ++ a :: inorder u) := by
  cases s with
  | left => exact List.Perm.refl _
  | right =>
    exact List.perm_middle.trans ((List.perm_append_comm.cons a).trans List.perm_middle.symm)

theorem mem_inorder_join {s : Side} {a x : β} {t u : BinaryTree β} :
    x ∈ inorder (join s a t u) ↔ x ∈ inorder t ∨ x = a ∨ x ∈ inorder u := by
  rw [(inorder_join_perm s a t u).mem_iff, List.mem_append, List.mem_cons]

theorem root_mem_join (s : Side) (a : β) (t u : BinaryTree β) : a ∈ inorder (join s a t u) :=
  mem_inorder_join.mpr (.inr (.inl rfl))

theorem nodup_inorder_join {s : Side} {a : β} {t u : BinaryTree β} :
    (inorder (join s a t u)).Nodup ↔ (inorder t).Nodup ∧ (a ∉ inorder u ∧ (inorder u).Nodup) ∧
      a ∉ inorder t ∧ ∀ x ∈ inorder t, x ∉ inorder u := by
  rw [(inorder_join_perm s a t u).nodup_iff, List.nodup_append, List.nodup_cons]
  refine and_congr_right fun _ => and_congr_right fun _ => ?_
  constructor
  · intro h
    exact ⟨fun ha => h a ha a (List.mem_cons_self ..) rfl,
      fun x hx hxu => h x hx x (List.mem_cons_of_mem _ hxu) rfl⟩
  · rintro ⟨ha, hdis⟩ x hx y hy rfl
    rcases List.mem_cons.mp hy with rfl | hy
    · exact ha hx
    · exact hdis x hx hy

theorem inorder_join_congr (s : Side) (a : β) {t t' : BinaryTree β} (u : BinaryTree β)
    (h : inorder t = inorder t') : inorder (join s a t u) = inorder (join s a t' u) := by
  cases s <;> simp [join, inorder, h]

theorem inorder_rotate (s : Side) (a b : β) (x m y : BinaryTree β) :
    inorder (join s b x (join s a m y)) = inorder (join s a (join s b x m) y) := by
  cases s <;> simp [join, inorder]

theorem length_inorder (t : BinaryTree β) : (inorder t).length = t.numNodes := by
  induction t with
  | nil => rfl
  | node a l r ihl ihr =>
    simp only [inorder, List.length_append, List.length_cons, ihl, ihr, numNodes]
    omega

theorem numNodes_of_erase [DecidableEq β] {t t' : BinaryTree β} {a : β} (ha : a ∈ inorder t)
    (h : inorder t' = (inorder t).erase a) : t'.numNodes + 1 = t.numNodes := by
  have hpos := List.length_pos_of_mem ha
  have hlen := congrArg List.length h
  rw [List.length_erase_of_mem ha] at hlen
  simp only [length_inorder] at hlen hpos
  omega

/-- A step of the path from a subtree up to the root: the node above it, the side that the
subtree is on, and the subtree on the other side. -/
structure Frame (β : Type*) where
  side : Side
  node : β
  sibling : BinaryTree β

def Frame.fill (f : Frame β) (t : BinaryTree β) : BinaryTree β := join f.side f.node t f.sibling

def plug (fs : List (Frame β)) (t : BinaryTree β) : BinaryTree β :=
  fs.foldl (fun t f => f.fill t) t

@[simp] theorem plug_nil (t : BinaryTree β) : plug [] t = t := rfl

@[simp] theorem plug_cons (f : Frame β) (fs : List (Frame β)) (t : BinaryTree β) :
    plug (f :: fs) t = plug fs (f.fill t) := rfl

theorem plug_append (fs gs : List (Frame β)) (t : BinaryTree β) :
    plug (fs ++ gs) t = plug gs (plug fs t) := List.foldl_append ..

def pathNodes (fs : List (Frame β)) : List β := fs.flatMap fun f => f.node :: inorder f.sibling

@[simp] theorem pathNodes_cons (f : Frame β) (fs : List (Frame β)) :
    pathNodes (f :: fs) = f.node :: (inorder f.sibling ++ pathNodes fs) := rfl

theorem length_le_pathNodes (fs : List (Frame β)) : fs.length ≤ (pathNodes fs).length := by
  induction fs with
  | nil => exact le_rfl
  | cons f fs ih =>
    simp only [pathNodes_cons, List.length_cons, List.length_append]
    omega

theorem inorder_plug (fs : List (Frame β)) :
    ∃ pre post, ∀ t, inorder (plug fs t) = pre ++ inorder t ++ post := by
  induction fs with
  | nil => exact ⟨[], [], fun t => by simp⟩
  | cons f fs ih =>
    obtain ⟨pre, post, h⟩ := ih
    obtain ⟨side, a, u⟩ := f
    cases side with
    | left =>
      refine ⟨pre, a :: inorder u ++ post, fun t => ?_⟩
      simp [h, Frame.fill, join, inorder]
    | right =>
      refine ⟨pre ++ inorder u ++ [a], post, fun t => ?_⟩
      simp [h, Frame.fill, join, inorder]

theorem inorder_plug_congr (fs : List (Frame β)) {t t' : BinaryTree β}
    (h : inorder t = inorder t') : inorder (plug fs t) = inorder (plug fs t') := by
  obtain ⟨pre, post, hplug⟩ := inorder_plug fs
  rw [hplug, hplug, h]

theorem inorder_plug_node (fs : List (Frame β)) (l r : BinaryTree β) :
    ∃ pre post, ∀ x, inorder (plug fs (node x l r)) = pre ++ x :: post := by
  obtain ⟨pre, post, h⟩ := inorder_plug fs
  exact ⟨pre ++ inorder l, inorder r ++ post, fun x => by simp [h, inorder]⟩

theorem erase_middle [DecidableEq β] {xs ys : List β} {a : β} (hnodup : (xs ++ a :: ys).Nodup) :
    (xs ++ a :: ys).erase a = xs ++ ys := by
  rw [List.erase_append_right _ (notMem_of_nodup_middle hnodup).1, List.erase_cons_head]

theorem erase_of_erase_succ [DecidableEq β] {xs ys pre post : List β} {a v : β}
    (hnodup : (xs ++ a :: v :: ys).Nodup)
    (h : (xs ++ a :: v :: ys).erase v = pre ++ a :: post) :
    (xs ++ a :: v :: ys).erase a = pre ++ v :: post := by
  have hregroup : xs ++ a :: v :: ys = (xs ++ [a]) ++ v :: ys := by simp
  have herase : (xs ++ a :: v :: ys).erase v = xs ++ a :: ys := by
    rw [hregroup] at hnodup ⊢
    rw [erase_middle hnodup, List.append_assoc, List.singleton_append]
  have hsame : pre ++ a :: post = xs ++ a :: ys := h.symm.trans herase
  obtain ⟨hapre, hapost⟩ := notMem_of_nodup_middle (h ▸ hnodup.erase v)
  obtain ⟨rfl, -, rfl⟩ := (List.append_cons_inj_of_notMem hapre hapost).mp hsame
  exact erase_middle hnodup

theorem erase_inorder_plug [DecidableEq β] {fs : List (Frame β)} {a : β} {l : BinaryTree β}
    (hnodup : (inorder (plug fs (node a l nil))).Nodup) :
    (inorder (plug fs (node a l nil))).erase a = inorder (plug fs l) := by
  obtain ⟨pre, post, h⟩ := inorder_plug fs
  have hsplit : inorder (plug fs (node a l nil)) = (pre ++ inorder l) ++ a :: post := by
    simp [h, inorder]
  rw [hsplit] at hnodup ⊢
  rw [erase_middle hnodup, h]

theorem inorder_plug_perm (fs : List (Frame β)) (t : BinaryTree β) :
    (inorder (plug fs t)).Perm (inorder t ++ pathNodes fs) := by
  induction fs generalizing t with
  | nil => simp [pathNodes]
  | cons f fs ih =>
    rw [plug_cons, pathNodes_cons]
    refine (ih (f.fill t)).trans (((inorder_join_perm ..).append_right _).trans ?_)
    rw [List.append_assoc, List.cons_append]

theorem mem_inorder_plug {fs : List (Frame β)} {t : BinaryTree β} {x : β} :
    x ∈ inorder (plug fs t) ↔ x ∈ inorder t ∨ x ∈ pathNodes fs := by
  rw [(inorder_plug_perm fs t).mem_iff, List.mem_append]

theorem nodup_inorder_plug {fs : List (Frame β)} {t : BinaryTree β} :
    (inorder (plug fs t)).Nodup ↔
      (inorder t).Nodup ∧ (pathNodes fs).Nodup ∧ ∀ x ∈ inorder t, x ∉ pathNodes fs := by
  rw [(inorder_plug_perm fs t).nodup_iff, List.nodup_append]
  refine and_congr_right fun _ => and_congr_right fun _ => ?_
  exact ⟨fun h x hx hxp => h x hx x hxp rfl, fun h x hx y hy hxy => h x hx (hxy ▸ hy)⟩

theorem exists_plug_of_mem {t : BinaryTree β} {a : β} (h : a ∈ inorder t) :
    ∃ fs l r, t = plug fs (node a l r) := by
  induction t with
  | nil => cases h
  | node b l r ihl ihr =>
    simp only [inorder, List.mem_append, List.mem_cons] at h
    rcases h with h | rfl | h
    · obtain ⟨fs, l', r', rfl⟩ := ihl h
      exact ⟨fs ++ [⟨.left, b, r⟩], l', r', by rw [plug_append]; rfl⟩
    · exact ⟨[], l, r, rfl⟩
    · obtain ⟨fs, l', r', rfl⟩ := ihr h
      exact ⟨fs ++ [⟨.right, b, l⟩], l', r', by rw [plug_append]; rfl⟩

theorem subtree_fill (f : Frame β) (t : BinaryTree β) :
    Subtree t (f.fill t) ∧ Subtree f.sibling (f.fill t) := by
  obtain ⟨side, a, u⟩ := f
  cases side with
  | left => exact ⟨.left .refl, .right .refl⟩
  | right => exact ⟨.right .refl, .left .refl⟩

theorem subtree_plug (fs : List (Frame β)) (t : BinaryTree β) : Subtree t (plug fs t) := by
  induction fs generalizing t with
  | nil => exact .refl
  | cons f fs ih => exact (subtree_fill f t).1.trans (ih _)

theorem subtree_sibling {fs : List (Frame β)} {f : Frame β} (hf : f ∈ fs) (t : BinaryTree β) :
    Subtree f.sibling (plug fs t) := by
  induction fs generalizing t with
  | nil => cases hf
  | cons g fs ih =>
    rcases List.mem_cons.mp hf with rfl | hf
    · exact (subtree_fill f t).2.trans (subtree_plug fs _)
    · exact ih hf _

theorem sibling_subset_pathNodes {fs : List (Frame β)} {f : Frame β} (hf : f ∈ fs) :
    inorder f.sibling ⊆ pathNodes fs := fun _ hx =>
  List.mem_flatMap.mpr ⟨f, hf, List.mem_cons_of_mem _ hx⟩

end Shape

section Cells
variable {α : Type*} (L : TreeLinks α) (ok : α → Nat → Prop)

def TreeLinks.child (L : TreeLinks α) : Side → α → Ptr
  | .left => L.left
  | .right => L.right

/-- `p` points to a tree of the shape `t` whose root has the parent link `up`, and each of
its cells is as it should be for the number of nodes in its subtree. -/
def TreeAt (h : Heap α) : Ptr → Ptr → BinaryTree Nat → Prop
  | p, _, nil => p = none
  | p, up, node a l r => p = some a ∧ ∃ v, h.get? a = some v ∧ L.parent v = up ∧
      ok v (l.numNodes + r.numNodes + 1) ∧ TreeAt h (L.left v) (some a) l ∧
      TreeAt h (L.right v) (some a) r

structure RootAt (h : Heap α) (a : Nat) (v : α) (up : Ptr) (s : Side) (t u : BinaryTree Nat) :
    Prop where
  cell : h.get? a = some v
  parent : L.parent v = up
  near : TreeAt L ok h (L.child s v) (some a) t
  far : TreeAt L ok h (L.child s.other v) (some a) u

/-- What the store holds around a subtree of `k` nodes with the pointer `hole` and the parent link
`up`: the nodes of the path are as `okUp` asks, the subtrees beside it as `ok` does. -/
def ContextAt (okUp : α → Nat → Prop) (h : Heap α) (root : Ptr) :
    List (Frame Nat) → Ptr → Ptr → Nat → Prop
  | [], hole, up, _ => hole = root ∧ up = none
  | f :: fs, hole, up, k => up = some f.node ∧ ∃ v, h.get? f.node = some v ∧
      L.child f.side v = hole ∧ okUp v (k + f.sibling.numNodes + 1) ∧
      TreeAt L ok h (L.child f.side.other v) (some f.node) f.sibling ∧
      ContextAt okUp h root fs (some f.node) (L.parent v) (k + f.sibling.numNodes + 1)

variable {L ok} {okUp okUp' : α → Nat → Prop} {h h' : Heap α} {p up root hole : Ptr}
  {t u : BinaryTree Nat} {s : Side} {a : Nat}

@[simp] theorem treeAt_nil : TreeAt L ok h p up nil ↔ p = none := Iff.rfl

theorem treeAt_iff :
    TreeAt L ok h p up t ↔ LinkedTree L h p up t ∧
      Everywhere (fun a l r => ∃ v, h.get? a = some v ∧ ok v (l.numNodes + r.numNodes + 1)) t := by
  induction t generalizing p up with
  | nil =>
    constructor
    · rintro rfl
      exact ⟨.nil up, trivial⟩
    · rintro ⟨hlinked, -⟩
      cases hlinked
      rfl
  | node a l r ihl ihr =>
    constructor
    · rintro ⟨rfl, v, hv, hup, hok, hl, hr⟩
      obtain ⟨hl, hokl⟩ := ihl.mp hl
      obtain ⟨hr, hokr⟩ := ihr.mp hr
      exact ⟨.node hv hup hl hr, ⟨v, hv, hok⟩, hokl, hokr⟩
    · rintro ⟨hlinked, ⟨v, hv, hok⟩, hokl, hokr⟩
      cases hlinked with
      | node hw hup hl hr =>
        obtain rfl := Option.some.inj (hv.symm.trans hw)
        exact ⟨rfl, v, hv, hup, hok, ihl.mpr ⟨hl, hokl⟩, ihr.mpr ⟨hr, hokr⟩⟩

theorem treeAt_join_iff :
    TreeAt L ok h p up (join s a t u) ↔
      p = some a ∧ ∃ v, RootAt L ok h a v up s t u ∧ ok v (t.numNodes + u.numNodes + 1) := by
  cases s with
  | left =>
    constructor
    · rintro ⟨rfl, v, hv, hup, hok, hl, hr⟩
      exact ⟨rfl, v, ⟨hv, hup, hl, hr⟩, hok⟩
    · rintro ⟨rfl, v, ⟨hv, hup, hl, hr⟩, hok⟩
      exact ⟨rfl, v, hv, hup, hok, hl, hr⟩
  | right =>
    constructor
    · rintro ⟨rfl, v, hv, hup, hok, hl, hr⟩
      exact ⟨rfl, v, ⟨hv, hup, hr, hl⟩, by rwa [Nat.add_comm t.numNodes]⟩
    · rintro ⟨rfl, v, ⟨hv, hup, hr, hl⟩, hok⟩
      exact ⟨rfl, v, hv, hup, by rwa [Nat.add_comm u.numNodes], hl, hr⟩

theorem RootAt.swap {v : α} (hroot : RootAt L ok h a v up s t u) :
    RootAt L ok h a v up s.other u t :=
  ⟨hroot.cell, hroot.parent, hroot.far, by rw [Side.other_other]; exact hroot.near⟩

theorem RootAt.turn {v : α} (hroot : RootAt L ok h a v up s t u) (s' : Side) :
    ∃ t' u', RootAt L ok h a v up s' t' u' ∧ join s' a t' u' = join s a t u := by
  by_cases hs : s' = s
  · subst hs
    exact ⟨t, u, hroot, rfl⟩
  · obtain rfl : s' = s.other := by cases s <;> cases s' <;> simp_all [Side.other]
    exact ⟨u, t, hroot.swap, join_other s a u t⟩

theorem TreeAt.exists_get? (ht : TreeAt L ok h p up t) {x : Nat} (hx : x ∈ inorder t) :
    ∃ v, h.get? x = some v := by
  induction t generalizing p up with
  | nil => cases hx
  | node a l r ihl ihr =>
    obtain ⟨-, v, hv, -, -, hl, hr⟩ := ht
    simp only [inorder, List.mem_append, List.mem_cons] at hx
    rcases hx with hx | rfl | hx
    · exact ihl hl hx
    · exact ⟨v, hv⟩
    · exact ihr hr hx

theorem TreeAt.ne_some (ht : TreeAt L ok h p up t) (ha : a ∉ inorder t) : p ≠ some a :=
  (treeAt_iff.mp ht).1.ne_some ha

theorem TreeAt.exists_root (ht : TreeAt L ok h p up t) (hne : t ≠ nil) :
    ∃ b v, p = some b ∧ h.get? b = some v ∧ L.parent v = up := by
  cases t with
  | nil => exact absurd rfl hne
  | node b l r =>
    obtain ⟨rfl, v, hv, hup, -⟩ := ht
    exact ⟨b, v, rfl, hv, hup⟩

theorem TreeAt.congr (ht : TreeAt L ok h p up t) (hag : ∀ x ∈ inorder t, h'.get? x = h.get? x) :
    TreeAt L ok h' p up t := by
  induction t generalizing p up with
  | nil => exact ht
  | node a l r ihl ihr =>
    obtain ⟨rfl, v, hv, hup, hok, hl, hr⟩ := ht
    simp only [inorder, List.mem_append, List.mem_cons] at hag
    exact ⟨rfl, v, by rw [hag a (.inr (.inl rfl)), hv], hup, hok,
      ihl hl fun x hx => hag x (.inl hx), ihr hr fun x hx => hag x (.inr (.inr hx))⟩

theorem TreeAt.frame {xs : List Nat} (ht : TreeAt L ok h p up t) (htouch : h.Touched h' xs)
    (hdis : ∀ x ∈ inorder t, x ∉ xs) : TreeAt L ok h' p up t :=
  ht.congr fun x hx => htouch.get?_eq x (hdis x hx)

theorem TreeAt.frame_one (ht : TreeAt L ok h p up t) {b : Nat} (htouch : h.Touched h' [b])
    (hb : b ∉ inorder t) : TreeAt L ok h' p up t :=
  ht.frame htouch fun _ hx hxb => hb (List.mem_singleton.mp hxb ▸ hx)

theorem TreeAt.reparent {b : Nat} {v w : α} {up' : Ptr} (ht : TreeAt L ok h (some b) up t)
    (hnodup : (inorder t).Nodup) (hv : h.get? b = some v) (hw : h'.get? b = some w)
    (hleft : L.left w = L.left v) (hright : L.right w = L.right v) (hup : L.parent w = up')
    (hok : ∀ k, ok v k → ok w k) (htouch : h.Touched h' [b]) : TreeAt L ok h' (some b) up' t := by
  cases t with
  | nil => cases ht
  | node c l r =>
    obtain ⟨hb, v', hv', -, hokv, hl, hr⟩ := ht
    obtain rfl := Option.some.inj hb
    obtain rfl := Option.some.inj (hv.symm.trans hv')
    obtain ⟨hbl, hbr⟩ := notMem_of_nodup_middle hnodup
    refine ⟨rfl, w, hw, hup, hok _ hokv, ?_, ?_⟩
    · rw [hleft]
      exact hl.frame_one htouch hbl
    · rw [hright]
      exact hr.frame_one htouch hbr

theorem treeAt_plug_iff {fs : List (Frame Nat)} :
    TreeAt L ok h root none (plug fs t) ↔
      ∃ hole up, TreeAt L ok h hole up t ∧ ContextAt L ok ok h root fs hole up t.numNodes := by
  induction fs generalizing t with
  | nil =>
    constructor
    · exact fun ht => ⟨root, none, ht, rfl, rfl⟩
    · rintro ⟨hole, up, ht, rfl, rfl⟩
      exact ht
  | cons f fs ih =>
    rw [plug_cons, ih]
    constructor
    · rintro ⟨hole, up, ht, hctx⟩
      obtain ⟨rfl, v, hroot, hok⟩ := treeAt_join_iff.mp ht
      rw [Frame.fill, numNodes_join] at hctx
      exact ⟨L.child f.side v, some f.node, hroot.near, rfl, v, hroot.cell, rfl, hok, hroot.far,
        by rw [hroot.parent]; exact hctx⟩
    · rintro ⟨hole, up, ht, rfl, v, hv, rfl, hok, hsib, hctx⟩
      refine ⟨some f.node, L.parent v, treeAt_join_iff.mpr ⟨rfl, v, ⟨hv, rfl, ht, hsib⟩, hok⟩, ?_⟩
      rw [Frame.fill, numNodes_join]
      exact hctx

theorem ContextAt.mono {fs : List (Frame Nat)} {k k' : Nat}
    (hctx : ContextAt L ok okUp h root fs hole up k) (hok : ∀ v i j, okUp v i → okUp' v j) :
    ContextAt L ok okUp' h root fs hole up k' := by
  induction fs generalizing hole up k k' with
  | nil => exact hctx
  | cons f fs ih =>
    obtain ⟨rfl, v, hv, hhole, hokv, hsib, hctx⟩ := hctx
    exact ⟨rfl, v, hv, hhole, hok _ _ _ hokv, hsib, ih hctx⟩

theorem ContextAt.siblings {ok' : α → Nat → Prop} {fs : List (Frame Nat)} {k : Nat}
    (hctx : ContextAt L ok okUp h root fs hole up k)
    (hsib : ∀ f ∈ fs, Everywhere (fun a l r => ∃ v, h.get? a = some v ∧
      ok' v (l.numNodes + r.numNodes + 1)) f.sibling) :
    ContextAt L ok' okUp h root fs hole up k := by
  induction fs generalizing hole up k with
  | nil => exact hctx
  | cons f fs ih =>
    obtain ⟨rfl, v, hv, hhole, hokv, hbeside, hctx⟩ := hctx
    exact ⟨rfl, v, hv, hhole, hokv,
      treeAt_iff.mpr ⟨(treeAt_iff.mp hbeside).1, hsib f (List.mem_cons_self ..)⟩,
      ih hctx fun g hg => hsib g (List.mem_cons_of_mem _ hg)⟩

theorem ContextAt.congr {fs : List (Frame Nat)} {k : Nat}
    (hctx : ContextAt L ok okUp h root fs hole up k)
    (hag : ∀ x ∈ pathNodes fs, h'.get? x = h.get? x) :
    ContextAt L ok okUp h' root fs hole up k := by
  induction fs generalizing hole up k with
  | nil => exact hctx
  | cons f fs ih =>
    obtain ⟨rfl, v, hv, hhole, hokv, hsib, hctx⟩ := hctx
    simp only [pathNodes_cons, List.mem_cons, List.mem_append] at hag
    exact ⟨rfl, v, by rw [hag _ (.inl rfl), hv], hhole, hokv,
      hsib.congr fun x hx => hag x (.inr (.inl hx)), ih hctx fun x hx => hag x (.inr (.inr hx))⟩

theorem ContextAt.frame {fs : List (Frame Nat)} {k : Nat} {xs : List Nat}
    (hctx : ContextAt L ok okUp h root fs hole up k) (htouch : h.Touched h' xs)
    (hdis : ∀ x ∈ pathNodes fs, x ∉ xs) : ContextAt L ok okUp h' root fs hole up k :=
  hctx.congr fun x hx => htouch.get?_eq x (hdis x hx)

theorem ContextAt.frame_one {fs : List (Frame Nat)} {k b : Nat}
    (hctx : ContextAt L ok okUp h root fs hole up k) (htouch : h.Touched h' [b])
    (hb : b ∉ pathNodes fs) : ContextAt L ok okUp h' root fs hole up k :=
  hctx.frame htouch fun _ hx hxb => hb (List.mem_singleton.mp hxb ▸ hx)

theorem ContextAt.rootAt {f : Frame Nat} {fs : List (Frame Nat)} {k : Nat}
    (hctx : ContextAt L ok okUp h root (f :: fs) hole up k)
    (ht : TreeAt L ok h hole (some f.node) t) :
    ∃ v, RootAt L ok h f.node v (L.parent v) f.side t f.sibling ∧
      ContextAt L ok okUp h root fs (some f.node) (L.parent v) (k + f.sibling.numNodes + 1) := by
  obtain ⟨-, v, hv, rfl, -, hsib, hctx⟩ := hctx
  exact ⟨v, ⟨hv, rfl, ht, hsib⟩, hctx⟩

theorem ContextAt.exists_get? {fs : List (Frame Nat)} {k : Nat}
    (hctx : ContextAt L ok okUp h root fs hole up k) {x : Nat} (hx : x ∈ pathNodes fs) :
    ∃ v, h.get? x = some v := by
  induction fs generalizing hole up k with
  | nil => cases hx
  | cons f fs ih =>
    obtain ⟨-, v, hv, -, -, hsib, hctx⟩ := hctx
    simp only [pathNodes_cons, List.mem_cons, List.mem_append] at hx
    rcases hx with rfl | hx | hx
    · exact ⟨v, hv⟩
    · exact hsib.exists_get? hx
    · exact ih hctx hx

end Cells

end Intrusive
