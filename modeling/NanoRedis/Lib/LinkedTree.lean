import NanoRedis.Lib.Heap
import Mathlib.Data.Tree.Basic

/-! Binary trees threaded through an object store by two child links and a parent
link, and the predicates that speak of every node with its two subtrees. -/

namespace Intrusive
open BinaryTree

section Shape
variable {β : Type*}

def inorder : BinaryTree β → List β
  | nil => []
  | node a l r => inorder l ++ a :: inorder r

theorem notMem_of_nodup_middle {xs ys : List β} {a : β} (h : (xs ++ a :: ys).Nodup) :
    a ∉ xs ∧ a ∉ ys := by
  simpa only [List.mem_append, not_or] using (List.nodup_cons.mp (List.nodup_middle.mp h)).1

def Everywhere (P : β → BinaryTree β → BinaryTree β → Prop) : BinaryTree β → Prop
  | nil => True
  | node a l r => P a l r ∧ Everywhere P l ∧ Everywhere P r

theorem Everywhere.imp {P Q : β → BinaryTree β → BinaryTree β → Prop} {t : BinaryTree β} {k : Nat}
    (h : Everywhere P t) (hsize : t.numNodes ≤ k)
    (himp : ∀ a l r, l.numNodes + r.numNodes + 1 ≤ k → P a l r → Q a l r) : Everywhere Q t := by
  induction t with
  | nil => trivial
  | node a l r ihl ihr =>
    obtain ⟨hroot, hl, hr⟩ := h
    simp only [numNodes] at hsize
    exact ⟨himp a l r hsize hroot, ihl hl (by omega), ihr hr (by omega)⟩

def Balanced : BinaryTree β → Prop :=
  Everywhere fun _ l r => l.height ≤ r.height + 1 ∧ r.height ≤ l.height + 1

inductive Subtree (s : BinaryTree β) : BinaryTree β → Prop
  | refl : Subtree s s
  | left {a : β} {l r : BinaryTree β} : Subtree s l → Subtree s (node a l r)
  | right {a : β} {l r : BinaryTree β} : Subtree s r → Subtree s (node a l r)

namespace Subtree
variable {s t u : BinaryTree β} {a : β} {l r : BinaryTree β}

theorem trans (hst : Subtree s t) (htu : Subtree t u) : Subtree s u := by
  induction htu with
  | refl => exact hst
  | left _ ih => exact ih.left
  | right _ ih => exact ih.right

theorem left_child (h : Subtree (node a l r) t) : Subtree l t := trans (.left .refl) h

theorem right_child (h : Subtree (node a l r) t) : Subtree r t := trans (.right .refl) h

theorem sublist (h : Subtree s t) : (inorder s).Sublist (inorder t) := by
  induction h with
  | refl => exact List.Sublist.refl _
  | left _ ih => exact ih.trans (List.sublist_append_left _ _)
  | right _ ih =>
    exact ih.trans ((List.sublist_cons_self _ _).trans (List.sublist_append_right _ _))

theorem numNodes_le (h : Subtree s t) : s.numNodes ≤ t.numNodes := by
  induction h with
  | refl => exact le_rfl
  | left _ ih | right _ ih =>
    rw [numNodes]
    omega

theorem mem (h : Subtree (node a l r) t) : a ∈ inorder t :=
  h.sublist.subset (by simp [inorder])

theorem exists_of_mem (h : a ∈ inorder t) : ∃ l r, Subtree (node a l r) t := by
  induction t with
  | nil => cases h
  | node b x y ihx ihy =>
    simp only [inorder, List.mem_append, List.mem_cons] at h
    rcases h with h | rfl | h
    · obtain ⟨l, r, hs⟩ := ihx h
      exact ⟨l, r, hs.left⟩
    · exact ⟨x, y, .refl⟩
    · obtain ⟨l, r, hs⟩ := ihy h
      exact ⟨l, r, hs.right⟩

theorem unique {l' r' : BinaryTree β} (hnodup : (inorder t).Nodup) (h : Subtree (node a l r) t)
    (h' : Subtree (node a l' r') t) : l' = l ∧ r' = r := by
  induction t with
  | nil => cases h
  | node b x y ihx ihy =>
    obtain ⟨hbx, hby⟩ := notMem_of_nodup_middle hnodup
    simp only [inorder, List.nodup_append, List.nodup_cons, List.mem_cons] at hnodup
    obtain ⟨hx, ⟨-, hy⟩, hdis⟩ := hnodup
    cases h with
    | refl =>
      cases h' with
      | refl => exact ⟨rfl, rfl⟩
      | left h' => exact absurd h'.mem hbx
      | right h' => exact absurd h'.mem hby
    | left h =>
      cases h' with
      | refl => exact absurd h.mem hbx
      | left h' => exact ihx hx h h'
      | right h' => exact absurd rfl (hdis a h.mem a (.inr h'.mem))
    | right h =>
      cases h' with
      | refl => exact absurd h.mem hby
      | left h' => exact absurd rfl (hdis a h'.mem a (.inr h.mem))
      | right h' => exact ihy hy h h'

end Subtree

def postorder : BinaryTree β → List β
  | nil => []
  | node a l r => postorder l ++ (postorder r ++ [a])

theorem postorder_perm (t : BinaryTree β) : (postorder t).Perm (inorder t) := by
  induction t with
  | nil => exact .nil
  | node a l r ihl ihr =>
    exact ihl.append (List.perm_append_comm.trans (ihr.cons a))

theorem postorder_split {t l r : BinaryTree β} {a : β} (h : Subtree (node a l r) t) :
    ∃ pre post, postorder t = pre ++ a :: post ∧ inorder l ⊆ pre ∧ inorder r ⊆ pre := by
  induction h with
  | refl =>
    refine ⟨postorder l ++ postorder r, [], by simp [postorder], ?_, ?_⟩
    · exact fun x hx => List.mem_append_left _ ((postorder_perm l).mem_iff.mpr hx)
    · exact fun x hx => List.mem_append_right _ ((postorder_perm r).mem_iff.mpr hx)
  | @left b x y _ ih =>
    obtain ⟨pre, post, hsplit, hl, hr⟩ := ih
    exact ⟨pre, post ++ (postorder y ++ [b]), by simp [postorder, hsplit], hl, hr⟩
  | @right b x y _ ih =>
    obtain ⟨pre, post, hsplit, hl, hr⟩ := ih
    exact ⟨postorder x ++ pre, post ++ [b], by simp [postorder, hsplit],
      fun z hz => List.mem_append_right _ (hl hz), fun z hz => List.mem_append_right _ (hr hz)⟩

theorem everywhere_iff {P : β → BinaryTree β → BinaryTree β → Prop} {t : BinaryTree β} :
    Everywhere P t ↔ ∀ a l r, Subtree (node a l r) t → P a l r := by
  constructor
  · intro h a l r hs
    induction t with
    | nil => cases hs
    | node b x y ihx ihy =>
      cases hs with
      | refl => exact h.1
      | left hs => exact ihx h.2.1 hs
      | right hs => exact ihy h.2.2 hs
  · intro h
    induction t with
    | nil => trivial
    | node b x y ihx ihy =>
      exact ⟨h b x y .refl, ihx fun a l r hs => h a l r hs.left,
        ihy fun a l r hs => h a l r hs.right⟩

end Shape

structure TreeLinks (α : Type*) where
  left : α → Ptr
  right : α → Ptr
  parent : α → Ptr

variable {α : Type*} (L : TreeLinks α)

/-- `p` points to a tree of the shape `t` whose root has the parent link `up`. -/
inductive LinkedTree (h : Heap α) : Ptr → Ptr → BinaryTree Nat → Prop
  | nil (up : Ptr) : LinkedTree h none up nil
  | node {a : Nat} {v : α} {up : Ptr} {l r : BinaryTree Nat} :
      h.get? a = some v → L.parent v = up → LinkedTree h (L.left v) (some a) l →
        LinkedTree h (L.right v) (some a) r → LinkedTree h (some a) up (node a l r)

namespace LinkedTree
variable {L} {h h' : Heap α} {p up : Ptr} {a : Nat} {s t l r : BinaryTree Nat}

theorem subtree (ht : LinkedTree L h p up t) (hs : Subtree s t) :
    ∃ q q', LinkedTree L h q q' s := by
  induction ht with
  | nil up =>
    cases hs
    exact ⟨_, _, .nil up⟩
  | node hv hup hl hr ihl ihr =>
    cases hs with
    | refl => exact ⟨_, _, .node hv hup hl hr⟩
    | left hs => exact ihl hs
    | right hs => exact ihr hs

theorem root (ht : LinkedTree L h p up (BinaryTree.node a l r)) : p = some a ∧
    ∃ v, h.get? a = some v ∧ L.parent v = up ∧ LinkedTree L h (L.left v) (some a) l ∧
      LinkedTree L h (L.right v) (some a) r := by
  cases ht with
  | node hv hup hl hr => exact ⟨rfl, _, hv, hup, hl, hr⟩

theorem eq_none (ht : LinkedTree L h p up BinaryTree.nil) : p = none := by
  cases ht
  rfl

theorem ne_some (ht : LinkedTree L h p up t) (ha : a ∉ inorder t) : p ≠ some a := by
  rintro rfl
  cases ht with
  | node => exact ha (by simp [inorder])

theorem unique {up' : Ptr} {t' : BinaryTree Nat} (ht : LinkedTree L h p up t)
    (ht' : LinkedTree L h p up' t') : t' = t := by
  induction ht generalizing t' up' with
  | nil up =>
    cases ht'
    rfl
  | node hv _ _ _ ihl ihr =>
    cases ht' with
    | node hv' _ hl' hr' =>
      obtain rfl := Option.some.inj (hv.symm.trans hv')
      rw [ihl hl', ihr hr']

theorem congr (ht : LinkedTree L h p up t)
    (hlinks : ∀ x ∈ inorder t, ∀ v, h.get? x = some v → ∃ v', h'.get? x = some v' ∧
      L.left v' = L.left v ∧ L.right v' = L.right v ∧ L.parent v' = L.parent v) :
    LinkedTree L h' p up t := by
  induction ht with
  | nil up => exact .nil up
  | node hv hup _ _ ihl ihr =>
    simp only [inorder, List.mem_append, List.mem_cons] at hlinks
    obtain ⟨v', hv', hleft, hright, hparent⟩ := hlinks _ (.inr (.inl rfl)) _ hv
    refine .node hv' (hparent.trans hup) ?_ ?_
    · rw [hleft]
      exact ihl fun x hx => hlinks x (.inl hx)
    · rw [hright]
      exact ihr fun x hx => hlinks x (.inr (.inr hx))

end LinkedTree

end Intrusive
