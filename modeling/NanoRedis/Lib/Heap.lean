import Mathlib.Tactic
import Mathlib.Data.List.Perm.Basic
import Mathlib.Data.List.Nodup
import Mathlib.Data.Fintype.Card

/-! Object stores addressed by allocation number, and the null-terminated
chains that one pointer field of the cells threads through such a store. -/

namespace Intrusive

abbrev Ptr := Option Nat

/-- Cells in allocation order; a reclaimed cell is `none` and its number is never reused. -/
structure Heap (α : Type*) where
  cells : List (Option α) := []
deriving DecidableEq

namespace Heap
variable {α : Type*}

def get? (h : Heap α) (p : Nat) : Option α := h.cells[p]?.join

def brk (h : Heap α) : Nat := h.cells.length

def set (h : Heap α) (p : Nat) (v : α) : Heap α := ⟨h.cells.set p (some v)⟩

def alloc (h : Heap α) (v : α) : Heap α := ⟨h.cells ++ [some v]⟩

def free (h : Heap α) (p : Nat) : Heap α := ⟨h.cells.set p none⟩

@[simp] theorem get?_empty (p : Nat) : ({} : Heap α).get? p = none := by simp [get?]

theorem lt_brk {h : Heap α} {p : Nat} {v : α} (hp : h.get? p = some v) : p < h.brk := by
  by_contra hlt
  have hnone : h.cells[p]? = none := List.getElem?_eq_none (not_lt.mp hlt)
  simp [get?, hnone] at hp

@[simp] theorem brk_set (h : Heap α) (p : Nat) (v : α) : (h.set p v).brk = h.brk := by
  simp [brk, set]

@[simp] theorem brk_alloc (h : Heap α) (v : α) : (h.alloc v).brk = h.brk + 1 := by
  simp [brk, alloc]

@[simp] theorem brk_free (h : Heap α) (p : Nat) : (h.free p).brk = h.brk := by simp [brk, free]

theorem get?_set_self {h : Heap α} {p : Nat} {u : α} (hp : h.get? p = some u) (v : α) :
    (h.set p v).get? p = some v := by
  have hlt : p < h.cells.length := lt_brk hp
  simp [get?, set, hlt]

theorem get?_set_ne (h : Heap α) {p q : Nat} (hne : q ≠ p) (v : α) :
    (h.set p v).get? q = h.get? q := by
  simp [get?, set, Ne.symm hne]

@[simp] theorem get?_alloc_brk (h : Heap α) (v : α) : (h.alloc v).get? h.brk = some v := by
  simp [get?, alloc, brk]

theorem get?_alloc_ne (h : Heap α) {p : Nat} (hne : p ≠ h.brk) (v : α) :
    (h.alloc v).get? p = h.get? p := by
  rcases lt_or_gt_of_ne hne with hlt | hgt
  · simp only [get?, alloc, List.getElem?_append_left (show p < h.cells.length from hlt)]
  · have hle : h.cells.length + 1 ≤ p := hgt
    have h₁ : (h.cells ++ [some v])[p]? = none := List.getElem?_eq_none (by simpa using hle)
    have h₂ : h.cells[p]? = none := List.getElem?_eq_none (by omega)
    simp only [get?, alloc, h₁, h₂]

theorem get?_alloc_of_some {h : Heap α} {p : Nat} {u : α} (hp : h.get? p = some u) (v : α) :
    (h.alloc v).get? p = some u := by
  rw [get?_alloc_ne h (lt_brk hp).ne, hp]

theorem get?_free_ne (h : Heap α) {p q : Nat} (hne : q ≠ p) : (h.free p).get? q = h.get? q := by
  simp [get?, free, Ne.symm hne]

@[simp] theorem get?_free_self (h : Heap α) (p : Nat) : (h.free p).get? p = none := by
  simp only [get?, free, List.getElem?_set, if_true]
  split_ifs <;> rfl

theorem length_le_brk {h : Heap α} {xs : List Nat} (hnodup : xs.Nodup)
    (hlive : ∀ x ∈ xs, ∃ v, h.get? x = some v) : xs.length ≤ h.brk := by
  have hsub : xs ⊆ List.range h.brk := by
    intro x hx
    obtain ⟨v, hv⟩ := hlive x hx
    exact List.mem_range.mpr (Heap.lt_brk hv)
  simpa using (hnodup.subperm hsub).length_le

def Owned (h : Heap α) (xs : List Nat) : Prop := ∀ p, (h.get? p).isSome ↔ p ∈ xs

namespace Owned
variable {h h' : Heap α} {xs ys : List Nat}

theorem empty : Owned ({} : Heap α) [] := fun p => by simp

theorem perm (ho : Owned h xs) (hperm : xs.Perm ys) : Owned h ys :=
  fun p => (ho p).trans hperm.mem_iff

theorem congr (ho : Owned h xs) (hsome : ∀ p, (h'.get? p).isSome = (h.get? p).isSome) :
    Owned h' xs := by
  intro p
  rw [hsome]
  exact ho p

theorem alloc (ho : Owned h xs) (v : α) : Owned (h.alloc v) (h.brk :: xs) := by
  intro p
  rw [List.mem_cons]
  by_cases hp : p = h.brk
  · simp [hp]
  · rw [get?_alloc_ne h hp, ho p]
    exact (or_iff_right hp).symm

theorem free {p : Nat} (ho : Owned h (p :: xs)) (hp : p ∉ xs) : Owned (h.free p) xs := by
  intro q
  by_cases hq : q = p
  · subst hq
    simpa using hp
  · rw [get?_free_ne h hq, ho q, List.mem_cons]
    exact or_iff_right hq

end Owned

/-- `h'` has the same live cells as `h`, and differs from it in the cells `xs` at most. -/
structure Touched (h h' : Heap α) (xs : List Nat) : Prop where
  brk_eq : h'.brk = h.brk
  isSome_eq : ∀ x, (h'.get? x).isSome = (h.get? x).isSome
  get?_eq : ∀ x, x ∉ xs → h'.get? x = h.get? x

namespace Touched
variable {h h' h'' : Heap α} {xs ys : List Nat}

theorem refl (h : Heap α) (xs : List Nat) : Touched h h xs :=
  ⟨rfl, fun _ => rfl, fun _ _ => rfl⟩

theorem set {p : Nat} {u : α} (hp : h.get? p = some u) (v : α) : Touched h (h.set p v) [p] := by
  refine ⟨brk_set .., fun x => ?_, fun x hx => get?_set_ne h (by simpa using hx) v⟩
  by_cases hxp : x = p
  · subst x
    rw [get?_set_self hp, hp]
    rfl
  · rw [get?_set_ne h hxp]

theorem mono (ht : Touched h h' xs) (hsub : xs ⊆ ys) : Touched h h' ys :=
  ⟨ht.brk_eq, ht.isSome_eq, fun x hx => ht.get?_eq x fun hmem => hx (hsub hmem)⟩

theorem trans (ht : Touched h h' xs) (ht' : Touched h' h'' ys) : Touched h h'' (xs ++ ys) := by
  refine ⟨ht'.brk_eq.trans ht.brk_eq, fun x => (ht'.isSome_eq x).trans (ht.isSome_eq x),
    fun x hx => ?_⟩
  rw [List.mem_append, not_or] at hx
  rw [ht'.get?_eq x hx.2, ht.get?_eq x hx.1]

theorem get?_some (ht : Touched h h' xs) {x : Nat} (hx : x ∉ xs) {v : α} (hv : h.get? x = some v) :
    h'.get? x = some v := by rw [ht.get?_eq x hx, hv]

theorem exists_get? (ht : Touched h h' xs) {x : Nat} {v : α} (hv : h.get? x = some v) :
    ∃ w, h'.get? x = some w := by
  have hsome := ht.isSome_eq x
  rw [hv] at hsome
  exact Option.isSome_iff_exists.mp hsome

end Touched

end Heap

section Chain
variable {α : Type*} (link : α → Ptr)

/-- `Seg link h p xs q`: following `link` from `p` visits the cells `xs` in order and
stops at `q`. -/
inductive Seg (h : Heap α) : Ptr → List Nat → Ptr → Prop
  | nil (p : Ptr) : Seg h p [] p
  | cons {a : Nat} {v : α} {xs : List Nat} {q : Ptr} :
      h.get? a = some v → Seg h (link v) xs q → Seg h (some a) (a :: xs) q

def Chain (h : Heap α) (p : Ptr) (xs : List Nat) : Prop := Seg link h p xs none

variable {link} {h h' : Heap α} {p q r : Ptr} {xs ys : List Nat}

theorem Seg.congr (hs : Seg link h p xs q)
    (hag : ∀ x ∈ xs, (h'.get? x).map link = (h.get? x).map link) : Seg link h' p xs q := by
  induction hs with
  | nil p => exact .nil p
  | @cons a v xs q hv _ ih =>
    have ha := hag a (List.mem_cons_self ..)
    rw [hv, Option.map_some, Option.map_eq_some_iff] at ha
    obtain ⟨w, hw, hl⟩ := ha
    refine .cons hw ?_
    rw [hl]
    exact ih fun x hx => hag x (List.mem_cons_of_mem _ hx)

theorem Seg.append (hxs : Seg link h p xs q) (hys : Seg link h q ys r) :
    Seg link h p (xs ++ ys) r := by
  induction hxs with
  | nil p => exact hys
  | cons hv _ ih => exact .cons hv (ih hys)

theorem Seg.split (hs : Seg link h p (xs ++ ys) r) :
    ∃ q, Seg link h p xs q ∧ Seg link h q ys r := by
  induction xs generalizing p with
  | nil => exact ⟨p, .nil p, hs⟩
  | cons x xs ih =>
    cases hs with
    | cons hv hrest =>
      obtain ⟨q, h₁, h₂⟩ := ih hrest
      exact ⟨q, .cons hv h₁, h₂⟩

theorem Seg.exists_get? (hs : Seg link h p xs q) {x : Nat} (hx : x ∈ xs) :
    ∃ v, h.get? x = some v := by
  induction hs with
  | nil p => simp at hx
  | cons hv _ ih =>
    rcases List.mem_cons.mp hx with rfl | hx
    · exact ⟨_, hv⟩
    · exact ih hx

theorem chain_none_iff : Chain link h none xs ↔ xs = [] := by
  constructor
  · intro hs
    cases hs
    rfl
  · rintro rfl
    exact .nil none

theorem chain_nil_iff : Chain link h p [] ↔ p = none := by
  constructor
  · intro hs
    cases hs
    rfl
  · rintro rfl
    exact .nil none

theorem chain_cons_iff {x : Nat} :
    Chain link h p (x :: xs) ↔ p = some x ∧ ∃ v, h.get? x = some v ∧ Chain link h (link v) xs := by
  constructor
  · intro hs
    cases hs with
    | cons hv hrest => exact ⟨rfl, _, hv, hrest⟩
  · rintro ⟨rfl, v, hv, hrest⟩
    exact .cons hv hrest

theorem Chain.unique (hx : Chain link h p xs) (hy : Chain link h p ys) : xs = ys := by
  induction xs generalizing p ys with
  | nil =>
    rw [chain_nil_iff.mp hx, chain_none_iff] at hy
    exact hy.symm
  | cons x xs ih =>
    obtain ⟨rfl, v, hv, hrest⟩ := chain_cons_iff.mp hx
    cases ys with
    | nil => exact absurd (chain_nil_iff.mp hy) (by simp)
    | cons y ys =>
      obtain ⟨hp, w, hw, hrest'⟩ := chain_cons_iff.mp hy
      obtain rfl : x = y := Option.some.inj hp
      obtain rfl : v = w := Option.some.inj (hv.symm.trans hw)
      rw [ih hrest hrest']

/-- A null-terminated chain has no cycle: a repeated cell would start two different tails. -/
theorem Chain.nodup (hs : Chain link h p xs) : xs.Nodup := by
  induction xs generalizing p with
  | nil => exact List.nodup_nil
  | cons x xs ih =>
    obtain ⟨rfl, v, hv, hrest⟩ := chain_cons_iff.mp hs
    refine List.nodup_cons.mpr ⟨fun hmem => ?_, ih hrest⟩
    obtain ⟨pre, post, rfl⟩ := List.append_of_mem hmem
    obtain ⟨q, _, hpost⟩ := Seg.split hrest
    obtain rfl : q = some x := (chain_cons_iff.mp hpost).1
    have hlen := congrArg List.length (Chain.unique hs hpost)
    simp at hlen
    omega

theorem Chain.length_le_brk (hs : Chain link h p xs) : xs.length ≤ h.brk :=
  Heap.length_le_brk (Chain.nodup hs) fun _ hx => Seg.exists_get? hs hx

theorem Chain.set_of_notMem (hs : Chain link h p xs) {y : Nat} (hy : y ∉ xs) (v : α) :
    Chain link (h.set y v) p xs :=
  Seg.congr hs fun x hx => by rw [Heap.get?_set_ne _ (by rintro rfl; exact hy hx)]

theorem Chain.unlink {x y : Nat} {u v w : α} (hs : Chain link h p (xs ++ y :: x :: ys))
    (hy : h.get? y = some u) (hx : h.get? x = some w) (hv : link v = link w) :
    Chain link (h.set y v) p (xs ++ y :: ys) := by
  have hnd := hs.nodup
  simp only [List.nodup_append, List.nodup_cons, List.mem_cons, not_or] at hnd
  obtain ⟨q, hpre, hsuf⟩ := Seg.split hs
  obtain ⟨rfl, _, -, hsuf⟩ := chain_cons_iff.mp hsuf
  obtain ⟨-, w', hw', hpost⟩ := chain_cons_iff.mp hsuf
  obtain rfl : w = w' := Option.some.inj (hx.symm.trans hw')
  have hpre' : Seg link (h.set y v) p xs (some y) := Seg.congr hpre fun z hz => by
    rw [Heap.get?_set_ne _ (hnd.2.2 z hz y (.inl rfl))]
  refine Seg.append hpre' (chain_cons_iff.mpr ⟨rfl, v, Heap.get?_set_self hy v, ?_⟩)
  rw [hv]
  exact Chain.set_of_notMem hpost hnd.2.1.1.2 v

end Chain

end Intrusive
