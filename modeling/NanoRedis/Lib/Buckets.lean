import Mathlib.Tactic
import Mathlib.Data.List.Perm.Basic
import Mathlib.Data.List.Forall2

/-! Lists of buckets: how replacing one bucket acts on their concatenation. -/

namespace Buckets
variable {α β : Type*}

theorem flatten_set_perm {cs : List (List α)} {i : Nat} {x : α} {xs ys : List α}
    (hi : cs[i]? = some xs) (hys : ys.Perm (x :: xs)) :
    (cs.set i ys).flatten.Perm (x :: cs.flatten) := by
  induction cs generalizing i with
  | nil => simp at hi
  | cons c cs ih =>
    cases i with
    | zero =>
      obtain rfl : c = xs := by simpa using hi
      simpa using hys.append_right cs.flatten
    | succ i =>
      have htail := ih (i := i) (by simpa using hi)
      simpa using (htail.append_left c).trans List.perm_middle

theorem flatten_perm_of_mem {cs : List (List α)} {i : Nat} {x : α} {pre post : List α}
    (hi : cs[i]? = some (pre ++ x :: post)) :
    cs.flatten.Perm (x :: (cs.set i (pre ++ post)).flatten) := by
  have hlt : i < cs.length := (List.getElem?_eq_some_iff.mp hi).1
  have hback : (cs.set i (pre ++ post)).set i (pre ++ x :: post) = cs := by
    rw [List.set_set, ← (List.getElem?_eq_some_iff.mp hi).2, List.set_getElem_self]
  have hget : (cs.set i (pre ++ post))[i]? = some (pre ++ post) := by simp [hlt]
  have hperm := flatten_set_perm hget
    (List.perm_middle : (pre ++ x :: post).Perm (x :: (pre ++ post)))
  rwa [hback] at hperm

theorem forall₂_getElem? {R : α → β → Prop} {as : List α} {bs : List β} (h : List.Forall₂ R as bs)
    {i : Nat} {a : α} (ha : as[i]? = some a) : ∃ b, bs[i]? = some b ∧ R a b := by
  induction h generalizing i with
  | nil => simp at ha
  | @cons x y as bs hxy _ ih =>
    cases i with
    | zero =>
      obtain rfl : x = a := by simpa using ha
      exact ⟨y, rfl, hxy⟩
    | succ i => simpa using ih (i := i) (by simpa using ha)

theorem forall₂_set {R : α → β → Prop} {as : List α} {bs : List β} (h : List.Forall₂ R as bs)
    (i : Nat) {a : α} {b : β} (hab : R a b) : List.Forall₂ R (as.set i a) (bs.set i b) := by
  induction h generalizing i with
  | nil => exact .nil
  | cons hxy hrest ih =>
    cases i with
    | zero => exact .cons hab hrest
    | succ i => exact .cons hxy (ih i)

theorem flatten_eq_nil_iff {cs : List (List α)} :
    cs.flatten = [] ↔ ∀ (i : Nat) (xs : List α), cs[i]? = some xs → xs = [] := by
  rw [List.flatten_eq_nil_iff]
  constructor
  · exact fun h i xs hi => h xs (List.mem_of_getElem? hi)
  · intro h xs hxs
    obtain ⟨i, hi⟩ := List.mem_iff_getElem?.mp hxs
    exact h i xs hi

theorem exists_cons_of_flatten_ne_nil {cs : List (List α)} (h : cs.flatten ≠ []) :
    ∃ (i : Nat) (x : α) (xs : List α), cs[i]? = some (x :: xs) := by
  by_contra hall
  push Not at hall
  refine h (flatten_eq_nil_iff.mpr fun i xs hi => ?_)
  cases xs with
  | nil => rfl
  | cons x xs => exact absurd hi (hall i x xs)

theorem mem_flatten_of_getElem? {cs : List (List α)} {i : Nat} {x : α} {xs : List α}
    (hi : cs[i]? = some xs) (hx : x ∈ xs) : x ∈ cs.flatten :=
  List.mem_flatten.mpr ⟨xs, List.mem_of_getElem? hi, hx⟩

theorem notMem_of_nodup_flatten {cs : List (List α)} (h : cs.flatten.Nodup) {i j : Nat}
    (hij : i ≠ j) {xs ys : List α} (hi : cs[i]? = some xs) (hj : cs[j]? = some ys) {x : α}
    (hx : x ∈ xs) : x ∉ ys := by
  have hpair := (List.nodup_flatten.mp h).2
  rw [List.pairwise_iff_getElem] at hpair
  obtain ⟨hi', rfl⟩ := List.getElem?_eq_some_iff.mp hi
  obtain ⟨hj', rfl⟩ := List.getElem?_eq_some_iff.mp hj
  rcases lt_or_gt_of_ne hij with hlt | hgt
  · exact hpair i j hi' hj' hlt hx
  · exact fun hy => hpair j i hj' hi' hgt hy hx

end Buckets
