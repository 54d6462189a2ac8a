import NanoRedis.ZSet.Defs
import Mathlib.Data.Set.Function

/-! The order of the tree. `zless` breaks ties between scores by a C string comparison of
names that are stored by length, without a terminator. -/

namespace NanoRedis
open Intrusive Wire

/-- The names differ at a position of both, and have no common NUL before it. -/
def Differ (a b : Bytes) : Prop :=
  ∃ pre x y as bs, a = pre ++ x :: as ∧ b = pre ++ y :: bs ∧ x ≠ y ∧ 0 ∉ pre

theorem Differ.cons {a b : Bytes} {c : UInt8} (hc : c ≠ 0) (h : Differ a b) :
    Differ (c :: a) (c :: b) := by
  obtain ⟨pre, x, y, as, bs, rfl, rfl, hne, hpre⟩ := h
  exact ⟨c :: pre, x, y, as, bs, rfl, rfl, hne, by simp [hpre, hc.symm]⟩

theorem append_cons_lt_iff (pre : Bytes) {x y : UInt8} (hne : x ≠ y) (as bs : Bytes) :
    pre ++ x :: as < pre ++ y :: bs ↔ x < y := by
  induction pre with
  | nil => simp [List.cons_lt_cons_iff, hne]
  | cons c pre ih => simpa [List.cons_lt_cons_iff] using ih

theorem Differ.lt_iff {a b : Bytes} (h : Differ a b) : a < b ↔ ¬ b < a := by
  obtain ⟨pre, x, y, as, bs, rfl, rfl, hne, -⟩ := h
  rw [append_cons_lt_iff pre hne, append_cons_lt_iff pre hne.symm, UInt8.not_lt]
  exact ⟨UInt8.le_of_lt, fun hle => UInt8.lt_of_le_of_ne hle hne⟩

theorem strcmpLt_of_differ {a b : Bytes} (h : Differ a b) :
    strcmpLt a b = .ok (decide (a < b)) := by
  obtain ⟨pre, x, y, as, bs, rfl, rfl, hne, hpre⟩ := h
  simp only [append_cons_lt_iff pre hne]
  induction pre with
  | nil => simp [strcmpLt, hne]
  | cons c pre ih =>
    simp only [List.mem_cons, not_or] at hpre
    simpa [strcmpLt, Ne.symm hpre.1] using ih hpre.2

theorem differ_of_strcmpLt {a b : Bytes} {r s : Bool} (hab : strcmpLt a b = .ok r)
    (hba : strcmpLt b a = .ok s) (hne : r ≠ s) : Differ a b := by
  induction a generalizing b with
  | nil => simp [strcmpLt] at hab
  | cons x as ih =>
    cases b with
    | nil => simp [strcmpLt] at hab
    | cons y bs =>
      by_cases hxy : x = y
      · subst hxy
        by_cases hx : x = 0
        · have hr : false = r := by simpa [strcmpLt, hx] using hab
          have hs : false = s := by simpa [strcmpLt, hx] using hba
          exact absurd (hr.symm.trans hs) hne
        · have hab' : strcmpLt as bs = .ok r := by simpa [strcmpLt, hx] using hab
          have hba' : strcmpLt bs as = .ok s := by simpa [strcmpLt, hx] using hba
          exact (ih hab' hba').cons hx
      · exact ⟨[], x, y, as, bs, rfl, rfl, hxy, by simp⟩

section Members
variable {σ : Type}

def ZMem.Member (mem : ZMem σ) (a : Nat) (p : σ × Bytes) : Prop :=
  mem.objects a = some (.znode p.1 p.2.length p.2)

variable [LinearOrder σ]

/-- What `zless` says about two members depends on them alone, in every memory that
stores them, and `less` is a strict total order. -/
structure StrictTotal (members : Set (σ × Bytes)) (less : σ × Bytes → σ × Bytes → Bool) :
    Prop where
  determined : ∀ (mem : ZMem σ) a b, ∀ p ∈ members, ∀ q ∈ members, p ≠ q →
    mem.Member a p → mem.Member b q → zless mem a b = .ok (less p q)
  total : ∀ p ∈ members, ∀ q ∈ members, p ≠ q → (less p q = true ↔ less q p = false)
  trans : ∀ p ∈ members, ∀ q ∈ members, ∀ r ∈ members, p ≠ q → q ≠ r →
    less p q = true → less q r = true → p ≠ r ∧ less p r = true

def Before (p q : σ × Bytes) : Prop := p.1 < q.1 ∨ p.1 = q.1 ∧ p.2 < q.2

instance Before.decidable (p q : σ × Bytes) : Decidable (Before p q) :=
  inferInstanceAs (Decidable (_ ∨ _))

theorem Before.trans {p q r : σ × Bytes} (hpq : Before p q) (hqr : Before q r) : Before p r := by
  rcases hpq with hlt | ⟨heq, hlt⟩ <;> rcases hqr with hlt' | ⟨heq', hlt'⟩
  · exact .inl (hlt.trans hlt')
  · exact .inl (heq' ▸ hlt)
  · exact .inl (heq ▸ hlt')
  · exact .inr ⟨heq.trans heq', List.lt_trans hlt hlt'⟩

theorem Before.irrefl (p : σ × Bytes) : ¬ Before p p := by
  rintro (hlt | ⟨-, hlt⟩)
  · exact lt_irrefl _ hlt
  · exact List.lt_irrefl _ hlt

theorem before_iff_not {p q : σ × Bytes} (h : p.1 = q.1 → Differ p.2 q.2) :
    Before p q ↔ ¬ Before q p := by
  by_cases heq : p.1 = q.1
  · simp [Before, heq, (h heq).lt_iff]
  · simp only [Before, heq, Ne.symm heq, false_and, or_false, not_lt]
    exact ⟨le_of_lt, fun hle => lt_of_le_of_ne hle heq⟩

theorem zless_eq {mem : ZMem σ} {a b : Nat} {p q : σ × Bytes} (hp : mem.Member a p)
    (hq : mem.Member b q) :
    zless mem a b = if p.1 ≠ q.1 then .ok (decide (p.1 < q.1)) else strcmpLt p.2 q.2 := by
  simp only [ZMem.Member] at hp hq
  simp only [zless, ZMem.znode, hp, hq, ok_bind, pure_eq_ok]

theorem zless_before {mem : ZMem σ} {a b : Nat} {p q : σ × Bytes} (hp : mem.Member a p)
    (hq : mem.Member b q) (h : p.1 = q.1 → Differ p.2 q.2) :
    zless mem a b = .ok (decide (Before p q)) := by
  rw [zless_eq hp hq]
  by_cases heq : p.1 = q.1
  · simp [Before, heq, strcmpLt_of_differ (h heq)]
  · simp [Before, heq]

/-- `zless` orders a set of members exactly when names differ, before any common NUL,
wherever scores are equal. -/
theorem zless_strictTotal_iff (members : Set (σ × Bytes)) :
    (∃ less, StrictTotal members less) ↔
      ∀ p ∈ members, ∀ q ∈ members, p ≠ q → p.1 = q.1 → Differ p.2 q.2 := by
  constructor
  · rintro ⟨less, h⟩ p hp q hq hne heq
    let mem : ZMem σ :=
      { objects := fun x => some (if x = 0 then .znode p.1 p.2.length p.2
          else .znode q.1 q.2.length q.2) }
    have hmp : mem.Member 0 p := rfl
    have hmq : mem.Member 1 q := rfl
    have hpq := h.determined mem 0 1 p hp q hq hne hmp hmq
    have hqp := h.determined mem 1 0 q hq p hp hne.symm hmq hmp
    rw [zless_eq hmp hmq, if_neg (not_not.mpr heq)] at hpq
    rw [zless_eq hmq hmp, if_neg (not_not.mpr heq.symm)] at hqp
    apply differ_of_strcmpLt hpq hqp
    intro hsame
    have htotal := h.total p hp q hq hne
    rw [hsame] at htotal
    simp at htotal
  · intro h
    refine ⟨fun p q => decide (Before p q), ⟨fun mem a b p hp q hq hne hmp hmq =>
      zless_before hmp hmq (h p hp q hq hne), fun p hp q hq hne => ?_,
      fun p hp q hq r hr _ _ hpq hqr => ?_⟩⟩
    · simpa using before_iff_not (h p hp q hq hne)
    · have hpr : Before p r := (of_decide_eq_true hpq).trans (of_decide_eq_true hqr)
      refine ⟨?_, decide_eq_true hpr⟩
      rintro rfl
      exact Before.irrefl p hpr

/-- Names that differ only behind a common NUL, and a name that is a prefix of the other. -/
theorem zless_not_total :
    (∃ (mem mem' : ZMem ℤ) (a b : Nat), znodeNew {} [97, 0, 98] 3 0 = .ok (a, mem) ∧
      znodeNew mem [97, 0, 99] 3 0 = .ok (b, mem') ∧ zless mem' a b = .ok false ∧
      zless mem' b a = .ok false) ∧
    (∃ (mem mem' : ZMem ℤ) (a b : Nat), znodeNew {} [97] 1 0 = .ok (a, mem) ∧
      znodeNew mem [97, 98] 2 0 = .ok (b, mem') ∧ zless mem' a b = .error .outOfBounds) ∧
    Set.InjOn Prod.snd {((0 : ℤ), ([97, 0, 98] : Bytes)), (0, [97, 0, 99])} ∧
    ¬ ∃ less, StrictTotal {((0 : ℤ), ([97, 0, 98] : Bytes)), (0, [97, 0, 99])} less := by
  refine ⟨⟨_, _, _, _, rfl, rfl, rfl, rfl⟩, ⟨_, _, _, _, rfl, rfl, rfl⟩, ?_, ?_⟩
  · rintro p (rfl | rfl) q (rfl | rfl) hpq
    · rfl
    · cases hpq
    · cases hpq
    · rfl
  · rintro ⟨less, h⟩
    let mem : ZMem ℤ :=
      { objects := fun x => some (.znode 0 3 (if x = 0 then [97, 0, 98] else [97, 0, 99])) }
    have hab := h.determined mem 0 1 _ (.inl rfl) _ (.inr rfl) (by decide) rfl rfl
    have hba := h.determined mem 1 0 _ (.inr rfl) _ (.inl rfl) (by decide) rfl rfl
    have htotal := h.total _ (.inl rfl) _ (.inr rfl) (by decide)
    rw [← Except.ok.inj hab, ← Except.ok.inj hba] at htotal
    exact absurd (htotal.mpr rfl) (by decide)

end Members

end NanoRedis
