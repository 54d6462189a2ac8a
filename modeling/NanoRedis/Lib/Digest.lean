import Mathlib.Data.Fintype.Pigeonhole
import Mathlib.Data.Fintype.EquivFin
import Mathlib.Data.Set.Finite.Basic

/-! Digests that take a message letter by letter, and their collisions. -/

namespace Digest
open Function
variable {σ α : Type*} (step : σ → α → σ)

def digest (s : σ) (as : List α) : σ := as.foldl step s

theorem digest_append (s : σ) (as bs : List α) :
    digest step s (as ++ bs) = digest step (digest step s as) bs := List.foldl_append

variable {step}

theorem digest_injective (hstep : ∀ a, Injective fun s => step s a) (as : List α) :
    Injective fun s => digest step s as := by
  induction as with
  | nil => exact injective_id
  | cons a as ih => exact ih.comp (hstep a)

theorem digest_append_iff (hstep : ∀ a, Injective fun s => step s a) (s : σ) (as bs cs : List α) :
    digest step s (as ++ cs) = digest step s (bs ++ cs) ↔ digest step s as = digest step s bs := by
  rw [digest_append, digest_append]
  exact (digest_injective hstep cs).eq_iff

theorem digest_change_iff (hstep : ∀ a, Injective fun s => step s a)
    (hletter : ∀ s, Injective (step s)) (s : σ) (as bs : List α) (a b : α) :
    digest step s (as ++ a :: bs) = digest step s (as ++ b :: bs) ↔ a = b := by
  rw [digest_append, digest_append]
  exact ((digest_injective hstep bs).eq_iff (a := step _ a) (b := step _ b)).trans
    (hletter _).eq_iff

theorem exists_infinite [Finite σ] [Nonempty α] (step : σ → α → σ) (s : σ) :
    ∃ t, {as | digest step s as = t}.Infinite := by
  obtain ⟨t, ht⟩ := Finite.exists_infinite_fiber (digest step s)
  exact ⟨t, Set.infinite_coe_iff.mp ht⟩

theorem infinite_step {s t : σ} (h : {as | digest step s as = t}.Infinite) (a : α) :
    {as | digest step s as = step t a}.Infinite := by
  apply (h.image (List.append_left_injective [a]).injOn).mono
  rintro _ ⟨as, rfl, rfl⟩
  exact digest_append step s as [a]

end Digest
