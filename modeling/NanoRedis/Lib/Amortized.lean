import NanoRedis.Lib.Run

/-! The cost of a run by the potential method: a step may cost more than its credit as
far as it lowers the potential. -/

namespace Amortized
variable {σ α ε : Type*}

def total (step : σ → α → Except ε σ) (cost : σ → α → ℕ) (s : σ) (as : List α) : ℕ :=
  (Run.collect step (fun s a => [cost s a]) s as).sum

variable {step : σ → α → Except ε σ} {cost : σ → α → ℕ} {A : σ → α → Prop} {I : σ → Prop}

theorem total_cons_ok {s s' : σ} {a : α} (as : List α) (h : step s a = .ok s') :
    total step cost s (a :: as) = cost s a + total step cost s' as := by
  simp [total, Run.collect, h]

theorem total_cons_error {s : σ} {a : α} {e : ε} (as : List α) (h : step s a = .error e) :
    total step cost s (a :: as) = cost s a := by
  simp [total, Run.collect, h]

theorem total_le {credit : α → ℕ} {Φ : σ → ℕ}
    (hinv : ∀ s a s', I s → A s a → step s a = .ok s' → I s')
    (hstep : ∀ s a s', I s → A s a → step s a = .ok s' → cost s a + Φ s' ≤ Φ s + credit a)
    (hlast : ∀ s a e, I s → A s a → step s a = .error e → cost s a ≤ Φ s + credit a)
    {s : σ} {as : List α} (hs : I s) (hA : Run.AllSteps step A s as) :
    total step cost s as ≤ Φ s + (as.map credit).sum := by
  induction as generalizing s with
  | nil => exact Nat.zero_le _
  | cons a as ih =>
    rw [List.map_cons, List.sum_cons]
    cases hsa : step s a with
    | error e =>
      have hcost := hlast s a e hs hA.1 hsa
      rw [total_cons_error as hsa]
      omega
    | ok s' =>
      simp only [Run.AllSteps, hsa] at hA
      have hcost := hstep s a s' hs hA.1 hsa
      have hrest := ih (hinv s a s' hs hA.1 hsa) hA.2
      rw [total_cons_ok as hsa]
      omega

theorem total_add_eq {M : σ → ℕ}
    (hinv : ∀ s a s', I s → A s a → step s a = .ok s' → I s')
    (hstep : ∀ s a s', I s → A s a → step s a = .ok s' → cost s a + M s = M s')
    {s s' : σ} {as : List α} (hs : I s) (hA : Run.AllSteps step A s as)
    (hrun : Run.run step s as = .ok s') :
    total step cost s as + M s = M s' := by
  induction as generalizing s with
  | nil =>
    obtain rfl : s = s' := by simpa [Run.run] using hrun
    exact Nat.zero_add _
  | cons a as ih =>
    cases hsa : step s a with
    | error e => simp [Run.run, hsa] at hrun
    | ok u =>
      simp only [Run.run, hsa] at hrun
      simp only [Run.AllSteps, hsa] at hA
      have hcost := hstep s a u hs hA.1 hsa
      have hrest := ih (hinv s a u hs hA.1 hsa) hA.2 hrun
      rw [total_cons_ok as hsa]
      omega

end Amortized
