import NanoRedis.Lib.Run

/-! Simulation of the runs of `Lib/Run` by an abstract machine: every step of the
implementation yields labels, which the machine takes one after the other. -/

namespace Simulation
variable {σ α ε τ β : Type*}

inductive Path (next : τ → β → τ → Prop) : τ → List β → τ → Prop
  | nil {t : τ} : Path next t [] t
  | cons {t t' t'' : τ} {b : β} {bs : List β} :
      next t b t' → Path next t' bs t'' → Path next t (b :: bs) t''

variable {next : τ → β → τ → Prop}

theorem Path.append {t t' t'' : τ} {bs cs : List β} (hbs : Path next t bs t')
    (hcs : Path next t' cs t'') : Path next t (bs ++ cs) t'' := by
  induction hbs with
  | nil => exact hcs
  | cons hb _ ih => exact .cons hb (ih hcs)

theorem Path.split {t t'' : τ} {bs cs : List β} (h : Path next t (bs ++ cs) t'') :
    ∃ t', Path next t bs t' ∧ Path next t' cs t'' := by
  induction bs generalizing t with
  | nil => exact ⟨t, .nil, h⟩
  | cons b bs ih =>
    cases h with
    | cons hb hrest =>
      obtain ⟨t', hbs, hcs⟩ := ih hrest
      exact ⟨t', .cons hb hbs, hcs⟩

variable {step : σ → α → Except ε σ} {yield : σ → α → List β} {R : σ → τ → Prop}
  {A : σ → α → Prop}

theorem path_of_run
    (hstep : ∀ s a s' t, R s t → A s a → step s a = .ok s' →
      ∃ t', Path next t (yield s a) t' ∧ R s' t')
    {s s' : σ} {t : τ} {as : List α} (h : R s t) (hA : Run.AllSteps step A s as)
    (hrun : Run.run step s as = .ok s') :
    ∃ t', Path next t (Run.collect step yield s as) t' ∧ R s' t' := by
  induction as generalizing s t with
  | nil =>
    obtain rfl : s = s' := by simpa [Run.run] using hrun
    exact ⟨t, .nil, h⟩
  | cons a as ih =>
    cases hsa : step s a with
    | error e => simp [Run.run, hsa] at hrun
    | ok u =>
      simp only [Run.run, hsa] at hrun
      simp only [Run.AllSteps, hsa] at hA
      obtain ⟨t₁, hpath, hR⟩ := hstep s a u t h hA.1 hsa
      obtain ⟨t', hrest, hR'⟩ := ih hR hA.2 hrun
      refine ⟨t', ?_, hR'⟩
      simp only [Run.collect, hsa]
      exact hpath.append hrest

end Simulation
