import Mathlib.Tactic

/-! Finite runs of a deterministic step function that may fail, and the rules
that lift a fact about one step to the whole run. -/

namespace Run
variable {σ α ε : Type*} (step : σ → α → Except ε σ)

def run : σ → List α → Except ε σ
  | s, [] => .ok s
  | s, a :: as =>
    match step s a with
    | .ok s' => run s' as
    | .error e => .error e

/-- `P` holds at every step the run takes, a failing last one included. -/
def AllSteps (P : σ → α → Prop) : σ → List α → Prop
  | _, [] => True
  | s, a :: as => P s a ∧
    match step s a with
    | .ok s' => AllSteps P s' as
    | .error _ => True

instance AllSteps.decidable (P : σ → α → Prop) [∀ s a, Decidable (P s a)] :
    ∀ s as, Decidable (AllSteps step P s as)
  | _, [] => isTrue trivial
  | s, a :: as =>
    match h : step s a with
    | .ok s' =>
      have := AllSteps.decidable P s' as
      decidable_of_iff (P s a ∧ AllSteps step P s' as) (by simp only [AllSteps, h])
    | .error _ => decidable_of_iff (P s a) (by simp only [AllSteps, h, and_true])

/-- What the steps of a run yield, a failing last one included. -/
def collect {β : Type*} (yield : σ → α → List β) : σ → List α → List β
  | _, [] => []
  | s, a :: as => yield s a ++
    match step s a with
    | .ok s' => collect yield s' as
    | .error _ => []

/-- A run completes, in a state that passes the test. -/
def passes (test : σ → Bool) : Except ε σ → Bool
  | .ok s => test s
  | .error _ => false

/-- A run fails, with an error that passes the test. -/
def fails (test : ε → Bool) : Except ε σ → Bool
  | .ok _ => false
  | .error e => test e

variable {step}

theorem exists_of_passes {test : σ → Bool} {x : Except ε σ} (h : passes test x = true) :
    ∃ s, x = .ok s ∧ test s = true := by
  cases x with
  | ok s => exact ⟨s, rfl, h⟩
  | error e => cases h

theorem exists_of_fails {test : ε → Bool} {x : Except ε σ} (h : fails test x = true) :
    ∃ e, x = .error e ∧ test e = true := by
  cases x with
  | ok s => cases h
  | error e => exact ⟨e, rfl, h⟩

theorem AllSteps.of_forall {P : σ → α → Prop} (h : ∀ s a, P s a) (s : σ) (as : List α) :
    AllSteps step P s as := by
  induction as generalizing s with
  | nil => trivial
  | cons a as ih =>
    refine ⟨h s a, ?_⟩
    cases step s a with
    | error e => trivial
    | ok t => exact ih t

theorem allSteps_of_inv {I : σ → Prop} {P Q : σ → α → Prop}
    (hstep : ∀ s a, I s → P s a → Q s a ∧ ∀ s', step s a = .ok s' → I s') {s : σ} {as : List α}
    (hs : I s) (hP : AllSteps step P s as) : AllSteps step Q s as := by
  induction as generalizing s with
  | nil => trivial
  | cons a as ih =>
    obtain ⟨hQ, hinv⟩ := hstep s a hs hP.1
    refine ⟨hQ, ?_⟩
    cases hsa : step s a with
    | error e => trivial
    | ok t =>
      have hrest := hP.2
      rw [hsa] at hrest
      exact ih (hinv t hsa) hrest

theorem inv_of_allSteps {I : σ → Prop} {P : σ → α → Prop}
    (hstep : ∀ s a s', I s → P s a → step s a = .ok s' → I s') {s s' : σ} {as : List α} (hs : I s)
    (hP : AllSteps step P s as) (hrun : run step s as = .ok s') : I s' := by
  induction as generalizing s with
  | nil =>
    obtain rfl : s = s' := by simpa [run] using hrun
    exact hs
  | cons a as ih =>
    cases hsa : step s a with
    | error e => simp [run, hsa] at hrun
    | ok t =>
      simp only [run, hsa] at hrun
      simp only [AllSteps, hsa] at hP
      exact ih (hstep s a t hs hP.1 hsa) hP.2 hrun

theorem inv_of_run {I : σ → Prop} (hstep : ∀ s a s', I s → step s a = .ok s' → I s') {s s' : σ}
    {as : List α} (hs : I s) (hrun : run step s as = .ok s') : I s' :=
  inv_of_allSteps (P := fun _ _ => True) (fun s a s' hs _ => hstep s a s' hs) hs
    (AllSteps.of_forall (fun _ _ => trivial) s as) hrun

theorem AllSteps.of_append {P : σ → α → Prop} {s : σ} {as bs : List α}
    (h : AllSteps step P s (as ++ bs)) : AllSteps step P s as := by
  induction as generalizing s with
  | nil => trivial
  | cons a as ih =>
    refine ⟨h.1, ?_⟩
    have hrest := h.2
    cases hsa : step s a with
    | error e => trivial
    | ok t =>
      rw [hsa] at hrest
      exact ih hrest

theorem run_append {s t : σ} {as : List α} (bs : List α) (h : run step s as = .ok t) :
    run step s (as ++ bs) = run step t bs := by
  induction as generalizing s with
  | nil =>
    obtain rfl : s = t := by simpa [run] using h
    rfl
  | cons a as ih =>
    cases hsa : step s a with
    | error e => simp [run, hsa] at h
    | ok u =>
      simp only [run, hsa] at h
      simp only [List.cons_append, run, hsa]
      exact ih h

theorem run_snoc {s t : σ} {as : List α} {a : α} (h : run step s (as ++ [a]) = .ok t) :
    ∃ u, run step s as = .ok u ∧ step u a = .ok t := by
  induction as generalizing s with
  | nil =>
    cases hsa : step s a with
    | error e => simp [run, hsa] at h
    | ok u => exact ⟨s, rfl, hsa.trans (by simpa [run, hsa] using h)⟩
  | cons b as ih =>
    simp only [List.cons_append, run] at h ⊢
    cases hsb : step s b with
    | error e => simp [hsb] at h
    | ok u =>
      simp only [hsb] at h ⊢
      exact ih h

theorem AllSteps.rest {P : σ → α → Prop} {s t : σ} {as bs : List α}
    (h : AllSteps step P s (as ++ bs)) (hrun : run step s as = .ok t) :
    AllSteps step P t bs := by
  induction as generalizing s with
  | nil =>
    obtain rfl : s = t := by simpa [run] using hrun
    exact h
  | cons a as ih =>
    cases hsa : step s a with
    | error e => simp [run, hsa] at hrun
    | ok u =>
      simp only [run, hsa] at hrun
      simp only [List.cons_append, AllSteps, hsa] at h
      exact ih h.2 hrun

theorem nodup_collect {β : Type*} {yield : σ → α → List β} {M : σ → β → Prop}
    (hnodup : ∀ s a, (yield s a).Nodup) (hmay : ∀ s a, ∀ b ∈ yield s a, M s b)
    (hspent : ∀ s a s', step s a = .ok s' → ∀ b ∈ yield s a, ¬ M s' b)
    (hback : ∀ s a s', step s a = .ok s' → ∀ b, M s' b → M s b) (s : σ) (as : List α) :
    (collect step yield s as).Nodup ∧ ∀ b ∈ collect step yield s as, M s b := by
  induction as generalizing s with
  | nil => exact ⟨List.nodup_nil, by simp [collect]⟩
  | cons a as ih =>
    cases hsa : step s a with
    | error e =>
      simp only [collect, hsa, List.append_nil]
      exact ⟨hnodup s a, hmay s a⟩
    | ok t =>
      obtain ⟨hnd, hall⟩ := ih t
      simp only [collect, hsa]
      refine ⟨List.nodup_append.mpr ⟨hnodup s a, hnd, ?_⟩, fun b hb => ?_⟩
      · rintro b hb b' hb' rfl
        exact hspent s a t hsa b hb (hall b hb')
      · rcases List.mem_append.mp hb with hb | hb
        · exact hmay s a b hb
        · exact hback s a t hsa b (hall b hb)

theorem allSteps_iff_forall {I : σ → Prop} {A P : σ → α → Prop} {Q : α → Prop}
    (hgood : ∀ s a, I s → A s a → Q a → P s a ∧ ∃ s', step s a = .ok s' ∧ I s')
    (hbad : ∀ s a, I s → A s a → ¬ Q a → ¬ P s a) {s : σ} {as : List α} (hs : I s)
    (hA : AllSteps step A s as) :
    AllSteps step P s as ↔ ∀ a ∈ as, Q a := by
  induction as generalizing s with
  | nil => simp [AllSteps]
  | cons a as ih =>
    rw [List.forall_mem_cons]
    by_cases hQ : Q a
    · obtain ⟨hP, s', hsa, hs'⟩ := hgood s a hs hA.1 hQ
      have hrest := hA.2
      rw [hsa] at hrest
      simp only [AllSteps, hsa, hP, hQ, true_and]
      exact ih hs' hrest
    · exact iff_of_false (fun hP => hbad s a hs hA.1 hQ hP.1) fun h => hQ h.1

theorem error_of_allSteps {I : σ → Prop} {P : σ → α → Prop} {B : ε → Prop}
    (hstep : ∀ s a s', I s → P s a → step s a = .ok s' → I s')
    (hbad : ∀ s a e, I s → P s a → step s a = .error e → B e) {s : σ} {as : List α} {e : ε}
    (hs : I s) (hP : AllSteps step P s as) (hrun : run step s as = .error e) : B e := by
  induction as generalizing s with
  | nil => simp [run] at hrun
  | cons a as ih =>
    cases hsa : step s a with
    | error e' =>
      obtain rfl : e' = e := by simpa [run, hsa] using hrun
      exact hbad s a _ hs hP.1 hsa
    | ok t =>
      simp only [run, hsa] at hrun
      simp only [AllSteps, hsa] at hP
      exact ih (hstep s a t hs hP.1 hsa) hP.2 hrun

theorem error_of_run {I : σ → Prop} {B : ε → Prop}
    (hstep : ∀ s a s', I s → step s a = .ok s' → I s')
    (hbad : ∀ s a e, I s → step s a = .error e → B e) {s : σ} {as : List α} {e : ε} (hs : I s)
    (hrun : run step s as = .error e) : B e :=
  error_of_allSteps (P := fun _ _ => True) (fun s a s' hs _ => hstep s a s' hs)
    (fun s a e hs _ => hbad s a e hs) hs (AllSteps.of_forall (fun _ _ => trivial) s as) hrun

theorem run_ok_iff {I : σ → Prop} {P Q : σ → α → Prop}
    (hstep : ∀ s a s', I s → P s a → step s a = .ok s' → I s')
    (hok : ∀ s a, I s → P s a → ((∃ s', step s a = .ok s') ↔ Q s a))
    {s : σ} {as : List α} (hs : I s) (hP : AllSteps step P s as) :
    (∃ s', run step s as = .ok s') ↔ AllSteps step Q s as := by
  induction as generalizing s with
  | nil => exact ⟨fun _ => trivial, fun _ => ⟨s, rfl⟩⟩
  | cons a as ih =>
    have hiff := hok s a hs hP.1
    cases hsa : step s a with
    | error e =>
      have hQ : ¬ Q s a := by
        rw [← hiff, hsa]
        simp
      simp [run, AllSteps, hsa, hQ]
    | ok t =>
      have hQ : Q s a := hiff.mp ⟨t, hsa⟩
      simp only [AllSteps, hsa] at hP
      simp only [run, AllSteps, hsa, hQ, true_and]
      exact ih (hstep s a t hs hP.1 hsa) hP.2

end Run
