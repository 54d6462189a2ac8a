import Mathlib.Tactic

/-! Weakest preconditions of state-passing programs whose errors keep the state
reached, and the loop that runs its body for as long as that asks for more. -/

namespace Exec
variable {ε σ α β : Type}

/-- `m` ends from `s` in a result and state that satisfy `Q`, or in an error and state
that satisfy `E`. -/
def wp (m : EStateM ε σ α) (Q : α → σ → Prop) (E : ε → σ → Prop) (s : σ) : Prop :=
  match m s with
  | .ok a s' => Q a s'
  | .error e s' => E e s'

variable {Q : α → σ → Prop} {E : ε → σ → Prop} {s : σ}

theorem wp_mono {m : EStateM ε σ α} {Q' : α → σ → Prop} {E' : ε → σ → Prop} (h : wp m Q E s)
    (hQ : ∀ a s', Q a s' → Q' a s') (hE : ∀ e s', E e s' → E' e s') : wp m Q' E' s := by
  unfold wp at h ⊢
  cases hm : m s with
  | ok a s' =>
    rw [hm] at h
    exact hQ a s' h
  | error e s' =>
    rw [hm] at h
    exact hE e s' h

theorem wp_and {m : EStateM ε σ α} {Q' : α → σ → Prop} {E' : ε → σ → Prop} (h : wp m Q E s)
    (h' : wp m Q' E' s) : wp m (fun a t => Q a t ∧ Q' a t) (fun e t => E e t ∧ E' e t) s := by
  unfold wp at h h' ⊢
  cases hm : m s with
  | ok a s' =>
    rw [hm] at h h'
    exact ⟨h, h'⟩
  | error e s' =>
    rw [hm] at h h'
    exact ⟨h, h'⟩

theorem wp_of_ok {m : EStateM ε σ α} {a : α} {s' : σ} (h : wp m Q E s) (hm : m s = .ok a s') :
    Q a s' := by
  unfold wp at h
  rwa [hm] at h

theorem wp_of_error {m : EStateM ε σ α} {e : ε} {s' : σ} (h : wp m Q E s) (hm : m s = .error e s') :
    E e s' := by
  unfold wp at h
  rwa [hm] at h

theorem wp_of_eq_ok {m : EStateM ε σ α} {a : α} {s' : σ} (hm : m s = .ok a s') (h : Q a s') :
    wp m Q E s := by
  unfold wp
  rwa [hm]

theorem wp_of_eq_error {m : EStateM ε σ α} {e : ε} {s' : σ} (hm : m s = .error e s') (h : E e s') :
    wp m Q E s := by
  unfold wp
  rwa [hm]

theorem eq_ok_of_wp {m : EStateM ε σ α} {a : α} {s' : σ}
    (h : wp m (fun a' t => a' = a ∧ t = s') (fun _ _ => False) s) :
    m s = .ok a s' := by
  unfold wp at h
  cases hm : m s with
  | ok b t =>
    rw [hm] at h
    obtain ⟨rfl, rfl⟩ := h
    rfl
  | error e t =>
    rw [hm] at h
    exact h.elim

theorem eq_error_of_wp {m : EStateM ε σ α} {e : ε} {s' : σ}
    (h : wp m (fun _ _ => False) (fun e' t => e' = e ∧ t = s') s) :
    m s = .error e s' := by
  unfold wp at h
  cases hm : m s with
  | ok b t =>
    rw [hm] at h
    exact h.elim
  | error e' t =>
    rw [hm] at h
    obtain ⟨rfl, rfl⟩ := h
    rfl

@[simp] theorem wp_pure (a : α) : wp (pure a : EStateM ε σ α) Q E s ↔ Q a s := Iff.rfl

@[simp] theorem wp_throw (e : ε) : wp (throw e : EStateM ε σ α) Q E s ↔ E e s := Iff.rfl

@[simp] theorem wp_bind (m : EStateM ε σ β) (f : β → EStateM ε σ α) :
    wp (m >>= f) Q E s ↔ wp m (fun b => wp (f b) Q E) E s := by
  change wp (EStateM.bind m f) Q E s ↔ _
  unfold wp EStateM.bind
  cases m s <;> rfl

@[simp] theorem wp_get {Q : σ → σ → Prop} : wp (get : EStateM ε σ σ) Q E s ↔ Q s s := Iff.rfl

@[simp] theorem wp_set {Q : PUnit → σ → Prop} (s' : σ) :
    wp (set s' : EStateM ε σ PUnit) Q E s ↔ Q ⟨⟩ s' := Iff.rfl

@[simp] theorem wp_modify {Q : PUnit → σ → Prop} (f : σ → σ) :
    wp (modify f : EStateM ε σ PUnit) Q E s ↔ Q ⟨⟩ (f s) := Iff.rfl

theorem wp_ite {c : Prop} [Decidable c] {m n : EStateM ε σ α} :
    wp (if c then m else n) Q E s ↔ (c → wp m Q E s) ∧ (¬ c → wp n Q E s) := by
  by_cases hc : c <;> simp [hc]

def repeatWhile {m : Type → Type} [Monad m] (out : m Unit) (body : m Bool) : Nat → m Unit
  | 0 => out
  | fuel + 1 => do
    if ← body then repeatWhile out body fuel
    else return ()

theorem wp_repeatWhile {out : EStateM ε σ Unit} {body : EStateM ε σ Bool} {Q : Unit → σ → Prop}
    (I : σ → Prop) (measure : σ → Nat)
    (hbody : ∀ s, I s →
      wp body (fun more s' => if more then I s' ∧ measure s' < measure s else Q () s') E s)
    {fuel : Nat} (hs : I s) (hfuel : measure s < fuel) : wp (repeatWhile out body fuel) Q E s := by
  induction fuel generalizing s with
  | zero => omega
  | succ fuel ih =>
    rw [repeatWhile, wp_bind]
    refine wp_mono (hbody s hs) (fun more s' hs' => ?_) fun _ _ he => he
    cases more with
    | false => simpa using hs'
    | true =>
      have hs' : I s' ∧ measure s' < measure s := by simpa using hs'
      exact ih hs'.1 (by omega)

theorem wp_repeatWhile_inv {out : EStateM ε σ Unit} {body : EStateM ε σ Bool} {Q : Unit → σ → Prop}
    (I : σ → Prop) (hbody : ∀ s, I s → wp body (fun more s' => if more then I s' else Q () s') E s)
    (hout : ∀ s, I s → wp out Q E s) (fuel : Nat) (hs : I s) :
    wp (repeatWhile out body fuel) Q E s := by
  induction fuel generalizing s with
  | zero => exact hout s hs
  | succ fuel ih =>
    rw [repeatWhile, wp_bind]
    refine wp_mono (hbody s hs) (fun more s' hs' => ?_) fun _ _ he => he
    cases more with
    | false => simpa using hs'
    | true => exact ih (by simpa using hs')

end Exec
