import NanoRedis.Lib.Exec

/-! Programs that log the states they pass through, and the programs that are left
when the log is forgotten. -/

namespace Exec
variable {ε σ κ α β : Type}

structure Transition (σ κ : Type) where
  mark : κ
  before : σ
  after : σ

abbrev Traced (ε σ κ α : Type) := EStateM ε (σ × List (Transition σ κ)) α

def silent (m : EStateM ε σ α) : Traced ε σ κ α := fun r =>
  match m r.1 with
  | .ok a s' => .ok a (s', r.2)
  | .error e s' => .error e (s', r.2)

def logged (k : κ) (t : Traced ε σ κ α) : Traced ε σ κ α := fun r =>
  match t r with
  | .ok a r' => .ok a (r'.1, r'.2 ++ [⟨k, r.1, r'.1⟩])
  | .error e r' => .error e (r'.1, r'.2 ++ [⟨k, r.1, r'.1⟩])

section Rules
variable {s : σ} {log : List (Transition σ κ)}

@[simp] theorem wp_silent {m : EStateM ε σ α} {Q : α → σ × List (Transition σ κ) → Prop}
    {E : ε → σ × List (Transition σ κ) → Prop} :
    wp (silent m) Q E (s, log) ↔
      wp m (fun a s' => Q a (s', log)) (fun e s' => E e (s', log)) s := by
  cases hm : m s <;> simp only [wp, silent, hm]

@[simp] theorem wp_logged {k : κ} {t : Traced ε σ κ α} {Q : α → σ × List (Transition σ κ) → Prop}
    {E : ε → σ × List (Transition σ κ) → Prop} :
    wp (logged k t) Q E (s, log) ↔
      wp t (fun a r => Q a (r.1, r.2 ++ [⟨k, s, r.1⟩]))
        (fun e r => E e (r.1, r.2 ++ [⟨k, s, r.1⟩])) (s, log) := by
  cases ht : t (s, log) <;> simp only [wp, logged, ht]

end Rules

/-- `t` is `m` with a log: whatever is in it so far, both end alike. -/
def Traces (t : Traced ε σ κ α) (m : EStateM ε σ α) : Prop :=
  ∀ s log, wp t (fun a r => m s = .ok a r.1) (fun e r => m s = .error e r.1) (s, log)

namespace Traces
variable {t : Traced ε σ κ α} {m : EStateM ε σ α}

theorem wp_of {Q : α → σ → Prop} {E : ε → σ → Prop} {s : σ} (h : Traces t m) (hm : wp m Q E s)
    (log : List (Transition σ κ)) :
    wp t (fun a r => Q a r.1) (fun e r => E e r.1) (s, log) :=
  wp_mono (h s log) (fun _ _ hok => wp_of_ok hm hok) fun _ _ herr => wp_of_error hm herr

theorem pure (a : α) : Traces (Pure.pure a : Traced ε σ κ α) (Pure.pure a) := fun _ _ => rfl

theorem silent (m : EStateM ε σ α) : Traces (Exec.silent m : Traced ε σ κ α) m := by
  intro s log
  rw [wp_silent]
  cases hm : m s <;> simp only [wp, hm]

theorem logged (h : Traces t m) (k : κ) : Traces (Exec.logged k t) m := fun s log =>
  wp_logged.mpr (h s log)

theorem bind {u : β → Traced ε σ κ α} {f : β → EStateM ε σ α} {t : Traced ε σ κ β}
    {m : EStateM ε σ β} (h : Traces t m) (hf : ∀ b, Traces (u b) (f b)) :
    Traces (t >>= u) (m >>= f) := by
  intro s log
  rw [wp_bind]
  refine wp_mono (h s log) (fun b r hb => ?_) fun e r he => ?_
  · have hrest : (m >>= f) s = f b r.1 := by
      change EStateM.bind m f s = _
      rw [EStateM.bind, hb]
    rw [hrest]
    exact hf b r.1 r.2
  · change EStateM.bind m f s = _
    rw [EStateM.bind, he]

theorem ite {c : Prop} [Decidable c] {t' : Traced ε σ κ α} {m' : EStateM ε σ α} (h : Traces t m)
    (h' : Traces t' m') : Traces (if c then t else t') (if c then m else m') := by
  split_ifs
  · exact h
  · exact h'

theorem repeatWhile {out : Traced ε σ κ Unit} {out' : EStateM ε σ Unit} {t : Traced ε σ κ Bool}
    {m : EStateM ε σ Bool} (hout : Traces out out') (h : Traces t m) (fuel : Nat) :
    Traces (Exec.repeatWhile out t fuel) (Exec.repeatWhile out' m fuel) := by
  induction fuel with
  | zero => exact hout
  | succ fuel ih => exact h.bind fun _ => ite ih (pure ())

end Traces

end Exec
