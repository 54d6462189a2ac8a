import Mathlib.Tactic
import Mathlib.Data.List.Nodup

/-! A key-value service, by what its answers are after a history of commands. -/

namespace Reference
variable {K V : Type*} [DecidableEq K]

inductive Command (K V : Type*)
  | get (k : K)
  | set (k : K) (v : V)
  | del (k : K)
  | keys
  | unknown

inductive Answer (K V : Type*)
  | nil
  | value (v : V)
  | removed (present : Bool)
  | keys (ks : List K)
  | unknown

/-- The value of the latest `set` of `k` that no `del` of `k` follows. The history
lists the most recent command first. -/
def latest (k : K) : List (Command K V) → Option V
  | [] => none
  | .set k' v :: past => if k' = k then some v else latest k past
  | .del k' :: past => if k' = k then none else latest k past
  | .get _ :: past | .keys :: past | .unknown :: past => latest k past

def live : List (Command K V) → List K
  | [] => []
  | .set k _ :: past => if k ∈ live past then live past else k :: live past
  | .del k :: past => (live past).filter (· ≠ k)
  | .get _ :: past | .keys :: past | .unknown :: past => live past

theorem mem_live {k : K} {past : List (Command K V)} : k ∈ live past ↔ (latest k past).isSome := by
  induction past with
  | nil => simp [live, latest]
  | cons c past ih =>
    cases c with
    | set k' v =>
      unfold live latest
      split_ifs with hmem hk hk
      · exact iff_of_true (hk ▸ hmem) rfl
      · exact ih
      · exact iff_of_true (by simp [hk]) rfl
      · rw [List.mem_cons, ih]
        exact or_iff_right (Ne.symm hk)
    | del k' =>
      unfold live latest
      rw [List.mem_filter, ih, decide_eq_true_iff]
      split_ifs with hk
      · exact iff_of_false (fun h => h.2 hk.symm) (by simp)
      · exact and_iff_left (Ne.symm hk)
    | get _ | keys | unknown => exact ih

theorem nodup_live (past : List (Command K V)) : (live past).Nodup := by
  induction past with
  | nil => exact List.nodup_nil
  | cons c past ih =>
    cases c with
    | set k v =>
      unfold live
      split_ifs with hmem
      · exact ih
      · exact List.nodup_cons.mpr ⟨hmem, ih⟩
    | del k => exact ih.filter _
    | get _ | keys | unknown => exact ih

/-- The answers a command may get after a history; only the order of `keys` is left open. -/
inductive Answers (past : List (Command K V)) : Command K V → Answer K V → Prop
  | get {k : K} : Answers past (.get k) ((latest k past).elim .nil .value)
  | set {k : K} {v : V} : Answers past (.set k v) .nil
  | del {k : K} : Answers past (.del k) (.removed (latest k past).isSome)
  | keys {ks : List K} : ks.Nodup → (∀ k, k ∈ ks ↔ (latest k past).isSome) →
      Answers past .keys (.keys ks)
  | unknown : Answers past .unknown .unknown

theorem Answers.latest_of_value {past : List (Command K V)} {c : Command K V} {v : V}
    (h : Answers past c (.value v)) : ∃ k, latest k past = some v := by
  generalize ha : Answer.value v = a at h
  cases h with
  | @get k =>
    refine ⟨k, ?_⟩
    cases hv : latest k past with
    | none => simp [hv] at ha
    | some u => simpa [hv, eq_comm] using ha
  | set | del | keys _ _ | unknown => cases ha

/-- Each command of a sequence gets an answer that fits the history before it. -/
inductive Served : List (Command K V) → List (Command K V) → List (Answer K V) → Prop
  | nil {past : List (Command K V)} : Served past [] []
  | cons {past cs : List (Command K V)} {c : Command K V}
      {a : Answer K V} {as : List (Answer K V)} :
      Answers past c a → Served (c :: past) cs as → Served past (c :: cs) (a :: as)

end Reference
