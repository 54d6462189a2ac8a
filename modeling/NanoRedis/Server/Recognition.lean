import NanoRedis.Server.Requests
import NanoRedis.Store.Refinement
import Mathlib.Data.List.TakeWhile

/-! Which vectors `do_request` takes for which command, and which of them name it. -/

namespace NanoRedis
open Intrusive Wire

inductive Handler
  | keys
  | get
  | set
  | del
deriving DecidableEq

namespace Handler

def arity : Handler → Nat
  | keys => 1
  | get => 2
  | set => 3
  | del => 2

def name : Handler → Bytes
  | keys => ascii ['k', 'e', 'y', 's']
  | get => ascii ['g', 'e', 't']
  | set => ascii ['s', 'e', 't']
  | del => ascii ['d', 'e', 'l']

def run : Handler → Command → Bytes → Store → Except Fault (Bytes × Store)
  | keys => doKeys
  | get => doGet
  | set => doSet
  | del => doDel

def test (h : Handler) (cmd : Command) : Except Fault Bool :=
  if cmd.length = h.arity then do
    let word ← arg cmd 0
    return cmdIs word h.name
  else return false

theorem map_takeWhile_name (h : Handler) : (h.name.takeWhile (· ≠ 0)).map asciiLower = h.name := by
  cases h <;> decide

theorem zero_notMem_name (h : Handler) : 0 ∉ h.name := by
  cases h <;> decide

theorem name_injective : Function.Injective name := by
  intro h h' heq
  cases h <;> cases h' <;> first | rfl | exact absurd heq (by decide)

theorem test_eq (h : Handler) (cmd : Command) : h.test cmd = .ok (isCmd cmd h.arity h.name) := by
  have hpos : 0 < h.arity := by cases h <;> decide
  by_cases hlen : cmd.length = h.arity
  · cases cmd with
    | nil => exact absurd hlen hpos.ne
    | cons word cmd =>
      rw [test, if_pos hlen, isCmd, hlen, beq_self_eq_true, Bool.true_and]
      rfl
  · simp [test, isCmd, hlen]

end Handler

/-- The first element, whole, is the name of the command up to the case of its letters. -/
def Names (cmd : Command) (h : Handler) : Prop :=
  cmd.length = h.arity ∧ ∃ word, cmd[0]? = some word ∧ word.map asciiLower = h.name

/-- The first element is the name of the command, then a NUL, then anything. -/
def Trails (cmd : Command) (h : Handler) : Prop :=
  cmd.length = h.arity ∧
    ∃ word rest, cmd[0]? = some (word ++ 0 :: rest) ∧ word.map asciiLower = h.name

def Dispatches (cmd : Command) (h : Handler) : Prop :=
  ∀ out st, doRequest cmd out st = h.run cmd out st

def unknownReply (out : Bytes) : Bytes :=
  outErr out errUnknown unknownCmd

section Words
variable {word rest : Bytes} {h : Handler}

theorem asciiLower_zero : asciiLower 0 = 0 := rfl

theorem zero_notMem_of_lower (hword : word.map asciiLower = h.name) : 0 ∉ word := by
  intro hmem
  have hzero : asciiLower 0 ∈ word.map asciiLower := List.mem_map_of_mem hmem
  rw [asciiLower_zero, hword] at hzero
  exact h.zero_notMem_name hzero

theorem takeWhile_of_zero_notMem (hword : 0 ∉ word) : word.takeWhile (· ≠ 0) = word :=
  List.takeWhile_eq_self_iff.mpr fun b hb => by
    have hne : b ≠ 0 := fun heq => hword (heq ▸ hb)
    simpa using hne

theorem takeWhile_before_zero (hword : 0 ∉ word) :
    (word ++ 0 :: rest).takeWhile (· ≠ 0) = word := by
  rw [List.takeWhile_append_of_pos fun b hb => by
    have hne : b ≠ 0 := fun heq => hword (heq ▸ hb)
    simpa using hne]
  simp

theorem cmdIs_iff : cmdIs word h.name = true ↔
    word.map asciiLower = h.name ∨
      ∃ pre post, word = pre ++ 0 :: post ∧ pre.map asciiLower = h.name := by
  unfold cmdIs
  rw [strcasecmpEq, beq_iff_eq, h.map_takeWhile_name]
  constructor
  · intro hpre
    by_cases hzero : 0 ∈ word
    · obtain ⟨pre, post, rfl, hfirst⟩ := List.eq_append_cons_of_mem hzero
      rw [takeWhile_before_zero hfirst] at hpre
      exact .inr ⟨pre, post, rfl, hpre⟩
    · rw [takeWhile_of_zero_notMem hzero] at hpre
      exact .inl hpre
  · rintro (hword | ⟨pre, post, rfl, hpre⟩)
    · rw [takeWhile_of_zero_notMem (zero_notMem_of_lower hword), hword]
    · rw [takeWhile_before_zero (zero_notMem_of_lower hpre), hpre]

end Words

section Dispatch
variable {cmd : Command} {h h' : Handler} {out : Bytes} {st : Store}

theorem isCmd_iff : isCmd cmd h.arity h.name = true ↔ Names cmd h ∨ Trails cmd h := by
  unfold isCmd
  rw [Bool.and_eq_true, beq_iff_eq, Names, Trails, ← and_or_left]
  refine and_congr_right fun _ => ?_
  cases hword : cmd[0]? with
  | none => simp
  | some word => simp [cmdIs_iff]

theorem not_names_of_trails (htrails : Trails cmd h) : ¬ Names cmd h := by
  obtain ⟨-, word, rest, hword, -⟩ := htrails
  rintro ⟨-, word', hword', hname⟩
  obtain rfl : word ++ 0 :: rest = word' := Option.some.inj (hword.symm.trans hword')
  exact zero_notMem_of_lower hname (by simp)

theorem isCmd_unique (hh : isCmd cmd h.arity h.name = true)
    (hh' : isCmd cmd h'.arity h'.name = true) : h = h' := by
  simp only [isCmd, Bool.and_eq_true] at hh hh'
  apply Handler.name_injective
  cases hword : cmd[0]? with
  | none => simp [hword] at hh
  | some word =>
    simp only [hword, Option.elim_some, cmdIs, strcasecmpEq, beq_iff_eq] at hh hh'
    rw [← h.map_takeWhile_name, ← h'.map_takeWhile_name, ← hh.2, hh'.2]

theorem doRequest_eq (cmd : Command) (out : Bytes) (st : Store) : doRequest cmd out st =
    if isCmd cmd Handler.keys.arity Handler.keys.name then Handler.keys.run cmd out st
    else if isCmd cmd Handler.get.arity Handler.get.name then Handler.get.run cmd out st
    else if isCmd cmd Handler.set.arity Handler.set.name then Handler.set.run cmd out st
    else if isCmd cmd Handler.del.arity Handler.del.name then Handler.del.run cmd out st
    else .ok (unknownReply out, st) := rfl

theorem doRequest_of_isCmd (hh : isCmd cmd h.arity h.name = true) :
    doRequest cmd out st = h.run cmd out st := by
  have hother : ∀ h', h' ≠ h → ¬ isCmd cmd h'.arity h'.name = true :=
    fun h' hne hh' => hne (isCmd_unique hh' hh)
  rw [doRequest_eq]
  cases h with
  | keys => rw [if_pos hh]
  | get => rw [if_neg (hother .keys (by decide)), if_pos hh]
  | set => rw [if_neg (hother .keys (by decide)), if_neg (hother .get (by decide)), if_pos hh]
  | del =>
    rw [if_neg (hother .keys (by decide)), if_neg (hother .get (by decide)),
      if_neg (hother .set (by decide)), if_pos hh]

theorem doRequest_unknown (hnone : ∀ h : Handler, ¬ isCmd cmd h.arity h.name = true) :
    doRequest cmd out st = .ok (unknownReply out, st) := by
  rw [doRequest_eq, if_neg (hnone .keys), if_neg (hnone .get), if_neg (hnone .set),
    if_neg (hnone .del)]

def probe (r : Except Fault (Bytes × Store)) : Option (Option UInt8 × Nat) :=
  match r with
  | .ok (out, st) => some (out.head?, st.db.tb1.size + st.db.tb2.size)
  | .error _ => none

def Handler.trace : Handler → Option UInt8 × Nat
  | keys => (some serArr, 0)
  | get => (some serNil, 0)
  | set => (some serNil, 1)
  | del => (some serInt, 0)

theorem Handler.trace_injective : Function.Injective Handler.trace := by
  intro h h' heq
  cases h <;> cases h' <;> first | rfl | exact absurd heq (by decide)

theorem probe_set (w k v : Bytes) (cmd : Command) :
    probe (doSet (w :: k :: v :: cmd) [] { blocks := zeroed }) = some Handler.set.trace := by
  -- the handler's key and the new entry have the first two cells
  have hcell : ((({} : Heap HNode).alloc { hcode := strHash k }).alloc
      { hcode := strHash k }).get? 1 = some { hcode := strHash k } := rfl
  have hsmall : ¬ ({} : HMap).Doubles := by
    rintro ⟨-, hload⟩
    exact absurd hload (by decide)
  obtain ⟨⟨mem, m⟩, hrun⟩ := (hmInsert_ok_iff (stores_empty _) rfl hcell (by simp)).mpr
    fun hd => absurd hd hsmall
  obtain ⟨ys, hys, hperm, -⟩ := (stores_empty _).insert hcell (by simp) hrun
  have hsize : m.tb1.size + m.tb2.size = 1 := by rw [← hys.length_eq, hperm.length_eq]; rfl
  have hset : doSet (w :: k :: v :: cmd) [] { blocks := zeroed } =
      (hmInsert _ {} 1 >>= fun r => .ok (outNil [], Store.popKey ⟨r.1, _, r.2, _⟩ 0)) := rfl
  rw [hset, hrun, ok_bind, probe, Store.popKey, hsize]
  rfl

theorem probe_run (h : Handler) (cmd : Command) :
    (probe (h.run cmd [] { blocks := zeroed }) = none ∨
        probe (h.run cmd [] { blocks := zeroed }) = some h.trace) ∧
      (cmd.length = h.arity → probe (h.run cmd [] { blocks := zeroed }) = some h.trace) := by
  match h, cmd with
  | .keys, _ => exact ⟨.inr rfl, fun _ => rfl⟩
  | .get, [] | .get, [_] => exact ⟨.inl rfl, fun hlen => absurd hlen (by simp [Handler.arity])⟩
  | .get, _ :: _ :: _ => exact ⟨.inr rfl, fun _ => rfl⟩
  | .set, [] | .set, [_] | .set, [_, _] =>
    exact ⟨.inl rfl, fun hlen => absurd hlen (by simp [Handler.arity])⟩
  | .set, w :: k :: v :: cmd => exact ⟨.inr (probe_set w k v cmd), fun _ => probe_set w k v cmd⟩
  | .del, [] | .del, [_] => exact ⟨.inl rfl, fun hlen => absurd hlen (by simp [Handler.arity])⟩
  | .del, _ :: _ :: _ => exact ⟨.inr rfl, fun _ => rfl⟩

theorem dispatches_iff : Dispatches cmd h ↔ isCmd cmd h.arity h.name = true := by
  refine ⟨fun hdisp => ?_, fun hh out st => doRequest_of_isCmd hh⟩
  have hrun := congrArg probe (hdisp [] { blocks := zeroed })
  by_cases hnone : ∀ h' : Handler, ¬ isCmd cmd h'.arity h'.name = true
  · rw [doRequest_unknown hnone] at hrun
    -- no handler replies with an error
    rcases (probe_run h cmd).1 with hh | hh
    · rw [hh] at hrun
      cases hrun
    · rw [hh] at hrun
      cases h <;> exact absurd hrun (by decide)
  · obtain ⟨h', hh'⟩ := not_forall_not.mp hnone
    rw [doRequest_of_isCmd hh', (probe_run h' cmd).2 (length_of_isCmd hh')] at hrun
    rcases (probe_run h cmd).1 with hh | hh
    · rw [hh] at hrun
      cases hrun
    · rw [hh] at hrun
      obtain rfl : h' = h := Handler.trace_injective (Option.some.inj hrun)
      exact hh'

end Dispatch

/-- Command recognition on one vector: each handler runs exactly on the vectors that name its
command, a vector that names none gets the unknown-command reply and leaves the store alone, and
no test reads an element that is not there. -/
structure Recognised (cmd : Command) : Prop where
  executes : ∀ h, Dispatches cmd h ↔ Names cmd h
  unknown : (∀ h, ¬ Names cmd h) → ∀ out st, doRequest cmd out st = .ok (unknownReply out, st)
  reads : ∀ h, Handler.test h cmd ≠ .error .outOfBounds

/-- Recognition is exact except on the vectors whose first element continues behind a NUL after
the name of a command of their size. -/
theorem recognition_exact_iff (cmd : Command) : Recognised cmd ↔ ∀ h, ¬ Trails cmd h := by
  constructor
  · intro hrec h htrails
    exact not_names_of_trails htrails
      ((hrec.executes h).mp (dispatches_iff.mpr (isCmd_iff.mpr (.inr htrails))))
  · intro hnone
    have hiff : ∀ h, isCmd cmd h.arity h.name = true ↔ Names cmd h := fun h =>
      isCmd_iff.trans (or_iff_left (hnone h))
    exact ⟨fun h => dispatches_iff.trans (hiff h),
      fun hnames out st => doRequest_unknown fun h hh => hnames h ((hiff h).mp hh),
      fun h => by rw [h.test_eq]; simp⟩

/-- A request whose only element is `keys` and a NUL lists the keys. -/
theorem keys_nul_executes :
    parseReq (encodeReq [ascii ['k', 'e', 'y', 's'] ++ [0]]) 13 =
        .ok (some [ascii ['k', 'e', 'y', 's'] ++ [0]]) ∧
      (∀ h, ¬ Names [ascii ['k', 'e', 'y', 's'] ++ [0]] h) ∧
      Dispatches [ascii ['k', 'e', 'y', 's'] ++ [0]] .keys ∧
      ¬ Recognised [ascii ['k', 'e', 'y', 's'] ++ [0]] := by
  have hnames : ∀ h, ¬ Names [ascii ['k', 'e', 'y', 's'] ++ [0]] h := by
    rintro h ⟨hlen, word, hword, hname⟩
    obtain rfl : ascii ['k', 'e', 'y', 's'] ++ [0] = word := Option.some.inj hword
    cases h with
    | keys => exact absurd hname (by decide)
    | get | set | del => exact absurd hlen (by decide)
  have hdisp : Dispatches [ascii ['k', 'e', 'y', 's'] ++ [0]] .keys :=
    dispatches_iff.mpr (isCmd_iff.mpr (.inr ⟨rfl, _, [], rfl, rfl⟩))
  exact ⟨by decide +kernel, hnames, hdisp, fun hrec => hnames _ ((hrec.executes _).mp hdisp)⟩

end NanoRedis
