import NanoRedis.Server.Calls
import NanoRedis.Store.Refinement

/-! The limits on requests and replies. A value comes in a frame, whose overhead is larger
than that of the reply which sends the value back. -/

namespace NanoRedis
open Intrusive Wire Exec

/-- The frames that `try_one_request` has accepted since the store was empty, on any
connections, with the replies it packed and the store it left. -/
inductive Accepts (blocks : Nat → Block) : List Served → Store → Prop
  | start : Accepts blocks [] { blocks := blocks }
  | request {es : List Served} {e : Served} {w w' : World} {more : Bool} :
      Accepts blocks es w.store → w.conn.rbufSize ≤ 4 + kMaxMsg →
      (tryOneRequest : Exec Bool) w = .ok more w' → w'.served = w.served ++ [e] →
      Accepts blocks (es ++ [e]) w'.store

section Step
variable {w w' : World}

theorem tryOneRequest_serves (hsize : w.conn.rbufSize ≤ 4 + kMaxMsg) :
    wp tryOneRequest
      (fun _ w' => w'.served = w.served ∨
        ∃ cmd out, (encodeReq cmd).length ≤ kMaxMsg ∧
          doRequest cmd [] w.store = .ok (out, w'.store) ∧
          w'.served = w.served ++ [⟨cmd, fitReply out⟩])
      (fun stop _ => ∀ f, stop = .request f →
        ∃ cmd, (encodeReq cmd).length ≤ kMaxMsg ∧ doRequest cmd [] w.store = .error f) w := by
  rcases tryOneRequest_cases hsize with
    ⟨-, hrun⟩ | ⟨-, hrun⟩ | ⟨f, ⟨cmd, rest, -, hmax, hdo⟩, hrun⟩ | ⟨v, hresponds, hwp⟩
  · exact wp_of_eq_ok hrun (.inl rfl)
  · exact wp_of_eq_ok hrun (.inl rfl)
  · refine wp_of_eq_error hrun fun g hg => ?_
    cases hg
    exact ⟨cmd, hmax, hdo⟩
  · obtain ⟨-, hmax, hdo, -⟩ := hresponds
    rw [hwp]
    refine wp_mono (stateRes_keeps _) (fun _ w' hkept => ?_) fun stop _ hkept f hstop => ?_
    · refine .inr ⟨_, _, hmax, ?_, hkept.served⟩
      rw [hkept.store]
      exact hdo
    · exact absurd hstop (hkept.2 f)

theorem tryOneRequest_accepted (hsize : w.conn.rbufSize ≤ 4 + kMaxMsg) {more : Bool} {e : Served}
    (hrun : (tryOneRequest : Exec Bool) w = .ok more w') (hserved : w'.served = w.served ++ [e]) :
    (encodeReq e.cmd).length ≤ kMaxMsg ∧
      ∃ out, doRequest e.cmd [] w.store = .ok (out, w'.store) ∧ e.reply = fitReply out := by
  rcases wp_of_ok (tryOneRequest_serves hsize) hrun with hnone | ⟨cmd, out, hmax, hdo, hone⟩
  · rw [hnone] at hserved
    simp at hserved
  · obtain rfl : ⟨cmd, fitReply out⟩ = e := by simpa using hone.symm.trans hserved
    exact ⟨hmax, out, hdo, rfl⟩

theorem tryOneRequest_refused (hsize : w.conn.rbufSize ≤ 4 + kMaxMsg) {f : Fault}
    (hrun : (tryOneRequest : Exec Bool) w = .error (.request f) w') :
    ∃ cmd, (encodeReq cmd).length ≤ kMaxMsg ∧ doRequest cmd [] w.store = .error f :=
  wp_of_error (tryOneRequest_serves hsize) hrun f rfl

end Step

/-! ## Values -/

def Short (past : List (Reference.Command Bytes Bytes)) : Prop :=
  ∀ k v, Reference.latest k past = some v → v.length + 16 ≤ kMaxMsg

theorem length_set {cmd : Command} {k v : Bytes} (h : decode cmd = .set k v) :
    v.length + 16 ≤ (encodeReq cmd).length := by
  unfold decode at h
  split_ifs at h with hkeys hget hset
  obtain ⟨word, k', v', rfl⟩ := List.length_eq_three.mp (length_of_isCmd hset)
  obtain ⟨-, rfl⟩ : k' = k ∧ v' = v := by simpa using h
  simp only [encodeReq, encodeArgs, List.length_append, length_le32, List.length_nil]
  omega

theorem Short.step {past : List (Reference.Command Bytes Bytes)} (h : Short past) {cmd : Command}
    (hmax : (encodeReq cmd).length ≤ kMaxMsg) : Short (decode cmd :: past) := by
  intro k v hv
  cases hc : decode cmd with
  | set k' v' =>
    have hlen := length_set hc
    simp only [hc, Reference.latest] at hv
    split_ifs at hv with hk
    · obtain rfl := Option.some.inj hv
      omega
    · exact h k v hv
  | del k' =>
    simp only [hc, Reference.latest] at hv
    split_ifs at hv
    exact h k v hv
  | get _ | keys | unknown =>
    rw [hc] at hv
    exact h k v hv

def history (es : List Served) : List (Reference.Command Bytes Bytes) :=
  (es.map fun e => decode e.cmd).reverse

theorem history_concat (es : List Served) (e : Served) :
    history (es ++ [e]) = decode e.cmd :: history es := by simp [history]

theorem Accepts.kept {blocks : Nat → Block} {es : List Served} {st : Store}
    (h : Accepts blocks es st) :
    ∃ xs, StoreRep st xs (contents (history es)) ∧ Short (history es) := by
  induction h with
  | start => exact ⟨[], StoreRep.empty blocks, by simp [Short, history, Reference.latest]⟩
  | @request es e w w' more _ hsize hrun hserved ih =>
    obtain ⟨xs, hrep, hshort⟩ := ih
    obtain ⟨hmax, out, hdo, -⟩ := tryOneRequest_accepted hsize hrun hserved
    have hout := doRequest_outcome hrep e.cmd
    rw [hdo] at hout
    rw [history_concat]
    cases hout with
    | replied _ hrep' => exact ⟨_, hrep', hshort.step hmax⟩

/-! ## Replies -/

theorem foldl_outStr (keys : List Bytes) (out : Bytes) :
    keys.foldl outStr out = out ++ keys.flatMap (outStr []) := by
  induction keys generalizing out with
  | nil => simp
  | cons k keys ih =>
    rw [List.foldl_cons, ih, List.flatMap_cons, ← List.append_assoc]
    simp [outStr]

theorem length_keysAnswer (keys : List Bytes) :
    (answerBytes (.keys keys)).length = 5 + (keys.map fun k => 5 + k.length).sum := by
  have hstr : ∀ k : Bytes, (outStr [] k).length = 5 + k.length := by
    intro k
    simp [outStr]
    omega
  rw [answerBytes, foldl_outStr, List.length_append, List.length_flatMap]
  simp [outArr, hstr]

theorem answerBytes_ne_tooBig (a : Reference.Answer Bytes Bytes) : answerBytes a ≠ tooBigReply := by
  cases a with
  | nil => decide
  | value v => simp [answerBytes, tooBigReply, outStr, outErr, serStr, serErr]
  | removed present => cases present <;> decide
  | keys ks =>
    simp [answerBytes, foldl_outStr, tooBigReply, outArr, outErr, serArr, serErr]
  | unknown => decide

theorem fitReply_answer (a : Reference.Answer Bytes Bytes) :
    (fitReply (answerBytes a) = tooBigReply ↔ kMaxMsg < 4 + (answerBytes a).length) ∧
      (fitReply (answerBytes a) ≠ tooBigReply → fitReply (answerBytes a) = answerBytes a) := by
  by_cases hbig : kMaxMsg < 4 + (answerBytes a).length
  · have hreply : fitReply (answerBytes a) = tooBigReply := if_pos hbig
    exact ⟨iff_of_true hreply hbig, fun hne => absurd hreply hne⟩
  · have hreply : fitReply (answerBytes a) = answerBytes a := if_neg hbig
    exact ⟨iff_of_false (by rw [hreply]; exact answerBytes_ne_tooBig a) hbig, fun _ => hreply⟩

theorem answer_fits {past : List (Reference.Command Bytes Bytes)}
    {c : Reference.Command Bytes Bytes} {a : Reference.Answer Bytes Bytes}
    (h : Reference.Answers past c a) (hshort : Short past) (hc : c ≠ .keys) :
    4 + (answerBytes a).length ≤ kMaxMsg := by
  cases h with
  | @get k =>
    cases hv : Reference.latest k past with
    | none => decide
    | some v =>
      have hlen := hshort k v hv
      simp only [Option.elim_some, answerBytes, outStr, List.nil_append, List.length_append,
        List.length_singleton, length_le32]
      omega
  | set => decide
  | @del k => cases (Reference.latest k past).isSome <;> decide
  | keys _ _ => exact absurd rfl hc
  | unknown => decide

theorem doRequest_keys {cmd : Command} (h : decode cmd = .keys) (st : Store) :
    doRequest cmd [] st = doKeys cmd [] st := by
  unfold decode at h
  split_ifs at h with hkeys
  unfold doRequest
  rw [if_pos hkeys]

def listingSize (st : Store) (xs : List Nat) : Nat :=
  9 + (xs.map fun x => 5 + (st.entries x).key.length).sum

/-- After any accepted frames, every stored value is short enough to be read back, the next
frame meets no assertion of its handler, and its reply is the handler's own unless it is a
listing of keys that exceeds the limit, which changes nothing. -/
theorem replies_fit {blocks : Nat → Block} {es : List Served} {st : Store}
    (h : Accepts blocks es st) :
    ∃ xs, Stores st.hnodes st.db xs ∧ (xs.map fun x => (st.entries x).key).Nodup ∧
      (∀ x ∈ xs, (st.entries x).val.length < kMaxMsg) ∧
      ∀ w, w.store = st → w.conn.rbufSize ≤ 4 + kMaxMsg →
        (∀ f w', (tryOneRequest : Exec Bool) w = .error (.request f) w' →
          f = .nullDeref ∨ f = .unconstructed ∧ st.blocks 0 = .garbage) ∧
        ∀ more w' e, (tryOneRequest : Exec Bool) w = .ok more w' → w'.served = w.served ++ [e] →
          (e.reply = tooBigReply ↔ decode e.cmd = .keys ∧ kMaxMsg < listingSize st xs) ∧
          (e.reply ≠ tooBigReply → doRequest e.cmd [] st = .ok (e.reply, w'.store)) ∧
          (e.reply = tooBigReply → w'.store = st) := by
  obtain ⟨xs, hrep, hshort⟩ := h.kept
  refine ⟨xs, hrep.stores, hrep.keys, fun x hx => ?_, ?_⟩
  · have hlen := hshort _ _ (hrep.apply_key hx)
    omega
  rintro w rfl hsize
  refine ⟨fun f w' hrun => ?_, fun more w' e hrun hserved => ?_⟩
  · obtain ⟨cmd, hmax, hdo⟩ := tryOneRequest_refused hsize hrun
    have hout := doRequest_outcome hrep cmd
    rw [hdo] at hout
    cases hout with
    | crashed => exact .inl rfl
    | garbled _ _ hblock => exact .inr ⟨rfl, hblock⟩
    | @tooBig k v _ hlatest hbig =>
      have hlen := hshort k v hlatest
      omega
  · obtain ⟨-, out, hdo, hreply⟩ := tryOneRequest_accepted hsize hrun hserved
    by_cases hkeys : decode e.cmd = .keys
    -- a listing has the announced length and leaves the store alone
    · have hlist := (doRequest_keys hkeys w.store).symm.trans hdo
      rw [doKeys_eq hrep.stores, Except.ok.injEq, Prod.mk.injEq] at hlist
      obtain ⟨rfl, hstore⟩ := hlist
      obtain ⟨hiff, hsame⟩ := fitReply_answer (.keys (xs.map fun x => (w.store.entries x).key))
      rw [hreply]
      refine ⟨?_, fun hne => by rw [hsame hne]; exact hdo, fun _ => hstore.symm⟩
      rw [hiff, length_keysAnswer, List.map_map, listingSize, ← Nat.add_assoc]
      simp only [hkeys, true_and]
      exact Iff.rfl
    · have hout := doRequest_outcome hrep e.cmd
      rw [hdo] at hout
      cases hout with
      | replied hans _ =>
        obtain ⟨hiff, hsame⟩ := fitReply_answer _
        have hne : e.reply ≠ tooBigReply := by
          rw [hreply, ne_eq, hiff]
          exact not_lt.mpr (answer_fits hans hshort hkeys)
        refine ⟨iff_of_false hne fun hbig => hkeys hbig.1, fun _ => ?_, fun heq => absurd heq hne⟩
        rw [hreply] at hne ⊢
        rw [hsame hne]
        exact hdo

def setArrived : World where
  conn :=
    { fd := 5
      rbufSize := 25
      rbuf := ⟨frame (encodeReq [ascii ['s', 'e', 't'], [107], [118]]) ++
        List.replicate (kMaxMsg - 21) 0, by decide +kernel⟩
      wbuf := .zero _ }
  store := { blocks := zeroed }
  interest := .epollin

theorem replies_fit_set :
    ∃ (more : Bool) (w : World) (e : Served) (xs : List Nat),
      (tryOneRequest : Exec Bool) setArrived = .ok more w ∧ w.served = [e] ∧
      Stores w.store.hnodes w.store.db xs ∧
      ∀ x ∈ xs, (w.store.entries x).val.length < kMaxMsg := by
  have hserves : (match (tryOneRequest : Exec Bool) setArrived with
      | .ok _ w => w.served.length == 1
      | .error _ _ => false) = true := by decide +kernel
  split at hserves
  · rename_i more w hrun
    obtain ⟨e, hserved⟩ := List.length_eq_one_iff.mp (eq_of_beq hserves)
    have haccepts : Accepts zeroed ([] ++ [e]) w.store :=
      .request .start (by decide) hrun (by rw [hserved]; rfl)
    obtain ⟨xs, hstores, -, hvals, -⟩ := replies_fit haccepts
    exact ⟨more, w, e, xs, hrun, hserved, hstores, hvals⟩
  · cases hserves

end NanoRedis
