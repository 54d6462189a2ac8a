import NanoRedis.Client.Grammar
import NanoRedis.Client.Keys
import NanoRedis.Client.Requests
import NanoRedis.Server.Fragments
import NanoRedis.Server.Linearizable

/-! A session of the command-line client against the server: what the client prints for
each answer of the reference. -/

namespace NanoRedis
open Intrusive Wire Exec

/-- `main` once it is connected: the bytes it writes, and the lines it prints, `none` where a
signal kills it. -/
def clientMain (cmd : Command) (wbuf : Buffer (4 + kMaxMsg)) (writes : List WriteResult)
    (reads : ReadScript) (rbuf : Buffer (4 + kMaxMsg + 1)) :
    Except Fault (Bytes × Option (List Line)) := do
  let (err, sent) ← sendReq cmd wbuf writes
  match err with
  | none => return (sent, none)
  | some err =>
    if err ≠ 0 then return (sent, some [])
    else do
      let (_, lines) ← readRes reads rbuf
      return (sent, some lines)

/-- What the client prints for an answer. It reads four bytes of an integer of eight, and five
bytes of any error text. -/
def transcript : Reference.Answer Bytes Bytes → List Line
  | .nil => [.nil]
  | .value v => [.str (UInt32.ofNat v.length) v]
  | .removed present => [.int (if present then 1 else 0), .msg .badResponse]
  | .keys ks =>
    if kMaxMsg < 4 + (answerBytes (.keys ks)).length then
      [.err err2Big.toInt (responseTooBig.take 5), .msg .badResponse]
    else listing (UInt32.ofNat ks.length) ks
  | .unknown => [.err errUnknown.toInt (unknownCmd.take 5), .msg .badResponse]

theorem onResponse_outErr (code : Int32) (text suffix : Bytes) (h : 5 ≤ text.length) :
    onResponse (outErr [] code text ++ suffix) (outErr [] code text).length =
      .ok (14, [.err code.toInt (text.take 5)]) := by
  have hlen : (text.take 5).length = (5 : UInt32).toNat := List.length_take_of_le h
  have hsize : 9 + (text.take 5).length ≤ (outErr [] code text).length := by
    rw [List.length_take_of_le h]
    simp only [outErr, List.length_append, length_le32, List.length_singleton, List.length_nil]
    omega
  have hrun := onNested_err (outErr [] code text).length code.toUInt32 5 hlen
    (text.drop 5 ++ suffix) hsize
  rw [← List.append_assoc (text.take 5), List.take_append_drop, int32_code] at hrun
  have hrv : int32 14 = 14 := by decide
  simpa [onResponse, outErr, hrv] using hrun

theorem onResponse_removed (present : Bool) (suffix : Bytes) :
    onResponse (answerBytes (.removed present) ++ suffix) (answerBytes (.removed present)).length =
      .ok (5, [.int (if present then 1 else 0)]) := by
  obtain ⟨v, hbytes, hval⟩ : ∃ v : UInt32,
      answerBytes (.removed present) = serInt :: (le32 v ++ [0, 0, 0, 0]) ∧
        int32 v.toNat = if present then 1 else 0 := by
    cases present with
    | false => exact ⟨0, by decide, by decide⟩
    | true => exact ⟨1, by decide, by decide⟩
  have hrun := onNested_int 9 v ([0, 0, 0, 0] ++ suffix) (show 5 ≤ 9 by decide)
  rw [hval] at hrun
  rw [hbytes]
  simpa [onResponse] using hrun

def Shows (reply : Bytes) (lines : List Line) : Prop :=
  ∀ suffix, ∃ rv fields, onResponse (reply ++ suffix) reply.length = .ok (rv, fields) ∧ 0 < rv ∧
    lines = if rv ≠ reply.length then fields ++ [.msg .badResponse] else fields

theorem shows_encode {v : Reply} (hread : v.Readable 0) (hfit : 4 + v.encode.length ≤ kMaxMsg) :
    Shows (fitReply v.encode) v.lines := by
  have hreply : fitReply v.encode = v.encode := if_neg (not_lt.mpr hfit)
  have hlen := v.length_encode
  rw [hreply]
  intro suffix
  refine ⟨v.width, v.lines, ?_, by exact_mod_cast v.width_pos, (if_neg ?_).symm⟩
  · rw [hlen]
    exact Reply.onResponse_encode hread (by omega) suffix le_rfl
  · rw [hlen]
    exact not_not.mpr rfl

theorem shows_outErr {code : Int32} {text : Bytes} (h : 5 < text.length) :
    Shows (outErr [] code text) [.err code.toInt (text.take 5), .msg .badResponse] := by
  intro suffix
  refine ⟨14, _, onResponse_outErr code text suffix h.le, by decide, (if_pos ?_).symm⟩
  simp only [outErr, List.length_append, length_le32, List.length_singleton, List.length_nil]
  omega

theorem shows_answer {a : Reference.Answer Bytes Bytes}
    (hfits : ∀ v, a = .value v → v.length + 16 ≤ kMaxMsg) :
    Shows (fitReply (answerBytes a)) (transcript a) := by
  cases a with
  | nil => exact shows_encode (v := .nil) trivial (by decide)
  | value v =>
    have hlen := hfits v rfl
    refine shows_encode (v := .str v) trivial ?_
    rw [Reply.length_encode, Reply.width]
    omega
  | removed present =>
    have hreply : fitReply (answerBytes (.removed present)) = answerBytes (.removed present) := by
      cases present <;> rfl
    rw [hreply]
    intro suffix
    refine ⟨5, _, onResponse_removed present suffix, by decide, ?_⟩
    cases present <;> rfl
  | keys ks =>
    simp only [transcript]
    split_ifs with hbig
    · have hreply : fitReply (answerBytes (.keys ks)) = tooBigReply := if_pos hbig
      rw [hreply]
      exact shows_outErr (by decide)
    · rw [answerBytes_keys] at hbig ⊢
      have hlines : (Reply.arr (ks.map .str)).lines = listing (UInt32.ofNat ks.length) ks := by
        rw [Reply.lines, Reply.linesAll_str, List.length_map]
        rfl
      rw [← hlines]
      exact shows_encode (Reply.readableAll_str ks _) (not_lt.mp hbig)
  | unknown =>
    have hreply : fitReply (answerBytes .unknown) = answerBytes .unknown := rfl
    rw [hreply]
    exact shows_outErr (by decide)

theorem readRes_shows {body : Bytes} {lines : List Line} (hbody : body.length ≤ kMaxMsg)
    (h : Shows body lines) {header pieces : List Bytes} (hne : ∀ bs ∈ header ++ pieces, bs ≠ [])
    (hheader : header.flatten.length = 4) (hpieces : header.flatten ++ pieces.flatten = frame body)
    (reads : ReadScript) (rbuf : Buffer (4 + kMaxMsg + 1)) :
    ∃ rv, readRes (header.map some ++ (pieces.map some ++ reads)) rbuf = .ok (rv, lines) := by
  obtain ⟨hfour, hrest⟩ := List.append_inj hpieces (by rw [hheader, length_le32])
  obtain ⟨suffix, hrun⟩ := readRes_frame hbody hne hfour hrest reads rbuf
  obtain ⟨rv, fields, hread, hpos, rfl⟩ := h suffix
  simp only [hrun, hread, ok_bind, pure_eq_ok, hpos, true_and]
  split_ifs <;> exact ⟨_, rfl⟩

theorem writeAll_sent {writes : List WriteResult} {buf sent : Bytes} {err : Option Int}
    (h : writeAll writes buf = .ok (err, sent)) : sent <+: buf ∧ (sent = buf → err = some 0) := by
  induction writes generalizing buf err sent with
  | nil =>
    simp only [writeAll, Except.ok.injEq, Prod.mk.injEq] at h
    obtain ⟨rfl, rfl⟩ := h
    exact ⟨List.nil_prefix, fun heq => congrArg some (if_pos (by rw [← heq, List.length_nil]))⟩
  | cons rv writes ih =>
    unfold writeAll at h
    split_ifs at h with hbuf
    · obtain ⟨rfl, rfl⟩ : some 0 = err ∧ [] = sent := by simpa using h
      exact ⟨List.nil_prefix, fun _ => rfl⟩
    · have hstuck : ∀ {code : Option Int},
          (Except.ok (code, []) : Except Fault (Option Int × Bytes)) = .ok (err, sent) →
            sent <+: buf ∧ (sent = buf → err = some 0) := by
        intro code heq
        obtain ⟨-, rfl⟩ : code = err ∧ [] = sent := by simpa using heq
        exact ⟨List.nil_prefix, fun hnil => absurd (by rw [← hnil, List.length_nil]) hbuf⟩
      cases rv with
      | sigpipe | eintr | eagain | failed => exact hstuck h
      | sent n =>
        dsimp only at h
        split_ifs at h with hzero hover
        · exact hstuck h
        · cases hrest : writeAll writes (buf.drop n) with
          | error f => simp [hrest] at h
          | ok res =>
            obtain ⟨code, out⟩ := res
            obtain ⟨rfl, rfl⟩ : code = err ∧ buf.take n ++ out = sent := by
              simpa [hrest] using h
            obtain ⟨⟨more, hmore⟩, hcode⟩ := ih hrest
            refine ⟨⟨more, ?_⟩, fun hall => hcode ?_⟩
            · rw [List.append_assoc, hmore, List.take_append_drop]
            · exact List.append_cancel_left (hall.trans (List.take_append_drop n buf).symm)

section Served
variable {s : Server} {p : Nat}

theorem short_history {es : List Served} (h : ∀ e ∈ es, (encodeReq e.cmd).length ≤ kMaxMsg) :
    Short (history es) := by
  induction es using List.reverseRecOn with
  | nil => simp [Short, history, Reference.latest]
  | append_singleton es e ih =>
    rw [history_concat]
    exact (ih fun e' he' => h e' (List.mem_append_left _ he')).step (h e (by simp))

theorem fits_of_orderly {blocks : Nat → Block} (h : Orderly blocks s) {e : Nat × Served}
    (he : e ∈ s.served) : (encodeReq e.2.cmd).length ≤ kMaxMsg := by
  obtain ⟨input, pending, hhist⟩ := h.past e.1
  exact hhist.fits e.2 (List.mem_map_of_mem (List.mem_filter.mpr ⟨he, decide_eq_true rfl⟩))

theorem answered_of_run {blocks : Nat → Block} {events : List Event}
    (hrun : Run.run serverStep (.start blocks) events = .ok s) {e : Served}
    (he : e ∈ s.servedBy p) :
    ∃ before after a, s.served = before ++ (p, e) :: after ∧
      Reference.Answers (history (before.map Prod.snd)) (decode e.cmd) a ∧
      e.reply = fitReply (answerBytes a) ∧ ∀ v, a = .value v → v.length + 16 ≤ kMaxMsg := by
  obtain ⟨past, hpath, h⟩ := abstracts_run hrun
  have hserved : s.served = Run.collect serverStep servedAt (.start blocks) events :=
    served_run hrun
  rw [← hserved] at hpath
  obtain ⟨⟨q, e'⟩, hmem, rfl⟩ := List.mem_map.mp he
  obtain ⟨hin, hq⟩ := List.mem_filter.mp hmem
  obtain rfl : q = p := of_decide_eq_true hq
  obtain ⟨before, after, hcut⟩ := List.append_of_mem hin
  rw [hcut] at hpath
  obtain ⟨past', hbefore, hrest⟩ := hpath.split
  obtain rfl : past' = history (before.map Prod.snd) ++ [] := past_of_path hbefore
  rw [List.append_nil] at hrest
  cases hrest with
  | cons hserves _ =>
    obtain ⟨a, hans, hreply, -, -⟩ := hserves
    refine ⟨before, after, a, hcut, hans, hreply, ?_⟩
    rintro v rfl
    have hshort : Short (history (before.map Prod.snd)) := by
      apply short_history
      rintro e he
      obtain ⟨pe, hpe, rfl⟩ := List.mem_map.mp he
      exact fits_of_orderly h.orderly (hcut ▸ List.mem_append_left _ hpe)
    obtain ⟨k, hk⟩ := hans.latest_of_value
    exact hshort k v hk

end Served

theorem served_once {es : List Served} {cmd : Command} {rest : Bytes} (hne : es ≠ [])
    (hfits : ∀ e ∈ es, (encodeReq e.cmd).length ≤ kMaxMsg)
    (hcmd : (encodeReq cmd).length ≤ kMaxMsg) (h : requests es ++ rest = frame (encodeReq cmd)) :
    (∃ reply, es = [⟨cmd, reply⟩]) ∧ rest = [] := by
  have hcut : ((commands es).flatMap fun cmd => frame (encodeReq cmd)) ++ rest =
      ([cmd].flatMap fun cmd => frame (encodeReq cmd)) ++ [] := by
    rw [← requests_eq_flatMap, h, List.flatMap_singleton, List.append_nil]
  have hes : ∀ c ∈ commands es, (encodeReq c).length ≤ kMaxMsg := by
    rintro c hc
    obtain ⟨e, he, rfl⟩ := List.mem_map.mp hc
    exact hfits e he
  obtain ⟨e, es, rfl⟩ := List.exists_cons_of_ne_nil hne
  rcases request_selfDelimiting.flatMap_cut hes (by simpa using hcmd) hcut with
    ⟨cs, hone, hrest⟩ | ⟨cs, hmore, hrest⟩
  · obtain ⟨rfl, htail⟩ : cmd = e.cmd ∧ [] = commands es ++ cs := List.cons_eq_cons.mp hone
    obtain ⟨hnil, rfl⟩ := List.append_eq_nil_iff.mp htail.symm
    obtain rfl := List.map_eq_nil_iff.mp hnil
    exact ⟨⟨e.reply, rfl⟩, hrest⟩
  · obtain ⟨hempty, rfl⟩ := List.append_eq_nil_iff.mp hrest.symm
    cases cs with
    | nil =>
      obtain ⟨rfl, hnil⟩ : e.cmd = cmd ∧ commands es = [] := List.cons_eq_cons.mp hmore
      obtain rfl := List.map_eq_nil_iff.mp hnil
      exact ⟨⟨e.reply, rfl⟩, rfl⟩
    | cons c cs =>
      exact absurd (List.append_eq_nil_iff.mp hempty).1 (request_selfDelimiting.ne_nil c)

/-- A client whose request was executed prints the answer that the reference gives to the command
after all the requests executed before it. -/
theorem session_transcript {cmd : Command} {wbuf : Buffer (4 + kMaxMsg)}
    {writes : List WriteResult} {err : Option Int} {sent : Bytes} {blocks : Nat → Block}
    {events : List Event} {s : Server} {p : Nat} {header pieces : List Bytes} {reads : ReadScript}
    {rbuf : Buffer (4 + kMaxMsg + 1)}
    (hlen : reqLength cmd < 2 ^ 32) (hsend : sendReq cmd wbuf writes = .ok (err, sent))
    (hrun : Run.run serverStep (.start blocks) events = .ok s)
    (hreceived : stream (s.received p) <+: sent)
    (hserved : s.servedBy p ≠ []) (hsent : s.sent p = replies (s.servedBy p))
    (hne : ∀ bs ∈ header ++ pieces, bs ≠ []) (hheader : header.flatten.length = 4)
    (hpieces : header.flatten ++ pieces.flatten = s.sent p) :
    ∃ before after reply a, s.served = before ++ (p, ⟨cmd, reply⟩) :: after ∧
      Reference.Answers (history (before.map Prod.snd)) (decode cmd) a ∧
      clientMain cmd wbuf writes (header.map some ++ (pieces.map some ++ reads)) rbuf =
        .ok (sent, some (transcript a)) := by
  obtain ⟨hord, -⟩ := run_start hrun
  obtain ⟨input, pending, hhist⟩ := hord.past p
  obtain ⟨more, hmore⟩ := hreceived
  have hpack := packReq_spec hlen wbuf
  split_ifs at hpack with hmax
  · -- a client that refuses its command has sent nothing that could be executed
    obtain ⟨-, rfl⟩ : some (-1) = err ∧ [] = sent := by simpa [sendReq, hpack] using hsend
    rw [hhist.stream, List.append_eq_nil_iff, List.append_eq_nil_iff] at hmore
    obtain ⟨e, es, hes⟩ := List.exists_cons_of_ne_nil hserved
    have hnil : requests (e :: es) = [] := hes ▸ hmore.1.1
    exact absurd (List.append_eq_nil_iff.mp hnil).1 (request_selfDelimiting.ne_nil e.cmd)
  · have hwrite : writeAll writes (frame (encodeReq cmd)) = .ok (err, sent) := by
      simpa only [sendReq, hpack, ok_bind] using hsend
    obtain ⟨⟨rest, hrest⟩, hall⟩ := writeAll_sent hwrite
    have hstream : requests (s.servedBy p) ++ (input ++ (more ++ rest)) =
        frame (encodeReq cmd) := by
      rw [← List.append_assoc, ← hhist.stream, ← List.append_assoc, hmore, hrest]
    obtain ⟨⟨reply, hone⟩, hnil⟩ := served_once hserved hhist.fits
      (by rw [length_encodeReq]; omega) hstream
    obtain ⟨-, hnil⟩ := List.append_eq_nil_iff.mp hnil
    obtain ⟨-, rfl⟩ := List.append_eq_nil_iff.mp hnil
    rw [List.append_nil] at hrest
    obtain rfl := hall hrest
    obtain ⟨before, after, a, hcut, hans, hreply, hfits⟩ :=
      answered_of_run (p := p) (e := ⟨cmd, reply⟩) hrun
        (by rw [hone]; exact List.mem_singleton_self _)
    obtain rfl : reply = fitReply (answerBytes a) := hreply
    have hframe : header.flatten ++ pieces.flatten = frame (fitReply (answerBytes a)) := by
      rw [hpieces, hsent, hone]
      exact List.append_nil _
    obtain ⟨rv, hread⟩ := readRes_shows (by have := length_fitReply (answerBytes a); omega)
      (shows_answer hfits) hne hheader hframe reads rbuf
    refine ⟨before, after, _, a, hcut, hans, ?_⟩
    simp only [clientMain, hsend, hread, ok_bind, pure_eq_ok]
    exact if_neg (by decide)

def delKey : Command := [ascii ['d', 'e', 'l'], [107]]

def deletion : List Event :=
  [.listener (some 5) (.zero _) (.zero _),
   .conn 5 [.data (frame (encodeReq [ascii ['s', 'e', 't'], [107], [118]]))] [.sent 100],
   .listener (some 6) (.zero _) (.zero _),
   .conn 6 [.data (frame (encodeReq delKey))] [.sent 100]]

theorem session_transcript_deletion :
    ∃ s, Run.run serverStep (.start zeroed) deletion = .ok s ∧
      ∃ before after reply a, s.served = before ++ (1, ⟨delKey, reply⟩) :: after ∧
      Reference.Answers (history (before.map Prod.snd)) (decode delKey) a ∧
      clientMain delKey (.zero _) [.sent 3, .sent 17]
          ([le32 9].map some ++ ([[serInt], le64 1].map some ++ [])) (.zero _) =
        .ok (frame (encodeReq delKey), some (transcript a)) := by
  have hsend : sendReq delKey (.zero _) [.sent 3, .sent 17] =
      .ok (some 0, frame (encodeReq delKey)) := by
    decide +kernel
  have hok : Run.passes (fun s => decide (stream (s.received 1) = frame (encodeReq delKey) ∧
      s.servedBy 1 ≠ [] ∧ s.sent 1 = replies (s.servedBy 1) ∧
      le32 9 ++ (serInt :: le64 1) = s.sent 1))
      (Run.run serverStep (.start zeroed) deletion) = true := by decide +kernel
  obtain ⟨s, hrun, hrecord⟩ := Run.exists_of_passes hok
  obtain ⟨hstream, hserved, hsent, hreply⟩ := of_decide_eq_true hrecord
  exact ⟨s, hrun, session_transcript (by decide) hsend hrun (by rw [hstream]) hserved hsent
    (by decide) (by decide) hreply⟩

/-! ## Any peer -/

theorem readFull_cases (reads : ReadScript) (n : Nat) :
    readFull reads n = .error (.assertion .readFull) ∨
      ∃ r rest, readFull reads n = .ok (r, rest) ∧ ∀ bs, r = .full bs → bs.length = n := by
  induction reads generalizing n with
  | nil =>
    refine .inr ⟨_, _, rfl, fun bs hfull => ?_⟩
    split_ifs at hfull with hn
    obtain rfl : [] = bs := by simpa using hfull
    exact hn.symm
  | cons rv reads ih =>
    unfold readFull
    split_ifs with hn
    · refine .inr ⟨_, _, rfl, fun bs hfull => ?_⟩
      obtain rfl : [] = bs := by simpa using hfull
      exact hn.symm
    · cases rv with
      | none => exact .inr ⟨_, _, rfl, fun bs hfull => by cases hfull⟩
      | some bs =>
        dsimp only
        split_ifs with heof hover
        · exact .inr ⟨_, _, rfl, fun bs hfull => by cases hfull⟩
        · rcases ih (n - bs.length) with hstop | ⟨r, rest, hrest, hlen⟩
          · exact .inl (by rw [hstop]; rfl)
          · refine .inr ⟨r.prepend bs, rest, by rw [hrest]; rfl, fun cs hfull => ?_⟩
            cases r with
            | full ds =>
              obtain rfl : bs ++ ds = cs := by simpa [Received.prepend] using hfull
              have := hlen ds rfl
              rw [List.length_append]
              omega
            | eof | failed => cases hfull
        · exact .inl rfl

theorem writeAll_cases (writes : List WriteResult) (buf : Bytes) :
    writeAll writes buf = .error (.assertion .writeAll) ∨
      ∃ err sent, writeAll writes buf = .ok (err, sent) ∧
        (err = none → WriteResult.sigpipe ∈ writes) := by
  induction writes generalizing buf with
  | nil => exact .inr ⟨_, _, rfl, by simp⟩
  | cons rv writes ih =>
    unfold writeAll
    split_ifs with hbuf
    · exact .inr ⟨_, _, rfl, by simp⟩
    · cases rv with
      | sigpipe => exact .inr ⟨_, _, rfl, fun _ => List.mem_cons_self⟩
      | eintr | eagain | failed => exact .inr ⟨_, _, rfl, by simp⟩
      | sent n =>
        dsimp only
        split_ifs with hzero hover
        · exact .inr ⟨_, _, rfl, by simp⟩
        · rcases ih (buf.drop n) with hstop | ⟨err, sent, hrest, hkilled⟩
          · exact .inl (by rw [hstop]; rfl)
          · refine .inr ⟨_, _, by rw [hrest]; rfl, fun hnone => ?_⟩
            exact List.mem_cons_of_mem _ (hkilled hnone)
        · exact .inl rfl

theorem readRes_cases (reads : ReadScript) (rbuf : Buffer (4 + kMaxMsg + 1)) :
    readRes reads rbuf = .error (.assertion .readFull) ∨
      ∃ rv lines, readRes reads rbuf = .ok (rv, lines) := by
  have hmax : kMaxMsg < 2 ^ 31 := by decide
  rcases readFull_cases reads 4 with hstop | ⟨header, reads', hread, hfour⟩
  · exact .inl (by simp only [readRes, hstop, error_bind])
  simp only [readRes, hread, ok_bind]
  cases header with
  | eof | failed => exact .inr ⟨_, _, rfl⟩
  | full header =>
    have hfour := hfour header rfl
    obtain ⟨b₁, hb₁, -⟩ := writeBytes_take rbuf 0 header (by omega)
    have hcap₁ := b₁.length_eq
    obtain ⟨len, hlen⟩ := readU32_of_le b₁.bytes 0 (by omega)
    simp only [hb₁, hlen, ok_bind]
    split_ifs with hlong
    · exact .inr ⟨_, _, rfl⟩
    rcases readFull_cases reads' len.toNat with hstop | ⟨body, reads'', hread, hbody⟩
    · exact .inl (by rw [hstop]; rfl)
    simp only [hread, ok_bind]
    cases body with
    | eof | failed => exact .inr ⟨_, _, rfl⟩
    | full body =>
      have hbody := hbody body rfl
      obtain ⟨b₂, hb₂, -⟩ := writeBytes_take b₁ 4 body (by omega)
      have hcap₂ := b₂.length_eq
      obtain ⟨rv, lines, hparse, -⟩ := onNested_parsed (len.toNat + 1) (b₂.bytes.drop 4) len.toNat
        (Nat.lt_succ_self _) (by omega) (by rw [List.length_drop]; omega)
      have hparse : onResponse (b₂.bytes.drop 4) len.toNat = .ok (rv, lines) := hparse
      simp only [hb₂, hparse, ok_bind, pure_eq_ok]
      split_ifs <;> exact .inr ⟨_, _, rfl⟩

/-- Whoever is at the other end, the client comes to an end without misusing memory, unless the
kernel breaks the contract of `read()` or `write()`; only SIGPIPE ends it otherwise than by its
return. It sends its request or the beginning of it. -/
theorem client_robust {cmd : Command} (hlen : reqLength cmd < 2 ^ 32)
    (wbuf : Buffer (4 + kMaxMsg)) (writes : List WriteResult) (reads : ReadScript)
    (rbuf : Buffer (4 + kMaxMsg + 1)) :
    clientMain cmd wbuf writes reads rbuf = .error (.assertion .writeAll) ∨
      clientMain cmd wbuf writes reads rbuf = .error (.assertion .readFull) ∨
      ∃ sent lines, clientMain cmd wbuf writes reads rbuf = .ok (sent, lines) ∧
        sent <+: frame (encodeReq cmd) ∧ (lines = none → WriteResult.sigpipe ∈ writes) := by
  have hpack := packReq_spec hlen wbuf
  split_ifs at hpack with hmax
  · exact .inr (.inr ⟨[], some [], by simp [clientMain, sendReq, hpack], List.nil_prefix, by simp⟩)
  · have hsend : sendReq cmd wbuf writes = writeAll writes (frame (encodeReq cmd)) := by
      simp only [sendReq, hpack, ok_bind]
    rcases writeAll_cases writes (frame (encodeReq cmd)) with hstop | ⟨err, sent, hwrite, hkilled⟩
    · exact .inl (by simp only [clientMain, hsend, hstop, error_bind])
    · have hsent := (writeAll_sent hwrite).1
      simp only [clientMain, hsend, hwrite, ok_bind, pure_eq_ok]
      cases err with
      | none => exact .inr (.inr ⟨sent, none, rfl, hsent, fun _ => hkilled rfl⟩)
      | some err =>
        dsimp only
        split_ifs with herr
        · exact .inr (.inr ⟨sent, some [], rfl, hsent, by simp⟩)
        · rcases readRes_cases reads rbuf with hstop | ⟨rv, lines, hread⟩
          · exact .inr (.inl (by rw [hstop]; rfl))
          · exact .inr (.inr ⟨sent, some lines, by rw [hread]; rfl, hsent, by simp⟩)

theorem client_robust_garbage :
    ∃ sent lines, clientMain delKey (.zero _) [.sent 20]
        [some [3, 0, 0, 0], some [serArr, 255, 1], none] (.zero _) = .ok (sent, lines) ∧
      sent <+: frame (encodeReq delKey) ∧ (lines = none → WriteResult.sigpipe ∈ [.sent 20]) := by
  have hlen : reqLength delKey < 2 ^ 32 := by decide
  rcases client_robust hlen (.zero _) [.sent 20] [some [3, 0, 0, 0], some [serArr, 255, 1], none]
    (.zero _) with hstop | hstop | hok
  · exact absurd hstop (by decide +kernel)
  · exact absurd hstop (by decide +kernel)
  · exact hok

end NanoRedis
