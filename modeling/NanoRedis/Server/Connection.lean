import NanoRedis.Server.Calls

/-! What one call of `connection_io` does: the requests it executes, the bytes it
consumes and the bytes it sends. -/

namespace NanoRedis
open Wire Exec

inductive Executes : Store → List Served → Store → Prop
  | nil {st : Store} : Executes st [] st
  | cons {st st' st'' : Store} {cmd : Command} {out : Bytes} {es : List Served} :
      doRequest cmd [] st = .ok (out, st') → Executes st' es st'' →
      Executes st (⟨cmd, fitReply out⟩ :: es) st''

theorem Executes.append {st st' st'' : Store} {es fs : List Served} (hes : Executes st es st')
    (hfs : Executes st' fs st'') :
    Executes st (es ++ fs) st'' := by
  induction hes with
  | nil => exact hfs
  | cons hreq _ ih => exact .cons hreq (ih hfs)

def stream (reads : List (Nat × Bytes)) : Bytes := reads.flatMap Prod.snd

def requests (es : List Served) : Bytes := es.flatMap fun e => frame (encodeReq e.cmd)

def replies (es : List Served) : Bytes := es.flatMap fun e => frame e.reply

theorem stream_append (xs ys : List (Nat × Bytes)) :
    stream (xs ++ ys) = stream xs ++ stream ys := List.flatMap_append

theorem requests_append (es fs : List Served) :
    requests (es ++ fs) = requests es ++ requests fs := List.flatMap_append

theorem replies_append (es fs : List Served) :
    replies (es ++ fs) = replies es ++ replies fs := List.flatMap_append

def lastReply (old : Bytes) (es : List Served) : Bytes :=
  (es.getLast?.map fun e => frame e.reply).getD old

theorem lastReply_snoc (old : Bytes) (es : List Served) (e : Served) :
    lastReply old (es ++ [e]) = frame e.reply := by
  simp [lastReply]

def Phase (c : Conn) : Prop :=
  match c.state with
  | .stateReq => c.wbufSize = 0 ∧ c.wbufSent = 0
  | .stateRes => c.wbufSent < c.wbufSize ∧ c.wbufSize ≤ 4 + kMaxMsg
  | .stateEnd => c.wbufSent ≤ c.wbufSize ∧ c.wbufSize ≤ 4 + kMaxMsg

theorem Phase.sending {c : Conn} (h : Phase c) (hstate : c.state = .stateRes) : Sending c := by
  unfold Phase at h
  rw [hstate] at h
  exact ⟨hstate, h.1, h.2⟩

theorem Phase.pending_eq_nil {c : Conn} (h : Phase c) (hstate : c.state = .stateReq) :
    c.pending = [] := by
  unfold Phase at h
  rw [hstate] at h
  simp [Conn.pending, h.1]

def Listening (w : World) : Prop :=
  match w.conn.state with
  | .stateReq => w.interest = .epollin
  | .stateRes => w.interest = .epollout
  | .stateEnd => True

/-- The world of a call that began in `w₀`. -/
structure CallInv (w₀ w : World) : Prop where
  fd : w.conn.fd = w₀.conn.fd
  size : w.conn.rbufSize ≤ 4 + kMaxMsg
  phase : Phase w.conn
  executes : Executes w₀.store w.served w.store
  fits : ∀ e ∈ w.served, (encodeReq e.cmd).length ≤ kMaxMsg
  input : w₀.conn.input ++ stream w.received = requests w.served ++ w.conn.input
  output : w₀.conn.pending ++ replies w.served = w.sent ++ w.conn.pending
  unsent : w.conn.pending <:+ lastReply w₀.conn.pending w.served
  listening : Listening w₀ → Listening w

theorem pushOut_cases (writes : List WriteResult) {remain : Nat} (h : 0 < remain) :
    (pushOut writes remain).2.1 = .stateReq ∧ (pushOut writes remain).1 = remain ∨
      (pushOut writes remain).2.1 ≠ .stateReq ∧ (pushOut writes remain).1 < remain := by
  induction writes generalizing remain with
  | nil => exact .inr ⟨by simp [pushOut], h⟩
  | cons rv writes ih =>
    cases rv with
    | sent n =>
      unfold pushOut
      split_ifs with hn
      · exact .inl ⟨rfl, rfl⟩
      · rcases ih (show 0 < remain - n by omega) with ⟨hstate, hall⟩ | ⟨hstate, hpart⟩
        · exact .inl ⟨hstate, by dsimp only; omega⟩
        · exact .inr ⟨hstate, by dsimp only; omega⟩
    | eintr => exact ih h
    | eagain | failed | sigpipe => exact .inr ⟨by simp [pushOut], h⟩

theorem callInv_sent {w₀ w : World} (h : CallInv w₀ w) (hstate : w.conn.state = .stateRes)
    {writes : List WriteResult}
    (hpush : pushOut w.writes (w.conn.wbufSize - w.conn.wbufSent) =
      (w.conn.wbufSize - w.conn.wbufSent, .stateReq, writes)) :
    CallInv w₀ w.flushed := by
  have hsend := h.phase.sending hstate
  have hlen := length_pending w.conn hsend.size
  have hnil : (w.conn.pushed (w.conn.wbufSize - w.conn.wbufSent) .stateReq).pending = [] := by
    simp [Conn.pending, Conn.pushed]
  rw [flushed_of_pushOut hpush]
  refine ⟨h.fd, h.size, ⟨rfl, rfl⟩, h.executes, h.fits, h.input, ?_, ?_, fun _ => ?_⟩
  · rw [hnil, List.append_nil, ← hlen, List.take_length]
    exact h.output
  · rw [hnil]
    exact List.nil_suffix
  · simp [Listening]

theorem callInv_part {w₀ w : World} (h : CallInv w₀ w) (hstate : w.conn.state = .stateRes) {n : Nat}
    {state : ConnState} {writes : List WriteResult}
    (hpush : pushOut w.writes (w.conn.wbufSize - w.conn.wbufSent) = (n, state, writes))
    (hreq : state ≠ .stateReq) (hpart : n < w.conn.wbufSize - w.conn.wbufSent) :
    CallInv w₀ w.flushed := by
  have hsize := (h.phase.sending hstate).size
  have hpushed : w.conn.pushed n state =
      { w.conn with state := state, wbufSent := w.conn.wbufSent + n } := if_neg hreq
  have hdrop : (w.conn.pushed n state).pending = w.conn.pending.drop n := by
    simp only [hpushed, Conn.pending, List.drop_take, List.drop_drop, Nat.sub_sub]
  rw [flushed_of_pushOut hpush]
  refine ⟨by simpa using h.fd, by simpa using h.size, ?_, h.executes, h.fits,
    by simpa using h.input, ?_, ?_, fun hl => ?_⟩
  · rw [hpushed, Phase]
    cases state with
    | stateReq => exact absurd rfl hreq
    | stateRes => exact ⟨by dsimp only; omega, hsize⟩
    | stateEnd => exact ⟨by dsimp only; omega, hsize⟩
  · rw [hdrop, List.append_assoc, List.take_append_drop]
    exact h.output
  · rw [hdrop]
    exact (List.drop_suffix n _).trans h.unsent
  · have hl := h.listening hl
    unfold Listening at hl
    rw [hstate] at hl
    unfold Listening
    rw [Conn.pushed_state]
    cases state with
    | stateReq => exact absurd rfl hreq
    | stateRes => simpa using hl
    | stateEnd => trivial

theorem callInv_flushed {w₀ w : World} (h : CallInv w₀ w) (hstate : w.conn.state = .stateRes) :
    CallInv w₀ w.flushed := by
  have hpos : 0 < w.conn.wbufSize - w.conn.wbufSent :=
    Nat.sub_pos_of_lt (h.phase.sending hstate).sent
  have hcases := pushOut_cases w.writes hpos
  cases hpush : pushOut w.writes (w.conn.wbufSize - w.conn.wbufSent) with
  | mk n rest =>
    obtain ⟨state, writes⟩ := rest
    rw [hpush] at hcases
    rcases hcases with ⟨hreq, hall⟩ | ⟨hreq, hpart⟩
    · obtain rfl : state = .stateReq := hreq
      obtain rfl : n = w.conn.wbufSize - w.conn.wbufSent := hall
      exact callInv_sent h hstate hpush
    · exact callInv_part h hstate hpush hreq hpart

theorem Phase.poised {w : World} (h : Phase w.conn) (hstate : w.conn.state = .stateReq)
    (hroom : w.conn.rbufSize < 4 + kMaxMsg) : Poised w := by
  unfold Phase at h
  rw [hstate] at h
  exact ⟨hstate, h.1, h.2, hroom⟩

theorem Poised.pending_eq_nil {w : World} (h : Poised w) : w.conn.pending = [] := by
  simp [Conn.pending, h.wbufSize]

section Passages
variable {w₀ w w' : World}

theorem CallInv.responds (h : CallInv w₀ w) (hpoised : Poised w) (hresponds : Responds w w') :
    CallInv w₀ w' := by
  have hsend := hresponds.sending hpoised
  have hlen := length_input h.size
  obtain ⟨hinput, hmax, hreq, hpacked⟩ := hresponds
  have hpending := hpacked.pending hpoised.wbufSent
  refine ⟨hpacked.fd.trans h.fd, ?_, ?_, h.executes.append (.cons hreq .nil), ?_, ?_, ?_, ?_,
    fun _ => ?_⟩
  · rw [hinput, List.length_append] at hlen
    have hsize := h.size
    have hrest := hpacked.rbufSize
    dsimp only
    omega
  · unfold Phase
    rw [hpacked.state]
    exact ⟨hsend.sent, hsend.size⟩
  · intro e he
    rcases List.mem_append.mp he with he | he
    · exact h.fits e he
    · obtain rfl := List.mem_singleton.mp he
      exact hmax
  · have hold := h.input
    rw [hinput] at hold
    simpa [requests, hpacked.input] using hold
  · have hold := h.output
    rw [hpoised.pending_eq_nil, List.append_nil] at hold
    rw [hpending, ← hold]
    simp [replies]
  · rw [hpending, lastReply_snoc]
  · unfold Listening
    rw [hpacked.state]

theorem CallInv.reads (h : CallInv w₀ w) {bs : Bytes} (hreads : Reads w bs w') : CallInv w₀ w' := by
  have hinput := hreads.input
  obtain ⟨-, hsize, -⟩ := hreads
  refine ⟨h.fd, hsize, h.phase, h.executes, h.fits, ?_, h.output, h.unsent, h.listening⟩
  have hstream : stream (w.received ++ [(4 + kMaxMsg - w.conn.rbufSize, bs)]) =
      stream w.received ++ bs := by simp [stream]
  unfold World.taken
  rw [hstream, ← List.append_assoc, h.input, List.append_assoc]
  exact congrArg _ hinput.symm

theorem CallInv.withReads (h : CallInv w₀ w) (reads : List ReadResult) :
    CallInv w₀ { w with reads := reads } :=
  ⟨h.fd, h.size, h.phase, h.executes, h.fits, h.input, h.output, h.unsent, h.listening⟩

theorem CallInv.ended (h : CallInv w₀ w) (hpoised : Poised w) : CallInv w₀ w.ended := by
  refine ⟨h.fd, h.size, ?_, h.executes, h.fits, h.input, h.output, h.unsent, fun _ => trivial⟩
  simp [Phase, World.ended, hpoised.wbufSize, hpoised.wbufSent]

end Passages

def AllShort (reads : List (Nat × Bytes)) : Prop := ∀ r ∈ reads, r.2.length < r.1

theorem AllShort.snoc {reads : List (Nat × Bytes)} (h : AllShort reads) {r : Nat × Bytes}
    (hr : r.2.length < r.1) :
    AllShort (reads ++ [r]) := by
  intro r' hr'
  rcases List.mem_append.mp hr' with hr' | hr'
  · exact h r' hr'
  · obtain rfl := List.mem_singleton.mp hr'
    exact hr

def AtEnd (reads : List (Nat × Bytes)) : Prop := ∃ r ∈ reads, r.2 = []

@[simp] theorem not_atEnd_nil : ¬ AtEnd [] := by simp [AtEnd]

theorem AtEnd.of_snoc {reads : List (Nat × Bytes)} {r : Nat × Bytes} (h : AtEnd (reads ++ [r]))
    (hr : r.2 ≠ []) : AtEnd reads := by
  obtain ⟨r', hr', hnil⟩ := h
  rcases List.mem_append.mp hr' with hr' | hr'
  · exact ⟨r', hr', hnil⟩
  · obtain rfl := List.mem_singleton.mp hr'
    exact absurd hnil hr

structure Live (w₀ w : World) : Prop extends CallInv w₀ w where
  room : w.conn.rbufSize < 4 + kMaxMsg
  short : AllShort w.received
  eof : AtEnd w.received → w.conn.state = .stateEnd

def Considered (w₀ w : World) : Prop :=
  w.conn.input = w₀.conn.input ∨ ¬ HoldsFrame w.conn.input ∧ ¬ Malformed w.conn.input

structure Filling (w₀ : World) (stage : Stage) (w : World) : Prop extends CallInv w₀ w where
  short : AllShort w.received
  notEnded : ¬ AtEnd w.received
  front : stage = .reading → Considered w₀ w

structure Filled (w₀ w : World) : Prop extends Live w₀ w where
  front : w.conn.state = .stateReq ∨ AtEnd w.received → Considered w₀ w

/-- A call is stopped by the request it executes, by a broken pipe, or by a read that fills the
buffer. -/
def Stopped (w₀ : World) (e : Stop) (w : World) : Prop :=
  CallInv w₀ w ∧ ((∃ f, e = .request f ∧ Refused f w) ∧ AllShort w.received ∨
    e = .sigpipe ∧ AllShort w.received ∧ w.conn.state = .stateRes ∨
    e = .assertion .afterRead ∧ ¬ AllShort w.received)

section Passages
variable {w₀ w w' : World}

theorem received_flushed (w : World) : w.flushed.received = w.received := rfl

theorem Responds.received (h : Responds w w') : w'.received = w.received := by
  obtain ⟨-, -, -, -⟩ := h
  rfl

theorem Filling.responds {stage : Stage} (h : Filling w₀ stage w) (hpoised : Poised w)
    (hresponds : Responds w w') :
    CallInv w₀ w'.flushed ∧ w'.flushed.received = w.received :=
  ⟨callInv_flushed (h.toCallInv.responds hpoised hresponds) (hresponds.sending hpoised).state,
    hresponds.received⟩

theorem Filling.passage {p q : Stage × World} (hpoised : Poised p.2) (h : Filling w₀ p.1 p.2)
    (hpassage : Passage p q) : Filling w₀ q.1 q.2 := by
  cases hpassage with
  | @read w w' bs hreads hdata hroom =>
    refine ⟨h.toCallInv.reads hreads, ?_, ?_, by simp⟩
    · rw [hreads.received]
      have hsize : w'.conn.rbufSize = w.conn.rbufSize + bs.length := by
        obtain ⟨-, -, -⟩ := hreads
        rfl
      refine h.short.snoc ?_
      dsimp only at hroom ⊢
      omega
    · rw [hreads.received]
      exact fun hend => h.notEnded (hend.of_snoc hdata)
  | respond hresponds _ _ =>
    obtain ⟨hinv, hreceived⟩ := h.responds hpoised hresponds
    exact ⟨hinv, hreceived ▸ h.short, hreceived ▸ h.notEnded, by simp⟩
  | dry hincomplete hwellFormed =>
    exact ⟨h.toCallInv, h.short, h.notEnded, fun _ => .inr ⟨hincomplete, hwellFormed⟩⟩

theorem Filling.filled {stage : Stage} (h : Filling w₀ stage w) (hpoised : Poised w)
    (hinv : CallInv w₀ w') (hroom : w'.conn.rbufSize = w.conn.rbufSize)
    (hreceived : w'.received = w.received)
    (hfront : w'.conn.state = .stateReq → Considered w₀ w') : Filled w₀ w' where
  toCallInv := hinv
  room := hroom ▸ hpoised.room
  short := hreceived ▸ h.short
  eof := fun hend => absurd (hreceived ▸ hend) h.notEnded
  front := fun hcase => hfront (hcase.resolve_right (hreceived ▸ h.notEnded))

def Finished (w₀ : World) : Option Stop → World → Prop
  | none, w => Filled w₀ w
  | some e, w => Stopped w₀ e w

theorem Filling.ends {p : Stage × World} {e : Option Stop} (hpoised : Poised p.2)
    (h : Filling w₀ p.1 p.2) (hends : Ending p.1 p.2 e w') : Finished w₀ e w' := by
  obtain ⟨stage, w⟩ := p
  cases hends with
  | blocked _ =>
    exact h.filled hpoised (h.toCallInv.withReads _) rfl rfl fun _ => h.front rfl
  | failed _ =>
    exact h.filled hpoised ((h.toCallInv.withReads _).ended
      ⟨hpoised.state, hpoised.wbufSize, hpoised.wbufSent, hpoised.room⟩) rfl rfl
      (by simp [World.ended])
  | @eof _ w' hreads =>
    have hpoised' : Poised w' := hreads.poised hpoised (by
      obtain ⟨-, -, -⟩ := hreads
      exact hpoised.room)
    have hfront := h.front rfl
    have hinput : w'.conn.input = w.conn.input := hreads.input.trans (List.append_nil _)
    refine ⟨⟨(h.toCallInv.reads hreads).ended hpoised', hpoised'.room, ?_, fun _ => rfl⟩,
      fun _ => ?_⟩
    · rw [World.ended, hreads.received]
      exact h.short.snoc (Nat.sub_pos_of_lt hpoised.room)
    · unfold Considered at hfront ⊢
      rw [← hinput] at hfront
      exact hfront
  | @full _ w' bs hreads hdata hfull =>
    refine ⟨h.toCallInv.reads hreads, .inr (.inr ⟨rfl, fun hall => ?_⟩)⟩
    -- a full buffer is what the second assertion does not allow for
    rw [hreads.received] at hall
    have hlt := hall (4 + kMaxMsg - w.conn.rbufSize, bs) (by simp)
    have hsize : w'.conn.rbufSize = w.conn.rbufSize + bs.length := by
      obtain ⟨-, -, -⟩ := hreads
      rfl
    dsimp only at hlt
    omega
  | malformed _ =>
    exact h.filled hpoised (h.toCallInv.ended hpoised) rfl rfl (by simp [World.ended])
  | refused hrefused => exact ⟨h.toCallInv, .inl ⟨⟨_, rfl, hrefused⟩, h.short⟩⟩
  | held hresponds _ hstate =>
    obtain ⟨hinv, hreceived⟩ := h.responds hpoised hresponds
    exact ⟨⟨hinv, (hresponds.rbufSize_lt hpoised).trans hpoised.room, hreceived ▸ h.short,
      fun hend => absurd (hreceived ▸ hend) h.notEnded⟩,
      fun hcase => hcase.elim (fun heq => absurd heq hstate)
        fun hend => absurd (hreceived ▸ hend) h.notEnded⟩
  | broken hresponds hbroken =>
    obtain ⟨hinv, hreceived⟩ := h.responds hpoised hresponds
    exact ⟨hinv, .inr (.inl ⟨rfl, hreceived ▸ h.short, flushed_of_broken hbroken⟩)⟩

end Passages

structure Start (w : World) : Prop where
  phase : Phase w.conn
  state : w.conn.state ≠ .stateEnd
  room : w.conn.rbufSize < 4 + kMaxMsg
  received : w.received = []
  sent : w.sent = []
  served : w.served = []

section Calls
variable {w : World}

theorem Start.callInv (h : Start w) : CallInv w w where
  fd := rfl
  size := h.room.le
  phase := h.phase
  executes := h.served ▸ .nil
  fits := by simp [h.served]
  input := by simp [h.received, h.served, stream, requests]
  output := by simp [h.sent, h.served, replies]
  unsent := by simp [h.served, lastReply]
  listening := id

theorem Start.poised (h : Start w) (hstate : w.conn.state = .stateReq) : Poised w :=
  h.phase.poised hstate h.room

theorem Start.filling (h : Start w) : Filling w .reading w where
  toCallInv := h.callInv
  short := by simp [h.received, AllShort]
  notEnded := by simp [h.received]
  front := fun _ => .inl rfl

theorem connectionIo_req (h : Start w) (hstate : w.conn.state = .stateReq) :
    wp connectionIo (fun _ w' => Filled w w') (Stopped w) w := by
  have hpoised := h.poised hstate
  refine wp_mono (connectionIo_call hpoised) (fun _ w' hcall => ?_) fun e w' hcall => ?_
  · exact hcall.rule Filling.passage Filling.ends hpoised h.filling
  · exact hcall.rule Filling.passage Filling.ends hpoised h.filling

theorem connectionIo_res (h : Start w) (hstate : w.conn.state = .stateRes)
    {Q : Unit → World → Prop} {E : Stop → World → Prop} :
    wp connectionIo Q E w ↔
      (w.broken = false → Q () w.flushed) ∧ (w.broken = true → E .sigpipe w.flushed) := by
  unfold connectionIo
  simp only [wp_bind, wp_getWorld, hstate]
  exact wp_stateRes (h.phase.sending hstate)

theorem Start.eq_flushed (h : Start w) (hstate : w.conn.state = .stateRes) {w' : World}
    (hrun : (connectionIo : Exec Unit) w = .ok () w') : w' = w.flushed := by
  have hwp : wp connectionIo (fun _ v => v = w.flushed) (fun _ _ => True) w :=
    (connectionIo_res h hstate).mpr ⟨fun _ => rfl, fun _ => trivial⟩
  exact (wp_of_ok hwp hrun :)

theorem Start.flushed (h : Start w) (hstate : w.conn.state = .stateRes) : Live w w.flushed where
  toCallInv := callInv_flushed h.callInv hstate
  room := by simpa only [World.flushed, Conn.pushed_rbufSize] using h.room
  short := h.filling.short
  eof := fun hend => absurd hend h.filling.notEnded

theorem connectionIo_spec (h : Start w) :
    wp connectionIo (fun _ w' => Live w w') (Stopped w) w := by
  cases hstate : w.conn.state with
  | stateReq =>
    exact wp_mono (connectionIo_req h hstate) (fun _ _ hw' => hw'.toLive) fun _ _ he => he
  | stateRes =>
    have hlive := h.flushed hstate
    exact (connectionIo_res h hstate).mpr ⟨fun _ => hlive, fun hbroken =>
      ⟨hlive.toCallInv, .inr (.inl ⟨rfl, hlive.short, flushed_of_broken hbroken⟩)⟩⟩
  | stateEnd => exact absurd hstate h.state

end Calls

end NanoRedis
