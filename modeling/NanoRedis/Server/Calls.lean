import NanoRedis.Server.Serve
import Mathlib.Logic.Relation

/-! What a call of `connection_io` can do in `STATE_REQ`, one passage at a time. -/

namespace NanoRedis
open Wire Exec Relation

def Refused (f : Fault) (w : World) : Prop :=
  ∃ cmd rest, w.conn.input = frame (encodeReq cmd) ++ rest ∧
    (encodeReq cmd).length ≤ kMaxMsg ∧ doRequest cmd [] w.store = .error f

inductive Responds (w : World) : World → Prop
  | intro {cmd : Command} {out rest : Bytes} {store : Store} {conn : Conn}
      (input : w.conn.input = frame (encodeReq cmd) ++ rest)
      (fits : (encodeReq cmd).length ≤ kMaxMsg)
      (request : doRequest cmd [] w.store = .ok (out, store))
      (packed : Packed w.conn conn (fitReply out) rest) :
      Responds w { w with
        conn := conn, store := store, interest := .epollout,
        served := w.served ++ [⟨cmd, fitReply out⟩] }

def World.ended (w : World) : World := { w with conn := { w.conn with state := .stateEnd } }

variable {w w' : World}

theorem tryOneRequest_cases (hsize : w.conn.rbufSize ≤ 4 + kMaxMsg) :
    ((¬ HoldsFrame w.conn.input ∧ ¬ Malformed w.conn.input) ∧
        (tryOneRequest : Exec Bool) w = .ok false w) ∨
      (Malformed w.conn.input ∧ (tryOneRequest : Exec Bool) w = .ok false w.ended) ∨
      (∃ f, Refused f w ∧ (tryOneRequest : Exec Bool) w = .error (.request f) w) ∨
      ∃ w', Responds w w' ∧ ∀ Q E, wp tryOneRequest Q E w ↔
        wp stateRes (fun _ w'' => Q (w''.conn.state == .stateReq) w'') E w' := by
  rcases front_cases w.conn.input with hfront | hbad | ⟨cmd, rest, hinput, hmax⟩
  · exact .inl ⟨hfront, tryOneRequest_short hsize hfront.1 hfront.2⟩
  · exact .inr (.inl ⟨hbad, tryOneRequest_bad hsize hbad⟩)
  · have hrun := tryOneRequest_request hsize hinput hmax
    cases hreq : doRequest cmd [] w.store with
    | error f =>
      simp only [hreq] at hrun
      exact .inr (.inr (.inl ⟨f, ⟨cmd, rest, hinput, hmax, hreq⟩, hrun⟩))
    | ok res =>
      obtain ⟨out, store⟩ := res
      simp only [hreq] at hrun
      obtain ⟨conn, hpacked, hwp⟩ := hrun
      exact .inr (.inr (.inr ⟨_, ⟨hinput, hmax, hreq, hpacked⟩, hwp⟩))

/-! ## Passages -/

structure Poised (w : World) : Prop where
  state : w.conn.state = .stateReq
  wbufSize : w.conn.wbufSize = 0
  wbufSent : w.conn.wbufSent = 0
  room : w.conn.rbufSize < 4 + kMaxMsg

def World.taken (w : World) (rbuf : Buffer (4 + kMaxMsg)) (bs : Bytes)
    (reads : List ReadResult) : World :=
  { w with
    conn := { w.conn with rbuf := rbuf, rbufSize := w.conn.rbufSize + bs.length }
    reads := reads
    received := w.received ++ [(4 + kMaxMsg - w.conn.rbufSize, bs)] }

inductive Reads (w : World) (bs : Bytes) : World → Prop
  | intro {ds : Bytes} {rbuf : Buffer (4 + kMaxMsg)} {reads : List ReadResult}
      (next : nextRead w.reads = (.data ds, reads))
      (size : w.conn.rbufSize + bs.length ≤ 4 + kMaxMsg)
      (input : rbuf.bytes.take (w.conn.rbufSize + bs.length) = w.conn.input ++ bs) :
      Reads w bs (w.taken rbuf bs reads)

/-- Where `state_req` has come to: the next `read()`, or the next request in the buffer. -/
inductive Stage
  | reading
  | serving

inductive Passage : Stage × World → Stage × World → Prop
  | read {w w' : World} {bs : Bytes} (reads : Reads w bs w') (data : bs ≠ [])
      (room : w'.conn.rbufSize < 4 + kMaxMsg) : Passage (.reading, w) (.serving, w')
  | respond {w w' : World} (responds : Responds w w') (alive : w'.broken = false)
      (state : w'.flushed.conn.state = .stateReq) : Passage (.serving, w) (.serving, w'.flushed)
  | dry {w : World} (incomplete : ¬ HoldsFrame w.conn.input)
      (wellFormed : ¬ Malformed w.conn.input) : Passage (.serving, w) (.reading, w)

inductive Ending : Stage → World → Option Stop → World → Prop
  | blocked {w : World} {reads : List ReadResult} (next : nextRead w.reads = (.eagain, reads)) :
      Ending .reading w none { w with reads := reads }
  | failed {w : World} {reads : List ReadResult} (next : nextRead w.reads = (.failed, reads)) :
      Ending .reading w none { w with reads := reads }.ended
  | eof {w w' : World} (reads : Reads w [] w') : Ending .reading w none w'.ended
  | full {w w' : World} {bs : Bytes} (reads : Reads w bs w') (data : bs ≠ [])
      (noRoom : ¬ w'.conn.rbufSize < 4 + kMaxMsg) :
      Ending .reading w (some (.assertion .afterRead)) w'
  | malformed {w : World} (bad : Malformed w.conn.input) : Ending .serving w none w.ended
  | refused {w : World} {f : Fault} (refused : Refused f w) :
      Ending .serving w (some (.request f)) w
  | held {w w' : World} (responds : Responds w w') (alive : w'.broken = false)
      (state : w'.flushed.conn.state ≠ .stateReq) : Ending .serving w none w'.flushed
  | broken {w w' : World} (responds : Responds w w') (broken : w'.broken = true) :
      Ending .serving w (some .sigpipe) w'.flushed

theorem nextRead_ne_eintr (reads : List ReadResult) : (nextRead reads).1 ≠ .eintr := by
  induction reads with
  | nil => simp [nextRead]
  | cons rv reads ih =>
    cases rv with
    | eintr => exact ih
    | data _ | eagain | failed => simp [nextRead]

theorem length_nextRead_lt {reads rest : List ReadResult} {bs : Bytes}
    (h : nextRead reads = (.data bs, rest)) :
    rest.length < reads.length := by
  induction reads with
  | nil => simp [nextRead] at h
  | cons rv reads ih =>
    cases rv with
    | eintr => exact (ih h).trans (by simp)
    | data ds =>
      obtain ⟨-, rfl⟩ : ds = bs ∧ reads = rest := by simpa [nextRead] using h
      simp
    | eagain | failed => simp [nextRead] at h

section Facts
variable {bs : Bytes}

theorem Reads.input (h : Reads w bs w') : w'.conn.input = w.conn.input ++ bs := by
  obtain ⟨-, -, hinput⟩ := h
  exact hinput

theorem Reads.received (h : Reads w bs w') :
    w'.received = w.received ++ [(4 + kMaxMsg - w.conn.rbufSize, bs)] := by
  obtain ⟨-, -, -⟩ := h
  rfl

theorem Reads.poised (h : Reads w bs w') (hw : Poised w) (hroom : w'.conn.rbufSize < 4 + kMaxMsg) :
    Poised w' := by
  obtain ⟨-, -, -⟩ := h
  exact ⟨hw.state, hw.wbufSize, hw.wbufSent, hroom⟩

theorem Responds.sending (h : Responds w w') (hw : Poised w) : Sending w'.conn := by
  obtain ⟨-, -, -, hpacked⟩ := h
  exact hpacked.sending hw.wbufSent (length_fitReply _)

theorem Responds.rbufSize_lt (h : Responds w w') (hw : Poised w) :
    w'.flushed.conn.rbufSize < w.conn.rbufSize := by
  obtain ⟨hinput, -, -, hpacked⟩ := h
  have hlen := length_input hw.room.le
  rw [hinput, List.length_append, frame, List.length_append, length_le32] at hlen
  simp only [World.flushed, Conn.pushed_rbufSize, hpacked.rbufSize]
  omega

theorem Responds.poised (h : Responds w w') (hw : Poised w)
    (hstate : w'.flushed.conn.state = .stateReq) : Poised w'.flushed := by
  have hpushed : (pushOut w'.writes (w'.conn.wbufSize - w'.conn.wbufSent)).2.1 = .stateReq := by
    simpa [World.flushed] using hstate
  refine ⟨hstate, ?_, ?_, (h.rbufSize_lt hw).trans hw.room⟩
  · simp [World.flushed, Conn.pushed, hpushed]
  · simp [World.flushed, Conn.pushed, hpushed]

theorem Passage.poised {p q : Stage × World} (h : Passage p q) (hp : Poised p.2) : Poised q.2 := by
  cases h with
  | read reads _ room => exact reads.poised hp room
  | respond responds _ state => exact responds.poised hp state
  | dry => exact hp

end Facts

def Call (w : World) (e : Option Stop) (w' : World) : Prop :=
  ∃ p, ReflTransGen Passage (.reading, w) p ∧ Ending p.1 p.2 e w'

/-- What a passage keeps, a call keeps until it ends. -/
theorem Call.rule {I : Stage → World → Prop} {Q : Option Stop → World → Prop} {e : Option Stop}
    (hstep : ∀ {p q}, Poised p.2 → I p.1 p.2 → Passage p q → I q.1 q.2)
    (hend : ∀ {p : Stage × World} {e w'}, Poised p.2 → I p.1 p.2 → Ending p.1 p.2 e w' → Q e w')
    (h : Call w e w') (hpoised : Poised w) (hw : I .reading w) : Q e w' := by
  obtain ⟨p, hpassages, hends⟩ := h
  suffices hp : Poised p.2 ∧ I p.1 p.2 from hend hp.1 hp.2 hends
  clear hends
  induction hpassages with
  | refl => exact ⟨hpoised, hw⟩
  | tail _ hpassage ih => exact ⟨hpassage.poised ih.1, hstep ih.1 ih.2 hpassage⟩

/-! ## The functions -/

section Functions
variable {w₀ : World}

theorem requestLoop_call (hpassages : ReflTransGen Passage (.reading, w₀) (.serving, w))
    (hw : Poised w) :
    wp (repeatWhile (stop (.fault .diverges)) tryOneRequest (w.conn.rbufSize + 1))
      (fun _ w' => if w'.conn.state = .stateReq
        then (ReflTransGen Passage (.reading, w₀) (.reading, w') ∧ Poised w') ∧ w'.reads = w.reads
        else Call w₀ none w')
      (fun e w' => Call w₀ (some e) w') w := by
  refine wp_repeatWhile
    (fun w' => (ReflTransGen Passage (.reading, w₀) (.serving, w') ∧ Poised w') ∧
      w'.reads = w.reads)
    (fun w' => w'.conn.rbufSize) (fun w' hw' => ?_) ⟨⟨hpassages, hw⟩, rfl⟩ (Nat.lt_succ_self _)
  obtain ⟨⟨hpassages, hw'⟩, hreads⟩ := hw'
  rcases tryOneRequest_cases hw'.room.le with
    ⟨hfront, hrun⟩ | ⟨hbad, hrun⟩ | ⟨f, hrefused, hrun⟩ | ⟨v, hresponds, hwp⟩
  · refine wp_of_eq_ok hrun ?_
    simp only [Bool.false_eq_true, if_false, if_pos hw'.state]
    exact ⟨⟨hpassages.tail (.dry hfront.1 hfront.2), hw'⟩, hreads⟩
  · refine wp_of_eq_ok hrun ?_
    simp only [Bool.false_eq_true, if_false, World.ended, reduceCtorEq]
    exact ⟨_, hpassages, .malformed hbad⟩
  · exact wp_of_eq_error hrun ⟨_, hpassages, .refused hrefused⟩
  · have hkept : v.flushed.reads = w'.reads := by
      obtain ⟨-, -, -, -⟩ := hresponds
      rfl
    rw [hwp, wp_stateRes (hresponds.sending hw')]
    refine ⟨fun halive => ?_, fun hbroken => ⟨_, hpassages, .broken hresponds hbroken⟩⟩
    by_cases hstate : v.flushed.conn.state = .stateReq
    · simp only [beq_iff_eq, hstate, if_true]
      exact ⟨⟨⟨hpassages.tail (.respond hresponds halive hstate), hresponds.poised hw' hstate⟩,
        hkept.trans hreads⟩, hresponds.rbufSize_lt hw'⟩
    · simp only [beq_iff_eq, hstate, if_false]
      exact ⟨_, hpassages, .held hresponds halive hstate⟩

theorem tryFillBuffer_call (hpassages : ReflTransGen Passage (.reading, w₀) (.reading, w))
    (hw : Poised w) :
    wp tryFillBuffer
      (fun more w' => if more
        then (ReflTransGen Passage (.reading, w₀) (.reading, w') ∧ Poised w') ∧
          w'.reads.length < w.reads.length
        else Call w₀ none w')
      (fun e w' => Call w₀ (some e) w') w := by
  have hroom := hw.room
  have hcap := w.conn.rbuf.length_eq
  unfold tryFillBuffer
  simp only [wp_bind, wp_getWorld, wp_assert, wp_subSize hroom.le, readInto, act_exec, wp_get]
  refine ⟨fun _ => ?_, fun hfull => absurd hroom hfull⟩
  cases hnext : nextRead w.reads with
  | mk rv reads =>
    cases rv with
    | eintr => exact absurd (congrArg Prod.fst hnext) (nextRead_ne_eintr _)
    | eagain => exact ⟨_, hpassages, .blocked hnext⟩
    | failed => exact ⟨_, hpassages, .failed hnext⟩
    | data ds =>
      dsimp only
      generalize hbs : ds.take (4 + kMaxMsg - w.conn.rbufSize) = bs
      have hfit : bs.length ≤ 4 + kMaxMsg - w.conn.rbufSize := by
        rw [← hbs, List.length_take]
        exact min_le_left _ _
      obtain ⟨rbuf, hwrite, htake⟩ := writeBytes_take w.conn.rbuf w.conn.rbufSize bs (by omega)
      have hreads : Reads w bs (w.taken rbuf bs reads) := ⟨hnext, by omega, htake⟩
      simp only [wp_bind, hwrite, wp_liftFault_ok, wp_set, wp_pure, wp_ite, wp_setState,
        wp_modifyConn, wp_getWorld, wp_assert, List.length_eq_zero_iff]
      refine ⟨fun heof => ?_, fun hdata => ⟨fun hshort => ?_, fun hfull => ?_⟩⟩
      · subst heof
        exact ⟨_, hpassages, .eof hreads⟩
      · refine wp_mono (requestLoop_call (hpassages.tail (.read hreads hdata hshort))
          (hreads.poised hw hshort)) (fun _ w' hw' => ?_) fun _ _ he => he
        simp only [wp_bind, wp_getWorld, wp_pure]
        by_cases hstate : w'.conn.state = .stateReq
        · rw [if_pos hstate] at hw'
          simp only [beq_iff_eq, hstate, if_true]
          have hless := length_nextRead_lt hnext
          exact ⟨hw'.1, hw'.2 ▸ hless⟩
        · rw [if_neg hstate] at hw'
          simpa only [beq_iff_eq, hstate, if_false] using hw'
      · exact ⟨_, hpassages, .full hreads hdata hfull⟩

theorem connectionIo_call (hw : Poised w) :
    wp connectionIo (fun _ w' => Call w none w') (fun e w' => Call w (some e) w') w := by
  unfold connectionIo stateReq
  simp only [wp_bind, wp_getWorld, hw.state]
  refine wp_repeatWhile
    (fun w' => ReflTransGen Passage (.reading, w) (.reading, w') ∧ Poised w')
    (fun w' => w'.reads.length) (fun w' hw' => ?_) ⟨.refl, hw⟩ (Nat.lt_succ_self _)
  exact tryFillBuffer_call hw'.1 hw'.2

end Functions

end NanoRedis
