import NanoRedis.Server.History
import NanoRedis.Lib.Trace

/-! The buffers of a connection at every step of a call. The functions of the connection
are run with a log of their statements that change the world. -/

namespace NanoRedis
open Intrusive Wire Exec

abbrev TracedExec := Traced Stop World Mark

/-! ## The functions with their log -/

instance tracedLogging : Logging TracedExec where
  look := silent
  act k m := logged k (silent m)
  oneRound := logged .request

def tracedConnectionIo : TracedExec Unit := connectionIo

section Forget

theorem traces_look {α : Type} (m : Exec α) : Traces (look m : TracedExec α) (look m) :=
  Traces.silent m

theorem traces_act {α : Type} (k : Mark) (m : Exec α) : Traces (act k m : TracedExec α) (act k m) :=
  (Traces.silent m).logged k

theorem traces_oneRound {α : Type} {t : TracedExec α} {m : Exec α} (h : Traces t m) :
    Traces (oneRound t) (oneRound m) := h.logged _

theorem traces_flushBuffer : Traces (tryFlushBuffer : TracedExec Bool) tryFlushBuffer := by
  refine (traces_look _).bind fun w => (traces_look _).bind fun remain =>
    (traces_act _ _).bind fun rv => ?_
  cases rv with
  | eintr | eagain => exact Traces.pure _
  | sigpipe => exact traces_look _
  | failed => exact (traces_act _ _).bind fun _ => Traces.pure _
  | sent rv =>
    refine (traces_act _ _).bind fun _ => (traces_look _).bind fun _ =>
      (traces_look _).bind fun _ => Traces.ite ?_ (Traces.pure _)
    exact (traces_act _ _).bind fun _ => (traces_act _ _).bind fun _ => Traces.pure _

theorem traces_stateRes : Traces (stateRes : TracedExec Unit) stateRes :=
  (traces_look _).bind fun _ => (traces_look _).repeatWhile traces_flushBuffer _

theorem traces_oneRequest : Traces (tryOneRequest : TracedExec Bool) tryOneRequest := by
  refine traces_oneRound ?_
  refine (traces_look _).bind fun w => Traces.ite (Traces.pure _) <|
    (traces_look _).bind fun len =>
    Traces.ite ((traces_act _ _).bind fun _ => Traces.pure _) <|
    (traces_look _).bind fun avail => Traces.ite (Traces.pure _) <|
    (traces_look _).bind fun req => ?_
  cases req with
  | none => exact (traces_act _ _).bind fun _ => Traces.pure _
  | some cmd =>
    exact (traces_act _ _).bind fun _ => (traces_act _ _).bind fun _ =>
      (traces_look _).bind fun _ => (traces_look _).bind fun _ =>
      (traces_act _ _).bind fun _ => (traces_look _).bind fun _ =>
      (traces_look _).bind fun _ => (traces_act _ _).bind fun _ =>
      (traces_act _ _).bind fun _ => (traces_act _ _).bind fun _ =>
      traces_stateRes.bind fun _ => (traces_look _).bind fun _ => Traces.pure _

theorem traces_fillBuffer : Traces (tryFillBuffer : TracedExec Bool) tryFillBuffer := by
  refine (traces_look _).bind fun w => (traces_look _).bind fun _ =>
    (traces_look _).bind fun cap => (traces_act _ _).bind fun rv => ?_
  cases rv with
  | eintr | eagain => exact Traces.pure _
  | failed => exact (traces_act _ _).bind fun _ => Traces.pure _
  | data bs =>
    refine Traces.ite ((traces_act _ _).bind fun _ => Traces.pure _) ?_
    exact (traces_act _ _).bind fun _ => (traces_look _).bind fun _ =>
      (traces_look _).bind fun _ =>
      ((traces_look _).repeatWhile traces_oneRequest _).bind fun _ =>
      (traces_look _).bind fun _ => Traces.pure _

theorem traces_connectionIo : Traces tracedConnectionIo connectionIo := by
  apply (traces_look _).bind
  intro w
  cases w.conn.state with
  | stateReq =>
    exact (traces_look _).bind fun _ => (traces_look _).repeatWhile traces_fillBuffer _
  | stateRes => exact traces_stateRes
  | stateEnd => exact traces_look _

end Forget

/-! ## What the log shows -/

structure InBounds (c : Conn) : Prop where
  rbuf : c.rbufSize ≤ 4 + kMaxMsg
  sent : c.wbufSent ≤ c.wbufSize
  wbuf : c.wbufSize ≤ 4 + kMaxMsg

theorem InBounds.withState {c : Conn} (h : InBounds c) (state : ConnState) :
    InBounds { c with state := state } := ⟨h.rbuf, h.sent, h.wbuf⟩

def Shrinks (w w' : World) : Prop :=
  w'.served ≠ w.served → w'.conn.rbufSize + 8 ≤ w.conn.rbufSize

/-- Both ends of a logged passage are in bounds; a reply is packed only when none is pending; and
a round of the request loop that executes a request takes it off the buffer. -/
structure Sound (t : Transition World Mark) : Prop where
  before : InBounds t.before.conn
  after : InBounds t.after.conn
  idle : t.mark = .pack → t.before.conn.wbufSize = 0 ∧ t.before.conn.wbufSent = 0
  shrinks : t.mark = .request → Shrinks t.before t.after

def AllSound (log : List (Transition World Mark)) : Prop := ∀ t ∈ log, Sound t

theorem AllSound.snoc {log : List (Transition World Mark)} (h : AllSound log)
    {t : Transition World Mark} (ht : Sound t) : AllSound (log ++ [t]) := by
  intro t' ht'
  rcases List.mem_append.mp ht' with ht' | ht'
  · exact h t' ht'
  · obtain rfl := List.mem_singleton.mp ht'
    exact ht

theorem AllSound.statement {log : List (Transition World Mark)} {w w' : World} (h : AllSound log)
    (hw : InBounds w.conn) (hw' : InBounds w'.conn) : AllSound (log ++ [⟨.statement, w, w'⟩]) :=
  h.snoc ⟨hw, hw', nofun, nofun⟩

theorem AllSound.pack {log : List (Transition World Mark)} {w w' : World} (h : AllSound log)
    (hw : InBounds w.conn) (hw' : InBounds w'.conn)
    (hidle : w.conn.wbufSize = 0 ∧ w.conn.wbufSent = 0) : AllSound (log ++ [⟨.pack, w, w'⟩]) :=
  h.snoc ⟨hw, hw', fun _ => hidle, nofun⟩

theorem AllSound.request {log : List (Transition World Mark)} {w w' : World} (h : AllSound log)
    (hw : InBounds w.conn) (hw' : InBounds w'.conn) (hshrinks : Shrinks w w') :
    AllSound (log ++ [⟨.request, w, w'⟩]) :=
  h.snoc ⟨hw, hw', nofun, fun _ => hshrinks⟩

structure Calm (c : Conn) : Prop extends InBounds c where
  idle : c.state = .stateReq → c.wbufSize = 0 ∧ c.wbufSent = 0

theorem InBounds.calm {c : Conn} (h : InBounds c) (hstate : c.state ≠ .stateReq) : Calm c :=
  ⟨h, fun hreq => absurd hreq hstate⟩

section Rules
variable {α : Type} {w : World} {log : List (Transition World Mark)}
  {Q : α → World × List (Transition World Mark) → Prop}
  {E : Stop → World × List (Transition World Mark) → Prop}

theorem wp_look {m : Exec α} :
    wp (look m : TracedExec α) Q E (w, log) ↔
      wp m (fun a w' => Q a (w', log)) (fun e w' => E e (w', log)) w := wp_silent

theorem wp_act {k : Mark} {m : Exec α} :
    wp (act k m : TracedExec α) Q E (w, log) ↔
      wp m (fun a w' => Q a (w', log ++ [⟨k, w, w'⟩]))
        (fun e w' => E e (w', log ++ [⟨k, w, w'⟩])) w := wp_logged.trans wp_silent

theorem wp_oneRound {m : TracedExec α} :
    wp (oneRound m) Q E (w, log) ↔
      wp m (fun a r => Q a (r.1, r.2 ++ [⟨.request, w, r.1⟩]))
        (fun e r => E e (r.1, r.2 ++ [⟨.request, w, r.1⟩])) (w, log) := wp_logged

theorem wp_traced_stop {e : Stop} {r : World × List (Transition World Mark)} :
    wp (stop e : TracedExec α) Q E r ↔ E e r := Iff.rfl

theorem wp_fault {x : Except Fault α} {Q : α → World → Prop} {E : Stop → World → Prop} :
    wp (liftFault x) Q E w ↔
      (∀ a, x = .ok a → Q a w) ∧ ∀ f, x = .error f → E (.fault f) w := by
  cases x with
  | ok a => simp
  | error f => simp [liftFault, look_exec]

theorem wp_traced_fault {x : Except Fault α} :
    wp (liftFault x : TracedExec α) Q E (w, log) ↔
      (∀ a, x = .ok a → Q a (w, log)) ∧ ∀ f, x = .error f → E (.fault f) (w, log) :=
  wp_look.trans wp_fault

theorem wp_traced_subSize {a b : Nat} {Q : Nat → World × List (Transition World Mark) → Prop}
    (h : b ≤ a) : wp (subSize a b : TracedExec Nat) Q E (w, log) ↔ Q (a - b) (w, log) :=
  wp_look.trans (wp_subSize h)

end Rules

section Logged
variable {w : World} {log : List (Transition World Mark)}

theorem writeFrom_conn (w : World) (pos remain : Nat) :
    wp (writeFrom pos remain) (fun rv w' => w'.conn = w.conn ∧ ∀ n, rv = .sent n → n ≤ remain)
      (fun _ w' => w'.conn = w.conn) w := by
  unfold writeFrom
  simp only [act_exec, wp_bind, wp_get]
  cases hnext : nextWrite w.writes with
  | mk rv writes =>
    cases rv with
    | sent n =>
      simp only [wp_bind, wp_fault, wp_set, wp_pure]
      refine ⟨fun _ _ => ⟨trivial, fun m hm => ?_⟩, fun _ _ => trivial⟩
      obtain rfl : min n remain = m := by simpa using hm
      exact min_le_right _ _
    | eintr | eagain | failed | sigpipe => exact ⟨rfl, fun _ hsent => by cases hsent⟩

theorem flushBuffer_sound (h : Calm w.conn) (hlog : AllSound log) :
    wp (tryFlushBuffer : TracedExec Bool) (fun _ r => Calm r.1.conn ∧ AllSound r.2)
      (fun _ r => InBounds r.1.conn ∧ AllSound r.2) (w, log) := by
  have hb := h.toInBounds
  have hsent := hb.sent
  unfold tryFlushBuffer
  simp only [getWorld, subSize, wp_bind, wp_look, wp_get, if_pos hsent, wp_pure]
  refine wp_act.mpr (wp_mono (writeFrom_conn w _ _) (fun rv w' hw' => ?_) fun e w' hw' =>
    ⟨hw' ▸ hb, hlog.statement hb (hw' ▸ hb)⟩)
  obtain ⟨hconn, hle⟩ := hw'
  have hlog' : AllSound (log ++ [⟨.statement, w, w'⟩]) := hlog.statement hb (hconn ▸ hb)
  cases rv with
  | eintr | eagain => exact ⟨hconn ▸ h, hlog'⟩
  | sigpipe => exact wp_traced_stop.mpr ⟨hconn ▸ hb, hlog'⟩
  | failed =>
    rw [← hconn] at h hb
    simp only [setState, modifyConn, wp_bind, wp_act, wp_modify, wp_pure]
    exact ⟨(hb.withState _).calm (by simp), hlog'.statement hb (hb.withState _)⟩
  | sent n =>
    rw [← hconn] at h hb hsent hle
    have hn := hle n rfl
    have hgrown : Calm { w'.conn with wbufSent := w'.conn.wbufSent + n } :=
      ⟨⟨hb.rbuf, by dsimp only; omega, hb.wbuf⟩, fun hstate => by
        have hidle := h.idle hstate
        dsimp only
        omega⟩
    have hgrown' := hgrown.toInBounds
    simp only [modifyConn, assert, epollMod, wp_bind, wp_look, wp_act, wp_modify, wp_get, wp_ite,
      wp_pure, wp_throw]
    have hlog'' : AllSound (log ++ [⟨.statement, w, w'⟩] ++ [⟨.statement, w', { w' with
        conn := { w'.conn with wbufSent := w'.conn.wbufSent + n } }⟩]) :=
      hlog'.statement hb hgrown'
    refine ⟨fun _ => ⟨fun hall => ?_, fun _ => ⟨hgrown, hlog''⟩⟩, fun _ => ⟨hgrown', hlog''⟩⟩
    have hdone : InBounds { w'.conn with state := .stateReq, wbufSent := 0, wbufSize := 0 } :=
      ⟨hb.rbuf, le_rfl, Nat.zero_le _⟩
    exact ⟨⟨hdone, fun _ => ⟨rfl, rfl⟩⟩, (hlog''.statement hgrown' hdone).statement hdone hdone⟩

theorem stateRes_sound (h : Calm w.conn) (hlog : AllSound log) :
    wp (stateRes : TracedExec Unit) (fun _ r => Calm r.1.conn ∧ AllSound r.2)
      (fun _ r => InBounds r.1.conn ∧ AllSound r.2) (w, log) := by
  unfold stateRes
  simp only [getWorld, wp_bind, wp_look, wp_get]
  refine wp_repeatWhile_inv (fun r => Calm r.1.conn ∧ AllSound r.2) (fun r hr => ?_)
    (fun r hr => wp_traced_stop.mpr ⟨hr.1.toInBounds, hr.2⟩) _ ⟨h, hlog⟩
  exact wp_mono (flushBuffer_sound hr.1 hr.2) (fun more _ hr' => by simpa using hr')
    fun _ _ he => he

theorem four_le_of_parseReq {data : Bytes} {len : Nat} {cmd : Command}
    (h : parseReq data len = .ok (some cmd)) : 4 ≤ len := by
  by_contra hshort
  unfold parseReq at h
  rw [if_pos (not_le.mp hshort)] at h
  cases h

theorem answer_sound {w₀ : World} (h : Calm w.conn) (hlog : AllSound log)
    (hshrinks : w.conn.rbufSize + 8 ≤ w₀.conn.rbufSize) :
    wp (do
        stateRes
        return (← getWorld).conn.state == .stateReq : TracedExec Bool)
      (fun more r => Calm r.1.conn ∧ AllSound r.2 ∧ (more → r.1.conn.state = .stateReq) ∧
        Shrinks w₀ r.1)
      (fun _ r => InBounds r.1.conn ∧ AllSound r.2 ∧ Shrinks w₀ r.1) (w, log) := by
  have hkeeps := traces_stateRes.wp_of (stateRes_keeps w) log
  rw [wp_bind]
  refine wp_mono (wp_and (stateRes_sound h hlog) hkeeps) (fun _ r hr => ?_) fun _ r hr => ?_
  · obtain ⟨⟨hcalm, hlog'⟩, hkept⟩ := hr
    exact ⟨hcalm, hlog', fun hmore => eq_of_beq hmore, fun _ => hkept.rbufSize ▸ hshrinks⟩
  · obtain ⟨⟨hb, hlog'⟩, hkept, -⟩ := hr
    exact ⟨hb, hlog', fun _ => hkept.rbufSize ▸ hshrinks⟩

theorem oneRequest_sound (h : Calm w.conn) (hstate : w.conn.state = .stateReq)
    (hlog : AllSound log) :
    wp (tryOneRequest : TracedExec Bool)
      (fun more r => Calm r.1.conn ∧ AllSound r.2 ∧ (more → r.1.conn.state = .stateReq))
      (fun _ r => InBounds r.1.conn ∧ AllSound r.2) (w, log) := by
  have hb := h.toInBounds
  have hend : ∀ st, InBounds { w.conn with state := st } := fun st => hb.withState st
  have hsame : Shrinks w w := fun hne => absurd rfl hne
  unfold tryOneRequest
  -- a round is sound if what it runs is and shrinks the buffer
  rw [wp_oneRound]
  refine wp_mono
    (Q := fun more (r : World × List (Transition World Mark)) => Calm r.1.conn ∧ AllSound r.2 ∧
      (more = true → r.1.conn.state = .stateReq) ∧ Shrinks w r.1)
    (E := fun _ (r : World × List (Transition World Mark)) => InBounds r.1.conn ∧ AllSound r.2 ∧
      Shrinks w r.1) ?_
    (fun more r hr => ⟨hr.1, hr.2.1.request hb hr.1.toInBounds hr.2.2.2, hr.2.2.1⟩)
    fun _ r hr => ⟨hr.1, hr.2.1.request hb hr.1 hr.2.2⟩
  simp only [getWorld, setState, modifyConn, wp_bind, wp_look, wp_act, wp_get, wp_modify, wp_ite,
    wp_pure, wp_traced_fault]
  refine ⟨fun _ => ⟨h, hlog, Bool.false_ne_true.elim, hsame⟩, fun hfour =>
    ⟨fun len _ => ?_, fun _ _ => ⟨hb, hlog, hsame⟩⟩⟩
  refine ⟨fun _ => ⟨(hend _).calm (by simp), hlog.statement hb (hend _), Bool.false_ne_true.elim,
    fun hne => absurd rfl hne⟩, fun hmax => ?_⟩
  rw [wp_traced_subSize (not_lt.mp hfour)]
  simp only [wp_ite, wp_bind, wp_pure, wp_traced_fault]
  refine ⟨fun _ => ⟨h, hlog, Bool.false_ne_true.elim, hsame⟩, fun hwhole =>
    ⟨fun req hreq => ?_, fun _ _ => ⟨hb, hlog, hsame⟩⟩⟩
  cases req with
  | none =>
    simp only [wp_bind, wp_act, wp_modify, wp_pure]
    exact ⟨(hend _).calm (by simp), hlog.statement hb (hend _), Bool.false_ne_true.elim,
      fun hne => absurd rfl hne⟩
  | some cmd =>
    have hlen := four_le_of_parseReq hreq
    have hk : kMaxMsg < 2 ^ 31 := by decide
    have hsum : (4 + len).toNat = 4 + len.toNat := toNat_four_add (by omega)
    simp only [runRequest, packReply, epollMod, modifyConn, liftFault, subSize, wp_bind, wp_act,
      wp_look, wp_get]
    cases hrun : doRequest cmd [] w.store with
    | error f => exact ⟨hb, hlog.statement hb hb, hsame⟩
    | ok res =>
      obtain ⟨out, store⟩ := res
      obtain ⟨hwlen, wbuf₁, wbuf, hwrite₁, hwrite₂, -⟩ :=
        packReply_ok w.conn.wbuf (length_fitReply out)
      obtain ⟨rbuf, hshift, -⟩ := shiftDown_input hb.rbuf (n := 4 + len.toNat) (by omega)
      have hfit := length_fitReply out
      have hidle := h.idle hstate
      have hwhole' : 4 + len.toNat ≤ w.conn.rbufSize := by omega
      simp only [wp_bind, wp_set, wp_pure, wp_modify, act_exec, hwrite₁, hwrite₂, hsum, hwlen,
        if_pos hwhole', hshift]
      have hpacked : InBounds { w.conn with wbuf := wbuf, wbufSize := 4 + (fitReply out).length } :=
        ⟨hb.rbuf, by dsimp only; omega, by dsimp only; omega⟩
      have htaken : ∀ st, InBounds { w.conn with
          wbuf := wbuf, wbufSize := 4 + (fitReply out).length, rbuf := rbuf,
          rbufSize := w.conn.rbufSize - (4 + len.toNat), state := st } := fun _ =>
        ⟨by have := hb.rbuf; dsimp only; omega, hpacked.sent, hpacked.wbuf⟩
      rw [← wp_bind]
      refine answer_sound ((htaken _).calm (by simp)) ?_ (by dsimp only; omega)
      have hran : AllSound (log ++ [⟨.statement, w, { w with store := store }⟩] ++ [⟨.statement,
          { w with store := store },
          { w with store := store, served := w.served ++ [⟨cmd, fitReply out⟩] }⟩]) :=
        AllSound.statement (AllSound.statement hlog hb hb) hb hb
      exact AllSound.statement (AllSound.statement (AllSound.statement (AllSound.pack hran
        hb hpacked hidle) hpacked (htaken _)) (htaken _) (htaken _)) (htaken _) (htaken _)

theorem readInto_conn (w : World) (pos cap : Nat) :
    wp (readInto pos cap)
      (fun rv w' => (∃ rbuf, w'.conn = { w.conn with rbuf := rbuf }) ∧
        ∀ bs, rv = .data bs → bs.length ≤ cap)
      (fun _ w' => w' = w) w := by
  unfold readInto
  simp only [act_exec, wp_bind, wp_get]
  cases hnext : nextRead w.reads with
  | mk rv reads =>
    cases rv with
    | data ds =>
      simp only [wp_bind, wp_fault, wp_set, wp_pure]
      refine ⟨fun rbuf _ => ⟨⟨rbuf, rfl⟩, fun bs hbs => ?_⟩, fun _ _ => trivial⟩
      obtain rfl : ds.take cap = bs := by simpa using hbs
      rw [List.length_take]
      exact min_le_left _ _
    | eintr | eagain | failed => exact ⟨⟨w.conn.rbuf, rfl⟩, fun _ hdata => by cases hdata⟩

theorem loop_sound {body : TracedExec Bool}
    (hbody : ∀ w log, Calm w.conn → w.conn.state = .stateReq → AllSound log →
      wp body (fun more r => Calm r.1.conn ∧ AllSound r.2 ∧ (more → r.1.conn.state = .stateReq))
        (fun _ r => InBounds r.1.conn ∧ AllSound r.2) (w, log))
    (h : Calm w.conn) (hstate : w.conn.state = .stateReq) (hlog : AllSound log) (fuel : Nat) :
    wp (repeatWhile (stop (.fault .diverges)) body fuel) (fun _ r => Calm r.1.conn ∧ AllSound r.2)
      (fun _ r => InBounds r.1.conn ∧ AllSound r.2) (w, log) := by
  refine wp_repeatWhile_inv
    (fun r => (Calm r.1.conn ∧ AllSound r.2) ∧ r.1.conn.state = .stateReq) (fun r hr => ?_)
    (fun r hr => wp_traced_stop.mpr ⟨hr.1.1.toInBounds, hr.1.2⟩) fuel ⟨⟨h, hlog⟩, hstate⟩
  refine wp_mono (hbody r.1 r.2 hr.1.1 hr.2 hr.1.2) (fun more r' hr' => ?_) fun _ _ he => he
  obtain ⟨hcalm, hlog', hmore⟩ := hr'
  cases more with
  | true => exact ⟨⟨hcalm, hlog'⟩, hmore rfl⟩
  | false => exact ⟨hcalm, hlog'⟩

theorem fillBuffer_sound (h : Calm w.conn) (hstate : w.conn.state = .stateReq)
    (hlog : AllSound log) :
    wp (tryFillBuffer : TracedExec Bool)
      (fun more r => Calm r.1.conn ∧ AllSound r.2 ∧ (more → r.1.conn.state = .stateReq))
      (fun _ r => InBounds r.1.conn ∧ AllSound r.2) (w, log) := by
  have hb := h.toInBounds
  unfold tryFillBuffer
  simp only [getWorld, assert, subSize, wp_bind, wp_look, wp_get, wp_ite, wp_pure, wp_throw]
  refine ⟨fun _ => ⟨fun _ => ?_, fun hroom => absurd hb.rbuf hroom⟩, fun _ => ⟨hb, hlog⟩⟩
  refine wp_act.mpr (wp_mono (readInto_conn w _ _) (fun rv w' hw' => ?_) fun e w' hw' =>
    ⟨hw' ▸ hb, hlog.statement hb (hw' ▸ hb)⟩)
  obtain ⟨⟨rbuf, hconn⟩, hle⟩ := hw'
  have hcalm : Calm w'.conn := by
    rw [hconn]
    exact ⟨⟨hb.rbuf, hb.sent, hb.wbuf⟩, h.idle⟩
  have hstate' : w'.conn.state = .stateReq := by rw [hconn, hstate]
  have hsize : w'.conn.rbufSize = w.conn.rbufSize := by rw [hconn]
  have hb' := hcalm.toInBounds
  have hlog' : AllSound (log ++ [⟨.statement, w, w'⟩]) := hlog.statement hb hb'
  cases rv with
  | eintr | eagain => exact ⟨hcalm, hlog', Bool.false_ne_true.elim⟩
  | failed =>
    simp only [setState, modifyConn, wp_bind, wp_act, wp_modify, wp_pure]
    exact ⟨(hb'.withState _).calm (by simp), hlog'.statement hb' (hb'.withState _),
      Bool.false_ne_true.elim⟩
  | data bs =>
    have hbs := hle bs rfl
    simp only [setState, modifyConn, wp_ite, wp_bind, wp_look, wp_act, wp_get, wp_modify,
      wp_pure, wp_throw]
    refine ⟨fun _ => ⟨(hb'.withState _).calm (by simp), hlog'.statement hb' (hb'.withState _),
      Bool.false_ne_true.elim⟩, fun _ => ?_⟩
    have hgrown : Calm { w'.conn with rbufSize := w'.conn.rbufSize + bs.length } :=
      ⟨⟨by dsimp only; omega, hb'.sent, hb'.wbuf⟩, hcalm.idle⟩
    have hlog'' : AllSound (log ++ [⟨.statement, w, w'⟩] ++ [⟨.statement, w', { w' with
        conn := { w'.conn with rbufSize := w'.conn.rbufSize + bs.length } }⟩]) :=
      hlog'.statement hb' hgrown.toInBounds
    refine ⟨fun _ => ?_, fun _ => ⟨hgrown.toInBounds, hlog''⟩⟩
    refine wp_mono (loop_sound
      (w := { w' with conn := { w'.conn with rbufSize := w'.conn.rbufSize + bs.length } })
      (fun _ _ => oneRequest_sound) hgrown hstate' hlog'' _) (fun _ r hr => ?_) fun _ _ he => he
    exact ⟨hr.1, hr.2, fun hmore => eq_of_beq hmore⟩

theorem connectionIo_sound (h : Calm w.conn) :
    wp tracedConnectionIo (fun _ r => InBounds r.1.conn ∧ AllSound r.2)
      (fun _ r => InBounds r.1.conn ∧ AllSound r.2) (w, []) := by
  have hnil : AllSound [] := fun _ ht => absurd ht (List.not_mem_nil)
  unfold tracedConnectionIo connectionIo
  simp only [getWorld, wp_bind, wp_look, wp_get]
  cases hstate : w.conn.state with
  | stateReq =>
    simp only [stateReq, getWorld, wp_bind, wp_look, wp_get]
    exact wp_mono (loop_sound (fun _ _ => fillBuffer_sound) h hstate hnil _)
      (fun _ _ hr => ⟨hr.1.toInBounds, hr.2⟩) fun _ _ he => he
  | stateRes =>
    exact wp_mono (stateRes_sound h hnil) (fun _ _ hr => ⟨hr.1.toInBounds, hr.2⟩) fun _ _ he => he
  | stateEnd => exact wp_traced_stop.mpr ⟨h.toInBounds, hnil⟩

end Logged

def World.log (w : World) : List (Transition World Mark) :=
  match tracedConnectionIo (w, []) with
  | .ok _ r => r.2
  | .error _ r => r.2

theorem Phase.inBounds {c : Conn} (h : Phase c) :
    c.wbufSent ≤ c.wbufSize ∧ c.wbufSize ≤ 4 + kMaxMsg := by
  unfold Phase at h
  split at h <;> omega

theorem Start.calm {w : World} (h : Start w) : Calm w.conn := by
  refine ⟨⟨h.room.le, h.phase.inBounds.1, h.phase.inBounds.2⟩, fun hstate => ?_⟩
  have hphase := h.phase
  rwa [Phase, hstate] at hphase

theorem log_sound {w : World} (h : Start w) : AllSound w.log := by
  have hsound := connectionIo_sound h.calm
  unfold wp at hsound
  unfold World.log
  cases hrun : tracedConnectionIo (w, []) with
  | ok a r =>
    rw [hrun] at hsound
    exact hsound.2
  | error e r =>
    rw [hrun] at hsound
    exact hsound.2

/-- In any call of any run the log, which changes nothing about the call, shows every statement in
bounds; and the call returns or is stopped by the request it executes, by an assertion or by a
signal, so no access misses its buffer, no subtraction wraps and no loop runs on. -/
theorem buffers_in_bounds {blocks : Nat → Block} {events : List Event} {s : Server}
    (hrun : Run.run serverStep (.start blocks) events = .ok s) {fd p : Nat} {c : Conn}
    (hloc : s.locate fd = .ok (p, c)) (reads : List ReadResult) (writes : List WriteResult) :
    Traces tracedConnectionIo connectionIo ∧ InBounds c ∧
      (∀ t ∈ (s.enter c reads writes).log, Sound t) ∧
      wp connectionIo (fun _ w' => InBounds w'.conn)
        (fun e w' => InBounds w'.conn ∧
          ((∃ f, e = .request f) ∨ (∃ a, e = .assertion a) ∨ e = .sigpipe))
        (s.enter c reads writes) := by
  obtain ⟨hord, hopen⟩ := run_start hrun
  have hstart := start_enter hord hopen (locate_eq_ok hloc) reads writes
  refine ⟨traces_connectionIo, hstart.calm.toInBounds, log_sound hstart, ?_⟩
  refine wp_mono (connectionIo_spec hstart) (fun _ w' hlive => ?_) fun e w' hstop => ?_
  · exact ⟨hlive.size, hlive.phase.inBounds.1, hlive.phase.inBounds.2⟩
  · obtain ⟨hinv, hwhy⟩ := hstop
    refine ⟨⟨hinv.size, hinv.phase.inBounds.1, hinv.phase.inBounds.2⟩, ?_⟩
    obtain ⟨⟨f, rfl, -⟩, -⟩ | ⟨rfl, -⟩ | ⟨rfl, -⟩ := hwhy
    · exact .inl ⟨f, rfl⟩
    · exact .inr (.inr rfl)
    · exact .inr (.inl ⟨_, rfl⟩)

def fresh : Conn := { fd := 5, rbuf := .zero _, wbuf := .zero _ }

def freshCall : World :=
  ((Server.start zeroed).acceptNewConn 5 (.zero _) (.zero _)).enter fresh
    [.data (frame (encodeReq [ascii ['k', 'e', 'y', 's']]) ++
      frame (encodeReq [ascii ['k', 'e', 'y', 's']]))] [.sent 100]

example : (freshCall.log.filter fun t => t.mark ≠ .statement).map
    (fun t => (t.mark, t.before.conn.rbufSize, t.after.conn.rbufSize)) =
      [(.pack, 32, 32), (.request, 32, 16), (.pack, 16, 16), (.request, 16, 0)] := by decide +kernel

theorem buffers_in_bounds_fresh :
    Traces tracedConnectionIo connectionIo ∧ InBounds fresh ∧ (∀ t ∈ freshCall.log, Sound t) ∧
      wp connectionIo (fun _ w' => InBounds w'.conn)
        (fun e w' => InBounds w'.conn ∧
          ((∃ f, e = .request f) ∨ (∃ a, e = .assertion a) ∨ e = .sigpipe)) freshCall := by
  have hrun : Run.run serverStep (.start zeroed) [.listener (some 5) (.zero _) (.zero _)] =
      .ok ((Server.start zeroed).acceptNewConn 5 (.zero _) (.zero _)) := rfl
  have hloc : ((Server.start zeroed).acceptNewConn 5 (.zero _) (.zero _)).locate 5 =
      .ok (0, fresh) := rfl
  exact buffers_in_bounds hrun hloc _ _

end NanoRedis
