import NanoRedis.Server.Connection
import NanoRedis.Server.Loop

/-! The server over whole runs: what its record says about each connection. -/

namespace NanoRedis
open Intrusive Wire Exec

def Server.servedBy (s : Server) (p : Nat) : List Served :=
  (s.served.filter fun e => e.1 = p).map Prod.snd

/-- The connection at `p` got its requests from the front of its stream, with `input` left,
and its replies in order, with `pending` left to send. -/
structure History (s : Server) (p : Nat) (input pending : Bytes) : Prop where
  stream : stream (s.received p) = requests (s.servedBy p) ++ input
  sent : s.sent p ++ pending = replies (s.servedBy p)
  unsent : pending <:+ lastReply [] (s.servedBy p)
  fits : ∀ e ∈ s.servedBy p, (encodeReq e.cmd).length ≤ kMaxMsg

structure Orderly (blocks : Nat → Block) (s : Server) : Prop where
  executes : Executes { blocks := blocks } (s.served.map Prod.snd) s.store
  live : ∀ p c, s.conns.get? p = some c →
    Phase c ∧ c.rbufSize < 4 + kMaxMsg ∧ History s p c.input c.pending
  past : ∀ p, ∃ input pending, History s p input pending
  fresh : ∀ p, s.conns.brk ≤ p → s.received p = [] ∧ s.sent p = [] ∧ s.servedBy p = []
  short : ∀ p, AllShort (s.received p)

/-- Between two events no connection is left in `STATE_END`, or is past the end of its input. -/
def Open (s : Server) : Prop :=
  ∀ p c, s.conns.get? p = some c → c.state ≠ .stateEnd ∧ ¬ AtEnd (s.received p)

section Leave
variable (s : Server) (p : Nat) (w : World)

theorem servedBy_leave_self : (s.leave p w).servedBy p = s.servedBy p ++ w.served := by
  simp [Server.servedBy, Server.leave, List.filter_map, Function.comp_def]

theorem servedBy_leave_ne {q : Nat} (h : q ≠ p) : (s.leave p w).servedBy q = s.servedBy q := by
  simp [Server.servedBy, Server.leave, List.filter_map, Function.comp_def, Ne.symm h]

theorem received_leave_self : (s.leave p w).received p = s.received p ++ w.received :=
  Function.update_self ..

theorem received_leave_ne {q : Nat} (h : q ≠ p) : (s.leave p w).received q = s.received q :=
  Function.update_of_ne h ..

theorem sent_leave_self : (s.leave p w).sent p = s.sent p ++ w.sent := Function.update_self ..

theorem sent_leave_ne {q : Nat} (h : q ≠ p) : (s.leave p w).sent q = s.sent q :=
  Function.update_of_ne h ..

end Leave

variable {blocks : Nat → Block} {s : Server} {p : Nat} {c : Conn} {w : World}
  {reads : List ReadResult} {writes : List WriteResult}

theorem history_congr {s' : Server} {input pending : Bytes} (h : History s p input pending)
    (hreceived : s'.received p = s.received p) (hsent : s'.sent p = s.sent p)
    (hserved : s'.servedBy p = s.servedBy p) :
    History s' p input pending := by
  obtain ⟨h₁, h₂, h₃, h₄⟩ := h
  exact ⟨by rw [hreceived, hserved, h₁], by rw [hsent, hserved, h₂], by rwa [hserved],
    by rwa [hserved]⟩

theorem history_leave_ne {q : Nat} {input pending : Bytes} (h : History s q input pending)
    (hq : q ≠ p) :
    History (s.leave p w) q input pending :=
  history_congr h (received_leave_ne s p w hq) (sent_leave_ne s p w hq) (servedBy_leave_ne s p w hq)

theorem history_leave_self (h : History s p c.input c.pending)
    (hw : CallInv (s.enter c reads writes) w) :
    History (s.leave p w) p w.conn.input w.conn.pending where
  stream := by
    have hin : c.input ++ stream w.received = requests w.served ++ w.conn.input := hw.input
    rw [received_leave_self, servedBy_leave_self, stream_append, requests_append, h.stream,
      List.append_assoc, List.append_assoc, hin]
  sent := by
    have hout : c.pending ++ replies w.served = w.sent ++ w.conn.pending := hw.output
    rw [sent_leave_self, servedBy_leave_self, replies_append,
      ← h.sent, List.append_assoc, List.append_assoc, hout]
  unsent := by
    rw [servedBy_leave_self]
    refine hw.unsent.trans ?_
    change lastReply c.pending w.served <:+ _
    cases hlast : w.served.getLast? with
    | none =>
      have hnil : w.served = [] := List.getLast?_eq_none_iff.mp hlast
      simpa [lastReply, hnil] using h.unsent
    | some e => simp [lastReply, List.getLast?_append, hlast]
  fits := by
    rw [servedBy_leave_self]
    intro e he
    rcases List.mem_append.mp he with he | he
    · exact h.fits e he
    · exact hw.fits e he

theorem orderly_start : Orderly blocks (.start blocks) where
  executes := .nil
  live := by simp [Server.start]
  past := fun p => ⟨[], [], rfl, rfl, List.nil_suffix, by simp [Server.start, Server.servedBy]⟩
  fresh := fun p _ => ⟨rfl, rfl, rfl⟩
  short := by simp [Server.start, AllShort]

theorem open_start : Open (.start blocks) := by simp [Open, Server.start]

theorem orderly_accept (h : Orderly blocks s) (connfd : Nat) (rbuf wbuf : Buffer (4 + kMaxMsg)) :
    Orderly blocks (s.acceptNewConn connfd rbuf wbuf) where
  executes := h.executes
  live := by
    intro p c hp
    by_cases hnew : p = s.conns.brk
    · subst hnew
      obtain rfl := Option.some.inj ((Heap.get?_alloc_brk s.conns _).symm.trans hp)
      obtain ⟨hreceived, hsent, hserved⟩ := h.fresh s.conns.brk le_rfl
      have hhist : History s s.conns.brk [] [] :=
        ⟨by simp [hreceived, hserved, stream, requests], by simp [hsent, hserved, replies],
          List.nil_suffix, by simp [hserved]⟩
      exact ⟨⟨rfl, rfl⟩, Nat.lt_add_right kMaxMsg (show 0 < 4 by decide),
        history_congr hhist rfl rfl rfl⟩
    · have hold : s.conns.get? p = some c := (Heap.get?_alloc_ne s.conns hnew _).symm.trans hp
      obtain ⟨hphase, hroom, hhist⟩ := h.live p c hold
      exact ⟨hphase, hroom, history_congr hhist rfl rfl rfl⟩
  past := fun p =>
    have ⟨input, pending, hhist⟩ := h.past p
    ⟨input, pending, history_congr hhist rfl rfl rfl⟩
  fresh := fun p hp => h.fresh p (by
    have hbrk : (s.conns.alloc { fd := connfd, rbuf := rbuf, wbuf := wbuf }).brk ≤ p := hp
    rw [Heap.brk_alloc] at hbrk
    omega)
  short := h.short

theorem orderly_leave (h : Orderly blocks s) (hp : s.conns.get? p = some c)
    (hw : Live (s.enter c reads writes) w) :
    Orderly blocks (s.leave p w) where
  executes := by
    have hserved : (s.leave p w).served.map Prod.snd = s.served.map Prod.snd ++ w.served := by
      simp [Server.leave, Function.comp_def]
    rw [hserved]
    exact h.executes.append hw.executes
  live := by
    intro q c' hq
    -- only the connection of the call changes
    by_cases hqp : q = p
    · subst hqp
      obtain rfl := Option.some.inj ((Heap.get?_set_self hp w.conn).symm.trans hq)
      exact ⟨hw.phase, hw.room, history_leave_self (h.live q c hp).2.2 hw.toCallInv⟩
    · have hold : s.conns.get? q = some c' := (Heap.get?_set_ne s.conns hqp w.conn).symm.trans hq
      obtain ⟨hphase, hroom, hhist⟩ := h.live q c' hold
      exact ⟨hphase, hroom, history_leave_ne hhist hqp⟩
  past := by
    intro q
    by_cases hqp : q = p
    · subst hqp
      exact ⟨_, _, history_leave_self (h.live q c hp).2.2 hw.toCallInv⟩
    · obtain ⟨input, pending, hhist⟩ := h.past q
      exact ⟨input, pending, history_leave_ne hhist hqp⟩
  fresh := by
    intro q hq
    have hq : s.conns.brk ≤ q := by simpa [Server.leave] using hq
    have hqp : q ≠ p := by
      have := Heap.lt_brk hp
      omega
    rw [received_leave_ne s p w hqp, sent_leave_ne s p w hqp, servedBy_leave_ne s p w hqp]
    exact h.fresh q hq
  short := by
    intro q
    by_cases hqp : q = p
    · subst hqp
      rw [received_leave_self]
      intro r hr
      rcases List.mem_append.mp hr with hr | hr
      · exact h.short q r hr
      · exact hw.short r hr
    · rw [received_leave_ne s p w hqp]
      exact h.short q

theorem get?_destroy {fd q : Nat} {c' : Conn} (hq : (s.destroy p fd).conns.get? q = some c') :
    q ≠ p ∧ s.conns.get? q = some c' := by
  have hqp : q ≠ p := by
    rintro rfl
    exact absurd ((Heap.get?_free_self s.conns q).symm.trans hq) (by simp)
  exact ⟨hqp, (Heap.get?_free_ne s.conns hqp).symm.trans hq⟩

theorem orderly_destroy (h : Orderly blocks s) (p fd : Nat) : Orderly blocks (s.destroy p fd) where
  executes := h.executes
  live := by
    intro q c' hq
    obtain ⟨hphase, hroom, hhist⟩ := h.live q c' (get?_destroy hq).2
    exact ⟨hphase, hroom, history_congr hhist rfl rfl rfl⟩
  past := fun q =>
    have ⟨input, pending, hhist⟩ := h.past q
    ⟨input, pending, history_congr hhist rfl rfl rfl⟩
  fresh := fun q hq => h.fresh q (by simpa [Server.destroy] using hq)
  short := h.short

theorem start_enter (h : Orderly blocks s) (hopen : Open s) (hp : s.conns.get? p = some c)
    (reads : List ReadResult) (writes : List WriteResult) : Start (s.enter c reads writes) :=
  have ⟨hphase, hroom, _⟩ := h.live p c hp
  ⟨hphase, (hopen p c hp).1, hroom, rfl, rfl, rfl⟩

theorem locate_eq_ok {fd : Nat} (h : s.locate fd = .ok (p, c)) : s.conns.get? p = some c := by
  rw [Server.locate] at h
  split at h
  · cases h
  · cases h
  · split at h
    · cases h
    · rename_i hget
      obtain ⟨rfl, rfl⟩ : _ = p ∧ _ = c := by simpa using h
      exact hget

theorem open_accept (h : Orderly blocks s) (hopen : Open s) (connfd : Nat)
    (rbuf wbuf : Buffer (4 + kMaxMsg)) :
    Open (s.acceptNewConn connfd rbuf wbuf) := by
  intro p c hp
  by_cases hnew : p = s.conns.brk
  · subst hnew
    obtain rfl := Option.some.inj ((Heap.get?_alloc_brk s.conns _).symm.trans hp)
    have hreceived : (s.acceptNewConn connfd rbuf wbuf).received s.conns.brk = [] :=
      (h.fresh _ le_rfl).1
    simp [hreceived]
  · exact hopen p c ((Heap.get?_alloc_ne s.conns hnew _).symm.trans hp)

theorem open_leave (hopen : Open s) (hp : s.conns.get? p = some c)
    (hw : Live (s.enter c reads writes) w) {q : Nat} {c' : Conn}
    (hq : (s.leave p w).conns.get? q = some c') (hend : q = p → w.conn.state ≠ .stateEnd) :
    c'.state ≠ .stateEnd ∧ ¬ AtEnd ((s.leave p w).received q) := by
  by_cases hqp : q = p
  · subst hqp
    obtain rfl := Option.some.inj ((Heap.get?_set_self hp w.conn).symm.trans hq)
    refine ⟨hend rfl, ?_⟩
    rw [received_leave_self]
    rintro ⟨r, hr, hnil⟩
    rcases List.mem_append.mp hr with hr | hr
    · exact (hopen q c hp).2 ⟨r, hr, hnil⟩
    · exact hend rfl (hw.eof ⟨r, hr, hnil⟩)
  · rw [received_leave_ne s p w hqp]
    exact hopen q c' ((Heap.get?_set_ne s.conns hqp w.conn).symm.trans hq)

theorem serverStep_orderly {s' : Server} {ev : Event} (h : Orderly blocks s) (hopen : Open s)
    (hstep : serverStep s ev = .ok s') :
    Orderly blocks s' ∧ Open s' := by
  cases ev with
  | listener connfd rbuf wbuf =>
    rcases serverStep_listener hstep with rfl | ⟨connfd, rfl⟩
    · exact ⟨h, hopen⟩
    · exact ⟨orderly_accept h connfd rbuf wbuf, open_accept h hopen connfd rbuf wbuf⟩
  | conn fd reads writes =>
    obtain ⟨p, c, w, hloc, hrun, hcases⟩ := serverStep_conn hstep
    have hp := locate_eq_ok hloc
    have hlive := wp_of_ok (connectionIo_spec (start_enter h hopen hp reads writes)) hrun
    have hleave := orderly_leave h hp hlive
    rcases hcases with ⟨rfl, -⟩ | ⟨rfl, hend⟩
    · refine ⟨orderly_destroy hleave p w.conn.fd, fun q c' hq => ?_⟩
      obtain ⟨hqp, hold⟩ := get?_destroy hq
      exact open_leave hopen hp hlive hold fun heq => absurd heq hqp
    · exact ⟨hleave, fun q c' hq => open_leave hopen hp hlive hq fun _ => hend⟩

theorem run_orderly {s' : Server} {events : List Event} (h : Orderly blocks s) (hopen : Open s)
    (hrun : Run.run serverStep s events = .ok s') : Orderly blocks s' ∧ Open s' :=
  Run.inv_of_run (I := fun s => Orderly blocks s ∧ Open s)
    (fun _ _ _ hs hstep => serverStep_orderly hs.1 hs.2 hstep) ⟨h, hopen⟩ hrun

theorem run_start {s : Server} {events : List Event}
    (hrun : Run.run serverStep (.start blocks) events = .ok s) : Orderly blocks s ∧ Open s :=
  run_orderly orderly_start open_start hrun

end NanoRedis
