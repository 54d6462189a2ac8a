import NanoRedis.Server.Runs
import NanoRedis.Server.Batches

/-! Progress of a reply: what the events of other connections leave alone, and how many
events of its own connection bring a reply to the client. -/

namespace NanoRedis
open Intrusive Wire Exec

def Event.For (fd : Nat) : Event → Prop
  | .listener _ _ _ => False
  | .conn fd' _ _ => fd' = fd

/-- How many bytes the answers of `write()` let through before one blocks or fails. -/
def taken : List WriteResult → Nat
  | .sent n :: writes => n + taken writes
  | .eintr :: writes => taken writes
  | .eagain :: _ | .failed :: _ | .sigpipe :: _ | [] => 0

def Event.takes (fd : Nat) : Event → Nat
  | .listener _ _ _ => 0
  | .conn fd' _ writes => if fd' = fd then taken writes else 0

theorem Event.takes_eq_zero {fd : Nat} {ev : Event} (h : ¬ ev.For fd) : ev.takes fd = 0 := by
  cases ev with
  | listener => rfl
  | conn fd' reads writes => exact if_neg h

theorem Event.exists_of_isFor {fd : Nat} {ev : Event} (h : ev.For fd) :
    ∃ reads writes, ev = .conn fd reads writes := by
  cases ev with
  | listener => cases h
  | conn fd' reads writes =>
    obtain rfl : fd' = fd := h
    exact ⟨reads, writes, rfl⟩

structure Same (p : Nat) (s s' : Server) : Prop where
  conn : s'.conns.get? p = s.conns.get? p
  received : s'.received p = s.received p
  sent : s'.sent p = s.sent p
  served : s'.servedBy p = s.servedBy p
  interest : ∀ c, s.conns.get? p = some c → s'.interest c.fd = s.interest c.fd

namespace Same
variable {p : Nat} {s s' s'' : Server}

theorem refl (p : Nat) (s : Server) : Same p s s := ⟨rfl, rfl, rfl, rfl, fun _ _ => rfl⟩

theorem trans (h : Same p s s') (h' : Same p s' s'') : Same p s s'' where
  conn := h'.conn.trans h.conn
  received := h'.received.trans h.received
  sent := h'.sent.trans h.sent
  served := h'.served.trans h.served
  interest := fun c hp => (h'.interest c (h.conn.trans hp)).trans (h.interest c hp)

end Same

section Others
variable {blocks : Nat → Block} {s s' : Server} {p : Nat} {c : Conn} {ev : Event}

theorem same_accept (h : Tidy blocks s) (hp : s.conns.get? p = some c) {connfd : Nat}
    (hnew : s.interest connfd = none) (rbuf wbuf : Buffer (4 + kMaxMsg)) :
    Same p s (s.acceptNewConn connfd rbuf wbuf) := by
  refine ⟨Heap.get?_alloc_ne _ (Heap.lt_brk hp).ne _, rfl, rfl, rfl, fun c' hc' => ?_⟩
  have hsome := h.tabled.isSome_interest hc'
  apply Function.update_of_ne
  rintro heq
  rw [heq, hnew] at hsome
  cases hsome

theorem serverStep_same (h : Tidy blocks s) (hp : s.conns.get? p = some c) (hfresh : ev.Fresh s)
    (hother : ¬ ev.For c.fd) (hstep : serverStep s ev = .ok s') : Same p s s' := by
  cases ev with
  | listener connfd rbuf wbuf =>
    cases connfd with
    | none =>
      obtain rfl : s = s' := Except.ok.inj hstep
      exact .refl p s
    | some connfd =>
      obtain rfl : s.acceptNewConn connfd rbuf wbuf = s' := Except.ok.inj hstep
      exact same_accept h hp hfresh rbuf wbuf
  | conn fd reads writes =>
    obtain ⟨q, c', w, hloc, hrun, hcases⟩ := serverStep_conn hstep
    have hq := locate_eq_ok hloc
    obtain ⟨c'', hc'', rfl⟩ := h.tabled.entry fd q (fd2conn_of_locate hloc)
    obtain rfl := Option.some.inj (hq.symm.trans hc'')
    have hpq : p ≠ q := by
      rintro rfl
      exact hother (congrArg Conn.fd (Option.some.inj (hq.symm.trans hp)))
    have hfd : w.conn.fd = c'.fd :=
      (wp_of_ok (connectionIo_spec (start_enter h.orderly h.opened hq reads writes)) hrun).fd
    have hleave : Same p s (s.leave q w) := by
      refine ⟨Heap.get?_set_ne _ hpq _, received_leave_ne s q w hpq, sent_leave_ne s q w hpq,
        servedBy_leave_ne s q w hpq, fun d hd => ?_⟩
      apply Function.update_of_ne
      rw [hfd]
      exact h.tabled.fd_ne hq hd hpq
    rcases hcases with ⟨rfl, -⟩ | ⟨rfl, -⟩
    · refine hleave.trans ⟨Heap.get?_free_ne _ hpq, rfl, rfl, rfl, fun d hd => ?_⟩
      apply Function.update_of_ne
      rw [hfd]
      exact h.tabled.fd_ne hq (hleave.conn.symm.trans hd) hpq
    · exact hleave

theorem tidy_of_run {events : List Event}
    (hfresh : Run.AllSteps serverStep (fun s ev => ev.Fresh s) (.start blocks) events)
    (hrun : Run.run serverStep (.start blocks) events = .ok s) : Tidy blocks s :=
  Run.inv_of_allSteps (fun _ _ _ => serverStep_tidy) (tidy_start blocks) hfresh hrun

end Others

/-- A connection, its record and its interest change at events of its own descriptor only. -/
theorem connections_isolated {blocks : Nat → Block} {past later : List Event} {s s' : Server}
    {p : Nat} {c : Conn}
    (hfresh : Run.AllSteps serverStep (fun s ev => ev.Fresh s) (.start blocks) (past ++ later))
    (hpast : Run.run serverStep (.start blocks) past = .ok s)
    (hlater : Run.run serverStep s later = .ok s')
    (hp : s.conns.get? p = some c) (hothers : ∀ ev ∈ later, ¬ ev.For c.fd) : Same p s s' := by
  have hfresh' := hfresh.rest hpast
  have htidy := tidy_of_run hfresh.of_append hpast
  clear hfresh hpast
  induction later generalizing s with
  | nil =>
    obtain rfl : s = s' := Except.ok.inj hlater
    exact .refl p s
  | cons ev later ih =>
    rw [List.forall_mem_cons] at hothers
    cases hstep : serverStep s ev with
    | error e => simp [Run.run, hstep] at hlater
    | ok t =>
      simp only [Run.run, hstep] at hlater
      simp only [Run.AllSteps, hstep] at hfresh'
      have hsame := serverStep_same htidy hp hfresh'.1 hothers.1 hstep
      exact hsame.trans (ih hlater (hsame.conn.trans hp) hothers.2 hfresh'.2
        (serverStep_tidy htidy hfresh'.1 hstep))

def blocked : List Event :=
  [.listener (some 5) (.zero _) (.zero _), .listener (some 6) (.zero _) (.zero _),
   .conn 5 [.data (frame (encodeReq [ascii ['s', 'e', 't'], [107], [118]]))] []]

def overtaking : List Event :=
  [.conn 6 [.data (frame (encodeReq [ascii ['g', 'e', 't'], [107]]))] [.sent 100]]

theorem connections_isolated_overtaking :
    ∃ s s', Run.run serverStep (.start zeroed) blocked = .ok s ∧
      Run.run serverStep s overtaking = .ok s' ∧ Same 0 s s' := by
  have hfresh : Run.AllSteps serverStep (fun s ev => ev.Fresh s) (.start zeroed)
      (blocked ++ overtaking) := by
    decide +kernel
  have hok : Run.passes (fun s => ((s.conns.get? 0).any fun c => c.fd == 5) &&
      Run.passes (fun _ => true) (Run.run serverStep s overtaking))
      (Run.run serverStep (.start zeroed) blocked) = true := by decide +kernel
  obtain ⟨s, hpast, hboth⟩ := Run.exists_of_passes hok
  obtain ⟨hconn, hrun⟩ := Bool.and_eq_true_iff.mp hboth
  obtain ⟨c, hc, hfd⟩ := (Option.any_eq_true _ _).mp hconn
  obtain ⟨s', hlater, -⟩ := Run.exists_of_passes hrun
  exact ⟨s, s', hpast, hlater, connections_isolated hfresh hpast hlater hc
    (by simp [overtaking, Event.For, eq_of_beq hfd])⟩

section Replies
variable {blocks : Nat → Block} {s s' : Server} {p : Nat} {c : Conn} {reads : List ReadResult}
  {writes : List WriteResult}

theorem sent_of_step {ev : Event} (hstep : serverStep s ev = .ok s') (p : Nat) :
    s.sent p <+: s'.sent p := by
  cases ev with
  | listener connfd rbuf wbuf =>
    rcases serverStep_listener hstep with rfl | ⟨connfd, rfl⟩ <;> exact List.prefix_rfl
  | conn fd reads writes =>
    obtain ⟨q, c, w, -, -, hcases⟩ := serverStep_conn hstep
    have hsent : s'.sent p = (s.leave q w).sent p := by
      rcases hcases with ⟨rfl, -⟩ | ⟨rfl, -⟩ <;> rfl
    rw [hsent]
    by_cases hpq : p = q
    · subst hpq
      rw [sent_leave_self]
      exact List.prefix_append _ _
    · rw [sent_leave_ne s q w hpq]

theorem sent_of_run {events : List Event} (hrun : Run.run serverStep s events = .ok s') (p : Nat) :
    s.sent p <+: s'.sent p :=
  Run.inv_of_run (I := fun t => s.sent p <+: t.sent p)
    (fun _ _ _ h hstep => h.trans (sent_of_step hstep p)) List.prefix_rfl hrun

theorem failed_of_pushOut {remain : Nat} (h : (pushOut writes remain).2.1 = .stateEnd) :
    .failed ∈ writes := by
  induction writes generalizing remain with
  | nil => cases h
  | cons rv writes ih =>
    cases rv with
    | sent n =>
      unfold pushOut at h
      split_ifs at h
      exact List.mem_cons_of_mem _ (ih h)
    | eintr => exact List.mem_cons_of_mem _ (ih h)
    | eagain | sigpipe => cases h
    | failed => exact List.mem_cons_self ..

theorem pushOut_fst (writes : List WriteResult) {remain : Nat} (h : 0 < remain) :
    (pushOut writes remain).1 = min remain (taken writes) := by
  induction writes generalizing remain with
  | nil => exact (Nat.min_zero _).symm
  | cons rv writes ih =>
    cases rv with
    | sent n =>
      unfold pushOut taken
      split_ifs with hn
      · exact (min_eq_left (by omega)).symm
      · show n + (pushOut writes (remain - n)).1 = _
        rw [ih (by omega)]
        omega
    | eintr => exact ih h
    | eagain | failed | sigpipe => exact (Nat.min_zero _).symm

theorem pending_pushed (n : Nat) {state : ConnState} (h : state ≠ .stateReq) :
    (c.pushed n state).pending = c.pending.drop n := by
  simp only [Conn.pushed, if_neg h, Conn.pending, List.drop_take, List.drop_drop, Nat.sub_sub]

theorem serverStep_sends (h : Tidy blocks s) (hp : s.conns.get? p = some c)
    (hstate : c.state = .stateRes)
    (hstep : serverStep s (.conn c.fd reads writes) = .ok s') {n : Nat} {state : ConnState}
    {rest : List WriteResult}
    (hpush : pushOut writes (c.wbufSize - c.wbufSent) = (n, state, rest)) :
    s'.sent p = s.sent p ++ c.pending.take n ∧
      (state ≠ .stateEnd → s'.conns.get? p = some (c.pushed n state)) := by
  have hlisted := h.tabled.listed p c hp
  obtain ⟨q, c', w, hloc, hrun, hcases⟩ := serverStep_conn hstep
  obtain rfl : q = p :=
    Option.some.inj (Option.some.inj ((fd2conn_of_locate hloc).symm.trans hlisted))
  obtain rfl := Option.some.inj ((locate_eq_ok hloc).symm.trans hp)
  obtain rfl := (start_enter h.orderly h.opened hp reads writes).eq_flushed hstate hrun
  have hconn : (s.enter c' reads writes).flushed.conn = c'.pushed n state := by
    rw [flushed_of_pushOut hpush]
    rfl
  have hsent : (s.enter c' reads writes).flushed.sent = c'.pending.take n := by
    rw [flushed_of_pushOut hpush]
    exact List.nil_append _
  rw [← hsent, ← hconn]
  rcases hcases with ⟨rfl, hend⟩ | ⟨rfl, -⟩
  · rw [hconn, Conn.pushed_state] at hend
    exact ⟨sent_leave_self .., fun hne => absurd hend hne⟩
  · exact ⟨sent_leave_self .., fun _ => Heap.get?_set_self hp _⟩

theorem serverStep_delivers {ev : Event} (h : Tidy blocks s) (hp : s.conns.get? p = some c)
    (hfresh : ev.Fresh s) (hstep : serverStep s ev = .ok s') :
    s.sent p ++ c.pending <+: s'.sent p ∨
      (∃ reads writes, ev = .conn c.fd reads writes ∧ .failed ∈ writes) ∨
      ∃ c', s'.conns.get? p = some c' ∧ c'.fd = c.fd ∧
        s'.sent p ++ c'.pending = s.sent p ++ c.pending ∧
        c'.pending.length + ev.takes c.fd = c.pending.length := by
  by_cases hfor : ev.For c.fd
  · obtain ⟨reads, writes, rfl⟩ := Event.exists_of_isFor hfor
    have hphase := (h.orderly.live p c hp).1
    cases hstate : c.state with
    | stateReq =>
      rw [hphase.pending_eq_nil hstate, List.append_nil]
      exact .inl (sent_of_step hstep p)
    | stateEnd => exact absurd hstate (h.opened p c hp).1
    | stateRes =>
      have hsend := hphase.sending hstate
      have hremain : 0 < c.wbufSize - c.wbufSent := by
        have := hsend.sent
        omega
      have hlen := length_pending c hsend.size
      have hcases := pushOut_cases writes hremain
      have hfst := pushOut_fst writes hremain
      generalize hpush : pushOut writes (c.wbufSize - c.wbufSent) = pushed at hcases hfst
      obtain ⟨n, state, rest⟩ := pushed
      obtain ⟨hsent, hconn⟩ := serverStep_sends h hp hstate hstep hpush
      cases state with
      | stateReq =>
        obtain ⟨-, rfl⟩ := hcases.resolve_right fun hpart => hpart.1 rfl
        rw [hsent, ← hlen, List.take_length]
        exact .inl List.prefix_rfl
      | stateEnd =>
        exact .inr (.inl ⟨reads, writes, rfl, failed_of_pushOut (congrArg (·.2.1) hpush)⟩)
      | stateRes =>
        obtain ⟨-, hpart⟩ := hcases.resolve_left fun hall => by cases hall.1
        refine .inr (.inr ⟨_, hconn (by decide), Conn.pushed_fd .., ?_, ?_⟩)
        · rw [hsent, pending_pushed n (by decide), List.append_assoc, List.take_append_drop]
        · rw [pending_pushed n (by decide), List.length_drop, hlen]
          have htakes : Event.takes c.fd (.conn c.fd reads writes) = taken writes := if_pos rfl
          dsimp only at hfst hpart
          omega
  · have hsame := serverStep_same h hp hfresh hfor hstep
    refine .inr (.inr ⟨c, hsame.conn.trans hp, rfl, by rw [hsame.sent], ?_⟩)
    rw [Event.takes_eq_zero hfor, Nat.add_zero]

end Replies

/-- A reply that is under way reaches the client as soon as the `write()` calls of its connection
have taken as many bytes as it has left, unless one of them fails; nothing else holds it up. -/
theorem reply_delivered {blocks : Nat → Block} {past later : List Event} {s s' : Server} {p : Nat}
    {c : Conn}
    (hfresh : Run.AllSteps serverStep (fun s ev => ev.Fresh s) (.start blocks) (past ++ later))
    (hpast : Run.run serverStep (.start blocks) past = .ok s)
    (hlater : Run.run serverStep s later = .ok s')
    (hp : s.conns.get? p = some c)
    (htaken : c.pending.length ≤ (later.map (Event.takes c.fd)).sum) :
    s.sent p ++ c.pending <+: s'.sent p ∨
      ∃ reads writes, .conn c.fd reads writes ∈ later ∧ .failed ∈ writes := by
  have hfresh' := hfresh.rest hpast
  have htidy := tidy_of_run hfresh.of_append hpast
  clear hfresh hpast
  induction later generalizing s c with
  | nil =>
    obtain rfl : s = s' := Except.ok.inj hlater
    rw [List.map_nil, List.sum_nil, Nat.le_zero, List.length_eq_zero_iff] at htaken
    rw [htaken, List.append_nil]
    exact .inl List.prefix_rfl
  | cons ev later ih =>
    cases hstep : serverStep s ev with
    | error e => simp [Run.run, hstep] at hlater
    | ok t =>
      simp only [Run.run, hstep] at hlater
      simp only [Run.AllSteps, hstep] at hfresh'
      rw [List.map_cons, List.sum_cons] at htaken
      rcases serverStep_delivers htidy hp hfresh'.1 hstep with
        hsent | ⟨reads, writes, rfl, hfailed⟩ | ⟨c', hp', hfd, hsent, hleft⟩
      · exact .inl (hsent.trans (sent_of_run hlater p))
      · exact .inr ⟨reads, writes, List.mem_cons_self .., hfailed⟩
      · have htidy' := serverStep_tidy htidy hfresh'.1 hstep
        have hrest := ih hlater hp' (by rw [hfd]; omega) hfresh'.2 htidy'
        rw [hsent, hfd] at hrest
        rcases hrest with hdone | ⟨reads, writes, hmem, hfailed⟩
        · exact .inl hdone
        · exact .inr ⟨reads, writes, List.mem_cons_of_mem _ hmem, hfailed⟩

def trickle : List Event :=
  [.conn 5 [] [.sent 2],
   .conn 6 [.data (frame (encodeReq [ascii ['g', 'e', 't'], [107]]))] [.sent 100],
   .conn 5 [] [.eintr, .sent 3]]

theorem reply_delivered_trickle :
    ∃ s s' c, Run.run serverStep (.start zeroed) blocked = .ok s ∧
      Run.run serverStep s trickle = .ok s' ∧ s.conns.get? 0 = some c ∧ c.pending.length = 5 ∧
      s.sent 0 ++ c.pending <+: s'.sent 0 := by
  have hfresh : Run.AllSteps serverStep (fun s ev => ev.Fresh s) (.start zeroed)
      (blocked ++ trickle) := by
    decide +kernel
  have hok : Run.passes (fun s => ((s.conns.get? 0).any fun c =>
      c.fd == 5 && c.pending.length == 5) &&
      Run.passes (fun _ => true) (Run.run serverStep s trickle))
      (Run.run serverStep (.start zeroed) blocked) = true := by decide +kernel
  obtain ⟨s, hpast, hboth⟩ := Run.exists_of_passes hok
  obtain ⟨hconn, hrun⟩ := Bool.and_eq_true_iff.mp hboth
  obtain ⟨c, hc, hsizes⟩ := (Option.any_eq_true _ _).mp hconn
  obtain ⟨hfd, hlen⟩ := Bool.and_eq_true_iff.mp hsizes
  obtain ⟨s', hlater, -⟩ := Run.exists_of_passes hrun
  refine ⟨s, s', c, hpast, hlater, hc, eq_of_beq hlen, ?_⟩
  have htaken : c.pending.length ≤ (trickle.map (Event.takes c.fd)).sum := by
    rw [eq_of_beq hlen, eq_of_beq hfd]
    decide
  refine (reply_delivered hfresh hpast hlater hc htaken).resolve_right ?_
  rintro ⟨reads, writes, hmem, hfailed⟩
  simp only [trickle, List.mem_cons, Event.conn.injEq, List.not_mem_nil, or_false] at hmem
  rcases hmem with ⟨-, -, rfl⟩ | ⟨-, -, rfl⟩ | ⟨-, -, rfl⟩ <;> simp at hfailed

end NanoRedis
