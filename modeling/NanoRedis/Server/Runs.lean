import NanoRedis.Server.History

/-! Runs of the server: requests are served once and in order, and what may stop a
connection or keep a request waiting. -/

namespace NanoRedis
open Intrusive Wire Exec

/-! ## Order of service -/

structure Extends (s s' : Server) : Prop where
  received : ∀ p, s.received p <+: s'.received p
  served : s.served <+: s'.served

theorem Extends.refl (s : Server) : Extends s s := ⟨fun _ => List.prefix_rfl, List.prefix_rfl⟩

theorem Extends.trans {s₁ s₂ s₃ : Server} (h₁ : Extends s₁ s₂) (h₂ : Extends s₂ s₃) :
    Extends s₁ s₃ :=
  ⟨fun p => (h₁.received p).trans (h₂.received p), h₁.served.trans h₂.served⟩

theorem extends_leave (s : Server) (p : Nat) (w : World) : Extends s (s.leave p w) where
  received := by
    intro q
    by_cases hqp : q = p
    · subst hqp
      rw [received_leave_self]
      exact List.prefix_append _ _
    · rw [received_leave_ne s p w hqp]
  served := List.prefix_append _ _

theorem serverStep_extends {s s' : Server} {ev : Event} (hstep : serverStep s ev = .ok s') :
    Extends s s' := by
  cases ev with
  | listener connfd rbuf wbuf =>
    rcases serverStep_listener hstep with rfl | ⟨connfd, rfl⟩
    · exact .refl _
    · exact ⟨fun _ => List.prefix_rfl, List.prefix_rfl⟩
  | conn fd reads writes =>
    obtain ⟨p, c, w, -, -, ⟨rfl, -⟩ | ⟨rfl, -⟩⟩ := serverStep_conn hstep
    · exact ⟨(extends_leave s p w).received, (extends_leave s p w).served⟩
    · exact extends_leave s p w

theorem run_extends {s s' : Server} {events : List Event}
    (hrun : Run.run serverStep s events = .ok s') : Extends s s' :=
  Run.inv_of_run (fun _ _ _ h hstep => Extends.trans h (serverStep_extends hstep)) (.refl s) hrun

theorem Extends.servedBy {s s' : Server} (h : Extends s s') (p : Nat) :
    s.servedBy p <+: s'.servedBy p :=
  (h.served.filter _).map _

theorem not_malformed_of_part {rest more tail : Bytes} {cmd : Command}
    (hmax : (encodeReq cmd).length ≤ kMaxMsg) (h : rest ++ more = frame (encodeReq cmd) ++ tail) :
    ¬ Malformed rest := by
  rintro ⟨hfour, hbad⟩
  have hk : kMaxMsg < 2 ^ 31 := by decide
  -- both begin with the same four bytes
  have hann : announced rest = (encodeReq cmd).length := by
    have htake : (rest ++ more).take 4 = rest.take 4 := List.take_append_of_le_length hfour
    rw [← announced_frame (encodeReq cmd) tail (by omega), ← h, announced, announced, htake]
  rw [hann] at hbad
  rcases hbad with hlong | ⟨hfit, hparse⟩
  · omega
  · apply hparse cmd
    have hdrop : rest.drop 4 ++ more = encodeReq cmd ++ tail := by
      rw [← List.drop_append_of_le_length hfour, h, frame, List.append_assoc, drop_le32_append]
    have htake := congrArg (List.take (encodeReq cmd).length) hdrop
    rwa [List.take_left, List.take_append_of_le_length (by rw [List.length_drop]; omega)] at htake

theorem served_stops {s s' : Server} {p : Nat} {rest unsent rest' unsent' : Bytes}
    (h : History s p rest unsent) (h' : History s' p rest' unsent') (hext : Extends s s')
    (hbad : Malformed rest) : s'.servedBy p = s.servedBy p := by
  obtain ⟨new, hnew⟩ := hext.servedBy p
  obtain ⟨reads, hreads⟩ := hext.received p
  have hstream := h'.stream
  rw [← hreads, ← hnew, stream_append, h.stream, requests_append, List.append_assoc,
    List.append_assoc] at hstream
  have hrest := List.append_cancel_left hstream
  cases new with
  | nil => rw [← hnew, List.append_nil]
  | cons e es =>
    have hmax := h'.fits e (by rw [← hnew]; simp)
    have hfront : rest ++ stream reads = frame (encodeReq e.cmd) ++ (requests es ++ rest') := by
      rw [hrest]
      simp [requests]
    exact absurd hbad (not_malformed_of_part hmax hfront)

/-! ## Assertions -/

def lastServer : Except (Stop × Server) Server → Server
  | .ok s => s
  | .error (_, s) => s

theorem short_leave_iff {s : Server} (h : ∀ p, AllShort (s.received p)) (p : Nat) (w : World) :
    (∀ q, AllShort ((s.leave p w).received q)) ↔ AllShort w.received := by
  constructor
  · intro hall r hr
    refine hall p r ?_
    rw [received_leave_self]
    exact List.mem_append_right _ hr
  · intro hw q
    by_cases hqp : q = p
    · subst hqp
      rw [received_leave_self]
      intro r hr
      rcases List.mem_append.mp hr with hr | hr
      · exact h q r hr
      · exact hw r hr
    · rw [received_leave_ne s p w hqp]
      exact h q

theorem serverStep_error {blocks : Nat → Block} {s s' : Server} {ev : Event} {e : Stop}
    (h : Orderly blocks s) (hopen : Open s) (hstep : serverStep s ev = .error (e, s')) :
    (∃ a, e = .assertion a) ↔ ¬ ∀ p, AllShort (s'.received p) := by
  cases ev with
  | listener connfd rbuf wbuf => cases connfd <;> simp [serverStep] at hstep
  | conn fd reads writes =>
    simp only [serverStep] at hstep
    cases hloc : s.locate fd with
    | error f =>
      simp only [hloc, Except.error.injEq, Prod.mk.injEq] at hstep
      obtain ⟨rfl, rfl⟩ := hstep
      simp [h.short]
    | ok pc =>
      obtain ⟨p, c⟩ := pc
      have hp := locate_eq_ok hloc
      have hspec := connectionIo_spec (start_enter h hopen hp reads writes)
      simp only [hloc] at hstep
      cases hrun : (connectionIo : Exec Unit) (s.enter c reads writes) with
      | ok u w =>
        have hlive := wp_of_ok hspec hrun
        have hord := orderly_leave h hp hlive
        simp only [hrun] at hstep
        split_ifs at hstep
        simp only [Except.error.injEq, Prod.mk.injEq] at hstep
        obtain ⟨rfl, rfl⟩ := hstep
        simp [hord.short]
      | error e' w =>
        have hstop := wp_of_error hspec hrun
        simp only [hrun, Except.error.injEq, Prod.mk.injEq] at hstep
        obtain ⟨rfl, rfl⟩ := hstep
        rw [short_leave_iff h.short]
        rcases hstop.2 with ⟨⟨f, rfl, -⟩, hshort⟩ | ⟨rfl, hshort, -⟩ | ⟨rfl, hfull⟩
        · simp [hshort]
        · simp [hshort]
        · simp [hfull]

/-- No assertion of a connection fires in a run exactly when none of its reads comes back
with as much as it was asked for. -/
theorem assertions_hold_iff (blocks : Nat → Block) (events : List Event) :
    (∀ a s, Run.run serverStep (.start blocks) events ≠ .error (.assertion a, s)) ↔
      ∀ p, AllShort ((lastServer (Run.run serverStep (.start blocks) events)).received p) := by
  cases hrun : Run.run serverStep (.start blocks) events with
  | ok s =>
    have hord := (run_start hrun).1
    exact iff_of_true (by simp) hord.short
  | error es =>
    obtain ⟨e, s⟩ := es
    have hiff : (∃ a, e = .assertion a) ↔ ¬ ∀ p, AllShort (s.received p) :=
      Run.error_of_run (B := fun es => (∃ a, es.1 = .assertion a) ↔
        ¬ ∀ p, AllShort (es.2.received p))
        (fun _ _ _ (h : Orderly blocks _ ∧ Open _) hstep => serverStep_orderly h.1 h.2 hstep)
        (fun _ _ _ h hstep => serverStep_error h.1 h.2 hstep) ⟨orderly_start, open_start⟩ hrun
    unfold lastServer
    rw [← not_iff_not, ← hiff]
    simp

def largest : Command := [ascii ['g', 'e', 't'], List.replicate 4081 107]

set_option maxRecDepth 40000 in
theorem largest_request_aborts :
    (encodeReq largest).length = kMaxMsg ∧
      ∃ s, Run.run serverStep (.start zeroed) [.listener (some 5) (.zero _) (.zero _),
        .conn 5 [.data (frame (encodeReq largest))] []] =
        .error (.assertion .afterRead, s) := by
  refine ⟨by decide +kernel, ?_⟩
  have hstop : Run.fails (fun r => r.1 == .assertion .afterRead)
      (Run.run serverStep (.start zeroed) [.listener (some 5) (.zero _) (.zero _),
        .conn 5 [.data (frame (encodeReq largest))] []]) = true := by decide +kernel
  obtain ⟨⟨e, s⟩, hrun, hassertion⟩ := Run.exists_of_fails hstop
  obtain rfl : e = .assertion .afterRead := eq_of_beq hassertion
  exact ⟨s, hrun⟩

/-! ## What an idle connection holds -/

def Server.leftover (s : Server) (p : Nat) : Bytes :=
  (stream (s.received p)).drop (requests (s.servedBy p)).length

theorem leftover_eq {s : Server} {p : Nat} {input pending : Bytes} (h : History s p input pending) :
    s.leftover p = input := by
  unfold Server.leftover
  rw [h.stream, List.drop_left]

def Clear (P : Bytes → Prop) (s : Server) : Prop :=
  ∀ p c, s.conns.get? p = some c → c.state = .stateReq → ¬ P c.input

/-- An event lets the pending reply of a connection through that holds bytes with the property. -/
def LetsThrough (P : Bytes → Prop) (s : Server) : Event → Prop
  | .listener _ _ _ => False
  | .conn fd _ writes => ∃ p c, s.locate fd = .ok (p, c) ∧ c.state = .stateRes ∧
      (pushOut writes (c.wbufSize - c.wbufSent)).2.1 = .stateReq ∧ P c.input

instance LetsThrough.decidable (P : Bytes → Prop) [DecidablePred P] (s : Server) :
    ∀ ev : Event, Decidable (LetsThrough P s ev)
  | .listener _ _ _ => isFalse id
  | .conn fd _ writes =>
    match h : s.locate fd with
    | .error _ => isFalse fun hlets => by
      obtain ⟨p, c, hloc, -⟩ := hlets
      cases h.symm.trans hloc
    | .ok pc => decidable_of_iff (pc.2.state = .stateRes ∧
        (pushOut writes (pc.2.wbufSize - pc.2.wbufSent)).2.1 = .stateReq ∧ P pc.2.input) <| by
      refine ⟨fun hlets => ⟨pc.1, pc.2, h, hlets⟩, ?_⟩
      rintro ⟨p, c, hloc, hlets⟩
      cases h.symm.trans hloc
      exact hlets

section Idle
variable {blocks : Nat → Block} {s s' : Server} {P : Bytes → Prop}

theorem clear_accept (hclear : Clear P s) (hnil : ¬ P []) (connfd : Nat)
    (rbuf wbuf : Buffer (4 + kMaxMsg)) : Clear P (s.acceptNewConn connfd rbuf wbuf) := by
  intro p c hp hstate
  by_cases hnew : p = s.conns.brk
  · subst hnew
    obtain rfl := Option.some.inj ((Heap.get?_alloc_brk s.conns _).symm.trans hp)
    exact hnil
  · exact hclear p c ((Heap.get?_alloc_ne s.conns hnew _).symm.trans hp) hstate

theorem clear_leave {p : Nat} {c : Conn} {w : World} (hclear : Clear P s)
    (hp : s.conns.get? p = some c) (hquiet : w.conn.state = .stateReq → ¬ P w.conn.input) :
    Clear P (s.leave p w) := by
  intro q c' hq hstate
  by_cases hqp : q = p
  · subst hqp
    obtain rfl := Option.some.inj ((Heap.get?_set_self hp w.conn).symm.trans hq)
    exact hquiet hstate
  · exact hclear q c' ((Heap.get?_set_ne s.conns hqp w.conn).symm.trans hq) hstate

theorem clear_of_call {p fd : Nat} {c : Conn} {reads : List ReadResult} {writes : List WriteResult}
    {w : World} (hlooked : ∀ data, P data → HoldsFrame data ∨ Malformed data)
    (h : Orderly blocks s) (hopen : Open s) (hclear : Clear P s) (hloc : s.locate fd = .ok (p, c))
    (hblocked : ¬ LetsThrough P s (.conn fd reads writes))
    (hrun : (connectionIo : Exec Unit) (s.enter c reads writes) = .ok () w)
    (hend : w.conn.state = .stateReq ∨ AtEnd w.received) : ¬ P w.conn.input := by
  have hp := locate_eq_ok hloc
  have hstart := start_enter h hopen hp reads writes
  cases hstate : c.state with
  | stateReq =>
    rcases (wp_of_ok (connectionIo_req hstart hstate) hrun).front hend with hsame | hfront
    · rw [hsame]
      exact hclear p c hp hstate
    · exact fun hheld => (hlooked _ hheld).elim hfront.1 hfront.2
  | stateRes =>
    obtain rfl := hstart.eq_flushed hstate hrun
    rcases hend with hend | hend
    · simp only [World.flushed, Server.enter, Conn.pushed_state, Conn.pushed_input] at hend ⊢
      exact fun hheld => hblocked ⟨p, c, hloc, hstate, hend, hheld⟩
    · exact absurd hend not_atEnd_nil
  | stateEnd => exact absurd hstate (hopen p c hp).1

theorem clear_conn {fd : Nat} {reads : List ReadResult} {writes : List WriteResult}
    (hlooked : ∀ data, P data → HoldsFrame data ∨ Malformed data)
    (h : Orderly blocks s) (hopen : Open s) (hclear : Clear P s)
    (hblocked : ¬ LetsThrough P s (.conn fd reads writes))
    (hstep : serverStep s (.conn fd reads writes) = .ok s') :
    Clear P s' ∧ ∀ p c, s.locate fd = .ok (p, c) → AtEnd (s'.received p) →
      ¬ P (s'.leftover p) := by
  obtain ⟨p, c, w, hloc, hrun, hcases⟩ := serverStep_conn hstep
  have hp := locate_eq_ok hloc
  have hquiet := clear_of_call hlooked h hopen hclear hloc hblocked hrun
  have hlive := wp_of_ok (connectionIo_spec (start_enter h hopen hp reads writes)) hrun
  have hleave := clear_leave hclear hp fun hstate => hquiet (.inl hstate)
  have hend : ∀ p' c', s.locate fd = .ok (p', c') → AtEnd ((s.leave p w).received p') →
      ¬ P ((s.leave p w).leftover p') := by
    intro p' c' hloc' hatEnd
    obtain ⟨rfl, rfl⟩ : p = p' ∧ c = c' := by simpa [hloc] using hloc'
    rw [received_leave_self] at hatEnd
    rw [leftover_eq (history_leave_self (h.live p c hp).2.2 hlive.toCallInv)]
    obtain ⟨r, hr, hnil⟩ := hatEnd
    rcases List.mem_append.mp hr with hr | hr
    · exact absurd ⟨r, hr, hnil⟩ (hopen p c hp).2
    · exact hquiet (.inr ⟨r, hr, hnil⟩)
  rcases hcases with ⟨rfl, -⟩ | ⟨rfl, -⟩
  · exact ⟨fun q c' hq => hleave q c' (get?_destroy hq).2, hend⟩
  · exact ⟨hleave, hend⟩

theorem serverStep_clear (hlooked : ∀ data, P data → HoldsFrame data ∨ Malformed data)
    (hnil : ¬ P []) (h : Orderly blocks s) (hopen : Open s) (hclear : Clear P s) {ev : Event}
    (hblocked : ¬ LetsThrough P s ev) (hstep : serverStep s ev = .ok s') : Clear P s' := by
  cases ev with
  | listener connfd rbuf wbuf =>
    rcases serverStep_listener hstep with rfl | ⟨connfd, rfl⟩
    · exact hclear
    · exact clear_accept hclear hnil connfd rbuf wbuf
  | conn fd reads writes => exact (clear_conn hlooked h hopen hclear hblocked hstep).1

theorem held_of_letsThrough {fd : Nat} {reads : List ReadResult} {writes : List WriteResult}
    (h : Orderly blocks s) (hopen : Open s) (hlets : LetsThrough P s (.conn fd reads writes)) :
    ∃ p c s' c', s.locate fd = .ok (p, c) ∧ serverStep s (.conn fd reads writes) = .ok s' ∧
      s'.conns.get? p = some c' ∧ c'.state = .stateReq ∧ P c'.input := by
  obtain ⟨p, c, hloc, hstate, hthrough, hheld⟩ := hlets
  have hp := locate_eq_ok hloc
  have hstart := start_enter h hopen hp reads writes
  have halive : (s.enter c reads writes).broken = false :=
    not_brokenPipe (by simp [Server.enter, hthrough])
  have hflushed : (s.enter c reads writes).flushed.conn.state = .stateReq := by
    simpa [World.flushed, Server.enter] using hthrough
  have hrun : (connectionIo : Exec Unit) (s.enter c reads writes) =
      .ok () (s.enter c reads writes).flushed :=
    eq_ok_of_wp ((connectionIo_res hstart hstate).mpr ⟨fun _ => ⟨rfl, rfl⟩, by simp [halive]⟩)
  refine ⟨p, c, s.leave p (s.enter c reads writes).flushed, _, hloc, ?_,
    Heap.get?_set_self hp _, hflushed, ?_⟩
  · simp [serverStep, hloc, hrun, hflushed]
  · simpa [World.flushed, Server.enter] using hheld

end Idle

/-! ## Waiting requests -/

/-- An event leaves no complete frame in the buffer of a connection that waits for input,
nor unexecuted at the end of its input. -/
def Drains (s : Server) : Event → Prop
  | .listener _ _ _ => True
  | .conn fd reads writes => ∀ p c s', s.locate fd = .ok (p, c) →
      serverStep s (.conn fd reads writes) = .ok s' →
      (∀ c', s'.conns.get? p = some c' → c'.state = .stateReq → ¬ HoldsFrame c'.input) ∧
      (AtEnd (s'.received p) → ¬ HoldsFrame (s'.leftover p))

def Unblocks (s : Server) (ev : Event) : Prop := LetsThrough HoldsFrame s ev

theorem not_holdsFrame_nil : ¬ HoldsFrame [] := fun h => absurd h.1 (by decide)

/-- No request is left waiting in a run exactly when none of its events lets a reply through
while the buffer holds a complete frame. -/
theorem no_request_waits_iff (blocks : Nat → Block) (events : List Event) :
    Run.AllSteps serverStep Drains (.start blocks) events ↔
      Run.AllSteps serverStep (fun s ev => ¬ Unblocks s ev) (.start blocks) events := by
  constructor
  · refine Run.allSteps_of_inv (I := fun s => Orderly blocks s ∧ Open s)
      (fun s ev h hdrains => ⟨fun hlets => ?_, fun s' => serverStep_orderly h.1 h.2⟩)
      ⟨orderly_start, open_start⟩
    cases ev with
    | listener connfd rbuf wbuf => exact hlets
    | conn fd reads writes =>
      obtain ⟨p, c, s', c', hloc, hstep, hp, hstate, hheld⟩ := held_of_letsThrough h.1 h.2 hlets
      exact (hdrains p c s' hloc hstep).1 c' hp hstate hheld
  · refine Run.allSteps_of_inv
      (I := fun s => (Orderly blocks s ∧ Open s) ∧ Clear HoldsFrame s)
      (fun s ev h hblocked => ⟨?_, fun s' hstep =>
        ⟨serverStep_orderly h.1.1 h.1.2 hstep, serverStep_clear (fun _ => .inl)
          not_holdsFrame_nil h.1.1 h.1.2 h.2 hblocked hstep⟩⟩)
      ⟨⟨orderly_start, open_start⟩, by simp [Clear, Server.start]⟩
    cases ev with
    | listener connfd rbuf wbuf => trivial
    | conn fd reads writes =>
      intro p c s' hloc hstep
      obtain ⟨hclear, hend⟩ := clear_conn (fun _ => .inl) h.1.1 h.1.2 h.2 hblocked hstep
      exact ⟨hclear p, hend p c hloc⟩

/-- A client sends two requests at once, the reply to the first is blocked, and the next event lets
it through. -/
def pipelined : List Event :=
  [.listener (some 5) (.zero _) (.zero _),
   .conn 5 [.data (frame (encodeReq [ascii ['k', 'e', 'y', 's']]) ++
     frame (encodeReq [ascii ['k', 'e', 'y', 's']]))] [],
   .conn 5 [] [.sent 100]]

theorem pipelined_request_waits :
    ∃ s c, Run.run serverStep (.start zeroed) pipelined = .ok s ∧
      s.conns.get? 0 = some c ∧ c.state = .stateReq ∧ HoldsFrame c.input := by
  have hwaits : Run.passes (fun s => (s.conns.get? 0).any fun c =>
      c.state == .stateReq && decide (HoldsFrame c.input))
      (Run.run serverStep (.start zeroed) pipelined) = true := by decide +kernel
  obtain ⟨s, hrun, hidle⟩ := Run.exists_of_passes hwaits
  obtain ⟨c, hc, hboth⟩ := (Option.any_eq_true _ _).mp hidle
  obtain ⟨hstate, hholds⟩ := Bool.and_eq_true_iff.mp hboth
  exact ⟨s, c, hrun, hc, eq_of_beq hstate, of_decide_eq_true hholds⟩

/-! ## Service in order -/

/-- The connection at `p` got the requests at the front of its stream and their replies, up to the
end of the last one. If a malformed frame comes next, no request is ever served again, and the
connection does not wait for input: it is closed, or has a reply under way. -/
def ServedInOrder (s : Server) (p : Nat) : Prop :=
  ∃ rest unsent,
    stream (s.received p) = requests (s.servedBy p) ++ rest ∧
    s.sent p ++ unsent = replies (s.servedBy p) ∧ unsent <:+ lastReply [] (s.servedBy p) ∧
    (∀ e ∈ s.servedBy p, (encodeReq e.cmd).length ≤ kMaxMsg) ∧
    (Malformed rest →
      (∀ later s', Run.run serverStep s later = .ok s' → s'.servedBy p = s.servedBy p) ∧
      ∀ c, s.conns.get? p = some c → c.state = .stateRes)

/-- The store is the outcome of the requests in the order of the record, and every connection was
served in order. -/
def InOrder (blocks : Nat → Block) (s : Server) (ev : Event) : Prop :=
  ∀ s', serverStep s ev = .ok s' →
    Executes { blocks := blocks } (s'.served.map Prod.snd) s'.store ∧ ∀ p, ServedInOrder s' p

def Exposes (s : Server) (ev : Event) : Prop := LetsThrough Malformed s ev

instance Exposes.decidable (s : Server) (ev : Event) : Decidable (Exposes s ev) :=
  LetsThrough.decidable Malformed s ev

theorem not_malformed_nil : ¬ Malformed [] := fun h => absurd h.1 (by decide)

theorem servedInOrder_of_clear {blocks : Nat → Block} {s : Server} (h : Orderly blocks s)
    (hopen : Open s) (hclear : Clear Malformed s) (p : Nat) : ServedInOrder s p := by
  obtain ⟨rest, unsent, hhist⟩ := h.past p
  refine ⟨rest, unsent, hhist.stream, hhist.sent, hhist.unsent, hhist.fits,
    fun hbad => ⟨fun later s' hlater => ?_, fun c hp => ?_⟩⟩
  · obtain ⟨rest', unsent', hhist'⟩ := (run_orderly h hopen hlater).1.past p
    exact served_stops hhist hhist' (run_extends hlater) hbad
  · have hinput : c.input = rest :=
      (leftover_eq (h.live p c hp).2.2).symm.trans (leftover_eq hhist)
    cases hstate : c.state with
    | stateReq => exact absurd (hinput ▸ hbad) (hclear p c hp hstate)
    | stateRes => rfl
    | stateEnd => exact absurd hstate (hopen p c hp).1

theorem ServedInOrder.clear {blocks : Nat → Block} {s : Server} {p : Nat} {c : Conn}
    (h : Orderly blocks s) (hserved : ServedInOrder s p) (hp : s.conns.get? p = some c)
    (hstate : c.state = .stateReq) : ¬ Malformed c.input := by
  obtain ⟨rest, unsent, hstream, -, -, -, hmalformed⟩ := hserved
  intro hbad
  obtain rfl : c.input = rest :=
    List.append_cancel_left ((h.live p c hp).2.2.stream.symm.trans hstream)
  rw [(hmalformed hbad).2 c hp] at hstate
  cases hstate

/-- Requests are served once and in order throughout a run, up to the first malformed frame and no
further, exactly when none of its events lets a reply through that has a malformed frame behind
it. -/
theorem served_in_order_iff (blocks : Nat → Block) (events : List Event) :
    Run.AllSteps serverStep (InOrder blocks) (.start blocks) events ↔
      Run.AllSteps serverStep (fun s ev => ¬ Exposes s ev) (.start blocks) events := by
  constructor
  · refine Run.allSteps_of_inv (I := fun s => Orderly blocks s ∧ Open s)
      (fun s ev h hserved => ⟨fun hexposes => ?_, fun s' => serverStep_orderly h.1 h.2⟩)
      ⟨orderly_start, open_start⟩
    cases ev with
    | listener connfd rbuf wbuf => exact hexposes
    | conn fd reads writes =>
      obtain ⟨p, c, s', c', -, hstep, hp, hstate, hbad⟩ := held_of_letsThrough h.1 h.2 hexposes
      exact ((hserved s' hstep).2 p).clear (serverStep_orderly h.1 h.2 hstep).1 hp hstate hbad
  · refine Run.allSteps_of_inv
      (I := fun s => (Orderly blocks s ∧ Open s) ∧ Clear Malformed s)
      (fun s ev h hblocked => ?_)
      ⟨⟨orderly_start, open_start⟩, by simp [Clear, Server.start]⟩
    have hnext (s' : Server) (hstep : serverStep s ev = .ok s') :
        (Orderly blocks s' ∧ Open s') ∧ Clear Malformed s' :=
      ⟨serverStep_orderly h.1.1 h.1.2 hstep, serverStep_clear (fun _ => .inr) not_malformed_nil
        h.1.1 h.1.2 h.2 hblocked hstep⟩
    refine ⟨fun s' hstep => ?_, hnext⟩
    obtain ⟨⟨hord, hopen⟩, hclear⟩ := hnext s' hstep
    exact ⟨hord.executes, servedInOrder_of_clear hord hopen hclear⟩

theorem served_in_order_pipelined :
    Run.AllSteps serverStep (InOrder zeroed) (.start zeroed) pipelined ∧
      ∃ s, Run.run serverStep (.start zeroed) pipelined = .ok s ∧
        (s.servedBy 0).map Served.cmd = [[ascii ['k', 'e', 'y', 's']]] ∧
        stream (s.received 0) = requests (s.servedBy 0) ++
          frame (encodeReq [ascii ['k', 'e', 'y', 's']]) ∧
        s.sent 0 = replies (s.servedBy 0) := by
  refine ⟨(served_in_order_iff _ _).mpr (by decide +kernel), ?_⟩
  have hserved : Run.passes (fun s =>
      (s.servedBy 0).map Served.cmd == [[ascii ['k', 'e', 'y', 's']]] &&
        stream (s.received 0) == requests (s.servedBy 0) ++
          frame (encodeReq [ascii ['k', 'e', 'y', 's']]) &&
        s.sent 0 == replies (s.servedBy 0))
      (Run.run serverStep (.start zeroed) pipelined) = true := by decide +kernel
  obtain ⟨s, hrun, hrecord⟩ := Run.exists_of_passes hserved
  simp only [Bool.and_eq_true, beq_iff_eq] at hrecord
  exact ⟨s, hrun, hrecord.1.1, hrecord.1.2, hrecord.2⟩

/-- The first of two frames is a request whose reply is blocked, the second announces too much. -/
def exposed : List Event :=
  [.listener (some 5) (.zero _) (.zero _),
   .conn 5 [.data (frame (encodeReq [ascii ['k', 'e', 'y', 's']]) ++ le32 5000)] [],
   .conn 5 [] [.sent 100]]

theorem malformed_frame_waits :
    ∃ s c, Run.run serverStep (.start zeroed) exposed = .ok s ∧
      s.conns.get? 0 = some c ∧ c.state = .stateReq ∧ Malformed c.input ∧
      ¬ ServedInOrder s 0 := by
  have hwaits : Run.passes (fun s => (s.conns.get? 0).any fun c =>
      c.state == .stateReq && decide (Malformed c.input))
      (Run.run serverStep (.start zeroed) exposed) = true := by decide +kernel
  obtain ⟨s, hrun, hidle⟩ := Run.exists_of_passes hwaits
  obtain ⟨c, hc, hboth⟩ := (Option.any_eq_true _ _).mp hidle
  obtain ⟨hstate, hbad⟩ := Bool.and_eq_true_iff.mp hboth
  exact ⟨s, c, hrun, hc, eq_of_beq hstate, of_decide_eq_true hbad, fun hserved =>
    hserved.clear (run_start hrun).1 hc (eq_of_beq hstate) (of_decide_eq_true hbad)⟩

end NanoRedis
