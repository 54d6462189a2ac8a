import NanoRedis.Server.Fragments
import NanoRedis.Server.Stops

/-! Clients that send one request at a time. They are served in full, and never stop the
server, whatever the other clients do. -/

namespace NanoRedis
open Intrusive Wire Exec

def Begins (data : Bytes) : Prop :=
  ∃ cmd : Command, (encodeReq cmd).length < kMaxMsg ∧ data <+: frame (encodeReq cmd)

theorem begins_nil : Begins [] := ⟨[], by decide, List.nil_prefix⟩

theorem Begins.not_malformed {data : Bytes} (h : Begins data) : ¬ Malformed data := by
  obtain ⟨cmd, hmax, more, hmore⟩ := h
  exact not_malformed_of_part hmax.le (hmore.trans (List.append_nil _).symm)

theorem Begins.length_lt {data : Bytes} (h : Begins data) : data.length < 4 + kMaxMsg := by
  obtain ⟨cmd, hmax, hdata⟩ := h
  have hle := hdata.length_le
  rw [length_frame] at hle
  omega

theorem Begins.rest_eq_nil {cmd : Command} {rest : Bytes}
    (h : Begins (frame (encodeReq cmd) ++ rest)) (hmax : (encodeReq cmd).length ≤ kMaxMsg) :
    rest = [] := by
  obtain ⟨cmd', hmax', more, hmore⟩ := h
  rw [List.append_assoc, ← List.append_nil (frame (encodeReq cmd'))] at hmore
  obtain ⟨-, hrest⟩ := request_selfDelimiting.cut cmd cmd' (rest ++ more) [] hmax hmax'.le hmore
  exact (List.append_eq_nil_iff.mp hrest).1

theorem holdsFrame_frame {cmd : Command} (hmax : (encodeReq cmd).length ≤ kMaxMsg) (rest : Bytes) :
    HoldsFrame (frame (encodeReq cmd) ++ rest) := by
  have hk : kMaxMsg < 2 ^ 31 := by decide
  rw [HoldsFrame, announced_frame _ _ (by omega), List.length_append, length_frame]
  omega

theorem incomplete_unique {cmds cmds' : List Command} {part part' : Bytes}
    (hcmds : ∀ cmd ∈ cmds, (encodeReq cmd).length ≤ kMaxMsg)
    (hcmds' : ∀ cmd ∈ cmds', (encodeReq cmd).length ≤ kMaxMsg)
    (heq : (cmds.flatMap fun cmd => frame (encodeReq cmd)) ++ part =
      (cmds'.flatMap fun cmd => frame (encodeReq cmd)) ++ part')
    (hpart : ¬ HoldsFrame part) (hpart' : ¬ HoldsFrame part') : part = part' := by
  rcases request_selfDelimiting.flatMap_cut hcmds hcmds' heq with
    ⟨cs, rfl, hrest⟩ | ⟨cs, rfl, hrest⟩
  · cases cs with
    | nil => simpa using hrest
    | cons cmd cs =>
      rw [hrest, List.flatMap_cons, List.append_assoc] at hpart
      exact absurd (holdsFrame_frame (hcmds' cmd (by simp)) _) hpart
  · cases cs with
    | nil => simpa using hrest.symm
    | cons cmd cs =>
      rw [hrest, List.flatMap_cons, List.append_assoc] at hpart'
      exact absurd (holdsFrame_frame (hcmds cmd (by simp)) _) hpart'

/-- No read goes past the end of the request that it is in, as with a client that waits for each
reply. -/
def Paced (reads : List (Nat × Bytes)) : Prop :=
  ∀ pre r, pre ++ [r] <+: reads → ∃ (cmds : List Command) (part : Bytes),
    (∀ cmd ∈ cmds, (encodeReq cmd).length ≤ kMaxMsg) ∧
    stream pre = (cmds.flatMap fun cmd => frame (encodeReq cmd)) ++ part ∧
    ¬ HoldsFrame part ∧ Begins (part ++ r.2)

theorem Paced.mono {reads reads' : List (Nat × Bytes)} (h : Paced reads') (hle : reads <+: reads') :
    Paced reads :=
  fun pre r hr => h pre r (hr.trans hle)

theorem paced_nil : Paced [] := fun pre r hr => by simp at hr

theorem Paced.concat {reads : List (Nat × Bytes)} (h : Paced reads) (cmds : List Command)
    (part : Bytes) (hcmds : ∀ cmd ∈ cmds, (encodeReq cmd).length ≤ kMaxMsg)
    (hstream : stream reads = (cmds.flatMap fun cmd => frame (encodeReq cmd)) ++ part)
    (hpart : ¬ HoldsFrame part) {r : Nat × Bytes} (hbegins : Begins (part ++ r.2)) :
    Paced (reads ++ [r]) := by
  intro pre r' hr
  rcases List.prefix_concat_iff.mp hr with heq | hr
  · obtain ⟨rfl, hr⟩ := List.append_inj' heq rfl
    obtain rfl : r' = r := by simpa using hr
    exact ⟨cmds, part, hcmds, hstream, hpart, hbegins⟩
  · exact h pre r' hr

structure Attended (c : Conn) : Prop where
  incomplete : ¬ HoldsFrame c.input
  behind : c.state = .stateRes → c.input = []

theorem attended_of_nil {c : Conn} (h : c.input = []) : Attended c where
  incomplete := h ▸ not_holdsFrame_nil
  behind := fun _ => h

section Call
variable {w₀ w w' : World} {past : List (Nat × Bytes)} {es : List Served}

theorem begins_of_paced (h : CallInv w₀ w) (hquiet : ¬ HoldsFrame w.conn.input)
    (hpast : stream past = requests es ++ w₀.conn.input)
    (hfits : ∀ e ∈ es, (encodeReq e.cmd).length ≤ kMaxMsg) {r : Nat × Bytes}
    (hpaced : Paced (past ++ (w.received ++ [r]))) : Begins (w.conn.input ++ r.2) := by
  rw [← List.append_assoc] at hpaced
  obtain ⟨cmds, part, hcmds, hstream, hpart, hbegins⟩ := hpaced _ r List.prefix_rfl
  have hserved : stream (past ++ w.received) =
      ((commands (es ++ w.served)).flatMap fun cmd => frame (encodeReq cmd)) ++ w.conn.input := by
    rw [← requests_eq_flatMap, stream_append, requests_append, hpast, List.append_assoc, h.input,
      List.append_assoc]
  have hfits' : ∀ cmd ∈ commands (es ++ w.served), (encodeReq cmd).length ≤ kMaxMsg := by
    intro cmd hcmd
    obtain ⟨e, he, rfl⟩ := List.mem_map.mp hcmd
    rcases List.mem_append.mp he with he | he
    · exact hfits e he
    · exact h.fits e he
  rwa [← incomplete_unique hcmds hfits' (hstream.symm.trans hserved) hpart hquiet]

theorem Responds.rest_eq_nil (h : Responds w w') (hbegins : Begins w.conn.input) :
    w'.flushed.conn.input = [] := by
  obtain ⟨hinput, hmax, -, hpacked⟩ := h
  rw [hinput] at hbegins
  simp only [World.flushed, Conn.pushed_input, hpacked.input, hbegins.rest_eq_nil hmax]

def Held : Stage → World → Prop
  | .reading, w => ¬ HoldsFrame w.conn.input
  | .serving, w => Begins w.conn.input

def Attending (past : List (Nat × Bytes)) (w₀ : World) (stage : Stage) (w : World) : Prop :=
  Filling w₀ stage w ∧ (Paced (past ++ w.received) → Held stage w)

theorem Attending.begins {bs : Bytes} (h : Attending past w₀ .reading w)
    (hpast : stream past = requests es ++ w₀.conn.input)
    (hfits : ∀ e ∈ es, (encodeReq e.cmd).length ≤ kMaxMsg) (hreads : Reads w bs w')
    (hpaced : Paced (past ++ w'.received)) : Begins w'.conn.input := by
  rw [hreads.received] at hpaced
  have hbefore : Paced (past ++ w.received) :=
    hpaced.mono (by rw [← List.append_assoc]; exact List.prefix_append _ _)
  rw [hreads.input]
  exact begins_of_paced h.1.toCallInv (h.2 hbefore) hpast hfits hpaced

theorem Attending.passage {p q : Stage × World} (hpoised : Poised p.2)
    (h : Attending past w₀ p.1 p.2) (hpast : stream past = requests es ++ w₀.conn.input)
    (hfits : ∀ e ∈ es, (encodeReq e.cmd).length ≤ kMaxMsg) (hpassage : Passage p q) :
    Attending past w₀ q.1 q.2 := by
  refine ⟨h.1.passage hpoised hpassage, ?_⟩
  cases hpassage with
  | read reads _ _ => exact h.begins hpast hfits reads
  | respond responds _ _ =>
    intro hpaced
    rw [received_flushed, responds.received] at hpaced
    rw [Held, responds.rest_eq_nil (h.2 hpaced)]
    exact begins_nil
  | dry incomplete _ => exact fun _ => incomplete

theorem Attending.ends {stage : Stage} {e : Option Stop} (hpoised : Poised w)
    (h : Attending past w₀ stage w) (hpast : stream past = requests es ++ w₀.conn.input)
    (hfits : ∀ e ∈ es, (encodeReq e.cmd).length ≤ kMaxMsg) (hending : Ending stage w e w')
    (hpaced : Paced (past ++ w'.received)) :
    (e = none → Attended w'.conn) ∧ ∀ a, e ≠ some (.assertion a) := by
  cases hending with
  | blocked _ | failed _ =>
    exact ⟨fun _ => ⟨h.2 hpaced, fun hres => by simp [World.ended, hpoised.state] at hres⟩,
      by simp⟩
  | @eof _ v reads =>
    have hinput : v.conn.input = w.conn.input := reads.input.trans (List.append_nil _)
    have hbefore : Paced (past ++ w.received) := by
      refine hpaced.mono ?_
      rw [World.ended, reads.received, ← List.append_assoc]
      exact List.prefix_append _ _
    exact ⟨fun _ => ⟨by rw [World.ended]; exact hinput ▸ h.2 hbefore,
      fun hres => by simp [World.ended] at hres⟩, by simp⟩
  | full reads _ noRoom =>
    have hlt := (h.begins hpast hfits reads hpaced).length_lt
    obtain ⟨-, hsize, -⟩ := reads
    rw [length_input hsize] at hlt
    exact absurd hlt noRoom
  | malformed bad => exact absurd bad (h.2 hpaced).not_malformed
  | refused _ => exact ⟨by simp, by simp⟩
  | held responds _ _ =>
    rw [received_flushed, responds.received] at hpaced
    exact ⟨fun _ => attended_of_nil (responds.rest_eq_nil (h.2 hpaced)), by simp⟩
  | broken _ _ => exact ⟨by simp, by simp⟩

theorem connectionIo_paced (h : Start w) (hattended : Attended w.conn)
    (hpast : stream past = requests es ++ w.conn.input)
    (hfits : ∀ e ∈ es, (encodeReq e.cmd).length ≤ kMaxMsg) :
    wp connectionIo (fun _ w' => Paced (past ++ w'.received) → Attended w'.conn)
      (fun e w' => Paced (past ++ w'.received) → ∀ a, e ≠ .assertion a) w := by
  cases hstate : w.conn.state with
  | stateReq =>
    have hpoised := h.poised hstate
    have hrule {e : Option Stop} {w' : World} (hcall : Call w e w') :
        Paced (past ++ w'.received) →
          (e = none → Attended w'.conn) ∧ ∀ a, e ≠ some (.assertion a) :=
      hcall.rule (I := Attending past w)
        (fun hpoised h hpassage => h.passage hpoised hpast hfits hpassage)
        (fun hpoised h hending => h.ends hpoised hpast hfits hending) hpoised
        ⟨h.filling, fun _ => hattended.incomplete⟩
    refine wp_mono (connectionIo_call hpoised) (fun _ w' hcall hpaced => ?_)
      fun e w' hcall hpaced a => ?_
    · exact (hrule hcall hpaced).1 rfl
    · simpa using (hrule hcall hpaced).2 a
  | stateRes =>
    refine (connectionIo_res h hstate).mpr ⟨fun _ _ => attended_of_nil ?_, fun _ _ a => by simp⟩
    simp only [World.flushed, Conn.pushed_input, hattended.behind hstate]
  | stateEnd => exact absurd hstate h.state

end Call

/-- If the client of the connection at `p` is paced, every complete request of its stream has been
executed, and nothing is buffered behind a reply that is under way. -/
def Server.ServesFully (s : Server) (p : Nat) : Prop :=
  Paced (s.received p) → ¬ HoldsFrame (s.leftover p) ∧
    ∀ c, s.conns.get? p = some c → c.state = .stateRes → c.input = []

section Steps
variable {blocks : Nat → Block} {s s' : Server} {p fd : Nat} {c : Conn} {w : World}
  {reads : List ReadResult} {writes : List WriteResult}

theorem attended_of_paced (h : Orderly blocks s) (hp : s.conns.get? p = some c)
    (hserved : Server.ServesFully s p) (hpaced : Paced (s.received p)) : Attended c := by
  obtain ⟨hquiet, hbehind⟩ := hserved hpaced
  rw [leftover_eq (h.live p c hp).2.2] at hquiet
  exact ⟨hquiet, hbehind c hp⟩

theorem leave_paced (h : Orderly blocks s) (hopen : Open s) (hp : s.conns.get? p = some c)
    (hserved : Server.ServesFully s p) :
    wp connectionIo
      (fun _ w => Paced ((s.leave p w).received p) → Attended w.conn)
      (fun e w => Paced ((s.leave p w).received p) → ∀ a, e ≠ .assertion a)
      (s.enter c reads writes) := by
  simp only [received_leave_self]
  by_cases hpaced : Paced (s.received p)
  · have hhist := (h.live p c hp).2.2
    exact connectionIo_paced (start_enter h hopen hp reads writes)
      (attended_of_paced h hp hserved hpaced) hhist.stream hhist.fits
  · refine wp_mono (connectionIo_spec (start_enter h hopen hp reads writes)) (fun _ w _ hw => ?_)
      fun e w _ hw => ?_
    · exact absurd (hw.mono (List.prefix_append _ _)) hpaced
    · exact absurd (hw.mono (List.prefix_append _ _)) hpaced

theorem serverStep_fully (h : Orderly blocks s) (hopen : Open s)
    (hserved : ∀ p, Server.ServesFully s p) {ev : Event} (hstep : serverStep s ev = .ok s')
    (p : Nat) : Server.ServesFully s' p := by
  cases ev with
  | listener connfd rbuf wbuf =>
    rcases serverStep_listener hstep with rfl | ⟨connfd, rfl⟩
    · exact hserved p
    · intro hpaced
      obtain ⟨hquiet, hbehind⟩ := hserved p hpaced
      refine ⟨hquiet, fun c hp hres => ?_⟩
      by_cases hnew : p = s.conns.brk
      · subst hnew
        obtain rfl := Option.some.inj ((Heap.get?_alloc_brk s.conns _).symm.trans hp)
        cases hres
      · exact hbehind c ((Heap.get?_alloc_ne s.conns hnew _).symm.trans hp) hres
  | conn fd reads writes =>
    obtain ⟨q, c, w, hloc, hrun, hcases⟩ := serverStep_conn hstep
    have hq := locate_eq_ok hloc
    have hleave : Server.ServesFully (s.leave q w) p := by
      intro hpaced
      by_cases hpq : p = q
      · subst hpq
        have hattended := wp_of_ok (leave_paced h hopen hq (hserved p)) hrun hpaced
        have hlive := wp_of_ok (connectionIo_spec (start_enter h hopen hq reads writes)) hrun
        rw [leftover_eq (history_leave_self (h.live p c hq).2.2 hlive.toCallInv)]
        refine ⟨hattended.incomplete, fun c' hc' hres => ?_⟩
        obtain rfl := Option.some.inj ((Heap.get?_set_self hq w.conn).symm.trans hc')
        exact hattended.behind hres
      · rw [received_leave_ne s q w hpq] at hpaced
        obtain ⟨hquiet, hbehind⟩ := hserved p hpaced
        unfold Server.leftover
        rw [received_leave_ne s q w hpq, servedBy_leave_ne s q w hpq]
        exact ⟨hquiet, fun c' hc' =>
          hbehind c' ((Heap.get?_set_ne s.conns hpq w.conn).symm.trans hc')⟩
    rcases hcases with ⟨rfl, -⟩ | ⟨rfl, -⟩
    · intro hpaced
      obtain ⟨hquiet, hbehind⟩ := hleave hpaced
      exact ⟨hquiet, fun c' hc' => hbehind c' (get?_destroy hc').2⟩
    · exact hleave

theorem not_paced_of_error (h : Orderly blocks s) (hopen : Open s)
    (hserved : ∀ p, Server.ServesFully s p) {ev : Event} {a : ConnAssertion}
    (hstep : serverStep s ev = .error (.assertion a, s')) :
    ∃ p, ¬ Paced (s'.received p) := by
  cases ev with
  | listener connfd rbuf wbuf => cases connfd <;> simp [serverStep] at hstep
  | conn fd reads writes =>
    simp only [serverStep] at hstep
    cases hloc : s.locate fd with
    | error f => simp [hloc] at hstep
    | ok pc =>
      obtain ⟨p, c⟩ := pc
      have hp := locate_eq_ok hloc
      simp only [hloc] at hstep
      cases hrun : (connectionIo : Exec Unit) (s.enter c reads writes) with
      | ok u w =>
        simp only [hrun] at hstep
        split_ifs at hstep
        simp at hstep
      | error e w =>
        simp only [hrun, Except.error.injEq, Prod.mk.injEq] at hstep
        obtain ⟨rfl, rfl⟩ := hstep
        refine ⟨p, fun hpaced => ?_⟩
        exact wp_of_error (leave_paced h hopen hp (hserved p)) hrun hpaced a rfl

end Steps

theorem fully_start (blocks : Nat → Block) (p : Nat) : Server.ServesFully (.start blocks) p :=
  fun _ => ⟨not_holdsFrame_nil, by simp [Server.start]⟩

/-- A client that sends one request at a time, each below the largest size, has all its complete
requests executed whatever the others do, and no assertion stops the server unless some client
does otherwise. -/
theorem paced_clients_served (blocks : Nat → Block) (events : List Event) :
    (∀ s p, Run.run serverStep (.start blocks) events = .ok s → Paced (s.received p) →
      ¬ HoldsFrame (s.leftover p) ∧
        ∀ c, s.conns.get? p = some c → c.state = .stateRes → c.input = []) ∧
    ∀ a s, Run.run serverStep (.start blocks) events = .error (.assertion a, s) →
      ∃ p, ¬ Paced (s.received p) := by
  have hstep (s : Server) (ev : Event) (s' : Server)
      (h : (Orderly blocks s ∧ Open s) ∧ ∀ p, Server.ServesFully s p)
      (hrun : serverStep s ev = .ok s') :
      (Orderly blocks s' ∧ Open s') ∧ ∀ p, Server.ServesFully s' p :=
    ⟨serverStep_orderly h.1.1 h.1.2 hrun, serverStep_fully h.1.1 h.1.2 h.2 hrun⟩
  have hinit : (Orderly blocks (.start blocks) ∧ Open (.start blocks)) ∧
      ∀ p, Server.ServesFully (.start blocks) p :=
    ⟨⟨orderly_start, open_start⟩, fully_start blocks⟩
  constructor
  · intro s p hrun hpaced
    exact (Run.inv_of_run hstep hinit hrun).2 p hpaced
  · intro a s hrun
    refine Run.error_of_run
      (B := fun es => ∀ a, es.1 = .assertion a → ∃ p, ¬ Paced (es.2.received p)) hstep
      (fun s ev es h hbad a ha => ?_) hinit hrun a rfl
    obtain ⟨e, s'⟩ := es
    obtain rfl : e = .assertion a := ha
    exact not_paced_of_error h.1.1 h.1.2 h.2 hbad

def keysFrame : Bytes := frame (encodeReq [ascii ['k', 'e', 'y', 's']])

theorem cut_received :
    Run.passes (fun s => s.received 0 ==
        [(4 + kMaxMsg, keysFrame.take 3), (4 + kMaxMsg - 3, keysFrame.drop 3)])
      (Run.run serverStep (.start zeroed) cut) = true := by decide +kernel

theorem paced_cut :
    Paced [(4 + kMaxMsg, keysFrame.take 3), (4 + kMaxMsg - 3, keysFrame.drop 3)] := by
  have hbegins {data : Bytes} (h : data <+: keysFrame) : Begins data := ⟨_, by decide, h⟩
  have hfirst : Paced [(4 + kMaxMsg, keysFrame.take 3)] :=
    paced_nil.concat [] [] (by simp) rfl (by decide) (hbegins (List.take_prefix _ _))
  have hboth : keysFrame.take 3 ++ keysFrame.drop 3 <+: keysFrame := by
    rw [List.take_append_drop]
  exact hfirst.concat [] (keysFrame.take 3) (by simp) (List.append_nil _) (by decide)
    (hbegins hboth)

theorem paced_clients_served_cut :
    ∃ s, Run.run serverStep (.start zeroed) cut = .ok s ∧ ¬ HoldsFrame (s.leftover 0) := by
  obtain ⟨s, hrun, hreads⟩ := Run.exists_of_passes cut_received
  have hpaced : Paced (s.received 0) := beq_iff_eq.mp hreads ▸ paced_cut
  exact ⟨s, hrun, ((paced_clients_served zeroed cut).1 s 0 hrun hpaced).1⟩

end NanoRedis
