import NanoRedis.Server.History

/-! The rounds of the event loop in `main`: the table of connections, the interest set
and the life of each `Conn` over the batches that `epoll_wait` returns. -/

namespace NanoRedis
open Intrusive Wire Exec

/-- An entry of `events_buf`, and what the kernel answers while it is processed. -/
structure Ready where
  activeFd : Nat
  accepted : Option Nat := none
  rbuf : Buffer (4 + kMaxMsg) := .zero _
  wbuf : Buffer (4 + kMaxMsg) := .zero _
  reads : List ReadResult := []
  writes : List WriteResult := []

def Ready.event (fd : Nat) (r : Ready) : Event :=
  if r.activeFd = fd then .listener r.accepted r.rbuf r.wbuf
  else .conn r.activeFd r.reads r.writes

def serveBatch (fd : Nat) (s : Server) (batch : List Ready) : Except (Stop × Server) Server :=
  Run.run serverStep s (batch.map (Ready.event fd))

/-- What the kernel lets `main` do next: `epoll_wait` fails, or it reports a batch, which is
processed to its end or as far as an `accept` whose descriptor a system call then rejects. -/
inductive Turn
  | failed
  | batch (ready : List Ready)
  | rejected (ready : List Ready)

def Turn.ready : Turn → List Ready
  | .failed => []
  | .batch ready | .rejected ready => ready

def serveTurn (fd : Nat) (s : Server) : Turn → Except (Stop × Server) Server
  | .failed => .error (.died, s)
  | .batch ready => serveBatch fd s ready
  | .rejected ready =>
    match serveBatch fd s ready with
    | .ok s => .error (.died, s)
    | .error e => .error e

/-! ## What the kernel promises -/

/-- A descriptor of a connection is open as long as it is registered; `accept()` returns one that
is not. -/
def Event.Fresh (s : Server) : Event → Prop
  | .listener (some connfd) _ _ => s.interest connfd = none
  | .listener none _ _ | .conn _ _ _ => True

instance Event.decidableFresh (s : Server) : ∀ ev : Event, Decidable (ev.Fresh s)
  | .listener (some connfd) _ _ => inferInstanceAs (Decidable (s.interest connfd = none))
  | .listener none _ _ => isTrue trivial
  | .conn _ _ _ => isTrue trivial

/-- A batch lists distinct descriptors that are registered when `epoll_wait` returns. -/
structure Reported (fd : Nat) (s : Server) (batch : List Ready) : Prop where
  distinct : (batch.map Ready.activeFd).Nodup
  registered : ∀ r ∈ batch, r.activeFd = fd ∨ (s.interest r.activeFd).isSome
  fresh : Run.AllSteps serverStep (fun s ev => ev.Fresh s) s (batch.map (Ready.event fd))

instance Reported.decidable (fd : Nat) (s : Server) (batch : List Ready) :
    Decidable (Reported fd s batch) :=
  decidable_of_iff ((batch.map Ready.activeFd).Nodup ∧
    (∀ r ∈ batch, r.activeFd = fd ∨ (s.interest r.activeFd).isSome) ∧
    Run.AllSteps serverStep (fun s ev => ev.Fresh s) s (batch.map (Ready.event fd)))
    ⟨fun h => ⟨h.1, h.2.1, h.2.2⟩, fun h => ⟨h.1, h.2, h.3⟩⟩

/-! ## What the loop keeps -/

def Event.Finds (s : Server) : Event → Prop
  | .listener _ _ _ => True
  | .conn fd _ _ => ∃ p c, s.fd2conn[fd]? = some (some p) ∧ s.conns.get? p = some c ∧ c.fd = fd

def Server.Apart (s : Server) : Prop :=
  ∀ fd fd' p : Nat, s.fd2conn[fd]? = some (some p) → s.fd2conn[fd']? = some (some p) → fd = fd'

def Server.Waits (s : Server) (c : Conn) : Prop :=
  c.state = .stateReq ∧ s.interest c.fd = some .epollin ∧ c.wbufSize = 0 ∧ c.wbufSent = 0 ∨
    c.state = .stateRes ∧ s.interest c.fd = some .epollout ∧ c.wbufSent < c.wbufSize

def freed (s : Server) : Event → List Nat
  | .listener _ _ _ => []
  | .conn fd reads writes =>
    match s.locate fd with
    | .error _ => []
    | .ok (p, c) =>
      match (connectionIo : Exec Unit) (s.enter c reads writes) with
      | .ok () w => if w.conn.state = .stateEnd then [p] else []
      | .error _ _ => []

structure Tabled (s : Server) : Prop where
  entry : ∀ fd p, s.fd2conn[fd]? = some (some p) → ∃ c, s.conns.get? p = some c ∧ c.fd = fd
  listed : ∀ p c, s.conns.get? p = some c → s.fd2conn[c.fd]? = some (some p)
  registered : ∀ fd, (s.interest fd).isSome → ∃ p, s.fd2conn[fd]? = some (some p)
  waits : ∀ p c, s.conns.get? p = some c → s.Waits c

theorem tabled_start (blocks : Nat → Block) : Tabled (.start blocks) := by
  constructor <;> simp [Server.start]

theorem fd2conn_of_locate {s : Server} {fd p : Nat} {c : Conn} (h : s.locate fd = .ok (p, c)) :
    s.fd2conn[fd]? = some (some p) := by
  rw [Server.locate] at h
  split at h
  · cases h
  · cases h
  · rename_i q hq
    split at h
    · cases h
    · obtain rfl := congrArg Prod.fst (Except.ok.inj h)
      exact hq

section Table
variable {fd2conn : List Ptr} {fd fd' p q : Nat}

theorem connPut_self : (connPut fd2conn fd p)[fd]? = some (some p) := by
  have hlt : fd < (connPut fd2conn fd p).length := by
    simp only [connPut, List.length_set]
    split_ifs with hle
    · simp only [List.length_append, List.length_replicate]
      omega
    · omega
  unfold connPut at hlt
  rw [List.length_set] at hlt
  unfold connPut
  rw [List.getElem?_set_self hlt]

theorem connPut_ne (h : fd' ≠ fd) :
    (connPut fd2conn fd p)[fd']? = some (some q) ↔ fd2conn[fd']? = some (some q) := by
  unfold connPut
  rw [List.getElem?_set_ne h.symm]
  split_ifs with hle
  · rcases lt_or_ge fd' fd2conn.length with hlt | hge
    · rw [List.getElem?_append_left hlt]
    · have hold : fd2conn[fd']? = none := List.getElem?_eq_none hge
      rw [List.getElem?_append_right hge, hold, List.getElem?_replicate]
      split_ifs <;> simp
  · rfl

end Table

namespace Tabled
variable {s : Server} {p : Nat} {c : Conn} {w : World}
  {reads : List ReadResult} {writes : List WriteResult}

theorem apart (h : Tabled s) : s.Apart := by
  intro fd fd' p hfd hfd'
  obtain ⟨c, hc, rfl⟩ := h.entry fd p hfd
  obtain ⟨c', hc', rfl⟩ := h.entry fd' p hfd'
  rw [Option.some.inj (hc.symm.trans hc')]

theorem isSome_interest (h : Tabled s) (hp : s.conns.get? p = some c) :
    (s.interest c.fd).isSome := by
  rcases h.waits p c hp with ⟨-, hin, -⟩ | ⟨-, hout, -⟩
  · rw [hin]
    rfl
  · rw [hout]
    rfl

theorem locate (h : Tabled s) {fd : Nat} (hfd : (s.interest fd).isSome) :
    ∃ p c, s.locate fd = .ok (p, c) ∧ s.fd2conn[fd]? = some (some p) ∧
      s.conns.get? p = some c ∧ c.fd = fd := by
  obtain ⟨p, hp⟩ := h.registered fd hfd
  obtain ⟨c, hc, hcfd⟩ := h.entry fd p hp
  exact ⟨p, c, by simp only [Server.locate, hp, hc], hp, hc, hcfd⟩

theorem listening (h : Tabled s) (hp : s.conns.get? p = some c) :
    Listening (s.enter c reads writes) := by
  rcases h.waits p c hp with ⟨hstate, hin, -⟩ | ⟨hstate, hout, -⟩
  · simp [Listening, Server.enter, hstate, hin]
  · simp [Listening, Server.enter, hstate, hout]

theorem accept (h : Tabled s) {connfd : Nat} (hnew : s.interest connfd = none)
    (rbuf wbuf : Buffer (4 + kMaxMsg)) : Tabled (s.acceptNewConn connfd rbuf wbuf) := by
  -- no live connection has the new descriptor
  have hfd : ∀ q c, s.conns.get? q = some c → c.fd ≠ connfd := by
    rintro q c hq rfl
    have hsome := h.isSome_interest hq
    rw [hnew] at hsome
    cases hsome
  have hold : ∀ q c, q ≠ s.conns.brk →
      ((s.acceptNewConn connfd rbuf wbuf).conns.get? q = some c ↔ s.conns.get? q = some c) := by
    intro q c hq
    rw [Server.acceptNewConn, Heap.get?_alloc_ne s.conns hq]
  have hself : ∀ c, (s.acceptNewConn connfd rbuf wbuf).conns.get? s.conns.brk = some c →
      c = { fd := connfd, rbuf := rbuf, wbuf := wbuf } := fun c hc =>
    (Option.some.inj ((Heap.get?_alloc_brk s.conns _).symm.trans hc)).symm
  have hinterest : ∀ fd, fd ≠ connfd →
      (s.acceptNewConn connfd rbuf wbuf).interest fd = s.interest fd := fun fd hne =>
    Function.update_of_ne hne _ _
  refine ⟨fun fd q hq => ?_, fun q c hq => ?_, fun fd hsome => ?_, fun q c hq => ?_⟩
  · by_cases hne : fd = connfd
    · subst hne
      obtain rfl := Option.some.inj (Option.some.inj (connPut_self.symm.trans hq))
      exact ⟨_, Heap.get?_alloc_brk s.conns _, rfl⟩
    · obtain ⟨c, hc, hcfd⟩ := h.entry fd q ((connPut_ne hne).mp hq)
      exact ⟨c, (hold q c (Heap.lt_brk hc).ne).mpr hc, hcfd⟩
  · by_cases hqb : q = s.conns.brk
    · subst hqb
      obtain rfl := hself c hq
      exact connPut_self
    · have hc := (hold q c hqb).mp hq
      exact (connPut_ne (hfd q c hc)).mpr (h.listed q c hc)
  · by_cases hne : fd = connfd
    · subst hne
      exact ⟨_, connPut_self⟩
    · rw [hinterest fd hne] at hsome
      obtain ⟨q, hq⟩ := h.registered fd hsome
      exact ⟨q, (connPut_ne hne).mpr hq⟩
  · by_cases hqb : q = s.conns.brk
    · subst hqb
      obtain rfl := hself c hq
      exact .inl ⟨rfl, Function.update_self .., rfl, rfl⟩
    · have hc := (hold q c hqb).mp hq
      unfold Server.Waits
      rw [hinterest c.fd (hfd q c hc)]
      exact h.waits q c hc

theorem fd_ne (h : Tabled s) (hp : s.conns.get? p = some c) {q : Nat} {c' : Conn}
    (hq : s.conns.get? q = some c') (hqp : q ≠ p) : c'.fd ≠ c.fd := by
  intro heq
  have hsame := h.listed q c' hq
  rw [heq, h.listed p c hp] at hsame
  exact hqp (Option.some.inj (Option.some.inj hsame)).symm

theorem leave (h : Tabled s) (hp : s.conns.get? p = some c)
    (hw : Live (s.enter c reads writes) w) (hend : w.conn.state ≠ .stateEnd) :
    Tabled (s.leave p w) := by
  have hfd : w.conn.fd = c.fd := hw.fd
  have hself : (s.leave p w).conns.get? p = some w.conn := Heap.get?_set_self hp _
  have hother : ∀ q, q ≠ p → (s.leave p w).conns.get? q = s.conns.get? q := fun q hq =>
    Heap.get?_set_ne s.conns hq _
  have hinterest : (s.leave p w).interest c.fd = some w.interest := by
    obtain ⟨i, hi⟩ := Option.isSome_iff_exists.mp (h.isSome_interest hp)
    simp only [Server.leave, hfd, Function.update_self, hi, Option.map_some]
  have hinterest' : ∀ fd, fd ≠ c.fd → (s.leave p w).interest fd = s.interest fd := fun fd hne =>
    Function.update_of_ne (hfd ▸ hne) _ _
  refine ⟨fun fd q hq => ?_, fun q c' hq => ?_, fun fd hsome => ?_, fun q c' hq => ?_⟩
  · obtain ⟨c', hc', hcfd⟩ := h.entry fd q hq
    by_cases hqp : q = p
    · subst hqp
      obtain rfl := Option.some.inj (hp.symm.trans hc')
      exact ⟨_, hself, hfd.trans hcfd⟩
    · exact ⟨c', (hother q hqp).trans hc', hcfd⟩
  · by_cases hqp : q = p
    · subst hqp
      obtain rfl := Option.some.inj (hself.symm.trans hq)
      rw [hfd]
      exact h.listed q c hp
    · exact h.listed q c' ((hother q hqp).symm.trans hq)
  · by_cases hne : fd = c.fd
    · subst hne
      exact ⟨p, h.listed p c hp⟩
    · rw [hinterest' fd hne] at hsome
      exact h.registered fd hsome
  · by_cases hqp : q = p
    · subst hqp
      obtain rfl := Option.some.inj (hself.symm.trans hq)
      have hlisten := hw.listening (h.listening hp)
      have hphase := hw.phase
      unfold Server.Waits
      rw [hfd, hinterest]
      cases hstate : w.conn.state with
      | stateReq =>
        unfold Phase at hphase
        rw [hstate] at hphase
        unfold Listening at hlisten
        rw [hstate] at hlisten
        exact .inl ⟨rfl, congrArg some hlisten, hphase⟩
      | stateRes =>
        unfold Phase at hphase
        rw [hstate] at hphase
        unfold Listening at hlisten
        rw [hstate] at hlisten
        exact .inr ⟨rfl, congrArg some hlisten, hphase.1⟩
      | stateEnd => exact absurd hstate hend
    · have hc' := (hother q hqp).symm.trans hq
      unfold Server.Waits
      rw [hinterest' c'.fd (h.fd_ne hp hc' hqp)]
      exact h.waits q c' hc'

theorem destroy (h : Tabled s) (hp : s.conns.get? p = some c)
    (hw : Live (s.enter c reads writes) w) :
    Tabled ((s.leave p w).destroy p w.conn.fd) := by
  have hfd : w.conn.fd = c.fd := hw.fd
  have hold : ∀ q c', ((s.leave p w).destroy p w.conn.fd).conns.get? q = some c' →
      q ≠ p ∧ s.conns.get? q = some c' := by
    intro q c' hq
    obtain ⟨hqp, hq⟩ := get?_destroy hq
    exact ⟨hqp, (Heap.get?_set_ne s.conns hqp _).symm.trans hq⟩
  have hother : ∀ q, q ≠ p →
      ((s.leave p w).destroy p w.conn.fd).conns.get? q = s.conns.get? q := fun q hqp =>
    (Heap.get?_free_ne _ hqp).trans (Heap.get?_set_ne s.conns hqp _)
  have hentry : ∀ fd q, ((s.leave p w).destroy p w.conn.fd).fd2conn[fd]? = some (some q) ↔
      fd ≠ c.fd ∧ s.fd2conn[fd]? = some (some q) := by
    intro fd q
    rw [Server.destroy, hfd]
    by_cases hfdc : fd = c.fd
    · subst hfdc
      simp only [List.getElem?_set]
      split_ifs <;> simp
    · simp only [List.getElem?_set_ne (Ne.symm hfdc), ne_eq, hfdc, not_false_eq_true, true_and]
      rfl
  have hinterest : ∀ fd, fd ≠ c.fd →
      ((s.leave p w).destroy p w.conn.fd).interest fd = s.interest fd := by
    intro fd hfdc
    simp only [Server.destroy, Server.leave, hfd, Function.update_of_ne hfdc]
  refine ⟨fun fd q hq => ?_, fun q c' hq => ?_, fun fd hsome => ?_, fun q c' hq => ?_⟩
  · obtain ⟨hfdc, hq⟩ := (hentry fd q).mp hq
    obtain ⟨c', hc', hcfd⟩ := h.entry fd q hq
    have hqp : q ≠ p := by
      rintro rfl
      obtain rfl := Option.some.inj (hp.symm.trans hc')
      exact hfdc hcfd.symm
    exact ⟨c', (hother q hqp).trans hc', hcfd⟩
  · obtain ⟨hqp, hc'⟩ := hold q c' hq
    exact (hentry c'.fd q).mpr ⟨h.fd_ne hp hc' hqp, h.listed q c' hc'⟩
  · have hfdc : fd ≠ c.fd := by
      rintro rfl
      simp [Server.destroy, hfd] at hsome
    rw [hinterest fd hfdc] at hsome
    obtain ⟨q, hq⟩ := h.registered fd hsome
    exact ⟨q, (hentry fd q).mpr ⟨hfdc, hq⟩⟩
  · obtain ⟨hqp, hc'⟩ := hold q c' hq
    unfold Server.Waits
    rw [hinterest c'.fd (h.fd_ne hp hc' hqp)]
    exact h.waits q c' hc'

end Tabled

structure Tidy (blocks : Nat → Block) (s : Server) : Prop where
  tabled : Tabled s
  orderly : Orderly blocks s
  opened : Open s

theorem tidy_start (blocks : Nat → Block) : Tidy blocks (.start blocks) :=
  ⟨tabled_start blocks, orderly_start, open_start⟩

section Steps
variable {blocks : Nat → Block} {s s' : Server} {ev : Event}

theorem serverStep_tidy (h : Tidy blocks s) (hfresh : ev.Fresh s)
    (hstep : serverStep s ev = .ok s') : Tidy blocks s' := by
  obtain ⟨hord, hopen⟩ := serverStep_orderly h.orderly h.opened hstep
  refine ⟨?_, hord, hopen⟩
  cases ev with
  | listener connfd rbuf wbuf =>
    cases connfd with
    | none =>
      obtain rfl : s = s' := Except.ok.inj hstep
      exact h.tabled
    | some connfd =>
      obtain rfl : s.acceptNewConn connfd rbuf wbuf = s' := Except.ok.inj hstep
      exact h.tabled.accept hfresh rbuf wbuf
  | conn fd reads writes =>
    obtain ⟨p, c, w, hloc, hrun, hcases⟩ := serverStep_conn hstep
    have hp := locate_eq_ok hloc
    have hlive := wp_of_ok (connectionIo_spec (start_enter h.orderly h.opened hp reads writes)) hrun
    rcases hcases with ⟨rfl, -⟩ | ⟨rfl, hend⟩
    · exact h.tabled.destroy hp hlive
    · exact h.tabled.leave hp hlive hend

theorem isSome_interest_of_step (h : Tidy blocks s) (hstep : serverStep s ev = .ok s') {fd : Nat}
    (hfd : (s.interest fd).isSome)
    (hother : ∀ reads writes, ev ≠ .conn fd reads writes) : (s'.interest fd).isSome := by
  cases ev with
  | listener connfd rbuf wbuf =>
    rcases serverStep_listener hstep with rfl | ⟨connfd, rfl⟩
    · exact hfd
    · simp only [Server.acceptNewConn, Function.update_apply]
      split_ifs
      · rfl
      · exact hfd
  | conn fd' reads writes =>
    have hne : fd ≠ fd' := fun heq => hother reads writes (heq ▸ rfl)
    obtain ⟨p, c, w, hloc, hrun, hcases⟩ := serverStep_conn hstep
    have hp := locate_eq_ok hloc
    have hlive := wp_of_ok (connectionIo_spec (start_enter h.orderly h.opened hp reads writes)) hrun
    have hwfd : w.conn.fd = c.fd := hlive.fd
    have hcfd : c.fd = fd' := by
      obtain ⟨c', hc', hcfd⟩ := h.tabled.entry fd' p (fd2conn_of_locate hloc)
      rwa [Option.some.inj (hp.symm.trans hc')]
    rcases hcases with ⟨rfl, -⟩ | ⟨rfl, -⟩
    · simpa only [Server.destroy, Server.leave, hwfd, hcfd, Function.update_of_ne hne] using hfd
    · simpa only [Server.leave, hwfd, hcfd, Function.update_of_ne hne] using hfd

theorem freed_spec {p : Nat} (hp : p ∈ freed s ev) :
    (∃ c, s.conns.get? p = some c) ∧
      ∀ s', serverStep s ev = .ok s' → s'.conns.get? p = none ∧ p < s'.conns.brk := by
  cases ev with
  | listener connfd rbuf wbuf => cases hp
  | conn fd reads writes =>
    simp only [freed] at hp
    split at hp
    · cases hp
    · rename_i q c hloc
      have hq := locate_eq_ok hloc
      split at hp
      · rename_i w hrun
        split_ifs at hp with hend
        · obtain rfl := List.mem_singleton.mp hp
          refine ⟨⟨c, hq⟩, fun s' hstep => ?_⟩
          simp only [serverStep, hloc, hrun, hend, if_true] at hstep
          split_ifs at hstep
          obtain rfl := Except.ok.inj hstep
          refine ⟨Heap.get?_free_self _ p, ?_⟩
          simpa [Server.destroy, Server.leave] using Heap.lt_brk hq
        · cases hp
      · cases hp

theorem may_be_freed_of_step (hstep : serverStep s ev = .ok s') {p : Nat}
    (hp : (∃ c, s'.conns.get? p = some c) ∨ s'.conns.brk ≤ p) :
    (∃ c, s.conns.get? p = some c) ∨ s.conns.brk ≤ p := by
  cases ev with
  | listener connfd rbuf wbuf =>
    rcases serverStep_listener hstep with rfl | ⟨connfd, rfl⟩
    · exact hp
    · rcases lt_or_ge p s.conns.brk with hlt | hge
      · rcases hp with ⟨c, hc⟩ | hle
        · exact .inl ⟨c, (Heap.get?_alloc_ne s.conns hlt.ne _).symm.trans hc⟩
        · simp only [Server.acceptNewConn, Heap.brk_alloc] at hle
          omega
      · exact .inr hge
  | conn fd reads writes =>
    obtain ⟨q, c, w, hloc, -, hcases⟩ := serverStep_conn hstep
    have hq := locate_eq_ok hloc
    have hset : ∀ c', (s.leave q w).conns.get? p = some c' → ∃ c, s.conns.get? p = some c := by
      intro c' hc'
      by_cases hpq : p = q
      · exact ⟨c, hpq ▸ hq⟩
      · exact ⟨c', (Heap.get?_set_ne s.conns hpq _).symm.trans hc'⟩
    rcases hcases with ⟨rfl, -⟩ | ⟨rfl, -⟩
    · rcases hp with ⟨c', hc'⟩ | hle
      · exact .inl (hset c' (get?_destroy hc').2)
      · exact .inr (by simpa [Server.destroy, Server.leave] using hle)
    · rcases hp with ⟨c', hc'⟩ | hle
      · exact .inl (hset c' hc')
      · exact .inr (by simpa [Server.leave] using hle)

end Steps

theorem nodup_freed (s : Server) (events : List Event) :
    (Run.collect serverStep freed s events).Nodup := by
  refine (Run.nodup_collect
    (M := fun s p => (∃ c, s.conns.get? p = some c) ∨ s.conns.brk ≤ p) (fun s ev => ?_)
    (fun s ev p hp => .inl (freed_spec hp).1) (fun s ev s' hstep p hp => ?_)
    (fun s ev s' hstep p => may_be_freed_of_step hstep) s events).1
  · cases ev with
    | listener connfd rbuf wbuf => exact List.nodup_nil
    | conn fd reads writes =>
      simp only [freed]
      split
      · exact List.nodup_nil
      · split
        · split_ifs <;> simp
        · exact List.nodup_nil
  · obtain ⟨hnone, hlt⟩ := (freed_spec hp).2 s' hstep
    rintro (⟨c, hc⟩ | hle)
    · rw [hnone] at hc
      cases hc
    · omega

theorem serveBatch_spec {blocks : Nat → Block} {fd : Nat} {s : Server} {batch : List Ready}
    (h : Tidy blocks s) (hrep : Reported fd s batch) :
    Run.AllSteps serverStep (fun s ev => ev.Finds s ∧ s.Apart) s (batch.map (Ready.event fd)) ∧
      ∀ s', serveBatch fd s batch = .ok s' → Tidy blocks s' := by
  induction batch generalizing s with
  | nil => exact ⟨trivial, fun s' hrun => Except.ok.inj hrun ▸ h⟩
  | cons r batch ih =>
    obtain ⟨hnodup, hreg, hfresh⟩ := hrep
    simp only [List.map_cons, List.nodup_cons, List.forall_mem_cons] at hnodup hreg
    have hfinds : (r.event fd).Finds s := by
      unfold Ready.event
      split_ifs with hfd
      · trivial
      · obtain ⟨p, c, -, hfound⟩ := h.tabled.locate (hreg.1.resolve_left hfd)
        exact ⟨p, c, hfound⟩
    simp only [serveBatch, List.map_cons, Run.run, Run.AllSteps] at hfresh ⊢
    cases hstep : serverStep s (r.event fd) with
    | error e => exact ⟨⟨⟨hfinds, h.tabled.apart⟩, trivial⟩, by simp⟩
    | ok t =>
      simp only [hstep] at hfresh
      have ht := serverStep_tidy h hfresh.1 hstep
      -- a descriptor listed behind this one is still registered
      have hrep' : Reported fd t batch := ⟨hnodup.2, fun r' hr' => (hreg.2 r' hr').imp_right
        fun hsome => isSome_interest_of_step h hstep hsome fun reads writes heq => by
          unfold Ready.event at heq
          split_ifs at heq
          have hsame : r.activeFd = r'.activeFd := (Event.conn.inj heq).1
          exact hnodup.1 (hsame ▸ List.mem_map_of_mem hr'), hfresh.2⟩
      obtain ⟨hsteps, hdone⟩ := ih ht hrep'
      exact ⟨⟨⟨hfinds, h.tabled.apart⟩, hsteps⟩, hdone⟩

/-- In every order of the events, each finds the `Conn` of its descriptor, no two connections
share one and none is freed twice; and whenever the loop returns to `epoll_wait`, each
connection waits for what its state calls for. -/
theorem event_loop_bookkeeping {blocks : Nat → Block} {fd : Nat} {batches : List (List Ready)}
    (hrep : Run.AllSteps (serveBatch fd) (Reported fd) (.start blocks) batches) :
    Run.AllSteps (serveBatch fd) (fun s batch =>
      Run.AllSteps serverStep (fun s ev => ev.Finds s ∧ s.Apart) s (batch.map (Ready.event fd)))
      (.start blocks) batches ∧
    (Run.collect serverStep freed (.start blocks) (batches.flatten.map (Ready.event fd))).Nodup ∧
    ∀ done s, done <+: batches → Run.run (serveBatch fd) (.start blocks) done = .ok s →
      s.Apart ∧ ∀ p c, s.conns.get? p = some c → s.Waits c := by
  refine ⟨?_, nodup_freed _ _, ?_⟩
  · exact Run.allSteps_of_inv (I := Tidy blocks) (fun s batch h hrep => serveBatch_spec h hrep)
      (tidy_start blocks) hrep
  · rintro done s ⟨later, rfl⟩ hrun
    have htidy : Tidy blocks s := Run.inv_of_allSteps
      (fun s batch s' h hrep => (serveBatch_spec h hrep).2 s') (tidy_start blocks) hrep.of_append
      hrun
    exact ⟨htidy.tabled.apart, htidy.tabled.waits⟩

def reused : List (List Ready) :=
  [[{ activeFd := 3, accepted := some 5 }],
   [{ activeFd := 5, reads := [.data []] }, { activeFd := 3, accepted := some 5 }],
   [{ activeFd := 5, reads := [.data (frame (encodeReq [ascii ['k', 'e', 'y', 's']]))] }],
   [{ activeFd := 5, writes := [.failed] }]]

theorem event_loop_bookkeeping_reused :
    (Run.collect serverStep freed (.start zeroed) (reused.flatten.map (Ready.event 3))).Nodup ∧
      Run.collect serverStep freed (.start zeroed) (reused.flatten.map (Ready.event 3)) =
        [0, 1] := by
  have hrep : Run.AllSteps (serveBatch 3) (Reported 3) (.start zeroed) reused := by decide +kernel
  exact ⟨(event_loop_bookkeeping hrep).2.1, by decide +kernel⟩

end NanoRedis
