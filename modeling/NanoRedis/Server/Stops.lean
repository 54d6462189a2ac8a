import NanoRedis.Server.Linearizable
import NanoRedis.Server.Batches
import NanoRedis.Server.Runs

/-! What stops the server. -/

namespace NanoRedis
open Intrusive Wire Exec

def Server.AtSet (s : Server)
    (rel : List (Reference.Command Bytes Bytes) → Bytes → Prop) : Prop :=
  ∃ p c cmd rest k v, s.conns.get? p = some c ∧ c.input = frame (encodeReq cmd) ++ rest ∧
    decode cmd = .set k v ∧ rel (history (s.served.map Prod.snd)) k

/-- The ways to stop: a read fills the buffer, a `set` is more than the hash map takes or gets a
block that holds no strings, a peer is gone that a reply is under way to, or the loop gives up. -/
def StopsAt (blocks : Nat → Block) (s : Server) : Stop → Prop
  | .assertion a => a = .afterRead ∧ ¬ ∀ p, AllShort (s.received p)
  | .request f => (∀ p, AllShort (s.received p)) ∧
      (f = .nullDeref ∧ s.AtSet Crashes ∨ f = .unconstructed ∧ s.AtSet (Garbles blocks))
  | .sigpipe => (∀ p, AllShort (s.received p)) ∧
      ∃ p c, s.conns.get? p = some c ∧ c.state = .stateRes
  | .died => ∀ p, AllShort (s.received p)
  | .fault _ | .wraps => False

section Steps
variable {blocks : Nat → Block} {s s' : Server} {e : Stop}

theorem Reflects.refuses {st : Store} {past : List (Reference.Command Bytes Bytes)}
    (h : Reflects blocks st past) {cmd : Command} {f : Fault}
    (hrun : doRequest cmd [] st = .error f) :
    f = .nullDeref ∧ (∃ k v, decode cmd = .set k v ∧ Crashes past k) ∨
      f = .unconstructed ∧ ∃ k v, decode cmd = .set k v ∧ Garbles blocks past k := by
  rcases h.tracks.step cmd with ⟨f', herr, hfault⟩ | ⟨a, st', hok, -⟩
  · obtain rfl : f = f' := by simpa [hrun] using herr
    rcases faultAfter_eq_some.mp hfault with
      ⟨hnull, k, v, hcmd, hcrash, -⟩ | hgarbles | ⟨-, k, v, -, hv, hlong⟩
    · exact .inl ⟨hnull, k, v, hcmd, hcrash⟩
    · exact .inr hgarbles
    · -- the values that a frame can carry pass the assertion
      have hlen := h.short k v hv
      omega
  · rw [hrun] at hok
    cases hok

theorem stopsAt_of_refused {p : Nat} {c : Conn} {reads : List ReadResult}
    {writes : List WriteResult} {w : World} {f : Fault} (h : Accounts blocks s)
    (hp : s.conns.get? p = some c) (hinv : CallInv (s.enter c reads writes) w)
    (hshort : AllShort w.received) (hrefused : Refused f w) :
    StopsAt blocks (s.leave p w) (.request f) := by
  obtain ⟨cmd, rest, hinput, -, hreq⟩ := hrefused
  have hreflects := (h.reflects.path hinv.executes hinv.fits p).2
  have hpast : history w.served ++ history (s.served.map Prod.snd) =
      history ((s.leave p w).served.map Prod.snd) := by
    simp [Server.leave, history, Function.comp_def]
  have hset : ∀ {rel : List (Reference.Command Bytes Bytes) → Bytes → Prop},
      (∃ k v, decode cmd = .set k v ∧ rel (history w.served ++ history (s.served.map Prod.snd)) k) →
      (s.leave p w).AtSet rel := by
    rintro rel ⟨k, v, hcmd, hrel⟩
    exact ⟨p, w.conn, cmd, rest, k, v, Heap.get?_set_self hp _, hinput, hcmd, hpast ▸ hrel⟩
  exact ⟨(short_leave_iff h.orderly.short p w).mpr hshort,
    (hreflects.refuses hreq).imp (And.imp_right hset) (And.imp_right hset)⟩

theorem stopsAt_of_stopped {p : Nat} {c : Conn} {reads : List ReadResult}
    {writes : List WriteResult} {w : World} (h : Accounts blocks s) (hp : s.conns.get? p = some c)
    (hstop : Stopped (s.enter c reads writes) e w) : StopsAt blocks (s.leave p w) e := by
  obtain ⟨hinv, hstop⟩ := hstop
  rcases hstop with ⟨⟨f, rfl, hrefused⟩, hshort⟩ | ⟨rfl, hshort, hstate⟩ | ⟨rfl, hfull⟩
  · exact stopsAt_of_refused h hp hinv hshort hrefused
  · exact ⟨(short_leave_iff h.orderly.short p w).mpr hshort, p, w.conn, Heap.get?_set_self hp _,
      hstate⟩
  · exact ⟨rfl, (short_leave_iff h.orderly.short p w).not.mpr hfull⟩

theorem serverStep_stops {ev : Event} (h : Accounts blocks s) (hfinds : ev.Finds s)
    (hstep : serverStep s ev = .error (e, s')) : StopsAt blocks s' e := by
  cases ev with
  | listener connfd rbuf wbuf => cases connfd <;> cases hstep
  | conn fd reads writes =>
    obtain ⟨p, c, hfd, hp, hcfd⟩ := hfinds
    have hloc : s.locate fd = .ok (p, c) := by simp only [Server.locate, hfd, hp]
    have hspec := connectionIo_spec (start_enter h.orderly h.isOpen hp reads writes)
    simp only [serverStep, hloc] at hstep
    cases hrun : (connectionIo : Exec Unit) (s.enter c reads writes) with
    | ok u w =>
      -- the descriptor of the call is in the table
      have hlive := wp_of_ok hspec hrun
      have hlt : w.conn.fd < s.fd2conn.length := by
        rw [hlive.fd, show (s.enter c reads writes).conn.fd = fd from hcfd]
        exact (List.getElem?_eq_some_iff.mp hfd).1
      have hlt' : w.conn.fd < (s.leave p w).fd2conn.length := hlt
      simp only [hrun, if_pos hlt'] at hstep
      split_ifs at hstep
    | error e' w =>
      simp only [hrun, Except.error.injEq, Prod.mk.injEq] at hstep
      obtain ⟨rfl, rfl⟩ := hstep
      exact stopsAt_of_stopped h hp (wp_of_error hspec hrun)

theorem serveBatch_stops {fd : Nat} {batch : List Ready} (htidy : Tidy blocks s)
    (h : Accounts blocks s) (hrep : Reported fd s batch)
    (hrun : serveBatch fd s batch = .error (e, s')) : StopsAt blocks s' e :=
  Run.error_of_allSteps (I := Accounts blocks) (B := fun es => StopsAt blocks es.2 es.1)
    (fun _ _ _ h _ hstep => h.step hstep)
    (fun _ _ _ h hfinds hstep => serverStep_stops h hfinds.1 hstep) h
    (serveBatch_spec htidy hrep).1 hrun

theorem serveTurn_stops {fd : Nat} {turn : Turn} (htidy : Tidy blocks s) (h : Accounts blocks s)
    (hrep : Reported fd s turn.ready) (hrun : serveTurn fd s turn = .error (e, s')) :
    StopsAt blocks s' e := by
  cases turn with
  | failed =>
    obtain ⟨rfl, rfl⟩ : .died = e ∧ s = s' := by simpa [serveTurn] using hrun
    exact h.orderly.short
  | batch batch => exact serveBatch_stops htidy h hrep hrun
  | rejected batch =>
    cases hbatch : serveBatch fd s batch with
    | error es =>
      obtain rfl : es = (e, s') := by simpa [serveTurn, hbatch] using hrun
      exact serveBatch_stops htidy h hrep hbatch
    | ok t =>
      obtain ⟨rfl, rfl⟩ : .died = e ∧ t = s' := by
        simpa [serveTurn, hbatch] using hrun
      exact (h.run hbatch).orderly.short

end Steps

/-- Whatever its clients send, the event loop never misuses memory otherwise, runs forever or fails
another assertion than the one after a read. -/
theorem server_stops {blocks : Nat → Block} {fd : Nat} {turns : List Turn} {e : Stop} {s : Server}
    (hrep : Run.AllSteps (serveTurn fd) (fun s turn => Reported fd s turn.ready)
      (.start blocks) turns)
    (hrun : Run.run (serveTurn fd) (.start blocks) turns = .error (e, s)) :
    StopsAt blocks s e := by
  refine Run.error_of_allSteps (I := fun s => Tidy blocks s ∧ Accounts blocks s)
    (B := fun es => StopsAt blocks es.2 es.1) (fun s turn s' h hrep hstep => ?_)
    (fun s turn es h hrep hstep => serveTurn_stops h.1 h.2 hrep hstep)
    ⟨tidy_start blocks, accounts_start⟩ hrep hrun
  cases turn with
  | failed => cases hstep
  | batch batch => exact ⟨(serveBatch_spec h.1 hrep).2 s' hstep, h.2.run hstep⟩
  | rejected batch => cases hbatch : serveBatch fd s batch <;> simp [serveTurn, hbatch] at hstep

def largestBurst : List Turn :=
  [.batch [{ activeFd := 3, accepted := some 5 }],
   .batch [{ activeFd := 5, reads := [.data (frame (encodeReq largest))] }]]

set_option maxRecDepth 40000 in
theorem largestBurst_stops :
    Run.fails (fun r => r.1 == .assertion .afterRead)
      (Run.run (serveTurn 3) (.start zeroed) largestBurst) = true := by decide +kernel

set_option maxRecDepth 40000 in
theorem server_stops_largestBurst :
    ∃ s, Run.run (serveTurn 3) (.start zeroed) largestBurst = .error (.assertion .afterRead, s) ∧
      ¬ ∀ p, AllShort (s.received p) := by
  obtain ⟨⟨e, s⟩, hrun, hassertion⟩ := Run.exists_of_fails largestBurst_stops
  obtain rfl : e = .assertion .afterRead := eq_of_beq hassertion
  have hstops : StopsAt zeroed s (.assertion .afterRead) :=
    server_stops (by decide +kernel) hrun
  exact ⟨s, hrun, hstops.2⟩

end NanoRedis
