import NanoRedis.Server.Delivery
import NanoRedis.Server.Fragments
import NanoRedis.Server.Stops

/-! Why the server ends a connection. -/

namespace NanoRedis
open Intrusive Wire Exec

section Scripts

theorem nextRead_suffix {reads rest : List ReadResult} {rv : ReadResult}
    (h : nextRead reads = (rv, rest)) : rest <:+ reads := by
  induction reads with
  | nil =>
    obtain ⟨-, rfl⟩ : .eagain = rv ∧ [] = rest := by simpa [nextRead] using h
    exact List.nil_suffix
  | cons r reads ih =>
    cases r with
    | eintr => exact (ih h).trans (List.suffix_cons _ _)
    | data _ | eagain | failed =>
      obtain ⟨-, rfl⟩ := Prod.mk.inj h
      exact List.suffix_cons _ _

theorem failed_of_nextRead {reads rest : List ReadResult} (h : nextRead reads = (.failed, rest)) :
    .failed ∈ reads := by
  induction reads with
  | nil => simp [nextRead] at h
  | cons r reads ih =>
    cases r with
    | eintr => exact List.mem_cons_of_mem _ (ih h)
    | failed => exact List.mem_cons_self ..
    | data _ | eagain => simp [nextRead] at h

theorem pushOut_suffix (writes : List WriteResult) (remain : Nat) :
    (pushOut writes remain).2.2 <:+ writes := by
  induction writes generalizing remain with
  | nil => exact List.suffix_rfl
  | cons rv writes ih =>
    cases rv with
    | sent n =>
      unfold pushOut
      split_ifs
      · exact List.suffix_cons _ _
      · exact (ih (remain - n)).trans (List.suffix_cons _ _)
    | eintr => exact (ih remain).trans (List.suffix_cons _ _)
    | eagain | failed | sigpipe => exact List.suffix_cons _ _

end Scripts

def Ended (w₀ w : World) : Prop :=
  AtEnd w.received ∨ .failed ∈ w₀.reads ∨ .failed ∈ w₀.writes ∨ Malformed w.conn.input

structure Uses (w₀ w : World) : Prop where
  reads : w.reads <:+ w₀.reads
  writes : w.writes <:+ w₀.writes

section Call
variable {w₀ w w' : World}

theorem flushed_uses (w : World) : Uses w w.flushed := ⟨List.suffix_rfl, pushOut_suffix w.writes _⟩

theorem flushed_ends (hend : w.flushed.conn.state = .stateEnd) : .failed ∈ w.writes := by
  have hstate : (pushOut w.writes (w.conn.wbufSize - w.conn.wbufSent)).2.1 = .stateEnd := by
    simpa [World.flushed] using hend
  exact failed_of_pushOut hstate

theorem Uses.trans {w₁ w₂ w₃ : World} (h : Uses w₁ w₂) (h' : Uses w₂ w₃) : Uses w₁ w₃ :=
  ⟨h'.reads.trans h.reads, h'.writes.trans h.writes⟩

theorem Reads.uses {bs : Bytes} (h : Reads w bs w') : Uses w w' := by
  obtain ⟨hnext, -, -⟩ := h
  exact ⟨nextRead_suffix hnext, List.suffix_rfl⟩

theorem Responds.uses (h : Responds w w') : Uses w w' := by
  obtain ⟨-, -, -, -⟩ := h
  exact ⟨List.suffix_rfl, List.suffix_rfl⟩

theorem Passage.uses {p q : Stage × World} (h : Passage p q) : Uses p.2 q.2 := by
  cases h with
  | read reads _ _ => exact reads.uses
  | respond responds _ _ => exact responds.uses.trans (flushed_uses _)
  | dry => exact ⟨List.suffix_rfl, List.suffix_rfl⟩

theorem Ending.ends {stage : Stage} (hpoised : Poised w) (huses : Uses w₀ w)
    (h : Ending stage w none w') (hend : w'.conn.state = .stateEnd) : Ended w₀ w' := by
  cases h with
  | blocked _ => exact absurd (hpoised.state.symm.trans hend) (by simp)
  | failed next => exact .inr (.inl (huses.reads.mem (failed_of_nextRead next)))
  | eof reads =>
    left
    rw [World.ended, reads.received]
    exact ⟨_, List.mem_append_right _ (List.mem_singleton_self _), rfl⟩
  | malformed bad => exact .inr (.inr (.inr bad))
  | held responds _ _ =>
    exact .inr (.inr (.inl ((huses.trans responds.uses).writes.mem (flushed_ends hend))))

theorem connectionIo_ends (h : Start w) :
    wp connectionIo (fun _ w' => w'.conn.state = .stateEnd → Ended w w') (fun _ _ => True) w := by
  cases hstate : w.conn.state with
  | stateReq =>
    have hpoised := h.poised hstate
    refine wp_mono (connectionIo_call hpoised) (fun _ w' hcall hend => ?_) fun _ _ _ => trivial
    exact hcall.rule (I := fun _ w' => Uses w w')
      (Q := fun e w' => e = none → w'.conn.state = .stateEnd → Ended w w')
      (fun _ huses hpassage => huses.trans hpassage.uses)
      (fun hpoised huses hending he => by
        subst he
        exact hending.ends hpoised huses)
      hpoised ⟨List.suffix_rfl, List.suffix_rfl⟩ rfl hend
  | stateRes =>
    exact (connectionIo_res h hstate).mpr ⟨fun _ hend => .inr (.inr (.inl (flushed_ends hend))),
      fun _ => trivial⟩
  | stateEnd => exact absurd hstate h.state

end Call

def Conforms (data : Bytes) : Prop :=
  ∃ cmds : List Command, (∀ cmd ∈ cmds, (encodeReq cmd).length ≤ kMaxMsg) ∧
    data <+: cmds.flatMap fun cmd => frame (encodeReq cmd)

/-- What accounts for the end of the connection at `p`: the end of its input, a `read()` or
`write()` that failed, or input that no client of the protocol sends. -/
def Cause (fd p : Nat) (events : List Event) (s : Server) : Prop :=
  AtEnd (s.received p) ∨
    (∃ reads writes, .conn fd reads writes ∈ events ∧ (.failed ∈ reads ∨ .failed ∈ writes)) ∨
    ¬ Conforms (stream (s.received p))

section Steps
variable {blocks : Nat → Block} {s s' : Server} {p : Nat} {c : Conn} {ev : Event}

theorem not_conforms {input pending : Bytes} (h : History s p input pending)
    (hbad : Malformed input) : ¬ Conforms (stream (s.received p)) := by
  rintro ⟨cmds, hfits, more, hmore⟩
  rw [h.stream, requests_eq_flatMap, List.append_assoc, ← List.append_nil (cmds.flatMap _)] at hmore
  have hserved : ∀ cmd ∈ commands (s.servedBy p), (encodeReq cmd).length ≤ kMaxMsg := by
    intro cmd hcmd
    obtain ⟨e, he, rfl⟩ := List.mem_map.mp hcmd
    exact h.fits e he
  have hempty : input ++ more ≠ [] := fun hnil => by
    have hfour := hbad.1
    rw [(List.append_eq_nil_iff.mp hnil).1] at hfour
    cases hfour
  rcases request_selfDelimiting.flatMap_cut hserved hfits hmore with
    ⟨cs, rfl, hrest⟩ | ⟨cs, -, hrest⟩
  · cases cs with
    | nil => exact hempty hrest
    | cons cmd cs =>
      rw [List.append_nil, List.flatMap_cons] at hrest
      exact not_malformed_of_part (hfits cmd (by simp)) hrest hbad
  · exact hempty (List.append_eq_nil_iff.mp hrest.symm).2

theorem serverStep_cause (h : Tidy blocks s) (hp : s.conns.get? p = some c) (hfresh : ev.Fresh s)
    (hstep : serverStep s ev = .ok s') :
    (∃ c', s'.conns.get? p = some c' ∧ c'.fd = c.fd) ∨
      (s'.conns.get? p = none ∧ p < s'.conns.brk) ∧ Cause c.fd p [ev] s' := by
  by_cases hfor : ev.For c.fd
  · obtain ⟨reads, writes, rfl⟩ := Event.exists_of_isFor hfor
    obtain ⟨q, c', hloc, hq, hc', -⟩ := h.tabled.locate (h.tabled.isSome_interest hp)
    obtain rfl : q = p := Option.some.inj (Option.some.inj (hq.symm.trans (h.tabled.listed p c hp)))
    obtain rfl := Option.some.inj (hc'.symm.trans hp)
    have hstart := start_enter h.orderly h.opened hp reads writes
    cases hrun : (connectionIo : Exec Unit) (s.enter c' reads writes) with
    | error e w => simp [serverStep, hloc, hrun] at hstep
    | ok u w =>
      have hlive := wp_of_ok (connectionIo_spec hstart) hrun
      have hhist := history_leave_self (h.orderly.live q c' hp).2.2 hlive.toCallInv
      simp only [serverStep, hloc, hrun] at hstep
      split_ifs at hstep with hend
      · obtain rfl := Except.ok.inj hstep
        refine .inr ⟨⟨Heap.get?_free_self _ q, ?_⟩, ?_⟩
        · simpa [Server.destroy, Server.leave] using Heap.lt_brk hp
        · rcases wp_of_ok (connectionIo_ends hstart) hrun hend with
            ⟨r, hr, hnil⟩ | hfailed | hfailed | hbad
          · refine .inl ⟨r, ?_, hnil⟩
            show r ∈ (s.leave q w).received q
            rw [received_leave_self]
            exact List.mem_append_right _ hr
          · exact .inr (.inl ⟨reads, writes, List.mem_singleton_self _, .inl hfailed⟩)
          · exact .inr (.inl ⟨reads, writes, List.mem_singleton_self _, .inr hfailed⟩)
          · exact .inr (.inr (not_conforms (history_congr hhist rfl rfl rfl) hbad))
      · obtain rfl := Except.ok.inj hstep
        exact .inl ⟨w.conn, Heap.get?_set_self hp _, hlive.fd⟩
  · have hsame := serverStep_same h hp hfresh hfor hstep
    exact .inl ⟨c, hsame.conn.trans hp, rfl⟩

theorem received_of_closed (hp : s.conns.get? p = none) (hlt : p < s.conns.brk)
    (hstep : serverStep s ev = .ok s') :
    (s'.conns.get? p = none ∧ p < s'.conns.brk) ∧ s'.received p = s.received p := by
  cases ev with
  | listener connfd rbuf wbuf =>
    rcases serverStep_listener hstep with rfl | ⟨connfd, rfl⟩
    · exact ⟨⟨hp, hlt⟩, rfl⟩
    · refine ⟨⟨(Heap.get?_alloc_ne _ hlt.ne _).trans hp, ?_⟩, rfl⟩
      rw [Server.acceptNewConn, Heap.brk_alloc]
      omega
  | conn fd reads writes =>
    obtain ⟨q, c, w, hloc, -, hcases⟩ := serverStep_conn hstep
    have hpq : p ≠ q := by
      rintro rfl
      rw [locate_eq_ok hloc] at hp
      cases hp
    have hleave : (s.leave q w).conns.get? p = none := (Heap.get?_set_ne _ hpq _).trans hp
    have hbrk : p < (s.leave q w).conns.brk := by rwa [Server.leave, Heap.brk_set]
    have hreceived := received_leave_ne s q w hpq
    rcases hcases with ⟨rfl, -⟩ | ⟨rfl, -⟩
    · exact ⟨⟨(Heap.get?_free_ne _ hpq).trans hleave, by rwa [Server.destroy, Heap.brk_free]⟩,
        hreceived⟩
    · exact ⟨⟨hleave, hbrk⟩, hreceived⟩

end Steps

/-- The server hangs up on a client only at the end of its input, at a `read()` or `write()` of its
own that failed, or if what it sent is not the beginning of any sequence of requests. -/
theorem closed_for_cause {blocks : Nat → Block} {past later : List Event} {s s' : Server} {p : Nat}
    {c : Conn}
    (hfresh : Run.AllSteps serverStep (fun s ev => ev.Fresh s) (.start blocks) (past ++ later))
    (hpast : Run.run serverStep (.start blocks) past = .ok s)
    (hlater : Run.run serverStep s later = .ok s')
    (hp : s.conns.get? p = some c) (hclosed : s'.conns.get? p = none) : Cause c.fd p later s' := by
  have hfresh' := hfresh.rest hpast
  have htidy := tidy_of_run hfresh.of_append hpast
  clear hfresh hpast
  induction later generalizing s c with
  | nil =>
    obtain rfl : s = s' := Except.ok.inj hlater
    rw [hp] at hclosed
    cases hclosed
  | cons ev later ih =>
    cases hstep : serverStep s ev with
    | error e => simp [Run.run, hstep] at hlater
    | ok t =>
      simp only [Run.run, hstep] at hlater
      simp only [Run.AllSteps, hstep] at hfresh'
      rcases serverStep_cause htidy hp hfresh'.1 hstep with ⟨c', hp', hfd⟩ | ⟨hdead, hcause⟩
      · have hrest := ih hlater hp' hfresh'.2 (serverStep_tidy htidy hfresh'.1 hstep)
        rw [hfd] at hrest
        rcases hrest with hend | ⟨reads, writes, hmem, hfailed⟩ | hbad
        · exact .inl hend
        · exact .inr (.inl ⟨reads, writes, List.mem_cons_of_mem _ hmem, hfailed⟩)
        · exact .inr (.inr hbad)
      · -- the record of the connection stays as it was when it ended
        have hkept : (s'.conns.get? p = none ∧ p < s'.conns.brk) ∧
            s'.received p = t.received p := by
          refine Run.inv_of_run (I := fun u => (u.conns.get? p = none ∧ p < u.conns.brk) ∧
            u.received p = t.received p) ?_ ⟨hdead, rfl⟩ hlater
          intro u ev u' h hstep
          obtain ⟨hdead', hreceived⟩ := received_of_closed h.1.1 h.1.2 hstep
          exact ⟨hdead', hreceived.trans h.2⟩
        unfold Cause
        rw [hkept.2]
        rcases hcause with hend | ⟨reads, writes, hmem, hfailed⟩ | hbad
        · exact .inl hend
        · exact .inr (.inl ⟨reads, writes, List.mem_singleton.mp hmem ▸ List.mem_cons_self ..,
            hfailed⟩)
        · exact .inr (.inr hbad)

def overlong : List Event := [.conn 5 [] [.sent 100], .conn 5 [.data (le32 5000)] []]

theorem closed_for_cause_overlong :
    ∃ s s' c, Run.run serverStep (.start zeroed) blocked = .ok s ∧
      Run.run serverStep s overlong = .ok s' ∧ s.conns.get? 0 = some c ∧
      s'.conns.get? 0 = none ∧ Cause c.fd 0 overlong s' := by
  have hfresh : Run.AllSteps serverStep (fun s ev => ev.Fresh s) (.start zeroed)
      (blocked ++ overlong) := by
    decide +kernel
  have hok : Run.passes (fun s => (s.conns.get? 0).isSome &&
      Run.passes (fun s' => (s'.conns.get? 0).isNone) (Run.run serverStep s overlong))
      (Run.run serverStep (.start zeroed) blocked) = true := by decide +kernel
  obtain ⟨s, hpast, hboth⟩ := Run.exists_of_passes hok
  obtain ⟨hopen, hrun⟩ := Bool.and_eq_true_iff.mp hboth
  obtain ⟨c, hc⟩ := Option.isSome_iff_exists.mp hopen
  obtain ⟨s', hlater, hclosed⟩ := Run.exists_of_passes hrun
  have hnone := Option.isNone_iff_eq_none.mp hclosed
  exact ⟨s, s', c, hpast, hlater, hc, hnone, closed_for_cause hfresh hpast hlater hc hnone⟩

end NanoRedis
