import NanoRedis.Server.Limits
import NanoRedis.Server.History
import NanoRedis.Store.Faults
import NanoRedis.Store.Memory
import NanoRedis.Lib.Simulation

/-! The server is linearizable: whatever the clients send and however the events fall, it
answers as a service that takes one request at a time. -/

namespace NanoRedis
open Intrusive Wire Exec

/-- The service takes a request of some connection after a history, and replies with an answer of
the reference, or with an error when that answer is too long for a frame. -/
def Serves (blocks : Nat → Block) (past : List (Reference.Command Bytes Bytes)) (e : Nat × Served)
    (past' : List (Reference.Command Bytes Bytes)) : Prop :=
  ∃ a, Reference.Answers past (decode e.2.cmd) a ∧ e.2.reply = fitReply (answerBytes a) ∧
    faultAfter blocks past (decode e.2.cmd) = none ∧ past' = decode e.2.cmd :: past

def servedAt (s : Server) : Event → List (Nat × Served)
  | .listener _ _ _ => []
  | .conn fd reads writes =>
    match s.locate fd with
    | .error _ => []
    | .ok (p, c) =>
      match (connectionIo : Exec Unit) (s.enter c reads writes) with
      | .ok _ w | .error _ w => w.served.map fun e => (p, e)

structure Reflects (blocks : Nat → Block) (st : Store)
    (past : List (Reference.Command Bytes Bytes)) : Prop where
  tracks : Tracks blocks st past
  tight : st.Tight
  short : Short past

theorem reflects_empty (blocks : Nat → Block) : Reflects blocks { blocks := blocks } [] :=
  ⟨tracks_empty blocks, tight_empty blocks, by simp [Short, Reference.latest]⟩

section Path
variable {blocks : Nat → Block} {st st' : Store}
  {past past' : List (Reference.Command Bytes Bytes)} {es : List Served}

theorem Reflects.step (h : Reflects blocks st past) {cmd : Command} {out : Bytes}
    (hmax : (encodeReq cmd).length ≤ kMaxMsg) (hrun : doRequest cmd [] st = .ok (out, st'))
    (p : Nat) :
    Serves blocks past (p, ⟨cmd, fitReply out⟩) (decode cmd :: past) ∧
      Reflects blocks st' (decode cmd :: past) := by
  obtain ⟨xs, hrep⟩ := h.tracks.rep
  rcases h.tracks.step cmd with ⟨f, herr, -⟩ | ⟨a, st'', hok, hfault, hans, htracks⟩
  · rw [hrun] at herr
    cases herr
  · obtain ⟨rfl, rfl⟩ : out = answerBytes a ∧ st' = st'' := by simpa [hrun] using hok
    exact ⟨⟨a, hans, rfl, hfault, rfl⟩, htracks, doRequest_tight hrep h.tight hrun,
      h.short.step hmax⟩

theorem Reflects.path (h : Reflects blocks st past) (hex : Executes st es st')
    (hfits : ∀ e ∈ es, (encodeReq e.cmd).length ≤ kMaxMsg) (p : Nat) :
    Simulation.Path (Serves blocks) past (es.map fun e => (p, e)) (history es ++ past) ∧
      Reflects blocks st' (history es ++ past) := by
  induction hex generalizing past with
  | nil => exact ⟨.nil, h⟩
  | @cons st₀ st₁ st₂ cmd out es hrun _ ih =>
    obtain ⟨hserves, h'⟩ := h.step (hfits _ (List.mem_cons_self ..)) hrun p
    obtain ⟨hpath, h''⟩ := ih h' fun e he => hfits e (List.mem_cons_of_mem _ he)
    have hpast : history (⟨cmd, fitReply out⟩ :: es) ++ past =
        history es ++ decode cmd :: past := by
      simp [history]
    rw [hpast]
    exact ⟨.cons hserves hpath, h''⟩

theorem past_of_path {es : List (Nat × Served)}
    (h : Simulation.Path (Serves blocks) past es past') :
    past' = history (es.map Prod.snd) ++ past := by
  induction h with
  | nil => rfl
  | cons hserves _ ih =>
    obtain ⟨a, -, -, -, rfl⟩ := hserves
    simp [ih, history]

end Path

structure Abstracts (blocks : Nat → Block) (s : Server)
    (past : List (Reference.Command Bytes Bytes)) : Prop where
  orderly : Orderly blocks s
  isOpen : Open s
  reflects : Reflects blocks s.store past

section Runs
variable {blocks : Nat → Block}

theorem abstracts_start : Abstracts blocks (.start blocks) [] :=
  ⟨orderly_start, open_start, reflects_empty blocks⟩

theorem Abstracts.step {s s' : Server} {ev : Event}
    {past : List (Reference.Command Bytes Bytes)} (h : Abstracts blocks s past)
    (hstep : serverStep s ev = .ok s') :
    ∃ past', Simulation.Path (Serves blocks) past (servedAt s ev) past' ∧
      Abstracts blocks s' past' := by
  obtain ⟨hord, hopen⟩ := serverStep_orderly h.orderly h.isOpen hstep
  cases ev with
  | listener connfd rbuf wbuf =>
    refine ⟨past, .nil, hord, hopen, ?_⟩
    rcases serverStep_listener hstep with rfl | ⟨connfd, rfl⟩ <;> exact h.reflects
  | conn fd reads writes =>
    obtain ⟨p, c, w, hloc, hrun, hcases⟩ := serverStep_conn hstep
    have hlive := wp_of_ok
      (connectionIo_spec (start_enter h.orderly h.isOpen (locate_eq_ok hloc) reads writes)) hrun
    obtain ⟨hpath, hreflects⟩ := h.reflects.path hlive.executes hlive.fits p
    have hserved : servedAt s (.conn fd reads writes) = w.served.map fun e => (p, e) := by
      simp only [servedAt, hloc, hrun]
    have hstore : s'.store = w.store := by rcases hcases with ⟨rfl, -⟩ | ⟨rfl, -⟩ <;> rfl
    exact ⟨_, hserved ▸ hpath, hord, hopen, hstore ▸ hreflects⟩

theorem served_step {s s' : Server} {ev : Event} (hstep : serverStep s ev = .ok s') :
    s'.served = s.served ++ servedAt s ev := by
  cases ev with
  | listener connfd rbuf wbuf =>
    rcases serverStep_listener hstep with rfl | ⟨connfd, rfl⟩ <;> exact (List.append_nil _).symm
  | conn fd reads writes =>
    obtain ⟨p, c, w, hloc, hrun, hcases⟩ := serverStep_conn hstep
    simp only [servedAt, hloc, hrun]
    rcases hcases with ⟨rfl, -⟩ | ⟨rfl, -⟩ <;> rfl

theorem served_run {s s' : Server} {events : List Event}
    (hrun : Run.run serverStep s events = .ok s') :
    s'.served = s.served ++ Run.collect serverStep servedAt s events := by
  induction events generalizing s with
  | nil =>
    obtain rfl : s = s' := Except.ok.inj hrun
    exact (List.append_nil _).symm
  | cons ev events ih =>
    cases hstep : serverStep s ev with
    | error e => simp [Run.run, hstep] at hrun
    | ok t =>
      simp only [Run.run, hstep] at hrun
      simp only [Run.collect, hstep]
      rw [ih hrun, served_step hstep, List.append_assoc]

variable (blocks) in
def Accounts (s : Server) : Prop := Abstracts blocks s (history (s.served.map Prod.snd))

theorem accounts_start : Accounts blocks (.start blocks) := abstracts_start

theorem Accounts.step {s s' : Server} {ev : Event} (h : Accounts blocks s)
    (hstep : serverStep s ev = .ok s') : Accounts blocks s' := by
  obtain ⟨past', hpath, h'⟩ := Abstracts.step h hstep
  unfold Accounts
  rw [served_step hstep, List.map_append]
  have hpast := past_of_path hpath
  have happend : history (s.served.map Prod.snd ++ (servedAt s ev).map Prod.snd) = past' := by
    simp [hpast, history]
  exact happend ▸ h'

theorem Accounts.run {s s' : Server} {events : List Event} (h : Accounts blocks s)
    (hrun : Run.run serverStep s events = .ok s') : Accounts blocks s' :=
  Run.inv_of_run (fun _ _ _ => Accounts.step) h hrun

theorem abstracts_run {events : List Event} {s : Server}
    (hrun : Run.run serverStep (.start blocks) events = .ok s) :
    ∃ past, Simulation.Path (Serves blocks) []
        (Run.collect serverStep servedAt (.start blocks) events) past ∧
      Abstracts blocks s past :=
  Simulation.path_of_run (A := fun _ _ => True)
    (fun _ _ _ _ h _ hstep => Abstracts.step h hstep) abstracts_start
    (Run.AllSteps.of_forall (fun _ _ => trivial) _ _) hrun

/-- All requests of a run, in the order of the events that executed them, are served as by one
service from the empty store, and each connection is sent its share of the replies in its own
order, up to a part of the last one. -/
theorem server_linearizable {events : List Event} {s : Server}
    (hrun : Run.run serverStep (.start blocks) events = .ok s) :
    (∃ past, Simulation.Path (Serves blocks) []
        (Run.collect serverStep servedAt (.start blocks) events) past) ∧
      s.served = Run.collect serverStep servedAt (.start blocks) events ∧
      ∀ p, ∃ rest unsent, stream (s.received p) = requests (s.servedBy p) ++ rest ∧
        s.sent p ++ unsent = replies (s.servedBy p) ∧ unsent <:+ lastReply [] (s.servedBy p) := by
  obtain ⟨past, hpath, h⟩ := abstracts_run hrun
  refine ⟨⟨past, hpath⟩, served_run hrun, fun p => ?_⟩
  obtain ⟨rest, unsent, hhist⟩ := h.orderly.past p
  exact ⟨rest, unsent, hhist.stream, hhist.sent, hhist.unsent⟩

def twoClients : List Event :=
  [.listener (some 5) (.zero _) (.zero _), .listener (some 6) (.zero _) (.zero _),
   .conn 5 [.data (frame (encodeReq [ascii ['s', 'e', 't'], [107], [118]]))] [],
   .conn 6 [.data (frame (encodeReq [ascii ['g', 'e', 't'], [107]]))] []]

theorem twoClients_served :
    (Run.run serverStep (.start zeroed) twoClients).toOption.any
      (fun s => s.served.length == 2) = true := by
  decide +kernel

theorem server_linearizable_twoClients :
    ∃ s past, Run.run serverStep (.start zeroed) twoClients = .ok s ∧ s.served.length = 2 ∧
      Simulation.Path (Serves zeroed) []
        (Run.collect serverStep servedAt (.start zeroed) twoClients) past := by
  have hserved := twoClients_served
  cases hrun : Run.run serverStep (.start zeroed) twoClients with
  | error e => simp [hrun, Except.toOption] at hserved
  | ok s =>
    obtain ⟨past, hpath⟩ := (server_linearizable hrun).1
    exact ⟨s, past, rfl, by simpa [hrun, Except.toOption] using hserved, hpath⟩

/-- After any run the cells of the heap are the nodes of the map, one for each live key: nothing
leaks, and nothing that is still linked has been freed. -/
theorem server_nodes {events : List Event} {s : Server}
    (hrun : Run.run serverStep (.start blocks) events = .ok s) :
    ∃ xs, Stores s.store.hnodes s.store.db xs ∧ s.store.hnodes.Owned xs ∧
      (xs.map fun x => (s.store.entries x).key).Perm
        (Reference.live (history (s.served.map Prod.snd))) := by
  have hreflects := (accounts_start.run hrun).reflects
  obtain ⟨xs, hrep⟩ := hreflects.tracks.rep
  obtain ⟨ys, hys, hown⟩ := hreflects.tight
  obtain rfl := hys.unique hrep.stores
  exact ⟨ys, hys, hown, keys_perm_live hrep⟩

theorem server_nodes_twoClients :
    ∃ s xs, Run.run serverStep (.start zeroed) twoClients = .ok s ∧ s.store.hnodes.Owned xs ∧
      (xs.map fun x => (s.store.entries x).key).Perm
        (Reference.live (history (s.served.map Prod.snd))) := by
  have hserved := twoClients_served
  cases hrun : Run.run serverStep (.start zeroed) twoClients with
  | error e => simp [hrun, Except.toOption] at hserved
  | ok s =>
    obtain ⟨xs, -, hown, hperm⟩ := server_nodes hrun
    exact ⟨s, xs, rfl, hown, hperm⟩

end Runs

end NanoRedis
