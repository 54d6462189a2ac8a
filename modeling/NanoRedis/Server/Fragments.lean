import NanoRedis.Server.Runs

/-! How a stream is cut into reads, and what the other clients do in between, has no say
in the requests that the server takes from it. -/

namespace NanoRedis
open Intrusive Wire Exec

theorem encodeReq_inj {cmd cmd' : Command} (hmax : (encodeReq cmd).length ≤ kMaxMsg)
    (h : encodeReq cmd = encodeReq cmd') : cmd = cmd' := by
  obtain ⟨r, -, hiff⟩ := parseReq_spec (le_refl (encodeReq cmd).length) hmax
  rw [List.take_length] at hiff
  exact Option.some.inj (((hiff cmd).mpr rfl).symm.trans ((hiff cmd').mpr h))

theorem length_frame (body : Bytes) : (frame body).length = 4 + body.length := by simp [frame]

theorem request_selfDelimiting :
    SelfDelimiting (fun cmd : Command => frame (encodeReq cmd))
      fun cmd => (encodeReq cmd).length ≤ kMaxMsg where
  ne_nil := fun cmd hnil => by
    have hlen := congrArg List.length hnil
    rw [length_frame, List.length_nil] at hlen
    omega
  cut := fun cmd cmd' rest rest' hcmd hcmd' heq => by
    have hk : kMaxMsg < 2 ^ 31 := by decide
    -- the announced lengths agree, and so do the bytes behind them
    have hlen : (encodeReq cmd).length = (encodeReq cmd').length := by
      rw [← announced_frame (encodeReq cmd) rest (by omega),
        ← announced_frame (encodeReq cmd') rest' (by omega), heq]
    obtain ⟨hframe, hrest⟩ := List.append_inj heq (by rw [length_frame, length_frame, hlen])
    have hbody : encodeReq cmd = encodeReq cmd' := by
      unfold frame at hframe
      rw [hlen] at hframe
      exact List.append_cancel_left hframe
    exact ⟨encodeReq_inj hcmd hbody, hrest⟩

def commands (es : List Served) : List Command := es.map Served.cmd

theorem requests_eq_flatMap (es : List Served) :
    requests es = (commands es).flatMap fun cmd => frame (encodeReq cmd) := by
  rw [requests, commands, List.flatMap_map]

def Waiting (data : Bytes) : Prop :=
  ∃ cmd rest, data = frame (encodeReq cmd) ++ rest ∧ (encodeReq cmd).length ≤ kMaxMsg

theorem Executes.deterministic {st st₁ st₂ : Store} {es fs : List Served}
    (hes : Executes st es st₁) (hfs : Executes st fs st₂) (hcmds : commands es = commands fs) :
    es = fs ∧ st₁ = st₂ := by
  induction hes generalizing fs with
  | nil =>
    cases hfs with
    | nil => exact ⟨rfl, rfl⟩
    | cons _ _ => cases hcmds
  | cons hrun _ ih =>
    cases hfs with
    | nil => cases hcmds
    | cons hrun' hrest' =>
      obtain ⟨rfl, htail⟩ := List.cons_eq_cons.mp hcmds
      obtain ⟨rfl, rfl⟩ : _ = _ ∧ _ = _ := by simpa using hrun.symm.trans hrun'
      obtain ⟨rfl, rfl⟩ := ih hrest' htail
      exact ⟨rfl, rfl⟩

theorem servedBy_of_alone {s : Server} {p : Nat} (h : ∀ e ∈ s.served, e.1 = p) :
    s.servedBy p = s.served.map Prod.snd := by
  unfold Server.servedBy
  rw [List.filter_eq_self.mpr fun e he => decide_eq_true (h e he)]

/-- Two runs that bring a connection the same stream take the same requests from it, as far as both
have come; where neither leaves a complete request behind they have come equally far, and a
client that is alone then gets the same replies and leaves the same store. -/
theorem fragmentation_irrelevant {blocks blocks' : Nat → Block} {events events' : List Event}
    {s s' : Server} {p p' : Nat} (hrun : Run.run serverStep (.start blocks) events = .ok s)
    (hrun' : Run.run serverStep (.start blocks') events' = .ok s')
    (hstream : stream (s.received p) = stream (s'.received p')) :
    (commands (s.servedBy p) <+: commands (s'.servedBy p') ∨
      commands (s'.servedBy p') <+: commands (s.servedBy p)) ∧
    (¬ Waiting (s.leftover p) → ¬ Waiting (s'.leftover p') →
      commands (s.servedBy p) = commands (s'.servedBy p') ∧ s.leftover p = s'.leftover p' ∧
      (blocks = blocks' → (∀ e ∈ s.served, e.1 = p) → (∀ e ∈ s'.served, e.1 = p') →
        s.servedBy p = s'.servedBy p' ∧ s.store = s'.store)) := by
  have hord := (run_start hrun).1
  have hord' := (run_start hrun').1
  obtain ⟨input, pending, hhist⟩ := hord.past p
  obtain ⟨input', pending', hhist'⟩ := hord'.past p'
  rw [leftover_eq hhist, leftover_eq hhist']
  have hfits : ∀ {s : Server} {p : Nat} {input pending : Bytes}, History s p input pending →
      ∀ cmd ∈ commands (s.servedBy p), (encodeReq cmd).length ≤ kMaxMsg := by
    intro s p input pending h cmd hcmd
    obtain ⟨e, he, rfl⟩ := List.mem_map.mp hcmd
    exact h.fits e he
  have heq := hhist.stream.symm.trans (hstream.trans hhist'.stream)
  rw [requests_eq_flatMap, requests_eq_flatMap] at heq
  have hcut := request_selfDelimiting.flatMap_cut (hfits hhist) (hfits hhist') heq
  refine ⟨?_, fun hdone hdone' => ?_⟩
  · rcases hcut with ⟨cs, hcs, -⟩ | ⟨cs, hcs, -⟩
    · exact .inl ⟨cs, hcs.symm⟩
    · exact .inr ⟨cs, hcs.symm⟩
  -- a request that only one of them took would still wait at the other
  have hsame : commands (s.servedBy p) = commands (s'.servedBy p') ∧ input = input' := by
    rcases hcut with ⟨cs, hcs, hrest⟩ | ⟨cs, hcs, hrest⟩
    · cases cs with
      | nil => exact ⟨by simpa using hcs.symm, by simpa using hrest⟩
      | cons cmd cs =>
        have hmax := hfits hhist' cmd (by simp [hcs])
        exact absurd ⟨cmd, _, by rw [hrest, List.flatMap_cons, List.append_assoc], hmax⟩ hdone
    · cases cs with
      | nil => exact ⟨by simpa using hcs, by simpa using hrest.symm⟩
      | cons cmd cs =>
        have hmax := hfits hhist cmd (by simp [hcs])
        exact absurd ⟨cmd, _, by rw [hrest, List.flatMap_cons, List.append_assoc], hmax⟩ hdone'
  refine ⟨hsame.1, hsame.2, fun hblocks halone halone' => ?_⟩
  subst hblocks
  have hex := hord.executes
  have hex' := hord'.executes
  rw [← servedBy_of_alone halone] at hex
  rw [← servedBy_of_alone halone'] at hex'
  exact hex.deterministic hex' hsame.1

def whole : List Event :=
  [.listener (some 5) (.zero _) (.zero _),
   .conn 5 [.data (frame (encodeReq [ascii ['k', 'e', 'y', 's']]))] []]

def cut : List Event :=
  [.listener (some 7) (.zero _) (.zero _),
   .conn 7 [.data ((frame (encodeReq [ascii ['k', 'e', 'y', 's']])).take 3)] [],
   .conn 7 [.data ((frame (encodeReq [ascii ['k', 'e', 'y', 's']])).drop 3)] []]

theorem whole_cut_stream :
    Run.passes (fun s => Run.passes (fun s' =>
        stream (s.received 0) == stream (s'.received 0) && s.leftover 0 == [] &&
          s'.leftover 0 == []) (Run.run serverStep (.start zeroed) cut))
      (Run.run serverStep (.start zeroed) whole) = true := by decide +kernel

theorem not_waiting_nil : ¬ Waiting [] := by
  rintro ⟨cmd, rest, h, -⟩
  have hlen := congrArg List.length h
  rw [List.length_append, length_frame, List.length_nil] at hlen
  omega

theorem fragmentation_irrelevant_cut :
    ∃ s s', Run.run serverStep (.start zeroed) whole = .ok s ∧
      Run.run serverStep (.start zeroed) cut = .ok s' ∧
      commands (s.servedBy 0) = commands (s'.servedBy 0) := by
  obtain ⟨s, hrun, hboth⟩ := Run.exists_of_passes whole_cut_stream
  obtain ⟨s', hrun', hstream⟩ := Run.exists_of_passes hboth
  simp only [Bool.and_eq_true, beq_iff_eq] at hstream
  obtain ⟨⟨hstream, hleft⟩, hleft'⟩ := hstream
  exact ⟨s, s', hrun, hrun', ((fragmentation_irrelevant hrun hrun' hstream).2
    (hleft ▸ not_waiting_nil) (hleft' ▸ not_waiting_nil)).1⟩

end NanoRedis
