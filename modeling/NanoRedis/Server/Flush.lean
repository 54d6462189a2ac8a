import NanoRedis.Server.Defs

/-! Flushing a reply: what `state_res` makes of the answers of `write()`. -/

namespace NanoRedis
open Wire Exec

def Conn.pending (c : Conn) : Bytes := (c.wbuf.bytes.drop c.wbufSent).take (c.wbufSize - c.wbufSent)

def Conn.input (c : Conn) : Bytes := c.rbuf.bytes.take c.rbufSize

/-- How many of `remain` bytes the answers of `write()` let through, the state this leaves
the connection in, and the answers that are left. -/
def pushOut : List WriteResult → Nat → Nat × ConnState × List WriteResult
  | [], _ => (0, .stateRes, [])
  | .eintr :: writes, remain => pushOut writes remain
  | .eagain :: writes, _ | .sigpipe :: writes, _ => (0, .stateRes, writes)
  | .failed :: writes, _ => (0, .stateEnd, writes)
  | .sent n :: writes, remain =>
    if remain ≤ n then (remain, .stateReq, writes)
    else
      let (k, state, writes) := pushOut writes (remain - n)
      (n + k, state, writes)

def brokenPipe : List WriteResult → Nat → Bool
  | [], _ => false
  | .eintr :: writes, remain => brokenPipe writes remain
  | .eagain :: _, _ | .failed :: _, _ => false
  | .sigpipe :: _, _ => true
  | .sent n :: writes, remain => if remain ≤ n then false else brokenPipe writes (remain - n)

def Conn.pushed (c : Conn) (n : Nat) (state : ConnState) : Conn :=
  if state = .stateReq then { c with state := .stateReq, wbufSent := 0, wbufSize := 0 }
  else { c with state := state, wbufSent := c.wbufSent + n }

@[simp] theorem Conn.pushed_fd (c : Conn) (n : Nat) (state : ConnState) :
    (c.pushed n state).fd = c.fd := by
  unfold Conn.pushed
  split_ifs <;> rfl

@[simp] theorem Conn.pushed_rbufSize (c : Conn) (n : Nat) (state : ConnState) :
    (c.pushed n state).rbufSize = c.rbufSize := by
  unfold Conn.pushed
  split_ifs <;> rfl

@[simp] theorem Conn.pushed_input (c : Conn) (n : Nat) (state : ConnState) :
    (c.pushed n state).input = c.input := by
  unfold Conn.pushed
  split_ifs <;> rfl

@[simp] theorem Conn.pushed_state (c : Conn) (n : Nat) (state : ConnState) :
    (c.pushed n state).state = state := by
  unfold Conn.pushed
  split_ifs with h
  · exact h.symm
  · rfl

def World.flushed (w : World) : World :=
  let (n, state, writes) := pushOut w.writes (w.conn.wbufSize - w.conn.wbufSent)
  { w with
    conn := w.conn.pushed n state
    interest := if state = .stateReq then .epollin else w.interest
    writes := writes
    sent := w.sent ++ w.conn.pending.take n }

def World.broken (w : World) : Bool :=
  brokenPipe w.writes (w.conn.wbufSize - w.conn.wbufSent)

theorem pushOut_nextWrite (writes : List WriteResult) (remain : Nat) :
    pushOut writes remain =
      match nextWrite writes with
      | (.sent n, writes) =>
        if remain ≤ n then (remain, .stateReq, writes)
        else (n + (pushOut writes (remain - n)).1, (pushOut writes (remain - n)).2)
      | (.failed, writes) => (0, .stateEnd, writes)
      | (_, writes) => (0, .stateRes, writes) := by
  induction writes with
  | nil => rfl
  | cons rv writes ih => cases rv <;> first | rfl | exact ih

theorem brokenPipe_nextWrite (writes : List WriteResult) (remain : Nat) :
    brokenPipe writes remain =
      match nextWrite writes with
      | (.sent n, writes) => if remain ≤ n then false else brokenPipe writes (remain - n)
      | (.sigpipe, _) => true
      | _ => false := by
  induction writes with
  | nil => rfl
  | cons rv writes ih => cases rv <;> first | rfl | exact ih

theorem not_brokenPipe {writes : List WriteResult} {remain : Nat}
    (h : (pushOut writes remain).2.1 ≠ .stateRes) : brokenPipe writes remain = false := by
  induction writes generalizing remain with
  | nil => rfl
  | cons rv writes ih =>
    cases rv with
    | sent n =>
      unfold pushOut at h
      unfold brokenPipe
      split_ifs at h ⊢
      · rfl
      · exact ih h
    | eintr => exact ih h
    | eagain | failed => rfl
    | sigpipe => exact absurd rfl h

theorem flushed_of_broken {w : World} (h : w.broken = true) : w.flushed.conn.state = .stateRes := by
  rw [World.flushed, Conn.pushed_state]
  by_contra hstate
  rw [World.broken, not_brokenPipe hstate] at h
  cases h

theorem length_nextWrite_lt {writes rest : List WriteResult} {n : Nat}
    (h : nextWrite writes = (.sent n, rest)) :
    rest.length < writes.length := by
  induction writes with
  | nil => simp [nextWrite] at h
  | cons rv writes ih =>
    cases rv with
    | eintr => exact (ih h).trans (by simp)
    | sent m =>
      obtain ⟨-, rfl⟩ : m = n ∧ writes = rest := by simpa [nextWrite] using h
      simp
    | eagain | failed | sigpipe => simp [nextWrite] at h

structure Sending (c : Conn) : Prop where
  state : c.state = .stateRes
  sent : c.wbufSent < c.wbufSize
  size : c.wbufSize ≤ 4 + kMaxMsg

theorem length_pending (c : Conn) (h : c.wbufSize ≤ 4 + kMaxMsg) :
    c.pending.length = c.wbufSize - c.wbufSent := by
  have := c.wbuf.length_eq
  simp only [Conn.pending, List.length_take, List.length_drop]
  omega

theorem readBytes_pending {c : Conn} (h : Sending c) {n : Nat} (hn : n ≤ c.wbufSize - c.wbufSent) :
    readBytes c.wbuf.bytes c.wbufSent n = .ok (c.pending.take n) := by
  have := c.wbuf.length_eq
  have hsize := h.size
  have hsent := h.sent
  have hle : c.wbufSent + n ≤ c.wbuf.bytes.length := by omega
  simp only [readBytes, slice?, hle, if_true, Conn.pending, List.take_take, min_eq_left hn]

theorem flushed_of_pushOut {w : World} {n : Nat} {state : ConnState} {writes : List WriteResult}
    (h : pushOut w.writes (w.conn.wbufSize - w.conn.wbufSent) = (n, state, writes)) :
    w.flushed = { w with
      conn := w.conn.pushed n state
      interest := if state = .stateReq then .epollin else w.interest
      writes := writes
      sent := w.sent ++ w.conn.pending.take n } := by
  simp only [World.flushed, h]

def World.wrote (w : World) (n : Nat) (writes : List WriteResult) : World :=
  { w with
    conn := { w.conn with wbufSent := w.conn.wbufSent + n }
    writes := writes
    sent := w.sent ++ w.conn.pending.take n }

theorem flushed_wrote {w : World} {n : Nat} {writes : List WriteResult}
    (h : pushOut w.writes (w.conn.wbufSize - w.conn.wbufSent) =
      (n + (pushOut writes (w.conn.wbufSize - w.conn.wbufSent - n)).1,
        (pushOut writes (w.conn.wbufSize - w.conn.wbufSent - n)).2)) :
    (w.wrote n writes).flushed = w.flushed := by
  have hpending : (w.wrote n writes).conn.pending = w.conn.pending.drop n := by
    simp only [Conn.pending, World.wrote, List.drop_take, List.drop_drop, Nat.sub_sub]
  rw [flushed_of_pushOut h, World.flushed, hpending]
  simp only [World.wrote, Conn.pushed, Nat.sub_sub, List.take_add, List.append_assoc, Nat.add_assoc]
  rfl

theorem flushed_blocked {w : World} (hstate : w.conn.state = .stateRes) {writes : List WriteResult}
    (hpush : pushOut w.writes (w.conn.wbufSize - w.conn.wbufSent) = (0, .stateRes, writes)) :
    w.flushed = { w with writes := writes } := by
  have hres : w.conn.state ≠ .stateReq := by simp [hstate]
  rw [flushed_of_pushOut hpush]
  simp [Conn.pushed, ← hstate, hres]

theorem tryFlushBuffer_step {w : World} (h : Sending w.conn) :
    wp tryFlushBuffer (fun more w' =>
      if more then (Sending w'.conn ∧ w'.flushed = w.flushed ∧ w'.broken = w.broken) ∧
        w'.writes.length < w.writes.length
      else w' = w.flushed ∧ w.broken = false)
      (fun e w' => e = .sigpipe ∧ w' = w.flushed ∧ w.broken = true) w := by
  have hstate := h.state
  have hsent := h.sent
  have hsize := h.size
  have hpush := pushOut_nextWrite w.writes (w.conn.wbufSize - w.conn.wbufSent)
  have hbroken := brokenPipe_nextWrite w.writes (w.conn.wbufSize - w.conn.wbufSent)
  unfold tryFlushBuffer
  simp only [wp_bind, wp_getWorld, wp_subSize hsent.le, writeFrom, act_exec, wp_get]
  cases hnext : nextWrite w.writes with
  | mk rv writes =>
    rw [hnext] at hpush hbroken
    cases rv with
    | sent n =>
      simp only [readBytes_pending h (min_le_right _ _), wp_bind, wp_liftFault_ok, wp_set, wp_pure,
        wp_modifyConn, wp_getWorld, wp_assert, wp_ite, wp_epollMod]
      dsimp only at hpush hbroken ⊢
      refine ⟨fun _ => ⟨fun hall => ?_, fun hpart => ?_⟩, fun hbad => by omega⟩
      -- the write took all that was left
      · have hn : w.conn.wbufSize - w.conn.wbufSent ≤ n := by omega
        rw [if_pos hn] at hpush hbroken
        rw [flushed_of_pushOut hpush, min_eq_right hn]
        exact ⟨rfl, hbroken⟩
      -- a partial write leads to the same end as the script did
      · have hn : ¬ w.conn.wbufSize - w.conn.wbufSent ≤ n := by omega
        rw [if_neg hn] at hpush hbroken
        rw [min_eq_left (by omega)] at hpart ⊢
        refine ⟨⟨⟨hstate, by dsimp only; omega, hsize⟩, flushed_wrote hpush, ?_⟩,
          length_nextWrite_lt hnext⟩
        rw [World.broken, World.broken, hbroken, Nat.sub_sub]
    | eintr | eagain =>
      simp only [wp_bind, wp_set, wp_pure]
      exact ⟨(flushed_blocked hstate hpush).symm, hbroken⟩
    | sigpipe =>
      simp only [wp_bind, wp_set, wp_pure, wp_stop]
      exact ⟨trivial, (flushed_blocked hstate hpush).symm, hbroken⟩
    | failed =>
      simp only [wp_bind, wp_set, wp_pure, wp_setState]
      rw [flushed_of_pushOut hpush]
      refine ⟨?_, hbroken⟩
      simp [Conn.pushed]

theorem wp_stateRes {w : World} (h : Sending w.conn) {Q : Unit → World → Prop}
    {E : Stop → World → Prop} :
    wp stateRes Q E w ↔
      (w.broken = false → Q () w.flushed) ∧ (w.broken = true → E .sigpipe w.flushed) := by
  have hloop : wp stateRes (fun _ w' => w' = w.flushed ∧ w.broken = false)
      (fun e w' => e = .sigpipe ∧ w' = w.flushed ∧ w.broken = true) w := by
    unfold stateRes
    simp only [wp_bind, wp_getWorld]
    refine wp_repeatWhile
      (fun w' => Sending w'.conn ∧ w'.flushed = w.flushed ∧ w'.broken = w.broken)
      (fun w' => w'.writes.length)
      (fun w' hw' => ?_) ⟨h, rfl, rfl⟩ (Nat.lt_succ_self _)
    simpa only [hw'.2] using tryFlushBuffer_step hw'.1
  unfold wp at hloop ⊢
  cases hrun : (stateRes : Exec Unit) w with
  | ok u w' =>
    rw [hrun] at hloop
    obtain ⟨rfl, hbroken⟩ := hloop
    simp [hbroken]
  | error e w' =>
    rw [hrun] at hloop
    obtain ⟨rfl, rfl, hbroken⟩ := hloop
    simp [hbroken]

structure InputKept (w w' : World) : Prop where
  rbuf : w'.conn.rbuf = w.conn.rbuf
  rbufSize : w'.conn.rbufSize = w.conn.rbufSize
  store : w'.store = w.store
  served : w'.served = w.served

theorem InputKept.trans {w₁ w₂ w₃ : World} (h₁ : InputKept w₁ w₂) (h₂ : InputKept w₂ w₃) :
    InputKept w₁ w₃ :=
  ⟨h₂.rbuf.trans h₁.rbuf, h₂.rbufSize.trans h₁.rbufSize, h₂.store.trans h₁.store,
    h₂.served.trans h₁.served⟩

theorem tryFlushBuffer_keeps (w : World) :
    wp tryFlushBuffer (fun more w' => InputKept w w' ∧ (more → w'.writes.length < w.writes.length))
      (fun stop w' => InputKept w w' ∧ ∀ f, stop ≠ .request f) w := by
  unfold tryFlushBuffer
  simp only [wp_bind, wp_getWorld]
  by_cases hsub : w.conn.wbufSent ≤ w.conn.wbufSize
  · simp only [wp_subSize hsub, writeFrom, act_exec, wp_bind, wp_get]
    cases hnext : nextWrite w.writes with
    | mk rv writes =>
      cases rv with
      | sent n =>
        simp only [wp_bind]
        cases readBytes w.conn.wbuf.bytes w.conn.wbufSent
            (min n (w.conn.wbufSize - w.conn.wbufSent)) with
        | error f => exact ⟨⟨rfl, rfl, rfl, rfl⟩, fun f h => by cases h⟩
        | ok bs =>
          simp only [wp_liftFault_ok, wp_set, wp_pure, wp_modifyConn, wp_getWorld, wp_assert,
            wp_ite, wp_bind, wp_epollMod]
          exact ⟨fun _ => ⟨fun _ => ⟨⟨rfl, rfl, rfl, rfl⟩, by simp⟩,
            fun _ => ⟨⟨rfl, rfl, rfl, rfl⟩, fun _ => length_nextWrite_lt hnext⟩⟩,
            fun _ => ⟨⟨rfl, rfl, rfl, rfl⟩, by simp⟩⟩
      | eintr | eagain | failed => exact ⟨⟨rfl, rfl, rfl, rfl⟩, by simp⟩
      | sigpipe => exact ⟨⟨rfl, rfl, rfl, rfl⟩, by simp⟩
  · unfold subSize
    rw [if_neg hsub]
    exact ⟨⟨rfl, rfl, rfl, rfl⟩, fun f h => by cases h⟩

theorem stateRes_keeps (w : World) :
    wp stateRes (fun _ w' => InputKept w w')
      (fun stop w' => InputKept w w' ∧ ∀ f, stop ≠ .request f) w := by
  unfold stateRes
  simp only [wp_bind, wp_getWorld]
  refine wp_repeatWhile (InputKept w) (fun w' => w'.writes.length) (fun w' hw' => ?_)
    ⟨rfl, rfl, rfl, rfl⟩ (Nat.lt_succ_self _)
  refine wp_mono (tryFlushBuffer_keeps w') (fun more w'' h => ?_) fun _ _ h =>
    ⟨hw'.trans h.1, h.2⟩
  cases more with
  | false => simpa using hw'.trans h.1
  | true => simpa using And.intro (hw'.trans h.1) (h.2 rfl)

end NanoRedis
