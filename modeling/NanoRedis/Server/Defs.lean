import NanoRedis.Store.Defs
import NanoRedis.Lib.Exec

/-! The server's side of a connection: the state machine behind `connection_io`. Its
world is the connection, the shared store, and what the kernel answers to the next
`read()` and `write()` calls. -/

namespace NanoRedis
open Wire Exec

inductive ConnState
  | stateReq
  | stateRes
  | stateEnd
deriving DecidableEq

structure Conn where
  fd : Nat
  state : ConnState := .stateReq
  rbufSize : Nat := 0
  rbuf : Buffer (4 + kMaxMsg)
  wbufSize : Nat := 0
  wbufSent : Nat := 0
  wbuf : Buffer (4 + kMaxMsg)

inductive Interest
  | epollin
  | epollout
deriving DecidableEq

/-- What `read()` comes back with. It hands out no more of the data than it is asked
for; no data stands for the end of input. -/
inductive ReadResult
  | data (bs : Bytes)
  | eintr
  | eagain
  | failed
deriving DecidableEq

inductive ConnAssertion
  | connectionIo
  | beforeRead
  | afterRead
  | flush
deriving DecidableEq

/-- Why the server does not go on: `do_request` faulted, an assertion of a connection fired, its
memory was misused, a signal killed the process, or it gave up. The subtractions of sizes count
as misused when they wrap. -/
inductive Stop
  | request (f : Fault)
  | assertion (a : ConnAssertion)
  | fault (f : Fault)
  | wraps
  | sigpipe
  | died
deriving DecidableEq

structure Served where
  cmd : Command
  reply : Bytes
deriving DecidableEq

/-- `reads` and `writes` are still to come, an exhausted script being EAGAIN. The last
three fields are the record of the call: the reads that returned data or the end of
input, each with the size asked for, the bytes written, and the requests executed. -/
structure World where
  conn : Conn
  store : Store
  interest : Interest
  reads : List ReadResult := []
  writes : List WriteResult := []
  received : List (Nat × Bytes) := []
  sent : Bytes := []
  served : List Served := []

abbrev Exec := EStateM Stop World

/-- The passages of a call that a log tells apart: a statement that changes the world, the packing
of a reply into `wbuf` among them, or a whole round of `try_one_request`. -/
inductive Mark
  | statement
  | pack
  | request
deriving DecidableEq

/-- A way to run the functions of a connection, with a log or without: `look` is for what leaves
the world as it is, `act` for statements. -/
class Logging (m : Type → Type) where
  look {α : Type} : Exec α → m α
  act {α : Type} : Mark → Exec α → m α
  oneRound {α : Type} : m α → m α

export Logging (look act oneRound)

@[default_instance] instance plainLogging : Logging Exec where
  look := id
  act _ := id
  oneRound := id

theorem look_exec {α : Type} (x : Exec α) : (look x : Exec α) = x := rfl

theorem act_exec {α : Type} (k : Mark) (x : Exec α) : (act k x : Exec α) = x := rfl

theorem oneRound_exec {α : Type} (x : Exec α) : (oneRound x : Exec α) = x := rfl

section Statements
variable {m : Type → Type} [Logging m]

def getWorld : m World := look get

def liftFault {α : Type} (x : Except Fault α) : m α :=
  look <| match x with
    | .ok a => pure a
    | .error f => throw (.fault f)

def assert (c : Prop) [Decidable c] (a : ConnAssertion) : m Unit :=
  look (if c then pure () else throw (.assertion a))

def stop {α : Type} (e : Stop) : m α := look (throw e)

def subSize (a b : Nat) : m Nat := look (if b ≤ a then pure (a - b) else throw .wraps)

def modifyConn (f : Conn → Conn) : m Unit :=
  act .statement (modify fun w => { w with conn := f w.conn })

def setState (state : ConnState) : m Unit := modifyConn fun conn => { conn with state := state }

/-- `epoll_ctl(epfd, EPOLL_CTL_MOD, conn->fd, ..)`. -/
def epollMod (interest : Interest) : m Unit :=
  act .statement (modify fun w => { w with interest := interest })

end Statements

section Wp
variable {α : Type} {E : Stop → World → Prop} {w : World}

@[simp] theorem wp_getWorld {Q : World → World → Prop} : wp getWorld Q E w ↔ Q w w := Iff.rfl

@[simp] theorem wp_stop {Q : α → World → Prop} (e : Stop) : wp (stop e) Q E w ↔ E e w := Iff.rfl

@[simp] theorem wp_liftFault_ok {Q : α → World → Prop} (a : α) :
    wp (liftFault (.ok a)) Q E w ↔ Q a w := Iff.rfl

theorem wp_assert {Q : Unit → World → Prop} {c : Prop} [Decidable c] {a : ConnAssertion} :
    wp (assert c a) Q E w ↔ (c → Q () w) ∧ (¬ c → E (.assertion a) w) := by
  change wp (if c then pure () else throw (.assertion a)) Q E w ↔ _
  rw [wp_ite, wp_pure, wp_throw]

theorem wp_subSize {Q : Nat → World → Prop} {a b : Nat} (h : b ≤ a) :
    wp (subSize a b) Q E w ↔ Q (a - b) w := by
  change wp (if b ≤ a then pure (a - b) else throw .wraps) Q E w ↔ _
  rw [if_pos h, wp_pure]

@[simp] theorem wp_modifyConn {Q : Unit → World → Prop} (f : Conn → Conn) :
    wp (modifyConn f) Q E w ↔ Q () { w with conn := f w.conn } := Iff.rfl

@[simp] theorem wp_setState {Q : Unit → World → Prop} (state : ConnState) :
    wp (setState state) Q E w ↔ Q () { w with conn := { w.conn with state := state } } := Iff.rfl

@[simp] theorem wp_epollMod {Q : Unit → World → Prop} (interest : Interest) :
    wp (epollMod interest) Q E w ↔ Q () { w with interest := interest } := Iff.rfl

end Wp

def nextRead : List ReadResult → ReadResult × List ReadResult
  | [] => (.eagain, [])
  | .eintr :: reads => nextRead reads
  | rv :: reads => (rv, reads)

def nextWrite : List WriteResult → WriteResult × List WriteResult
  | [] => (.eagain, [])
  | .eintr :: writes => nextWrite writes
  | rv :: writes => (rv, writes)

section Functions
variable {m : Type → Type} [Monad m] [Logging m]

/-- `read(conn->fd, &conn->rbuf[pos], cap)`, retried while it is interrupted. -/
def readInto (pos cap : Nat) : m ReadResult := act .statement do
  let w ← get
  let (rv, reads) := nextRead w.reads
  match rv with
  | .data bs =>
    let bs := bs.take cap
    let rbuf ← liftFault (writeBytes w.conn.rbuf pos bs)
    set { w with
      conn := { w.conn with rbuf := rbuf }, reads := reads,
      received := w.received ++ [(cap, bs)] }
    return .data bs
  | rv =>
    set { w with reads := reads }
    return rv

/-- `write(conn->fd, &conn->wbuf[pos], remain)`, retried while it is interrupted. It takes no more
than it is given. -/
def writeFrom (pos remain : Nat) : m WriteResult := act .statement do
  let w ← get
  let (rv, writes) := nextWrite w.writes
  match rv with
  | .sent n =>
    let n := min n remain
    let bs ← liftFault (readBytes w.conn.wbuf.bytes pos n)
    set { w with writes := writes, sent := w.sent ++ bs }
    return .sent n
  | rv =>
    set { w with writes := writes }
    return rv

def tryFlushBuffer : m Bool := do
  let conn := (← getWorld).conn
  let remain ← subSize conn.wbufSize conn.wbufSent
  match ← writeFrom conn.wbufSent remain with
  | .sigpipe => stop .sigpipe
  | .eintr | .eagain => return false
  | .failed =>
    setState .stateEnd
    return false
  | .sent rv =>
    modifyConn fun conn => { conn with wbufSent := conn.wbufSent + rv }
    let conn := (← getWorld).conn
    assert (conn.wbufSent ≤ conn.wbufSize) .flush
    if conn.wbufSent = conn.wbufSize then
      modifyConn fun conn => { conn with state := .stateReq, wbufSent := 0, wbufSize := 0 }
      epollMod .epollin
      return false
    else return true

/-- Each round but the last takes an answer off the script. -/
def stateRes : m Unit := do
  repeatWhile (stop (.fault .diverges)) tryFlushBuffer ((← getWorld).writes.length + 1)

end Functions

def parseArgs (data : Bytes) (len : Nat) : Nat → Nat → Command → Except Fault (Option Command)
  | 0, pos, out => .ok (if pos ≠ len then none else some out)
  | n + 1, pos, out =>
    if len < pos + 4 then .ok none
    else do
      let sz ← readU32 data pos
      if len < pos + 4 + sz.toNat then return none
      else do
        let s ← readBytes data (pos + 4) sz.toNat
        parseArgs data len n (pos + (4 + sz).toNat) (out ++ [s])

/-- The strings of a request, `none` where `parse_req` returns -1. -/
def parseReq (data : Bytes) (len : Nat) : Except Fault (Option Command) :=
  if len < 4 then .ok none
  else do
    let n ← readU32 data 0
    if kMaxMsg < n.toNat then return none
    else parseArgs data len n.toNat 4 []

def tooBigReply : Bytes := outErr [] err2Big responseTooBig

def fitReply (out : Bytes) : Bytes := if kMaxMsg < 4 + out.length then tooBigReply else out

def shiftDown {cap : Nat} (buf : Buffer cap) (pos n : Nat) : Except Fault (Buffer cap) := do
  let rest ← readBytes buf.bytes pos n
  writeBytes buf 0 rest

section Functions
variable {m : Type → Type} [Monad m] [Logging m]

def runRequest (cmd : Command) : m Bytes := act .statement do
  let w ← get
  match doRequest cmd [] w.store with
  | .ok (out, store) =>
    set { w with store := store }
    return out
  | .error f => throw (.request f)

def packReply (wbuf : Buffer (4 + kMaxMsg)) (wbufSize : Nat) : m Unit :=
  act .pack (modifyConn fun conn => { conn with wbuf := wbuf, wbufSize := wbufSize })

def tryOneRequest : m Bool := oneRound do
  let conn := (← getWorld).conn
  if conn.rbufSize < 4 then return false
  else
    let len ← liftFault (readU32 conn.rbuf.bytes 0)
    if kMaxMsg < len.toNat then
      setState .stateEnd
      return false
    else
      let avail ← subSize conn.rbufSize 4
      if avail < len.toNat then return false
      else
        match ← liftFault (parseReq (conn.rbuf.bytes.drop 4) len.toNat) with
        | none =>
          setState .stateEnd
          return false
        | some cmd =>
          let out := fitReply (← runRequest cmd)
          act .statement (modify fun w => { w with served := w.served ++ [⟨cmd, out⟩] })
          let wlen := UInt32.ofNat out.length
          let wbuf ← liftFault (writeBytes conn.wbuf 0 (le32 wlen))
          let wbuf ← liftFault (writeBytes wbuf 4 out)
          packReply wbuf (4 + wlen).toNat
          let remain ← subSize conn.rbufSize (4 + len).toNat
          let rbuf ← liftFault (if remain ≠ 0 then shiftDown conn.rbuf (4 + len).toNat remain
            else .ok conn.rbuf)
          modifyConn fun conn => { conn with rbuf := rbuf, rbufSize := remain }
          setState .stateRes
          epollMod .epollout
          stateRes
          return (← getWorld).conn.state == .stateReq

def tryFillBuffer : m Bool := do
  let conn := (← getWorld).conn
  assert (conn.rbufSize < 4 + kMaxMsg) .beforeRead
  let cap ← subSize (4 + kMaxMsg) conn.rbufSize
  match ← readInto conn.rbufSize cap with
  | .eintr | .eagain => return false
  | .failed =>
    setState .stateEnd
    return false
  | .data bs =>
    if bs.length = 0 then
      setState .stateEnd
      return false
    else
      modifyConn fun conn => { conn with rbufSize := conn.rbufSize + bs.length }
      let conn := (← getWorld).conn
      assert (conn.rbufSize < 4 + kMaxMsg) .afterRead
      -- an executed request takes bytes off rbuf
      repeatWhile (stop (.fault .diverges)) tryOneRequest (conn.rbufSize + 1)
      return (← getWorld).conn.state == .stateReq

def stateReq : m Unit := do
  repeatWhile (stop (.fault .diverges)) tryFillBuffer ((← getWorld).reads.length + 1)

def connectionIo : m Unit := do
  match (← getWorld).conn.state with
  | .stateReq => stateReq
  | .stateRes => stateRes
  | .stateEnd => stop (.assertion .connectionIo)

end Functions

end NanoRedis
