import NanoRedis.Server.Defs
import NanoRedis.Lib.Run
import Mathlib.Logic.Function.Basic

/-! The event loop of the server: accepting connections, dispatching events to them and
closing those that reached `STATE_END`. -/

namespace NanoRedis
open Intrusive Wire

/-- `conns` holds the `Conn` objects and `interest` is the kernel's interest set. The last
three fields are the record of a run, by the address of the connection: the reads that
returned, the bytes written, and the requests executed. -/
structure Server where
  conns : Heap Conn := {}
  fd2conn : List Ptr := []
  store : Store
  interest : Nat → Option Interest := fun _ => none
  received : Nat → List (Nat × Bytes) := fun _ => []
  sent : Nat → Bytes := fun _ => []
  served : List (Nat × Served) := []

/-- The server with no connection and an empty store, before the answers of `malloc` to come. -/
def Server.start (blocks : Nat → Block) : Server := { store := { blocks := blocks } }

/-- An event of `epoll_wait`. A `listener` event carries the descriptor that `accept()`
returns, if any, and what the memory of the new `Conn` holds; a `conn` event carries the
answers to the system calls it leads to. -/
inductive Event
  | listener (connfd : Option Nat) (rbuf wbuf : Buffer (4 + kMaxMsg))
  | conn (fd : Nat) (reads : List ReadResult) (writes : List WriteResult)

def connPut (fd2conn : List Ptr) (fd : Nat) (conn : Nat) : List Ptr :=
  let fd2conn := if fd2conn.length ≤ fd
    then fd2conn ++ List.replicate (fd + 1 - fd2conn.length) none else fd2conn
  fd2conn.set fd (some conn)

namespace Server
variable (s : Server)

def acceptNewConn (connfd : Nat) (rbuf wbuf : Buffer (4 + kMaxMsg)) : Server :=
  { s with
    conns := s.conns.alloc { fd := connfd, rbuf := rbuf, wbuf := wbuf }
    fd2conn := connPut s.fd2conn connfd s.conns.brk
    interest := Function.update s.interest connfd (some .epollin) }

def locate (fd : Nat) : Except Fault (Nat × Conn) :=
  match s.fd2conn[fd]? with
  | none => .error .outOfBounds
  | some none => .error .nullDeref
  | some (some p) =>
    match s.conns.get? p with
    | none => .error .dangling
    | some c => .ok (p, c)

def enter (c : Conn) (reads : List ReadResult) (writes : List WriteResult) : World :=
  { conn := c, store := s.store, interest := (s.interest c.fd).getD .epollin,
    reads := reads, writes := writes }

/-- The server after a call for the connection at `p`; a descriptor that is not in the
interest set is not modified there. -/
def leave (p : Nat) (w : World) : Server :=
  { s with
    conns := s.conns.set p w.conn
    store := w.store
    interest := Function.update s.interest w.conn.fd
      ((s.interest w.conn.fd).map fun _ => w.interest)
    received := Function.update s.received p (s.received p ++ w.received)
    sent := Function.update s.sent p (s.sent p ++ w.sent)
    served := s.served ++ w.served.map fun e => (p, e) }

/-- The end of the connection at `p`: the kernel forgets a descriptor that is closed. -/
def destroy (p fd : Nat) : Server :=
  { s with
    conns := s.conns.free p
    fd2conn := s.fd2conn.set fd none
    interest := Function.update s.interest fd none }

end Server

def serverStep (s : Server) : Event → Except (Stop × Server) Server
  | .listener none _ _ => .ok s
  | .listener (some connfd) rbuf wbuf => .ok (s.acceptNewConn connfd rbuf wbuf)
  | .conn fd reads writes =>
    match s.locate fd with
    | .error f => .error (.fault f, s)
    | .ok (p, c) =>
      match (connectionIo : Exec Unit) (s.enter c reads writes) with
      | .error e w => .error (e, s.leave p w)
      | .ok () w =>
        let s := s.leave p w
        if w.conn.state = .stateEnd then
          if w.conn.fd < s.fd2conn.length then .ok (s.destroy p w.conn.fd)
          else .error (.fault .outOfBounds, s)
        else .ok s

section Steps
variable {s s' : Server}

theorem serverStep_listener {connfd : Option Nat} {rbuf wbuf : Buffer (4 + kMaxMsg)}
    (hstep : serverStep s (.listener connfd rbuf wbuf) = .ok s') :
    s' = s ∨ ∃ connfd, s' = s.acceptNewConn connfd rbuf wbuf := by
  cases connfd with
  | none => exact .inl (Except.ok.inj hstep).symm
  | some connfd => exact .inr ⟨connfd, (Except.ok.inj hstep).symm⟩

theorem serverStep_conn {fd : Nat} {reads : List ReadResult} {writes : List WriteResult}
    (hstep : serverStep s (.conn fd reads writes) = .ok s') :
    ∃ p c w, s.locate fd = .ok (p, c) ∧
      (connectionIo : Exec Unit) (s.enter c reads writes) = .ok () w ∧
      (s' = (s.leave p w).destroy p w.conn.fd ∧ w.conn.state = .stateEnd ∨
        s' = s.leave p w ∧ w.conn.state ≠ .stateEnd) := by
  simp only [serverStep] at hstep
  split at hstep
  · cases hstep
  · rename_i p c hloc
    split at hstep
    · cases hstep
    · rename_i w hrun
      split_ifs at hstep with hend hfd
      · exact ⟨p, c, w, hloc, hrun, .inl ⟨(Except.ok.inj hstep).symm, hend⟩⟩
      · exact ⟨p, c, w, hloc, hrun, .inr ⟨(Except.ok.inj hstep).symm, hend⟩⟩

end Steps

end NanoRedis
