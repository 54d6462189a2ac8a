import NanoRedis.Memory
import NanoRedis.Lib.Wire

/-! Shared helpers of the server and the client: wire codes, the string hash,
checked reads from a byte array, and the blocking `read_full` and `write_all`. -/

namespace NanoRedis
open Wire

def kMaxMsg : Nat := 4096

def serNil : UInt8 := 0
def serErr : UInt8 := 1
def serStr : UInt8 := 2
def serInt : UInt8 := 3
def serArr : UInt8 := 4

def err2Big : Int32 := 0
def errUnknown : Int32 := 1

def ascii (s : List Char) : Bytes := s.map fun c => UInt8.ofNat c.toNat

def strHash (data : Bytes) : UInt64 :=
  (data.foldl (fun (h : UInt32) b => (h + b.toUInt32) * 0x01000193) 0x811C9DC5).toUInt64

/-- `memcpy(&v, &data[pos], 4)` into a 32-bit variable. -/
def readU32 (data : Bytes) (pos : Nat) : Except Fault UInt32 :=
  match slice? data pos 4 with
  | none => .error .outOfBounds
  | some bs => .ok (ofLe32 bs)

def readBytes (data : Bytes) (pos n : Nat) : Except Fault Bytes :=
  match slice? data pos n with
  | none => .error .outOfBounds
  | some bs => .ok bs

def readByte (data : Bytes) (pos : Nat) : Except Fault UInt8 :=
  match data[pos]? with
  | none => .error .outOfBounds
  | some b => .ok b

/-- `memcpy(&buf[pos], bs, |bs|)`. -/
def writeBytes {cap : Nat} (buf : Buffer cap) (pos : Nat) (bs : Bytes) :
    Except Fault (Buffer cap) :=
  match buf.write? pos bs with
  | none => .error .outOfBounds
  | some buf => .ok buf

theorem readU32_append (pre : Bytes) (v : UInt32) (post : Bytes) :
    readU32 (pre ++ (le32 v ++ post)) pre.length = .ok v := by
  have hslice := slice?_append pre (le32 v) post
  rw [length_le32] at hslice
  simp only [readU32, hslice, ofLe32_le32]

theorem readBytes_append (pre mid post : Bytes) :
    readBytes (pre ++ (mid ++ post)) pre.length mid.length = .ok mid := by
  simp only [readBytes, slice?_append]

theorem writeBytes_take {cap : Nat} (buf : Buffer cap) (pos : Nat) (bs : Bytes)
    (h : pos + bs.length ≤ cap) :
    ∃ buf', writeBytes buf pos bs = .ok buf' ∧
      buf'.bytes.take (pos + bs.length) = buf.bytes.take pos ++ bs := by
  obtain ⟨buf', hwrite, htake⟩ := buf.write?_take pos bs h
  exact ⟨buf', by simp only [writeBytes, hwrite], htake⟩

/-- The results of successive `read()` calls: `none` for a negative one, no bytes at the end of
input, which an exhausted script is too. -/
abbrev ReadScript := List (Option Bytes)

inductive Received
  | full (bs : Bytes)
  | eof
  | failed
deriving DecidableEq

def Received.prepend (bs : Bytes) : Received → Received
  | .full rest => .full (bs ++ rest)
  | .eof => .eof
  | .failed => .failed

def readFull : ReadScript → Nat → Except Fault (Received × ReadScript)
  | [], n => .ok (if n = 0 then .full [] else .eof, [])
  | rv :: reads, n =>
    if n = 0 then .ok (.full [], rv :: reads)
    else
      match rv with
      | none => .ok (.failed, reads)
      | some bs =>
        if bs.length = 0 then .ok (.eof, reads)
        else if ¬ bs.length ≤ n then .error (.assertion .readFull)
        else do
          let (rest, reads) ← readFull reads (n - bs.length)
          return (rest.prepend bs, reads)

/-- What `write()` comes to. Where the peer has closed the connection it may cost the process its
life, as nothing handles SIGPIPE. -/
inductive WriteResult
  | sent (n : Nat)
  | eintr
  | eagain
  | failed
  | sigpipe
deriving DecidableEq

/-- The result code, `none` where SIGPIPE kills the process, and the bytes that went out. -/
def writeAll : List WriteResult → Bytes → Except Fault (Option Int × Bytes)
  | [], buf => .ok (some (if buf.length = 0 then 0 else -1), [])
  | rv :: writes, buf =>
    if buf.length = 0 then .ok (some 0, [])
    else
      match rv with
      | .sigpipe => .ok (none, [])
      | .eintr | .eagain | .failed => .ok (some (-1), [])
      | .sent n =>
        if n = 0 then .ok (some (-1), [])
        else if ¬ n ≤ buf.length then .error (.assertion .writeAll)
        else do
          let (code, out) ← writeAll writes (buf.drop n)
          return (code, buf.take n ++ out)

theorem readFull_pieces {pieces : List Bytes} (hne : ∀ bs ∈ pieces, bs ≠ []) (reads : ReadScript) :
    readFull (pieces.map some ++ reads) pieces.flatten.length =
      .ok (.full pieces.flatten, reads) := by
  induction pieces with
  | nil => cases reads <;> simp [readFull]
  | cons bs pieces ih =>
    have hbs : bs.length ≠ 0 := by
      rw [ne_eq, List.length_eq_zero_iff]
      exact hne bs (by simp)
    have hrest := ih fun b hb => hne b (List.mem_cons_of_mem _ hb)
    have hn : bs.length + pieces.flatten.length ≠ 0 := by omega
    have hle : bs.length ≤ bs.length + pieces.flatten.length := Nat.le_add_right _ _
    simp only [List.map_cons, List.cons_append, List.flatten_cons, List.length_append, readFull,
      hbs, hn, hle, if_false, not_true, Nat.add_sub_cancel_left, hrest, ok_bind, Received.prepend,
      pure_eq_ok]

end NanoRedis
