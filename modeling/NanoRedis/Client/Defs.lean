import NanoRedis.Store.Defs

/-! The command-line client: packing a request, and reading and printing the reply. -/

namespace NanoRedis
open Wire

def int32 (x : Int) : Int := x.bmod (2 ^ 32)

def sizeT (x : Int) : Nat := (x % 2 ^ 64).toNat

inductive Msg
  | eof
  | readError
  | tooLong
  | badResponse
  | badMessage
deriving DecidableEq

/-- A line of output: the fields handed to a `printf`, or a message for `msg`. -/
inductive Line
  | nil
  | err (code : Int) (msg : Bytes)
  | int (val : Int)
  | str (strlen : UInt32) (val : Bytes)
  | arr (len : UInt32)
  | msg (m : Msg)
deriving DecidableEq

def putArgs {cap : Nat} : Command → Nat → Buffer cap → Except Fault (Buffer cap)
  | [], _, wbuf => .ok wbuf
  | s :: cmd, cur, wbuf => do
    let wbuf ← writeBytes wbuf cur (le32 (UInt32.ofNat s.length))
    let wbuf ← writeBytes wbuf (cur + 4) s
    putArgs cmd (cur + (4 + s.length)) wbuf

/-- `send_req` up to its call of `write_all`: the bytes it passes on, `none` when it refuses. -/
def packReq (cmd : Command) (wbuf : Buffer (4 + kMaxMsg)) : Except Fault (Option Bytes) :=
  let len := cmd.foldl (fun (len : UInt32) s => len + UInt32.ofNat (4 + s.length)) 4
  if kMaxMsg < len.toNat then .ok none
  else do
    let wbuf ← writeBytes wbuf 0 (le32 len)
    let wbuf ← writeBytes wbuf 4 (le32 (UInt32.ofNat cmd.length))
    let wbuf ← putArgs cmd 8 wbuf
    return some (wbuf.bytes.take (4 + len.toNat))

def sendReq (cmd : Command) (wbuf : Buffer (4 + kMaxMsg)) (writes : List WriteResult) :
    Except Fault (Option Int × Bytes) := do
  match ← packReq cmd wbuf with
  | none => return (some (-1), [])
  | some bytes => writeAll writes bytes

/-- The loop of `on_response` over the elements of an array, the first at `parsedBytes`. The
counter is bounded by the bytes parsed, so that it stays within an `int`. -/
def onElements (onElement : Nat → Except Fault (Int × List Line)) (size : Nat) :
    Nat → Int → Except Fault (Int × List Line)
  | 0, parsedBytes => .ok (parsedBytes, [])
  | n + 1, parsedBytes =>
    if size < sizeT parsedBytes then .ok (-1, [.msg .badMessage])
    else do
      let (passBytes, lines) ← onElement (sizeT parsedBytes)
      if passBytes < 0 then return (-1, lines)
      else do
        let (rv, rest) ← onElements onElement size n (int32 (parsedBytes + passBytes))
        return (rv, lines ++ rest)

/-- `on_response`, with a bound on the nesting of its calls. -/
def onNested : Nat → Bytes → Nat → Except Fault (Int × List Line)
  | 0, _, _ => .error .diverges
  | depth + 1, data, size =>
    if size < 1 then .ok (-1, [.msg .badResponse])
    else do
      let code ← readByte data 0
      if code = serNil then return (1, [.nil])
      else if code = serErr then
        if size - 1 < 8 then return (-1, [.msg .badResponse])
        else do
          let errCode ← readU32 data 1
          let msgLen ← readU32 data (1 + 4)
          if size - 9 < msgLen.toNat then return (-1, [.msg .badResponse])
          else do
            let msg ← readBytes data (1 + 4 + 4) msgLen.toNat
            return (int32 (9 + msgLen.toNat), [.err (int32 errCode.toNat) msg])
      else if code = serInt then
        if size - 1 < 4 then return (-1, [.msg .badResponse])
        else do
          let val ← readU32 data 1
          return (5, [.int (int32 val.toNat)])
      else if code = serStr then
        if size - 1 < 4 then return (-1, [.msg .badResponse])
        else do
          let msgLen ← readU32 data 1
          if size - 5 < msgLen.toNat then return (-1, [.msg .badResponse])
          else do
            let val ← readBytes data 5 msgLen.toNat
            return (int32 (5 + msgLen.toNat), [.str msgLen val])
      else if code = serArr then
        if size - 1 < 4 then return (-1, [.msg .badResponse])
        else do
          let arrLen ← readU32 data 1
          let (rv, lines) ← onElements
            (fun pos => onNested depth (data.drop pos) (size - pos)) size arrLen.toNat 5
          return (rv, .arr arrLen :: lines)
      else return (-1, [.msg .badResponse])

/-- Each level of nesting takes at least five bytes, which bounds its depth. -/
def onResponse (data : Bytes) (size : Nat) : Except Fault (Int × List Line) :=
  onNested (size + 1) data size

def readRes (reads : ReadScript) (rbuf : Buffer (4 + kMaxMsg + 1)) :
    Except Fault (Int × List Line) := do
  let (header, reads) ← readFull reads 4
  match header with
  | .eof => return (-1, [.msg .eof])
  | .failed => return (-1, [.msg .readError])
  | .full header => do
    let rbuf ← writeBytes rbuf 0 header
    let len ← readU32 rbuf.bytes 0
    if kMaxMsg < len.toNat then return (-1, [.msg .tooLong])
    else do
      let (body, _) ← readFull reads len.toNat
      match body with
      | .eof | .failed => return (-1, [.msg .readError])
      | .full body => do
        let rbuf ← writeBytes rbuf 4 body
        let (rv, lines) ← onResponse (rbuf.bytes.drop 4) len.toNat
        if 0 < rv ∧ rv ≠ len.toNat then return (-1, lines ++ [.msg .badResponse])
        else return (rv, lines)

end NanoRedis
