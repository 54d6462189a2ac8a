import NanoRedis.Utils

/-! The reply encoders of the server. Each appends to the reply built so far. -/

namespace NanoRedis
open Wire

/-! The texts of the error replies, "Unknown cmd" and "response is too big". -/

def unknownCmd : Bytes := ascii ['U', 'n', 'k', 'n', 'o', 'w', 'n', ' ', 'c', 'm', 'd']

def responseTooBig : Bytes :=
  ascii ['r', 'e', 's', 'p', 'o', 'n', 's', 'e', ' ', 'i', 's', ' ', 't', 'o', 'o', ' ', 'b', 'i',
    'g']

def outNil (out : Bytes) : Bytes := out ++ [serNil]

def outStr (out val : Bytes) : Bytes :=
  out ++ [serStr] ++ le32 (UInt32.ofNat val.length) ++ val

def outInt (out : Bytes) (val : Int64) : Bytes := out ++ [serInt] ++ le64 val.toUInt64

def outErr (out : Bytes) (code : Int32) (msg : Bytes) : Bytes :=
  let out := out ++ [serErr] ++ le32 code.toUInt32
  let msgLen := UInt32.ofNat out.length
  out ++ le32 msgLen ++ msg

def outArr (out : Bytes) (n : UInt32) : Bytes := out ++ [serArr] ++ le32 n

end NanoRedis
