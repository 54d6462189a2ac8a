import NanoRedis.Client.Grammar

/-! Reply values, their encoding by the server's encoders and what the client reads back. -/

namespace NanoRedis
open Wire

inductive Reply
  | nil
  | err (code : Int32) (text : Bytes)
  | str (val : Bytes)
  | int (val : Int64)
  | arr (vs : List Reply)

namespace Reply

mutual
def write (out : Bytes) : Reply → Bytes
  | .nil => outNil out
  | .err code text => outErr out code text
  | .str val => outStr out val
  | .int val => outInt out val
  | .arr vs => writeAll (outArr out (UInt32.ofNat vs.length)) vs
def writeAll (out : Bytes) : List Reply → Bytes
  | [] => out
  | v :: vs => writeAll (v.write out) vs
end

mutual
def width : Reply → Nat
  | .nil => 1
  | .err _ text => 9 + text.length
  | .str val => 5 + val.length
  | .int _ => 9
  | .arr vs => 5 + widthAll vs
def widthAll : List Reply → Nat
  | [] => 0
  | v :: vs => v.width + widthAll vs
end

mutual
def bytes (pos : Nat) : Reply → Bytes
  | .nil => [serNil]
  | .err code text => serErr :: (le32 code.toUInt32 ++ (le32 (UInt32.ofNat (pos + 5)) ++ text))
  | .str val => serStr :: (le32 (UInt32.ofNat val.length) ++ val)
  | .int val => serInt :: le64 val.toUInt64
  | .arr vs => serArr :: (le32 (UInt32.ofNat vs.length) ++ bytesAll (pos + 5) vs)
def bytesAll (pos : Nat) : List Reply → Bytes
  | [] => []
  | v :: vs => v.bytes pos ++ bytesAll (pos + v.width) vs
end

mutual
def lines : Reply → List Line
  | .nil => [.nil]
  | .err code text => [.err code.toInt text]
  | .str val => [.str (UInt32.ofNat val.length) val]
  | .int val => [.int val.toInt]
  | .arr vs => .arr (UInt32.ofNat vs.length) :: linesAll vs
def linesAll : List Reply → List Line
  | [] => []
  | v :: vs => v.lines ++ linesAll vs
end

mutual
/-- No integer occurs in the value, and each error text is five bytes longer than the
reply before its error. -/
def Readable (pos : Nat) : Reply → Prop
  | .nil => True
  | .err _ text => text.length = pos + 5
  | .str _ => True
  | .int _ => False
  | .arr vs => ReadableAll (pos + 5) vs
def ReadableAll (pos : Nat) : List Reply → Prop
  | [] => True
  | v :: vs => v.Readable pos ∧ ReadableAll (pos + v.width) vs
end

mutual
theorem length_bytes (pos : Nat) : ∀ v : Reply, (v.bytes pos).length = v.width
  | .nil => rfl
  | .err code text => by simp [bytes, width]; omega
  | .str val => by simp [bytes, width]; omega
  | .int val => by simp [bytes, width]
  | .arr vs => by simp [bytes, width, length_bytesAll (pos + 5) vs]; omega
theorem length_bytesAll (pos : Nat) : ∀ vs : List Reply, (bytesAll pos vs).length = widthAll vs
  | [] => rfl
  | v :: vs => by simp [bytesAll, widthAll, length_bytes pos v, length_bytesAll (pos + v.width) vs]
end

mutual
theorem write_eq (out : Bytes) : ∀ v : Reply, v.write out = out ++ v.bytes out.length
  | .nil => rfl
  | .err code text => by simp [write, outErr, bytes]
  | .str val => by simp [write, outStr, bytes]
  | .int val => by simp [write, outInt, bytes]
  | .arr vs => by
    rw [write, writeAll_eq (outArr out (UInt32.ofNat vs.length)) vs]
    simp [outArr, bytes]
theorem writeAll_eq (out : Bytes) :
    ∀ vs : List Reply, writeAll out vs = out ++ bytesAll out.length vs
  | [] => by simp [writeAll, bytesAll]
  | v :: vs => by
    rw [writeAll, writeAll_eq (v.write out) vs, write_eq out v, List.length_append, length_bytes,
      List.append_assoc, bytesAll]
end

mutual
def ints : Reply → Nat
  | .nil => 0
  | .err _ _ => 0
  | .str _ => 0
  | .int _ => 1
  | .arr vs => intsAll vs
def intsAll : List Reply → Nat
  | [] => 0
  | v :: vs => v.ints + intsAll vs
end

mutual
theorem width_eq : ∀ v : Reply, v.width = consumed v.lines + 4 * v.ints
  | .nil => rfl
  | .err code text => by simp [width, lines, ints, Line.width]
  | .str val => by simp [width, lines, ints, Line.width]
  | .int val => rfl
  | .arr vs => by simp [width, lines, ints, Line.width, widthAll_eq vs]; omega
theorem widthAll_eq : ∀ vs : List Reply, widthAll vs = consumed (linesAll vs) + 4 * intsAll vs
  | [] => rfl
  | v :: vs => by
    rw [widthAll, linesAll, consumed_append, intsAll, width_eq v, widthAll_eq vs]
    ring
end

theorem width_pos : ∀ v : Reply, 0 < v.width
  | .nil => by simp [width]
  | .err _ _ => by simp [width]
  | .str _ => by simp [width]
  | .int _ => by simp [width]
  | .arr _ => by simp [width]

theorem length_le_widthAll : ∀ vs : List Reply, vs.length ≤ widthAll vs
  | [] => le_rfl
  | v :: vs => by
    have hv := v.width_pos
    have hvs := length_le_widthAll vs
    simp only [List.length_cons, widthAll]
    omega

end Reply

/-! ## The value of the client's format that has the same lines -/

theorem int32_code (code : Int32) : int32 code.toUInt32.toNat = code.toInt :=
  (BitVec.toInt_eq_toNat_bmod code.toBitVec).symm

namespace Reply

mutual
/-- The value that the client takes a reply for. Of an integer it reads the first four bytes. -/
def field : Reply → Field
  | .nil => .nil
  | .err code text => .err code.toUInt32 text
  | .str val => .str val
  | .int val => .int val.toUInt64.toUInt32
  | .arr vs => .arr (fieldAll vs)
def fieldAll : List Reply → List Field
  | [] => []
  | v :: vs => v.field :: fieldAll vs
end

theorem length_fieldAll : ∀ vs : List Reply, (fieldAll vs).length = vs.length
  | [] => rfl
  | _ :: vs => congrArg (· + 1) (length_fieldAll vs)

mutual
theorem lines_field : ∀ v : Reply, v.ints = 0 → v.field.lines = v.lines
  | .nil, _ => rfl
  | .err code text, _ => by rw [field, Field.lines, lines, int32_code]
  | .str val, _ => rfl
  | .int val, hints => absurd hints (Nat.succ_ne_zero 0)
  | .arr vs, hints => by
    rw [field, Field.lines, lines, length_fieldAll, lines_fieldAll vs hints]
theorem lines_fieldAll : ∀ vs : List Reply, intsAll vs = 0 →
    Field.linesAll (fieldAll vs) = linesAll vs
  | [], _ => rfl
  | v :: vs, hints => by
    obtain ⟨hv, hvs⟩ := Nat.add_eq_zero_iff.mp hints
    rw [fieldAll, Field.linesAll, linesAll, lines_field v hv, lines_fieldAll vs hvs]
end

theorem width_field {v : Reply} (hints : v.ints = 0) : v.field.width = v.width := by
  rw [Field.width_eq, lines_field v hints, width_eq, hints, Nat.mul_zero, Nat.add_zero]

mutual
/-- A readable value has the bytes that its lines have in the client's format. -/
theorem readable_iff {pos : Nat} : ∀ v : Reply, pos + v.width < 2 ^ 31 →
    (v.Readable pos ↔ v.ints = 0 ∧ v.field.encode = v.bytes pos)
  | .nil, _ => by simp [Readable, ints, field, Field.encode, bytes]
  | .err code text, hsmall => by
    simp only [width] at hsmall
    simp only [Readable, ints, field, Field.encode, bytes, List.cons.injEq, true_and,
      List.append_cancel_left_eq]
    constructor
    · intro hlen
      rw [hlen]
    · intro hbytes
      have hlen := congrArg UInt32.toNat (le32_append_inj hbytes).1
      rwa [toNat_ofNat_of_small (by omega), toNat_ofNat_of_small (by omega)] at hlen
  | .str val, _ => by simp [Readable, ints, field, Field.encode, bytes]
  | .int val, _ => by simp [Readable, ints]
  | .arr vs, hsmall => by
    simp only [width] at hsmall
    simp only [Readable, ints, field, Field.encode, bytes, length_fieldAll, List.cons.injEq,
      true_and, List.append_cancel_left_eq]
    exact readableAll_iff vs (by omega)
theorem readableAll_iff {pos : Nat} : ∀ vs : List Reply, pos + widthAll vs < 2 ^ 31 →
    (ReadableAll pos vs ↔ intsAll vs = 0 ∧ Field.encodeAll (fieldAll vs) = bytesAll pos vs)
  | [], _ => by simp [ReadableAll, intsAll, fieldAll, Field.encodeAll, bytesAll]
  | v :: vs, hsmall => by
    simp only [widthAll] at hsmall
    rw [ReadableAll, readable_iff v (by omega), readableAll_iff vs (by omega), intsAll,
      Nat.add_eq_zero_iff, fieldAll, Field.encodeAll, bytesAll]
    constructor
    · rintro ⟨⟨hv, hbytes⟩, hvs, hall⟩
      exact ⟨⟨hv, hvs⟩, by rw [hbytes, hall]⟩
    · rintro ⟨⟨hv, hvs⟩, hall⟩
      -- without integers both sides give the first value the same space
      obtain ⟨hbytes, hall⟩ := List.append_inj hall
        (by rw [Field.length_encode, width_field hv, length_bytes])
      exact ⟨⟨hv, hbytes⟩, hvs, hall⟩
end

def encode (v : Reply) : Bytes := v.write []

theorem encode_eq (v : Reply) : v.encode = v.bytes 0 := write_eq [] v

theorem length_encode (v : Reply) : v.encode.length = v.width := by rw [encode_eq, length_bytes]

theorem onResponse_encode {v : Reply} (hread : v.Readable 0) (hv : v.width ≤ kMaxMsg)
    (suffix : Bytes) {size : Nat} (hsize : v.width ≤ size) :
    onResponse (v.encode ++ suffix) size = .ok ((v.width : Int), v.lines) := by
  have hmax : kMaxMsg < 2 ^ 31 := by decide
  obtain ⟨hints, hbytes⟩ := (readable_iff v (by omega)).mp hread
  rw [encode_eq, ← hbytes, ← width_field hints, ← lines_field v hints]
  rw [← width_field hints] at hv hsize
  exact Field.onNested_encode _ _ suffix v.field hsize (by omega) (by omega)

end Reply

/-- The client reads a reply back, alone or with bytes behind it, and whichever way it
arrives, exactly when no integer occurs in it and the lengths of its errors happen to fit. -/
theorem reply_roundtrip_iff {v : Reply} (hv : v.encode.length ≤ kMaxMsg) :
    ((∀ suffix size, v.encode.length ≤ size → size ≤ (v.encode ++ suffix).length →
        onResponse (v.encode ++ suffix) size = .ok ((v.encode.length : Int), v.lines)) ∧
      ∀ (header pieces : List Bytes) (reads : ReadScript) (rbuf : Buffer (4 + kMaxMsg + 1)),
        (∀ bs ∈ header ++ pieces, bs ≠ []) →
        header.flatten = le32 (UInt32.ofNat v.encode.length) → pieces.flatten = v.encode →
        readRes (header.map some ++ (pieces.map some ++ reads)) rbuf =
          .ok ((v.encode.length : Int), v.lines)) ↔
      v.Readable 0 := by
  have hmax : kMaxMsg < 2 ^ 31 := by decide
  have hlen := v.length_encode
  constructor
  · rintro ⟨hround, -⟩
    have hrun := hround [] v.encode.length le_rfl (by simp)
    obtain ⟨rv, lines, hrun', hparsed, -⟩ := onNested_parsed (v.encode.length + 1) (v.encode ++ [])
      v.encode.length (by omega) (by omega) (by simp)
    obtain ⟨rfl, rfl⟩ : (v.encode.length : Int) = rv ∧ v.lines = lines := by
      simpa [onResponse] using hrun.symm.trans hrun'
    have hints : v.ints = 0 := by
      have hwidth := v.width_eq
      rcases hparsed with hparsed | ⟨hparsed, -⟩ <;> omega
    obtain ⟨f, rest, hcut, hfull, hlines⟩ :=
      (onResponse_iff hv [] v.encode.length v.lines).mp hrun
    have hrest : rest = [] := by
      have hcount := congrArg List.length hcut
      rw [List.length_append] at hcount
      exact List.length_eq_zero_iff.mp (by omega)
    have hfield : v.field = f := by
      have hwidth := f.length_encode
      have hsame : v.field.lines ++ [] = f.lines ++ [] := by rw [Reply.lines_field v hints, hlines]
      have hsmall : v.field.width < 2 ^ 31 := by
        rw [Reply.width_field hints]
        omega
      exact (Field.eq_of_lines v.field f hsmall (by omega) hsame).1
    refine (Reply.readable_iff v (by omega)).mpr ⟨hints, ?_⟩
    rw [hfield, ← Reply.encode_eq, hcut, hrest, List.append_nil]
  · intro hread
    refine ⟨fun suffix size hsize _ => ?_, fun header pieces reads rbuf hne hheader hpieces => ?_⟩
    · rw [hlen] at hsize ⊢
      exact Reply.onResponse_encode hread (by omega) suffix hsize
    · obtain ⟨suffix, hrun⟩ := readRes_frame hv hne hheader hpieces reads rbuf
      rw [hrun, hlen, Reply.onResponse_encode hread (by omega) suffix le_rfl]
      simp

theorem reply_roundtrip_keys :
    ((∀ suffix size, (Reply.arr [.str [107], .nil]).encode.length ≤ size →
        size ≤ ((Reply.arr [.str [107], .nil]).encode ++ suffix).length →
        onResponse ((Reply.arr [.str [107], .nil]).encode ++ suffix) size =
          .ok (((Reply.arr [.str [107], .nil]).encode.length : Int),
            (Reply.arr [.str [107], .nil]).lines)) ∧
      ∀ (header pieces : List Bytes) (reads : ReadScript) (rbuf : Buffer (4 + kMaxMsg + 1)),
        (∀ bs ∈ header ++ pieces, bs ≠ []) →
        header.flatten = le32 (UInt32.ofNat (Reply.arr [.str [107], .nil]).encode.length) →
        pieces.flatten = (Reply.arr [.str [107], .nil]).encode →
        readRes (header.map some ++ (pieces.map some ++ reads)) rbuf =
          .ok (((Reply.arr [.str [107], .nil]).encode.length : Int),
            (Reply.arr [.str [107], .nil]).lines)) ↔
      (Reply.arr [.str [107], .nil]).Readable 0 :=
  reply_roundtrip_iff (by decide)

/-- The replies to a `del` of a present key and to an unknown command. -/
theorem reply_misread :
    (Reply.int 1).encode.length = 9 ∧ onResponse (Reply.int 1).encode 9 = .ok (5, [.int 1]) ∧
      readRes [some (le32 9), some (Reply.int 1).encode] (.zero _) =
        .ok (-1, [.int 1, .msg .badResponse]) ∧
      onResponse (Reply.err errUnknown unknownCmd).encode 20 =
        .ok (14, [.err 1 (unknownCmd.take 5)]) := by
  decide +kernel

end NanoRedis
