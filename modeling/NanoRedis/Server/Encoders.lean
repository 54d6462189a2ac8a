import NanoRedis.Reply

/-! The reply encoders as calls on one growing buffer. All but `out_err` append the same
bytes to every buffer; `out_err` takes its length field from the buffer. -/

namespace NanoRedis
open Wire

inductive Piece
  | nil
  | str (val : Bytes)
  | int (val : Int64)
  | err (code : Int32) (msg : Bytes)
  | arr (n : UInt32)
deriving DecidableEq

def Piece.put (out : Bytes) : Piece → Bytes
  | .nil => outNil out
  | .str val => outStr out val
  | .int val => outInt out val
  | .err code msg => outErr out code msg
  | .arr n => outArr out n

def putAll (out : Bytes) (ps : List Piece) : Bytes := ps.foldl Piece.put out

def Delimits (buf : Bytes) (pos : Nat) : Prop :=
  ∃ n, readU32 buf pos = .ok n ∧ buf.length = pos + 4 + n.toNat

def Piece.Delimited (out : Bytes) : Piece → Prop
  | .str val => Delimits (outStr out val) (out.length + 1)
  | .err code msg => Delimits (outErr out code msg) (out.length + 5)
  | .nil | .int _ | .arr _ => True

/-- The condition on a call: a string has a length of 32 bits, and an error of five bytes is
the first to be written. -/
def Piece.Fits (out : Bytes) : Piece → Prop
  | .str val => val.length < 2 ^ 32
  | .err _ msg => out.length % 2 ^ 32 = 0 ∧ msg.length = 5
  | .nil | .int _ | .arr _ => True

def AllFit (out : Bytes) : List Piece → Prop
  | [] => True
  | p :: ps => p.Fits out ∧ AllFit (p.put out) ps

theorem delimits_iff (pre payload : Bytes) (n : Nat) :
    Delimits (pre ++ (le32 (UInt32.ofNat n) ++ payload)) pre.length ↔
      n % 2 ^ 32 = payload.length := by
  have hlen : (pre ++ (le32 (UInt32.ofNat n) ++ payload)).length =
      pre.length + 4 + payload.length := by
    simp only [List.length_append, length_le32]
    omega
  constructor
  · rintro ⟨m, hm, hcount⟩
    rw [readU32_append] at hm
    rw [← Except.ok.inj hm, UInt32.toNat_ofNat', hlen] at hcount
    omega
  · intro h
    refine ⟨_, readU32_append .., ?_⟩
    rw [UInt32.toNat_ofNat', hlen, h]

theorem outStr_delimits (out val : Bytes) :
    Delimits (outStr out val) (out.length + 1) ↔ val.length < 2 ^ 32 := by
  have h := delimits_iff (out ++ [serStr]) val val.length
  rw [List.length_append, List.length_singleton] at h
  rw [outStr, List.append_assoc (out ++ [serStr]), h]
  omega

theorem length_errHeader (out : Bytes) (code : Int32) :
    (out ++ [serErr] ++ le32 code.toUInt32).length = out.length + 5 := by
  simp only [List.length_append, List.length_singleton, length_le32]

theorem outErr_eq (out : Bytes) (code : Int32) (msg : Bytes) :
    outErr out code msg = (out ++ [serErr] ++ le32 code.toUInt32) ++
      (le32 (UInt32.ofNat (out.length + 5)) ++ msg) := by
  rw [outErr, length_errHeader, List.append_assoc _ (le32 _) msg]

theorem outErr_delimits (out : Bytes) (code : Int32) (msg : Bytes) :
    Delimits (outErr out code msg) (out.length + 5) ↔
      (out.length + 5) % 2 ^ 32 = msg.length := by
  have h := delimits_iff (out ++ [serErr] ++ le32 code.toUInt32) msg (out.length + 5)
  rw [length_errHeader] at h
  rw [outErr_eq, h]

theorem outErr_append_iff (out : Bytes) (code : Int32) (msg : Bytes) :
    outErr out code msg = out ++ outErr [] code msg ↔ out.length % 2 ^ 32 = 0 := by
  rw [outErr_eq, outErr_eq]
  simp only [List.append_assoc, List.append_cancel_left_eq, List.append_cancel_right_eq,
    List.nil_append, List.length_nil, Nat.zero_add]
  constructor
  · intro h
    have hfield := congrArg ofLe32 h
    rw [ofLe32_le32, ofLe32_le32] at hfield
    have hnat := congrArg UInt32.toNat hfield
    rw [UInt32.toNat_ofNat', UInt32.toNat_ofNat'] at hnat
    omega
  · intro h
    congr 1
    apply UInt32.toNat_inj.mp
    rw [UInt32.toNat_ofNat', UInt32.toNat_ofNat']
    omega

theorem Piece.appends_iff (out : Bytes) (p : Piece) :
    (p.put out = out ++ p.put [] ∧ p.Delimited out) ↔ p.Fits out := by
  cases p with
  | nil => simp [Piece.put, Piece.Delimited, Piece.Fits, outNil]
  | str val =>
    have happend : outStr out val = out ++ outStr [] val := by simp [outStr]
    exact (and_iff_right happend).trans (outStr_delimits out val)
  | int val => simp [Piece.put, Piece.Delimited, Piece.Fits, outInt]
  | err code msg =>
    simp only [Piece.put, Piece.Delimited, Piece.Fits, outErr_append_iff, outErr_delimits]
    omega
  | arr n => simp [Piece.put, Piece.Delimited, Piece.Fits, outArr]

/-! ## Cutting a sequence -/

theorem sized_cut {n m : UInt32} {val val' rest rest' : Bytes} (hn : n.toNat = val.length)
    (hm : m.toNat = val'.length) (h : le32 n ++ (val ++ rest) = le32 m ++ (val' ++ rest')) :
    val = val' ∧ rest = rest' := by
  obtain ⟨rfl, htail⟩ := le32_append_inj h
  exact List.append_inj htail (hn.symm.trans hm)

theorem Piece.put_ne_nil (p : Piece) : p.put [] ≠ [] := by
  cases p <;> simp [Piece.put, outNil, outStr, outInt, outErr, outArr]

theorem outStr_cut {val val' rest rest' : Bytes} (hval : val.length < 2 ^ 32)
    (hval' : val'.length < 2 ^ 32) (h : outStr [] val ++ rest = outStr [] val' ++ rest') :
    val = val' ∧ rest = rest' := by
  refine sized_cut (n := UInt32.ofNat val.length) (m := UInt32.ofNat val'.length) ?_ ?_ ?_
  · rw [UInt32.toNat_ofNat', Nat.mod_eq_of_lt hval]
  · rw [UInt32.toNat_ofNat', Nat.mod_eq_of_lt hval']
  · simpa [outStr] using h

theorem outErr_cut {code code' : Int32} {msg msg' rest rest' : Bytes} (hmsg : msg.length = 5)
    (hmsg' : msg'.length = 5) (h : outErr [] code msg ++ rest = outErr [] code' msg' ++ rest') :
    code = code' ∧ msg = msg' ∧ rest = rest' := by
  simp only [outErr_eq, List.nil_append, List.length_nil, List.append_assoc,
    List.cons_append, List.cons.injEq, true_and] at h
  obtain ⟨hcode, htail⟩ := le32_append_inj h
  exact ⟨congrArg Int32.ofUInt32 hcode, sized_cut (n := UInt32.ofNat (0 + 5))
    (m := UInt32.ofNat (0 + 5)) hmsg.symm hmsg'.symm htail⟩

theorem Piece.selfDelimiting : SelfDelimiting (Piece.put []) (Piece.Fits []) where
  ne_nil := Piece.put_ne_nil
  cut := by
    intro p q rest rest' hp hq h
    cases p <;> cases q
    case nil.nil => exact ⟨rfl, by simpa [Piece.put, outNil] using h⟩
    case str.str val val' =>
      obtain ⟨rfl, rfl⟩ := outStr_cut hp hq h
      exact ⟨rfl, rfl⟩
    case int.int val val' =>
      simp only [Piece.put, outInt, List.nil_append, List.cons_append,
        List.cons.injEq, true_and] at h
      obtain ⟨hval, rfl⟩ := le64_append_inj h
      exact ⟨congrArg (fun v => Piece.int ⟨v⟩) hval, rfl⟩
    case err.err code msg code' msg' =>
      obtain ⟨rfl, rfl, rfl⟩ := outErr_cut hp.2 hq.2 h
      exact ⟨rfl, rfl⟩
    case arr.arr n m =>
      simp only [Piece.put, outArr, List.nil_append, List.cons_append,
        List.cons.injEq, true_and] at h
      obtain ⟨rfl, rfl⟩ := le32_append_inj h
      exact ⟨rfl, rfl⟩
    -- calls of different kinds write different first bytes
    all_goals
      simp [Piece.put, outNil, outStr, outInt, outErr, outArr, serNil, serErr, serStr, serInt,
        serArr] at h

theorem putAll_eq {out : Bytes} {ps : List Piece} (h : AllFit out ps) :
    putAll out ps = out ++ ps.flatMap (Piece.put []) := by
  induction ps generalizing out with
  | nil => simp [putAll]
  | cons p ps ih =>
    have hp := ((p.appends_iff out).mpr h.1).1
    rw [List.flatMap_cons, ← List.append_assoc, ← hp]
    exact ih h.2

theorem AllFit.fits {out : Bytes} {ps : List Piece} (h : AllFit out ps) : ∀ p ∈ ps, p.Fits [] := by
  induction ps generalizing out with
  | nil => simp
  | cons p ps ih =>
    intro q hq
    rcases List.mem_cons.mp hq with rfl | hq
    · have hfit := h.1
      cases q with
      | err code msg => exact ⟨rfl, hfit.2⟩
      | nil | str _ | int _ | arr _ => exact hfit
    · exact ih h.2 q hq

/-- The encoders append independently of the buffer and delimit their payloads exactly as
far as their calls meet the condition, and such sequences of calls can be told apart. -/
theorem encoders_append_iff (out : Bytes) :
    (∀ p : Piece, (p.put out = out ++ p.put [] ∧ p.Delimited out) ↔ p.Fits out) ∧
      (∀ ps qs : List Piece, AllFit out ps → AllFit out qs → putAll out ps = putAll out qs →
        ps = qs) := by
  refine ⟨fun p => p.appends_iff out, fun ps qs hps hqs heq => ?_⟩
  rw [putAll_eq hps, putAll_eq hqs, List.append_cancel_left_eq] at heq
  exact Piece.selfDelimiting.flatMap_inj hps.fits hqs.fits heq

theorem out_err_blurs :
    ¬ Piece.Delimited [] (.err errUnknown unknownCmd) ∧
    Piece.put [0] (.err 1 [97]) ≠ [0] ++ Piece.put [] (.err 1 [97]) ∧
    putAll [] [.err 1 [97, 0]] = putAll [] [.err 1 [97], .nil] := by
  refine ⟨fun h => ?_, by decide, rfl⟩
  exact absurd ((outErr_delimits [] _ _).mp h) (by decide)

end NanoRedis
