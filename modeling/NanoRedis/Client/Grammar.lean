import NanoRedis.Client.Decoder

/-! The format that `on_response` accepts: a grammar of its own, which the decoder follows
in both directions. -/

namespace NanoRedis
open Wire

theorem int32_toNat_inj {u v : UInt32} : int32 u.toNat = int32 v.toNat ↔ u = v := by
  have htoInt : ∀ w : UInt32, int32 w.toNat = w.toBitVec.toInt := fun w =>
    (BitVec.toInt_eq_toNat_bmod w.toBitVec).symm
  rw [htoInt, htoInt, BitVec.toInt_inj, UInt32.toBitVec_inj]

/-- A reply as the client knows it: an integer has four bytes, and an error carries the
length of its text. -/
inductive Field
  | nil
  | err (code : UInt32) (text : Bytes)
  | str (val : Bytes)
  | int (val : UInt32)
  | arr (fs : List Field)

namespace Field

mutual
def encode : Field → Bytes
  | .nil => [serNil]
  | .err code text => serErr :: (le32 code ++ (le32 (UInt32.ofNat text.length) ++ text))
  | .str val => serStr :: (le32 (UInt32.ofNat val.length) ++ val)
  | .int val => serInt :: le32 val
  | .arr fs => serArr :: (le32 (UInt32.ofNat fs.length) ++ encodeAll fs)
def encodeAll : List Field → Bytes
  | [] => []
  | f :: fs => f.encode ++ encodeAll fs
end

mutual
def lines : Field → List Line
  | .nil => [.nil]
  | .err code text => [.err (int32 code.toNat) text]
  | .str val => [.str (UInt32.ofNat val.length) val]
  | .int val => [.int (int32 val.toNat)]
  | .arr fs => .arr (UInt32.ofNat fs.length) :: linesAll fs
def linesAll : List Field → List Line
  | [] => []
  | f :: fs => f.lines ++ linesAll fs
end

mutual
def width : Field → Nat
  | .nil => 1
  | .err _ text => 9 + text.length
  | .str val => 5 + val.length
  | .int _ => 5
  | .arr fs => 5 + widthAll fs
def widthAll : List Field → Nat
  | [] => 0
  | f :: fs => f.width + widthAll fs
end

mutual
theorem length_encode : ∀ f : Field, f.encode.length = f.width
  | .nil => rfl
  | .err code text => by simp [encode, width]; omega
  | .str val => by simp [encode, width]; omega
  | .int val => by simp [encode, width]
  | .arr fs => by simp [encode, width, length_encodeAll fs]; omega
theorem length_encodeAll : ∀ fs : List Field, (encodeAll fs).length = widthAll fs
  | [] => rfl
  | f :: fs => by simp [encodeAll, widthAll, length_encode f, length_encodeAll fs]
end

theorem width_pos (f : Field) : 0 < f.width := by
  cases f <;> simp [width]

theorem length_le_widthAll : ∀ fs : List Field, fs.length ≤ widthAll fs
  | [] => le_rfl
  | f :: fs => by
    have hf := f.width_pos
    have hfs := length_le_widthAll fs
    simp only [List.length_cons, widthAll]
    omega

mutual
theorem width_eq : ∀ f : Field, f.width = consumed f.lines
  | .nil => rfl
  | .err code text => by simp [width, lines, Line.width]
  | .str val => by simp [width, lines, Line.width]
  | .int val => rfl
  | .arr fs => by simp [width, lines, Line.width, widthAll_eq fs]
theorem widthAll_eq : ∀ fs : List Field, widthAll fs = consumed (linesAll fs)
  | [] => rfl
  | f :: fs => by rw [widthAll, linesAll, consumed_append, width_eq f, widthAll_eq fs]
end

mutual
theorem eq_of_lines {r r' : List Line} : ∀ f g : Field, f.width < 2 ^ 31 → g.width < 2 ^ 31 →
    f.lines ++ r = g.lines ++ r' → f = g ∧ r = r'
  | .nil, g, _, _, h => by cases g <;> simp_all [lines]
  | .err code text, g, _, _, h => by cases g <;> simp_all [lines, int32_toNat_inj]
  | .str val, g, _, _, h => by cases g <;> simp_all [lines]
  | .int val, g, _, _, h => by cases g <;> simp_all [lines, int32_toNat_inj]
  | .arr fs, g, hf, hg, h => by
    cases g with
    | arr gs =>
      simp only [width] at hf hg
      simp only [lines, List.cons_append, List.cons.injEq, Line.arr.injEq] at h
      have hlen : fs.length = gs.length := by
        have hfs := length_le_widthAll fs
        have hgs := length_le_widthAll gs
        rw [← toNat_ofNat_of_small (n := fs.length) (by omega), h.1,
          toNat_ofNat_of_small (by omega)]
      obtain ⟨rfl, hr⟩ := eq_of_linesAll fs gs hlen (by omega) (by omega) h.2
      exact ⟨rfl, hr⟩
    | _ => simp_all [lines]
theorem eq_of_linesAll {r r' : List Line} :
    ∀ fs gs : List Field, fs.length = gs.length → widthAll fs < 2 ^ 31 →
    widthAll gs < 2 ^ 31 → linesAll fs ++ r = linesAll gs ++ r' → fs = gs ∧ r = r'
  | [], [], _, _, _, h => ⟨rfl, h⟩
  | f :: fs, g :: gs, hlen, hf, hg, h => by
    simp only [widthAll] at hf hg
    simp only [linesAll, List.append_assoc] at h
    obtain ⟨rfl, hrest⟩ := eq_of_lines f g (by omega) (by omega) h
    obtain ⟨rfl, hr⟩ := eq_of_linesAll fs gs (Nat.succ.inj hlen) (by omega) (by omega) hrest
    exact ⟨rfl, hr⟩
end

end Field

/-! ## The decoder at each shape of reply -/

section Shapes
variable {depth size : Nat}

theorem onNested_nil (data : Bytes) (h : 1 ≤ size) :
    onNested (depth + 1) (serNil :: data) size = .ok (1, [.nil]) := by
  simp [onNested, readByte, Nat.pos_iff_ne_zero.mp h]

theorem readU32_cons (b : UInt8) (v : UInt32) (data : Bytes) :
    readU32 (b :: (le32 v ++ data)) 1 = .ok v :=
  readU32_append [b] v data

theorem readU32_second (b : UInt8) (u v : UInt32) (data : Bytes) :
    readU32 (b :: (le32 u ++ (le32 v ++ data))) (1 + 4) = .ok v := by
  simpa using readU32_append (b :: le32 u) v data

theorem onNested_int (depth : Nat) (v : UInt32) (rest : Bytes) (h : 5 ≤ size) :
    onNested (depth + 1) (serInt :: (le32 v ++ rest)) size = .ok (5, [.int (int32 v.toNat)]) := by
  have hempty : ¬ size < 1 := by omega
  have hshort : ¬ size - 1 < 4 := by omega
  have hcode : readByte (serInt :: (le32 v ++ rest)) 0 = .ok serInt := rfl
  have hcodes : ¬ serInt = serNil ∧ ¬ serInt = serErr := by decide
  simp only [onNested, hempty, hcode, hcodes, hshort, readU32_cons, if_false, if_true, ok_bind,
    pure_eq_ok]

theorem onNested_str (depth : Nat) (n : UInt32) {val : Bytes} (hval : val.length = n.toNat)
    (rest : Bytes) (h : 5 + val.length ≤ size) :
    onNested (depth + 1) (serStr :: (le32 n ++ (val ++ rest))) size =
      .ok (int32 (5 + n.toNat), [.str n val]) := by
  have hread : readBytes (serStr :: (le32 n ++ (val ++ rest))) 5 n.toNat = .ok val := by
    simpa [hval] using readBytes_append (serStr :: le32 n) val rest
  have hempty : ¬ size < 1 := by omega
  have hshort : ¬ size - 1 < 4 := by omega
  have hlong : ¬ size - 5 < n.toNat := by omega
  have hcode : readByte (serStr :: (le32 n ++ (val ++ rest))) 0 = .ok serStr := rfl
  have hcodes : ¬ serStr = serNil ∧ ¬ serStr = serErr ∧ ¬ serStr = serInt := by decide
  simp only [onNested, hempty, hcode, hcodes, hshort, readU32_cons, hlong, hread, if_false,
    if_true, ok_bind, pure_eq_ok]

theorem onNested_err (depth : Nat) (code n : UInt32) {text : Bytes} (htext : text.length = n.toNat)
    (rest : Bytes) (h : 9 + text.length ≤ size) :
    onNested (depth + 1) (serErr :: (le32 code ++ (le32 n ++ (text ++ rest)))) size =
      .ok (int32 (9 + n.toNat), [.err (int32 code.toNat) text]) := by
  have hread : readBytes (serErr :: (le32 code ++ (le32 n ++ (text ++ rest))))
      (1 + 4 + 4) n.toNat = .ok text := by
    simpa [htext] using readBytes_append (serErr :: (le32 code ++ le32 n)) text rest
  have hempty : ¬ size < 1 := by omega
  have hshort : ¬ size - 1 < 8 := by omega
  have hlong : ¬ size - 9 < n.toNat := by omega
  have hcode : readByte (serErr :: (le32 code ++ (le32 n ++ (text ++ rest)))) 0 = .ok serErr := rfl
  have hcodes : ¬ serErr = serNil := by decide
  simp only [onNested, hempty, hcode, hcodes, hshort, readU32_cons, readU32_second, hlong, hread,
    if_false, if_true, ok_bind, pure_eq_ok]

theorem onNested_arr (n : UInt32) (data : Bytes) (h : 5 ≤ size) :
    onNested (depth + 1) (serArr :: (le32 n ++ data)) size = (do
      let (rv, lines) ← onElements
        (fun pos => onNested depth ((serArr :: (le32 n ++ data)).drop pos) (size - pos))
        size n.toNat 5
      return (rv, .arr n :: lines)) := by
  have hempty : ¬ size < 1 := by omega
  have hshort : ¬ size - 1 < 4 := by omega
  have hcode : readByte (serArr :: (le32 n ++ data)) 0 = .ok serArr := rfl
  have hcodes : ¬ serArr = serNil ∧ ¬ serArr = serErr ∧ ¬ serArr = serInt ∧ ¬ serArr = serStr := by
    decide
  simp only [onNested, hempty, hcode, hcodes, hshort, readU32_cons, if_false, if_true, ok_bind]

end Shapes

theorem sizeT_length {n : Nat} (h : n < 2 ^ 31) : sizeT n = n := by
  have := sizeT_of_small (x := n) (by omega) (by omega)
  omega

/-! ## Every encoding is accepted -/

namespace Field

mutual
theorem onNested_encode (depth size : Nat) (rest : Bytes) :
    ∀ f : Field, f.width ≤ size → f.width < 2 ^ 31 → f.width ≤ depth →
    onNested depth (f.encode ++ rest) size = .ok ((f.width : Int), f.lines)
  | f, hsize, hsmall, hdepth => by
    obtain ⟨depth, rfl⟩ := Nat.exists_eq_add_of_le' (f.width_pos.trans_le hdepth)
    cases f with
    | nil => exact onNested_nil rest hsize
    | err code text =>
      simp only [width] at hsize hsmall
      have hlen : (UInt32.ofNat text.length).toNat = text.length := toNat_ofNat_of_small (by omega)
      have hrv : int32 (9 + text.length) = (9 + text.length : Nat) := by
        rw [int32_of_small (by omega) (by omega)]
        push_cast
        rfl
      have hrun := onNested_err depth code (UInt32.ofNat text.length) hlen.symm rest hsize
      simpa only [encode, width, lines, hlen, hrv, List.cons_append, List.append_assoc] using hrun
    | str val =>
      simp only [width] at hsize hsmall
      have hlen : (UInt32.ofNat val.length).toNat = val.length := toNat_ofNat_of_small (by omega)
      have hrv : int32 (5 + val.length) = (5 + val.length : Nat) := by
        rw [int32_of_small (by omega) (by omega)]
        push_cast
        rfl
      have hrun := onNested_str depth (UInt32.ofNat val.length) hlen.symm rest hsize
      simpa only [encode, width, lines, hlen, hrv, List.cons_append, List.append_assoc] using hrun
    | int val => exact onNested_int depth val rest hsize
    | arr fs =>
      simp only [width] at hsize hsmall hdepth
      have hcount : (UInt32.ofNat fs.length).toNat = fs.length :=
        toNat_ofNat_of_small (by have := length_le_widthAll fs; omega)
      have hrun := onElements_encode depth size _ (serArr :: le32 (UInt32.ofNat fs.length)) rest fs
        rfl (by simpa using hsize) (by simpa using hsmall) (by omega)
      simp only [encode, List.cons_append, List.append_assoc, length_le32, List.length_cons,
        Nat.reduceAdd, Nat.cast_ofNat] at hrun ⊢
      rw [onNested_arr _ _ (by omega), hcount]
      simp only [hrun, ok_bind, pure_eq_ok, width, lines]
theorem onElements_encode (depth size : Nat) (data pre rest : Bytes) : ∀ fs : List Field,
    data = pre ++ (encodeAll fs ++ rest) → pre.length + widthAll fs ≤ size →
    pre.length + widthAll fs < 2 ^ 31 → widthAll fs ≤ depth →
    onElements (fun p => onNested depth (data.drop p) (size - p)) size fs.length pre.length =
      .ok ((pre.length + widthAll fs : Nat), linesAll fs)
  | [], _, _, _, _ => rfl
  | f :: fs, hdata, hsize, hsmall, hdepth => by
    simp only [widthAll] at hsize hsmall hdepth
    have hpos : sizeT pre.length = pre.length := sizeT_length (by omega)
    have hdrop : data.drop pre.length = f.encode ++ (encodeAll fs ++ rest) := by
      rw [hdata, List.drop_left, encodeAll, List.append_assoc]
    have hf := onNested_encode depth (size - pre.length) (encodeAll fs ++ rest) f (by omega)
      (by omega) (by omega)
    have hnext : int32 (pre.length + f.width) = ((pre ++ f.encode).length : Nat) := by
      rw [int32_of_small (by omega) (by omega), List.length_append, length_encode]
      push_cast
      rfl
    have hfs := onElements_encode depth size data (pre ++ f.encode) rest fs
      (by rw [hdata, encodeAll, List.append_assoc, List.append_assoc])
      (by rw [List.length_append, length_encode]; omega)
      (by rw [List.length_append, length_encode]; omega) (by omega)
    simp only [List.length_cons, onElements, hpos, if_neg (show ¬ size < pre.length by omega),
      hdrop, hf, ok_bind, if_neg (show ¬ ((f.width : Nat) : Int) < 0 by omega), hnext, hfs,
      pure_eq_ok, linesAll, widthAll]
    rw [List.length_append, length_encode, Nat.add_assoc]
end

end Field

/-! ## Nothing else is accepted -/

def Recognises (data : Bytes) (rv : Int) (lines : List Line) : Prop :=
  ∃ f rest, data = Field.encode f ++ rest ∧ rv = f.width ∧ lines = f.lines

theorem split_readU32 (pre : Bytes) {data : Bytes} {v : UInt32}
    (h : readU32 (pre ++ data) pre.length = .ok v) : ∃ rest, data = le32 v ++ rest := by
  simp only [readU32] at h
  split at h
  · cases h
  · rename_i bs hslice
    obtain ⟨hle, rfl⟩ := slice?_eq_some hslice
    obtain rfl := Except.ok.inj h
    rw [List.length_append] at hle
    rw [List.drop_left, le32_ofLe32 (by rw [List.length_take]; omega)]
    exact ⟨data.drop 4, (List.take_append_drop 4 data).symm⟩

theorem split_readBytes (pre : Bytes) {data bs : Bytes} {n : Nat}
    (h : readBytes (pre ++ data) pre.length n = .ok bs) : ∃ rest, data = bs ++ rest := by
  refine ⟨data.drop n, ?_⟩
  simp only [readBytes] at h
  split at h
  · cases h
  · rename_i hslice
    obtain ⟨-, rfl⟩ := slice?_eq_some hslice
    obtain rfl := Except.ok.inj h
    rw [List.drop_left, List.take_append_drop]

theorem not_bad {its lines : List Line} {rv : Int}
    (h : (Except.ok (-1, its) : Except Fault (Int × List Line)) = .ok (rv, lines)) : ¬ 0 ≤ rv := by
  obtain ⟨rfl, -⟩ : -1 = rv ∧ its = lines := by simpa using h
  decide

section Sound
variable {depth size : Nat} {data : Bytes} {rv : Int} {lines : List Line}

theorem recognises_int (hsize : size ≤ (serInt :: data).length)
    (hrun : onNested (depth + 1) (serInt :: data) size = .ok (rv, lines)) (hrv : 0 ≤ rv) :
    Recognises (serInt :: data) rv lines := by
  have hcode : readByte (serInt :: data) 0 = .ok serInt := rfl
  have hcodes : ¬ serInt = serNil ∧ ¬ serInt = serErr := by decide
  simp only [onNested, hcode, hcodes, if_false, if_true, ok_bind, pure_eq_ok] at hrun
  split_ifs at hrun with hempty hshort
  · exact absurd hrv (not_bad hrun)
  · exact absurd hrv (not_bad hrun)
  · obtain ⟨v, hv⟩ := readU32_of_le (serInt :: data) 1 (by omega)
    obtain ⟨rest, rfl⟩ := split_readU32 [serInt] hv
    simp only [hv, ok_bind, Except.ok.injEq, Prod.mk.injEq] at hrun
    obtain ⟨rfl, rfl⟩ := hrun
    exact ⟨.int v, rest, rfl, rfl, rfl⟩

theorem recognises_err (hsize : size ≤ (serErr :: data).length) (hsmall : size < 2 ^ 31)
    (hrun : onNested (depth + 1) (serErr :: data) size = .ok (rv, lines)) (hrv : 0 ≤ rv) :
    Recognises (serErr :: data) rv lines := by
  have hcode : readByte (serErr :: data) 0 = .ok serErr := rfl
  have hcodes : ¬ serErr = serNil := by decide
  simp only [onNested, hcode, hcodes, if_false, if_true, ok_bind, pure_eq_ok] at hrun
  split_ifs at hrun with hempty hshort
  · exact absurd hrv (not_bad hrun)
  · exact absurd hrv (not_bad hrun)
  · obtain ⟨code, hc⟩ := readU32_of_le (serErr :: data) 1 (by omega)
    obtain ⟨data, rfl⟩ := split_readU32 [serErr] hc
    obtain ⟨n, hn⟩ := readU32_of_le (serErr :: (le32 code ++ data)) (1 + 4) (by omega)
    obtain ⟨tail, rfl⟩ := split_readU32 (serErr :: le32 code) hn
    simp only [hc, hn, ok_bind] at hrun
    split_ifs at hrun with hlong
    · exact absurd hrv (not_bad hrun)
    · obtain ⟨text, htext, hlen⟩ :=
        readBytes_of_le (serErr :: (le32 code ++ (le32 n ++ tail))) (1 + 4 + 4) n.toNat (by omega)
      obtain ⟨rest, rfl⟩ : ∃ rest, tail = text ++ rest := by
        apply split_readBytes (serErr :: (le32 code ++ le32 n))
        simpa using htext
      have hn' : UInt32.ofNat text.length = n := by rw [hlen, UInt32.ofNat_toNat]
      have hrv' : int32 (9 + n.toNat) = (9 + n.toNat : Nat) := by
        rw [int32_of_small (by omega) (by omega)]
        push_cast
        rfl
      simp only [htext, ok_bind, hrv', Except.ok.injEq, Prod.mk.injEq] at hrun
      obtain ⟨rfl, rfl⟩ := hrun
      refine ⟨.err code text, rest, ?_, ?_, rfl⟩
      · simp only [Field.encode, hn', List.cons_append, List.append_assoc]
      · rw [Field.width, hlen]

theorem recognises_str (hsize : size ≤ (serStr :: data).length) (hsmall : size < 2 ^ 31)
    (hrun : onNested (depth + 1) (serStr :: data) size = .ok (rv, lines)) (hrv : 0 ≤ rv) :
    Recognises (serStr :: data) rv lines := by
  have hcode : readByte (serStr :: data) 0 = .ok serStr := rfl
  have hcodes : ¬ serStr = serNil ∧ ¬ serStr = serErr ∧ ¬ serStr = serInt := by decide
  simp only [onNested, hcode, hcodes, if_false, if_true, ok_bind, pure_eq_ok] at hrun
  split_ifs at hrun with hempty hshort
  · exact absurd hrv (not_bad hrun)
  · exact absurd hrv (not_bad hrun)
  · obtain ⟨n, hn⟩ := readU32_of_le (serStr :: data) 1 (by omega)
    obtain ⟨tail, rfl⟩ := split_readU32 [serStr] hn
    simp only [hn, ok_bind] at hrun
    split_ifs at hrun with hlong
    · exact absurd hrv (not_bad hrun)
    · obtain ⟨val, hval, hlen⟩ :=
        readBytes_of_le (serStr :: (le32 n ++ tail)) 5 n.toNat (by omega)
      obtain ⟨rest, rfl⟩ := split_readBytes (serStr :: le32 n) hval
      have hn' : UInt32.ofNat val.length = n := by rw [hlen, UInt32.ofNat_toNat]
      have hrv' : int32 (5 + n.toNat) = (5 + n.toNat : Nat) := by
        rw [int32_of_small (by omega) (by omega)]
        push_cast
        rfl
      simp only [hval, ok_bind, hrv', Except.ok.injEq, Prod.mk.injEq] at hrun
      obtain ⟨rfl, rfl⟩ := hrun
      refine ⟨.str val, rest, ?_, ?_, ?_⟩
      · simp only [Field.encode, hn', List.cons_append, List.append_assoc]
      · rw [Field.width, hlen]
      · rw [Field.lines, hn']

theorem recognises_elements (hsmall : size < 2 ^ 31) (hsize : size ≤ data.length)
    (hdepth : ∀ pos, 5 ≤ pos → pos ≤ size → size - pos < depth)
    (hon : ∀ pos rv lines, 5 ≤ pos → pos ≤ size →
      onNested depth (data.drop pos) (size - pos) = .ok (rv, lines) → 0 ≤ rv →
      Recognises (data.drop pos) rv lines)
    (n start : Nat) (hfirst : 5 ≤ start) (hstart : start ≤ size)
    (hrun : onElements (fun pos => onNested depth (data.drop pos) (size - pos)) size n start =
      .ok (rv, lines)) (hrv : 0 ≤ rv) :
    ∃ fs rest, fs.length = n ∧ data.drop start = Field.encodeAll fs ++ rest ∧
      rv = (start + Field.widthAll fs : Nat) ∧ lines = Field.linesAll fs := by
  induction n generalizing start rv lines with
  | zero =>
    simp only [onElements, Except.ok.injEq, Prod.mk.injEq] at hrun
    obtain ⟨rfl, rfl⟩ := hrun
    exact ⟨[], data.drop start, rfl, rfl, rfl, rfl⟩
  | succ n ih =>
    have hpos : sizeT start = start := sizeT_length (by omega)
    obtain ⟨pass, its, hpass, hparsed, -⟩ := onNested_parsed depth (data.drop start) (size - start)
      (hdepth start hfirst hstart) (by omega) (by rw [List.length_drop]; omega)
    simp only [onElements, hpos, if_neg (not_lt.mpr hstart), hpass, ok_bind, pure_eq_ok] at hrun
    split_ifs at hrun with hneg
    · exact absurd hrv (not_bad hrun)
    · obtain ⟨f, rest, hdata, rfl, rfl⟩ := hon start pass its hfirst hstart hpass (not_lt.mp hneg)
      have hfit : start + f.width ≤ size := by
        rcases hparsed with hbad | ⟨hgood, hle⟩ <;> omega
      have hnext : int32 (start + f.width) = (start + f.width : Nat) := by
        rw [int32_of_small (by omega) (by omega)]
        push_cast
        rfl
      rw [hnext] at hrun
      cases hrest : onElements (fun pos => onNested depth (data.drop pos) (size - pos)) size n
          (start + f.width : Nat) with
      | error e =>
        rw [hrest] at hrun
        cases hrun
      | ok res =>
        obtain ⟨rv', lines'⟩ := res
        simp only [hrest, ok_bind, Except.ok.injEq, Prod.mk.injEq] at hrun
        obtain ⟨rfl, rfl⟩ := hrun
        obtain ⟨fs, rest', hlen, hdata', hrv', hlines⟩ :=
          ih (start + f.width) (by omega) hfit hrest hrv
        refine ⟨f :: fs, rest', by rw [List.length_cons, hlen], ?_, ?_, ?_⟩
        · have htail : data.drop (start + f.width) = rest := by
            rw [← List.drop_drop, hdata, ← f.length_encode, List.drop_left]
          rw [hdata, ← htail, hdata', Field.encodeAll, List.append_assoc]
        · rw [hrv', Field.widthAll, Nat.add_assoc]
        · rw [hlines, Field.linesAll]

theorem recognises_arr (hsize : size ≤ (serArr :: data).length) (hsmall : size < 2 ^ 31)
    (hdepth : size < depth + 1)
    (hon : ∀ pos rv lines, 5 ≤ pos → pos ≤ size →
      onNested depth ((serArr :: data).drop pos) (size - pos) = .ok (rv, lines) → 0 ≤ rv →
      Recognises ((serArr :: data).drop pos) rv lines)
    (hrun : onNested (depth + 1) (serArr :: data) size = .ok (rv, lines)) (hrv : 0 ≤ rv) :
    Recognises (serArr :: data) rv lines := by
  have hcode : readByte (serArr :: data) 0 = .ok serArr := rfl
  have hcodes : ¬ serArr = serNil ∧ ¬ serArr = serErr ∧ ¬ serArr = serInt ∧ ¬ serArr = serStr := by
    decide
  simp only [onNested, hcode, hcodes, if_false, if_true, ok_bind, pure_eq_ok] at hrun
  split_ifs at hrun with hempty hshort
  · exact absurd hrv (not_bad hrun)
  · exact absurd hrv (not_bad hrun)
  · obtain ⟨n, hn⟩ := readU32_of_le (serArr :: data) 1 (by omega)
    simp only [hn, ok_bind] at hrun
    cases hloop : onElements (fun pos => onNested depth ((serArr :: data).drop pos) (size - pos))
        size n.toNat 5 with
    | error e => simp [hloop] at hrun
    | ok res =>
      obtain ⟨rv', its⟩ := res
      simp only [hloop, ok_bind, Except.ok.injEq, Prod.mk.injEq] at hrun
      obtain ⟨rfl, rfl⟩ := hrun
      obtain ⟨fs, rest, hlen, hdata, rfl, rfl⟩ := recognises_elements hsmall hsize
        (fun pos hpos _ => by omega) hon n.toNat 5 le_rfl (by omega) hloop hrv
      obtain ⟨tail, rfl⟩ := split_readU32 [serArr] hn
      obtain rfl : tail = Field.encodeAll fs ++ rest := hdata
      have hn' : UInt32.ofNat fs.length = n := by rw [hlen, UInt32.ofNat_toNat]
      refine ⟨.arr fs, rest, ?_, rfl, ?_⟩
      · rw [Field.encode, hn', List.cons_append, List.append_assoc]
      · rw [Field.lines, hn']

end Sound

theorem recognises_of_onNested (depth : Nat) (data : Bytes) (size : Nat) {rv : Int}
    {lines : List Line} (hdepth : size < depth) (hsmall : size < 2 ^ 31)
    (hsize : size ≤ data.length) (hrun : onNested depth data size = .ok (rv, lines))
    (hrv : 0 ≤ rv) :
    Recognises data rv lines := by
  induction depth generalizing data size rv lines with
  | zero => omega
  | succ depth ih =>
    by_cases hempty : size < 1
    · rw [onNested, if_pos hempty] at hrun
      exact absurd hrv (not_bad hrun)
    obtain ⟨code, data, rfl⟩ := List.exists_cons_of_length_pos (show 0 < data.length by omega)
    by_cases hnil : code = serNil
    · subst hnil
      rw [onNested_nil data (by omega)] at hrun
      obtain ⟨rfl, rfl⟩ : 1 = rv ∧ [Line.nil] = lines := by simpa using hrun
      exact ⟨.nil, data, rfl, rfl, rfl⟩
    by_cases herr : code = serErr
    · exact herr ▸ recognises_err (herr ▸ hsize) hsmall (herr ▸ hrun) hrv
    by_cases hint : code = serInt
    · exact hint ▸ recognises_int (hint ▸ hsize) (hint ▸ hrun) hrv
    by_cases hstr : code = serStr
    · exact hstr ▸ recognises_str (hstr ▸ hsize) hsmall (hstr ▸ hrun) hrv
    by_cases harr : code = serArr
    · subst harr
      refine recognises_arr hsize hsmall hdepth (fun pos rv lines hpos hle hrun hrv => ?_) hrun hrv
      exact ih _ (size - pos) (by omega) (by omega) (by rw [List.length_drop]; omega) hrun hrv
    · have hcode : readByte (code :: data) 0 = .ok code := rfl
      simp only [onNested, if_neg hempty, hcode, ok_bind, pure_eq_ok, hnil, herr, hint, hstr, harr,
        if_false] at hrun
      exact absurd hrv (not_bad hrun)

theorem onResponse_iff {data : Bytes} (hdata : data.length ≤ kMaxMsg) (suffix : Bytes) (n : Nat)
    (lines : List Line) :
    onResponse (data ++ suffix) data.length = .ok ((n : Int), lines) ↔
      ∃ f rest, data = Field.encode f ++ rest ∧ n = f.encode.length ∧ lines = f.lines := by
  have hmax : kMaxMsg < 2 ^ 31 := by decide
  constructor
  · intro hrun
    obtain ⟨f, rest, hcut, hn, hlines⟩ := recognises_of_onNested _ _ _ (Nat.lt_succ_self _)
      (by omega) (by simp) hrun (Int.natCast_nonneg n)
    obtain ⟨rv, its, hrun', hparsed, -⟩ := onNested_parsed (data.length + 1) (data ++ suffix)
      data.length (Nat.lt_succ_self _) (by omega) (by simp)
    obtain ⟨rfl, rfl⟩ : (n : Int) = rv ∧ lines = its := by
      simpa [onResponse] using hrun.symm.trans hrun'
    have hfit : f.encode.length ≤ data.length := by
      rw [f.length_encode]
      rcases hparsed with hbad | ⟨hgood, hle⟩ <;> omega
    refine ⟨f, data.drop f.encode.length, ?_, by rw [f.length_encode]; omega, hlines⟩
    have htake := congrArg (List.take f.encode.length) hcut
    rw [List.take_append_of_le_length hfit, List.take_left] at htake
    exact (List.take_append_drop _ data).symm.trans (by rw [htake])
  · rintro ⟨f, rest, rfl, rfl, rfl⟩
    rw [List.length_append, f.length_encode] at *
    rw [List.append_assoc]
    exact Field.onNested_encode _ _ _ f (by omega) (by omega) (by omega)

theorem readU32_le32 {data : Bytes} {v : UInt32} (h : data.take 4 = le32 v) :
    readU32 data 0 = .ok v := by
  have := readU32_append [] v (data.drop 4)
  rwa [← h, List.nil_append, List.take_append_drop] at this

theorem readRes_frame {body : Bytes} (hbody : body.length ≤ kMaxMsg) {header pieces : List Bytes}
    (hne : ∀ bs ∈ header ++ pieces, bs ≠ [])
    (hheader : header.flatten = le32 (UInt32.ofNat body.length)) (hpieces : pieces.flatten = body)
    (reads : ReadScript) (rbuf : Buffer (4 + kMaxMsg + 1)) :
    ∃ suffix, readRes (header.map some ++ (pieces.map some ++ reads)) rbuf = (do
      let (rv, lines) ← onResponse (body ++ suffix) body.length
      if 0 < rv ∧ rv ≠ body.length then return (-1, lines ++ [.msg .badResponse])
      else return (rv, lines)) := by
  have hmax : kMaxMsg < 2 ^ 31 := by decide
  have hlen : (UInt32.ofNat body.length).toNat = body.length := toNat_ofNat_of_small (by omega)
  have hread₁ := readFull_pieces (fun bs hbs => hne bs (List.mem_append_left _ hbs))
    (pieces.map some ++ reads)
  have hread₂ := readFull_pieces (fun bs hbs => hne bs (List.mem_append_right header hbs)) reads
  rw [hheader, length_le32] at hread₁
  rw [hpieces] at hread₂
  obtain ⟨b₁, hb₁, hbytes₁⟩ := rbuf.write?_take 0 (le32 (UInt32.ofNat body.length))
    (by rw [length_le32]; omega)
  obtain ⟨b₂, hb₂, hbytes₂⟩ := b₁.write?_eq 4 body (by omega)
  refine ⟨b₁.bytes.drop (4 + body.length), ?_⟩
  have hdrop : b₂.bytes.drop 4 = body ++ b₁.bytes.drop (4 + body.length) := by
    have hlen₁ : (b₁.bytes.take 4).length = 4 := by
      have := b₁.length_eq
      simp only [List.length_take]
      omega
    rw [hbytes₂, List.append_assoc]
    nth_rewrite 1 [← hlen₁]
    rw [List.drop_left]
  have hheader₁ : readU32 b₁.bytes 0 = .ok (UInt32.ofNat body.length) :=
    readU32_le32 (by simpa using hbytes₁)
  simp only [readRes, hread₁, ok_bind, writeBytes, hb₁, hheader₁, hlen,
    if_neg (Nat.not_lt.mpr hbody), hread₂, hb₂, hdrop]

/-- The client reads a value off the front of any bytes exactly when an encoding of its own format
is there, and accepts a reply, whichever way it arrives, exactly when it is one such encoding. -/
theorem client_grammar {data : Bytes} (hdata : data.length ≤ kMaxMsg) :
    (∀ (n : Nat) lines, onResponse data data.length = .ok ((n : Int), lines) ↔
      ∃ f rest, data = Field.encode f ++ rest ∧ n = f.encode.length ∧ lines = f.lines) ∧
    ∀ (header pieces : List Bytes) (reads : ReadScript) (rbuf : Buffer (4 + kMaxMsg + 1)),
      (∀ bs ∈ header ++ pieces, bs ≠ []) →
      header.flatten = le32 (UInt32.ofNat data.length) → pieces.flatten = data →
      ∀ (n : Nat) lines,
        readRes (header.map some ++ (pieces.map some ++ reads)) rbuf = .ok ((n : Int), lines) ↔
          ∃ f, data = Field.encode f ∧ n = data.length ∧ lines = f.lines := by
  have hmax : kMaxMsg < 2 ^ 31 := by decide
  refine ⟨fun n lines => ?_, fun header pieces reads rbuf hne hheader hpieces n lines => ?_⟩
  · rw [← onResponse_iff hdata [] n lines, List.append_nil]
  · obtain ⟨suffix, hread⟩ := readRes_frame hdata hne hheader hpieces reads rbuf
    rw [hread]
    constructor
    · intro hrun
      obtain ⟨rv, its, hparse, hparsed, hzero⟩ := onNested_parsed (data.length + 1) (data ++ suffix)
        data.length (Nat.lt_succ_self _) (by omega) (by simp)
      change onResponse (data ++ suffix) data.length = _ at hparse
      simp only [hparse, ok_bind, pure_eq_ok] at hrun
      split_ifs at hrun with hshort
      · exact absurd (Int.natCast_nonneg n) (not_bad hrun)
      · obtain ⟨rfl, rfl⟩ : rv = n ∧ its = lines := by simpa using hrun
        -- a reply that is accepted was parsed to its end
        have hn : n = data.length := by
          rcases hparsed with hbad | ⟨hgood, hle⟩ <;> omega
        obtain ⟨f, rest, hcut, hlen, hlines⟩ := (onResponse_iff hdata suffix n its).mp hparse
        have hrest : rest = [] := by
          have := congrArg List.length hcut
          rw [List.length_append] at this
          exact List.length_eq_zero_iff.mp (by omega)
        exact ⟨f, by rw [hcut, hrest, List.append_nil], hn, hlines⟩
    · rintro ⟨f, rfl, rfl, rfl⟩
      have hrun := (onResponse_iff hdata suffix _ f.lines).mpr
        ⟨f, [], (List.append_nil _).symm, rfl, rfl⟩
      simp [hrun]

def trailing : Bytes := [serArr, 1, 0, 0, 0, serInt, 7, 0, 0, 0, serNil]

theorem client_grammar_trailing :
    (∃ f rest, trailing = Field.encode f ++ rest ∧ 10 = f.encode.length ∧
      [.arr 1, .int 7] = f.lines) ∧
    ¬ ∃ f, trailing = Field.encode f ∧ 11 = trailing.length ∧ [.arr 1, .int 7] = f.lines := by
  have hdata : trailing.length ≤ kMaxMsg := by decide
  constructor
  · exact ((client_grammar hdata).1 10 [.arr 1, .int 7]).mp (by decide +kernel)
  · rw [← (client_grammar hdata).2 [le32 11] [trailing] [] (.zero _) (by decide) rfl rfl 11
      [.arr 1, .int 7]]
    decide +kernel

end NanoRedis
