import NanoRedis.Client.Defs

/-! What `on_response` does on any bytes: it reads inside the message, comes to an end, and
the count it returns is the space that the printed fields take. -/

namespace NanoRedis
open Wire

theorem int32_of_small {x : Int} (hlo : 0 ≤ x) (hhi : x < 2 ^ 31) : int32 x = x := by
  unfold int32
  rw [Int.bmod_eq_of_le] <;> omega

theorem sizeT_of_small {x : Int} (hlo : 0 ≤ x) (hhi : x < 2 ^ 31) : (sizeT x : Int) = x := by
  unfold sizeT
  omega

def Line.width : Line → Nat
  | .nil => 1
  | .err _ text => 9 + text.length
  | .int _ => 5
  | .str _ val => 5 + val.length
  | .arr _ => 5
  | .msg _ => 0

def consumed (lines : List Line) : Nat := (lines.map Line.width).sum

@[simp] theorem consumed_nil : consumed [] = 0 := rfl

@[simp] theorem consumed_cons (l : Line) (lines : List Line) :
    consumed (l :: lines) = l.width + consumed lines := rfl

@[simp] theorem consumed_append (xs ys : List Line) :
    consumed (xs ++ ys) = consumed xs + consumed ys := by
  simp [consumed]

theorem readByte_of_lt (data : Bytes) (pos : Nat) (h : pos < data.length) :
    ∃ b, readByte data pos = .ok b := by
  simp only [readByte, List.getElem?_eq_getElem h]
  exact ⟨_, rfl⟩

theorem readBytes_of_le (data : Bytes) (pos n : Nat) (h : pos + n ≤ data.length) :
    ∃ bs, readBytes data pos n = .ok bs ∧ bs.length = n := by
  refine ⟨(data.drop pos).take n, by simp only [readBytes, slice?, h, if_true], ?_⟩
  simp only [List.length_take, List.length_drop]
  omega

theorem readU32_of_le (data : Bytes) (pos : Nat) (h : pos + 4 ≤ data.length) :
    ∃ v, readU32 data pos = .ok v := by
  simp only [readU32, slice?, h, if_true]
  exact ⟨_, rfl⟩

def Parsed (start size : Nat) (rv : Int) (lines : List Line) : Prop :=
  rv = -1 ∨ rv = (start + consumed lines : Nat) ∧ start + consumed lines ≤ size

theorem onElements_parsed {onElement : Nat → Except Fault (Int × List Line)} {first size : Nat}
    (hsize : size < 2 ^ 31)
    (hon : ∀ pos, first ≤ pos → pos ≤ size → ∃ rv lines, onElement pos = .ok (rv, lines) ∧
      Parsed 0 (size - pos) rv lines)
    (n start : Nat) (hfirst : first ≤ start) (hstart : start ≤ size) :
    ∃ rv lines,
      onElements onElement size n start = .ok (rv, lines) ∧ Parsed start size rv lines := by
  induction n generalizing start with
  | zero => exact ⟨_, _, rfl, .inr ⟨by simp, by simpa using hstart⟩⟩
  | succ n ih =>
    have hpos : sizeT start = start := by
      have := sizeT_of_small (x := start) (by omega) (by omega)
      omega
    obtain ⟨pass, lines, hrun, hparsed⟩ := hon start hfirst hstart
    simp only [onElements, hpos, if_neg (Nat.not_lt.mpr hstart), hrun, ok_bind, pure_eq_ok]
    rcases hparsed with rfl | ⟨rfl, hle⟩
    · exact ⟨_, _, if_pos (by decide), .inl rfl⟩
    · rw [Nat.zero_add] at hle ⊢
      -- the running count stays below the size and never wraps
      have hnext : int32 (start + (consumed lines : Nat)) = (start + consumed lines : Nat) := by
        rw [int32_of_small (by omega) (by omega), Nat.cast_add]
      obtain ⟨rv, rest, hrest, hparsed⟩ := ih (start + consumed lines) (by omega) (by omega)
      simp only [if_neg (show ¬ ((consumed lines : Nat) : Int) < 0 by omega), hnext, hrest, ok_bind]
      refine ⟨_, _, rfl, ?_⟩
      rwa [Parsed, consumed_append, ← Nat.add_assoc]

def Ends (depth : Nat) (data : Bytes) (size : Nat) : Prop :=
  ∃ rv lines, onNested depth data size = .ok (rv, lines) ∧ Parsed 0 size rv lines ∧ rv ≠ 0

section Shapes
variable {depth size : Nat} {data : Bytes}

theorem parsed_bad : Parsed 0 size (-1) [.msg .badResponse] := .inl rfl

theorem ends_nil (hempty : ¬ size < 1) (hcode : readByte data 0 = .ok serNil) :
    Ends (depth + 1) data size := by
  unfold Ends
  simp only [onNested, if_neg hempty, hcode, ok_bind, pure_eq_ok, if_true]
  exact ⟨_, _, rfl, .inr ⟨rfl, by simp [Line.width]; omega⟩, by simp⟩

theorem ends_err (hempty : ¬ size < 1) (hcode : readByte data 0 = .ok serErr)
    (hsize : size < 2 ^ 31) (hdata : size ≤ data.length) : Ends (depth + 1) data size := by
  have hcodes : ¬ serErr = serNil := by decide
  unfold Ends
  simp only [onNested, if_neg hempty, hcode, ok_bind, pure_eq_ok, hcodes, if_false, if_true]
  by_cases hshort : size - 1 < 8
  · exact ⟨_, _, if_pos hshort, parsed_bad, by simp⟩
  obtain ⟨errCode, herrCode⟩ := readU32_of_le data 1 (by omega)
  obtain ⟨msgLen, hmsgLen⟩ := readU32_of_le data (1 + 4) (by omega)
  simp only [if_neg hshort, herrCode, hmsgLen, ok_bind]
  by_cases hlong : size - 9 < msgLen.toNat
  · exact ⟨_, _, if_pos hlong, parsed_bad, by simp⟩
  obtain ⟨msg, hmsg, hlen⟩ := readBytes_of_le data (1 + 4 + 4) msgLen.toNat (by omega)
  have hrv : int32 (9 + msgLen.toNat) = 9 + msgLen.toNat := int32_of_small (by omega) (by omega)
  simp only [if_neg hlong, hmsg, ok_bind, hrv]
  exact ⟨_, _, rfl, .inr ⟨by simp [Line.width, hlen], by simp [Line.width, hlen]; omega⟩, by omega⟩

theorem ends_int (hempty : ¬ size < 1) (hcode : readByte data 0 = .ok serInt)
    (hdata : size ≤ data.length) :
    Ends (depth + 1) data size := by
  have hcodes : ¬ serInt = serNil ∧ ¬ serInt = serErr := by decide
  unfold Ends
  simp only [onNested, if_neg hempty, hcode, ok_bind, pure_eq_ok, hcodes, if_false, if_true]
  by_cases hshort : size - 1 < 4
  · exact ⟨_, _, if_pos hshort, parsed_bad, by simp⟩
  obtain ⟨val, hval⟩ := readU32_of_le data 1 (by omega)
  simp only [if_neg hshort, hval, ok_bind]
  exact ⟨_, _, rfl, .inr ⟨rfl, by simp [Line.width]; omega⟩, by simp⟩

theorem ends_str (hempty : ¬ size < 1) (hcode : readByte data 0 = .ok serStr)
    (hsize : size < 2 ^ 31) (hdata : size ≤ data.length) : Ends (depth + 1) data size := by
  have hcodes : ¬ serStr = serNil ∧ ¬ serStr = serErr ∧ ¬ serStr = serInt := by decide
  unfold Ends
  simp only [onNested, if_neg hempty, hcode, ok_bind, pure_eq_ok, hcodes, if_false, if_true]
  by_cases hshort : size - 1 < 4
  · exact ⟨_, _, if_pos hshort, parsed_bad, by simp⟩
  obtain ⟨msgLen, hmsgLen⟩ := readU32_of_le data 1 (by omega)
  simp only [if_neg hshort, hmsgLen, ok_bind]
  by_cases hlong : size - 5 < msgLen.toNat
  · exact ⟨_, _, if_pos hlong, parsed_bad, by simp⟩
  obtain ⟨val, hval, hlen⟩ := readBytes_of_le data 5 msgLen.toNat (by omega)
  have hrv : int32 (5 + msgLen.toNat) = 5 + msgLen.toNat := int32_of_small (by omega) (by omega)
  simp only [if_neg hlong, hval, ok_bind, hrv]
  exact ⟨_, _, rfl, .inr ⟨by simp [Line.width, hlen], by simp [Line.width, hlen]; omega⟩, by omega⟩

theorem ends_arr (hempty : ¬ size < 1) (hcode : readByte data 0 = .ok serArr)
    (hsize : size < 2 ^ 31) (hdata : size ≤ data.length)
    (hon : ∀ pos, 5 ≤ pos → pos ≤ size → Ends depth (data.drop pos) (size - pos)) :
    Ends (depth + 1) data size := by
  have hcodes : ¬ serArr = serNil ∧ ¬ serArr = serErr ∧ ¬ serArr = serInt ∧ ¬ serArr = serStr :=
    by decide
  unfold Ends
  simp only [onNested, if_neg hempty, hcode, ok_bind, pure_eq_ok, hcodes, if_false, if_true]
  by_cases hshort : size - 1 < 4
  · exact ⟨_, _, if_pos hshort, parsed_bad, by simp⟩
  obtain ⟨arrLen, harrLen⟩ := readU32_of_le data 1 (by omega)
  have helement : ∀ pos, 5 ≤ pos → pos ≤ size → ∃ rv lines,
      onNested depth (data.drop pos) (size - pos) = .ok (rv, lines) ∧
        Parsed 0 (size - pos) rv lines := by
    intro pos hpos hle
    obtain ⟨rv, lines, hrun, hparsed, -⟩ := hon pos hpos hle
    exact ⟨rv, lines, hrun, hparsed⟩
  obtain ⟨rv, lines, hrun, hparsed⟩ :=
    onElements_parsed hsize helement arrLen.toNat 5 le_rfl (by omega)
  simp only [Nat.cast_ofNat] at hrun
  simp only [if_neg hshort, harrLen, ok_bind, hrun]
  refine ⟨_, _, rfl, ?_, by rcases hparsed with rfl | ⟨rfl, -⟩ <;> omega⟩
  simpa only [Parsed, consumed_cons, Line.width, Nat.zero_add] using hparsed

end Shapes

/-- A nested reply is shorter than the array around it, so the bound on the nesting is never met. -/
theorem onNested_parsed (depth : Nat) (data : Bytes) (size : Nat) (hdepth : size < depth)
    (hsize : size < 2 ^ 31) (hdata : size ≤ data.length) : Ends depth data size := by
  induction depth generalizing data size with
  | zero => omega
  | succ depth ih =>
    by_cases hempty : size < 1
    · exact ⟨_, _, by rw [onNested, if_pos hempty], parsed_bad, by simp⟩
    obtain ⟨code, hcode⟩ := readByte_of_lt data 0 (by omega)
    by_cases hnil : code = serNil
    · exact ends_nil hempty (hnil ▸ hcode)
    by_cases herr : code = serErr
    · exact ends_err hempty (herr ▸ hcode) hsize hdata
    by_cases hint : code = serInt
    · exact ends_int hempty (hint ▸ hcode) hdata
    by_cases hstr : code = serStr
    · exact ends_str hempty (hstr ▸ hcode) hsize hdata
    by_cases harr : code = serArr
    · apply ends_arr hempty (harr ▸ hcode) hsize hdata
      intro pos hpos hle
      exact ih (data.drop pos) (size - pos) (by omega) (by omega) (by rw [List.length_drop]; omega)
    · unfold Ends
      simp only [onNested, if_neg hempty, hcode, ok_bind, pure_eq_ok, hnil, herr, hint, hstr, harr,
        if_false]
      exact ⟨_, _, rfl, parsed_bad, by simp⟩

end NanoRedis
