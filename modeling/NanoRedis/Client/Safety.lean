import NanoRedis.Client.Decoder

/-! Safety of `on_response` on any bytes: what lies behind the message does not matter, and
the offset of the array loop stays inside the message at every head of the loop. -/

namespace NanoRedis
open Wire

section Behind
variable {data : Bytes} (rest : Bytes)

theorem slice?_within {pos n : Nat} (h : pos + n ≤ data.length) :
    slice? (data ++ rest) pos n = slice? data pos n := by
  have hlong : pos + n ≤ (data ++ rest).length := by
    rw [List.length_append]
    omega
  rw [slice?, slice?, if_pos h, if_pos hlong, List.drop_append_of_le_length (by omega),
    List.take_append_of_le_length (by rw [List.length_drop]; omega)]

theorem readByte_within {pos : Nat} (h : pos < data.length) :
    readByte (data ++ rest) pos = readByte data pos := by
  simp only [readByte, List.getElem?_append_left h]

theorem readU32_within {pos : Nat} (h : pos + 4 ≤ data.length) :
    readU32 (data ++ rest) pos = readU32 data pos := by
  simp only [readU32, slice?_within rest h]

theorem readBytes_within {pos n : Nat} (h : pos + n ≤ data.length) :
    readBytes (data ++ rest) pos n = readBytes data pos n := by
  simp only [readBytes, slice?_within rest h]

theorem onElements_congr {f g : Nat → Except Fault (Int × List Line)} {size : Nat}
    (h : ∀ pos ≤ size, f pos = g pos) (n : Nat) (parsedBytes : Int) :
    onElements f size n parsedBytes = onElements g size n parsedBytes := by
  induction n generalizing parsedBytes with
  | zero => rfl
  | succ n ih =>
    by_cases hguard : size < sizeT parsedBytes
    · simp only [onElements, if_pos hguard]
    · simp only [onElements, if_neg hguard, h _ (not_lt.mp hguard), ih]

theorem onNested_within (depth : Nat) (data rest : Bytes) :
    onNested depth (data ++ rest) data.length = onNested depth data data.length := by
  induction depth generalizing data with
  | zero => rfl
  | succ depth ih =>
    by_cases hempty : data.length < 1
    · simp only [onNested, if_pos hempty]
    have hcode := readByte_within rest (show 0 < data.length by omega)
    have helement : ∀ n, onElements
        (fun pos => onNested depth ((data ++ rest).drop pos) (data.length - pos)) data.length n 5 =
        onElements (fun pos => onNested depth (data.drop pos) (data.length - pos)) data.length n
          5 := by
      refine fun n => onElements_congr (fun pos hpos => ?_) n 5
      rw [List.drop_append_of_le_length hpos, ← List.length_drop]
      exact ih (data.drop pos)
    obtain ⟨code, hdata⟩ := readByte_of_lt data 0 (by omega)
    simp only [onNested, if_neg hempty, hcode, hdata, ok_bind]
    refine ite_congr rfl (fun _ => rfl) fun _ => ite_congr rfl (fun _ => ?err) fun _ =>
      ite_congr rfl (fun _ => ?int) fun _ => ite_congr rfl (fun _ => ?str) fun _ =>
      ite_congr rfl (fun _ => ?arr) fun _ => rfl
    case err =>
      refine ite_congr rfl (fun _ => rfl) fun hshort => ?_
      rw [readU32_within rest (by omega), readU32_within rest (by omega)]
      obtain ⟨errCode, herrCode⟩ := readU32_of_le data 1 (by omega)
      obtain ⟨msgLen, hmsgLen⟩ := readU32_of_le data (1 + 4) (by omega)
      simp only [herrCode, hmsgLen, ok_bind]
      refine ite_congr rfl (fun _ => rfl) fun hlong => ?_
      rw [readBytes_within rest (by omega)]
    case int =>
      refine ite_congr rfl (fun _ => rfl) fun hshort => ?_
      rw [readU32_within rest (by omega)]
    case str =>
      refine ite_congr rfl (fun _ => rfl) fun hshort => ?_
      rw [readU32_within rest (by omega)]
      obtain ⟨msgLen, hmsgLen⟩ := readU32_of_le data 1 (by omega)
      simp only [hmsgLen, ok_bind]
      refine ite_congr rfl (fun _ => rfl) fun hlong => ?_
      rw [readBytes_within rest (by omega)]
    case arr =>
      refine ite_congr rfl (fun _ => rfl) fun hshort => ?_
      rw [readU32_within rest (by omega)]
      simp only [helement]

end Behind

/-! ## The heads of the array loop -/

inductive Rounds (onElement : Nat → Except Fault (Int × List Line)) (size : Nat)
    (s : Nat × Int) : Nat × Int → Prop
  | start : Rounds onElement size s s
  | round {left : Nat} {parsedBytes passBytes : Int} {lines : List Line} :
      Rounds onElement size s (left + 1, parsedBytes) → ¬ size < sizeT parsedBytes →
      onElement (sizeT parsedBytes) = .ok (passBytes, lines) → ¬ passBytes < 0 →
      Rounds onElement size s (left, int32 (parsedBytes + passBytes))

structure InLoop (depth : Nat) (data : Bytes) (size left : Nat) (parsedBytes : Int) : Prop where
  code : readByte data 0 = .ok serArr
  header : ¬ size - 1 < 4
  rounds : ∃ arrLen, readU32 data 1 = .ok arrLen ∧
    Rounds (fun pos => onNested depth (data.drop pos) (size - pos)) size (arrLen.toNat, 5)
      (left, parsedBytes)

/-- A call on `data` or one nested in it is at the head of its array loop, with a message of
`limit` bytes of which `parsedBytes` are parsed. -/
inductive AtHead (limit : Nat) (parsedBytes : Int) : Nat → Bytes → Nat → Prop
  | own {depth : Nat} {data : Bytes} {left : Nat} :
      InLoop depth data limit left parsedBytes → AtHead limit parsedBytes (depth + 1) data limit
  | nested {depth : Nat} {data : Bytes} {size left : Nat} {outer : Int} :
      InLoop depth data size (left + 1) outer → ¬ size < sizeT outer →
      AtHead limit parsedBytes depth (data.drop (sizeT outer)) (size - sizeT outer) →
      AtHead limit parsedBytes (depth + 1) data size

theorem Rounds.within {onElement : Nat → Except Fault (Int × List Line)} {first size : Nat}
    (hsize : size < 2 ^ 31)
    (hon : ∀ pos, first ≤ pos → pos ≤ size → ∃ rv lines, onElement pos = .ok (rv, lines) ∧
      Parsed 0 (size - pos) rv lines)
    {n : Nat} (hfirst : first ≤ size) {s : Nat × Int}
    (h : Rounds onElement size (n, first) s) : (first : Int) ≤ s.2 ∧ s.2 ≤ size := by
  induction h with
  | start => exact ⟨le_rfl, by omega⟩
  | @round left parsedBytes passBytes lines hrounds hguard hrun hpass ih =>
    obtain ⟨hlo, hhi⟩ := ih
    have hpos := sizeT_of_small (x := parsedBytes) (by omega) (by omega)
    obtain ⟨rv, lines', hrun', hparsed⟩ := hon (sizeT parsedBytes) (by omega) (by omega)
    obtain ⟨rfl, rfl⟩ : rv = passBytes ∧ lines' = lines := by simpa [hrun'] using hrun
    rcases hparsed with rfl | ⟨rfl, hle⟩
    · exact absurd (by decide) hpass
    · dsimp only
      rw [int32_of_small (by omega) (by omega)]
      omega

theorem InLoop.within {depth size left : Nat} {data : Bytes} {parsedBytes : Int}
    (h : InLoop depth data size left parsedBytes) (hdepth : size ≤ depth) (hsize : size < 2 ^ 31)
    (hdata : size ≤ data.length) : 5 ≤ parsedBytes ∧ parsedBytes ≤ size := by
  obtain ⟨arrLen, -, hrounds⟩ := h.rounds
  have hheader := h.header
  have helement : ∀ pos, 5 ≤ pos → pos ≤ size → ∃ rv lines,
      onNested depth (data.drop pos) (size - pos) = .ok (rv, lines) ∧
        Parsed 0 (size - pos) rv lines := by
    intro pos hpos hle
    obtain ⟨rv, lines, hrun, hparsed, -⟩ := onNested_parsed depth (data.drop pos) (size - pos)
      (by omega) (by omega) (by rw [List.length_drop]; omega)
    exact ⟨rv, lines, hrun, hparsed⟩
  exact Rounds.within hsize helement (by omega) hrounds

theorem AtHead.within {limit depth size : Nat} {data : Bytes} {parsedBytes : Int}
    (h : AtHead limit parsedBytes depth data size) (hdepth : size < depth) (hsize : size < 2 ^ 31)
    (hdata : size ≤ data.length) : 0 ≤ parsedBytes ∧ parsedBytes ≤ limit := by
  induction h with
  | own hloop =>
    obtain ⟨hlo, hhi⟩ := hloop.within (by omega) hsize hdata
    exact ⟨by omega, hhi⟩
  | @nested depth data size left outer hloop hguard hinner ih =>
    obtain ⟨hlo, hhi⟩ := hloop.within (by omega) hsize hdata
    have hpos := sizeT_of_small (x := outer) (by omega) (by omega)
    exact ih (by omega) (by omega) (by rw [List.length_drop]; omega)

/-- On every message within the limit `on_response` comes to an end, depends on nothing
behind the message, and keeps the offset of every array loop inside it. -/
theorem onResponse_safe {data : Bytes} (h : data.length ≤ kMaxMsg) :
    (∃ rv lines, onResponse data data.length = .ok (rv, lines) ∧
      (rv = -1 ∨ 1 ≤ rv ∧ rv ≤ data.length)) ∧
    (∀ rest, onResponse (data ++ rest) data.length = onResponse data data.length) ∧
    (∀ limit parsedBytes, AtHead limit parsedBytes (data.length + 1) data data.length →
      0 ≤ parsedBytes ∧ parsedBytes ≤ limit) := by
  have hsize : data.length < 2 ^ 31 := lt_of_le_of_lt h (by decide)
  refine ⟨?_, onNested_within _ data, fun limit parsedBytes hhead =>
    hhead.within (Nat.lt_succ_self _) hsize le_rfl⟩
  obtain ⟨rv, lines, hrun, hparsed, hne⟩ :=
    onNested_parsed _ data data.length (Nat.lt_succ_self _) hsize le_rfl
  refine ⟨rv, lines, hrun, ?_⟩
  rcases hparsed with rfl | ⟨rfl, hle⟩
  · exact .inl rfl
  · exact .inr (by omega)

theorem onResponse_safe_nested :
    ∃ rv lines, onResponse [4, 0, 202, 154, 59, 4, 0, 0, 0, 0, 0, 0] 12 = .ok (rv, lines) ∧
      (rv = -1 ∨ 1 ≤ rv ∧ rv ≤ 12) :=
  (@onResponse_safe [4, 0, 202, 154, 59, 4, 0, 0, 0, 0, 0, 0] (by decide)).1

end NanoRedis
