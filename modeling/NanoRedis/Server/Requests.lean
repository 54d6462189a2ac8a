import NanoRedis.Server.Defs

/-! The grammar of requests, and `parse_req` as its exact recogniser. -/

namespace NanoRedis
open Wire

def encodeArgs : Command → Bytes
  | [] => []
  | s :: cmd => le32 (UInt32.ofNat s.length) ++ (s ++ encodeArgs cmd)

def encodeReq (cmd : Command) : Bytes := le32 (UInt32.ofNat cmd.length) ++ encodeArgs cmd

theorem length_encodeArgs (cmd : Command) :
    (encodeArgs cmd).length = (cmd.map fun s => 4 + s.length).sum := by
  induction cmd with
  | nil => rfl
  | cons s cmd ih =>
    simp only [encodeArgs, List.length_append, length_le32, ih, List.map_cons, List.sum_cons]
    omega

theorem length_le_encodeArgs (cmd : Command) : 4 * cmd.length ≤ (encodeArgs cmd).length := by
  induction cmd with
  | nil => exact le_rfl
  | cons s cmd ih =>
    simp only [encodeArgs, List.length_append, length_le32, List.length_cons]
    omega

section Reads
variable {data : Bytes} {len : Nat}

theorem readU32_eq (hlen : len ≤ data.length) (pos : Nat) (hpos : pos + 4 ≤ len) :
    ∃ v, readU32 data pos = .ok v ∧
      (data.take len).drop pos = le32 v ++ (data.take len).drop (pos + 4) := by
  have hle : pos + 4 ≤ data.length := hpos.trans hlen
  refine ⟨ofLe32 ((data.drop pos).take 4), by simp only [readU32, slice?, hle, if_true], ?_⟩
  have hfour : ((data.drop pos).take 4).length = 4 := by
    simp only [List.length_take, List.length_drop]
    omega
  have htake : ((data.take len).drop pos).take 4 = (data.drop pos).take 4 := by
    rw [List.drop_take, List.take_take, min_eq_left (by omega)]
  rw [le32_ofLe32 hfour, ← htake, ← List.drop_drop, List.take_append_drop]

theorem readBytes_eq (hlen : len ≤ data.length) (pos n : Nat) (hpos : pos + n ≤ len) :
    ∃ bs, readBytes data pos n = .ok bs ∧ bs.length = n ∧
      (data.take len).drop pos = bs ++ (data.take len).drop (pos + n) := by
  have hle : pos + n ≤ data.length := hpos.trans hlen
  refine ⟨(data.drop pos).take n, by simp only [readBytes, slice?, hle, if_true], ?_, ?_⟩
  · simp only [List.length_take, List.length_drop]
    omega
  · have htake : ((data.take len).drop pos).take n = (data.drop pos).take n := by
      rw [List.drop_take, List.take_take, min_eq_left (by omega)]
    rw [← htake, ← List.drop_drop, List.take_append_drop]

end Reads

theorem encodeArgs_next {sz : UInt32} {tail : Bytes} {args : Command} {n : Nat}
    (hn : args.length = n + 1) (h : le32 sz ++ tail = encodeArgs args) :
    ∃ s rest, args = s :: rest ∧ sz = UInt32.ofNat s.length ∧ tail = s ++ encodeArgs rest := by
  cases args with
  | nil => simp at hn
  | cons s rest =>
    rw [encodeArgs] at h
    obtain ⟨hsz, htail⟩ := le32_append_inj h
    exact ⟨s, rest, rfl, hsz, htail⟩

theorem parseArgs_spec {data : Bytes} {len : Nat} (hlen : len ≤ data.length) (hsmall : len < 2 ^ 31)
    (n pos : Nat) (out : Command) (hpos : pos ≤ len) :
    ∃ r, parseArgs data len n pos out = .ok r ∧ ∀ cmd, r = some cmd ↔
      ∃ args, args.length = n ∧ cmd = out ++ args ∧ (data.take len).drop pos = encodeArgs args := by
  have htake : (data.take len).length = len := by simp [hlen]
  induction n generalizing pos out with
  | zero =>
    refine ⟨_, rfl, fun cmd => ?_⟩
    simp only [List.length_eq_zero_iff, exists_eq_left, List.append_nil, encodeArgs,
      List.drop_eq_nil_iff, htake]
    by_cases hend : pos = len
    · simp [hend, eq_comm]
    · have hlt : ¬ len ≤ pos := by omega
      simp [hend, hlt]
  | succ n ih =>
    rw [parseArgs]
    by_cases hshort : len < pos + 4
    · refine ⟨none, if_pos hshort, fun cmd => iff_of_false (by simp) ?_⟩
      rintro ⟨args, hn, -, hargs⟩
      have hl := congrArg List.length hargs
      have hmin := length_le_encodeArgs args
      simp only [List.length_drop, htake] at hl
      omega
    obtain ⟨sz, hsz, hdrop⟩ := readU32_eq hlen pos (by omega)
    simp only [if_neg hshort, hsz, ok_bind, pure_eq_ok]
    have hnext : ∀ args, args.length = n + 1 → (data.take len).drop pos = encodeArgs args →
        ∃ s rest, args = s :: rest ∧ sz = UInt32.ofNat s.length ∧ s.length ≤ len ∧
          (data.take len).drop (pos + 4) = s ++ encodeArgs rest := by
      intro args hn hargs
      obtain ⟨s, rest, hcons, hszs, htail⟩ := encodeArgs_next hn (hdrop.symm.trans hargs)
      have hl := congrArg List.length htail
      simp only [List.length_drop, htake, List.length_append] at hl
      exact ⟨s, rest, hcons, hszs, by omega, htail⟩
    -- a string that runs past the payload belongs to no encoding
    by_cases hlong : len < pos + 4 + sz.toNat
    · refine ⟨none, if_pos hlong, fun cmd => iff_of_false (by simp) ?_⟩
      rintro ⟨args, hn, -, hargs⟩
      obtain ⟨s, rest, rfl, rfl, hs, hrest⟩ := hnext args hn hargs
      have hl := congrArg List.length hrest
      rw [UInt32.toNat_ofNat', Nat.mod_eq_of_lt (by omega)] at hlong
      simp only [List.length_drop, htake, List.length_append] at hl
      omega
    obtain ⟨s, hs, hslen, hdrop'⟩ := readBytes_eq hlen (pos + 4) sz.toNat (by omega)
    have hsum : (4 + sz).toNat = 4 + sz.toNat := toNat_four_add (by omega)
    have hszs : sz = UInt32.ofNat s.length := by rw [hslen, UInt32.ofNat_toNat]
    simp only [if_neg hlong, hs, ok_bind, hsum, ← Nat.add_assoc]
    obtain ⟨r, hr, hiff⟩ := ih (pos + 4 + sz.toNat) (out ++ [s]) (by omega)
    refine ⟨r, hr, fun cmd => (hiff cmd).trans ⟨?_, ?_⟩⟩
    · rintro ⟨rest, hn, rfl, hrest⟩
      refine ⟨s :: rest, by simp [hn], by simp, ?_⟩
      rw [hdrop, hdrop', hrest, encodeArgs, ← hszs]
    · rintro ⟨args, hn, rfl, hargs⟩
      obtain ⟨s', rest, rfl, hsz', hs', hrest⟩ := hnext args hn hargs
      have hlen' : s'.length = s.length := by
        rw [hslen, hsz', UInt32.toNat_ofNat', Nat.mod_eq_of_lt (by omega)]
      obtain ⟨rfl, hrest'⟩ := List.append_inj (hdrop'.symm.trans hrest) hlen'.symm
      exact ⟨rest, by simpa using hn, by simp, hrest'⟩

theorem parseReq_spec {data : Bytes} {len : Nat} (hlen : len ≤ data.length) (hmax : len ≤ kMaxMsg) :
    ∃ r, parseReq data len = .ok r ∧ ∀ cmd, r = some cmd ↔ data.take len = encodeReq cmd := by
  have hk : kMaxMsg < 2 ^ 31 := by decide
  have htake : (data.take len).length = len := by simp [hlen]
  unfold parseReq
  by_cases hshort : len < 4
  · refine ⟨none, if_pos hshort, fun cmd => iff_of_false (by simp) fun hcmd => ?_⟩
    have hl := congrArg List.length hcmd
    simp only [htake, encodeReq, List.length_append, length_le32] at hl
    omega
  obtain ⟨n, hn, hdrop⟩ := readU32_eq hlen 0 (by omega)
  rw [List.drop_zero, Nat.zero_add] at hdrop
  simp only [if_neg hshort, hn, ok_bind, pure_eq_ok]
  have hcount : ∀ cmd, data.take len = encodeReq cmd →
      n.toNat = cmd.length ∧ 4 * cmd.length ≤ len ∧ (data.take len).drop 4 = encodeArgs cmd := by
    intro cmd hcmd
    have hl := congrArg List.length hcmd
    have hmin := length_le_encodeArgs cmd
    simp only [htake, encodeReq, List.length_append, length_le32] at hl
    rw [hdrop, encodeReq] at hcmd
    obtain ⟨rfl, hargs⟩ := le32_append_inj hcmd
    rw [UInt32.toNat_ofNat', Nat.mod_eq_of_lt (by omega)]
    exact ⟨rfl, by omega, hargs⟩
  by_cases hmany : kMaxMsg < n.toNat
  · refine ⟨none, if_pos hmany, fun cmd => iff_of_false (by simp) fun hcmd => ?_⟩
    obtain ⟨hn', hle, -⟩ := hcount cmd hcmd
    omega
  obtain ⟨r, hr, hiff⟩ := parseArgs_spec hlen (by omega) n.toNat 4 [] (by omega)
  refine ⟨r, by rw [if_neg hmany, hr], fun cmd => (hiff cmd).trans ⟨?_, ?_⟩⟩
  · rintro ⟨args, hlen', rfl, hargs⟩
    rw [hdrop, hargs, encodeReq, hlen', UInt32.ofNat_toNat]
  · intro hcmd
    obtain ⟨hn', -, hargs⟩ := hcount cmd hcmd
    exact ⟨cmd, hn'.symm, by simp, hargs⟩

/-- A payload is accepted when it encodes a request, and then only, whatever bytes lie behind it;
the payload alone suffices, so none of those is read. -/
theorem parse_req_grammar {data : Bytes} (hmax : data.length ≤ kMaxMsg) (rest : Bytes) :
    ∃ r, parseReq data data.length = .ok r ∧ parseReq (data ++ rest) data.length = .ok r ∧
      ∀ cmd, r = some cmd ↔ data = encodeReq cmd := by
  obtain ⟨r, hr, hiff⟩ := parseReq_spec le_rfl hmax
  obtain ⟨r', hr', hiff'⟩ := parseReq_spec
    (show data.length ≤ (data ++ rest).length by rw [List.length_append]; omega) hmax
  rw [List.take_length] at hiff
  rw [List.take_left] at hiff'
  have hsame : r' = r := Option.ext fun cmd => by rw [hiff', hiff]
  exact ⟨r, hr, hsame ▸ hr', hiff⟩

theorem parse_req_grammar_get :
    parseReq (encodeReq [ascii ['g', 'e', 't'], [107]] ++ [255]) 16 =
      .ok (some [ascii ['g', 'e', 't'], [107]]) := by
  have hmax : (encodeReq [ascii ['g', 'e', 't'], [107]]).length ≤ kMaxMsg := by decide
  obtain ⟨r, -, hr, hiff⟩ := parse_req_grammar hmax [255]
  rwa [(hiff _).mpr rfl] at hr

end NanoRedis
