import NanoRedis.Server.Flush
import NanoRedis.Server.Requests

/-! What `try_one_request` does with the front of the receive buffer. -/

namespace NanoRedis
open Wire Exec

def frame (body : Bytes) : Bytes := le32 (UInt32.ofNat body.length) ++ body

def announced (data : Bytes) : Nat := (ofLe32 (data.take 4)).toNat

def HoldsFrame (data : Bytes) : Prop := 4 ≤ data.length ∧ announced data ≤ data.length - 4

instance (data : Bytes) : Decidable (HoldsFrame data) :=
  inferInstanceAs (Decidable (4 ≤ data.length ∧ announced data ≤ data.length - 4))

/-- The front of `data` announces too long a frame, or is one that does not parse. -/
def Malformed (data : Bytes) : Prop :=
  4 ≤ data.length ∧ (kMaxMsg < announced data ∨
    announced data ≤ data.length - 4 ∧ ∀ cmd, (data.drop 4).take (announced data) ≠ encodeReq cmd)

theorem announced_frame (body rest : Bytes) (h : body.length < 2 ^ 31) :
    announced (frame body ++ rest) = body.length := by
  rw [announced, frame, List.append_assoc, take_le32_append, ofLe32_le32, UInt32.toNat_ofNat',
    Nat.mod_eq_of_lt (by omega)]

theorem eq_frame {data : Bytes} (h : HoldsFrame data) :
    data = frame ((data.drop 4).take (announced data)) ++ data.drop (4 + announced data) := by
  obtain ⟨hfour, hfit⟩ := h
  have hlen : ((data.drop 4).take (announced data)).length = announced data := by
    simp only [List.length_take, List.length_drop]
    omega
  have htake : (data.take 4).length = 4 := by simp [hfour]
  rw [frame, hlen, announced, UInt32.ofNat_toNat, le32_ofLe32 htake, ← announced,
    List.append_assoc, ← List.drop_drop, List.take_append_drop, List.take_append_drop]

theorem front_cases (data : Bytes) :
    (¬ HoldsFrame data ∧ ¬ Malformed data) ∨ Malformed data ∨
      ∃ cmd rest, data = frame (encodeReq cmd) ++ rest ∧ (encodeReq cmd).length ≤ kMaxMsg := by
  by_cases hbad : Malformed data
  · exact .inr (.inl hbad)
  by_cases hholds : HoldsFrame data
  · have hgood := not_and.mp hbad hholds.1
    rw [not_or, not_and] at hgood
    obtain ⟨hmax, hparse⟩ := hgood
    obtain ⟨cmd, hcmd⟩ : ∃ cmd, (data.drop 4).take (announced data) = encodeReq cmd := by
      simpa using hparse hholds.2
    refine .inr (.inr ⟨cmd, data.drop (4 + announced data), ?_, ?_⟩)
    · rw [← hcmd]
      exact eq_frame hholds
    · have hlen := hholds.2
      rw [← hcmd, List.length_take, List.length_drop]
      omega
  · exact .inl ⟨hholds, hbad⟩

theorem malformed_iff (data : Bytes) :
    Malformed data ↔ 4 ≤ data.length ∧ (kMaxMsg < announced data ∨
      announced data ≤ data.length - 4 ∧ parseReq (data.drop 4) (announced data) = .ok none) := by
  unfold Malformed
  refine and_congr_right fun hfour => ?_
  by_cases hmax : kMaxMsg < announced data
  · simp only [hmax, true_or]
  refine or_congr_right (and_congr_right fun hfit => ?_)
  have hwhole : announced data ≤ (data.drop 4).length := by rwa [List.length_drop]
  obtain ⟨r, hr, hiff⟩ := parseReq_spec hwhole (not_lt.mp hmax)
  rw [hr, Except.ok.injEq, Option.eq_none_iff_forall_ne_some]
  exact forall_congr' fun cmd => not_congr (hiff cmd).symm

instance (data : Bytes) : Decidable (Malformed data) := decidable_of_iff _ (malformed_iff data).symm

theorem length_input {c : Conn} (h : c.rbufSize ≤ 4 + kMaxMsg) : c.input.length = c.rbufSize := by
  have := c.rbuf.length_eq
  simp only [Conn.input, List.length_take]
  omega

theorem readU32_input {c : Conn} (h : c.rbufSize ≤ 4 + kMaxMsg) (hfour : ¬ c.rbufSize < 4) :
    ∃ len : UInt32, readU32 c.rbuf.bytes 0 = .ok len ∧ len.toNat = announced c.input := by
  have hlen := c.rbuf.length_eq
  obtain ⟨len, hread, hdrop⟩ := readU32_eq (show c.rbufSize ≤ c.rbuf.bytes.length by omega) 0
    (by omega)
  refine ⟨len, hread, ?_⟩
  rw [List.drop_zero] at hdrop
  unfold announced
  rw [Conn.input, hdrop, take_le32_append, ofLe32_le32]

theorem parseReq_input {c : Conn} (h : c.rbufSize ≤ 4 + kMaxMsg) (hfour : 4 ≤ c.rbufSize)
    (len : Nat) (hlen : len ≤ c.rbufSize - 4) :
    ∃ r, parseReq (c.rbuf.bytes.drop 4) len = .ok r ∧
      ∀ cmd, r = some cmd ↔ (c.input.drop 4).take len = encodeReq cmd := by
  have hcap := c.rbuf.length_eq
  have htake : (c.rbuf.bytes.drop 4).take len = (c.input.drop 4).take len := by
    unfold Conn.input
    rw [List.drop_take, List.take_take, min_eq_left hlen]
  obtain ⟨r, hr, hiff⟩ := parseReq_spec
    (show len ≤ (c.rbuf.bytes.drop 4).length by rw [List.length_drop]; omega)
    (by omega)
  exact ⟨r, hr, fun cmd => by rw [hiff, htake]⟩

variable {w : World}

theorem tryOneRequest_short (hsize : w.conn.rbufSize ≤ 4 + kMaxMsg)
    (hshort : ¬ HoldsFrame w.conn.input) (hbad : ¬ Malformed w.conn.input) :
    (tryOneRequest : Exec Bool) w = .ok false w := by
  apply eq_ok_of_wp
  have hlen := length_input hsize
  unfold tryOneRequest
  simp only [oneRound_exec, wp_bind, wp_getWorld]
  by_cases hfour : w.conn.rbufSize < 4
  · simp [hfour]
  obtain ⟨len, hread, hann⟩ := readU32_input hsize hfour
  have hmax : ¬ kMaxMsg < len.toNat := fun hmax => hbad ⟨by omega, .inl (by omega)⟩
  have hpart : w.conn.rbufSize - 4 < len.toNat := by
    by_contra hpart
    exact hshort ⟨by omega, by omega⟩
  simp [hfour, hread, hmax, wp_subSize (not_lt.mp hfour), hpart]

theorem tryOneRequest_bad (hsize : w.conn.rbufSize ≤ 4 + kMaxMsg) (hbad : Malformed w.conn.input) :
    (tryOneRequest : Exec Bool) w =
      .ok false { w with conn := { w.conn with state := .stateEnd } } := by
  apply eq_ok_of_wp
  have hlen := length_input hsize
  obtain ⟨hfour, hbad⟩ := hbad
  have hfour : ¬ w.conn.rbufSize < 4 := by omega
  obtain ⟨len, hread, hann⟩ := readU32_input hsize hfour
  rw [← hann] at hbad
  unfold tryOneRequest
  simp only [oneRound_exec, wp_bind, wp_getWorld, if_neg hfour, hread, wp_liftFault_ok]
  rcases hbad with hmax | ⟨hfit, hparse⟩
  · simp only [if_pos hmax, wp_bind, wp_setState, wp_pure, and_self]
  · have hmax : ¬ kMaxMsg < len.toNat := by omega
    have hpart : ¬ w.conn.rbufSize - 4 < len.toNat := by omega
    obtain ⟨r, hr, hiff⟩ := parseReq_input hsize (not_lt.mp hfour) len.toNat (by omega)
    obtain rfl : r = none := by
      cases r with
      | none => rfl
      | some cmd => exact absurd ((hiff cmd).mp rfl) (hparse cmd)
    simp only [if_neg hmax, wp_bind, wp_subSize (not_lt.mp hfour), if_neg hpart, hr,
      wp_liftFault_ok, wp_setState, wp_pure, and_self]

theorem shiftDown_input {c : Conn} (h : c.rbufSize ≤ 4 + kMaxMsg) {n : Nat} (hn : n ≤ c.rbufSize) :
    ∃ rbuf, (if c.rbufSize - n ≠ 0 then shiftDown c.rbuf n (c.rbufSize - n) else .ok c.rbuf) =
      .ok rbuf ∧
      rbuf.bytes.take (c.rbufSize - n) = c.input.drop n := by
  have hcap := c.rbuf.length_eq
  by_cases hrest : c.rbufSize - n = 0
  · have hdrop : c.input.drop n = [] := List.drop_eq_nil_of_le (by rw [length_input h]; omega)
    exact ⟨c.rbuf, if_neg (not_not.mpr hrest), by rw [hrest, hdrop, List.take_zero]⟩
  · obtain ⟨rest, hread, hlen, hdrop⟩ :=
      readBytes_eq (show c.rbufSize ≤ c.rbuf.bytes.length by omega) n
      (c.rbufSize - n) (by omega)
    have hinput : c.input.drop n = rest := by
      have hend : (c.rbuf.bytes.take c.rbufSize).drop (n + (c.rbufSize - n)) = [] :=
        List.drop_eq_nil_of_le (by rw [List.length_take]; omega)
      unfold Conn.input
      rw [hdrop, hend, List.append_nil]
    obtain ⟨rbuf, hwrite, htake⟩ := writeBytes_take c.rbuf 0 rest (by omega)
    refine ⟨rbuf, by simp only [ne_eq, hrest, not_false_eq_true, if_true, shiftDown, hread,
      ok_bind, hwrite], ?_⟩
    rw [hinput, ← hlen]
    simpa using htake

theorem length_fitReply (out : Bytes) : 4 + (fitReply out).length ≤ kMaxMsg := by
  unfold fitReply
  split_ifs with h
  · decide
  · omega

structure Packed (c c' : Conn) (reply rest : Bytes) : Prop where
  fd : c'.fd = c.fd
  state : c'.state = .stateRes
  rbufSize : c'.rbufSize = rest.length
  input : c'.input = rest
  wbufSent : c'.wbufSent = c.wbufSent
  wbufSize : c'.wbufSize = 4 + reply.length
  reply : c'.wbuf.bytes.take (4 + reply.length) = frame reply

theorem Packed.sending {c c' : Conn} {reply rest : Bytes} (h : Packed c c' reply rest)
    (hidle : c.wbufSent = 0) (hfit : 4 + reply.length ≤ kMaxMsg) : Sending c' :=
  ⟨h.state, by rw [h.wbufSent, h.wbufSize]; omega, by rw [h.wbufSize]; omega⟩

theorem Packed.pending {c c' : Conn} {reply rest : Bytes} (h : Packed c c' reply rest)
    (hidle : c.wbufSent = 0) :
    c'.pending = frame reply := by
  unfold Conn.pending
  rw [h.wbufSent, h.wbufSize, hidle, List.drop_zero, Nat.sub_zero, h.reply]

theorem request_front (hsize : w.conn.rbufSize ≤ 4 + kMaxMsg) {cmd : Command} {rest : Bytes}
    (hinput : w.conn.input = frame (encodeReq cmd) ++ rest)
    (hmax : (encodeReq cmd).length ≤ kMaxMsg) :
    ∃ len : UInt32, readU32 w.conn.rbuf.bytes 0 = .ok len ∧ len.toNat = (encodeReq cmd).length ∧
      4 + len.toNat + rest.length = w.conn.rbufSize ∧
        parseReq (w.conn.rbuf.bytes.drop 4) len.toNat = .ok (some cmd) := by
  have hk : kMaxMsg < 2 ^ 31 := by decide
  have hlen := length_input hsize
  have hann : announced w.conn.input = (encodeReq cmd).length := by
    rw [hinput, announced_frame _ _ (by omega)]
  have hwhole : 4 + (encodeReq cmd).length + rest.length = w.conn.rbufSize := by
    rw [← hlen, hinput, frame]
    simp only [List.length_append, length_le32]
  have hfour : ¬ w.conn.rbufSize < 4 := by omega
  obtain ⟨len, hread, hlen'⟩ := readU32_input hsize hfour
  rw [hann] at hlen'
  obtain ⟨r, hr, hiff⟩ := parseReq_input hsize (not_lt.mp hfour) len.toNat (by omega)
  obtain rfl : r = some cmd := by
    rw [hiff, hlen', hinput, frame, List.append_assoc, drop_le32_append, List.take_left]
  exact ⟨len, hread, hlen', by omega, hr⟩

theorem packReply_ok (wbuf : Buffer (4 + kMaxMsg)) {out : Bytes} (hfit : 4 + out.length ≤ kMaxMsg) :
    (4 + UInt32.ofNat out.length).toNat = 4 + out.length ∧
      ∃ wbuf₁ wbuf₂, writeBytes wbuf 0 (le32 (UInt32.ofNat out.length)) = .ok wbuf₁ ∧
        writeBytes wbuf₁ 4 out = .ok wbuf₂ ∧ wbuf₂.bytes.take (4 + out.length) = frame out := by
  have hk : kMaxMsg < 2 ^ 31 := by decide
  have hout : (UInt32.ofNat out.length).toNat = out.length := toNat_ofNat_of_small (by omega)
  obtain ⟨wbuf₁, hwrite₁, htake₁⟩ :=
    writeBytes_take wbuf 0 (le32 (UInt32.ofNat out.length)) (by rw [length_le32]; omega)
  obtain ⟨wbuf₂, hwrite₂, htake₂⟩ := writeBytes_take wbuf₁ 4 out (by omega)
  have htake₁ : wbuf₁.bytes.take 4 = le32 (UInt32.ofNat out.length) := by simpa using htake₁
  exact ⟨by rw [toNat_four_add (by omega), hout], wbuf₁, wbuf₂, hwrite₁, hwrite₂,
    by rw [htake₂, htake₁, frame]⟩

theorem tryOneRequest_request (hsize : w.conn.rbufSize ≤ 4 + kMaxMsg) {cmd : Command} {rest : Bytes}
    (hinput : w.conn.input = frame (encodeReq cmd) ++ rest)
    (hmax : (encodeReq cmd).length ≤ kMaxMsg) :
    match doRequest cmd [] w.store with
    | .error f => (tryOneRequest : Exec Bool) w = .error (.request f) w
    | .ok (out, store) => ∃ conn, Packed w.conn conn (fitReply out) rest ∧
      ∀ Q E, wp tryOneRequest Q E w ↔
        wp stateRes (fun _ w' => Q (w'.conn.state == .stateReq) w') E { w with
          conn := conn, store := store, interest := .epollout,
          served := w.served ++ [⟨cmd, fitReply out⟩] } := by
  have hk : kMaxMsg < 2 ^ 31 := by decide
  obtain ⟨len, hread, hlen, hwhole, hparse⟩ := request_front hsize hinput hmax
  have hfour : ¬ w.conn.rbufSize < 4 := by omega
  have hlong : ¬ kMaxMsg < len.toNat := by omega
  have hpart : ¬ w.conn.rbufSize - 4 < len.toNat := by omega
  have hsum : (4 + len).toNat = 4 + len.toNat := toNat_four_add (by omega)
  cases hrun : doRequest cmd [] w.store with
  | error f =>
    apply eq_error_of_wp
    unfold tryOneRequest
    simp only [oneRound_exec, wp_bind, wp_getWorld, if_neg hfour, hread, wp_liftFault_ok,
      if_neg hlong, wp_subSize (not_lt.mp hfour), if_neg hpart, hparse, runRequest, act_exec,
      wp_get, hrun, wp_throw, and_self]
  | ok res =>
    obtain ⟨out, store⟩ := res
    obtain ⟨hwlen, wbuf₁, wbuf, hwrite₁, hwrite₂, hreply⟩ :=
      packReply_ok w.conn.wbuf (length_fitReply out)
    obtain ⟨rbuf, hshift, hrest⟩ := shiftDown_input hsize (n := 4 + len.toNat) (by omega)
    -- the bytes behind the frame move to the front
    have hremain : w.conn.rbufSize - (4 + len.toNat) = rest.length := by omega
    rw [hremain] at hshift hrest
    have hdrop : w.conn.input.drop (4 + len.toNat) = rest := by
      rw [hinput, hlen]
      exact List.drop_left' (by simp [frame])
    refine ⟨{ w.conn with
      wbuf := wbuf, wbufSize := 4 + (fitReply out).length,
      rbuf := rbuf, rbufSize := rest.length, state := .stateRes },
      ⟨rfl, rfl, rfl, hrest.trans hdrop, rfl, rfl, hreply⟩, fun Q E => ?_⟩
    unfold tryOneRequest
    simp only [oneRound_exec, wp_bind, wp_getWorld, if_neg hfour, hread, wp_liftFault_ok,
      if_neg hlong, wp_subSize (not_lt.mp hfour), if_neg hpart, hparse, runRequest, act_exec,
      wp_get, hrun, wp_set,
      wp_pure, wp_modify, packReply, hwrite₁, hwrite₂, wp_modifyConn, hsum, hwlen,
      wp_subSize (show 4 + len.toNat ≤ w.conn.rbufSize by omega), hremain, hshift, wp_setState,
      wp_epollMod]
    exact Iff.rfl

end NanoRedis
