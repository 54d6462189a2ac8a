import NanoRedis.Client.Defs
import NanoRedis.Server.Serve

/-! The request that the client packs is the one that the server executes. -/

namespace NanoRedis
open Wire Exec

def reqLength (cmd : Command) : Nat := 4 + (cmd.map fun s => 4 + s.length).sum

theorem length_encodeReq (cmd : Command) : (encodeReq cmd).length = reqLength cmd := by
  simp only [encodeReq, reqLength, List.length_append, length_le32, length_encodeArgs]

theorem foldl_len (cmd : Command) (k : Nat) :
    cmd.foldl (fun (len : UInt32) s => len + UInt32.ofNat (4 + s.length)) (UInt32.ofNat k) =
      UInt32.ofNat (k + (cmd.map fun s => 4 + s.length).sum) := by
  induction cmd generalizing k with
  | nil => simp
  | cons s cmd ih =>
    rw [List.foldl_cons, ← UInt32.ofNat_add, ih, List.map_cons, List.sum_cons, Nat.add_assoc]

theorem putArgs_spec {cap : Nat} (cmd : Command) (wbuf : Buffer cap) (cur : Nat)
    (h : cur + (encodeArgs cmd).length ≤ cap) :
    ∃ wbuf', putArgs cmd cur wbuf = .ok wbuf' ∧
      wbuf'.bytes.take (cur + (encodeArgs cmd).length) = wbuf.bytes.take cur ++ encodeArgs cmd := by
  induction cmd generalizing wbuf cur with
  | nil => exact ⟨wbuf, rfl, by simp [encodeArgs]⟩
  | cons s cmd ih =>
    have hlen : (encodeArgs (s :: cmd)).length = 4 + s.length + (encodeArgs cmd).length := by
      simp only [encodeArgs, List.length_append, length_le32]
      omega
    rw [hlen] at h ⊢
    obtain ⟨wbuf₁, hwrite₁, htake₁⟩ := writeBytes_take wbuf cur (le32 (UInt32.ofNat s.length))
      (by rw [length_le32]; omega)
    obtain ⟨wbuf₂, hwrite₂, htake₂⟩ := writeBytes_take wbuf₁ (cur + 4) s (by omega)
    obtain ⟨wbuf', hput, htake⟩ := ih wbuf₂ (cur + (4 + s.length)) (by omega)
    rw [length_le32] at htake₁
    rw [← Nat.add_assoc, htake₂, htake₁] at htake
    refine ⟨wbuf', by simp only [putArgs, hwrite₁, hwrite₂, ok_bind, hput], ?_⟩
    rw [← Nat.add_assoc, ← Nat.add_assoc, htake]
    simp only [encodeArgs, List.append_assoc]

theorem packReq_spec {cmd : Command} (hlen : reqLength cmd < 2 ^ 32) (wbuf : Buffer (4 + kMaxMsg)) :
    packReq cmd wbuf =
      .ok (if kMaxMsg < reqLength cmd then none else some (frame (encodeReq cmd))) := by
  have hfold : cmd.foldl (fun (len : UInt32) s => len + UInt32.ofNat (4 + s.length)) 4 =
      UInt32.ofNat (reqLength cmd) :=
    foldl_len cmd 4
  have hnat : (UInt32.ofNat (reqLength cmd)).toNat = reqLength cmd := by
    rw [UInt32.toNat_ofNat', Nat.mod_eq_of_lt hlen]
  simp only [packReq, hfold, hnat]
  split_ifs with hmax
  · rfl
  have hargs : reqLength cmd = 4 + (encodeArgs cmd).length := by
    rw [← length_encodeReq, encodeReq, List.length_append, length_le32]
  obtain ⟨wbuf₁, hwrite₁, htake₁⟩ := writeBytes_take wbuf 0 (le32 (UInt32.ofNat (reqLength cmd)))
    (by rw [length_le32]; omega)
  obtain ⟨wbuf₂, hwrite₂, htake₂⟩ := writeBytes_take wbuf₁ 4 (le32 (UInt32.ofNat cmd.length))
    (by rw [length_le32]; omega)
  obtain ⟨wbuf', hput, htake⟩ := putArgs_spec cmd wbuf₂ 8 (by omega)
  rw [length_le32] at htake₁ htake₂
  simp only [hwrite₁, hwrite₂, ok_bind, hput, pure_eq_ok]
  rw [hargs, ← Nat.add_assoc, htake, htake₂, htake₁, frame, length_encodeReq, encodeReq]
  simp

/-- `send_req` refuses exactly the commands that are too long, and `try_one_request` takes
what it sends for any other off the front of `rbuf` and executes that command. -/
theorem request_understood {cmd : Command} (hlen : reqLength cmd < 2 ^ 32)
    (wbuf : Buffer (4 + kMaxMsg)) :
    (packReq cmd wbuf = .ok none ↔ kMaxMsg < reqLength cmd) ∧
    (kMaxMsg < reqLength cmd → ∀ writes, sendReq cmd wbuf writes = .ok (some (-1), [])) ∧
    (reqLength cmd ≤ kMaxMsg → ∃ bytes, packReq cmd wbuf = .ok (some bytes) ∧
      (∀ writes, sendReq cmd wbuf writes = writeAll writes bytes) ∧
      ∀ (w : World) (more : Bytes), w.conn.rbufSize ≤ 4 + kMaxMsg → w.conn.input = bytes ++ more →
        match doRequest cmd [] w.store with
        | .error f => (tryOneRequest : Exec Bool) w = .error (.request f) w
        | .ok (out, store) =>
          let executed := fun w' : World =>
            w'.store = store ∧ w'.served = w.served ++ [⟨cmd, fitReply out⟩] ∧ w'.conn.input = more
          wp tryOneRequest (fun _ => executed) (fun _ => executed) w) := by
  have hpack := packReq_spec hlen wbuf
  refine ⟨?_, fun hmax writes => ?_, fun hmax => ?_⟩
  · rw [hpack]
    split_ifs with h <;> simp [h]
  · simp [sendReq, hpack, hmax]
  · rw [if_neg (not_lt.mpr hmax)] at hpack
    refine ⟨_, hpack, fun writes => by simp [sendReq, hpack], fun w more hsize hinput => ?_⟩
    have hrun := tryOneRequest_request hsize hinput (by rwa [length_encodeReq])
    cases hreq : doRequest cmd [] w.store with
    | error f => simpa only [hreq] using hrun
    | ok res =>
      obtain ⟨out, store⟩ := res
      simp only [hreq] at hrun
      obtain ⟨conn, hpacked, hwp⟩ := hrun
      have hkept : ∀ w', InputKept { w with
          conn := conn, store := store, interest := .epollout,
          served := w.served ++ [⟨cmd, fitReply out⟩] } w' →
        w'.store = store ∧ w'.served = w.served ++ [⟨cmd, fitReply out⟩] ∧
          w'.conn.input = more := fun w' h =>
        ⟨h.store, h.served, by rw [Conn.input, h.rbuf, h.rbufSize]; exact hpacked.input⟩
      exact (hwp _ _).mpr (wp_mono (stateRes_keeps _) (fun _ => hkept) fun _ _ h => hkept _ h.1)

theorem request_understood_get :
    ∃ bytes, packReq [ascii ['g', 'e', 't'], [107]] (.zero _) = .ok (some bytes) ∧
      ∀ writes, sendReq [ascii ['g', 'e', 't'], [107]] (.zero _) writes = writeAll writes bytes :=
  have hlen : reqLength [ascii ['g', 'e', 't'], [107]] < 2 ^ 32 := by decide
  have ⟨bytes, hpack, hsend, _⟩ := (request_understood hlen (.zero _)).2.2 (by decide)
  ⟨bytes, hpack, hsend⟩

end NanoRedis
