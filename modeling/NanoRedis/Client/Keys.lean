import NanoRedis.Client.Replies
import NanoRedis.Store.Refinement

/-! The listing of keys, from the two tables to the lines that the client prints. -/

namespace NanoRedis
open Intrusive Wire

def Store.keysOf (st : Store) (xs : List Nat) : List Bytes := xs.map fun x => (st.entries x).key

def noteNode (seen : List Nat) (x : Nat) : Except Fault (List Nat) := .ok (seen ++ [x])

def listing (n : UInt32) (keys : List Bytes) : List Line :=
  .arr n :: keys.map fun k => .str (UInt32.ofNat k.length) k

namespace Reply

theorem writeAll_str (keys : List Bytes) (out : Bytes) :
    writeAll out (keys.map .str) = keys.foldl outStr out := by
  induction keys generalizing out with
  | nil => rfl
  | cons k keys ih => exact ih (outStr out k)

theorem readableAll_str (keys : List Bytes) (pos : Nat) : ReadableAll pos (keys.map .str) := by
  induction keys generalizing pos with
  | nil => trivial
  | cons k keys ih => exact ⟨trivial, ih _⟩

theorem linesAll_str (keys : List Bytes) :
    linesAll (keys.map .str) = keys.map fun k => .str (UInt32.ofNat k.length) k := by
  induction keys with
  | nil => rfl
  | cons k keys ih =>
    rw [List.map_cons, linesAll, ih]
    rfl

end Reply

theorem answerBytes_keys (keys : List Bytes) :
    answerBytes (.keys keys) = (Reply.arr (keys.map .str)).encode := by
  rw [answerBytes, Reply.encode, Reply.write, Reply.writeAll_str, List.length_map]

theorem onResponse_listing {keys : List Bytes}
    (h : (answerBytes (.keys keys)).length ≤ kMaxMsg - 4) :
    ∃ n : UInt32, n.toNat = keys.length ∧
      onResponse (answerBytes (.keys keys)) (answerBytes (.keys keys)).length =
        .ok ((answerBytes (.keys keys)).length, listing n keys) := by
  have hmax : kMaxMsg = 4096 := rfl
  rw [answerBytes_keys] at h ⊢
  have hlen := (Reply.arr (keys.map .str)).length_encode
  have hread : (Reply.arr (keys.map .str)).Readable 0 := Reply.readableAll_str keys _
  have hrun := Reply.onResponse_encode hread (by omega) [] hlen.ge
  have hcount := Reply.length_le_widthAll (keys.map .str)
  rw [Reply.width] at hlen
  rw [List.append_nil, Reply.lines, Reply.linesAll_str, List.length_map] at hrun
  rw [List.length_map] at hcount
  refine ⟨UInt32.ofNat keys.length, toNat_ofNat_of_small (by omega), ?_⟩
  rw [hrun, Reply.length_encode]
  rfl

theorem count_keysOf {st : Store} {xs : List Nat} (hnodup : xs.Nodup) {x : Nat} (hx : x ∈ xs)
    (honly : ∀ y ∈ xs, (st.entries y).key = (st.entries x).key → y = x) :
    (st.keysOf xs).count (st.entries x).key = 1 := by
  unfold Store.keysOf
  rw [List.count, List.countP_map, ← List.count_eq_one_of_mem hnodup hx, List.count]
  refine List.countP_congr fun y hy => ?_
  simp only [Function.comp_apply, beq_iff_eq]
  exact ⟨honly y hy, fun heq => heq ▸ rfl⟩

/-- The reply to `keys` announces and lists the keys in the order of a scan of `tb1` and
then `tb2`, each stored entry once, and a client reads it back in full. -/
theorem keys_listing_decodes {st : Store} {xs : List Nat} (h : Stores st.hnodes st.db xs)
    (cmd : Command) :
    (do let seen ← hScan st.hnodes st.db.tb1 noteNode []
        hScan st.hnodes st.db.tb2 noteNode seen) = .ok xs ∧ xs.Nodup ∧
    ∃ body, doKeys cmd [] st = .ok (body, st) ∧
      (body.length ≤ kMaxMsg - 4 → ∃ n : UInt32, n.toNat = xs.length ∧
        onResponse body body.length = .ok (body.length, listing n (st.keysOf xs))) ∧
      ∀ x ∈ xs, (∀ y ∈ xs, (st.entries y).key = (st.entries x).key → y = x) →
        (st.keysOf xs).count (st.entries x).key = 1 := by
  refine ⟨?_, h.nodup, _, doKeys_eq h, fun hfit => ?_, fun x hx => count_keysOf h.nodup hx⟩
  · rw [h.scan (f := noteNode) (g := fun seen x => seen ++ [x]) (fun _ _ _ => rfl) []]
    simp [← List.flatMap_def]
  · obtain ⟨n, hn, hrun⟩ := onResponse_listing hfit
    exact ⟨n, by rw [hn, List.length_map], hrun⟩

def twoKeys : Store where
  hnodes := ⟨[some { hcode := 4 }, some { hcode := 3 }, some { hcode := 3 }, some { hcode := 6 }]⟩
  entries := fun x => if x = 0 then ⟨[97], []⟩ else ⟨[], [98]⟩
  db := ⟨⟨some [some 0, none], 1, 1⟩, ⟨some [some 1], 0, 1⟩, 0⟩
  blocks := zeroed

theorem keys_listing_twoKeys :
    ∃ body, doKeys [] [] twoKeys = .ok (body, twoKeys) ∧ (body.length ≤ kMaxMsg - 4 →
      ∃ n : UInt32, n.toNat = 2 ∧
        onResponse body body.length = .ok (body.length, listing n [[97], []])) ∧
      ∀ x ∈ [0, 1], (∀ y ∈ [0, 1], (twoKeys.entries y).key = (twoKeys.entries x).key → y = x) →
        (twoKeys.keysOf [0, 1]).count (twoKeys.entries x).key = 1 :=
  have h : Stores twoKeys.hnodes twoKeys.db [0, 1] := stores_migrating
  (keys_listing_decodes h []).2.2

end NanoRedis
