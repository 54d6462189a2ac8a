import NanoRedis.Store.Faults
import NanoRedis.Hash

/-! The store can be stopped from every state: keys of one hash code fill a single bucket
until the next doubling finds the others empty. -/

namespace NanoRedis
open Intrusive Wire

theorem buckets_pow2 (past : List (Reference.Command Bytes Bytes)) :
    ∃ n, buckets past = 4 * 2 ^ n := by
  induction past with
  | nil => exact ⟨0, rfl⟩
  | cons c past ih =>
    obtain ⟨n, hn⟩ := ih
    cases c with
    | set k v =>
      unfold buckets
      split_ifs
      · exact ⟨n + 1, by rw [hn, pow_succ]; omega⟩
      · exact ⟨n, hn⟩
    | get _ | del _ | keys | unknown => exact ⟨n, hn⟩

def wipe (ks : List Bytes) : List (Reference.Command Bytes Bytes) := ks.map .del

def pour (ks : List Bytes) : List (Reference.Command Bytes Bytes) := ks.map fun k => .set k []

section Flood
variable {blocks : Nat → Block} {past : List (Reference.Command Bytes Bytes)}

theorem fate_wipe (ks : List Bytes) : fate blocks past (wipe ks) = none := by
  induction ks generalizing past with
  | nil => rfl
  | cons k ks ih => exact ih

theorem buckets_wipe (ks : List Bytes) : buckets ((wipe ks).reverse ++ past) = buckets past := by
  induction ks generalizing past with
  | nil => rfl
  | cons k ks ih =>
    show buckets ((Reference.Command.del k :: wipe ks).reverse ++ past) = _
    rw [List.reverse_cons, List.append_assoc]
    exact ih

theorem live_wipe (ks : List Bytes) :
    Reference.live ((wipe ks).reverse ++ past) = (Reference.live past).filter (· ∉ ks) := by
  induction ks generalizing past with
  | nil => exact (List.filter_eq_self.mpr (by simp)).symm
  | cons k ks ih =>
    show Reference.live ((Reference.Command.del k :: wipe ks).reverse ++ past) = _
    rw [List.reverse_cons, List.append_assoc, ih]
    show ((Reference.live past).filter (· ≠ k)).filter (· ∉ ks) = _
    rw [List.filter_filter]
    exact List.filter_congr fun k' _ => by simp [Bool.and_comm]

theorem crashes_of_flood {code : UInt64} {k : Bytes} (hmod : code.toNat % 4 = 2)
    (hk : strHash k = code) (hlive : ∀ k ∈ Reference.live past, strHash k = code)
    (hnew : k ∉ Reference.live past)
    (hfull : (kMaxLoadFactor + 1) * buckets past ≤ (Reference.live past).length + 1) :
    Crashes past k := by
  refine ⟨hnew, hfull, fun heven => ?_⟩
  have hhomes : ∀ j ∈ homes past k, j % 4 = 2 := by
    intro j hj
    obtain ⟨k', hk', rfl⟩ := List.mem_map.mp hj
    have hcode : strHash k' = code := by
      rcases List.mem_cons.mp hk' with rfl | hmem
      · exact hk
      · exact hlive k' hmem
    obtain ⟨n, hn⟩ := buckets_pow2 past
    rw [hcode, Nat.mod_mod_of_dvd _ (hn ▸ Nat.dvd_mul_right 4 _)]
    exact hmod
  have hmem : (strHash k).toNat % buckets past ∈ homes past k := List.mem_cons_self ..
  have hhome := hhomes _ hmem
  have hone := hhomes 1 (heven _ hmem 1 (by omega) Nat.one_pos)
  omega

theorem fate_pour {code : UInt64} (hmod : code.toNat % 4 = 2) {ks : List Bytes} (hne : ks ≠ [])
    (hnodup : ks.Nodup) (hks : ∀ k ∈ ks, strHash k = code)
    (hlive : ∀ k ∈ Reference.live past, strHash k = code)
    (hnew : ∀ k ∈ ks, k ∉ Reference.live past)
    (hfull : (Reference.live past).length + ks.length = (kMaxLoadFactor + 1) * buckets past) :
    fate blocks past (pour ks) = some .nullDeref ∨
      fate blocks past (pour ks) = some .unconstructed ∧ ∃ n, blocks n = .garbage := by
  induction ks generalizing past with
  | nil => exact absurd rfl hne
  | cons k ks ih =>
    have hk := hnew k (List.mem_cons_self ..)
    rw [List.length_cons] at hfull
    have hfate : fate blocks past (pour (k :: ks)) =
        (faultAfter blocks past (.set k [])).or (fate blocks (.set k [] :: past) (pour ks)) := rfl
    rw [hfate]
    by_cases hgarbles : Garbles blocks past k
    · rw [faultAfter, if_pos hgarbles]
      exact .inr ⟨rfl, _, hgarbles.2⟩
    cases ks with
    | nil =>
      have hcrash : Crashes past k := crashes_of_flood hmod (hks k (List.mem_cons_self ..)) hlive hk
        (by rw [← hfull]; rfl)
      rw [faultAfter, if_neg hgarbles, if_pos hcrash]
      exact .inl rfl
    | cons k' ks =>
      -- the load is not reached yet
      rw [List.length_cons] at hfull
      have hload : ¬ (kMaxLoadFactor + 1) * buckets past ≤ (Reference.live past).length + 1 := by
        omega
      have hlive' : Reference.live (.set k [] :: past) = k :: Reference.live past := if_neg hk
      have hbuckets : buckets (.set k [] :: past) = buckets past := if_neg fun h => hload h.2
      rw [faultAfter, if_neg hgarbles, if_neg fun h => hload h.2.1, Option.none_or]
      obtain ⟨hnotin, hnodup⟩ := List.nodup_cons.mp hnodup
      refine ih (List.cons_ne_nil _ _) hnodup (fun c hc => hks c (List.mem_cons_of_mem _ hc))
        ?_ ?_ ?_
      · rw [hlive', List.forall_mem_cons]
        exact ⟨hks k (List.mem_cons_self ..), hlive⟩
      · rw [hlive']
        intro c hc hmem
        rcases List.mem_cons.mp hmem with rfl | hmem
        · exact hnotin hc
        · exact hnew c (List.mem_cons_of_mem _ hc) hmem
      · rw [hlive', hbuckets, List.length_cons, List.length_cons]
        omega

end Flood

def delRequest (k : Bytes) : Command := [ascii ['d', 'e', 'l'], k]

def setRequest (k : Bytes) : Command := [ascii ['s', 'e', 't'], k, []]

theorem decode_wipe (ks : List Bytes) : (ks.map delRequest).map decode = wipe ks := by
  rw [List.map_map]
  rfl

theorem decode_pour (ks : List Bytes) : (ks.map setRequest).map decode = pour ks := by
  rw [List.map_map]
  rfl

/-- No state of the store is safe: once every key has been deleted, as many new keys as the next
doubling takes stop it, if they are chosen well. They stop it in the doubling, unless a block that
holds no strings stops it before. -/
theorem store_floodable {blocks : Nat → Block} {cmds : List Command} {outs : List Bytes}
    {st : Store} (hrun : doRequests cmds { blocks := blocks } = .ok (outs, st)) :
    ∃ keys : List Bytes, keys.Nodup ∧
      keys.length = (kMaxLoadFactor + 1) * buckets (cmds.map decode).reverse ∧
      (doRequests (cmds ++ ((Reference.live (cmds.map decode).reverse).map delRequest ++
          keys.map setRequest)) { blocks := blocks } = .error .nullDeref ∨
        doRequests (cmds ++ ((Reference.live (cmds.map decode).reverse).map delRequest ++
          keys.map setRequest)) { blocks := blocks } = .error .unconstructed ∧
            ∃ n, blocks n = .garbage) := by
  obtain ⟨code, hmod, hinf⟩ := exists_flood
  obtain ⟨flood, hflood, hcard⟩ := hinf.exists_subset_card_eq
    ((kMaxLoadFactor + 1) * buckets (cmds.map decode).reverse)
  have hlen := flood.length_toList.trans hcard
  refine ⟨flood.toList, flood.nodup_toList, hlen, ?_⟩
  generalize hpast : (cmds.map decode).reverse = past at hlen ⊢
  have hfate : fate blocks [] (cmds.map decode) = none := by
    rw [Option.eq_none_iff_forall_ne_some]
    intro f hf
    rw [← doRequests_error_iff, hrun] at hf
    cases hf
  have hend : fate blocks [] ((cmds ++ ((Reference.live past).map delRequest ++
      flood.toList.map setRequest)).map decode) =
      fate blocks ((wipe (Reference.live past)).reverse ++ past) (pour flood.toList) := by
    rw [List.map_append, List.map_append, decode_wipe, decode_pour, fate_append, hfate,
      Option.none_or, fate_append, fate_wipe, Option.none_or, hpast, List.append_nil]
  rw [doRequests_error_iff, doRequests_error_iff, hend]
  have hlive : Reference.live ((wipe (Reference.live past)).reverse ++ past) = [] := by
    rw [live_wipe, List.filter_eq_nil_iff]
    simp
  have hne : flood.toList ≠ [] := by
    obtain ⟨n, hn⟩ := buckets_pow2 past
    apply List.ne_nil_of_length_pos
    rw [hlen, hn]
    positivity
  apply fate_pour hmod hne flood.nodup_toList
  · exact fun k hk => hflood (Finset.mem_toList.mp hk)
  · simp [hlive]
  · simp [hlive]
  · rw [hlive, buckets_wipe, hlen]
    exact Nat.zero_add _

theorem store_floodable_set :
    ∃ keys : List Bytes, keys.length = 36 ∧
      doRequests ([setRequest [107]] ++ ([[107]].map delRequest ++ keys.map setRequest))
        { blocks := zeroed } = .error .nullDeref := by
  have hok : (doRequests [setRequest [107]] { blocks := zeroed }).isOk := by
    decide +kernel
  cases hrun : doRequests [setRequest [107]] { blocks := zeroed } with
  | error f =>
    rw [hrun] at hok
    cases hok
  | ok res =>
    obtain ⟨outs, st⟩ := res
    obtain ⟨keys, -, hlen, hstop | ⟨-, n, hn⟩⟩ := store_floodable hrun
    · exact ⟨keys, hlen, hstop⟩
    · cases hn

end NanoRedis
