import NanoRedis.Store.Refinement
import NanoRedis.HashTable.Load

/-! When the store stops. Which commands fault is settled by the history alone: by the keys
that are live, the buckets that the history has made for them and the blocks it has taken. -/

namespace NanoRedis
open Intrusive Wire

section Buckets
variable {mem : Heap HNode} {m : HMap} {xs : List Nat}

theorem Stores.insertMask_pow2 (h : Stores mem m xs) : ∃ k, m.insertMask + 1 = 2 ^ k := by
  unfold HMap.insertMask
  cases htab : m.tb1.tab with
  | none => exact ⟨2, rfl⟩
  | some slots => exact h.pow2 (by simp [htab])

theorem Stores.home_eq (h : Stores mem m xs) (hcode : UInt64) :
    hcode.toNat &&& m.insertMask = hcode.toNat % (m.insertMask + 1) := by
  obtain ⟨k, hk⟩ := h.insertMask_pow2
  rw [hk, ← Nat.and_two_pow_sub_one_eq_mod, ← hk, Nat.add_sub_cancel]

theorem Stores.head_iff (h : Stores mem m xs) (hsettled : m.tb2.tab = none) (i : Nat) :
    (∃ x, (m.tb1.tab.getD [])[i]? = some (some x)) ↔
      ∃ y ∈ xs, ∃ n, mem.get? y = some n ∧ n.hcode.toNat &&& m.insertMask = i := by
  obtain ⟨c1, c2, hwf, rfl⟩ := h
  obtain rfl : c2 = [] := hwf.tb2.eq_nil hsettled
  rw [List.flatten_nil, List.append_nil]
  have hhome : ∀ {y : Nat} {n : HNode}, y ∈ c1.flatten →
      m.tb1.home n.hcode = n.hcode.toNat &&& m.insertMask := by
    intro y n hy
    unfold HTab.home HMap.insertMask
    cases htab : m.tb1.tab with
    | none =>
      obtain rfl := hwf.tb1.eq_nil htab
      simp at hy
    | some slots => rfl
  constructor
  · rintro ⟨x, hx⟩
    obtain ⟨ys, hys, hchain⟩ := Buckets.forall₂_getElem? hwf.tb1.chains hx
    cases ys with
    | nil => exact absurd (chain_nil_iff.mp hchain) (by simp)
    | cons y ys =>
      have hy : y ∈ c1.flatten := Buckets.mem_flatten_of_getElem? hys (List.mem_cons_self ..)
      obtain ⟨n, hn, hplace⟩ := hwf.tb1.placed i _ hys y (List.mem_cons_self ..)
      exact ⟨y, hy, n, hn, (hhome hy).symm.trans hplace⟩
  · rintro ⟨y, hy, n, hn, hplace⟩
    obtain ⟨ys, hmem, hyy⟩ := List.mem_flatten.mp hy
    obtain ⟨j, hj⟩ := List.getElem?_of_mem hmem
    obtain ⟨n', hn', hplace'⟩ := hwf.tb1.placed j ys hj y hyy
    obtain rfl : n = n' := Option.some.inj (hn.symm.trans hn')
    obtain rfl : i = j := by rw [← hplace, ← hplace', hhome hy]
    obtain ⟨p, hp, hchain⟩ := Buckets.forall₂_getElem? hwf.tb1.chains.flip hj
    cases ys with
    | nil => cases hyy
    | cons z zs => exact ⟨z, by rw [hp, (chain_cons_iff.mp hchain).1]⟩

end Buckets

/-! ## The reference -/

def buckets : List (Reference.Command Bytes Bytes) → Nat
  | [] => 4
  | .set k _ :: past =>
    if k ∉ Reference.live past ∧
        (kMaxLoadFactor + 1) * buckets past ≤ (Reference.live past).length + 1 then
      2 * buckets past
    else buckets past
  | .get _ :: past | .del _ :: past | .keys :: past | .unknown :: past => buckets past

def homes (past : List (Reference.Command Bytes Bytes)) (k : Bytes) : List Nat :=
  (k :: Reference.live past).map fun k => (strHash k).toNat % buckets past

/-- Every bucket below one in use is in use, the first excepted. -/
def Evenly (past : List (Reference.Command Bytes Bytes)) (k : Bytes) : Prop :=
  ∀ j ∈ homes past k, ∀ i < j, 0 < i → i ∈ homes past k

instance decidableEvenly (past : List (Reference.Command Bytes Bytes)) (k : Bytes) :
    Decidable (Evenly past k) :=
  inferInstanceAs (Decidable (∀ j ∈ homes past k, ∀ i < j, 0 < i → i ∈ homes past k))

/-- The new key `k` starts a doubling over uneven buckets. -/
def Crashes (past : List (Reference.Command Bytes Bytes)) (k : Bytes) : Prop :=
  k ∉ Reference.live past ∧
    (kMaxLoadFactor + 1) * buckets past ≤ (Reference.live past).length + 1 ∧ ¬ Evenly past k

instance decidableCrashes (past : List (Reference.Command Bytes Bytes)) (k : Bytes) :
    Decidable (Crashes past k) :=
  inferInstanceAs (Decidable (_ ∧ _ ∧ ¬ Evenly past k))

def created : List (Reference.Command Bytes Bytes) → Nat
  | [] => 0
  | .set k _ :: past => if k ∈ Reference.live past then created past else created past + 1
  | .get _ :: past | .del _ :: past | .keys :: past | .unknown :: past => created past

/-- The new key `k` gets a block without strings. -/
def Garbles (blocks : Nat → Block) (past : List (Reference.Command Bytes Bytes)) (k : Bytes) :
    Prop :=
  k ∉ Reference.live past ∧ blocks (created past) = .garbage

instance decidableGarbles (blocks : Nat → Block) (past : List (Reference.Command Bytes Bytes))
    (k : Bytes) : Decidable (Garbles blocks past k) :=
  inferInstanceAs (Decidable (_ ∧ _))

/-- The fault of a command after a history: a `get` of a value that is too long fails the
assertion of its handler. -/
def faultAfter (blocks : Nat → Block) (past : List (Reference.Command Bytes Bytes)) :
    Reference.Command Bytes Bytes → Option Fault
  | .set k _ =>
    if Garbles blocks past k then some .unconstructed
    else if Crashes past k then some .nullDeref
    else none
  | .get k =>
    if (Reference.latest k past).any fun v => kMaxMsg ≤ v.length then some (.assertion .doGet)
    else none
  | .del _ | .keys | .unknown => none

theorem faultAfter_eq_some {blocks : Nat → Block} {past : List (Reference.Command Bytes Bytes)}
    {c : Reference.Command Bytes Bytes} {f : Fault} :
    faultAfter blocks past c = some f ↔
      (f = .nullDeref ∧ ∃ k v, c = .set k v ∧ Crashes past k ∧ ¬ Garbles blocks past k) ∨
      (f = .unconstructed ∧ ∃ k v, c = .set k v ∧ Garbles blocks past k) ∨
        f = .assertion .doGet ∧ ∃ k v, c = .get k ∧ Reference.latest k past = some v ∧
          kMaxMsg ≤ v.length := by
  cases c with
  | set k v =>
    simp only [faultAfter, Reference.Command.set.injEq, reduceCtorEq, false_and, exists_false,
      and_false, or_false]
    constructor
    · intro hf
      split_ifs at hf with hgarbles hcrashes
      · exact .inr ⟨(Option.some.inj hf).symm, k, v, ⟨rfl, rfl⟩, hgarbles⟩
      · exact .inl ⟨(Option.some.inj hf).symm, k, v, ⟨rfl, rfl⟩, hcrashes, hgarbles⟩
    · rintro (⟨rfl, k', v', ⟨rfl, rfl⟩, hcrashes, hgarbles⟩ | ⟨rfl, k', v', ⟨rfl, rfl⟩, hgarbles⟩)
      · rw [if_neg hgarbles, if_pos hcrashes]
      · rw [if_pos hgarbles]
  | get k =>
    simp only [faultAfter, Option.ite_none_right_eq_some, Option.any_eq_true, decide_eq_true_iff,
      Option.some.injEq, reduceCtorEq, false_and, exists_false, and_false, false_or]
    constructor
    · rintro ⟨⟨v, hv, hlong⟩, rfl⟩
      exact ⟨rfl, k, v, rfl, hv, hlong⟩
    · rintro ⟨rfl, k', v, hk, hv, hlong⟩
      obtain rfl : k = k' := by simpa using hk
      exact ⟨⟨v, hv, hlong⟩, rfl⟩
  | del _ | keys | unknown => simp [faultAfter]

def fate (blocks : Nat → Block) :
    List (Reference.Command Bytes Bytes) → List (Reference.Command Bytes Bytes) → Option Fault
  | _, [] => none
  | past, c :: cs => (faultAfter blocks past c).or (fate blocks (c :: past) cs)

/-! ## The handlers -/

structure Steady (m : HMap) (past : List (Reference.Command Bytes Bytes)) : Prop where
  tb2 : m.tb2.tab = none
  mask : m.insertMask + 1 = buckets past

structure Accounted (blocks : Nat → Block) (st : Store)
    (past : List (Reference.Command Bytes Bytes)) : Prop where
  steady : Steady st.db past
  blocks : ∀ n, st.blocks n = blocks (created past + n)

def Exact (blocks : Nat → Block) (past : List (Reference.Command Bytes Bytes))
    (c : Reference.Command Bytes Bytes) : Except Fault (Bytes × Store) → Prop
  | .ok (_, st) => faultAfter blocks past c = none ∧ Accounted blocks st (c :: past)
  | .error f => faultAfter blocks past c = some f

section Handlers
variable {blocks : Nat → Block} {st : Store} {xs : List Nat}
  {past : List (Reference.Command Bytes Bytes)} {cmd : Command}

theorem keys_perm_live (h : StoreRep st xs (contents past)) :
    (xs.map fun x => (st.entries x).key).Perm (Reference.live past) := by
  refine (List.perm_ext_iff_of_nodup h.keys (Reference.nodup_live past)).mpr fun k => ?_
  rw [List.mem_map, Reference.mem_live, ← h.isSome_iff k]

theorem length_live (h : StoreRep st xs (contents past)) :
    xs.length = (Reference.live past).length := by
  rw [← (keys_perm_live h).length_eq, List.length_map]

theorem Steady.kept {m m' : HMap} (hs : Steady m past) (htab : m'.tb2.tab = none)
    (hsame : SameBuckets m m') : Steady m' past := by
  refine ⟨htab, ?_⟩
  rw [← hs.mask]
  unfold HMap.insertMask
  rw [hsame.mask, ← Option.not_isSome, ← Option.not_isSome, hsame.tab]

theorem lookupKey_steady (h : StoreRep st xs (contents past)) (hs : Steady st.db past)
    (k : Bytes) :
    ∃ r hnodes db ys, hmLookup (st.pushKey k).2.hnodes (st.pushKey k).2.db (st.pushKey k).1
        (entryEq (st.pushKey k).2.entries) = .ok (r, hnodes, db) ∧
      StoreRep { (st.pushKey k).2 with hnodes := hnodes, db := db } ys (contents past) ∧
      Hit (st.pushKey k).2.entries ys (contents past) k r ∧ Steady db past := by
  have hpush := h.pushKey k
  rcases lookupKey h k with ⟨r, hnodes, db, ys, hrun, hrep, -, -, hr⟩ | hrun
  · obtain ⟨-, htab, -, -, hsame⟩ :=
      hpush.stores.lookup (pushKey_get? st k) (entryEq_eq _ _ _) hrun
    exact ⟨r, hnodes, db, ys, hrun, hrep, hr, hs.kept htab hsame⟩
  · obtain ⟨c1, c2, hwf, rfl⟩ := hpush.stores
    obtain rfl : c2 = [] := hwf.tb2.eq_nil hs.tb2
    obtain ⟨r, hnodes, db, -, hok, -⟩ := (hmLookup_spec hwf (pushKey_get? st k)
      (entryEq_eq _ _ _)).1 (noHole_of_flatten_eq_nil rfl _)
    rw [hok] at hrun
    cases hrun

theorem doGet_exact (h : StoreRep st xs (contents past)) (hs : Accounted blocks st past)
    (hlen : cmd.length = 2) : Exact blocks past (.get (cmd.getD 1 [])) (doGet cmd [] st) := by
  have hk : arg cmd 1 = .ok (cmd.getD 1 []) := arg_eq (by omega)
  generalize cmd.getD 1 [] = k at hk ⊢
  obtain ⟨r, hnodes, db, ys, hrun, -, hr, hsteady⟩ := lookupKey_steady h hs.steady k
  have hdone : ∀ {st' : Store}, st'.db = db → st'.blocks = st.blocks →
      Accounted blocks st' (.get k :: past) := by
    rintro st' rfl hblocks
    exact ⟨⟨hsteady.tb2, hsteady.mask⟩, fun n => hblocks ▸ hs.blocks n⟩
  cases r with
  | none =>
    have hlatest : Reference.latest k past = none := hr
    simp only [doGet, hk, hrun, ok_bind, pure_eq_ok]
    exact ⟨by simp [faultAfter, hlatest], hdone rfl rfl⟩
  | some x =>
    have hlatest : Reference.latest k past = some ((st.pushKey k).2.entries x).val := hr.2.2
    by_cases hbig : ((st.pushKey k).2.entries x).val.length < kMaxMsg
    · simp only [doGet, hk, hrun, ok_bind, hbig, not_true_eq_false, if_false, pure_eq_ok]
      exact ⟨by simpa [faultAfter, hlatest] using hbig, hdone rfl rfl⟩
    · simp only [doGet, hk, hrun, ok_bind, hbig, not_false_eq_true, if_true]
      change faultAfter blocks past (.get k) = _
      simpa [faultAfter, hlatest] using hbig

theorem doDel_exact (h : StoreRep st xs (contents past)) (hs : Accounted blocks st past)
    (hlen : cmd.length = 2) : Exact blocks past (.del (cmd.getD 1 [])) (doDel cmd [] st) := by
  have hk : arg cmd 1 = .ok (cmd.getD 1 []) := arg_eq (by omega)
  generalize cmd.getD 1 [] = k at hk ⊢
  have hpush := h.pushKey k
  obtain ⟨r, hnodes, db, ys, hrun, -, -, -, hsame, htab₂⟩ :=
    hpush.stores.pop (pushKey_get? st k) (entryEq_eq (st.pushKey k).2.entries (st.pushKey k).1 xs)
  have hdone : ∀ {st' : Store}, st'.db = db → st'.blocks = st.blocks →
      Accounted blocks st' (.del k :: past) := by
    rintro st' rfl hblocks
    have htab : st'.db.tb2.tab = none := by
      rw [← Option.not_isSome_iff_eq_none, htab₂, Option.not_isSome_iff_eq_none]
      exact hs.steady.tb2
    have hsteady := hs.steady.kept htab hsame
    exact ⟨⟨hsteady.tb2, hsteady.mask⟩, fun n => hblocks ▸ hs.blocks n⟩
  cases r with
  | none =>
    simp only [doDel, hk, hrun, ok_bind, pure_eq_ok]
    exact ⟨rfl, hdone rfl rfl⟩
  | some x =>
    simp only [doDel, hk, hrun, ok_bind, pure_eq_ok]
    exact ⟨rfl, hdone rfl rfl⟩

theorem mem_homes {k : Bytes} {i : Nat} :
    i ∈ homes past k ↔ i = (strHash k).toNat % buckets past ∨
      ∃ k' ∈ Reference.live past, (strHash k').toNat % buckets past = i := by
  unfold homes
  rw [List.map_cons, List.mem_cons, List.mem_map]

theorem filled_iff_homes (h : StoreRep st xs (contents past)) (hs : Steady st.db past) (k : Bytes)
    (i : Nat) : st.db.Filled (strHash k) i ↔ i ∈ homes past k := by
  have hhome := h.stores.home_eq
  rw [hs.mask] at hhome
  unfold HMap.Filled
  rw [h.stores.head_iff hs.tb2, mem_homes, hhome]
  refine or_congr_right ⟨?_, ?_⟩
  · rintro ⟨y, hy, n, hn, hplace⟩
    refine ⟨(st.entries y).key, ?_, ?_⟩
    · rw [Reference.mem_live]
      exact (h.isSome_iff _).mpr ⟨y, hy, rfl⟩
    · rw [← hhome, ← h.hashed y hy n hn, hplace]
  · rintro ⟨k', hk', hplace⟩
    obtain ⟨y, hy, rfl⟩ := (h.isSome_iff k').mp (Reference.mem_live.mp hk')
    obtain ⟨n, hn⟩ := h.stores.exists_get? hy
    exact ⟨y, hy, n, hn, by rw [h.hashed y hy n hn, hhome, hplace]⟩

theorem insert_exact (h : StoreRep st xs (contents past)) (hs : Steady st.db past) {k v : Bytes}
    (hk : k ∉ Reference.live past) {x : Nat} {n : HNode} (hn : st.hnodes.get? x = some n)
    (hcode : n.hcode = strHash k) (hx : x ∉ xs) :
    ((∃ r, hmInsert st.hnodes st.db x = .ok r) ↔ ¬ Crashes past k) ∧
      ∀ hnodes db, hmInsert st.hnodes st.db x = .ok (hnodes, db) →
        Steady db (.set k v :: past) := by
  have hsize : st.db.tb1.size = (Reference.live past).length := by
    rw [← length_live h, h.stores.length_eq, h.stores.tb2_size hs.tb2, Nat.add_zero]
  have hdoubles : st.db.Doubles ↔
      (kMaxLoadFactor + 1) * buckets past ≤ (Reference.live past).length + 1 := by
    unfold HMap.Doubles
    rw [hsize, ← hs.mask, ← Nat.le_div_iff_mul_le (Nat.succ_pos _)]
    exact and_iff_right hs.tb2
  have heven : st.db.EvenlyFilled n.hcode ↔ Evenly past k := by
    unfold HMap.EvenlyFilled Evenly
    simp only [hcode, filled_iff_homes h hs k]
    exact ⟨fun he j hj i hij hi => he i j hi hij hj, fun he i j hi hij hj => he j hj i hij hi⟩
  refine ⟨?_, fun hnodes db hrun => ?_⟩
  · rw [hmInsert_ok_iff h.stores hs.tb2 hn hx, hdoubles, heven]
    exact ⟨fun himp hcrash => hcrash.2.2 (himp hcrash.2.1),
      fun hno hfull => by_contra fun huneven => hno ⟨hk, hfull, huneven⟩⟩
  · obtain ⟨ys, -, -, htab₂, -, hgrown⟩ := h.stores.insert hn hx hrun
    have hmask : db.insertMask = db.tb1.mask := by
      unfold HMap.insertMask
      rw [Option.isNone_eq_false_iff.mpr hgrown.tab]
      rfl
    refine ⟨htab₂, ?_⟩
    unfold buckets
    rw [hmask]
    split_ifs with hfull
    · rw [hgrown.doubles (hdoubles.mpr hfull.2), hs.mask]
    · rw [hgrown.stays fun hd => hfull ⟨hk, hdoubles.mp hd⟩, hs.mask]

theorem doSet_exact (h : StoreRep st xs (contents past)) (hs : Accounted blocks st past)
    (hlen : cmd.length = 3) :
    Exact blocks past (.set (cmd.getD 1 []) (cmd.getD 2 [])) (doSet cmd [] st) := by
  have hk : arg cmd 1 = .ok (cmd.getD 1 []) := arg_eq (by omega)
  have hv : arg cmd 2 = .ok (cmd.getD 2 []) := arg_eq (by omega)
  generalize cmd.getD 1 [] = k at hk ⊢
  generalize cmd.getD 2 [] = v at hv ⊢
  obtain ⟨r, hnodes, db, ys, hrun, hrep, hr, hsteady⟩ := lookupKey_steady h hs.steady k
  cases r with
  | some x =>
    have hlive : k ∈ Reference.live past :=
      Reference.mem_live.mpr (Option.isSome_iff_exists.mpr ⟨_, hr.2.2⟩)
    have hfault : faultAfter blocks past (.set k v) = none := by
      rw [faultAfter, if_neg fun hnew => hnew.1 hlive, if_neg fun hnew => hnew.1 hlive]
    have hsame : buckets (.set k v :: past) = buckets past := if_neg fun hnew => hnew.1 hlive
    have hcreated : created (.set k v :: past) = created past := if_pos hlive
    simp only [doSet, hk, hv, hrun, ok_bind, pure_eq_ok]
    exact ⟨hfault, ⟨hsteady.tb2, hsteady.mask.trans hsame.symm⟩, fun n => hcreated ▸ hs.blocks n⟩
  | none =>
    have hlive : k ∉ Reference.live past := by
      rw [Reference.mem_live, show Reference.latest k past = none from hr]
      simp
    have hcreated : created (.set k v :: past) = created past + 1 := if_neg hlive
    have hnext : (st.pushKey k).2.blocks 0 = blocks (created past) := hs.blocks 0
    by_cases hgarbage : blocks (created past) = .garbage
    · simp only [doSet, hk, hv, hrun, ok_bind, hnext, hgarbage, if_true]
      exact if_pos ⟨hlive, hgarbage⟩
    have hstrings : ¬ Garbles blocks past k := fun h => hgarbage h.2
    -- the new entry is allocated before it is linked
    have hfresh := hrep.brk_notMem
    have halloc := hrep.newEntry k v
    have hcell : (hnodes.alloc { hcode := strHash k }).get? hnodes.brk =
        some { hcode := strHash k } :=
      Heap.get?_alloc_brk _ _
    obtain ⟨hiff, hdone⟩ := insert_exact (v := v) halloc hsteady hlive hcell rfl hfresh
    rcases halloc.stores.insert_total hcell hfresh with ⟨hnodes', db', hins⟩ | hins
    · simp only [doSet, hk, hv, hrun, hnext, hgarbage, if_false, hins, ok_bind, pure_eq_ok]
      refine ⟨?_, hdone hnodes' db' hins, fun n => ?_⟩
      · rw [faultAfter, if_neg hstrings, if_neg (hiff.mp ⟨_, hins⟩)]
      · rw [hcreated, Nat.add_right_comm, Nat.add_assoc]
        exact hs.blocks (n + 1)
    · simp only [doSet, hk, hv, hrun, hnext, hgarbage, if_false, hins, ok_bind, error_bind]
      have hcrashes : Crashes past k := by_contra fun hno => by
        obtain ⟨r, hr⟩ := hiff.mpr hno
        rw [hins] at hr
        cases hr
      show faultAfter blocks past (.set k v) = _
      rw [faultAfter, if_neg hstrings, if_pos hcrashes]

theorem doRequest_exact (h : StoreRep st xs (contents past)) (hs : Accounted blocks st past)
    (cmd : Command) : Exact blocks past (decode cmd) (doRequest cmd [] st) := by
  unfold decode doRequest
  split_ifs with hkeys hget hset hdel
  · rw [doKeys_eq h.stores]
    exact ⟨rfl, ⟨hs.steady.tb2, hs.steady.mask⟩, hs.blocks⟩
  · exact doGet_exact h hs (length_of_isCmd hget)
  · exact doSet_exact h hs (length_of_isCmd hset)
  · exact doDel_exact h hs (length_of_isCmd hdel)
  · exact ⟨rfl, ⟨hs.steady.tb2, hs.steady.mask⟩, hs.blocks⟩

end Handlers

/-! ## Runs -/

structure Tracks (blocks : Nat → Block) (st : Store)
    (past : List (Reference.Command Bytes Bytes)) : Prop where
  rep : ∃ xs, StoreRep st xs (contents past)
  accounted : Accounted blocks st past

theorem tracks_empty (blocks : Nat → Block) : Tracks blocks { blocks := blocks } [] :=
  ⟨⟨[], StoreRep.empty blocks⟩, ⟨rfl, rfl⟩, fun n => by rw [created, Nat.zero_add]⟩

section Runs
variable {blocks : Nat → Block} {st : Store} {past : List (Reference.Command Bytes Bytes)}

theorem Tracks.step (h : Tracks blocks st past) (cmd : Command) :
    (∃ f, doRequest cmd [] st = .error f ∧ faultAfter blocks past (decode cmd) = some f) ∨
      ∃ a st', doRequest cmd [] st = .ok (answerBytes a, st') ∧
        faultAfter blocks past (decode cmd) = none ∧ Reference.Answers past (decode cmd) a ∧
        Tracks blocks st' (decode cmd :: past) := by
  obtain ⟨⟨xs, hrep⟩, hacc⟩ := h
  have hout := doRequest_outcome hrep cmd
  have hexact := doRequest_exact hrep hacc cmd
  cases hrun : doRequest cmd [] st with
  | error f =>
    rw [hrun] at hexact
    exact .inl ⟨f, rfl, hexact⟩
  | ok r =>
    obtain ⟨out, st'⟩ := r
    rw [hrun] at hout hexact
    cases hout with
    | replied hans hrep' => exact .inr ⟨_, st', rfl, hexact.1, hans, ⟨_, hrep'⟩, hexact.2⟩

theorem doRequests_fate (h : Tracks blocks st past) (cmds : List Command) :
    (∃ f, doRequests cmds st = .error f ∧ fate blocks past (cmds.map decode) = some f) ∨
      ∃ answers st', doRequests cmds st = .ok (answers.map answerBytes, st') ∧
        fate blocks past (cmds.map decode) = none ∧
        Reference.Served past (cmds.map decode) answers ∧
        Tracks blocks st' ((cmds.map decode).reverse ++ past) := by
  induction cmds generalizing st past with
  | nil => exact .inr ⟨[], st, rfl, rfl, .nil, h⟩
  | cons cmd cmds ih =>
    rcases h.step cmd with ⟨f, hrun, hfault⟩ | ⟨a, st', hrun, hfault, hans, h'⟩
    · refine .inl ⟨f, by simp only [doRequests, hrun, error_bind], ?_⟩
      simp [fate, hfault]
    · have hfate : fate blocks past ((cmd :: cmds).map decode) =
          fate blocks (decode cmd :: past) (cmds.map decode) := by simp [fate, hfault]
      rcases ih h' with ⟨f, hrest, hf⟩ | ⟨answers, st'', hrest, hf, hserved, htracks⟩
      · exact .inl ⟨f, by simp only [doRequests, hrun, hrest, ok_bind, error_bind],
          hfate.trans hf⟩
      · refine .inr ⟨a :: answers, st'', ?_, hfate.trans hf, .cons hans hserved, ?_⟩
        · simp only [doRequests, hrun, hrest, ok_bind, pure_eq_ok, List.map_cons]
        · rwa [List.map_cons, List.reverse_cons, List.append_assoc]

theorem fate_append {cs ds : List (Reference.Command Bytes Bytes)} :
    fate blocks past (cs ++ ds) =
      (fate blocks past cs).or (fate blocks (cs.reverse ++ past) ds) := by
  induction cs generalizing past with
  | nil => rfl
  | cons c cs ih =>
    rw [List.cons_append, fate, fate, ih, Option.or_assoc, List.reverse_cons, List.append_assoc]
    rfl

end Runs

theorem doRequests_error_iff (blocks : Nat → Block) (cmds : List Command) (f : Fault) :
    doRequests cmds { blocks := blocks } = .error f ↔
      fate blocks [] (cmds.map decode) = some f := by
  rcases doRequests_fate (tracks_empty blocks) cmds with ⟨g, hrun, hg⟩ | ⟨answers, st, hrun, hg, -⟩
  · simp [hrun, hg]
  · simp [hrun, hg]

/-- Thirty-six keys of one byte that all hash to the third of four buckets. -/
example : fate zeroed [] ((List.range 36).map fun i => .set [UInt8.ofNat (4 * i + 1)]
    []) = some .nullDeref := by decide +kernel

/-! ## Refinement -/

def Regular (blocks : Nat → Block) (past : List (Reference.Command Bytes Bytes)) :
    Reference.Command Bytes Bytes → Prop
  | .get k => ∀ v, Reference.latest k past = some v → v.length < kMaxMsg
  | .set k _ => ¬ Garbles blocks past k
  | .del _ | .keys | .unknown => True

def Breaks (past : List (Reference.Command Bytes Bytes)) : Reference.Command Bytes Bytes → Prop
  | .set k _ => Crashes past k
  | .get _ | .del _ | .keys | .unknown => False

def AllRegular (blocks : Nat → Block) :
    List (Reference.Command Bytes Bytes) → List (Reference.Command Bytes Bytes) → Prop
  | _, [] => True
  | past, c :: cs => Regular blocks past c ∧ (¬ Breaks past c → AllRegular blocks (c :: past) cs)

/-- The sequence gets the replies of the reference map and leaves no key in two nodes, unless the
hash map faults. -/
def Refines (blocks : Nat → Block) (cmds : List Command) : Prop :=
  doRequests cmds { blocks := blocks } = .error .nullDeref ∨
    ∃ answers st xs, doRequests cmds { blocks := blocks } = .ok (answers.map answerBytes, st) ∧
      Reference.Served [] (cmds.map decode) answers ∧
      Stores st.hnodes st.db xs ∧ (xs.map fun x => (st.entries x).key).Nodup

section Refinement
variable {blocks : Nat → Block} {past : List (Reference.Command Bytes Bytes)}

theorem faultAfter_of_regular {c : Reference.Command Bytes Bytes} (h : Regular blocks past c) :
    Breaks past c ∧ faultAfter blocks past c = some .nullDeref ∨
      ¬ Breaks past c ∧ faultAfter blocks past c = none := by
  cases c with
  | set k v =>
    have hstrings : ¬ Garbles blocks past k := h
    rw [faultAfter, if_neg hstrings]
    by_cases hcrashes : Crashes past k
    · exact .inl ⟨hcrashes, if_pos hcrashes⟩
    · exact .inr ⟨hcrashes, if_neg hcrashes⟩
  | get k =>
    refine .inr ⟨id, if_neg ?_⟩
    simpa [Regular, Option.any_eq_true] using h
  | del _ | keys | unknown => exact .inr ⟨id, rfl⟩

theorem faultAfter_of_not_regular {c : Reference.Command Bytes Bytes}
    (h : ¬ Regular blocks past c) : ∃ f, faultAfter blocks past c = some f ∧ f ≠ .nullDeref := by
  cases c with
  | set k v => exact ⟨_, if_pos (not_not.mp h), by simp⟩
  | get k =>
    refine ⟨_, if_pos ?_, by simp⟩
    simpa [Regular, Option.any_eq_true] using h
  | del _ | keys | unknown => exact absurd trivial h

theorem allRegular_iff (cs : List (Reference.Command Bytes Bytes)) :
    AllRegular blocks past cs ↔ ∀ f, fate blocks past cs = some f → f = .nullDeref := by
  induction cs generalizing past with
  | nil => simp [AllRegular, fate]
  | cons c cs ih =>
    unfold AllRegular fate
    by_cases hregular : Regular blocks past c
    · rcases faultAfter_of_regular hregular with ⟨hbreaks, hfault⟩ | ⟨hbreaks, hfault⟩
      · simp [hregular, hbreaks, hfault]
      · simp [hregular, hbreaks, hfault, ih]
    · obtain ⟨f, hfault, hne⟩ := faultAfter_of_not_regular hregular
      simp [hregular, hfault, hne]

theorem refines_iff (cmds : List Command) :
    Refines blocks cmds ↔ ∀ f, fate blocks [] (cmds.map decode) = some f → f = .nullDeref := by
  unfold Refines
  rcases doRequests_fate (tracks_empty blocks) cmds with
    ⟨f, hrun, hf⟩ | ⟨answers, st, hrun, hf, hserved, ⟨xs, hrep⟩, -⟩
  · simp [hrun, hf]
  · rw [hrun, hf]
    exact iff_of_true (.inr ⟨answers, st, xs, rfl, hserved, hrep.stores, hrep.keys⟩) (by simp)

end Refinement

/-- From the empty store, every reply up to a fault of the hash map is that of the reference map
and no key is stored twice, exactly when no `get` meets a value of `kMaxMsg` bytes or more and no
`set` of a new key a block that holds no strings. -/
theorem store_refines_iff (blocks : Nat → Block) (cmds : List Command) :
    (∀ done, done <+: cmds → Refines blocks done) ↔ AllRegular blocks [] (cmds.map decode) := by
  rw [allRegular_iff]
  constructor
  · intro h
    exact (refines_iff cmds).mp (h cmds List.prefix_rfl)
  · rintro h done ⟨rest, rfl⟩
    refine (refines_iff done).mpr fun f hf => h f ?_
    rw [List.map_append, fate_append, hf, Option.some_or]

/-- A `get` frees the copy of a key as long as an entry, and the entry of the next `set` gets that
memory, with the bytes of the key where its strings are to be. -/
theorem set_swaps_with_garbage :
    doRequests [[ascii ['g', 'e', 't'], List.replicate 80 107],
      [ascii ['s', 'e', 't'], [97], [98]]] { blocks := fun _ => .garbage } =
        .error .unconstructed ∧
      ¬ Refines (fun _ => .garbage) [[ascii ['g', 'e', 't'], List.replicate 80 107],
        [ascii ['s', 'e', 't'], [97], [98]]] := by
  have hrun : doRequests [[ascii ['g', 'e', 't'], List.replicate 80 107],
      [ascii ['s', 'e', 't'], [97], [98]]] { blocks := fun _ => .garbage } =
        .error .unconstructed := faultOf_eq_some.mp (by decide +kernel)
  refine ⟨hrun, fun h => ?_⟩
  unfold Refines at h
  rw [hrun] at h
  rcases h with h | ⟨_, _, _, h, -⟩ <;> cases h

end NanoRedis
