import NanoRedis.Store.Defs
import NanoRedis.Store.Reference
import NanoRedis.HashTable.Runs

/-! The command handlers refine the reference service. -/

namespace NanoRedis
open Intrusive Wire

/-- The store holds the entries `xs` and maps keys to values as `m` does. -/
structure StoreRep (st : Store) (xs : List Nat) (m : Bytes → Option Bytes) : Prop where
  stores : Stores st.hnodes st.db xs
  keys : (xs.map fun x => (st.entries x).key).Nodup
  hashed : ∀ x ∈ xs, ∀ n, st.hnodes.get? x = some n → n.hcode = strHash (st.entries x).key
  content : ∀ k v, m k = some v ↔ ∃ x ∈ xs, st.entries x = ⟨k, v⟩

def Hit (entries : Nat → Entry) (xs : List Nat) (m : Bytes → Option Bytes) (k : Bytes) : Ptr → Prop
  | none => m k = none
  | some x => x ∈ xs ∧ (entries x).key = k ∧ m k = some (entries x).val

namespace StoreRep
variable {st : Store} {xs ys : List Nat} {m : Bytes → Option Bytes}

theorem empty (blocks : Nat → Block) : StoreRep { blocks := blocks } [] fun _ => none :=
  ⟨stores_empty _, by simp, by simp, by simp⟩

theorem brk_notMem (h : StoreRep st xs m) : st.hnodes.brk ∉ xs := by
  intro hmem
  obtain ⟨n, hn⟩ := h.stores.exists_get? hmem
  exact absurd (Heap.lt_brk hn) (lt_irrefl _)

theorem eq_of_key_eq (h : StoreRep st xs m) {x y : Nat} (hx : x ∈ xs) (hy : y ∈ xs)
    (hkey : (st.entries x).key = (st.entries y).key) : x = y :=
  List.inj_on_of_nodup_map h.keys hx hy hkey

theorem apply_key (h : StoreRep st xs m) {x : Nat} (hx : x ∈ xs) :
    m (st.entries x).key = some (st.entries x).val :=
  (h.content _ _).mpr ⟨x, hx, rfl⟩

theorem isSome_iff (h : StoreRep st xs m) (k : Bytes) :
    (m k).isSome ↔ ∃ x ∈ xs, (st.entries x).key = k := by
  constructor
  · intro hsome
    obtain ⟨v, hv⟩ := Option.isSome_iff_exists.mp hsome
    obtain ⟨x, hx, heq⟩ := (h.content k v).mp hv
    exact ⟨x, hx, by rw [heq]⟩
  · rintro ⟨x, hx, rfl⟩
    rw [h.apply_key hx]
    rfl

theorem relink (h : StoreRep st xs m) {hnodes : Heap HNode} {db : HMap} (hys : Stores hnodes db ys)
    (hperm : ys.Perm xs) {zs : List Nat} (hr : Relinked st.hnodes hnodes zs) :
    StoreRep { st with hnodes := hnodes, db := db } ys m where
  stores := hys
  keys := (hperm.map _).nodup_iff.mpr h.keys
  hashed := by
    intro y hy n hn
    obtain ⟨n', hn'⟩ := h.stores.exists_get? (hperm.mem_iff.mp hy)
    obtain ⟨n'', hn'', hcode⟩ := hr.exists_get? hn'
    obtain rfl : n = n'' := Option.some.inj (hn.symm.trans hn'')
    rw [hcode, h.hashed y (hperm.mem_iff.mp hy) n' hn']
  content := fun k v => by simp only [h.content k v, hperm.mem_iff]

theorem outside (h : StoreRep st xs m) {hnodes : Heap HNode} {entries : Nat → Entry}
    (hag : ∀ x ∈ xs, hnodes.get? x = st.hnodes.get? x ∧ entries x = st.entries x) :
    StoreRep { st with hnodes := hnodes, entries := entries } xs m where
  stores := h.stores.congr fun x hx => (hag x hx).1
  keys := by
    have hkeys : (xs.map fun x => (entries x).key) = xs.map fun x => (st.entries x).key :=
      List.map_congr_left fun x hx => by rw [(hag x hx).2]
    exact hkeys ▸ h.keys
  hashed := by
    intro x hx n hn
    change n.hcode = strHash (entries x).key
    rw [(hag x hx).2]
    exact h.hashed x hx n ((hag x hx).1 ▸ hn)
  content := by
    intro k v
    rw [h.content k v]
    refine exists_congr fun x => and_congr_right fun hx => ?_
    change st.entries x = _ ↔ entries x = _
    rw [(hag x hx).2]

theorem pushKey (h : StoreRep st xs m) (k : Bytes) : StoreRep (st.pushKey k).2 xs m :=
  h.outside fun x hx => by
    have hne : x ≠ st.hnodes.brk := by
      rintro rfl
      exact h.brk_notMem hx
    exact ⟨Heap.get?_alloc_ne _ hne _, Function.update_of_ne hne _ _⟩

theorem popKey (h : StoreRep st xs m) {key : Nat} (hkey : key ∉ xs) :
    StoreRep (st.popKey key) xs m :=
  h.outside fun x hx => ⟨Heap.get?_free_ne _ (by rintro rfl; exact hkey hx), rfl⟩

theorem takeBlock (h : StoreRep st xs m) (blocks : Nat → Block) :
    StoreRep { st with blocks := blocks } xs m := ⟨h.stores, h.keys, h.hashed, h.content⟩

theorem newEntry (h : StoreRep st xs m) (k v : Bytes) :
    StoreRep { st with
      hnodes := st.hnodes.alloc { hcode := strHash k }
      entries := Function.update st.entries st.hnodes.brk { key := k, val := v } } xs m :=
  h.outside fun x hx => by
    have hne : x ≠ st.hnodes.brk := fun heq => h.brk_notMem (heq ▸ hx)
    exact ⟨Heap.get?_alloc_ne _ hne _, Function.update_of_ne hne _ _⟩

theorem found (h : StoreRep st xs m) {k : Bytes} {key : Nat} (hkey : (st.entries key).key = k)
    {r : Ptr}
    (hr : Found st.hnodes (strHash k) (fun y => (st.entries key).key == (st.entries y).key) xs r) :
    Hit st.entries xs m k r := by
  cases r with
  | none =>
    rw [Hit, ← Option.not_isSome_iff_eq_none, h.isSome_iff]
    rintro ⟨x, hx, hxk⟩
    obtain ⟨n, hn⟩ := h.stores.exists_get? hx
    exact hr x hx ⟨n, hn, by rw [h.hashed x hx n hn, hxk], by simp [hkey, hxk]⟩
  | some x =>
    obtain ⟨hx, -, -, -, heq⟩ := hr
    have hxk : (st.entries x).key = k := by rw [← eq_of_beq heq, hkey]
    exact ⟨hx, hxk, by rw [← hxk, h.apply_key hx]⟩

theorem overwrite (h : StoreRep st xs m) {x : Nat} (hx : x ∈ xs) (v : Bytes) :
    StoreRep { st with entries := Function.update st.entries x { st.entries x with val := v } } xs
      (Function.update m (st.entries x).key (some v)) := by
  -- no key changes, so the hash codes stay right
  have hkey : ∀ y, (Function.update st.entries x { st.entries x with val := v } y).key =
      (st.entries y).key := by
    intro y
    by_cases hy : y = x
    · subst hy
      rw [Function.update_self]
    · rw [Function.update_of_ne hy]
  refine ⟨h.stores, by simpa only [hkey] using h.keys, fun y hy n hn => ?_, fun k w => ?_⟩
  · change n.hcode = strHash (Function.update st.entries x _ y).key
    rw [hkey]
    exact h.hashed y hy n hn
  · change _ ↔ ∃ y ∈ xs, Function.update st.entries x { st.entries x with val := v } y = ⟨k, w⟩
    by_cases hk : k = (st.entries x).key
    · subst hk
      rw [Function.update_self]
      constructor
      · intro hw
        obtain rfl := Option.some.inj hw
        exact ⟨x, hx, Function.update_self ..⟩
      · rintro ⟨y, hy, heq⟩
        have hyx : y = x := h.eq_of_key_eq hy hx (by rw [← hkey y, heq])
        rw [hyx, Function.update_self] at heq
        exact congrArg some (congrArg Entry.val heq)
    · rw [Function.update_of_ne hk, h.content k w]
      refine exists_congr fun y => and_congr_right fun _ => ?_
      by_cases hy : y = x
      · subst hy
        rw [Function.update_self]
        constructor
        · intro heq
          exact absurd (congrArg Entry.key heq).symm hk
        · intro heq
          exact absurd (congrArg Entry.key heq).symm hk
      · rw [Function.update_of_ne hy]

theorem insert (h : StoreRep st xs m) {x : Nat} {k v : Bytes} (hx : x ∉ xs) (hk : m k = none)
    (hent : st.entries x = ⟨k, v⟩) {n : HNode} (hn : st.hnodes.get? x = some n)
    (hcode : n.hcode = strHash k) {hnodes : Heap HNode} {db : HMap} (hys : Stores hnodes db ys)
    (hperm : ys.Perm (x :: xs)) {zs : List Nat} (hr : Relinked st.hnodes hnodes zs) :
    StoreRep { st with hnodes := hnodes, db := db } ys (Function.update m k (some v)) where
  stores := hys
  keys := by
    rw [(hperm.map _).nodup_iff, List.map_cons, List.nodup_cons]
    refine ⟨fun hmem => ?_, h.keys⟩
    obtain ⟨y, hy, hyk⟩ := List.mem_map.mp hmem
    have hsome := (h.isSome_iff k).mpr ⟨y, hy, by rw [hyk, hent]⟩
    rw [hk] at hsome
    cases hsome
  hashed := by
    intro y hy w hw
    have hold : ∃ w', st.hnodes.get? y = some w' ∧ w'.hcode = strHash (st.entries y).key := by
      rcases List.mem_cons.mp (hperm.mem_iff.mp hy) with rfl | hy
      · exact ⟨n, hn, by rw [hcode, hent]⟩
      · obtain ⟨w', hw'⟩ := h.stores.exists_get? hy
        exact ⟨w', hw', h.hashed y hy w' hw'⟩
    obtain ⟨w', hw', hcode'⟩ := hold
    obtain ⟨w'', hw'', heq⟩ := hr.exists_get? hw'
    obtain rfl : w = w'' := Option.some.inj (hw.symm.trans hw'')
    rw [heq, hcode']
  content := by
    intro k' w
    simp only [hperm.mem_iff, List.mem_cons, or_and_right, exists_or, exists_eq_left, hent]
    by_cases hkk : k' = k
    · subst hkk
      rw [Function.update_self, ← h.content, hk]
      simp
    · rw [Function.update_of_ne hkk, h.content]
      simp [Ne.symm hkk]

theorem erase (h : StoreRep st xs m) {x : Nat} (hperm : xs.Perm (x :: ys)) {hnodes : Heap HNode}
    {db : HMap} (hys : Stores hnodes db ys) {zs : List Nat} (hr : Relinked st.hnodes hnodes zs) :
    StoreRep { st with hnodes := hnodes, db := db } ys
      (Function.update m (st.entries x).key none) where
  stores := hys
  keys := by
    have hkeys := (hperm.map fun x => (st.entries x).key).nodup_iff.mp h.keys
    rw [List.map_cons, List.nodup_cons] at hkeys
    exact hkeys.2
  hashed := by
    intro y hy w hw
    have hy' : y ∈ xs := hperm.mem_iff.mpr (List.mem_cons_of_mem _ hy)
    obtain ⟨w', hw'⟩ := h.stores.exists_get? hy'
    obtain ⟨w'', hw'', heq⟩ := hr.exists_get? hw'
    obtain rfl : w = w'' := Option.some.inj (hw.symm.trans hw'')
    rw [heq, h.hashed y hy' w' hw']
  content := by
    have hkeys := (hperm.map fun x => (st.entries x).key).nodup_iff.mp h.keys
    rw [List.map_cons, List.nodup_cons] at hkeys
    intro k w
    by_cases hk : k = (st.entries x).key
    · subst hk
      rw [Function.update_self]
      refine iff_of_false (by simp) ?_
      rintro ⟨y, hy, heq⟩
      have hyx : st.entries y = ⟨(st.entries x).key, w⟩ := heq
      exact hkeys.1 (List.mem_map.mpr ⟨y, hy, by rw [hyx]⟩)
    · rw [Function.update_of_ne hk, h.content]
      simp only [hperm.mem_iff, List.mem_cons, or_and_right, exists_or, exists_eq_left]
      refine or_iff_right fun heq => hk ?_
      rw [heq]

end StoreRep

/-! ## Commands -/

def decode (cmd : Command) : Reference.Command Bytes Bytes :=
  if isCmd cmd 1 (ascii ['k', 'e', 'y', 's']) then .keys
  else if isCmd cmd 2 (ascii ['g', 'e', 't']) then .get (cmd.getD 1 [])
  else if isCmd cmd 3 (ascii ['s', 'e', 't']) then .set (cmd.getD 1 []) (cmd.getD 2 [])
  else if isCmd cmd 2 (ascii ['d', 'e', 'l']) then .del (cmd.getD 1 [])
  else .unknown

example (k v : Bytes) : [decode [ascii ['K', 'e', 'y', 's']], decode [ascii ['g', 'e', 't'], k],
    decode [ascii ['s', 'e', 't'], k, v], decode [ascii ['d', 'e', 'l'], k]] =
    [.keys, .get k, .set k v, .del k] := rfl

def answerBytes : Reference.Answer Bytes Bytes → Bytes
  | .nil => outNil []
  | .value v => outStr [] v
  | .removed present => outInt [] (if present then 1 else 0)
  | .keys ks => ks.foldl outStr (outArr [] (UInt32.ofNat ks.length))
  | .unknown => outErr [] errUnknown unknownCmd

abbrev contents (past : List (Reference.Command Bytes Bytes)) : Bytes → Option Bytes :=
  fun k => Reference.latest k past

inductive Outcome (block : Block) (past : List (Reference.Command Bytes Bytes))
    (c : Reference.Command Bytes Bytes) :
    Except Fault (Bytes × Store) → Prop
  | replied {a : Reference.Answer Bytes Bytes} {xs : List Nat} {st : Store} :
      Reference.Answers past c a → StoreRep st xs (contents (c :: past)) →
        Outcome block past c (.ok (answerBytes a, st))
  | crashed : Outcome block past c (.error .nullDeref)
  | tooBig {k v : Bytes} : c = .get k → Reference.latest k past = some v → kMaxMsg ≤ v.length →
      Outcome block past c (.error (.assertion .doGet))
  | garbled {k v : Bytes} : c = .set k v → Reference.latest k past = none → block = .garbage →
      Outcome block past c (.error .unconstructed)

theorem contents_set (past : List (Reference.Command Bytes Bytes)) (k v : Bytes) :
    contents (.set k v :: past) = Function.update (contents past) k (some v) := by
  funext k'
  simp only [contents, Reference.latest, Function.update_apply, eq_comm]

theorem contents_del (past : List (Reference.Command Bytes Bytes)) (k : Bytes) :
    contents (.del k :: past) = Function.update (contents past) k none := by
  funext k'
  simp only [contents, Reference.latest, Function.update_apply, eq_comm]

section Handlers
variable {st : Store} {xs : List Nat} {past : List (Reference.Command Bytes Bytes)} {cmd : Command}

theorem pushKey_get? (st : Store) (k : Bytes) :
    (st.pushKey k).2.hnodes.get? (st.pushKey k).1 = some { hcode := strHash k } :=
  Heap.get?_alloc_brk _ _

theorem pushKey_entry (st : Store) (k : Bytes) :
    ((st.pushKey k).2.entries (st.pushKey k).1).key = k := by
  simp [Store.pushKey]

theorem entryEq_eq (entries : Nat → Entry) (key : Nat) (ys : List Nat) :
    ∀ y ∈ ys, entryEq entries key y = .ok ((entries key).key == (entries y).key) := fun _ _ => rfl

theorem arg_eq {i : Nat} (hi : i < cmd.length) : arg cmd i = .ok (cmd.getD i []) := by
  simp [arg, List.getD, List.getElem?_eq_getElem hi]

theorem lookupKey (h : StoreRep st xs (contents past)) (k : Bytes) :
    (∃ r hnodes db ys, hmLookup (st.pushKey k).2.hnodes (st.pushKey k).2.db (st.pushKey k).1
        (entryEq (st.pushKey k).2.entries) = .ok (r, hnodes, db) ∧
      StoreRep { (st.pushKey k).2 with hnodes := hnodes, db := db } ys (contents past) ∧
      (st.pushKey k).1 ∉ ys ∧ (st.pushKey k).1 < hnodes.brk ∧
      Hit (st.pushKey k).2.entries ys (contents past) k r) ∨
    hmLookup (st.pushKey k).2.hnodes (st.pushKey k).2.db (st.pushKey k).1
      (entryEq (st.pushKey k).2.entries) = .error .nullDeref := by
  have hpush := h.pushKey k
  rcases hpush.stores.lookup_total (pushKey_get? st k)
    (entryEq_eq _ _ _) with ⟨r, hnodes, db, hrun⟩ | hrun
  · obtain ⟨⟨ys, hys, hperm⟩, -, hfound, hr, -⟩ :=
      hpush.stores.lookup (pushKey_get? st k) (entryEq_eq _ _ _) hrun
    obtain ⟨n, hn, -⟩ := hr.exists_get? (pushKey_get? st k)
    refine .inl ⟨r, hnodes, db, ys, hrun, hpush.relink hys hperm hr,
      fun hmem => h.brk_notMem (hperm.mem_iff.mp hmem), Heap.lt_brk hn, ?_⟩
    have hfound' := hpush.found (pushKey_entry st k) hfound
    cases r with
    | none => exact hfound'
    | some x => exact ⟨hperm.mem_iff.mpr hfound'.1, hfound'.2⟩
  · exact .inr hrun

theorem doGet_outcome (h : StoreRep st xs (contents past)) (hlen : cmd.length = 2) :
    Outcome (st.blocks 0) past (.get (cmd.getD 1 [])) (doGet cmd [] st) := by
  have hk : arg cmd 1 = .ok (cmd.getD 1 []) := arg_eq (by omega)
  generalize cmd.getD 1 [] = k at hk ⊢
  rcases lookupKey h k with ⟨r, hnodes, db, ys, hrun, hrep, hkey, hlt, hr⟩ | hrun
  · have hpop := hrep.popKey hkey
    have hans : Reference.Answers past (.get k) ((Reference.latest k past).elim .nil .value) := .get
    cases r with
    | none =>
      rw [show Reference.latest k past = none from hr] at hans
      simp only [doGet, hk, hrun, ok_bind, pure_eq_ok]
      exact .replied hans hpop
    | some x =>
      rw [show Reference.latest k past = _ from hr.2.2] at hans
      by_cases hbig : ((st.pushKey k).2.entries x).val.length < kMaxMsg
      · simp only [doGet, hk, hrun, ok_bind, hbig, not_true_eq_false, if_false, pure_eq_ok]
        exact .replied hans hpop
      · simp only [doGet, hk, hrun, ok_bind, hbig, not_false_eq_true, if_true]
        exact .tooBig rfl hr.2.2 (not_lt.mp hbig)
  · simp only [doGet, hk, hrun, ok_bind, error_bind]
    exact .crashed

theorem doSet_outcome (h : StoreRep st xs (contents past)) (hlen : cmd.length = 3) :
    Outcome (st.blocks 0) past (.set (cmd.getD 1 []) (cmd.getD 2 [])) (doSet cmd [] st) := by
  have hk : arg cmd 1 = .ok (cmd.getD 1 []) := arg_eq (by omega)
  have hv : arg cmd 2 = .ok (cmd.getD 2 []) := arg_eq (by omega)
  generalize cmd.getD 1 [] = k at hk ⊢
  generalize cmd.getD 2 [] = v at hv ⊢
  rcases lookupKey h k with ⟨r, hnodes, db, ys, hrun, hrep, hkey, hlt, hr⟩ | hrun
  · cases r with
    | some x =>
      have hset := (hrep.overwrite hr.1 v).popKey hkey
      rw [show ({ (st.pushKey k).2 with hnodes := hnodes, db := db } : Store).entries x =
        (st.pushKey k).2.entries x from rfl, hr.2.1, ← contents_set] at hset
      simp only [doSet, hk, hv, hrun, ok_bind, pure_eq_ok]
      exact .replied (a := .nil) .set hset
    | none =>
      by_cases hblock : st.blocks 0 = .garbage
      · have hblock : (st.pushKey k).2.blocks 0 = .garbage := hblock
        simp only [doSet, hk, hv, hrun, ok_bind, hblock, if_true]
        exact .garbled rfl hr hblock
      have hblock' : ¬ (st.pushKey k).2.blocks 0 = .garbage := hblock
      -- the new entry is allocated before it is linked
      have hfresh := hrep.brk_notMem
      have halloc := hrep.newEntry k v
      have hcell : (hnodes.alloc { hcode := strHash k }).get? hnodes.brk =
          some { hcode := strHash k } :=
        Heap.get?_alloc_brk _ _
      rcases halloc.stores.insert_total hcell hfresh with ⟨hnodes', db', hins⟩ | hins
      · obtain ⟨zs, hzs, hperm, -, hrel, -⟩ := halloc.stores.insert hcell hfresh hins
        have hent : Function.update (st.pushKey k).2.entries hnodes.brk
            { key := k, val := v } hnodes.brk =
            ⟨k, v⟩ := Function.update_self ..
        have hnew := halloc.insert hfresh hr hent hcell rfl hzs hperm hrel
        rw [← contents_set] at hnew
        have hkey' : (st.pushKey k).1 ∉ zs := by
          intro hmem
          rcases List.mem_cons.mp (hperm.mem_iff.mp hmem) with heq | hmem
          · exact absurd hlt (heq ▸ lt_irrefl _)
          · exact hkey hmem
        simp only [doSet, hk, hv, hrun, hblock', if_false, hins, ok_bind, pure_eq_ok]
        exact .replied (a := .nil) .set ((hnew.takeBlock _).popKey hkey')
      · simp only [doSet, hk, hv, hrun, hblock', if_false, hins, ok_bind, error_bind]
        exact .crashed
  · simp only [doSet, hk, hv, hrun, ok_bind, error_bind]
    exact .crashed

theorem doDel_outcome (h : StoreRep st xs (contents past)) (hlen : cmd.length = 2) :
    Outcome (st.blocks 0) past (.del (cmd.getD 1 [])) (doDel cmd [] st) := by
  have hk : arg cmd 1 = .ok (cmd.getD 1 []) := arg_eq (by omega)
  generalize cmd.getD 1 [] = k at hk ⊢
  have hpush := h.pushKey k
  obtain ⟨r, hnodes, db, ys, hrun, hys, hpop, hrel, -⟩ :=
    hpush.stores.pop (pushKey_get? st k) (entryEq_eq (st.pushKey k).2.entries (st.pushKey k).1 xs)
  have hfound := hpush.found (pushKey_entry st k) hpop.found.1
  have hans : Reference.Answers past (.del k) (.removed (Reference.latest k past).isSome) := .del
  cases r with
  | none =>
    obtain ⟨-, rfl⟩ := hpop
    have hrep := (hpush.relink hys (List.Perm.refl _) hrel).popKey h.brk_notMem
    rw [show Reference.latest k past = none from hfound] at hans
    have hsame : contents (.del k :: past) = contents past := by
      rw [contents_del, Function.update_eq_self_iff]
      exact Eq.symm hfound
    rw [← hsame] at hrep
    simp only [doDel, hk, hrun, ok_bind, pure_eq_ok]
    exact .replied hans hrep
  | some x =>
    obtain ⟨-, hperm⟩ := hpop
    have hrep := hpush.erase hperm hys hrel
    rw [hfound.2.1, ← contents_del] at hrep
    rw [show Reference.latest k past = _ from hfound.2.2] at hans
    have hx : x ∉ ys := (List.nodup_cons.mp (hperm.nodup_iff.mp hpush.stores.nodup)).1
    have hkey : (st.pushKey k).1 ∉ ys := fun hmem =>
      h.brk_notMem (hperm.mem_iff.mpr (List.mem_cons_of_mem _ hmem))
    simp only [doDel, hk, hrun, ok_bind, pure_eq_ok]
    exact .replied hans ((hrep.popKey hx).popKey hkey)

theorem doKeys_eq (h : Stores st.hnodes st.db xs) :
    doKeys cmd [] st = .ok (answerBytes (.keys (xs.map fun x => (st.entries x).key)), st) := by
  have hscan := h.scan (f := cbScan st.entries)
    (g := fun out x => outStr out (st.entries x).key)
    (fun _ _ _ => rfl) (outArr [] (UInt32.ofNat xs.length))
  have hkeys : answerBytes (.keys (xs.map fun x => (st.entries x).key)) =
      xs.foldl (fun out x => outStr out (st.entries x).key)
          (outArr [] (UInt32.ofNat xs.length)) := by
    simp only [answerBytes, List.length_map, List.foldl_map]
  rw [hkeys]
  cases hfst : hScan st.hnodes st.db.tb1 (cbScan st.entries)
      (outArr [] (UInt32.ofNat xs.length)) with
  | error e =>
    rw [hfst] at hscan
    cases hscan
  | ok out =>
    rw [hfst, ok_bind] at hscan
    simp only [doKeys, h.hmSize_eq, hfst, hscan, ok_bind, pure_eq_ok]

theorem doKeys_outcome (h : StoreRep st xs (contents past)) :
    Outcome (st.blocks 0) past .keys (doKeys cmd [] st) := by
  rw [doKeys_eq h.stores]
  refine .replied (.keys h.keys fun k => ?_) h
  rw [h.isSome_iff k, List.mem_map]

theorem length_of_isCmd {n : Nat} {name : Bytes} (h : isCmd cmd n name = true) :
    cmd.length = n := by
  simp only [isCmd, Bool.and_eq_true, beq_iff_eq] at h
  exact h.1

theorem doRequest_outcome (h : StoreRep st xs (contents past)) (cmd : Command) :
    Outcome (st.blocks 0) past (decode cmd) (doRequest cmd [] st) := by
  unfold decode doRequest
  split_ifs with hkeys hget hset hdel
  · exact doKeys_outcome h
  · exact doGet_outcome h (length_of_isCmd hget)
  · exact doSet_outcome h (length_of_isCmd hset)
  · exact doDel_outcome h (length_of_isCmd hdel)
  · exact .replied (a := .unknown) .unknown h

end Handlers

def doRequests : List Command → Store → Except Fault (List Bytes × Store)
  | [], st => .ok ([], st)
  | cmd :: cmds, st => do
    let (out, st) ← doRequest cmd [] st
    let (outs, st) ← doRequests cmds st
    return (out :: outs, st)

end NanoRedis
