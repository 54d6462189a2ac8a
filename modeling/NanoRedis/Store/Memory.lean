import NanoRedis.Store.Refinement

/-! The nodes that the handlers allocate: the store owns those that are stored, and a
request that completes leaves no other behind. -/

namespace NanoRedis
open Intrusive Wire

theorem foldl_snoc (seen xs : List Nat) :
    xs.foldl (fun seen x => seen ++ [x]) seen = seen ++ xs := by
  induction xs generalizing seen with
  | nil => simp
  | cons x xs ih => rw [List.foldl_cons, ih, List.append_assoc, List.singleton_append]

theorem Stores.unique {mem : Heap HNode} {m : HMap} {xs ys : List Nat} (hxs : Stores mem m xs)
    (hys : Stores mem m ys) : xs = ys := by
  -- both lists are what a scan of the tables visits
  have hscan : ∀ {zs : List Nat}, Stores mem m zs → (do
      let arg ← hScan mem m.tb1 (fun (seen : List Nat) x => .ok (seen ++ [x])) []
      hScan mem m.tb2 (fun (seen : List Nat) x => .ok (seen ++ [x])) arg) = .ok zs := by
    intro zs hzs
    rw [hzs.scan (g := fun seen x => seen ++ [x]) (fun _ _ _ => rfl), foldl_snoc]
    rfl
  exact Except.ok.inj ((hscan hxs).symm.trans (hscan hys))

theorem Relinked.isSome_eq {mem mem' : Heap HNode} {xs : List Nat} (h : Relinked mem mem' xs)
    (a : Nat) : (mem'.get? a).isSome = (mem.get? a).isSome := by
  rw [← Option.isSome_map (f := HNode.hcode), h.hcode_eq a, Option.isSome_map]

section Handlers
variable {st st' : Store} {xs : List Nat} {m : Bytes → Option Bytes} {cmd : Command} {out : Bytes}

def Store.Tight (st : Store) : Prop := ∃ xs, Stores st.hnodes st.db xs ∧ st.hnodes.Owned xs

theorem owned_pushKey (ho : st.hnodes.Owned xs) (k : Bytes) :
    (st.pushKey k).2.hnodes.Owned ((st.pushKey k).1 :: xs) :=
  ho.alloc _

theorem tight_popKey {key : Nat} (hxs : Stores st.hnodes st.db xs)
    (ho : st.hnodes.Owned (key :: xs)) (hkey : key ∉ xs) : (st.popKey key).Tight :=
  ⟨xs, hxs.free hkey, ho.free hkey⟩

theorem doGet_tight (h : StoreRep st xs m) (ho : st.hnodes.Owned xs)
    (hrun : doGet cmd [] st = .ok (out, st')) : st'.Tight := by
  obtain ⟨k, -, hrun⟩ := bind_eq_ok.mp hrun
  have hpush := h.pushKey k
  obtain ⟨⟨r, hnodes, db⟩, hlook, hrun⟩ := bind_eq_ok.mp hrun
  obtain ⟨⟨ys, hys, hperm⟩, -, -, hr, -⟩ :=
    hpush.stores.lookup (pushKey_get? st k) (entryEq_eq _ _ _) hlook
  have hkey : (st.pushKey k).1 ∉ ys := fun hmem => h.brk_notMem (hperm.mem_iff.mp hmem)
  have howned : hnodes.Owned ((st.pushKey k).1 :: ys) :=
    ((owned_pushKey ho k).congr hr.isSome_eq).perm (hperm.symm.cons _)
  cases r with
  | none =>
    cases hrun
    exact tight_popKey hys howned hkey
  | some x =>
    dsimp only at hrun
    split_ifs at hrun with hbig
    · cases hrun
      exact tight_popKey hys howned hkey
    · cases hrun

theorem doSet_tight (h : StoreRep st xs m) (ho : st.hnodes.Owned xs)
    (hrun : doSet cmd [] st = .ok (out, st')) : st'.Tight := by
  obtain ⟨k, -, hrun⟩ := bind_eq_ok.mp hrun
  obtain ⟨v, -, hrun⟩ := bind_eq_ok.mp hrun
  have hpush := h.pushKey k
  obtain ⟨⟨r, hnodes, db⟩, hlook, hrun⟩ := bind_eq_ok.mp hrun
  obtain ⟨⟨ys, hys, hperm⟩, -, -, hr, -⟩ :=
    hpush.stores.lookup (pushKey_get? st k) (entryEq_eq _ _ _) hlook
  have hkey : (st.pushKey k).1 ∉ ys := fun hmem => h.brk_notMem (hperm.mem_iff.mp hmem)
  have howned : hnodes.Owned ((st.pushKey k).1 :: ys) :=
    ((owned_pushKey ho k).congr hr.isSome_eq).perm (hperm.symm.cons _)
  cases r with
  | some x =>
    cases hrun
    exact tight_popKey hys howned hkey
  | none =>
    dsimp only at hrun
    split_ifs at hrun
    · cases hrun
    obtain ⟨⟨hnodes', db'⟩, hins, heq⟩ := bind_eq_ok.mp hrun
    cases heq
    have hfresh : hnodes.brk ∉ (st.pushKey k).1 :: ys := fun hmem => by
      obtain ⟨n, hn⟩ := Option.isSome_iff_exists.mp ((howned _).mpr hmem)
      exact absurd (Heap.lt_brk hn) (lt_irrefl _)
    rw [List.mem_cons, not_or] at hfresh
    obtain ⟨zs, hzs, hzperm, -, hr', -⟩ :=
      (hys.alloc { hcode := strHash k }).insert (Heap.get?_alloc_brk _ _) hfresh.2 hins
    have hkey' : (st.pushKey k).1 ∉ zs := fun hmem => by
      rcases List.mem_cons.mp (hzperm.mem_iff.mp hmem) with heq | hmem
      · exact hfresh.1 heq.symm
      · exact hkey hmem
    have howned' : hnodes'.Owned ((st.pushKey k).1 :: zs) :=
      ((howned.alloc _).congr hr'.isSome_eq).perm
        ((List.Perm.swap _ _ _).trans (hzperm.symm.cons _))
    exact tight_popKey hzs howned' hkey'

theorem doDel_tight (h : StoreRep st xs m) (ho : st.hnodes.Owned xs)
    (hrun : doDel cmd [] st = .ok (out, st')) : st'.Tight := by
  obtain ⟨k, -, hrun⟩ := bind_eq_ok.mp hrun
  have hpush := h.pushKey k
  obtain ⟨⟨r, hnodes, db⟩, hpop, hrun⟩ := bind_eq_ok.mp hrun
  obtain ⟨r', hnodes', db', ys, hpop', hys, hpopped, hr, -⟩ :=
    hpush.stores.pop (pushKey_get? st k) (entryEq_eq _ _ _)
  obtain ⟨rfl, rfl, rfl⟩ : r' = r ∧ hnodes' = hnodes ∧ db' = db := by
    simpa using hpop'.symm.trans hpop
  have howned := (owned_pushKey ho k).congr hr.isSome_eq
  cases r' with
  | none =>
    obtain ⟨-, rfl⟩ := hpopped
    cases hrun
    exact tight_popKey hys howned h.brk_notMem
  | some x =>
    obtain ⟨-, hperm⟩ := hpopped
    cases hrun
    have hx : x ∉ ys := (List.nodup_cons.mp (hperm.nodup_iff.mp hpush.stores.nodup)).1
    have hkey : (st.pushKey k).1 ∉ x :: ys := fun hmem => h.brk_notMem (hperm.mem_iff.mpr hmem)
    rw [List.mem_cons, not_or] at hkey
    have howned' : (hnodes'.free x).Owned ((st.pushKey k).1 :: ys) :=
      (howned.perm ((hperm.cons _).trans (List.Perm.swap _ _ _))).free
        (by simpa [Ne.symm hkey.1] using hx)
    exact tight_popKey (hys.free hx) howned' hkey.2

theorem doRequest_tight (h : StoreRep st xs m) (ht : st.Tight)
    (hrun : doRequest cmd [] st = .ok (out, st')) : st'.Tight := by
  obtain ⟨ys, hys, ho⟩ := ht
  obtain rfl := hys.unique h.stores
  unfold doRequest at hrun
  split_ifs at hrun with hkeys hget hset hdel
  · rw [doKeys_eq h.stores] at hrun
    cases hrun
    exact ⟨ys, hys, ho⟩
  · exact doGet_tight h ho hrun
  · exact doSet_tight h ho hrun
  · exact doDel_tight h ho hrun
  · cases hrun
    exact ⟨ys, hys, ho⟩

end Handlers

theorem tight_empty (blocks : Nat → Block) : Store.Tight { blocks := blocks } :=
  ⟨[], stores_empty _, Heap.Owned.empty⟩

end NanoRedis
