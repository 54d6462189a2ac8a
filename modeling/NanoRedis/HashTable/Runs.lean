import NanoRedis.HashTable.Map
import NanoRedis.Lib.Run

/-! Whole runs of a client of the hash map. The client owns the nodes: it
allocates them, hands them over, and may reuse or free those it got back. -/

namespace NanoRedis
open Intrusive

section Contents
variable {mem mem' : Heap HNode} {m m' : HMap} {xs : List Nat}

/-- A well-formed map that stores the nodes `xs`, listed in scanning order. -/
def Stores (mem : Heap HNode) (m : HMap) (xs : List Nat) : Prop :=
  ∃ c1 c2, WellFormed mem m c1 c2 ∧ xs = c1.flatten ++ c2.flatten

theorem stores_empty (mem : Heap HNode) : Stores mem {} [] :=
  ⟨[], [], ⟨TabRep.null mem, TabRep.null mem, by simp, by simp, by simp⟩, rfl⟩

theorem Stores.nodup (h : Stores mem m xs) : xs.Nodup := by
  obtain ⟨c1, c2, hwf, rfl⟩ := h
  exact hwf.nodup

theorem Stores.exists_get? (h : Stores mem m xs) {x : Nat} (hx : x ∈ xs) :
    ∃ n, mem.get? x = some n := by
  obtain ⟨c1, c2, hwf, rfl⟩ := h
  exact hwf.exists_get? hx

theorem Stores.congr (h : Stores mem m xs) (hag : ∀ x ∈ xs, mem'.get? x = mem.get? x) :
    Stores mem' m xs := by
  obtain ⟨c1, c2, hwf, rfl⟩ := h
  exact ⟨c1, c2, hwf.congr hag, rfl⟩

theorem Stores.alloc (h : Stores mem m xs) (n : HNode) : Stores (mem.alloc n) m xs := by
  refine h.congr fun x hx => ?_
  obtain ⟨v, hv⟩ := h.exists_get? hx
  rw [Heap.get?_alloc_of_some hv, hv]

theorem Stores.free (h : Stores mem m xs) {a : Nat} (ha : a ∉ xs) : Stores (mem.free a) m xs :=
  h.congr fun x hx => Heap.get?_free_ne mem (by rintro rfl; exact ha hx)

theorem Stores.scan {α : Type} (h : Stores mem m xs) {f : α → Nat → Except Fault α}
    {g : α → Nat → α} (hf : ∀ a, ∀ x ∈ xs, f a x = .ok (g a x)) (arg : α) :
    (do let arg ← hScan mem m.tb1 f arg
        hScan mem m.tb2 f arg) = .ok (xs.foldl g arg) := by
  obtain ⟨c1, c2, hwf, rfl⟩ := h
  rw [hScan_spec hwf.tb1 (fun a x hx => hf a x (List.mem_append_left _ hx)), ok_bind,
    hScan_spec hwf.tb2 (fun a x hx => hf a x (List.mem_append_right _ hx)), List.foldl_append]

theorem foldl_inc (ys : List Nat) (count : UInt32) :
    ys.foldl (fun c _ => c + 1) count = count + UInt32.ofNat ys.length := by
  induction ys generalizing count with
  | nil => simp
  | cons y ys ih =>
    rw [List.foldl_cons, ih, List.length_cons, UInt32.ofNat_add, UInt32.add_assoc,
      UInt32.add_comm 1]
    rfl

theorem Stores.hmSize_eq (h : Stores mem m xs) : hmSize mem m = .ok (UInt32.ofNat xs.length) := by
  have hscan := h.scan (f := inc) (g := fun c _ => c + 1) (fun _ _ _ => rfl) 0
  rw [foldl_inc, UInt32.zero_add] at hscan
  exact hscan

theorem Stores.length_eq (h : Stores mem m xs) : xs.length = m.tb1.size + m.tb2.size := by
  obtain ⟨c1, c2, hwf, rfl⟩ := h
  rw [List.length_append, hwf.tb1.size_eq, hwf.tb2.size_eq]

structure SameBuckets (m m' : HMap) : Prop where
  mask : m'.tb1.mask = m.tb1.mask
  tab : m'.tb1.tab.isSome = m.tb1.tab.isSome

structure Grown (m m' : HMap) : Prop where
  tab : m'.tb1.tab.isSome
  doubles : m.Doubles → m'.tb1.mask + 1 = 2 * (m.insertMask + 1)
  stays : ¬ m.Doubles → m'.tb1.mask = m.insertMask

theorem Stores.insert (h : Stores mem m xs) {x : Nat} {n : HNode} (hn : mem.get? x = some n)
    (hx : x ∉ xs) (hrun : hmInsert mem m x = .ok (mem', m')) :
    ∃ ys, Stores mem' m' ys ∧ ys.Perm (x :: xs) ∧ m'.tb2.tab = none ∧
      Relinked mem mem' (x :: xs) ∧ Grown m m' := by
  obtain ⟨c1, c2, hwf, rfl⟩ := h
  obtain ⟨memI, mI, cI1, cI2, zs, heq, hzs, hlink, hr⟩ := hmInsert_spec hwf hn hx
  rw [heq] at hrun
  obtain ⟨hyes, hno⟩ := hmHelpResizing_spec hlink.wf
  by_cases hc : NoHole cI2 mI.resizingPos
  · obtain ⟨memH, mH, cH, hhelp, htab, hmig⟩ := hyes hc
    obtain ⟨rfl, rfl⟩ : memH = mem' ∧ mH = m' := by simpa [hhelp] using hrun
    obtain ⟨_, -, -, -, -, -, hflat⟩ := insert_ready hwf
    have hx' := Buckets.flatten_set_perm hzs (List.Perm.refl (x :: zs))
    rw [hflat] at hx'
    have hall : (cI1.flatten ++ cI2.flatten).Perm (x :: (c1.flatten ++ c2.flatten)) :=
      hlink.perm.trans (hx'.append_right _)
    refine ⟨_, ⟨cH, [], hmig.wf, rfl⟩, by simpa using hmig.perm.trans hall, htab, ?_, ?_, ?_, ?_⟩
    · exact (hr.mono (by simp)).trans (hmig.relinked.mono hall.subset)
    · rw [hmig.tab_eq]
      exact hlink.tab1
    · rw [hmig.mask_eq]
      exact fun hd => (hlink.doubles hd).2.2
    · rw [hmig.mask_eq]
      exact fun hd => (hlink.stays hd).2.2.2
  · rw [hno hc] at hrun
    cases hrun

theorem Stores.insert_total (h : Stores mem m xs) {x : Nat} {n : HNode} (hn : mem.get? x = some n)
    (hx : x ∉ xs) :
    (∃ mem' m', hmInsert mem m x = .ok (mem', m')) ∨ hmInsert mem m x = .error .nullDeref := by
  obtain ⟨c1, c2, hwf, rfl⟩ := h
  obtain ⟨memI, mI, cI1, cI2, _, heq, -, hlink, -⟩ := hmInsert_spec hwf hn hx
  obtain ⟨hyes, hno⟩ := hmHelpResizing_spec hlink.wf
  rw [heq]
  by_cases hc : NoHole cI2 mI.resizingPos
  · obtain ⟨mem', m', -, hrun, -⟩ := hyes hc
    exact .inl ⟨mem', m', hrun⟩
  · exact .inr (hno hc)

theorem Stores.lookup_total (h : Stores mem m xs) {key : Nat} {kn : HNode}
    (hkey : mem.get? key = some kn) {eq : HEq} {e : Nat → Bool}
    (heq : ∀ y ∈ xs, eq key y = .ok (e y)) :
    (∃ r mem' m', hmLookup mem m key eq = .ok (r, mem', m')) ∨
      hmLookup mem m key eq = .error .nullDeref := by
  obtain ⟨c1, c2, hwf, rfl⟩ := h
  obtain ⟨hyes, hno⟩ := hmLookup_spec hwf hkey heq
  by_cases hc : NoHole c2 m.resizingPos
  · obtain ⟨r, mem', m', -, hrun, -⟩ := hyes hc
    exact .inl ⟨r, mem', m', hrun⟩
  · exact .inr (hno hc)

theorem Stores.lookup (h : Stores mem m xs) {key : Nat} {kn : HNode} (hkey : mem.get? key = some kn)
    {eq : HEq} {e : Nat → Bool} (heq : ∀ y ∈ xs, eq key y = .ok (e y)) {r : Ptr}
    (hrun : hmLookup mem m key eq = .ok (r, mem', m')) :
    (∃ ys, Stores mem' m' ys ∧ ys.Perm xs) ∧ m'.tb2.tab = none ∧ Found mem kn.hcode e xs r ∧
      Relinked mem mem' xs ∧ SameBuckets m m' := by
  obtain ⟨c1, c2, hwf, rfl⟩ := h
  obtain ⟨hyes, hno⟩ := hmLookup_spec hwf hkey heq
  by_cases hc : NoHole c2 m.resizingPos
  · obtain ⟨r', memH, mH, cH, hlook, htab, hmig, hfound⟩ := hyes hc
    obtain ⟨rfl, rfl, rfl⟩ : r' = r ∧ memH = mem' ∧ mH = m' := by simpa [hlook] using hrun
    exact ⟨⟨_, ⟨cH, [], hmig.wf, rfl⟩, by simpa using hmig.perm⟩, htab, hfound, hmig.relinked,
      hmig.mask_eq, hmig.tab_eq⟩
  · rw [hno hc] at hrun
    cases hrun

theorem Stores.pop (h : Stores mem m xs) {key : Nat} {kn : HNode} (hkey : mem.get? key = some kn)
    {eq : HEq} {e : Nat → Bool} (heq : ∀ y ∈ xs, eq key y = .ok (e y)) :
    ∃ r mem' m' ys, hmPop mem m key eq = .ok (r, mem', m') ∧ Stores mem' m' ys ∧
      Popped mem kn.hcode e xs ys r ∧ Relinked mem mem' xs ∧ SameBuckets m m' ∧
      m'.tb2.tab.isSome = m.tb2.tab.isSome := by
  obtain ⟨c1, c2, hwf, rfl⟩ := h
  obtain ⟨r, mem', m', c1', c2', hrun, hwf', hpop, hr, hmask, htab, htab₂⟩ :=
    hmPop_spec hwf hkey heq
  exact ⟨r, mem', m', _, hrun, ⟨c1', c2', hwf', rfl⟩, hpop, hr, ⟨hmask, htab⟩, htab₂⟩

end Contents

section Answers
variable {mem mem' : Heap HNode} {m m' : HMap} {xs : List Nat}

def pureEq (eq : Nat → Nat → Bool) : HEq := fun a b => .ok (eq a b)

theorem pureEq_eq (eq : Nat → Nat → Bool) (key : Nat) (xs : List Nat) :
    ∀ y ∈ xs, pureEq eq key y = .ok (eq key y) := fun _ _ => rfl

structure EqLaws (mem : Heap HNode) (eq : Nat → Nat → Bool) : Prop where
  equivalence : Equivalence fun a b => eq a b = true
  hcode_eq : ∀ a b n k, mem.get? a = some n → mem.get? b = some k → eq a b = true →
    n.hcode = k.hcode

def Answers (eq : Nat → Nat → Bool) (key : Nat) (xs : List Nat) (r : Ptr) : Prop :=
  (∀ x, r = some x → x ∈ xs ∧ eq key x = true) ∧ (r = none ↔ ∀ x ∈ xs, eq key x = false)

theorem matches_iff {eq : Nat → Nat → Bool} (hlaws : EqLaws mem eq) {key x : Nat} {kn n : HNode}
    (hkey : mem.get? key = some kn) (hn : mem.get? x = some n) :
    Matches mem kn.hcode (eq key) x ↔ eq key x = true := by
  constructor
  · rintro ⟨-, -, -, he⟩
    exact he
  · exact fun he => ⟨n, hn, (hlaws.hcode_eq key x kn n hkey hn he).symm, he⟩

theorem Stores.answers (h : Stores mem m xs) {eq : Nat → Nat → Bool} (hlaws : EqLaws mem eq)
    {key : Nat} {kn : HNode} (hkey : mem.get? key = some kn) {r : Ptr}
    (hr : Found mem kn.hcode (eq key) xs r) :
    Answers eq key xs r := by
  have hiff : ∀ x ∈ xs, Matches mem kn.hcode (eq key) x ↔ eq key x = true := by
    intro x hx
    obtain ⟨n, hn⟩ := h.exists_get? hx
    exact matches_iff hlaws hkey hn
  cases r with
  | none =>
    refine ⟨by simp, fun _ x hx => ?_, fun _ => rfl⟩
    rw [← Bool.not_eq_true, ← hiff x hx]
    exact hr x hx
  | some y =>
    obtain ⟨hy, hm⟩ := hr
    have he : eq key y = true := (hiff y hy).mp hm
    refine ⟨?_, by simp, fun hnone => ?_⟩
    · rintro x hx
      obtain rfl : y = x := Option.some.inj hx
      exact ⟨hy, he⟩
    · rw [hnone y hy] at he
      cases he

theorem Popped.found {hcode : UInt64} {e : Nat → Bool} {ys : List Nat} {r : Ptr}
    (h : Popped mem hcode e xs ys r) : Found mem hcode e xs r ∧ xs.Perm (r.toList ++ ys) := by
  cases r with
  | none =>
    obtain ⟨hnone, rfl⟩ := h
    exact ⟨hnone, List.Perm.refl _⟩
  | some x =>
    obtain ⟨hm, hperm⟩ := h
    exact ⟨⟨hperm.mem_iff.mpr (List.mem_cons_self ..), hm⟩, hperm⟩

end Answers

/-- In every stage of a migration, an operation that completes keeps the map well
formed and changes its contents by the node it was called for, and a scan of both
tables visits the contents. -/
theorem hashMap_contents {mem : Heap HNode} {m : HMap} {xs : List Nat} (h : Stores mem m xs) :
    (∀ x mem' m', (mem.get? x).isSome → x ∉ xs → hmInsert mem m x = .ok (mem', m') →
      ∃ ys, Stores mem' m' ys ∧ ys.Perm (x :: xs)) ∧
    (∀ key eq, (mem.get? key).isSome → EqLaws mem eq →
      (∀ r mem' m', hmLookup mem m key (pureEq eq) = .ok (r, mem', m') →
        (∃ ys, Stores mem' m' ys ∧ ys.Perm xs) ∧ Answers eq key xs r) ∧
      (∀ r mem' m', hmPop mem m key (pureEq eq) = .ok (r, mem', m') →
        (∃ ys, Stores mem' m' ys ∧ xs.Perm (r.toList ++ ys)) ∧ Answers eq key xs r)) ∧
    xs.Nodup ∧
    (∀ (α : Type) (f : α → Nat → α) (arg : α), (do
      let arg ← hScan mem m.tb1 (fun a x => .ok (f a x)) arg
      hScan mem m.tb2 (fun a x => .ok (f a x)) arg) = .ok (xs.foldl f arg)) ∧
    (∃ n, hmSize mem m = .ok n ∧
      (m.tb1.size + m.tb2.size < 2 ^ 32 → n.toNat = m.tb1.size + m.tb2.size)) := by
  refine ⟨fun x mem' m' hx hfresh hrun => ?_, fun key eq hkey hlaws => ⟨fun r mem' m' hrun => ?_,
    fun r mem' m' hrun => ?_⟩, h.nodup, fun α f arg => h.scan (fun _ _ _ => rfl) arg, _,
      h.hmSize_eq, ?_⟩
  · obtain ⟨n, hn⟩ := Option.isSome_iff_exists.mp hx
    obtain ⟨ys, hys, hperm, -⟩ := h.insert hn hfresh hrun
    exact ⟨ys, hys, hperm⟩
  · obtain ⟨kn, hkn⟩ := Option.isSome_iff_exists.mp hkey
    obtain ⟨hys, -, hfound, -⟩ := h.lookup hkn (pureEq_eq eq key xs) hrun
    exact ⟨hys, h.answers hlaws hkn hfound⟩
  · obtain ⟨kn, hkn⟩ := Option.isSome_iff_exists.mp hkey
    obtain ⟨r', memP, mP, ys, hpop, hys, hpopped, -⟩ := h.pop hkn (pureEq_eq eq key xs)
    obtain ⟨rfl, rfl, rfl⟩ : r' = r ∧ memP = mem' ∧ mP = m' := by simpa [hpop] using hrun
    obtain ⟨hfound, hperm⟩ := hpopped.found
    exact ⟨⟨ys, hys, hperm⟩, h.answers hlaws hkn hfound⟩
  · intro hlt
    rw [UInt32.toNat_ofNat', h.length_eq, Nat.mod_eq_of_lt hlt]

theorem stores_migrating :
    Stores ⟨[some { hcode := 4 }, some { hcode := 3 }, some { hcode := 3 }, some { hcode := 6 }]⟩
      ⟨⟨some [some 0, none], 1, 1⟩, ⟨some [some 1], 0, 1⟩, 0⟩ [0, 1] := by
  refine ⟨[[0], []], [[1]], ⟨⟨fun _ => ⟨1, rfl⟩, fun _ => rfl, ?_, ?_, rfl⟩,
    ⟨fun _ => ⟨0, rfl⟩, fun _ => rfl, ?_, ?_, rfl⟩, by decide, fun _ => rfl, by simp⟩, rfl⟩
  · exact .cons (chain_cons_iff.mpr ⟨rfl, _, rfl, .nil none⟩) (.cons (.nil none) .nil)
  · rintro (_ | _ | i) xs hi x hx
    · obtain rfl : [0] = xs := Option.some.inj hi
      obtain rfl : x = 0 := List.mem_singleton.mp hx
      exact ⟨_, rfl, rfl⟩
    · obtain rfl : [] = xs := Option.some.inj hi
      cases hx
    · simp at hi
  · exact .cons (chain_cons_iff.mpr ⟨rfl, _, rfl, .nil none⟩) .nil
  · rintro (_ | i) xs hi x hx
    · obtain rfl : [1] = xs := Option.some.inj hi
      obtain rfl : x = 1 := List.mem_singleton.mp hx
      exact ⟨_, rfl, rfl⟩
    · simp at hi

theorem hashMap_contents_migrating :
    (∃ mem' m' ys, hmInsert ⟨[some { hcode := 4 }, some { hcode := 3 }, some { hcode := 3 },
      some { hcode := 6 }]⟩
        ⟨⟨some [some 0, none], 1, 1⟩, ⟨some [some 1], 0, 1⟩, 0⟩ 3 = .ok (mem', m') ∧
      Stores mem' m' ys ∧ ys.Perm [3, 0, 1]) ∧ [0, 1].Nodup :=
  have h := hashMap_contents stores_migrating
  have ⟨ys, hys⟩ := h.1 3 _ _ rfl (by decide) rfl
  ⟨⟨_, _, ys, rfl, hys⟩, h.2.2.1⟩

/-! ## Runs from the empty map -/

inductive HmCall
  | alloc (node : HNode)
  | free (node : Nat)
  | insert (node : Nat)
  | lookup (key : Nat) (eq : Nat → Nat → Bool)
  | pop (key : Nat) (eq : Nat → Nat → Bool)

/-- `linked` lists the nodes that the client has inserted and not popped since. -/
structure HmClient where
  mem : Heap HNode := {}
  map : HMap := {}
  linked : List Nat := []
deriving DecidableEq

def hmCall (s : HmClient) : HmCall → Except Fault HmClient
  | .alloc node => .ok { s with mem := s.mem.alloc node }
  | .free node => .ok { s with mem := s.mem.free node }
  | .insert node => do
    let (mem, map) ← hmInsert s.mem s.map node
    return { mem := mem, map := map, linked := node :: s.linked }
  | .lookup key eq => do
    let (_, mem, map) ← hmLookup s.mem s.map key (pureEq eq)
    return { s with mem := mem, map := map }
  | .pop key eq => do
    let (deleted, mem, map) ← hmPop s.mem s.map key (pureEq eq)
    return { mem := mem, map := map, linked := s.linked.filter fun x => deleted ≠ some x }

/-- The client's side of the contract: it passes live nodes, links none twice and frees none that
is linked. -/
def HmCall.Admissible (s : HmClient) : HmCall → Prop
  | .alloc _ => True
  | .free node => node ∉ s.linked
  | .insert node => (s.mem.get? node).isSome ∧ node ∉ s.linked
  | .lookup key _ | .pop key _ => (s.mem.get? key).isSome

instance HmCall.decidableAdmissible (s : HmClient) : ∀ c : HmCall, Decidable (c.Admissible s)
  | .alloc _ => isTrue trivial
  | .free node => inferInstanceAs (Decidable (node ∉ s.linked))
  | .insert node => inferInstanceAs (Decidable ((s.mem.get? node).isSome ∧ node ∉ s.linked))
  | .lookup key _ => inferInstanceAs (Decidable ((s.mem.get? key).isSome = true))
  | .pop key _ => inferInstanceAs (Decidable ((s.mem.get? key).isSome = true))

def HMap.Filled (m : HMap) (hcode : UInt64) (i : Nat) : Prop :=
  i = hcode.toNat &&& m.insertMask ∨ ∃ x, (m.tb1.tab.getD [])[i]? = some (some x)

/-- No empty bucket of `tb1` other than the first lies below a bucket in use, the new node
counted. -/
def HMap.EvenlyFilled (m : HMap) (hcode : UInt64) : Prop :=
  ∀ i j, 0 < i → i < j → m.Filled hcode j → m.Filled hcode i

def HmCall.Even (s : HmClient) : HmCall → Prop
  | .insert node => ∀ n, s.mem.get? node = some n → s.map.Doubles → s.map.EvenlyFilled n.hcode
  | _ => True

/-- Between the calls of a run no migration is pending: the one that a doubling starts
runs to its end. -/
structure HmInv (s : HmClient) : Prop where
  settled : s.map.tb2.tab = none
  stores : ∃ xs, Stores s.mem s.map xs ∧ xs.Perm s.linked

theorem hmInv_empty : HmInv {} := ⟨rfl, [], stores_empty _, List.Perm.refl _⟩

theorem perm_filter_of_cons {x : Nat} {xs ys zs : List Nat} (hxs : xs.Nodup)
    (hperm : xs.Perm (x :: ys)) (hzs : xs.Perm zs) :
    ys.Perm (zs.filter fun y => some x ≠ some y) := by
  have hnd := List.nodup_cons.mp (hperm.nodup_iff.mp hxs)
  have hys : ys.filter (fun y => some x ≠ some y) = ys := by
    rw [List.filter_eq_self]
    intro y hy
    have hne : x ≠ y := by
      rintro rfl
      exact hnd.1 hy
    simpa using hne
  have hcons : (x :: ys).filter (fun y => some x ≠ some y) = ys := by simpa using hys
  have hfilter := (hperm.symm.trans hzs).filter fun y => some x ≠ some y
  rwa [hcons] at hfilter

theorem hmCall_cases {s s' : HmClient} {c : HmCall} (hs : HmInv s) (hadm : c.Admissible s)
    (hstep : hmCall s c = .ok s') :
    (∃ node n xs, c = .insert node ∧ s.mem.get? node = some n ∧ Stores s.mem s.map xs ∧
      xs.Perm s.linked ∧ node ∉ xs ∧ hmInsert s.mem s.map node = .ok (s'.mem, s'.map) ∧
      s'.linked = node :: s.linked) ∨
    (∀ node, c ≠ .insert node) ∧ HmInv s' ∧ SameBuckets s.map s'.map ∧
      s'.linked.length ≤ s.linked.length := by
  obtain ⟨xs, hxs, hperm⟩ := hs.stores
  cases c with
  | alloc node =>
    cases hstep
    exact .inr ⟨by simp, ⟨hs.settled, xs, hxs.alloc node, hperm⟩, ⟨rfl, rfl⟩, le_rfl⟩
  | free node =>
    cases hstep
    have hnode : node ∉ xs := fun hx => hadm (hperm.mem_iff.mp hx)
    exact .inr ⟨by simp, ⟨hs.settled, xs, hxs.free hnode, hperm⟩, ⟨rfl, rfl⟩, le_rfl⟩
  | insert node =>
    obtain ⟨n, hn⟩ := Option.isSome_iff_exists.mp hadm.1
    obtain ⟨⟨mem, map⟩, hrun, heq⟩ := bind_eq_ok.mp hstep
    cases heq
    exact .inl ⟨node, n, xs, rfl, hn, hxs, hperm, fun hx => hadm.2 (hperm.mem_iff.mp hx), hrun, rfl⟩
  | lookup key eq =>
    obtain ⟨kn, hkn⟩ := Option.isSome_iff_exists.mp hadm
    obtain ⟨⟨r, mem, map⟩, hrun, heq⟩ := bind_eq_ok.mp hstep
    cases heq
    obtain ⟨⟨ys, hys, hyx⟩, htab, -, -, hsame⟩ := hxs.lookup hkn (pureEq_eq eq key xs) hrun
    exact .inr ⟨by simp, ⟨htab, ys, hys, hyx.trans hperm⟩, hsame, le_rfl⟩
  | pop key eq =>
    obtain ⟨kn, hkn⟩ := Option.isSome_iff_exists.mp hadm
    obtain ⟨⟨r, mem, map⟩, hrun, heq⟩ := bind_eq_ok.mp hstep
    cases heq
    obtain ⟨r', mem', map', ys, hrun', hys, hpop, -, hsame, htab⟩ :=
      hxs.pop hkn (pureEq_eq eq key xs)
    obtain ⟨rfl, rfl, rfl⟩ : r' = r ∧ mem' = mem ∧ map' = map := by simpa [hrun'] using hrun
    have hsettled : map'.tb2.tab = none := by
      rw [← Option.not_isSome_iff_eq_none, htab, hs.settled]
      simp
    refine .inr ⟨by simp, ⟨hsettled, ys, hys, ?_⟩, hsame, List.length_filter_le _ _⟩
    cases r' with
    | none =>
      obtain ⟨-, rfl⟩ := hpop
      simpa using hperm
    | some x => exact perm_filter_of_cons hxs.nodup hpop.2 hperm

theorem hmInv_step {s s' : HmClient} {c : HmCall} (hs : HmInv s) (hadm : c.Admissible s)
    (hstep : hmCall s c = .ok s') : HmInv s' := by
  rcases hmCall_cases hs hadm hstep with
    ⟨node, n, xs, rfl, hn, hxs, hperm, hx, hrun, hlinked⟩ | ⟨-, hinv, -⟩
  · obtain ⟨ys, hys, hyx, htab, -⟩ := hxs.insert hn hx hrun
    exact ⟨htab, ys, hys, hlinked ▸ hyx.trans (hperm.cons node)⟩
  · exact hinv

theorem filled_iff {mem : Heap HNode} {m : HMap} {c1 c2 : List (List Nat)}
    (h : WellFormed mem m c1 c2) {hcode : UInt64} {x i : Nat} {xs : List Nat}
    (hxs : (insertChains m c1)[hcode.toNat &&& m.insertMask]? = some xs) :
    Occupied ((insertChains m c1).set (hcode.toNat &&& m.insertMask) (x :: xs)) i ↔
      m.Filled hcode i := by
  by_cases hi : i = hcode.toNat &&& m.insertMask
  · subst hi
    have hlt := (List.getElem?_eq_some_iff.mp hxs).1
    exact ⟨fun _ => .inl rfl, fun _ => ⟨x, xs, by simp [hlt]⟩⟩
  -- the other buckets are in use exactly when their heads are not null
  · rw [occupied_set_iff (Ne.symm hi)]
    simp only [HMap.Filled, hi, false_or]
    cases htab : m.tb1.tab with
    | none =>
      obtain rfl := h.tb1.eq_nil htab
      simp only [insertChains, htab, Option.isNone_none, if_true, Option.getD_none]
      constructor
      · rintro ⟨y, ys, hy⟩
        exact absurd (List.mem_replicate.mp (List.mem_of_getElem? hy)).2 (by simp)
      · rintro ⟨y, hy⟩
        simp at hy
    | some slots =>
      have hslots := h.tb1.chains
      simp only [htab, Option.getD_some] at hslots ⊢
      simp only [insertChains, htab, Option.isNone_some, Bool.false_eq_true, if_false]
      constructor
      · rintro ⟨y, ys, hy⟩
        obtain ⟨p, hp, hc⟩ := Buckets.forall₂_getElem? hslots.flip hy
        exact ⟨y, by rw [hp, (chain_cons_iff.mp hc).1]⟩
      · rintro ⟨y, hy⟩
        obtain ⟨ys, hys, hc⟩ := Buckets.forall₂_getElem? hslots hy
        cases ys with
        | nil => exact absurd (chain_nil_iff.mp hc) (by simp)
        | cons z zs => exact ⟨z, zs, hys⟩

theorem hmInsert_ok_iff {mem : Heap HNode} {m : HMap} {xs : List Nat} (h : Stores mem m xs)
    (hsettled : m.tb2.tab = none) {x : Nat} {n : HNode} (hn : mem.get? x = some n) (hx : x ∉ xs) :
    (∃ r, hmInsert mem m x = .ok r) ↔ (m.Doubles → m.EvenlyFilled n.hcode) := by
  obtain ⟨c1, c2, hwf, rfl⟩ := h
  obtain rfl : c2 = [] := hwf.tb2.eq_nil hsettled
  obtain ⟨memI, mI, cI1, cI2, zs, heq, hzs, hlink, -⟩ := hmInsert_spec hwf hn hx
  obtain ⟨hyes, hno⟩ := hmHelpResizing_spec hlink.wf
  have hcompletes : (∃ r, hmInsert mem m x = .ok r) ↔ NoHole cI2 mI.resizingPos := by
    rw [heq]
    constructor
    · rintro ⟨r, hr⟩
      by_contra hc
      rw [hno hc] at hr
      cases hr
    · intro hc
      obtain ⟨mem', m', -, hrun, -⟩ := hyes hc
      exact ⟨_, hrun⟩
  rw [hcompletes]
  by_cases hd : m.Doubles
  · obtain ⟨rfl, hpos, -⟩ := hlink.doubles hd
    simp only [hd, true_implies, NoHole, hpos, HMap.EvenlyFilled, filled_iff hwf hzs]
  · obtain ⟨-, rfl, -⟩ := hlink.stays hd
    exact iff_of_true (noHole_of_flatten_eq_nil rfl _) fun hyes => absurd hyes hd

theorem hmCall_ok_iff {s : HmClient} {c : HmCall} (hs : HmInv s) (hadm : c.Admissible s) :
    (∃ s', hmCall s c = .ok s') ↔ c.Even s := by
  obtain ⟨xs, hxs, hperm⟩ := hs.stores
  cases c with
  | alloc node => exact iff_of_true ⟨_, rfl⟩ trivial
  | free node => exact iff_of_true ⟨_, rfl⟩ trivial
  | insert node =>
    obtain ⟨n, hn⟩ := Option.isSome_iff_exists.mp hadm.1
    have hok := hmInsert_ok_iff hxs hs.settled hn fun hx => hadm.2 (hperm.mem_iff.mp hx)
    have heven : HmCall.Even s (.insert node) ↔ (s.map.Doubles → s.map.EvenlyFilled n.hcode) := by
      constructor
      · exact fun h => h n hn
      · intro h k hk
        rwa [Option.some.inj (hk.symm.trans hn)]
    rw [heven, ← hok]
    cases hrun : hmInsert s.mem s.map node <;> simp [hmCall, hrun]
  | lookup key eq =>
    obtain ⟨kn, hkn⟩ := Option.isSome_iff_exists.mp hadm
    obtain ⟨c1, c2, hwf, rfl⟩ := hxs
    obtain rfl : c2 = [] := hwf.tb2.eq_nil hs.settled
    obtain ⟨r, mem, map, -, hrun, -⟩ :=
      (hmLookup_spec hwf hkn (pureEq_eq eq key _)).1 (noHole_of_flatten_eq_nil rfl _)
    exact iff_of_true ⟨{ s with mem := mem, map := map }, by simp [hmCall, hrun]⟩ trivial
  | pop key eq =>
    obtain ⟨kn, hkn⟩ := Option.isSome_iff_exists.mp hadm
    obtain ⟨r, mem, map, ys, hrun, -⟩ := hxs.pop hkn (pureEq_eq eq key xs)
    refine iff_of_true ⟨⟨mem, map, s.linked.filter fun x => r ≠ some x⟩, ?_⟩ trivial
    simp [hmCall, hrun]

/-- A run of the map completes exactly when every doubling it starts finds the
retired table evenly filled. -/
theorem resizing_completes_iff {calls : List HmCall}
    (hadm : Run.AllSteps hmCall HmCall.Admissible {} calls) :
    (∃ s, Run.run hmCall {} calls = .ok s) ↔ Run.AllSteps hmCall HmCall.Even {} calls :=
  Run.run_ok_iff (fun _ _ _ hs hadm hstep => hmInv_step hs hadm hstep)
    (fun _ _ hs hadm => hmCall_ok_iff hs hadm) hmInv_empty hadm

def insertCodes (codes : List UInt64) : List HmCall :=
  codes.map (fun hcode => .alloc { hcode := hcode }) ++ (List.range codes.length).map .insert

theorem resizing_completes_even :
    (∃ s, Run.run hmCall {} (insertCodes ((List.range 36).map UInt64.ofNat)) = .ok s) ↔
      Run.AllSteps hmCall HmCall.Even {} (insertCodes ((List.range 36).map UInt64.ofNat)) :=
  resizing_completes_iff (by decide +kernel)

theorem resizing_crashes :
    Run.AllSteps hmCall HmCall.Admissible {} (insertCodes (List.replicate 36 2)) ∧
      Run.run hmCall {} (insertCodes (List.replicate 36 2)) = .error .nullDeref := by
  decide +kernel

end NanoRedis
