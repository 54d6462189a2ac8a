import NanoRedis.HashTable.Runs

/-! The load of the hash map over whole runs. Between two calls no migration is
pending, so the test of `hm_insert` on `tb1` alone bounds both tables. -/

namespace NanoRedis
open Intrusive

section Masks
variable {mem : Heap HNode} {m : HMap} {xs : List Nat}

theorem Stores.pow2 (h : Stores mem m xs) (htab : m.tb1.tab.isSome) :
    ∃ k, m.tb1.mask + 1 = 2 ^ k := by
  obtain ⟨c1, c2, hwf, -⟩ := h
  exact hwf.tb1.pow2 htab

theorem Stores.tb2_size (h : Stores mem m xs) (hsettled : m.tb2.tab = none) : m.tb2.size = 0 := by
  obtain ⟨c1, c2, hwf, -⟩ := h
  rw [hwf.tb2.size_eq, hwf.tb2.eq_nil hsettled]
  rfl

theorem Stores.tb1_size (h : Stores mem m xs) (htab : m.tb1.tab = none) : m.tb1.size = 0 := by
  obtain ⟨c1, c2, hwf, -⟩ := h
  rw [hwf.tb1.size_eq, hwf.tb1.eq_nil htab]
  rfl

end Masks

/-- An allocated `tb1` has a power of two of buckets, four at the least, and the map fewer than
`kMaxLoadFactor + 1` nodes for each of them. -/
def HMap.LoadBounded (m : HMap) : Prop :=
  m.tb1.tab.isSome → (∃ k, m.tb1.mask + 1 = 2 ^ k) ∧ 4 ≤ m.tb1.mask + 1 ∧
    m.tb1.size + m.tb2.size < (kMaxLoadFactor + 1) * (m.tb1.mask + 1)

theorem load_insert {mem mem' : Heap HNode} {m m' : HMap} {xs : List Nat} (h : Stores mem m xs)
    (hsettled : m.tb2.tab = none) (hload : m.LoadBounded) {x : Nat} {n : HNode}
    (hn : mem.get? x = some n) (hx : x ∉ xs) (hrun : hmInsert mem m x = .ok (mem', m')) :
    m'.LoadBounded := by
  intro _
  obtain ⟨ys, hys, hperm, -, -, hgrown⟩ := h.insert hn hx hrun
  have hsize : m'.tb1.size + m'.tb2.size = m.tb1.size + 1 := by
    rw [← hys.length_eq, hperm.length_eq, List.length_cons, h.length_eq, h.tb2_size hsettled,
      Nat.add_zero]
  have hready : 4 ≤ m.insertMask + 1 ∧ m.tb1.size < (kMaxLoadFactor + 1) * (m.insertMask + 1) := by
    cases htab : m.tb1.tab with
    | none => simp [HMap.insertMask, htab, h.tb1_size htab, kMaxLoadFactor]
    | some slots =>
      obtain ⟨-, hfour, hlt⟩ := hload (by simp [htab])
      rw [h.tb2_size hsettled, Nat.add_zero] at hlt
      simpa [HMap.insertMask, htab] using And.intro hfour hlt
  refine ⟨hys.pow2 hgrown.tab, ?_⟩
  rw [hsize]
  by_cases hd : m.Doubles
  · -- twice the buckets leave room for one more node
    have hmask := hgrown.doubles hd
    rw [hmask, kMaxLoadFactor] at *
    omega
  · -- the test of the load factor is the bound
    have hfactor : (m.tb1.size + 1) / (m.insertMask + 1) < kMaxLoadFactor + 1 := by
      have hle := not_lt.mp fun hgt => hd ⟨hsettled, hgt⟩
      omega
    rw [hgrown.stays hd]
    exact ⟨hready.1, (Nat.div_lt_iff_lt_mul (Nat.succ_pos _)).mp hfactor⟩

theorem HMap.LoadBounded.shrink {m m' : HMap} (hload : m.LoadBounded)
    (hsame : SameBuckets m m')
    (hle : m'.tb1.size + m'.tb2.size ≤ m.tb1.size + m.tb2.size) : m'.LoadBounded := by
  intro hsome
  obtain ⟨hpow, hfour, hlt⟩ := hload (hsame.tab ▸ hsome)
  rw [hsame.mask]
  exact ⟨hpow, hfour, hle.trans_lt hlt⟩

structure LoadInv (s : HmClient) : Prop where
  inv : HmInv s
  load : s.map.LoadBounded

theorem loadInv_empty : LoadInv {} := ⟨hmInv_empty, fun h => absurd h (by decide)⟩

theorem HmInv.size_eq {s : HmClient} (hs : HmInv s) :
    s.map.tb1.size + s.map.tb2.size = s.linked.length := by
  obtain ⟨xs, hxs, hperm⟩ := hs.stores
  rw [← hxs.length_eq, hperm.length_eq]

theorem loadInv_step {s s' : HmClient} {c : HmCall} (hs : LoadInv s) (hadm : c.Admissible s)
    (hstep : hmCall s c = .ok s') : LoadInv s' := by
  have hinv := hmInv_step hs.inv hadm hstep
  refine ⟨hinv, ?_⟩
  rcases hmCall_cases hs.inv hadm hstep with
    ⟨node, n, xs, rfl, hn, hxs, -, hx, hrun, -⟩ | ⟨-, -, hsame, hle⟩
  · exact load_insert hxs hs.inv.settled hs.load hn hx hrun
  · exact hs.load.shrink hsame (by rwa [hinv.size_eq, hs.inv.size_eq])

theorem hmCall_error {s : HmClient} {c : HmCall} {e : Fault} (hs : HmInv s)
    (hadm : c.Admissible s) (hstep : hmCall s c = .error e) : e = .nullDeref := by
  obtain ⟨xs, hxs, hperm⟩ := hs.stores
  cases c with
  | alloc node => cases hstep
  | free node => cases hstep
  | insert node =>
    obtain ⟨n, hn⟩ := Option.isSome_iff_exists.mp hadm.1
    rcases hxs.insert_total hn fun hx => hadm.2 (hperm.mem_iff.mp hx) with ⟨mem, m, hrun⟩ | hrun
    · simp [hmCall, hrun] at hstep
    · simpa [hmCall, hrun, eq_comm] using hstep
  | lookup key eq =>
    obtain ⟨kn, hkn⟩ := Option.isSome_iff_exists.mp hadm
    rcases hxs.lookup_total hkn (pureEq_eq eq key xs) with ⟨r, mem, m, hrun⟩ | hrun
    · simp [hmCall, hrun] at hstep
    · simpa [hmCall, hrun, eq_comm] using hstep
  | pop key eq =>
    obtain ⟨kn, hkn⟩ := Option.isSome_iff_exists.mp hadm
    obtain ⟨r, mem, m, ys, hrun, -⟩ := hxs.pop hkn (pureEq_eq eq key xs)
    simp [hmCall, hrun] at hstep

/-- After every call of a run from the empty map the load is bounded over both tables, which hold
the client's nodes; and no call of a run fails an assertion, so none starts a doubling while an
old table is still there. -/
theorem load_bounded {calls : List HmCall}
    (hadm : Run.AllSteps hmCall HmCall.Admissible {} calls) :
    (∀ done s, done <+: calls → Run.run hmCall {} done = .ok s →
      s.map.LoadBounded ∧ s.map.tb1.size + s.map.tb2.size = s.linked.length) ∧
      ∀ a, Run.run hmCall {} calls ≠ .error (.assertion a) := by
  constructor
  · rintro done s ⟨rest, rfl⟩ hrun
    have hs := Run.inv_of_allSteps (fun _ _ _ => loadInv_step) loadInv_empty hadm.of_append hrun
    exact ⟨hs.load, hs.inv.size_eq⟩
  · intro a hrun
    have herr := Run.error_of_allSteps (B := fun e => e = .nullDeref) (fun _ _ _ => hmInv_step)
      (fun _ _ _ => hmCall_error) hmInv_empty hadm hrun
    cases herr

theorem load_bounded_forty :
    (∀ done s, done <+: insertCodes ((List.range 40).map UInt64.ofNat) →
      Run.run hmCall {} done = .ok s →
      s.map.LoadBounded ∧ s.map.tb1.size + s.map.tb2.size = s.linked.length) ∧
      ∀ a, Run.run hmCall {} (insertCodes ((List.range 40).map UInt64.ofNat)) ≠
        .error (.assertion a) :=
  load_bounded (by decide +kernel)

end NanoRedis
