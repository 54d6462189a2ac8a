import NanoRedis.HashTable.Runs

/-! The work of one resizing step. The counter of `hm_help_resizing` stays at
zero, so a call that gets past the empty buckets drains the retired table. -/

namespace NanoRedis
open Intrusive
variable {mem mem' : Heap HNode} {m m' : HMap} {c1 c2 c1' c2' : List (List Nat)}

def HMap.Bounded (m m' : HMap) : Prop :=
  m'.tb2.size = m.tb2.size - min kResizingWork m.tb2.size ∧
    m'.tb1.size = m.tb1.size + min kResizingWork m.tb2.size

instance HMap.decidableDoubles (m : HMap) : Decidable m.Doubles :=
  inferInstanceAs (Decidable (_ ∧ _))

def HMap.toMove (m : HMap) : Nat := if m.Doubles then m.tb1.size + 1 else m.tb2.size

theorem Migrated.tb2_size (h : Migrated mem m c1 c2 mem' m' c1' c2') : m'.tb2.size = 0 := by
  rw [h.wf.tb2.size_eq, h.empty, List.length_nil]

theorem Migrated.tb1_size (hwf : WellFormed mem m c1 c2)
    (h : Migrated mem m c1 c2 mem' m' c1' c2') :
    m'.tb1.size = m.tb1.size + m.tb2.size := by
  rw [h.wf.tb1.size_eq, h.perm.length_eq, List.length_append, hwf.tb1.size_eq, hwf.tb2.size_eq]

theorem Migrated.bounded_iff (hwf : WellFormed mem m c1 c2)
    (h : Migrated mem m c1 c2 mem' m' c1' c2') : m.Bounded m' ↔ m.tb2.size ≤ kResizingWork := by
  unfold HMap.Bounded
  rw [h.tb2_size, h.tb1_size hwf]
  omega

theorem hmHelpResizing_bounded_iff (h : WellFormed mem m c1 c2) :
    (∀ mem' m', hmHelpResizing mem m = .ok (mem', m') → m.Bounded m') ↔
      (NoHole c2 m.resizingPos → m.tb2.size ≤ kResizingWork) := by
  obtain ⟨hyes, hno⟩ := hmHelpResizing_spec h
  by_cases hc : NoHole c2 m.resizingPos
  · obtain ⟨memH, mH, cH, hrun, -, hmig⟩ := hyes hc
    simp only [hrun, Except.ok.injEq, Prod.mk.injEq, hc, true_implies, ← hmig.bounded_iff h]
    exact ⟨fun hall => hall memH mH ⟨rfl, rfl⟩, fun hb => by rintro _ _ ⟨rfl, rfl⟩; exact hb⟩
  · simp [hno hc, hc]

theorem hmLookup_work_iff (h : WellFormed mem m c1 c2) {key : Nat} {kn : HNode}
    (hkey : mem.get? key = some kn) {eq : HEq} {e : Nat → Bool}
    (heq : ∀ y ∈ c1.flatten ++ c2.flatten, eq key y = .ok (e y)) :
    (∀ r mem' m', hmLookup mem m key eq = .ok (r, mem', m') →
        m.tb2.size - m'.tb2.size ≤ kResizingWork) ↔
      (NoHole c2 m.resizingPos → m.tb2.size ≤ kResizingWork) := by
  obtain ⟨hyes, hno⟩ := hmLookup_spec h hkey heq
  by_cases hc : NoHole c2 m.resizingPos
  · obtain ⟨r, memH, mH, cH, hrun, -, hmig, -⟩ := hyes hc
    have hmoved : m.tb2.size - mH.tb2.size = m.tb2.size := by rw [hmig.tb2_size, Nat.sub_zero]
    simp only [hrun, Except.ok.injEq, Prod.mk.injEq, hc, true_implies]
    refine ⟨fun hall => hmoved ▸ hall r memH mH ⟨rfl, rfl, rfl⟩, fun hle => ?_⟩
    rintro _ _ _ ⟨-, -, rfl⟩
    rwa [hmoved]
  · simp [hno hc, hc]

def HMap.InsertPasses (m : HMap) (c2 : List (List Nat)) (hcode : UInt64) : Prop :=
  if m.Doubles then m.EvenlyFilled hcode else NoHole c2 m.resizingPos

theorem hmInsert_work_iff (h : WellFormed mem m c1 c2) {x : Nat} {n : HNode}
    (hn : mem.get? x = some n) (hx : x ∉ c1.flatten ++ c2.flatten) :
    (∀ mem' m', hmInsert mem m x = .ok (mem', m') → m.toMove - m'.tb2.size ≤ kResizingWork) ↔
      (m.InsertPasses c2 n.hcode → m.toMove ≤ kResizingWork) := by
  obtain ⟨memI, mI, cI1, cI2, zs, heq, hzs, hlink, -⟩ := hmInsert_spec h hn hx
  obtain ⟨hyes, hno⟩ := hmHelpResizing_spec hlink.wf
  have hpasses : NoHole cI2 mI.resizingPos ↔ m.InsertPasses c2 n.hcode := by
    by_cases hd : m.Doubles
    · obtain ⟨rfl, hpos, -⟩ := hlink.doubles hd
      simp only [HMap.InsertPasses, if_pos hd, NoHole, hpos, HMap.EvenlyFilled, filled_iff h hzs]
    · obtain ⟨-, rfl, hpos, -⟩ := hlink.stays hd
      unfold HMap.InsertPasses
      rw [if_neg hd, hpos]
  rw [heq, ← hpasses]
  by_cases hc : NoHole cI2 mI.resizingPos
  · obtain ⟨memH, mH, cH, hrun, -, hmig⟩ := hyes hc
    have hmoved : m.toMove - mH.tb2.size = m.toMove := by rw [hmig.tb2_size, Nat.sub_zero]
    simp only [hrun, Except.ok.injEq, Prod.mk.injEq, hc, true_implies]
    refine ⟨fun hall => hmoved ▸ hall memH mH ⟨rfl, rfl⟩, fun hle => ?_⟩
    rintro _ _ ⟨-, rfl⟩
    rwa [hmoved]
  · simp [hno hc, hc]

/-- A resizing step is bounded exactly when at most `k_resizing_work` nodes wait for it
or it stops at a run of empty buckets; the same holds of the steps inside a lookup and
an insertion. -/
theorem resizing_work_iff {mem : Heap HNode} {m : HMap} {c1 c2 : List (List Nat)}
    (h : WellFormed mem m c1 c2) :
    ((∀ mem' m', hmHelpResizing mem m = .ok (mem', m') → m.Bounded m') ↔
      (NoHole c2 m.resizingPos → m.tb2.size ≤ kResizingWork)) ∧
    (∀ key eq, (mem.get? key).isSome →
      ((∀ r mem' m', hmLookup mem m key (pureEq eq) = .ok (r, mem', m') →
          m.tb2.size - m'.tb2.size ≤ kResizingWork) ↔
        (NoHole c2 m.resizingPos → m.tb2.size ≤ kResizingWork))) ∧
    (∀ x n, mem.get? x = some n → x ∉ c1.flatten ++ c2.flatten →
      ((∀ mem' m', hmInsert mem m x = .ok (mem', m') →
          m.toMove - m'.tb2.size ≤ kResizingWork) ↔
        (m.InsertPasses c2 n.hcode → m.toMove ≤ kResizingWork))) := by
  refine ⟨hmHelpResizing_bounded_iff h, fun key eq hkey => ?_, fun x n hn hx =>
    hmInsert_work_iff h hn hx⟩
  obtain ⟨kn, hkn⟩ := Option.isSome_iff_exists.mp hkey
  exact hmLookup_work_iff h hkn (pureEq_eq eq key _)

theorem resizing_work_migrating :
    ∃ c1 c2 : List (List Nat), c1.flatten ++ c2.flatten = [0, 1] ∧
      ((∀ mem' m', hmHelpResizing ⟨[some { hcode := 4 }, some { hcode := 3 }, some { hcode := 3 },
        some { hcode := 6 }]⟩ ⟨⟨some [some 0, none], 1, 1⟩, ⟨some [some 1], 0, 1⟩, 0⟩ =
          .ok (mem', m') →
        HMap.Bounded ⟨⟨some [some 0, none], 1, 1⟩, ⟨some [some 1], 0, 1⟩, 0⟩ m') ↔
      (NoHole c2 0 → 1 ≤ kResizingWork)) :=
  have ⟨c1, c2, hwf, hxs⟩ := stores_migrating
  ⟨c1, c2, hxs.symm, (resizing_work_iff hwf).1⟩

def crowding : List HmCall := insertCodes (List.replicate 143 0) ++ [.alloc {}]

def HmClient.drainsAt (s : HmClient) (x : Nat) : Bool :=
  match hmInsert s.mem s.map x with
  | .ok (_, m) => HmCall.Admissible s (.insert x) ∧ s.map.Doubles ∧ s.map.tb1.size = 143 ∧
      m.tb2.size = 0
  | .error _ => false

set_option maxRecDepth 40000 in
theorem crowding_drains :
    Run.AllSteps hmCall HmCall.Admissible {} crowding ∧
      (Run.run hmCall {} crowding).toOption.any (fun s => s.drainsAt 143) = true := by
  decide +kernel

theorem HmClient.drainsAt_spec {s : HmClient} {x : Nat} (h : s.drainsAt x = true) :
    ∃ mem m, hmInsert s.mem s.map x = .ok (mem, m) ∧ HmCall.Admissible s (.insert x) ∧
      s.map.Doubles ∧ s.map.tb1.size = 143 ∧ m.tb2.size = 0 := by
  unfold HmClient.drainsAt at h
  split at h
  next mem m hrun => exact ⟨mem, m, hrun, by simpa using h⟩
  next => cases h

/-- The insertion after `crowding` starts a doubling, and its one resizing step moves all
144 nodes. -/
theorem resizing_step_unbounded :
    ∃ s, Run.run hmCall {} crowding = .ok s ∧ HmCall.Admissible s (.insert 143) ∧
      ∃ memI mI cI1 cI2 mem m, WellFormed memI mI cI1 cI2 ∧
        hmInsert s.mem s.map 143 = hmHelpResizing memI mI ∧
        hmHelpResizing memI mI = .ok (mem, m) ∧ ¬ mI.Bounded m ∧
        kResizingWork < s.map.toMove - m.tb2.size := by
  obtain ⟨hadm, hany⟩ := crowding_drains
  obtain ⟨s, hrun, hdrains⟩ : ∃ s, Run.run hmCall {} crowding = .ok s ∧ s.drainsAt 143 = true := by
    cases hs : Run.run hmCall {} crowding with
    | error e => simp [hs, Except.toOption] at hany
    | ok s => exact ⟨s, rfl, by simpa [hs, Except.toOption] using hany⟩
  obtain ⟨mem, m, hinsert, hlive, hdoubles, hsize, hsize₂⟩ := HmClient.drainsAt_spec hdrains
  have hinv : HmInv s := Run.inv_of_allSteps (fun _ _ _ => hmInv_step) hmInv_empty hadm hrun
  obtain ⟨xs, ⟨c1, c2, hwf, rfl⟩, hperm⟩ := hinv.stores
  obtain ⟨n, hn⟩ := Option.isSome_iff_exists.mp hlive.1
  obtain ⟨memI, mI, cI1, cI2, zs, heq, hzs, hlink, -⟩ :=
    hmInsert_spec hwf hn fun hx => hlive.2 (hperm.mem_iff.mp hx)
  have hwaiting : mI.tb2.size = 144 := by
    obtain ⟨rfl, -, -⟩ := hlink.doubles hdoubles
    obtain ⟨_, -, -, -, -, -, hflat⟩ := insert_ready hwf
    have hlen := (Buckets.flatten_set_perm hzs (List.Perm.refl (143 :: zs))).length_eq
    rw [hlink.wf.tb2.size_eq, hlen, List.length_cons, hflat, ← hwf.tb1.size_eq, hsize]
  refine ⟨s, hrun, hlive, memI, mI, cI1, cI2, mem, m, hlink.wf, heq, heq ▸ hinsert, ?_, ?_⟩
  -- a bounded step would leave sixteen of them
  · rintro ⟨hleft, -⟩
    rw [hsize₂, hwaiting] at hleft
    exact absurd hleft (by decide)
  · unfold HMap.toMove
    rw [if_pos hdoubles, hsize, hsize₂]
    decide

end NanoRedis
