import NanoRedis.HashTable.Operations

/-! Progressive resizing: the representation invariant of the two tables, and
the exact condition under which a migration gets past the empty buckets. -/

namespace NanoRedis
open Intrusive

/-- The map holds the chains `c1` in `tb1` and `c2` in `tb2`. -/
structure WellFormed (mem : Heap HNode) (m : HMap) (c1 c2 : List (List Nat)) : Prop where
  tb1 : TabRep mem m.tb1 c1
  tb2 : TabRep mem m.tb2 c2
  nodup : (c1.flatten ++ c2.flatten).Nodup
  alloc : m.tb2.tab.isSome → m.tb1.tab.isSome
  drained : ∀ i xs, i < m.resizingPos → c2[i]? = some xs → xs = []

def Occupied (cs : List (List Nat)) (i : Nat) : Prop := ∃ x xs, cs[i]? = some (x :: xs)

/-- Past the cursor, every bucket below an occupied one is occupied. -/
def NoHole (cs : List (List Nat)) (pos : Nat) : Prop :=
  ∀ i j, pos < i → i < j → Occupied cs j → Occupied cs i

theorem occupied_set_iff {cs : List (List Nat)} {i j : Nat} (hij : i ≠ j) (xs : List Nat) :
    Occupied (cs.set i xs) j ↔ Occupied cs j := by
  simp only [Occupied, List.getElem?_set_ne hij]

theorem occupied_of_getElem? {cs : List (List Nat)} {i : Nat} {xs : List Nat}
    (hi : cs[i]? = some xs) :
    Occupied cs i ↔ xs ≠ [] := by
  constructor
  · rintro ⟨x, ys, hx⟩ rfl
    simp [hi] at hx
  · intro hne
    cases xs with
    | nil => exact absurd rfl hne
    | cons x xs => exact ⟨x, xs, hi⟩

theorem noHole_of_flatten_eq_nil {cs : List (List Nat)} (h : cs.flatten = []) (pos : Nat) :
    NoHole cs pos := by
  rintro i j - - ⟨x, xs, hj⟩
  exact absurd (Buckets.flatten_eq_nil_iff.mp h j _ hj) (by simp)

theorem noHole_set_iff {cs : List (List Nat)} {k : Nat} (xs : List Nat) :
    NoHole (cs.set k xs) k ↔ NoHole cs k := by
  constructor
  · intro h i j hi hij hj
    exact (occupied_set_iff hi.ne xs).mp
      (h i j hi hij ((occupied_set_iff (hi.trans hij).ne xs).mpr hj))
  · intro h i j hi hij hj
    exact (occupied_set_iff hi.ne xs).mpr
      (h i j hi hij ((occupied_set_iff (hi.trans hij).ne xs).mp hj))

theorem noHole_succ_iff {cs : List (List Nat)} {pos : Nat} (h : Occupied cs (pos + 1)) :
    NoHole cs (pos + 1) ↔ NoHole cs pos := by
  constructor
  · intro hno i j hi hij hj
    rcases eq_or_lt_of_le (Nat.succ_le_of_lt hi) with rfl | hlt
    · exact h
    · exact hno i j hlt hij hj
  · exact fun hno i j hi => hno i j (Nat.lt_of_succ_lt hi)

namespace WellFormed
variable {mem mem' : Heap HNode} {m : HMap} {c1 c2 : List (List Nat)}

theorem disjoint (h : WellFormed mem m c1 c2) {x : Nat} (h₁ : x ∈ c1.flatten) : x ∉ c2.flatten :=
  fun h₂ => List.disjoint_of_nodup_append h.nodup h₁ h₂

theorem tb2_isSome (h : WellFormed mem m c1 c2) (hsize : 0 < m.tb2.size) : m.tb2.tab.isSome := by
  cases htab : m.tb2.tab with
  | none =>
    obtain rfl := h.tb2.eq_nil htab
    exact absurd h.tb2.size_eq (by simpa using hsize.ne')
  | some slots => rfl

theorem tb2_bucket (h : WellFormed mem m c1 c2) {i : Nat} {xs : List Nat} (hi : c2[i]? = some xs) :
    ∃ p, m.tb2.bucket i = .ok p ∧ (p = none ↔ xs = []) := by
  obtain ⟨p, hp, hc⟩ := h.tb2.bucket_eq hi
  refine ⟨p, hp, ?_, ?_⟩
  · rintro rfl
    exact chain_none_iff.mp hc
  · rintro rfl
    exact chain_nil_iff.mp hc

theorem exists_get? (h : WellFormed mem m c1 c2) {x : Nat} (hx : x ∈ c1.flatten ++ c2.flatten) :
    ∃ n, mem.get? x = some n := by
  rcases List.mem_append.mp hx with hx | hx
  · exact h.tb1.exists_get? hx
  · exact h.tb2.exists_get? hx

theorem congr (h : WellFormed mem m c1 c2)
    (hag : ∀ x ∈ c1.flatten ++ c2.flatten, mem'.get? x = mem.get? x) : WellFormed mem' m c1 c2 :=
  ⟨h.tb1.congr fun x hx => hag x (List.mem_append_left _ hx),
    h.tb2.congr fun x hx => hag x (List.mem_append_right _ hx), h.nodup, h.alloc, h.drained⟩

/-- Nothing is stored below the cursor, so a non-empty `tb2` has its cursor on a bucket. -/
theorem exists_occupied (h : WellFormed mem m c1 c2) (hsize : 0 < m.tb2.size) :
    ∃ j, m.resizingPos ≤ j ∧ Occupied c2 j := by
  have hne : c2.flatten ≠ [] := by
    intro hnil
    rw [h.tb2.size_eq, hnil] at hsize
    simp at hsize
  obtain ⟨j, x, xs, hj⟩ := Buckets.exists_cons_of_flatten_ne_nil hne
  refine ⟨j, ?_, x, xs, hj⟩
  by_contra hlt
  exact absurd (h.drained j _ (not_le.mp hlt) hj) (by simp)

end WellFormed

def sourceBucket (m : HMap) (c2 : List (List Nat)) : Nat :=
  if c2[m.resizingPos]? = some [] then m.resizingPos + 1 else m.resizingPos

section Move
variable {mem : Heap HNode} {m : HMap} {c1 c2 : List (List Nat)}

theorem sourceBucket_spec (h : WellFormed mem m c1 c2) (hsize : 0 < m.tb2.size) :
    ∃ p xs, m.tb2.bucket m.resizingPos = .ok p ∧ c2[sourceBucket m c2]? = some xs ∧
      (if p.isNone then m.resizingPos + 1 else m.resizingPos) = sourceBucket m c2 ∧
      (NoHole c2 (sourceBucket m c2) ∧ xs ≠ [] ↔ NoHole c2 m.resizingPos) ∧
      (∀ i ys, i < sourceBucket m c2 → c2[i]? = some ys → ys = []) := by
  obtain ⟨j, hj, hocc⟩ := h.exists_occupied hsize
  have hlen : j < c2.length := by
    obtain ⟨x, xs, hget⟩ := hocc
    exact (List.getElem?_eq_some_iff.mp hget).1
  obtain ⟨ys, hpos⟩ : ∃ ys, c2[m.resizingPos]? = some ys := ⟨_, List.getElem?_eq_getElem (by omega)⟩
  obtain ⟨p, hp, hnull⟩ := h.tb2_bucket hpos
  cases ys with
  | nil =>
    -- the next bucket in use lies behind the cursor, but need not be the very next one
    have hsrc : sourceBucket m c2 = m.resizingPos + 1 := if_pos hpos
    have hlt : m.resizingPos < j := by
      refine lt_of_le_of_ne hj ?_
      rintro rfl
      exact (occupied_of_getElem? hpos).mp hocc rfl
    obtain ⟨xs, hnext⟩ : ∃ xs, c2[m.resizingPos + 1]? = some xs :=
      ⟨_, List.getElem?_eq_getElem (by omega)⟩
    rw [hsrc]
    refine ⟨p, xs, hp, hnext, by rw [hnull.mpr rfl]; rfl, ?_, ?_⟩
    · constructor
      · rintro ⟨hno, hxs⟩
        exact (noHole_succ_iff ((occupied_of_getElem? hnext).mpr hxs)).mp hno
      · intro hno
        have hocc' : Occupied c2 (m.resizingPos + 1) := by
          rcases eq_or_lt_of_le (Nat.succ_le_of_lt hlt) with hjeq | hlt'
          · rwa [show m.resizingPos + 1 = j from hjeq]
          · exact hno _ j (Nat.lt_succ_self _) hlt' hocc
        exact ⟨(noHole_succ_iff hocc').mpr hno, (occupied_of_getElem? hnext).mp hocc'⟩
    · intro i zs hi hget
      rcases Nat.lt_succ_iff_lt_or_eq.mp hi with hlt' | rfl
      · exact h.drained i zs hlt' hget
      · exact Option.some.inj (hget.symm.trans hpos)
  | cons y ys =>
    have hsrc : sourceBucket m c2 = m.resizingPos := if_neg (by simp [hpos])
    have hsome : p.isNone = false := by
      rw [Option.isNone_eq_false_iff, Option.isSome_iff_ne_none]
      exact fun hnone => absurd (hnull.mp hnone) (by simp)
    rw [hsrc]
    exact ⟨p, y :: ys, hp, hpos, by rw [hsome]; rfl, and_iff_left (by simp), h.drained⟩

theorem moveNode_empty (h : WellFormed mem m c1 c2) (hsize : 0 < m.tb2.size)
    (hempty : c2[sourceBucket m c2]? = some []) : moveNode mem m = .error .nullDeref := by
  obtain ⟨p, xs, hp, hxs, hsrc, -, -⟩ := sourceBucket_spec h hsize
  obtain ⟨q, hq, hnull⟩ := h.tb2_bucket hempty
  rw [hnull.mpr rfl] at hq
  simp only [moveNode, hp, hsrc, hDetach, readSlot, hq, load_none, ok_bind, error_bind]

theorem moveNode_cons (h : WellFormed mem m c1 c2) (hsize : 0 < m.tb2.size) {x : Nat}
    {xs : List Nat} (hsrc : c2[sourceBucket m c2]? = some (x :: xs)) :
    ∃ mem' m' c1', moveNode mem m = .ok (mem', m') ∧
      WellFormed mem' m' c1' (c2.set (sourceBucket m c2) xs) ∧ c1'.flatten.Perm (x :: c1.flatten) ∧
      m'.resizingPos = sourceBucket m c2 ∧ m'.tb1.mask = m.tb1.mask ∧ m'.tb1.tab.isSome ∧
      Relinked mem mem' (c1.flatten ++ c2.flatten) := by
  obtain ⟨p, -, hp, -, hpos, -, hdrained⟩ := sourceBucket_spec h hsize
  have hcut : c2[sourceBucket m c2]? = some ([] ++ x :: xs) := hsrc
  have hperm : c2.flatten.Perm (x :: (c2.set (sourceBucket m c2) xs).flatten) :=
    Buckets.flatten_perm_of_mem hcut
  obtain ⟨-, hnd₂, -⟩ := List.nodup_append.mp h.nodup
  have hx₂ : x ∈ c2.flatten := hperm.mem_iff.mpr (List.mem_cons_self ..)
  have hx₁ : x ∉ c1.flatten := fun hx => h.disjoint hx hx₂
  obtain ⟨n, hn⟩ := h.tb2.exists_get? hx₂
  obtain ⟨memD, tb2, hdet, htb2, htab2, -, hrD⟩ := hDetach_spec h.tb2 hnd₂ hcut
  obtain ⟨nD, hnD, -⟩ := hrD.exists_get? hn
  obtain ⟨memI, tb1, ys, hins, hys, htb1, htab1, hmask, hrI⟩ :=
    hInsert_spec (h.tb1.frame hrD (by simp)) (h.alloc (h.tb2_isSome hsize)) hnD hx₁
  -- between the two calls the node is in neither table
  have hx₂' : x ∉ (c2.set (sourceBucket m c2) xs).flatten :=
    (List.nodup_cons.mp (hperm.nodup_iff.mp hnd₂)).1
  have hperm₁ := Buckets.flatten_set_perm hys (List.Perm.refl (x :: ys))
  refine ⟨memI, ⟨tb1, tb2, sourceBucket m c2⟩, _, ?_, ⟨htb1, ?_, ?_, fun _ => htab1, ?_⟩, hperm₁,
    rfl,
    hmask, htab1, ?_⟩
  · change hDetach mem m.tb2 (.bucket (sourceBucket m c2)) = _ at hdet
    simp only [moveNode, hp, hpos, hdet, hins, ok_bind, pure_eq_ok]
  · exact htb2.frame hrI fun y hy hyx => hx₂' ((List.mem_singleton.mp hyx) ▸ hy)
  · have hmove : (x :: c1.flatten ++ (c2.set (sourceBucket m c2) xs).flatten).Perm
        (c1.flatten ++ c2.flatten) :=
      List.perm_middle.symm.trans (hperm.symm.append_left c1.flatten)
    exact ((hperm₁.append_right _).trans hmove).nodup_iff.mpr h.nodup
  · intro i zs hi hget
    rw [List.getElem?_set_ne hi.ne'] at hget
    exact hdrained i zs hi hget
  · refine (hrD.mono (List.nil_subset _)).trans (hrI.mono ?_)
    simpa using .inr (by simpa using hx₂)

structure Migrated (mem : Heap HNode) (m : HMap) (c1 c2 : List (List Nat))
    (mem' : Heap HNode) (m' : HMap) (c1' c2' : List (List Nat)) : Prop where
  wf : WellFormed mem' m' c1' c2'
  empty : c2'.flatten = []
  perm : c1'.flatten.Perm (c1.flatten ++ c2.flatten)
  mask_eq : m'.tb1.mask = m.tb1.mask
  tab_eq : m'.tb1.tab.isSome = m.tb1.tab.isSome
  relinked : Relinked mem mem' (c1.flatten ++ c2.flatten)

theorem help_drained (h : WellFormed mem m c1 c2) (hsize : m.tb2.size = 0) (fuel : Nat) :
    (NoHole c2 m.resizingPos → ∃ mem' m' c1' c2', helpResizingLoop 0 fuel mem m = .ok (mem', m') ∧
        Migrated mem m c1 c2 mem' m' c1' c2') ∧
      (¬ NoHole c2 m.resizingPos → helpResizingLoop 0 fuel mem m = .error .nullDeref) := by
  have hnil : c2.flatten = [] := List.length_eq_zero_iff.mp (h.tb2.size_eq ▸ hsize)
  have hrun : helpResizingLoop 0 fuel mem m = .ok (mem, m) := by
    have hguard : ¬ (0 < kResizingWork ∧ m.tb2.size > 0) := by omega
    cases fuel <;> simp only [helpResizingLoop, if_neg hguard]
  refine ⟨fun _ => ⟨mem, m, c1, c2, hrun, h, hnil, by simp [hnil], rfl, rfl, Relinked.refl ..⟩,
    fun hno => ?_⟩
  exact absurd (noHole_of_flatten_eq_nil hnil _) hno

theorem helpResizingLoop_spec {fuel : Nat} (h : WellFormed mem m c1 c2)
    (hfuel : m.tb2.size ≤ fuel) :
    (NoHole c2 m.resizingPos → ∃ mem' m' c1' c2', helpResizingLoop 0 fuel mem m = .ok (mem', m') ∧
        Migrated mem m c1 c2 mem' m' c1' c2') ∧
      (¬ NoHole c2 m.resizingPos → helpResizingLoop 0 fuel mem m = .error .nullDeref) := by
  induction fuel generalizing mem m c1 c2 with
  | zero => exact help_drained h (Nat.le_zero.mp hfuel) 0
  | succ fuel ih =>
    rcases Nat.eq_zero_or_pos m.tb2.size with hzero | hsize
    · exact help_drained h hzero (fuel + 1)
    · have hguard : 0 < kResizingWork ∧ m.tb2.size > 0 := ⟨by decide, hsize⟩
      obtain ⟨p, xs, hp, hxs, hpos, hnoHole, hdrained⟩ := sourceBucket_spec h hsize
      cases xs with
      | nil =>
        have hno : ¬ NoHole c2 m.resizingPos := fun hno => (hnoHole.mpr hno).2 rfl
        refine ⟨fun hyes => absurd hyes hno, fun _ => ?_⟩
        simp only [helpResizingLoop, if_pos hguard, moveNode_empty h hsize hxs, error_bind]
      | cons x xs =>
        obtain ⟨memM, mM, c1M, hmove, hwf, hperm, hposM, hmask, htab, hr⟩ :=
          moveNode_cons h hsize hxs
        have hcut : c2[sourceBucket m c2]? = some ([] ++ x :: xs) := hxs
        have hperm₂ : c2.flatten.Perm (x :: (c2.set (sourceBucket m c2) xs).flatten) :=
          Buckets.flatten_perm_of_mem hcut
        have hsizeM : mM.tb2.size ≤ fuel := by
          have hlen := hperm₂.length_eq
          rw [← h.tb2.size_eq, List.length_cons, ← hwf.tb2.size_eq] at hlen
          omega
        have hall : (c1M.flatten ++ (c2.set (sourceBucket m c2) xs).flatten).Perm
            (c1.flatten ++ c2.flatten) :=
          (hperm.append_right _).trans
            (List.perm_middle.symm.trans (hperm₂.symm.append_left c1.flatten))
        have hiff : NoHole (c2.set (sourceBucket m c2) xs) mM.resizingPos ↔
            NoHole c2 m.resizingPos := by
          rw [hposM, noHole_set_iff, ← hnoHole]
          simp
        -- the rest of the migration meets a hole exactly when the whole of it does
        obtain ⟨hyes, hno⟩ := ih hwf hsizeM
        simp only [helpResizingLoop, if_pos hguard, hmove, ok_bind]
        refine ⟨fun hc => ?_, fun hc => hno (hiff.not.mpr hc)⟩
        obtain ⟨mem', m', c1', c2', hrun, hmig⟩ := hyes (hiff.mpr hc)
        exact ⟨mem', m', c1', c2', hrun, hmig.wf, hmig.empty, hmig.perm.trans hall,
          hmig.mask_eq.trans hmask, by
            rw [hmig.tab_eq, htab, h.alloc (h.tb2_isSome hsize)],
          hr.trans (hmig.relinked.mono hall.subset)⟩

end Move

end NanoRedis
