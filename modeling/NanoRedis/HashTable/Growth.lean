import NanoRedis.HashTable.Load
import NanoRedis.HashTable.Work
import NanoRedis.Lib.Amortized

/-! The growth of the hash map over whole runs: how many buckets it has, and what the
migrations cost that give it more. -/

namespace NanoRedis
open Intrusive

/-! ## The cost of a call -/

def helpResizingMoves (nWork : Nat) : Nat → Heap HNode → HMap → Nat
  | 0, _, _ => 0
  | fuel + 1, mem, hmap =>
    if nWork < kResizingWork ∧ hmap.tb2.size > 0 then
      match moveNode mem hmap with
      | .ok (mem, hmap) => helpResizingMoves nWork fuel mem hmap + 1
      | .error _ => 0
    else 0

def hmLink (mem : Heap HNode) (hmap : HMap) (node : Nat) : Except Fault (Heap HNode × HMap) := do
  let tb1 ← (if hmap.tb1.tab.isNone then hInit 4 else .ok hmap.tb1)
  let (mem, tb1) ← hInsert mem tb1 node
  let hmap := { hmap with tb1 := tb1 }
  if hmap.tb2.tab.isNone ∧ hmap.tb1.size / (hmap.tb1.mask + 1) > kMaxLoadFactor then
    let hmap ← hmStartResizing hmap
    return (mem, hmap)
  else return (mem, hmap)

theorem hmInsert_eq_link (mem : Heap HNode) (m : HMap) (x : Nat) :
    hmInsert mem m x = (do
      let (mem, m) ← hmLink mem m x
      hmHelpResizing mem m) := by
  unfold hmInsert hmLink
  cases (if m.tb1.tab.isNone then hInit 4 else .ok m.tb1) with
  | error e => rfl
  | ok t =>
    simp only [ok_bind]
    cases hInsert mem t x with
    | error e => rfl
    | ok r =>
      simp only [ok_bind]
      split_ifs with hfull
      · cases hmStartResizing { m with tb1 := r.2 } <;> rfl
      · rfl

def hmInsertMoves (mem : Heap HNode) (hmap : HMap) (node : Nat) : Nat :=
  match hmLink mem hmap node with
  | .ok (mem, hmap) => helpResizingMoves 0 hmap.tb2.size mem hmap
  | .error _ => 0

def HmCall.moves (s : HmClient) : HmCall → Nat
  | .insert node => hmInsertMoves s.mem s.map node
  | .lookup _ _ => helpResizingMoves 0 s.map.tb2.size s.mem s.map
  | .alloc _ | .free _ | .pop _ _ => 0

section Moves
variable {mem mem' : Heap HNode} {m m' : HMap}

theorem setBucket_size {t t' : HTab} {pos : Nat} {p : Ptr} (hrun : t.setBucket pos p = .ok t') :
    t'.size = t.size ∧ t'.mask = t.mask := by
  unfold HTab.setBucket at hrun
  split at hrun
  · cases hrun
  · split_ifs at hrun
    obtain rfl := Except.ok.inj hrun
    exact ⟨rfl, rfl⟩

theorem hInsert_size {t t' : HTab} {x : Nat} (hrun : hInsert mem t x = .ok (mem', t')) :
    t'.size = t.size + 1 ∧ t'.mask = t.mask := by
  unfold hInsert at hrun
  obtain ⟨n, -, hrun⟩ := bind_eq_ok.mp hrun
  obtain ⟨next, -, hrun⟩ := bind_eq_ok.mp hrun
  obtain ⟨memS, -, hrun⟩ := bind_eq_ok.mp hrun
  obtain ⟨tS, hset, hrun⟩ := bind_eq_ok.mp hrun
  cases hrun
  obtain ⟨hsize, hmask⟩ := setBucket_size hset
  exact ⟨congrArg (· + 1) hsize, hmask⟩

theorem hDetach_size {t t' : HTab} {slot : Slot} {p : Ptr}
    (hrun : hDetach mem t slot = .ok (p, mem', t')) : t'.size = t.size - 1 := by
  unfold hDetach at hrun
  obtain ⟨q, -, hrun⟩ := bind_eq_ok.mp hrun
  obtain ⟨n, -, hrun⟩ := bind_eq_ok.mp hrun
  obtain ⟨⟨memW, tW⟩, hwrite, hrun⟩ := bind_eq_ok.mp hrun
  cases hrun
  have hsize : tW.size = t.size := by
    cases slot with
    | bucket pos =>
      obtain ⟨tS, hset, heq⟩ := bind_eq_ok.mp hwrite
      cases heq
      exact (setBucket_size hset).1
    | next a =>
      obtain ⟨n', -, hwrite⟩ := bind_eq_ok.mp hwrite
      obtain ⟨memS, -, heq⟩ := bind_eq_ok.mp hwrite
      cases heq
      rfl
  exact congrArg (· - 1) hsize

theorem moveNode_size (hrun : moveNode mem m = .ok (mem', m')) :
    m'.tb2.size = m.tb2.size - 1 := by
  unfold moveNode at hrun
  obtain ⟨head, -, hrun⟩ := bind_eq_ok.mp hrun
  obtain ⟨⟨toMove, memD, tb2⟩, hdet, hrun⟩ := bind_eq_ok.mp hrun
  cases toMove with
  | none => cases hrun
  | some x =>
    obtain ⟨⟨memI, tb1⟩, -, hrun⟩ := bind_eq_ok.mp hrun
    cases hrun
    exact hDetach_size hdet

theorem helpResizingMoves_le (nWork fuel : Nat) (mem : Heap HNode) (m : HMap) :
    helpResizingMoves nWork fuel mem m ≤ m.tb2.size := by
  induction fuel generalizing mem m with
  | zero => exact Nat.zero_le _
  | succ fuel ih =>
    unfold helpResizingMoves
    split_ifs with hcond
    · cases hmove : moveNode mem m with
      | error e => exact Nat.zero_le _
      | ok r =>
        have hsize := moveNode_size hmove
        have hle := ih r.1 r.2
        dsimp only
        omega
    · exact Nat.zero_le _

theorem helpResizingMoves_eq {fuel : Nat} (hrun : helpResizingLoop 0 fuel mem m = .ok (mem', m')) :
    helpResizingMoves 0 fuel mem m = m.tb2.size := by
  induction fuel generalizing mem m with
  | zero =>
    unfold helpResizingLoop at hrun
    split_ifs at hrun with hcond
    have hzero : ¬ m.tb2.size > 0 := fun hpos => hcond ⟨by decide, hpos⟩
    exact (Nat.eq_zero_of_not_pos hzero).symm
  | succ fuel ih =>
    unfold helpResizingLoop at hrun
    unfold helpResizingMoves
    split_ifs at hrun ⊢ with hcond
    · obtain ⟨⟨memM, mM⟩, hmove, hrest⟩ := bind_eq_ok.mp hrun
      have hsize := moveNode_size hmove
      simp only [hmove, ih hrest]
      omega
    · have hzero : ¬ m.tb2.size > 0 := fun hpos => hcond ⟨by decide, hpos⟩
      exact (Nat.eq_zero_of_not_pos hzero).symm

theorem hmHelpResizing_moves (hrun : hmHelpResizing mem m = .ok (mem', m')) :
    helpResizingMoves 0 m.tb2.size mem m = m.tb2.size := by
  obtain ⟨⟨memL, mL⟩, hloop, -⟩ := bind_eq_ok.mp hrun
  exact helpResizingMoves_eq hloop

theorem hmLink_waiting {x : Nat} (hnull : m.tb1.tab = none → m.tb1.size = 0)
    (hrun : hmLink mem m x = .ok (mem', m')) : m'.tb2.size = m.toMove := by
  obtain ⟨t, ht, hrun⟩ := bind_eq_ok.mp hrun
  obtain ⟨⟨memI, tb1⟩, hins, hrun⟩ := bind_eq_ok.mp hrun
  have hready : t.size = m.tb1.size ∧ t.mask = m.insertMask := by
    unfold HMap.insertMask
    cases htab : m.tb1.tab with
    | none =>
      simp only [htab, Option.isNone_none, if_true] at ht
      cases ht
      exact ⟨(hnull htab).symm, rfl⟩
    | some slots =>
      simp only [htab, Option.isNone_some, Bool.false_eq_true, if_false] at ht
      cases ht
      exact ⟨rfl, rfl⟩
  obtain ⟨hsize, hmask⟩ := hInsert_size hins
  rw [hready.1] at hsize
  rw [hready.2] at hmask
  have hguard : (m.tb2.tab.isNone ∧ tb1.size / (tb1.mask + 1) > kMaxLoadFactor) ↔ m.Doubles := by
    unfold HMap.Doubles
    rw [hsize, hmask, Option.isNone_iff_eq_none]
  unfold HMap.toMove
  by_cases hd : m.Doubles
  · simp only [if_pos (hguard.mpr hd)] at hrun
    obtain ⟨mS, hstart, heq⟩ := bind_eq_ok.mp hrun
    cases heq
    unfold hmStartResizing at hstart
    simp only [hd.1, Option.isSome_none, Bool.false_eq_true, if_false] at hstart
    obtain ⟨tS, -, heq⟩ := bind_eq_ok.mp hstart
    cases heq
    rw [if_pos hd, hsize]
  · simp only [if_neg (hguard.not.mpr hd)] at hrun
    cases hrun
    rw [if_neg hd]

end Moves

/-! ## Runs -/

def HmClient.buckets (s : HmClient) : Nat := s.map.insertMask + 1

def HmClient.Full (s : HmClient) : Prop := (kMaxLoadFactor + 1) * s.buckets ≤ s.linked.length + 1

instance HmClient.decidableFull (s : HmClient) : Decidable s.Full :=
  inferInstanceAs (Decidable (_ ≤ _))

namespace LoadInv
variable {s s' : HmClient}

theorem tb1_size (hs : LoadInv s) : s.map.tb1.size = s.linked.length := by
  obtain ⟨xs, hxs, hperm⟩ := hs.inv.stores
  rw [← hperm.length_eq, hxs.length_eq, hxs.tb2_size hs.inv.settled, Nat.add_zero]

theorem fits (hs : LoadInv s) : s.linked.length < (kMaxLoadFactor + 1) * s.buckets := by
  obtain ⟨xs, hxs, hperm⟩ := hs.inv.stores
  unfold HmClient.buckets HMap.insertMask
  cases htab : s.map.tb1.tab with
  | none =>
    rw [← hs.tb1_size, hxs.tb1_size htab, kMaxLoadFactor]
    simp
  | some slots =>
    obtain ⟨-, -, hlt⟩ := hs.load (by simp [htab])
    rw [hxs.tb2_size hs.inv.settled, Nat.add_zero, hs.tb1_size] at hlt
    exact hlt

theorem pow2 (hs : LoadInv s) : ∃ k, s.buckets = 4 * 2 ^ k := by
  unfold HmClient.buckets HMap.insertMask
  cases htab : s.map.tb1.tab with
  | none => exact ⟨0, rfl⟩
  | some slots =>
    obtain ⟨⟨k, hk⟩, hfour, -⟩ := hs.load (by simp [htab])
    have htwo : 2 ^ 2 ≤ 2 ^ k := hk ▸ hfour
    obtain ⟨j, rfl⟩ := Nat.exists_eq_add_of_le ((Nat.pow_le_pow_iff_right (by decide)).mp htwo)
    exact ⟨j, by simpa [pow_add] using hk⟩

theorem doubles_iff (hs : LoadInv s) : s.map.Doubles ↔ s.Full := by
  unfold HMap.Doubles HmClient.Full HmClient.buckets
  rw [hs.tb1_size, ← Nat.le_div_iff_mul_le (Nat.succ_pos _)]
  exact and_iff_right hs.inv.settled

theorem toMove (hs : LoadInv s) : s.map.toMove = if s.Full then s.linked.length + 1 else 0 := by
  obtain ⟨xs, hxs, -⟩ := hs.inv.stores
  unfold HMap.toMove
  simp only [hs.doubles_iff, hs.tb1_size, hxs.tb2_size hs.inv.settled]

theorem insertMoves_le (hs : LoadInv s) (node : Nat) :
    hmInsertMoves s.mem s.map node ≤ if s.Full then s.linked.length + 1 else 0 := by
  obtain ⟨xs, hxs, -⟩ := hs.inv.stores
  unfold hmInsertMoves
  cases hlink : hmLink s.mem s.map node with
  | error e => exact Nat.zero_le _
  | ok r =>
    rw [← hs.toMove, ← hmLink_waiting hxs.tb1_size hlink]
    exact helpResizingMoves_le 0 _ r.1 r.2

theorem insertMoves_eq (hs : LoadInv s) {node : Nat} {r : Heap HNode × HMap}
    (hrun : hmInsert s.mem s.map node = .ok r) :
    hmInsertMoves s.mem s.map node = if s.Full then s.linked.length + 1 else 0 := by
  obtain ⟨xs, hxs, -⟩ := hs.inv.stores
  rw [hmInsert_eq_link] at hrun
  obtain ⟨⟨mem, m⟩, hlink, hhelp⟩ := bind_eq_ok.mp hrun
  unfold hmInsertMoves
  simp only [hlink]
  rw [← hs.toMove, ← hmLink_waiting hxs.tb1_size hlink]
  exact hmHelpResizing_moves hhelp

theorem lookupMoves (hs : LoadInv s) (key : Nat) (eq : Nat → Nat → Bool) :
    HmCall.moves s (.lookup key eq) = 0 := by
  obtain ⟨xs, hxs, -⟩ := hs.inv.stores
  have hle := helpResizingMoves_le 0 s.map.tb2.size s.mem s.map
  rw [hxs.tb2_size hs.inv.settled] at hle
  unfold HmCall.moves
  rw [hxs.tb2_size hs.inv.settled]
  exact Nat.eq_zero_of_le_zero hle

theorem insert_step (hs : LoadInv s) {node : Nat} (hadm : HmCall.Admissible s (.insert node))
    (hstep : hmCall s (.insert node) = .ok s') :
    s'.linked.length = s.linked.length + 1 ∧
      s'.buckets = (if s.Full then 2 * s.buckets else s.buckets) ∧
      s'.map.tb1.tab.isSome ∧
      HmCall.moves s (.insert node) = if s.Full then s.linked.length + 1 else 0 := by
  rcases hmCall_cases hs.inv hadm hstep with
    ⟨node', n, xs, heq, hn, hxs, -, hx, hrun, hlinked⟩ | ⟨hne, -⟩
  · cases heq
    obtain ⟨-, -, -, -, -, hgrown⟩ := hxs.insert hn hx hrun
    refine ⟨by rw [hlinked, List.length_cons], ?_, hgrown.tab, hs.insertMoves_eq hrun⟩
    have hmask : s'.map.insertMask = s'.map.tb1.mask := by
      unfold HMap.insertMask
      rw [Option.isNone_eq_false_iff.mpr hgrown.tab]
      rfl
    unfold HmClient.buckets
    rw [hmask]
    split_ifs with hfull
    · exact hgrown.doubles (hs.doubles_iff.mpr hfull)
    · rw [hgrown.stays (hs.doubles_iff.not.mpr hfull)]
  · exact absurd rfl (hne node)

theorem other_step (hs : LoadInv s) {c : HmCall} (hadm : c.Admissible s)
    (hc : ∀ node, c ≠ .insert node) (hstep : hmCall s c = .ok s') :
    s'.linked.length ≤ s.linked.length ∧ s'.buckets = s.buckets ∧
      s'.map.tb1.tab.isSome = s.map.tb1.tab.isSome ∧ c.moves s = 0 := by
  rcases hmCall_cases hs.inv hadm hstep with ⟨node, _, _, rfl, -⟩ | ⟨-, -, hsame, hle⟩
  · exact absurd rfl (hc node)
  · refine ⟨hle, ?_, hsame.tab, ?_⟩
    · unfold HmClient.buckets HMap.insertMask
      rw [hsame.mask, ← Option.not_isSome, ← Option.not_isSome, hsame.tab]
    · cases c with
      | insert node => exact absurd rfl (hc node)
      | lookup key eq => exact hs.lookupMoves key eq
      | alloc node | free node | pop key eq => rfl

end LoadInv

def HmCall.isInsert : HmCall → Bool
  | .insert _ => true
  | _ => false

/-- Twice the population, less what the buckets hold without a doubling. -/
def HmClient.potential (s : HmClient) : Nat :=
  2 * s.linked.length - (kMaxLoadFactor + 1) * s.buckets

theorem sum_credit (calls : List HmCall) :
    (calls.map fun c => if c.isInsert then 2 else 0).sum = 2 * calls.countP HmCall.isInsert := by
  induction calls with
  | nil => rfl
  | cons c calls ih =>
    rw [List.map_cons, List.sum_cons, ih, List.countP_cons]
    split_ifs <;> omega

theorem isInsert_false {c : HmCall} (h : ∀ node, c ≠ .insert node) : c.isInsert = false := by
  cases c with
  | insert node => exact absurd rfl (h node)
  | alloc node | free node | lookup key eq | pop key eq => rfl

section Step
variable {s s' : HmClient} {c : HmCall}

theorem call_cases (c : HmCall) : (∃ node, c = .insert node) ∨ ∀ node, c ≠ .insert node := by
  cases c with
  | insert node => exact .inl ⟨node, rfl⟩
  | alloc node | free node | lookup key eq | pop key eq => exact .inr (by simp)

theorem call_pays (hs : LoadInv s) (hadm : c.Admissible s) (hstep : hmCall s c = .ok s') :
    c.moves s + s'.potential ≤ s.potential + if c.isInsert then 2 else 0 := by
  have hfits := hs.fits
  unfold HmClient.potential
  rcases call_cases c with ⟨node, rfl⟩ | hc
  · obtain ⟨hsize, hbuckets, -, hmoves⟩ := hs.insert_step hadm hstep
    rw [hmoves, hsize, hbuckets, HmCall.isInsert, if_pos rfl]
    split_ifs with hfull
    · unfold HmClient.Full at hfull
      rw [Nat.mul_left_comm]
      omega
    · omega
  · obtain ⟨hsize, hbuckets, -, hmoves⟩ := hs.other_step hadm hc hstep
    rw [hmoves, hbuckets, isInsert_false hc]
    omega

theorem failing_call_pays (hs : LoadInv s) (c : HmCall) :
    c.moves s ≤ s.potential + if c.isInsert then 2 else 0 := by
  have hfits := hs.fits
  unfold HmClient.potential
  cases c with
  | insert node =>
    have hle := hs.insertMoves_le node
    rw [HmCall.isInsert, if_pos rfl]
    change hmInsertMoves s.mem s.map node ≤ _
    split_ifs at hle with hfull
    · unfold HmClient.Full at hfull
      omega
    · omega
  | lookup key eq =>
    rw [hs.lookupMoves key eq]
    exact Nat.zero_le _
  | alloc node | free node | pop key eq => exact Nat.zero_le _

theorem call_builds (hs : LoadInv s) (hadm : c.Admissible s) (hstep : hmCall s c = .ok s') :
    c.moves s + (kMaxLoadFactor + 1) * s.buckets = (kMaxLoadFactor + 1) * s'.buckets := by
  rcases call_cases c with ⟨node, rfl⟩ | hc
  · obtain ⟨-, hbuckets, -, hmoves⟩ := hs.insert_step hadm hstep
    have hfits := hs.fits
    rw [hmoves, hbuckets]
    split_ifs with hfull
    · unfold HmClient.Full at hfull
      rw [Nat.mul_left_comm]
      omega
    · exact Nat.zero_add _
  · obtain ⟨-, hbuckets, -, hmoves⟩ := hs.other_step hadm hc hstep
    rw [hmoves, hbuckets, Nat.zero_add]

end Step

/-- A single insertion may move every node of the map, but over any run the calls move at
most two nodes for each insertion; in a run that completes, what they move is fixed by the
buckets the map has come to. -/
theorem migration_amortized {calls : List HmCall}
    (hadm : Run.AllSteps hmCall HmCall.Admissible {} calls) :
    Amortized.total hmCall (fun s c => c.moves s) {} calls ≤ 2 * calls.countP HmCall.isInsert ∧
      ∀ s, Run.run hmCall {} calls = .ok s →
        Amortized.total hmCall (fun s c => c.moves s) {} calls + (kMaxLoadFactor + 1) * 4 =
          (kMaxLoadFactor + 1) * s.buckets := by
  constructor
  · rw [← sum_credit]
    have htotal := Amortized.total_le (A := HmCall.Admissible) (I := LoadInv)
      (Φ := HmClient.potential) (fun s c s' => loadInv_step) (fun s c s' => call_pays)
      (fun s c e hs _ _ => failing_call_pays hs c) loadInv_empty hadm
    exact htotal.trans (by simp [HmClient.potential])
  · intro s hrun
    exact Amortized.total_add_eq (M := fun s => (kMaxLoadFactor + 1) * s.buckets)
      (fun _ _ _ => loadInv_step) (fun _ _ _ => call_builds) loadInv_empty hadm hrun

theorem migration_amortized_forty :
    Amortized.total hmCall (fun s c => c.moves s) {}
        (insertCodes ((List.range 40).map UInt64.ofNat)) = 36 ∧
      Amortized.total hmCall (fun s c => c.moves s) {}
          (insertCodes ((List.range 40).map UInt64.ofNat)) ≤
        2 * (insertCodes ((List.range 40).map UInt64.ofNat)).countP HmCall.isInsert :=
  ⟨by decide +kernel, (migration_amortized (by decide +kernel)).1⟩

/-! ## The number of buckets -/

theorem buckets_grow {s s' : HmClient} {c : HmCall} (hs : LoadInv s) (hadm : c.Admissible s)
    (hstep : hmCall s c = .ok s') : s.buckets ≤ s'.buckets := by
  have hbuilds := call_builds hs hadm hstep
  unfold kMaxLoadFactor at hbuilds
  omega

theorem buckets_le_of_call {s s' : HmClient} {c : HmCall} (hs : LoadInv s) (hadm : c.Admissible s)
    (hstep : hmCall s c = .ok s') {k : Nat} (hle : s.buckets ≤ 4 * 2 ^ k)
    (hsize : s'.linked.length < (kMaxLoadFactor + 1) * (4 * 2 ^ k)) :
    s'.buckets ≤ 4 * 2 ^ k := by
  rcases call_cases c with ⟨node, rfl⟩ | hc
  · obtain ⟨hlinked, hbuckets, -⟩ := hs.insert_step hadm hstep
    rw [hbuckets]
    split_ifs with hfull
    · obtain ⟨j, hj⟩ := hs.pow2
      unfold HmClient.Full at hfull
      rw [hj] at hfull ⊢
      rw [hlinked] at hsize
      have hlt : 4 * 2 ^ j < 4 * 2 ^ k := by
        have hmul := hfull.trans_lt hsize
        exact lt_of_mul_lt_mul_left hmul (Nat.zero_le _)
      have hjk : j < k := (Nat.pow_lt_pow_iff_right (by decide : 1 < 2)).mp (by omega)
      calc 2 * (4 * 2 ^ j) = 4 * 2 ^ (j + 1) := by ring
        _ ≤ 4 * 2 ^ k := Nat.mul_le_mul_left _ (Nat.pow_le_pow_right (by decide) hjk)
    · exact hle
  · obtain ⟨-, hbuckets, -⟩ := hs.other_step hadm hc hstep
    rwa [hbuckets]

theorem loadInv_prefix {calls done : List HmCall} {t : HmClient}
    (hadm : Run.AllSteps hmCall HmCall.Admissible {} calls) (hdone : done <+: calls)
    (hrun : Run.run hmCall {} done = .ok t) : LoadInv t := by
  obtain ⟨rest, rfl⟩ := hdone
  exact Run.inv_of_allSteps (fun _ _ _ => loadInv_step) loadInv_empty hadm.of_append hrun

/-- After a run the map has at most 4 * 2 ^ k buckets exactly when its population never reached
nine times as many: the buckets are the record of the largest population. -/
theorem buckets_of_population {calls : List HmCall} {s : HmClient}
    (hadm : Run.AllSteps hmCall HmCall.Admissible {} calls)
    (hrun : Run.run hmCall {} calls = .ok s) :
    (∃ k, s.buckets = 4 * 2 ^ k) ∧
      ∀ k, s.buckets ≤ 4 * 2 ^ k ↔
        ∀ done t, done <+: calls → Run.run hmCall {} done = .ok t →
          t.linked.length < (kMaxLoadFactor + 1) * (4 * 2 ^ k) := by
  have hs : LoadInv s := loadInv_prefix hadm List.prefix_rfl hrun
  refine ⟨hs.pow2, fun k => ⟨fun hle done t hdone ht => ?_, fun hsmall => ?_⟩⟩
  · obtain ⟨rest, rfl⟩ := hdone
    have hinv := loadInv_prefix hadm (List.prefix_append done rest) ht
    rw [Run.run_append rest ht] at hrun
    have hgrown : LoadInv s ∧ t.buckets ≤ s.buckets :=
      Run.inv_of_allSteps (I := fun u => LoadInv u ∧ t.buckets ≤ u.buckets)
        (fun _ _ _ hu hc hstep =>
          ⟨loadInv_step hu.1 hc hstep, hu.2.trans (buckets_grow hu.1 hc hstep)⟩)
        ⟨hinv, le_rfl⟩ (hadm.rest ht) hrun
    exact hinv.fits.trans_le (Nat.mul_le_mul_left _ (hgrown.2.trans hle))
  · -- the last call of each part of the run keeps the bound
    have hparts : ∀ done t, done <+: calls → Run.run hmCall {} done = .ok t →
        t.buckets ≤ 4 * 2 ^ k := by
      intro done
      induction done using List.reverseRecOn with
      | nil =>
        intro t _ ht
        obtain rfl : {} = t := Except.ok.inj ht
        exact Nat.mul_le_mul_left 4 Nat.one_le_two_pow
      | append_singleton done c ih =>
        intro t hdone ht
        obtain ⟨u, hu, hstep⟩ := Run.run_snoc ht
        have hprefix : done <+: calls := (List.prefix_append done [c]).trans hdone
        have hinv := loadInv_prefix hadm hprefix hu
        obtain ⟨rest, hrest⟩ := hdone
        rw [List.append_assoc] at hrest
        have hc : c.Admissible u := (hrest ▸ hadm).rest hu |>.1
        exact buckets_le_of_call hinv hc hstep (ih u hprefix hu)
          (hsmall _ t ⟨rest, by rw [List.append_assoc, hrest]⟩ ht)
    exact hparts calls s List.prefix_rfl hrun

theorem buckets_of_population_forty :
    ∃ s, Run.run hmCall {} (insertCodes ((List.range 40).map UInt64.ofNat)) = .ok s ∧
      s.buckets = 8 ∧
      (s.buckets ≤ 4 * 2 ^ 1 ↔ ∀ done t,
        done <+: insertCodes ((List.range 40).map UInt64.ofNat) → Run.run hmCall {} done = .ok t →
          t.linked.length < (kMaxLoadFactor + 1) * (4 * 2 ^ 1)) := by
  have hbuckets : (Run.run hmCall {} (insertCodes ((List.range 40).map UInt64.ofNat))).toOption.any
      (fun s => s.buckets == 8) = true := by decide +kernel
  cases hrun : Run.run hmCall {} (insertCodes ((List.range 40).map UInt64.ofNat)) with
  | error e => simp [hrun, Except.toOption] at hbuckets
  | ok s => exact ⟨s, rfl, by simpa [hrun, Except.toOption] using hbuckets,
      (buckets_of_population (by decide +kernel) hrun).2 1⟩

end NanoRedis
