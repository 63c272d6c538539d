import Mathlib.Data.Finset.Card
import JLibScheduler.Lib.CInt
import JLibScheduler.Lib.Update

/-!
# The tables of the topology

`BuildTopology` of `src/TaskScheduler.cpp:258-330`, from the masks that the system gives for the
physical cores and for the caches (none when the query fails). Worker `q` runs on the logical
processor `q + 1`. Two workers that have a core to themselves are siblings; the mates of a worker
are the other workers of one of its cache groups. The loop keeps the group for which the list of the
mates, from which the worker and its sibling are left out already, is too short. `group` is what a
mask says: the workers on its processors. The tables are consistent for any masks of the caches, and
for masks of the cores that are disjoint (`buildTopology_consistent`).
-/

namespace JLibScheduler.TaskScheduler

/-- `siblingQIndex` and `clusterMates`. -/
structure Topology where
  siblingQIndex : Nat → Int
  clusterMates : Nat → List Int

/-- `qIndexOf`. -/
def qIndexOf (numWorkers logicalCpu : Nat) : Int :=
  if logicalCpu < 1 then -1
  else if logicalCpu - 1 < numWorkers then CInt.ofNat (logicalCpu - 1) else -1

/-- The loop that collects the workers of a mask. -/
def qsInGroup (numWorkers : Nat) (mask : BitVec 64) : List Int :=
  (((List.range 64).filter fun cpu => mask &&& (1#64 <<< cpu) != 0).map
    (qIndexOf numWorkers)).filter (0 ≤ ·)

/-- The turn of the loop over the masks of the cores. -/
def addCore (numWorkers : Nat) (siblingQIndex : Nat → Int) (mask : BitVec 64) : Nat → Int :=
  match qsInGroup numWorkers mask with
  | [a, b] =>
    Function.update (Function.update siblingQIndex (CInt.toSizeT a) b) (CInt.toSizeT b) a
  | _ => siblingQIndex

/-- The mates of worker `q` in a group: the others, without its sibling. -/
def matesOf (siblingQIndex : Nat → Int) (q : Nat) (qs : List Int) : List Int :=
  qs.filter fun other => other != CInt.ofNat q && other != siblingQIndex q

/-- The turn of the loop over the masks of the caches. -/
def addCache (numWorkers : Nat) (siblingQIndex : Nat → Int) (clusterMates : Nat → List Int)
    (mask : BitVec 64) : Nat → List Int :=
  let qs := qsInGroup numWorkers mask
  if qs.length < 2 then clusterMates
  else qs.foldl (fun clusterMates q =>
    if (clusterMates (CInt.toSizeT q)).length + 1 < qs.length then
      Function.update clusterMates (CInt.toSizeT q) (matesOf siblingQIndex (CInt.toSizeT q) qs)
    else clusterMates) clusterMates

/-- `BuildTopology`, for the masks of the cores and of the caches. -/
def buildTopology (numWorkers : Nat) (coreMasks cacheMasks : Option (List (BitVec 64))) :
    Topology :=
  let siblingQIndex := (coreMasks.getD []).foldl (addCore numWorkers) fun _ => -1
  { siblingQIndex
    clusterMates :=
      match cacheMasks with
      | some masks => masks.foldl (addCache numWorkers siblingQIndex) fun _ => []
      | none => fun q =>
        if q < numWorkers then
          matesOf siblingQIndex q ((List.range numWorkers).map CInt.ofNat)
        else [] }

/-! ## What the tables are for -/

/-- The workers of a mask. -/
def group (numWorkers : Nat) (mask : BitVec 64) : Finset Nat :=
  {q ∈ Finset.range numWorkers | q + 1 < 64 ∧ mask.getLsbD (q + 1)}

/-- The table entry of worker `q` has, once each, the workers of `g` other than `q` and its
sibling. -/
structure Topology.IsMates (topology : Topology) (q : Nat) (g : Finset Nat) : Prop where
  nodup : (topology.clusterMates q).Nodup
  mem_iff : ∀ x, x ∈ topology.clusterMates q ↔
    ∃ w ∈ g, w ≠ q ∧ CInt.ofNat w ≠ topology.siblingQIndex q ∧ x = CInt.ofNat w

/-- The siblings are a partial involution without fixed points, and the mates of a worker are those
of a largest of its cache groups, or of the whole pool when no masks of the caches are known. -/
structure Topology.Consistent (numWorkers : Nat) (cacheMasks : Option (List (BitVec 64)))
    (topology : Topology) : Prop where
  sibling : ∀ q < numWorkers, topology.siblingQIndex q = -1 ∨
    ∃ w < numWorkers, w ≠ q ∧ topology.siblingQIndex q = CInt.ofNat w ∧
      topology.siblingQIndex w = CInt.ofNat q
  mates : ∀ q < numWorkers, (topology.clusterMates q).Nodup ∧
    ∀ x ∈ topology.clusterMates q, x ≠ topology.siblingQIndex q ∧
      ∃ w < numWorkers, w ≠ q ∧ x = CInt.ofNat w
  largest : ∀ masks, cacheMasks = some masks → ∀ q < numWorkers,
    ((∀ mask ∈ masks, q ∈ group numWorkers mask → (group numWorkers mask).card < 2) ∧
      topology.clusterMates q = []) ∨
    ∃ mask ∈ masks, q ∈ group numWorkers mask ∧
      (∀ mask' ∈ masks, q ∈ group numWorkers mask' →
        (group numWorkers mask').card ≤ (group numWorkers mask).card) ∧
      topology.IsMates q (group numWorkers mask)
  whole : cacheMasks = none → ∀ q < numWorkers, topology.IsMates q (Finset.range numWorkers)

section
variable {n : Nat} {mask : BitVec 64}

/-! ## The workers of a mask -/

/-- The workers of a mask, in order. -/
def workersOf (n : Nat) (mask : BitVec 64) : List Nat :=
  (List.range 63).filter fun q => decide (q < n) && mask.getLsbD (q + 1)

theorem mem_workersOf {q : Nat} : q ∈ workersOf n mask ↔ q ∈ group n mask := by
  simp only [workersOf, group, List.mem_filter, List.mem_range, Finset.mem_filter,
    Finset.mem_range, Bool.and_eq_true, decide_eq_true_eq]
  constructor
  · rintro ⟨hlt, hn, hbit⟩
    exact ⟨hn, by omega, hbit⟩
  · rintro ⟨hn, hlt, hbit⟩
    exact ⟨by omega, hn, hbit⟩

theorem nodup_workersOf (n : Nat) (mask : BitVec 64) : (workersOf n mask).Nodup :=
  List.nodup_range.filter _

theorem length_workersOf : (workersOf n mask).length = (group n mask).card := by
  rw [← List.toFinset_card_of_nodup (nodup_workersOf n mask)]
  congr 1
  ext q
  rw [List.mem_toFinset, mem_workersOf]

theorem lt_of_mem_group {q : Nat} (h : q ∈ group n mask) : q < n ∧ q < 63 := by
  simp only [group, Finset.mem_filter, Finset.mem_range] at h
  omega

/-- The bit that the loop tests. -/
theorem and_shiftLeft_ne (mask : BitVec 64) {cpu : Nat} (h : cpu < 64) :
    (mask &&& (1#64 <<< cpu) != 0) = mask.getLsbD cpu := by
  have hne : BitVec.twoPow 64 cpu ≠ 0#64 := by
    intro heq
    have hbit := BitVec.getLsbD_twoPow (w := 64) cpu cpu
    rw [heq, BitVec.getLsbD_zero] at hbit
    simp [h] at hbit
  rw [← BitVec.twoPow_eq, BitVec.and_twoPow]
  cases mask.getLsbD cpu with
  | false => rfl
  | true => simpa using hne

/-- The loop collects the workers of the mask in order. -/
theorem qsInGroup_eq (n : Nat) (mask : BitVec 64) :
    qsInGroup n mask = (workersOf n mask).map CInt.ofNat := by
  have hloop : ∀ l : List Nat, (∀ q ∈ l, q < 63) →
      (((l.map Nat.succ).filter fun cpu => mask &&& (1#64 <<< cpu) != 0).map
        (qIndexOf n)).filter (0 ≤ ·) =
      (l.filter fun q => decide (q < n) && mask.getLsbD (q + 1)).map CInt.ofNat := by
    intro l hl
    induction l with
    | nil => rfl
    | cons q l ih =>
      have hq := hl q (.head _)
      have hrest := ih fun q hq => hl q (.tail _ hq)
      have hindex : qIndexOf n q.succ = if q < n then CInt.ofNat q else -1 := by
        rw [qIndexOf, if_neg (by omega)]
        rfl
      have hnonneg : 0 ≤ CInt.ofNat q := by
        rw [CInt.ofNat_of_lt (by omega)]
        omega
      rw [List.map_cons, List.filter_cons, and_shiftLeft_ne mask (show q.succ < 64 by omega),
        List.filter_cons]
      by_cases hbit : mask.getLsbD (q + 1) = true
      · rw [if_pos hbit, List.map_cons, List.filter_cons, hindex, hrest, hbit, Bool.and_true]
        by_cases hn : q < n
        · rw [if_pos hn, if_pos (by simpa using hnonneg), if_pos (by simpa using hn),
            List.map_cons]
        · rw [if_neg hn, if_neg (by decide), if_neg (by simpa using hn)]
      · rw [if_neg hbit, hrest, if_neg (by simp [hbit])]
  have hrange : List.range 64 = 0 :: (List.range 63).map Nat.succ := List.range_succ_eq_map
  have hmain : qIndexOf n 0 = -1 := rfl
  rw [qsInGroup, hrange, List.filter_cons]
  split_ifs with hbit
  · rw [List.map_cons, List.filter_cons, hmain, if_neg (by decide)]
    exact hloop _ fun q hq => List.mem_range.1 hq
  · exact hloop _ fun q hq => List.mem_range.1 hq

theorem toSizeT_of_mem {q : Nat} (h : q ∈ group n mask) : CInt.toSizeT (CInt.ofNat q) = q := by
  have := lt_of_mem_group h
  rw [CInt.ofNat_of_lt (by omega), CInt.toSizeT_natCast (by omega)]

/-! ## The siblings -/

/-- Every entry of the table so far is unset or is one of a pair in one of the masks so far. -/
def Paired (n : Nat) (done : List (BitVec 64)) (siblingQIndex : Nat → Int) : Prop :=
  ∀ q, siblingQIndex q = -1 ∨ ∃ w, ∃ mask ∈ done, q ∈ group n mask ∧ w ∈ group n mask ∧ w ≠ q ∧
    siblingQIndex q = CInt.ofNat w ∧ siblingQIndex w = CInt.ofNat q

variable {done : List (BitVec 64)} {siblingQIndex : Nat → Int}

/-- No worker is in two disjoint masks. -/
theorem not_mem_group {mask' : BitVec 64} (hdisj : mask &&& mask' = 0) {q : Nat}
    (h : q ∈ group n mask) : q ∉ group n mask' := by
  intro h'
  simp only [group, Finset.mem_filter] at h h'
  have hbit : (mask &&& mask').getLsbD (q + 1) = true := by
    rw [BitVec.getLsbD_and, h.2.2, h'.2.2]
    rfl
  rw [hdisj] at hbit
  simp at hbit

theorem Paired.of_mem_cons (h : Paired n done siblingQIndex) (mask : BitVec 64) :
    Paired n (mask :: done) siblingQIndex := by
  intro q
  rcases h q with hnone | ⟨w, mask', hmem, hpair⟩
  · exact .inl hnone
  · exact .inr ⟨w, mask', .tail _ hmem, hpair⟩

/-- A further mask that is disjoint from those so far keeps the pairs. -/
theorem Paired.addCore (h : Paired n done siblingQIndex)
    (hdisj : ∀ mask' ∈ done, mask &&& mask' = 0) :
    Paired n (mask :: done) (addCore n siblingQIndex mask) := by
  rw [TaskScheduler.addCore, qsInGroup_eq]
  split
  next a b hqs =>
    -- the group has the two workers `x` and `y`
    obtain ⟨x, l, hw, rfl, hl⟩ := List.map_eq_cons_iff.1 hqs
    obtain ⟨y, l', rfl, rfl, hl'⟩ := List.map_eq_cons_iff.1 hl
    obtain rfl := List.map_eq_nil_iff.1 hl'
    have hx : x ∈ group n mask := mem_workersOf.1 (hw ▸ .head _)
    have hy : y ∈ group n mask := mem_workersOf.1 (hw ▸ .tail _ (.head _))
    have hne : x ≠ y := by
      have hnodup := nodup_workersOf n mask
      rw [hw] at hnodup
      rintro rfl
      exact (List.nodup_cons.1 hnodup).1 (.head _)
    rw [toSizeT_of_mem hx, toSizeT_of_mem hy]
    intro q
    by_cases hqy : q = y
    · subst hqy
      refine .inr ⟨x, mask, .head _, hy, hx, hne, Function.update_self .., ?_⟩
      rw [Function.update_of_ne hne, Function.update_self]
    by_cases hqx : q = x
    · subst hqx
      refine .inr ⟨y, mask, .head _, hx, hy, Ne.symm hne, ?_, Function.update_self ..⟩
      rw [Function.update_of_ne hne, Function.update_self]
    rw [Function.update_of_ne hqy, Function.update_of_ne hqx]
    rcases h q with hnone | ⟨w, mask', hmem, hq, hw', hne', hsib, hsib'⟩
    · exact .inl hnone
    · have hfar : ∀ z ∈ group n mask, w ≠ z := by
        rintro z hz rfl
        exact not_mem_group (hdisj mask' hmem) hz hw'
      refine .inr ⟨w, mask', .tail _ hmem, hq, hw', hne', hsib, ?_⟩
      rw [Function.update_of_ne (hfar y hy), Function.update_of_ne (hfar x hx), hsib']
  next => exact h.of_mem_cons mask

theorem Paired.foldl {masks : List (BitVec 64)} (h : Paired n done siblingQIndex)
    (hmasks : masks.Pairwise fun a b => a &&& b = 0)
    (hdisj : ∀ mask ∈ masks, ∀ mask' ∈ done, mask &&& mask' = 0) :
    ∃ done', Paired n done' (masks.foldl (TaskScheduler.addCore n) siblingQIndex) := by
  induction masks generalizing done siblingQIndex with
  | nil => exact ⟨done, h⟩
  | cons mask masks ih =>
    rw [List.pairwise_cons] at hmasks
    refine ih (h.addCore (hdisj mask (.head _))) hmasks.2 fun mask₂ hmem mask' hmem' => ?_
    rcases List.mem_cons.1 hmem' with rfl | hmem'
    · rw [BitVec.and_comm]
      exact hmasks.1 mask₂ hmem
    · exact hdisj mask₂ (.tail _ hmem) mask' hmem'

/-! ## The mates -/

/-- The mates of a worker in a list of workers. -/
theorem mem_matesOf {ws : List Nat} {q : Nat} {x : Int} :
    x ∈ matesOf siblingQIndex q (ws.map CInt.ofNat) ↔
      ∃ w ∈ ws, x = CInt.ofNat w ∧ CInt.ofNat w ≠ CInt.ofNat q ∧
        CInt.ofNat w ≠ siblingQIndex q := by
  simp only [matesOf, List.mem_filter, List.mem_map, Bool.and_eq_true, bne_iff_ne]
  constructor
  · rintro ⟨⟨w, hw, rfl⟩, hq, hsib⟩
    exact ⟨w, hw, rfl, hq, hsib⟩
  · rintro ⟨w, hw, rfl, hq, hsib⟩
    exact ⟨⟨w, hw, rfl⟩, hq, hsib⟩

theorem nodup_map_ofNat {ws : List Nat} (hnodup : ws.Nodup) (hlt : ∀ w ∈ ws, w < 2 ^ 32) :
    (ws.map CInt.ofNat).Nodup :=
  hnodup.map_on fun x hx y hy heq => (CInt.ofNat_inj (hlt x hx) (hlt y hy)).1 heq

/-- An entry that is the mates of `q` in a list of the workers of `g`. -/
theorem Topology.IsMates.of_eq {topology : Topology} {q : Nat} {g : Finset Nat} {ws : List Nat}
    (heq : topology.clusterMates q = matesOf topology.siblingQIndex q (ws.map CInt.ofNat))
    (hnodup : ws.Nodup) (hmem : ∀ w, w ∈ ws ↔ w ∈ g) (hlt : ∀ w ∈ g, w < 2 ^ 32)
    (hq : q < 2 ^ 32) : topology.IsMates q g where
  nodup := heq ▸ (nodup_map_ofNat hnodup fun w hw => hlt w ((hmem w).1 hw)).filter _
  mem_iff x := by
    rw [heq, mem_matesOf]
    constructor
    · rintro ⟨w, hw, rfl, hne, hsib⟩
      exact ⟨w, (hmem w).1 hw, fun h => hne (h ▸ rfl), hsib, rfl⟩
    · rintro ⟨w, hw, hne, hsib, rfl⟩
      exact ⟨w, (hmem w).2 hw, rfl, fun h => hne ((CInt.ofNat_inj (hlt w hw) hq).1 h), hsib⟩

/-- From the list of a group are left out the worker and at most one other. -/
theorem length_matesOf (siblingQIndex : Nat → Int) {q : Nat} (h : q ∈ group n mask) :
    (matesOf siblingQIndex q (qsInGroup n mask)).length + 1 ≤ (group n mask).card ∧
      (group n mask).card ≤ (matesOf siblingQIndex q (qsInGroup n mask)).length + 2 := by
  have hnodup : (qsInGroup n mask).Nodup := by
    rw [qsInGroup_eq]
    refine nodup_map_ofNat (nodup_workersOf n mask) fun w hw => ?_
    have := lt_of_mem_group (mem_workersOf.1 hw)
    omega
  have hmem : CInt.ofNat q ∈ qsInGroup n mask := by
    rw [qsInGroup_eq]
    exact List.mem_map.2 ⟨q, mem_workersOf.2 h, rfl⟩
  have hlength : (qsInGroup n mask).length = (group n mask).card := by
    rw [qsInGroup_eq, List.length_map, length_workersOf]
  have herase : matesOf siblingQIndex q (qsInGroup n mask) =
      ((qsInGroup n mask).erase (CInt.ofNat q)).erase (siblingQIndex q) := by
    rw [(hnodup.erase _).erase_eq_filter, hnodup.erase_eq_filter, List.filter_filter, matesOf]
    refine List.filter_congr fun x _ => Bool.and_comm _ _
  have hpos := List.length_pos_of_mem hmem
  rw [herase, List.length_erase, List.length_erase_of_mem hmem, ← hlength]
  split_ifs <;> omega

/-- What a turn of the loop over the masks does to the entry of one worker. -/
theorem addCache_apply (clusterMates : Nat → List Int) (q : Nat) :
    addCache n siblingQIndex clusterMates mask q =
      if q ∈ group n mask ∧ 2 ≤ (group n mask).card ∧
          (clusterMates q).length + 1 < (group n mask).card then
        matesOf siblingQIndex q (qsInGroup n mask)
      else clusterMates q := by
  have hlength : (qsInGroup n mask).length = (group n mask).card := by
    rw [qsInGroup_eq, List.length_map, length_workersOf]
  simp only [addCache, hlength]
  by_cases hsize : (group n mask).card < 2
  · rw [if_pos hsize, if_neg (by omega)]
  · have hloop : (qsInGroup n mask).foldl (fun clusterMates q =>
          if (clusterMates (CInt.toSizeT q)).length + 1 < (group n mask).card then
            Function.update clusterMates (CInt.toSizeT q)
              (matesOf siblingQIndex (CInt.toSizeT q) (qsInGroup n mask))
          else clusterMates) clusterMates =
        (workersOf n mask).foldl (fun clusterMates w => Function.update clusterMates w
          (if (clusterMates w).length + 1 < (group n mask).card then
            matesOf siblingQIndex w (qsInGroup n mask) else clusterMates w)) clusterMates := by
      conv_lhs => rw [qsInGroup_eq, List.foldl_map, ← qsInGroup_eq]
      refine List.foldl_ext _ _ _ fun mates w hw => ?_
      rw [toSizeT_of_mem (mem_workersOf.1 hw)]
      split_ifs
      · rfl
      · exact (Function.update_eq_self w mates).symm
    rw [if_neg hsize, hloop, Update.foldl_update_apply
      (fun w mates => if mates.length + 1 < (group n mask).card then
        matesOf siblingQIndex w (qsInGroup n mask) else mates) (nodup_workersOf n mask)]
    simp only [mem_workersOf]
    by_cases hq : q ∈ group n mask
    · simp only [hq, if_true, true_and, Nat.le_of_not_lt hsize]
    · simp only [hq, if_false, false_and]

/-- The entry of worker `q` is that of a largest of its groups so far. -/
def Kept (n : Nat) (siblingQIndex : Nat → Int) (q : Nat) (done : List (BitVec 64))
    (mates : List Int) : Prop :=
  ((∀ mask ∈ done, q ∈ group n mask → (group n mask).card < 2) ∧ mates = []) ∨
    ∃ mask ∈ done, q ∈ group n mask ∧
      (∀ mask' ∈ done, q ∈ group n mask' → (group n mask').card ≤ (group n mask).card) ∧
      mates = matesOf siblingQIndex q (qsInGroup n mask)

theorem Kept.addCache {clusterMates : Nat → List Int} {q : Nat}
    (h : Kept n siblingQIndex q done (clusterMates q)) :
    Kept n siblingQIndex q (mask :: done) (addCache n siblingQIndex clusterMates mask q) := by
  rw [addCache_apply]
  split_ifs with hlarger
  · obtain ⟨hq, hsize, hlonger⟩ := hlarger
    refine .inr ⟨mask, .head _, hq, fun mask' hmem hq' => ?_, rfl⟩
    rcases List.mem_cons.1 hmem with rfl | hmem
    · exact Nat.le_refl _
    rcases h with ⟨hnone, -⟩ | ⟨mask₀, hmem₀, hq₀, hmax, hmates⟩
    · have := hnone mask' hmem hq'
      omega
    · have := hmax mask' hmem hq'
      have := (length_matesOf siblingQIndex hq₀).2
      rw [hmates] at hlonger
      omega
  · rcases h with ⟨hnone, hmates⟩ | ⟨mask₀, hmem₀, hq₀, hmax, hmates⟩
    · refine .inl ⟨fun mask' hmem hq' => ?_, hmates⟩
      rcases List.mem_cons.1 hmem with rfl | hmem
      · by_contra hsize
        refine hlarger ⟨hq', by omega, ?_⟩
        rw [hmates, List.length_nil]
        omega
      · exact hnone mask' hmem hq'
    · refine .inr ⟨mask₀, .tail _ hmem₀, hq₀, fun mask' hmem hq' => ?_, hmates⟩
      rcases List.mem_cons.1 hmem with rfl | hmem
      · have := (length_matesOf siblingQIndex hq₀).1
        rw [← hmates] at this
        by_contra hlt
        have hpos : 1 ≤ (group n mask₀).card := Finset.card_pos.2 ⟨q, hq₀⟩
        exact hlarger ⟨hq', by omega, by omega⟩
      · exact hmax mask' hmem hq'

theorem Kept.foldl {masks : List (BitVec 64)} (clusterMates : Nat → List Int) {q : Nat}
    (h : Kept n siblingQIndex q done (clusterMates q)) :
    Kept n siblingQIndex q (masks.reverse ++ done)
      (masks.foldl (TaskScheduler.addCache n siblingQIndex) clusterMates q) := by
  induction masks generalizing done clusterMates with
  | nil => exact h
  | cons mask masks ih =>
    rw [List.reverse_cons, List.append_assoc]
    exact ih _ h.addCache

/-! ## The tables -/

/-- `BuildTopology` gives consistent tables for any number of workers, disjoint masks of the cores
and any masks of the caches. -/
theorem buildTopology_consistent (numWorkers : Nat) (hworkers : numWorkers < 2 ^ 32)
    (coreMasks cacheMasks : Option (List (BitVec 64)))
    (hcores : ∀ masks ∈ coreMasks, masks.Pairwise fun a b => a &&& b = 0) :
    (buildTopology numWorkers coreMasks cacheMasks).Consistent numWorkers cacheMasks := by
  let topology := buildTopology numWorkers coreMasks cacheMasks
  have hlt : ∀ w ∈ Finset.range numWorkers, w < 2 ^ 32 := fun w hw => by
    have := Finset.mem_range.1 hw
    omega
  have hlargest : ∀ masks, cacheMasks = some masks → ∀ q < numWorkers,
      ((∀ mask ∈ masks, q ∈ group numWorkers mask → (group numWorkers mask).card < 2) ∧
        topology.clusterMates q = []) ∨
      ∃ mask ∈ masks, q ∈ group numWorkers mask ∧
        (∀ mask' ∈ masks, q ∈ group numWorkers mask' →
          (group numWorkers mask').card ≤ (group numWorkers mask).card) ∧
        topology.IsMates q (group numWorkers mask) := by
    rintro masks rfl q hq
    have hkept : Kept numWorkers topology.siblingQIndex q (masks.reverse ++ [])
        (topology.clusterMates q) :=
      Kept.foldl (fun _ => []) (.inl ⟨fun _ hmem => (by cases hmem), rfl⟩)
    simp only [Kept, List.append_nil, List.mem_reverse] at hkept
    rcases hkept with hnone | ⟨mask, hmem, hgroup, hmax, hmates⟩
    · exact .inl hnone
    · refine .inr ⟨mask, hmem, hgroup, hmax, ?_⟩
      rw [qsInGroup_eq] at hmates
      refine .of_eq hmates (nodup_workersOf _ _) (fun w => mem_workersOf) (fun w hw => ?_)
        (by omega)
      have := lt_of_mem_group hw
      omega
  have hwhole : cacheMasks = none → ∀ q < numWorkers,
      topology.IsMates q (Finset.range numWorkers) := by
    rintro rfl q hq
    refine .of_eq (if_pos hq) List.nodup_range (fun w => ?_) hlt (by omega)
    rw [List.mem_range, Finset.mem_range]
  refine ⟨fun q hq => ?_, fun q hq => ?_, hlargest, hwhole⟩
  · have hpaired : ∃ done, Paired numWorkers done topology.siblingQIndex := by
      have hunset : Paired numWorkers [] fun _ => -1 := fun q => .inl rfl
      refine hunset.foldl ?_ fun _ _ _ hmem => by cases hmem
      cases coreMasks with
      | none => exact .nil
      | some masks => exact hcores masks rfl
    obtain ⟨done, hpaired⟩ := hpaired
    rcases hpaired q with hnone | ⟨w, mask, -, -, hw, hne, hsib, hsib'⟩
    · exact .inl hnone
    · exact .inr ⟨w, (lt_of_mem_group hw).1, hne, hsib, hsib'⟩
  · have hmates : ∀ g : Finset Nat, topology.IsMates q g → (∀ w ∈ g, w < numWorkers) →
        (topology.clusterMates q).Nodup ∧ ∀ x ∈ topology.clusterMates q,
          x ≠ topology.siblingQIndex q ∧ ∃ w < numWorkers, w ≠ q ∧ x = CInt.ofNat w := by
      intro g hg hin
      refine ⟨hg.nodup, fun x hx => ?_⟩
      obtain ⟨w, hw, hne, hsib, rfl⟩ := (hg.mem_iff x).1 hx
      exact ⟨hsib, w, hin w hw, hne, rfl⟩
    cases hcache : cacheMasks with
    | none =>
      subst hcache
      exact hmates _ (hwhole rfl q hq) fun w hw => Finset.mem_range.1 hw
    | some masks =>
      rcases hlargest masks hcache q hq with ⟨-, hnil⟩ | ⟨mask, -, -, -, hg⟩
      · subst hcache
        change (topology.clusterMates q).Nodup ∧ ∀ x ∈ topology.clusterMates q, _
        rw [hnil]
        exact ⟨.nil, fun x hx => by cases hx⟩
      · subst hcache
        exact hmates _ hg fun w hw => (lt_of_mem_group hw).1

/-- Four workers, two of them on one core, with a cache for each two cores and one for all. -/
theorem buildTopology_consistent_four :
    (buildTopology 4 (some [0b11, 0b1100, 0b110000]) (some [0b1111, 0b111111])).Consistent 4
      (some [0b1111, 0b111111]) :=
  buildTopology_consistent 4 (by decide) _ _ fun masks hmasks => by
    cases hmasks
    decide

end

end JLibScheduler.TaskScheduler
