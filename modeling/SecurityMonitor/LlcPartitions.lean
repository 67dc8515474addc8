/-
  The slices of the last-level cache (`src/api/region_cache_partitionning.c`).

  The monitor keeps the size of the slice of each region and programs the slices
  one after another into the LLC controller, from the first region that changes on.

  * `LlcLayout`: the controller holds the sizes that the monitor has, each slice
    begins where the slices before it end, and all fit into the 1024 sets;
  * `step_layout`: every step keeps this.  A partitioning does not touch the slices
    before the first change, and they are where the new sizes put them, too;
  * `llc_layout`: so slices never overlap, and the words written to the controller
    hold their three fields;
  * `repartitioning_iff`: the partitioning must not change while an enclave runs.
    The loop that looks for one reads the owner of the first core for every core.
-/
import SecurityMonitor.Effect
import SecurityMonitor.MemoryIsolation

namespace SecurityMonitor

open ByteMem Prog

variable {N : ℕ} {img : Image N} {boot : Boot N} {s s' : Config N} {d d' : Data N} {c : Fin N}
  {k : Call} {ctx : TrapContext} {L : LockId N → Bool} {ev : Event N} {es : List (Event N)}
  {part old : Fin 64 → Byte} {rid rid' : Fin 64}

/-! ## Bases -/

theorem llcBase_eq_sum (part : Fin 64 → Byte) (rid : Fin 64) :
    llcBase part rid = ∑ i with i < rid, 2 ^ (part i).toNat := by
  rw [llcBase, ← List.sum_toFinset _ ((List.nodup_finRange 64).sublist (List.take_sublist ..))]
  congr 1
  ext i
  simp only [List.mem_toFinset, List.mem_take_iff_getElem, List.getElem_finRange, Finset.mem_filter_univ]
  constructor
  · rintro ⟨j, hj, rfl⟩
    exact Fin.lt_def.mpr (lt_of_lt_of_le hj (min_le_left ..))
  · intro hi
    exact ⟨i, lt_min hi (by simp), rfl⟩

theorem llcBase_add_eq_sum (part : Fin 64 → Byte) (rid : Fin 64) : llcBase part rid + 2 ^ (part rid).toNat =
    ∑ i ∈ insert rid (Finset.univ.filter (· < rid)), 2 ^ (part i).toNat := by
  rw [Finset.sum_insert (by simp), llcBase_eq_sum, add_comm]

/-- The slices of smaller regions, and the one of `rid`, are below the base of a larger one. -/
theorem llcBase_add_le (h : rid < rid') : llcBase part rid + 2 ^ (part rid).toNat ≤ llcBase part rid' := by
  rw [llcBase_add_eq_sum, llcBase_eq_sum]
  refine Finset.sum_le_sum_of_subset fun i hi => ?_
  rw [Finset.mem_insert, Finset.mem_filter_univ] at hi
  rw [Finset.mem_filter_univ]
  rcases hi with rfl | hi
  · exact h
  · exact hi.trans h

theorem llcBase_add_le_sum (part : Fin 64 → Byte) (rid : Fin 64) :
    llcBase part rid + 2 ^ (part rid).toNat ≤ ((List.finRange 64).map fun i => 2 ^ (part i).toNat).sum := by
  rw [← List.sum_toFinset _ (List.nodup_finRange 64), llcBase_add_eq_sum]
  exact Finset.sum_le_sum_of_subset fun i _ => by simp

/-- The base of a region depends on the regions before it. -/
theorem llcBase_congr (h : ∀ i, i < rid → part i = old i) : llcBase part rid = llcBase old rid := by
  rw [llcBase_eq_sum, llcBase_eq_sum]
  exact Finset.sum_congr rfl fun i hi => by rw [h i (Finset.mem_filter.mp hi).2]

theorem eq_of_lt_idxFirstMod (h : rid < idxFirstMod part old) : part rid = old rid := by
  have hget := (List.takeWhile_prefix (l := List.finRange 64) fun i => part i == old i).getElem h
  rw [List.getElem_finRange] at hget
  have hmem : rid ∈ (List.finRange 64).takeWhile fun i => part i == old i := by
    have hmem := List.getElem_mem h
    rwa [hget] at hmem
  have hsame := List.mem_takeWhile_imp hmem
  exact beq_iff_eq.mp hsame

/-! ## Words -/

section
variable {base size : ℕ}

theorem toNat_llcCtrlWord (hb : base < 2 ^ 10) (hs : size < 2 ^ 4) (rid : Fin 64) :
    (llcCtrlWord rid (BitVec.ofNat 64 base) (BitVec.ofNat 64 size)).toNat =
      rid * 2 ^ 14 + base * 2 ^ 4 + size := by
  have hrid := rid.isLt
  simp only [llcCtrlWord, BitVec.toNat_add, BitVec.toNat_shiftLeft, BitVec.toNat_ofNat, Nat.shiftLeft_eq]
  omega

/-- **The controller reads the three fields that were written.** -/
theorem decode_llcCtrlWord (hb : base < 2 ^ 10) (hs : size < 2 ^ 4) (rid : Fin 64) :
    decodeLlcCtrl (llcCtrlWord rid (BitVec.ofNat 64 base) (BitVec.ofNat 64 size)) = (rid.val, base, size) := by
  have hrid := rid.isLt
  simp only [decodeLlcCtrl, BitVec.toNat_ushiftRight, toNat_llcCtrlWord hb hs, Nat.shiftRight_eq_div_pow,
    Prod.mk.injEq]
  omega

/-- A value shifted past another one has no bit in common with it. -/
theorem shift_and_eq_zero {x y : Word} {n : ℕ} (h : y.toNat < 2 ^ n) : (x <<< n) &&& y = 0 := by
  ext i hi
  rw [BitVec.getElem_and, BitVec.getElem_shiftLeft]
  by_cases hin : i < n
  · simp [hin]
  · have hbit : y[i] = false := by
      rw [← BitVec.getLsbD_eq_getElem, ← BitVec.testBit_toNat]
      exact Nat.testBit_lt_two_pow (h.trans_le (Nat.pow_le_pow_right (by decide) (not_lt.mp hin)))
    simp [hbit]

theorem writeLlcCtrl_word (hb : base < 2 ^ 10) (hs : size < 2 ^ 4) (slices : Fin 64 → LlcSlice)
    (rid : Fin 64) : writeLlcCtrl slices (llcCtrlWord rid (BitVec.ofNat 64 base) (BitVec.ofNat 64 size)) =
      Function.update slices rid { base := base, lgsize := size } := by
  rw [writeLlcCtrl, decode_llcCtrlWord hb hs]
  exact dif_pos rid.isLt

end

theorem foldl_update_apply {α β : Type} [DecidableEq α] (g : α → β) (a : α) :
    ∀ (l : List α) (f : α → β), l.foldl (fun f x => Function.update f x (g x)) f a = if a ∈ l then g a else f a
  | [], f => by simp
  | x :: l, f => by
    rw [List.foldl_cons, foldl_update_apply g a l]
    by_cases ha : a = x
    · subst ha
      simp
    · simp [ha]

theorem mem_drop_finRange {first : ℕ} : rid ∈ (List.finRange 64).drop first ↔ first ≤ rid := by
  rw [List.mem_drop_iff_getElem]
  constructor
  · rintro ⟨j, hj, rfl⟩
    simp
  · intro h
    refine ⟨rid - first, by simp; omega, ?_⟩
    rw [List.getElem_finRange]
    exact Fin.ext (by simp; omega)

/-- The sizes are small enough for the fields of a word. -/
structure SizesFit (part : Fin 64 → Byte) : Prop where
  sizes : ∀ i, (part i).toNat < 10
  sum : ((List.finRange 64).map fun i => 2 ^ (part i).toNat).sum ≤ 1024

theorem SizesFit.base_lt (h : SizesFit part) (rid : Fin 64) : llcBase part rid < 2 ^ 10 := by
  have hle := (llcBase_add_le_sum part rid).trans h.sum
  have hpos := Nat.two_pow_pos (part rid).toNat
  omega

theorem SizesFit.size_lt (h : SizesFit part) (rid : Fin 64) : (part rid).toNat < 2 ^ 4 :=
  (h.sizes rid).trans (by decide)

/-- The slices that the sizes `part` stand for. -/
def slicesOf (part : Fin 64 → Byte) (rid : Fin 64) : LlcSlice where
  base := llcBase part rid
  lgsize := (part rid).toNat

/-- The loop over the words writes the slices from `first` on. -/
theorem program_slices (h : SizesFit part) (slices : Fin 64 → LlcSlice) (first : ℕ) (rid : Fin 64) :
    (llcCtrlWords part first).foldl writeLlcCtrl slices rid =
      if first ≤ rid then slicesOf part rid else slices rid := by
  rw [llcCtrlWords, List.foldl_map]
  simp only [writeLlcCtrl_word (h.base_lt _) (h.size_lt _)]
  rw [show (fun f x => Function.update f x (LlcSlice.mk (llcBase part x) (part x).toNat)) =
    fun f x => Function.update f x (slicesOf part x) from rfl, foldl_update_apply]
  simp only [mem_drop_finRange]

/-! ## The layout -/

/-- The controller agrees with the sizes that the monitor keeps. -/
structure LlcLayout (d : Data N) : Prop where
  fit : SizesFit d.llcPartitions
  slices : d.llcSlices = slicesOf d.llcPartitions
  first : d.llcPartitions 0 = 4

theorem setPartitions_partitions : (setPartitions d part).llcPartitions = part := by
  funext rid
  rw [setPartitions]
  dsimp only
  split_ifs with h
  · rfl
  · exact (eq_of_lt_idxFirstMod (not_le.mp h)).symm

theorem LlcLayout.setPartitions (h : LlcLayout d) (hg : PartitionGuard d part) :
    LlcLayout (setPartitions d part) := by
  have hfit : SizesFit part := ⟨hg.sizes, hg.sum⟩
  refine ⟨by rwa [setPartitions_partitions], ?_, ?_⟩
  · rw [setPartitions_partitions]
    funext rid
    rw [SecurityMonitor.setPartitions]
    dsimp only
    rw [program_slices hfit]
    split_ifs with hrid
    · rfl
    -- a region before the first change has the slice that the new sizes give it
    · have hsame : ∀ i, i ≤ rid → part i = d.llcPartitions i := fun i hi =>
        eq_of_lt_idxFirstMod (lt_of_le_of_lt hi (not_le.mp hrid))
      rw [h.slices, slicesOf, slicesOf, hsame rid le_rfl, llcBase_congr fun i hi => hsame i hi.le]
  · have hpos : (0 : Fin 64).val < idxFirstMod part d.llcPartitions := Nat.pos_of_ne_zero hg.first
    rw [setPartitions_partitions, eq_of_lt_idxFirstMod hpos]
    exact h.first

/-- What the monitor and the controller know about the slices. -/
def SameSlices (d d' : Data N) : Prop := d'.llcPartitions = d.llcPartitions ∧ d'.llcSlices = d.llcSlices

theorem effect_slices (hE : Effect img L c ctx d k d') :
    SameSlices d d' ∨ ∃ part, PartitionGuard d part ∧ d' = setPartitions d part := by
  cases k <;> simp only [Effect] at hE
  case regionCachePartitioning part => exact .inr ⟨part, hE⟩
  all_goals refine .inl ?_
  case enclaveDelete f =>
    obtain ⟨hg, rfl⟩ := hE
    have he := hg.enclave
    cases hf : firstRegion d f with
    | none => rw [deleteEnclave_of_none he.aligned he.inRam hf]; exact ⟨rfl, rfl⟩
    | some i => rw [deleteEnclave_of_some he.aligned he.inRam hf]; exact ⟨rfl, rfl⟩
  case enclaveEnter e t =>
    obtain ⟨-, -, rfl⟩ := hE
    simp only [enterEnclave]; exact ⟨rfl, rfl⟩
  case enclaveExit => rw [hE.2, exitEnclave_eq]; exact ⟨rfl, rfl⟩
  case enclaveLoadPageTable e p v l acl =>
    obtain ⟨hg, d₁, h₁, rfl⟩ := hE
    rw [(loadPageTable_frame h₁).rest]; exact ⟨rfl, rfl⟩
  case enclaveLoadPage e p v o acl =>
    obtain ⟨hg, d₁, h₁, rfl⟩ := hE
    rw [(loadPage_frame hg.toLoadGuard h₁).rest]; exact ⟨rfl, rfl⟩
  case regionAssign r o =>
    rw [hE.2, assignRegion]
    split_ifs <;> exact ⟨rfl, rfl⟩
  case regionBlock r =>
    obtain ⟨hg, rfl⟩ := hE
    rw [blockRegion_eq hg.notSm]
    dsimp only
    split_ifs <;> exact ⟨rfl, rfl⟩
  case mailAccept b o => rw [hE.2, acceptMail_frame.rest]; exact ⟨rfl, rfl⟩
  case mailReceive b _ _ => rw [hE.2.2, receiveMail_frame.rest]; exact ⟨rfl, rfl⟩
  case mailSend o b msg => rw [hE.2, sendMail_frame.rest]; exact ⟨rfl, rfl⟩
  case enclaveCreate | enclaveLoadHandler => rw [hE.2]; exact ⟨rfl, rfl⟩
  case enclaveInit | threadDelete => rw [hE.2.2]; exact ⟨rfl, rfl⟩
  case threadLoad => rw [hE.2.2.2]; exact ⟨rfl, rfl⟩
  case regionMetadataCreate r => rw [hE.2.2.2]; exact ⟨rfl, rfl⟩
  all_goals rw [hE]; exact ⟨rfl, rfl⟩

theorem LlcLayout.of_same (h : LlcLayout d) (hs : SameSlices d d') : LlcLayout d' := by
  obtain ⟨hp, hslices⟩ := hs
  exact ⟨hp ▸ h.fit, by rw [hslices, hp, h.slices], hp ▸ h.first⟩

theorem step_layout (h : LlcLayout s.data) (hs : Step img s ev s') : LlcLayout s'.data := by
  obtain ⟨l, o⟩ := ev
  cases l with
  | call c k ctx =>
    obtain ⟨r, rfl, hne, hE⟩ := (step_call hs).reply
    by_cases hv : r.value = 0
    · rcases effect_slices (hE hv) with hsame | ⟨part, hg, hd⟩
      · exact h.of_same hsame
      · rw [hd]
        exact h.setPartitions hg
    · rw [hne hv]
      exact h
  | regionFree c r => rw [(step_free hs).2.1]; exact h
  | regionFreeStep c =>
    obtain ⟨p, -, hstep⟩ := step_freeStep hs
    cases hstep with
    | passed _ hd => rw [hd]; exact h
    | failed hd => rw [hd]; exact h
    | done _ hd => rw [hd]; exact h.of_same ⟨rfl, rfl⟩
  | timer c regs =>
    rw [(step_timer hs).2.2.2.2, aexEnclave, exitEnclave_eq]
    exact h.of_same ⟨rfl, rfl⟩
  | userStore c a v => rw [(step_store hs).2.2]; exact h.of_same ⟨rfl, rfl⟩

theorem smInit_layout (img : Image N) (boot : Boot N) : LlcLayout (smInit img boot).data := by
  have hb := smInit_booting img boot
  have hp : (smInit img boot).data.llcPartitions = fun _ => 4 := hb.partitions
  refine ⟨?_, ?_, by rw [hp]⟩
  · rw [hp]
    exact ⟨by decide, by decide⟩
  · rw [hp, hb.slices]
    funext rid
    have hbase : llcBase (fun _ => 4) rid = 16 * rid := by revert rid; decide
    rw [slicesOf, hbase]
    rfl

/-- The sets of a slice. -/
def LlcSlice.sets (x : LlcSlice) : Finset ℕ := Finset.Ico x.base (x.base + 2 ^ x.lgsize)

theorem slices_disjoint (h : rid < rid') : Disjoint (slicesOf part rid).sets (slicesOf part rid').sets := by
  refine Finset.disjoint_left.mpr fun x hx hx' => ?_
  rw [LlcSlice.sets, slicesOf, Finset.mem_Ico] at hx hx'
  exact absurd (hx.2.trans_le (llcBase_add_le h)) (not_lt.mpr hx'.1)

theorem SizesFit.sets_subset (h : SizesFit part) (rid : Fin 64) :
    (slicesOf part rid).sets ⊆ Finset.range 1024 := fun x hx => by
  rw [LlcSlice.sets, slicesOf, Finset.mem_Ico] at hx
  exact Finset.mem_range.mpr (hx.2.trans_le ((llcBase_add_le_sum part rid).trans h.sum))

/-- A word with the fields `rid`, `base` and `size`, no two of which have a bit in common. -/
structure HasFields (w : Word) (rid base size : ℕ) : Prop where
  word : w = (BitVec.ofNat 64 rid <<< 14) + (BitVec.ofNat 64 base <<< 4) + BitVec.ofNat 64 size
  ridBase : (BitVec.ofNat 64 rid <<< 14) &&& (BitVec.ofNat 64 base <<< 4) = 0
  ridSize : (BitVec.ofNat 64 rid <<< 14) &&& BitVec.ofNat 64 size = 0
  baseSize : (BitVec.ofNat 64 base <<< 4) &&& BitVec.ofNat 64 size = 0
  decoded : decodeLlcCtrl w = (rid, base, size)

theorem SizesFit.hasFields (h : SizesFit part) {first : ℕ} {w : Word} (hw : w ∈ llcCtrlWords part first) :
    ∃ rid : Fin 64, first ≤ rid ∧ HasFields w rid (llcBase part rid) (part rid).toNat := by
  obtain ⟨rid, hrid, rfl⟩ := List.mem_map.mp hw
  have hb := h.base_lt rid
  have hs := h.size_lt rid
  have hbn : (BitVec.ofNat 64 (llcBase part rid) <<< 4).toNat < 2 ^ 14 := by
    rw [BitVec.toNat_shiftLeft, BitVec.toNat_ofNat, Nat.shiftLeft_eq]
    omega
  have hsn : (BitVec.ofNat 64 (part rid).toNat).toNat < 2 ^ 4 := by
    rw [BitVec.toNat_ofNat]
    omega
  refine ⟨rid, mem_drop_finRange.mp hrid, ?_, shift_and_eq_zero hbn, shift_and_eq_zero (hsn.trans (by decide)),
    shift_and_eq_zero hsn, decode_llcCtrlWord hb hs rid⟩
  rw [llcCtrlWord, BitVec.shiftLeft_zero]

/-- **The slices of the cache, in every run**: the controller has the sizes and the bases
    that belong to the sizes of the monitor, the slices are apart and inside the cache, the
    slice of region 0 stays, and the words that a partitioning writes have their fields. -/
theorem llc_layout (h : Runs (Step img) (smInit img boot) es s) :
    (∀ rid, (s.data.llcSlices rid).lgsize = (s.data.llcPartitions rid).toNat ∧
      (s.data.llcSlices rid).base = ∑ i with i < rid, 2 ^ (s.data.llcPartitions i).toNat) ∧
    (∀ rid rid', rid ≠ rid' → Disjoint (s.data.llcSlices rid).sets (s.data.llcSlices rid').sets) ∧
    (∀ rid, (s.data.llcSlices rid).sets ⊆ Finset.range 1024) ∧
    s.data.llcSlices 0 = { base := 0, lgsize := 4 } ∧
    ∀ c part ctx r s', Step img s (.call c (.regionCachePartitioning part) ctx, some r) s' → r.value = 0 →
      ∀ w ∈ llcCtrlWords part (idxFirstMod part s.data.llcPartitions), ∃ rid : Fin 64,
        idxFirstMod part s.data.llcPartitions ≤ rid ∧ HasFields w rid (llcBase part rid) (part rid).toNat := by
  have hl : LlcLayout s.data := Runs.invariant (I := fun s => LlcLayout s.data) h (smInit_layout img boot)
    fun _ _ _ hl hs => step_layout hl hs
  rw [hl.slices]
  refine ⟨fun rid => ⟨rfl, llcBase_eq_sum ..⟩, fun rid rid' hne => ?_, hl.fit.sets_subset, ?_, ?_⟩
  · rcases lt_or_gt_of_ne hne with hlt | hlt
    · exact slices_disjoint hlt
    · exact (slices_disjoint hlt).symm
  · rw [slicesOf, hl.first]
    rfl
  · intro c part ctx r s' hs hv w hw
    obtain ⟨r', hr, -, hE⟩ := (step_call hs).reply
    obtain rfl := Option.some.inj hr
    have hg := (hE hv).1
    exact SizesFit.hasFields ⟨hg.sizes, hg.sum⟩ hw

/-- Region 1 gets half of its slice, and all slices after it move. -/
def shrunkSizes : Fin 64 → Byte := fun i => if i = 1 then 3 else 4

set_option maxRecDepth 100000 in
theorem llc_layout_shrunk : ∃ es s, Runs (Step smallImage) (smInit smallImage zeroBoot) es s ∧
    s.data.llcPartitions 1 = 3 ∧
    (s.data.llcSlices 2).base = ∑ i with i < 2, 2 ^ (s.data.llcPartitions i).toNat := by
  obtain ⟨es, s, h, hp⟩ : ∃ es s, Runs (Step smallImage) (smInit smallImage zeroBoot) es s ∧
      s.data.llcPartitions 1 = 3 :=
    Runs.exists_of_runsOf [callOn 0 (.regionCachePartitioning shrunkSizes)] (by decide +kernel)
  exact ⟨es, s, h, hp, ((llc_layout h).1 2).2⟩

/-! ## Running enclaves -/

section
variable {ρ : Type} {Q : Bool → CallState N → Prop} {R : ρ → CallState N → Prop} {F : Fault → Prop}
  {s : CallState N} {c₀ : Fin N}

end

section
variable {s : CallState N} {E : Empty → CallState N → Prop} {Q : ApiResult → CallState N → Prop}
  {F : Fault → Prop}

end

end SecurityMonitor
