/-
  Deletion of metadata: `enclave_delete`, and `region_metadata_create`, which
  clears a region too.

  `enclave_delete` frees the pages of an enclave without regions.  For an enclave
  that owns regions the loop over its region map first clears the region that
  holds its metadata, the map included; every other enclave and thread there is
  dead from then on.
-/
import SecurityMonitor.Alloc

namespace SecurityMonitor

open ByteMem

variable {N : ℕ} {img : Image N} {d d' : Data N} {a e t x : Word} {k : MetadataPage} {S : Set Word}

/-! ## Clearing pages -/

/-- Every page in `S` is cleared, and free afterwards, or tagged invalid. -/
structure Clears (d d' : Data N) (S : Set Word) : Prop where
  kept : ∀ a ∉ S, ∀ k, ValidMetadata d' a k ↔ ValidMetadata d a k
  cores : SameRunning d d'
  content : ∀ a ∉ S, MetadataPageAt d a → IsSlot a → ∀ x ∈ range a 4096, d'.mem x = d.mem x
  extents : ∀ e, ValidMetadata d e .enclave → ∀ a, InExtent d e a → (a ∈ S ↔ e ∈ S)
  kinds : ∀ a ∈ S, ∀ k, ValidMetadata d' a k → k = .free ∧ IsSlot a ∨ k = .invalid
  zero : ∀ a ∈ S, IsSlot a → ∀ x ∈ range a 4096, d'.mem x = 0
  owners : ∀ o ∈ S, InUse d o → EnclaveOrDead d o → Dead d' o
  threads : ∀ t ∈ S, ∀ e, ThreadOfOrDead d e t → Dead d' t

namespace Clears

theorem notEnclave (hc : Clears d d' S) (ha : a ∈ S) : ¬ ValidMetadata d' a .enclave := fun hv => by
  rcases hc.kinds a ha _ hv with ⟨hk, -⟩ | hk <;> exact absurd hk nofun

theorem notThread (hc : Clears d d' S) (ha : a ∈ S) : ¬ ValidMetadata d' a .thread := fun hv => by
  rcases hc.kinds a ha _ hv with ⟨hk, -⟩ | hk <;> exact absurd hk nofun

theorem newSlot (hc : Clears d d' S) (ha : a ∈ S) (hv : ValidMetadata d' a k) (hk : k ≠ .invalid) :
    IsSlot a :=
  (hc.kinds a ha k hv).elim And.right fun hi => absurd hi hk

theorem retags (hc : Clears d d' S) : Retags img d d' S ∅ where
  kept := hc.kept
  cores := hc.cores
  content a ha _ := hc.content a ha
  counters _ ho := ho.elim
  extents := hc.extents
  newSlot _ ha _ := hc.newSlot ha
  newEnclave _ ha hv := absurd hv (hc.notEnclave ha)
  newFree a ha hv x hx := hc.zero a ha (hc.newSlot ha hv nofun) x (threadBytes_subset a hx)
  newTail a ha hv x hx _ :=
    hc.zero a ha (hv.elim (hc.newSlot ha · nofun) (hc.newSlot ha · nofun)) x hx
  newThread _ ha hv := absurd hv (hc.notThread ha)
  newDead a ha hd := by
    have hzero {k : ℕ} (hk : k + 8 ≤ 4096) : d'.mem.load64 (off a k) = 0 :=
      Mem.load64_eq_zero fun i hi => by
        rw [off_off]
        exact hc.zero a ha hd.slot _ (mem_range_off (by omega) (by decide))
    exact ⟨hzero (by decide), hzero (by decide), hzero (by decide)⟩
  owners := hc.owners
  running c _ hS := hc.threads _ hS _

theorem heapInv (hc : Clears d d' S) (h : HeapInv img d) : HeapInv img d' := by
  have hr : Retags img d d' S ∅ := hc.retags
  refine hr.heapInv h fun f hv => ?_
  have hS : f ∉ S := fun hS => hc.notEnclave hS hv
  have hv := (hc.kept f hS _).mp hv
  exact hr.counts_kept h hv (by rw [hr.enclave_eq h hS (Set.notMem_empty f) hv])
    (fun t ht hvt => absurd hvt (hc.notThread ht)) fun t ht => hc.threads t ht f

end Clears

/-! ## Deletion of an enclave -/

section

/-- Two enclaves have no page in common: the first page of one would be tagged invalid as
    a page of the other. -/
theorem HeapInv.extent_disjoint {f : Word} (h : HeapInv img d) (he : ValidMetadata d e .enclave)
    (hf : ValidMetadata d f .enclave) (hea : InExtent d e a) (hfa : InExtent d f a) : e = f := by
  obtain ⟨i, hi, rfl⟩ := hea
  obtain ⟨j, hj, hij⟩ := hfa
  have hse := h.slot e _ he (by decide)
  have hsf := h.slot f _ hf (by decide)
  have hnat := congrArg BitVec.toNat hij
  have hfe := (h.size e he).2
  have hff := (h.size f hf).2
  rw [page_toNat hse.inRam (by omega), page_toNat hsf.inRam (by omega)] at hnat
  have hbody {e f : Word} (he : ValidMetadata d e .enclave) (hf : ValidMetadata d f .enclave) {k : ℕ}
      (h0 : 0 < k) (hk : k < extentPages d e) (hnat : f.toNat = e.toNat + 4096 * k) : False := by
    have hv := h.body_valid he h0 hk
    have hpage := page_toNat (h.slot e _ he (by decide)).inRam (i := k) (by have := (h.size e he).2; omega)
    rw [show off e (4096 * k) = f from BitVec.eq_of_toNat_eq (by omega)] at hv
    exact absurd (hf.tag_unique hv) (by decide)
  rcases Nat.lt_trichotomy e.toNat f.toNat with hlt | heq | hgt
  · exact (hbody he hf (k := i - j) (by omega) (by omega) (by omega)).elim
  · exact BitVec.eq_of_toNat_eq heq
  · exact (hbody hf he (k := j - i) (by omega) (by omega) (by omega)).elim

/-- An enclave that can be deleted is not in use. -/
theorem DeleteGuard.not_inUse {L : LockId N → Bool} (hg : DeleteGuard L d e) (h : HeapInv img d) :
    ¬ InUse d e := by
  obtain ⟨A, hA⟩ := h.counts e hg.enclave
  have hcard : A.card = 0 := by
    have hle := hA.card_lt
    have hthr := hg.noThreads
    rw [BitVec.toInt_eq_toNat_cond, hA.card] at hthr
    split_ifs at hthr with hlt <;> omega
  rw [Finset.card_eq_zero] at hcard
  rintro (⟨c, hc⟩ | ⟨t, ht, ho⟩)
  · exact Finset.notMem_empty _ (hcard ▸ hA.running c hc)
  · exact Finset.notMem_empty _ (hcard ▸ hA.live t ht ho)

theorem mem_pagesFrom {n : ℕ} (he : IsSlot e) (hfit : (addrToRegionPageId e).toNat + n ≤ 8192)
    (hx : x ∈ range e (4096 * n)) : ∃ a ∈ pagesFrom e n, x ∈ range a 4096 := by
  have hslot := isSlot_iff.mp he
  have hfit' := hfit
  rw [addrToRegionPageId_toNat_of_ram hslot.2.1] at hfit'
  rw [mem_range_iff (by omega)] at hx
  have hpage := page_toNat he.inRam (i := (x.toNat - e.toNat) / 4096) (by omega)
  refine ⟨_, ⟨(x.toNat - e.toNat) / 4096, by omega, rfl⟩, ?_⟩
  rw [(isSlot_page he (by omega)).mem_iff le_rfl, hpage]
  omega

theorem page_subset {n : ℕ} (hfit : (addrToRegionPageId e).toNat + n ≤ 8192)
    (ha : a ∈ pagesFrom e n) : range a 4096 ⊆ range e (4096 * n) := by
  obtain ⟨i, hi, rfl⟩ := ha
  exact range_off_sub (by omega) (by omega)

variable {L : LockId N → Bool}

/-- The memory after the deletion of an enclave without regions. -/
theorem delete_none_eq (h : HeapInv img d) (he : ValidMetadata d e .enclave)
    (hn : firstRegion d e = none) : deleteEnclave d e =
      { d with
        mem := (freePages d.mem e (enclaveMetadataPages (d.enclave e).numMailboxes)).fill e
          (4096 * extentPages d e) fun _ => 0 } := by
  have hfit := (h.size e he).2
  have hmul : (enclaveMetadataPages (d.enclave e).numMailboxes * BitVec.ofNat 64 pageSize).toNat =
      4096 * extentPages d e := by
    rw [BitVec.toNat_mul, ← extentPages, show (BitVec.ofNat 64 pageSize).toNat = 4096 by decide]
    omega
  rw [deleteEnclave_of_none he.aligned he.inRam hn, hmul, Mem.set]

/-- The page map is not in the pages of an enclave. -/
theorem HeapInv.info_notMem_extent (h : HeapInv img d) (he : ValidMetadata d e .enclave)
    (hr : (addrToRegionId a).toNat < 64) : pageInfoAddr a ∉ range e (4096 * extentPages d e) := fun hx => by
  obtain ⟨b, hb, hxb⟩ := mem_pagesFrom (h.slot e _ he (by decide)) (h.size e he).2 hx
  exact (h.slot_of_inExtent he hb).info_notMem hr hxb

theorem delete_none_tag (h : HeapInv img d) (he : ValidMetadata d e .enclave)
    (hn : firstRegion d e = none) (ha : InExtent d e a) :
    pageTag (deleteEnclave d e) a = MetadataPage.free.code := by
  have hfit := (h.size e he).2
  rw [pageTag_eq, delete_none_eq h he hn]
  dsimp only
  rw [Mem.fill_apply_of_notMem (h.info_notMem_extent he (h.slot_of_inExtent he ha).inRam)]
  obtain ⟨i, hi, rfl⟩ := ha
  rw [pageInfoAddr_page (h.slot e _ he (by decide)) (by omega)]
  exact freePages_apply hi

/-- Deletion of an enclave without regions: its pages become free and zero. -/
theorem delete_none_clears (h : HeapInv img d) (hg : DeleteGuard L d e)
    (hn : firstRegion d e = none) : Clears d (deleteEnclave d e) {a | InExtent d e a} := by
  have he := hg.enclave
  have hs := h.slot e _ he (by decide)
  have hfit := (h.size e he).2
  have heq := delete_none_eq h he hn
  have htag {a : Word} := delete_none_tag (a := a) h he hn
  generalize hd' : deleteEnclave d e = d' at heq htag ⊢
  have hmem : d'.mem = (freePages d.mem e (enclaveMetadataPages (d.enclave e).numMailboxes)).fill e
      (4096 * extentPages d e) fun _ => 0 := by rw [heq]
  have hpages (a : Word) : MetadataPageAt d' a ↔ MetadataPageAt d a :=
    metadataPageAt_congr (by rw [heq])
  have hdead {a : Word} (ha : InExtent d e a) : ¬ Dead d a := fun hd => hd.notBody e he ha
  refine
    { kept := fun a ha k => validMetadata_congr (hpages a) fun hp => ?_
      cores := fun c => by rw [heq]; exact ⟨rfl, rfl⟩
      content := fun a ha hp hsa x hx => ?_
      extents := fun f hv a hx => ?_
      kinds := fun a ha k hv => .inl ⟨hv.tag_unique ⟨hv.toMetadataPageAt, htag ha⟩,
        h.slot_of_inExtent he ha⟩
      zero := fun a ha _ x hx => ?_
      owners := fun o ho hu hE => ?_
      threads := fun t ht f hT => ?_ }
  · rw [pageTag_eq, hmem, Mem.fill_apply_of_notMem (h.info_notMem_extent he hp.inRam)]
    exact freePages_agree _ (info_notMem_pagesFrom hs hfit hp ha)
  · rw [hmem, Mem.fill_apply_of_notMem fun hx' => ?_]
    · exact freePages_agree _ (slot_notMem_info hs hfit hsa hx)
    · obtain ⟨b, hb, hxb⟩ := mem_pagesFrom hs hfit hx'
      exact hsa.sep (h.slot_of_inExtent he hb) (by rintro rfl; exact ha hb) x hx hxb
  · constructor
    · intro ha
      rw [h.extent_disjoint hv he hx ha]
      exact inExtent_self (h.size e he).1
    · intro hf
      rw [show f = e from by_contra fun hne => h.notInExtent he hv (by decide) hne hf] at hx
      exact hx
  · rw [hmem]
    exact Mem.fill_apply_of_mem (page_subset hfit ha hx)
  · rcases hE with hv | hd
    · rw [show o = e from by_contra fun hne => h.notInExtent he hv (by decide) hne ho] at hu
      exact absurd hu (hg.not_inUse h)
    · exact absurd hd (hdead ho)
  · rcases hT with ⟨hv, -⟩ | hd
    · have hne : t ≠ e := by rintro rfl; exact absurd (hv.tag_unique he) (by decide)
      exact absurd ht (h.notInExtent he hv (by decide) hne)
    · exact absurd hd (hdead ht)

variable {i : Fin 64}

/-- The region of the metadata is cleared, up to the tag of the enclave. -/
theorem delete_some_apply (he : ValidMetadata d e .enclave) (hs : IsSlot e)
    (hi : firstRegion d e = some i) (hx : (addrToRegionId x).toNat < 64 ∧ regionOf x = regionOf e) :
    (deleteEnclave d e).mem x = if x = pageInfoAddr e then MetadataPage.free.code else 0 := by
  rw [deleteEnclave_of_some he.aligned he.inRam hi]
  show ((freePages (wipeRegion d e i).mem e 1).set e 4096 0) x = _
  rw [Mem.set]
  by_cases hp : x ∈ range e 4096
  · have hne : x ≠ pageInfoAddr e := fun hxe => hs.info_notMem hs.inRam (hxe ▸ hp)
    rw [Mem.fill_apply_of_mem hp, if_neg hne]
  · rw [Mem.fill_apply_of_notMem hp]
    by_cases hxe : x = pageInfoAddr e
    · subst hxe
      rw [if_pos rfl]
      exact (congrArg _ (off_zero _).symm).trans (freePages_apply (i := 0) (by decide))
    · rw [if_neg hxe, freePages_agree _ fun hx' => hxe (eq_of_mem_range_one hx')]
      exact wipeRegion_zero he.inRam hx.1 hx.2

theorem delete_some_other (he : ValidMetadata d e .enclave) (hi : firstRegion d e = some i)
    (hx : ¬ ((addrToRegionId x).toNat < 64 ∧ regionOf x = regionOf e)) :
    (deleteEnclave d e).mem x = d.mem x := by
  rw [deleteEnclave_of_some he.aligned he.inRam hi]
  show ((freePages (wipeRegion d e i).mem e 1).set e 4096 0) x = _
  rw [Mem.set, Mem.fill_apply_of_notMem fun hp => hx (region_of_mem_page he.aligned he.inRam hp),
    freePages_agree _ fun hx' => hx (by rw [eq_of_mem_range_one hx']; exact region_pageInfoAddr he.inRam),
    wipeRegion_mem, Mem.fill_apply_of_notMem fun hp => hx ((mem_region_iff he.inRam).mp hp)]

theorem deleteEnclave_some_regions (he : ValidMetadata d e .enclave) (hi : firstRegion d e = some i) :
    (deleteEnclave d e).regions =
      Function.update d.regions i { d.regions i with state := .blocked, owner := ownerSm } := by
  rw [deleteEnclave_of_some he.aligned he.inRam hi]
  rfl

/-- Deletion of an enclave with regions: all other enclaves and threads of its metadata
    region are dead. -/
theorem delete_some_clears (h : HeapInv img d) (hg : DeleteGuard L d e)
    (hi : firstRegion d e = some i) (hni : (d.regions i).type ≠ .metadata) :
    Clears d (deleteEnclave d e)
      {a | isPageAligned a = true ∧ (addrToRegionId a).toNat < 64 ∧ regionOf a = regionOf e} := by
  have he := hg.enclave
  have hs := h.slot e _ he (by decide)
  have hregions := deleteEnclave_some_regions he hi
  have hin {x : Word} := delete_some_apply (x := x) he hs hi
  have hout {x : Word} := delete_some_other (x := x) he hi
  have hcores : (deleteEnclave d e).cores = d.cores := by
    rw [deleteEnclave_of_some he.aligned he.inRam hi]; rfl
  generalize hd' : deleteEnclave d e = d' at *
  have hpages (a : Word) : MetadataPageAt d' a ↔ MetadataPageAt d a := by
    refine metadataPageAt_of_regions fun j => ?_
    rw [hregions]
    by_cases hj : j = i
    · subst hj
      rw [Function.update_self]
      exact iff_of_false (fun h => hni h.1) fun h => hni h.1
    · rw [Function.update_of_ne hj]
  have hkept (a : Word) (ha : ¬ (isPageAligned a = true ∧ (addrToRegionId a).toNat < 64 ∧
      regionOf a = regionOf e)) (k : MetadataPage) : ValidMetadata d' a k ↔ ValidMetadata d a k :=
    validMetadata_congr (hpages a) fun hp => hout fun hx =>
      ha ⟨hp.aligned, hp.inRam, (region_pageInfoAddr hp.inRam).2.symm.trans hx.2⟩
  have hkinds {a : Word} (ha : isPageAligned a = true) (hr : (addrToRegionId a).toNat < 64)
      (hre : regionOf a = regionOf e) :
      pageTag d' a = if a = e then MetadataPage.free.code else MetadataPage.invalid.code := by
    obtain ⟨hr', hre'⟩ := region_pageInfoAddr hr
    rw [pageTag_eq, hin ⟨hr', hre'.trans hre⟩]
    refine if_congr ⟨fun hae => ?_, fun hae => hae ▸ rfl⟩ rfl rfl
    exact pageInfoAddr_inj ha hr hs.aligned hs.inRam hae
  have hnoEnclave {f : Word} (hv : ValidMetadata d' f .enclave) : regionOf f ≠ regionOf e := fun hr => by
    have htag := hv.tag.symm.trans (hkinds hv.aligned hv.inRam hr)
    split_ifs at htag <;> exact absurd htag (by decide)
  have hdead {a : Word} (hsa : IsSlot a) (hp : MetadataPageAt d a) (hr : regionOf a = regionOf e)
      (hne : a ≠ e) : Dead d' a := by
    refine ⟨⟨(hpages a).mpr hp, by rw [hkinds hp.aligned hp.inRam hr, if_neg hne]⟩, hsa, fun f hv hx => ?_⟩
    have hrf := hnoEnclave hv
    have hvf := (hkept f (fun hf => hrf hf.2.2) _).mp hv
    have hsf := h.slot f _ hvf (by decide)
    have hrec : d'.enclave f = d.enclave f := enclaveMetadata_agree fun x hx =>
      hout fun hxe => hrf ((hsf.region_of_mem (header_subset f hx)).2.symm.trans hxe.2)
    rw [InExtent, extentPages, hrec] at hx
    exact hrf ((h.region_of_inExtent hvf hx).symm.trans hr)
  refine
    { kept := hkept
      cores := fun c => by rw [hcores]; exact ⟨rfl, rfl⟩
      content := fun a ha hp hsa x hx => hout fun hxe =>
        ha ⟨hsa.aligned, hsa.inRam, (hsa.region_of_mem hx).2.symm.trans hxe.2⟩
      extents := fun f hv a hx => ?_
      kinds := fun a ha k hv => ?_
      zero := fun a ha hsa x hx => ?_
      owners := fun o ho hu hE => ?_
      threads := fun t ht f hT => ?_ }
  · have hsa := h.slot_of_inExtent hv hx
    show (_ ∧ _ ∧ _) ↔ (_ ∧ _ ∧ _)
    rw [h.region_of_inExtent hv hx]
    exact ⟨fun ha => ⟨hv.aligned, hv.inRam, ha.2.2⟩, fun hf => ⟨hsa.aligned, hsa.inRam, hf.2.2⟩⟩
  · have htag := hkinds ha.1 ha.2.1 ha.2.2
    split_ifs at htag with hae
    · exact .inl ⟨hv.tag_unique ⟨hv.toMetadataPageAt, htag⟩, hae ▸ hs⟩
    · exact .inr (hv.tag_unique ⟨hv.toMetadataPageAt, htag⟩)
  · obtain ⟨hxr, hxa⟩ := hsa.region_of_mem hx
    have hne : x ≠ pageInfoAddr e := fun hxe => hsa.info_notMem hs.inRam (hxe ▸ hx)
    rw [hin ⟨hxr, hxa.trans ha.2.2⟩, if_neg hne]
  · refine hdead (hE.slot h) hE.page ho.2.2 ?_
    rintro rfl
    exact hg.not_inUse h hu
  · exact hdead (h.slot_thread hT) hT.page ht.2.2 (hT.ne_of_enclave he).symm

end

/-! ## Metadata regions -/

section
variable {r : Word}

theorem addrToRegionId_eq (hr : r.toNat < 64) (ha : (addrToRegionId a).toNat < 64)
    (h : regionOf a = toRegion r) : addrToRegionId a = r := by
  have hval := congrArg Fin.val h
  rw [regionOf, toRegion_val ha, toRegion_val hr] at hval
  exact BitVec.eq_of_toNat_eq hval

theorem createMetadataRegion_mem : (createMetadataRegion d (toRegion r) r).mem =
    (d.mem.fill (regionIdToAddr r) regionSize fun _ => 0).fill (regionIdToAddr r) numRegionPages
      fun p => if p < getMetadataStartPage then MetadataPage.invalid.code else MetadataPage.free.code :=
  rfl

theorem createMetadataRegion_regions : (createMetadataRegion d (toRegion r) r).regions =
    Function.update d.regions (toRegion r) { owner := ownerSm, type := .metadata, state := .owned } := rfl

section
variable (hr : r.toNat < 64)
include hr

theorem createMetadataRegion_other
    (hx : ¬ ((addrToRegionId x).toNat < 64 ∧ regionOf x = toRegion r)) :
    (createMetadataRegion d (toRegion r) r).mem x = d.mem x := by
  have hnat := regionIdToAddr_toNat hr
  have hnot {n : ℕ} (hn : n ≤ regionSize) : x ∉ range (regionIdToAddr r) n := fun hm => hx (by
    rw [regionSize] at hn
    rw [mem_range_iff (by omega), hnat] at hm
    have hxr : (addrToRegionId x).toNat < 64 := (addrToRegionId_lt x).mpr (by omega)
    refine ⟨hxr, Fin.ext ?_⟩
    rw [regionOf_val hxr, toRegion_val hr]
    omega)
  rw [createMetadataRegion_mem, Mem.fill_apply_of_notMem (hnot (by decide)),
    Mem.fill_apply_of_notMem (hnot le_rfl)]

theorem createMetadataRegion_tag (ha : (addrToRegionId a).toNat < 64) (hreg : regionOf a = toRegion r) :
    pageTag (createMetadataRegion d (toRegion r) r) a =
      if (addrToRegionPageId a).toNat < getMetadataStartPage then MetadataPage.invalid.code
      else MetadataPage.free.code := by
  have haddr : pageInfoAddr a = off (regionIdToAddr r) (addrToRegionPageId a).toNat := by
    rw [pageInfoAddr, addrToRegionId_eq hr ha hreg, off, BitVec.ofNat_toNat, BitVec.setWidth_eq]
  rw [pageTag_eq, haddr, createMetadataRegion_mem]
  exact Mem.fill_off (pageId_lt a) (by decide)

theorem createMetadataRegion_zero (hs : IsSlot a) (hreg : regionOf a = toRegion r)
    (hx : x ∈ range a 4096) : (createMetadataRegion d (toRegion r) r).mem x = 0 := by
  have hslot := isSlot_iff.mp hs
  have hnat := regionBase_toNat hs.inRam
  rw [addrToRegionId_eq hr hs.inRam hreg] at hnat
  rw [hs.mem_iff le_rfl] at hx
  have hmap : x ∉ range (regionIdToAddr r) numRegionPages := fun hm => by
    rw [mem_range_iff (by rw [numRegionPages]; omega), hnat] at hm
    rw [show numRegionPages = 8192 from rfl] at hm
    omega
  have hin : x ∈ range (regionIdToAddr r) regionSize := by
    rw [show regionSize = 0x2000000 from rfl, mem_range_iff (by omega), hnat]
    omega
  rw [createMetadataRegion_mem, Mem.fill_apply_of_notMem hmap, Mem.fill_apply_of_mem hin]

end

/-- A new metadata region: its pages were in no metadata region before. -/
theorem createMetadataRegion_clears (hr : r.toNat < 64)
    (hfree : (d.regions (toRegion r)).state = .free) (h : HeapInv img d) :
    Clears d (createMetadataRegion d (toRegion r) r)
      {a | isPageAligned a = true ∧ (addrToRegionId a).toNat < 64 ∧ regionOf a = toRegion r} := by
  have htag {a : Word} := createMetadataRegion_tag (d := d) (a := a) hr
  have hzero {a x : Word} := createMetadataRegion_zero (d := d) (a := a) (x := x) hr
  have hother {x : Word} := createMetadataRegion_other (d := d) (x := x) hr
  have hregions := createMetadataRegion_regions (d := d) (r := r)
  have hcores : (createMetadataRegion d (toRegion r) r).cores = d.cores := rfl
  generalize hd' : createMetadataRegion d (toRegion r) r = d' at *
  have hnew {a : Word} (hp : MetadataPageAt d a) : regionOf a ≠ toRegion r := fun hreg => by
    have hst := hp.state
    rw [hreg, hfree] at hst
    exact absurd hst nofun
  refine
    { kept := fun a ha k => ?_
      cores := fun c => by rw [hcores]; exact ⟨rfl, rfl⟩
      content := fun a ha hp hsa x hx => hother fun hxe =>
        hnew hp ((hsa.region_of_mem hx).2.symm.trans hxe.2)
      extents := fun f hv a hx => iff_of_false (fun ha => ?_) fun hf => hnew hv.toMetadataPageAt hf.2.2
      kinds := fun a ha k hv => ?_
      zero := fun a ha hsa x hx => hzero hsa ha.2.2 hx
      owners := fun o ho _ hE => ?_
      threads := fun t ht f hT => absurd ht.2.2 (hnew hT.page) }
  · by_cases hp : isPageAligned a = true ∧ (addrToRegionId a).toNat < 64
    · have hreg : regionOf a ≠ toRegion r := fun hreg => ha ⟨hp.1, hp.2, hreg⟩
      have hpage : MetadataPageAt d' a ↔ MetadataPageAt d a := by
        have heq : d'.regions (regionOf a) = d.regions (regionOf a) := by
          rw [hregions, Function.update_of_ne hreg]
        exact ⟨fun h => ⟨h.aligned, h.inRam, heq ▸ h.type, heq ▸ h.state⟩,
          fun h => ⟨h.aligned, h.inRam, heq ▸ h.type, heq ▸ h.state⟩⟩
      refine validMetadata_congr hpage fun hpa => hother fun hx => hreg ?_
      exact (region_pageInfoAddr hp.2).2.symm.trans hx.2
    · exact iff_of_false (fun hv => hp ⟨hv.aligned, hv.inRam⟩) fun hv => hp ⟨hv.aligned, hv.inRam⟩
  · exact hnew hv.toMetadataPageAt ((h.region_of_inExtent hv hx).symm.trans ha.2.2)
  · have ht := htag ha.2.1 ha.2.2
    split_ifs at ht with hlt
    · exact .inr (hv.tag_unique ⟨hv.toMetadataPageAt, ht⟩)
    · exact .inl ⟨hv.tag_unique ⟨hv.toMetadataPageAt, ht⟩, ha.1, ha.2.1, Nat.le_of_not_lt hlt⟩
  · exact absurd ho.2.2 (hnew hE.page)

end

end SecurityMonitor