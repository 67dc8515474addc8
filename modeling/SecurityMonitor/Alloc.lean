/-
  Allocation of metadata: the steps that change tags.

  `Retags img d d' S O` says what such a step must do to keep the invariant: the
  pages outside `S` keep their tags and what the invariant needs of them, the
  pages in `S` are new ones of their kind, and nothing that is still referred to
  is lost.  `enclave_create`, `thread_load` and `thread_delete` are instances
  here, the deletion of enclaves in the next module.
-/
import SecurityMonitor.Heap

namespace SecurityMonitor

open ByteMem

variable {N : ℕ} {img : Image N} {d d' : Data N} {a e t x : Word} {k : MetadataPage} {S : Set Word}

/-! ## Steps that change tags -/

/-- A core runs `o`, or a thread belongs to `o`. -/
def InUse (d : Data N) (o : Word) : Prop :=
  (∃ c, (d.cores c).owner = o) ∨ ∃ t, ValidMetadata d t .thread ∧ (d.thread t).owner = o

/-- The pages in `S` get new tags, and the thread counters of the enclaves in `O` change. -/
structure Retags (img : Image N) (d d' : Data N) (S O : Set Word) : Prop where
  kept : ∀ a ∉ S, ∀ k, ValidMetadata d' a k ↔ ValidMetadata d a k
  cores : SameRunning d d'
  content : ∀ a ∉ S, a ∉ O → MetadataPageAt d a → IsSlot a → ∀ x ∈ range a 4096, d'.mem x = d.mem x
  counters : ∀ o ∈ O,
    ValidMetadata d o .enclave ∧ (d'.enclave o).numMailboxes = (d.enclave o).numMailboxes ∧
      (d'.enclave o).initState = (d.enclave o).initState ∨
    Dead d o ∧ (DeadWords d.mem o → DeadWords d'.mem o)
  extents : ∀ e, ValidMetadata d e .enclave → ∀ a, InExtent d e a → (a ∈ S ↔ e ∈ S)
  newSlot : ∀ a ∈ S, ∀ k, ValidMetadata d' a k → k ≠ .invalid → IsSlot a
  newEnclave : ∀ e ∈ S, ValidMetadata d' e .enclave → NoWrap (d'.enclave e).numMailboxes ∧
    (addrToRegionPageId e).toNat + extentPages d' e ≤ 8192 ∧
    (∀ i, 0 < i → i < extentPages d' e → pageTag d' (off e (4096 * i)) = MetadataPage.invalid.code) ∧
    ∀ a, InExtent d' e a → a ∈ S
  newFree : ∀ a ∈ S, ValidMetadata d' a .free → ∀ x ∈ threadBytes a, d'.mem x = 0
  newTail : ∀ a ∈ S, FreeOrThread d' a → ∀ x ∈ range a 4096, x ∉ threadBytes a → d'.mem x = 0
  newThread : ∀ t ∈ S, ValidMetadata d' t .thread →
    EnclaveOrDead d' (d'.thread t).owner ∧ ThreadOk img (d'.thread t)
  newDead : ∀ a ∈ S, Dead d' a → DeadWords d'.mem a
  owners : ∀ o ∈ S, InUse d o → EnclaveOrDead d o → Dead d' o
  running : ∀ c, (d.cores c).owner ≠ ownerUntrusted → (d.cores c).thread ∈ S →
    ThreadOfOrDead d (d.cores c).owner (d.cores c).thread → Dead d' (d.cores c).thread

namespace Retags

variable {O : Set Word} (hr : Retags img d d' S O)
include hr

theorem not_mem_of_tag (hv : ValidMetadata d a k) (hk : k ≠ .enclave) (hk' : k ≠ .invalid) :
    a ∉ O := fun hO => by
  rcases hr.counters a hO with ⟨he, -⟩ | ⟨hd, -⟩
  · exact hk (hv.tag_unique he)
  · exact hk' (hv.tag_unique hd.page)

variable (h : HeapInv img d)
include h

theorem enclave_eq (hS : e ∉ S) (hO : e ∉ O) (hv : ValidMetadata d e .enclave) :
    d'.enclave e = d.enclave e :=
  enclaveMetadata_agree fun x hx =>
    hr.content e hS hO hv.toMetadataPageAt (h.slot e _ hv (by decide)) x (header_subset e hx)

theorem enclave (hS : e ∉ S) (hv : ValidMetadata d e .enclave) :
    (d'.enclave e).numMailboxes = (d.enclave e).numMailboxes ∧
      (d'.enclave e).initState = (d.enclave e).initState := by
  by_cases hO : e ∈ O
  · rcases hr.counters e hO with ⟨-, hn⟩ | ⟨hd, -⟩
    · exact hn
    · exact absurd hv (hd.not_valid (by decide))
  · rw [hr.enclave_eq h hS hO hv]
    exact ⟨rfl, rfl⟩

theorem free (hS : a ∉ S) (hv : ValidMetadata d a .free) : ∀ x ∈ threadBytes a, d'.mem x = d.mem x :=
  fun x hx => hr.content a hS (hr.not_mem_of_tag hv (by decide) (by decide)) hv.toMetadataPageAt
    (h.slot a _ hv (by decide)) x (threadBytes_subset a hx)

theorem tail (hS : a ∉ S) (hv : FreeOrThread d a) : ∀ x ∈ range a 4096, d'.mem x = d.mem x := by
  intro x hx
  rcases hv with hv | hv <;>
    exact hr.content a hS (hr.not_mem_of_tag hv (by decide) (by decide)) hv.toMetadataPageAt
      (h.slot a _ hv (by decide)) x hx

theorem thread (hS : t ∉ S) (hv : ValidMetadata d t .thread) : d'.thread t = d.thread t :=
  threadMetadata_agree fun x hx => hr.content t hS (hr.not_mem_of_tag hv (by decide) (by decide))
    hv.toMetadataPageAt (h.slot t _ hv (by decide)) x (threadBytes_subset t hx)

theorem deadWords (hS : a ∉ S) (hd : Dead d a) : DeadWords d'.mem a := by
  have hw := h.dead a hd
  by_cases hO : a ∈ O
  · rcases hr.counters a hO with ⟨he, -⟩ | ⟨-, himp⟩
    · exact absurd he (hd.not_valid (by decide))
    · exact himp hw
  · exact hw.of_agree (hr.content a hS hO hd.page.toMetadataPageAt hd.slot)

theorem inExtent_iff (he : e ∉ S) (hv : ValidMetadata d e .enclave) :
    InExtent d' e a ↔ InExtent d e a := by
  simp only [InExtent, extentPages, (hr.enclave h he hv).1]

theorem dead_iff (ha : a ∉ S) : Dead d' a ↔ Dead d a := by
  constructor
  · rintro ⟨hp, hs, hb⟩
    refine ⟨(hr.kept a ha _).mp hp, hs, fun e hv hx => ?_⟩
    have he : e ∉ S := fun he => ha ((hr.extents e hv a hx).mpr he)
    exact hb e ((hr.kept e he _).mpr hv) ((hr.inExtent_iff h he hv).mpr hx)
  · rintro ⟨hp, hs, hb⟩
    refine ⟨(hr.kept a ha _).mpr hp, hs, fun e hv hx => ?_⟩
    by_cases he : e ∈ S
    · exact ha ((hr.newEnclave e he hv).2.2.2 a hx)
    · have hv := (hr.kept e he _).mp hv
      exact hb e hv ((hr.inExtent_iff h he hv).mp hx)

theorem enclaveOrDead {o : Word} (hu : InUse d o) (ho : EnclaveOrDead d o) : EnclaveOrDead d' o := by
  by_cases hS : o ∈ S
  · exact .inr (hr.owners o hS hu ho)
  · exact (or_congr (hr.kept o hS _) (hr.dead_iff h hS)).mpr ho

theorem threadOfOrDead (hS : t ∉ S) (ht : ThreadOfOrDead d e t) : ThreadOfOrDead d' e t := by
  rcases ht with ⟨hv, ho⟩ | hd
  · exact .inl ⟨(hr.kept t hS _).mpr hv, by rw [hr.thread h hS hv]; exact ho⟩
  · exact .inr ((hr.dead_iff h hS).mpr hd)

/-- An enclave whose threads are not concerned counts what it counted. -/
theorem counts_kept (hv : ValidMetadata d e .enclave)
    (hn : (d'.enclave e).numThreads = (d.enclave e).numThreads)
    (hnew : ∀ t ∈ S, ValidMetadata d' t .thread → (d'.thread t).owner ≠ e)
    (hlost : ∀ t ∈ S, ThreadOfOrDead d e t → Dead d' t) : ∃ A, Counts d' e A := by
  obtain ⟨A, hA⟩ := h.counts e hv
  refine ⟨A, by rw [hn]; exact hA.card, fun t ht ho => ?_, fun c hc => ?_, fun t ht => ?_⟩
  · have hS : t ∉ S := fun hS => hnew t hS ht ho
    have ht := (hr.kept t hS _).mp ht
    rw [hr.thread h hS ht] at ho
    exact hA.live t ht ho
  · rw [(hr.cores c).2]
    exact hA.running c ((hr.cores c).1.symm.trans hc)
  · by_cases hS : t ∈ S
    · exact .inr (hlost t hS (hA.sound t ht))
    · exact hr.threadOfOrDead h hS (hA.sound t ht)

theorem heapInv (hc : ∀ e, ValidMetadata d' e .enclave → ∃ A, Counts d' e A) :
    HeapInv img d' where
  slot a k hv hk := by
    by_cases ha : a ∈ S
    · exact hr.newSlot a ha k hv hk
    · exact h.slot a k ((hr.kept a ha k).mp hv) hk
  size e hv := by
    by_cases he : e ∈ S
    · exact ⟨(hr.newEnclave e he hv).1, (hr.newEnclave e he hv).2.1⟩
    · have hv := (hr.kept e he _).mp hv
      rw [extentPages, (hr.enclave h he hv).1]
      exact h.size e hv
  body e hv i h0 hi := by
    by_cases he : e ∈ S
    · exact (hr.newEnclave e he hv).2.2.1 i h0 hi
    · have hv := (hr.kept e he _).mp hv
      rw [extentPages, (hr.enclave h he hv).1] at hi
      have hx : off e (4096 * i) ∉ S := fun hx => he ((hr.extents e hv _ ⟨i, hi, rfl⟩).mp hx)
      exact ((hr.kept _ hx _).mpr (h.body_valid hv h0 hi)).tag
  free a hv := by
    by_cases ha : a ∈ S
    · exact hr.newFree a ha hv
    · have hv := (hr.kept a ha _).mp hv
      exact fun x hx => (hr.free h ha hv x hx).trans (h.free a hv x hx)
  tail a hv := by
    by_cases ha : a ∈ S
    · exact hr.newTail a ha hv
    · have hv : FreeOrThread d a := hv.imp (hr.kept a ha _).mp (hr.kept a ha _).mp
      exact fun x hx hxt => (hr.tail h ha hv x hx).trans (h.tail a hv x hx hxt)
  thread t hv := by
    by_cases ht : t ∈ S
    · exact hr.newThread t ht hv
    · have hv := (hr.kept t ht _).mp hv
      rw [hr.thread h ht hv]
      exact ⟨hr.enclaveOrDead h (.inr ⟨t, hv, rfl⟩) (h.thread t hv).1, (h.thread t hv).2⟩
  dead a hd := by
    by_cases ha : a ∈ S
    · exact hr.newDead a ha hd
    · exact hr.deadWords h ha ((hr.dead_iff h ha).mp hd)
  running c hc := by
    obtain ⟨ho, ht⟩ := hr.cores c
    rw [ho] at hc ⊢
    rw [ht]
    obtain ⟨hE, hT⟩ := h.running c hc
    refine ⟨hr.enclaveOrDead h (.inl ⟨c, rfl⟩) hE, ?_⟩
    by_cases hS : (d.cores c).thread ∈ S
    · exact .inr (hr.running c hc hS hT)
    · exact hr.threadOfOrDead h hS hT
  distinct c c' := by
    rw [(hr.cores c).1, (hr.cores c').1, (hr.cores c').2]
    exact h.distinct c c'
  initialized c hv := by
    obtain ⟨ho, -⟩ := hr.cores c
    rw [ho] at hv ⊢
    have hc : (d.cores c).owner ≠ ownerUntrusted := fun hu => by
      rw [hu] at hv; exact absurd hv.aligned (by decide)
    have hS : (d.cores c).owner ∉ S := fun hS =>
      absurd hv ((hr.owners _ hS (.inl ⟨c, rfl⟩) (h.running c hc).1).not_valid (by decide))
    have hv := (hr.kept _ hS _).mp hv
    rw [(hr.enclave h hS hv).2]
    exact h.initialized c hv
  counts := hc

end Retags

/-! ## Free pages -/

/-- The `n` pages from `e` on. -/
def pagesFrom (e : Word) (n : ℕ) : Set Word := {a | ∃ i < n, a = off e (4096 * i)}

section
variable {p : Word}

/-- The pages that an allocation has checked, when their number did not wrap. -/
structure FreeSpace (d : Data N) (e : Word) (n : ℕ) : Prop where
  pos : 0 < n
  slot : IsSlot e
  fits : (addrToRegionPageId e).toNat + n ≤ 8192
  free : ∀ a ∈ pagesFrom e n, ValidMetadata d a .free

theorem FreeMetadataPages.freeSpace (hf : FreeMetadataPages d e p) (h : HeapInv img d)
    (hpos : 0 < p.toNat) (hp : p.toNat < 2 ^ 63) : FreeSpace d e p.toNat := by
  have hfit : (addrToRegionPageId e).toNat + p.toNat ≤ 8192 := by
    have := hf.fits
    have := pageId_lt e
    rw [BitVec.toNat_sub, BitVec.toNat_add, show (1 : Word).toNat = 1 from rfl] at *
    omega
  have hinfo (i : ℕ) (hi : i < p.toNat) : d.mem (off (pageInfoAddr e) i) = MetadataPage.free.code := by
    have := hf.free i hi
    rwa [pageInfo, ← BitVec.add_assoc] at this
  have hslot : IsSlot e := h.slot e .free ⟨hf.toMetadataPageAt, by
    rw [pageTag_eq]; simpa using hinfo 0 hpos⟩ nofun
  refine ⟨hpos, hslot, hfit, ?_⟩
  rintro a ⟨i, hi, rfl⟩
  obtain ⟨hr, hreg⟩ := region_page hslot (i := i) (by omega)
  refine ⟨⟨(isSlot_page hslot (by omega)).aligned, hr, hreg ▸ hf.type, hreg ▸ hf.state⟩, ?_⟩
  rw [pageTag_eq, pageInfoAddr_page hslot (by omega)]
  exact hinfo i hi

theorem FreeSpace.slot_of_mem {n : ℕ} (hf : FreeSpace d e n) (ha : a ∈ pagesFrom e n) : IsSlot a := by
  obtain ⟨i, hi, rfl⟩ := ha
  exact isSlot_page hf.slot (by have := hf.fits; omega)

/-- The tag of a page that is not among the pages from `e` on lies elsewhere. -/
theorem info_notMem_pagesFrom {n : ℕ} (hs : IsSlot e) (hfit : (addrToRegionPageId e).toNat + n ≤ 8192)
    (hp : MetadataPageAt d a) (ha : a ∉ pagesFrom e n) :
    pageInfoAddr a ∉ range (pageInfoAddr e) n := fun hx => by
  have hoff := off_self_sub (pageInfoAddr e) (pageInfoAddr a)
  have hlt : (pageInfoAddr a - pageInfoAddr e).toNat < n := hx
  rw [← pageInfoAddr_page hs (by omega)] at hoff
  obtain ⟨hr, -⟩ := region_page hs (i := (pageInfoAddr a - pageInfoAddr e).toNat) (by omega)
  exact ha ⟨_, hlt, (pageInfoAddr_inj (isSlot_page hs (by omega)).aligned hr hp.aligned hp.inRam
    hoff).symm⟩

/-- The page map entries from that of `e` on are not in slots. -/
theorem slot_notMem_info {n : ℕ} (hs : IsSlot e) (hfit : (addrToRegionPageId e).toNat + n ≤ 8192)
    (ha : IsSlot a) (hx : x ∈ range a 4096) : x ∉ range (pageInfoAddr e) n := fun hi => by
  have hoff := off_self_sub (pageInfoAddr e) x
  have hlt : (x - pageInfoAddr e).toNat < n := hi
  rw [← pageInfoAddr_page hs (by omega)] at hoff
  obtain ⟨hr, -⟩ := region_page hs (i := (x - pageInfoAddr e).toNat) (by omega)
  exact ha.info_notMem hr (by rw [hoff]; exact hx)

end

/-- Free pages are no enclaves and no threads, live or dead, so nothing refers to them. -/
theorem not_enclaveOrDead_of_free (hv : ValidMetadata d a .free) : ¬ EnclaveOrDead d a := by
  rintro (h | h)
  · exact absurd (hv.tag_unique h) (by decide)
  · exact absurd hv (h.not_valid (by decide))

theorem not_threadOfOrDead_of_free (hv : ValidMetadata d a .free) : ¬ ThreadOfOrDead d e a := by
  rintro (⟨h, -⟩ | h)
  · exact absurd (hv.tag_unique h) (by decide)
  · exact absurd hv (h.not_valid (by decide))

/-! ## Create -/

section
variable {b mask n : Word} {debug : Bool}

/-- The page map after `enclave_create`. -/
theorem create_tag (hf : FreeSpace d e (enclaveMetadataPages n).toNat) (hp : MetadataPageAt d a) :
    createEnclave d.mem e b mask n debug (pageInfoAddr a) =
      tagPages d.mem e (enclaveMetadataPages n) .enclave (pageInfoAddr a) :=
  createEnclave_agree _ fun hx => hf.slot.info_notMem hp.inRam (header_subset e hx)

theorem create_content (hf : FreeSpace d e (enclaveMetadataPages n).toNat) (ha : IsSlot a)
    (hne : a ≠ e) (hx : x ∈ range a 4096) : createEnclave d.mem e b mask n debug x = d.mem x :=
  (createEnclave_agree x fun hh => ha.sep hf.slot hne x hx (header_subset e hh)).trans
    (tagPages_agree hf.pos x (slot_notMem_info hf.slot hf.fits ha hx))

theorem create_pageTag (hf : FreeSpace d e (enclaveMetadataPages n).toNat)
    (ha : a ∈ pagesFrom e (enclaveMetadataPages n).toNat) :
    createEnclave d.mem e b mask n debug (pageInfoAddr a) =
      (if a = e then .enclave else .invalid : MetadataPage).code := by
  rw [create_tag hf (hf.free a ha).toMetadataPageAt]
  obtain ⟨i, hi, rfl⟩ := ha
  have hfit : (addrToRegionPageId e).toNat + i < 8192 := by have := hf.fits; omega
  have hnat := page_toNat hf.slot.inRam hfit
  rcases Nat.eq_zero_or_pos i with rfl | h0
  · rw [Nat.mul_zero, off_zero, if_pos rfl]
    exact tagPages_head hf.pos
  · rw [if_neg fun he => by rw [he] at hnat; omega, pageInfoAddr_page hf.slot hfit]
    exact tagPages_tail h0 hi

/-- The new enclave has no threads and no regions, because its page was free. -/
theorem create_record (h : HeapInv img d) (hf : FreeSpace d e (enclaveMetadataPages n).toNat) :
    (enclaveMetadata (createEnclave d.mem e b mask n debug) e).numMailboxes = n ∧
    (enclaveMetadata (createEnclave d.mem e b mask n debug) e).numThreads = 0 ∧
    ∀ i, (enclaveMetadata (createEnclave d.mem e b mask n debug) e).regions i = 0 := by
  have hfree := h.free e (hf.free e ⟨0, hf.pos, by simp⟩)
  have hE : enclaveMetadata (tagPages d.mem e (enclaveMetadataPages n) .enclave) e =
      enclaveMetadata d.mem e := enclaveMetadata_agree fun x hx =>
    tagPages_agree hf.pos x (slot_notMem_info hf.slot hf.fits hf.slot (header_subset e hx))
  have hzero (k : ℕ) (hk : k < 912) : d.mem (off e k) = 0 := hfree _ (mem_range_off hk (by decide))
  rw [createEnclave_record, hE]
  refine ⟨rfl, Mem.load64_eq_zero fun i hi => ?_, fun i => ?_⟩
  · rw [off_off]; exact hzero _ (by omega)
  · show d.mem (off (off e 528) i) = 0
    rw [off_off]; exact hzero _ (by have := i.isLt; omega)

theorem create_retags (h : HeapInv img d) (hw : NoWrap n)
    (hf : FreeSpace d e (enclaveMetadataPages n).toNat) :
    Retags img d { d with mem := createEnclave d.mem e b mask n debug }
      (pagesFrom e (enclaveMetadataPages n).toNat) ∅ := by
  generalize hd' : ({ d with mem := createEnclave d.mem e b mask n debug } : Data N) = d'
  have hmem : d'.mem = createEnclave d.mem e b mask n debug := by rw [← hd']
  have hregions : d'.regions = d.regions := by rw [← hd']
  have hpages (a : Word) : MetadataPageAt d' a ↔ MetadataPageAt d a := metadataPageAt_congr hregions
  have hself : e ∈ pagesFrom e (enclaveMetadataPages n).toNat := ⟨0, hf.pos, by simp⟩
  have hrecord : d'.enclave e = enclaveMetadata (createEnclave d.mem e b mask n debug) e := by
    rw [Data.enclave, hmem]
  have hextent : extentPages d' e = (enclaveMetadataPages n).toNat := by
    rw [extentPages, hrecord, (create_record h hf).1]
  have htag {a : Word} (ha : a ∈ pagesFrom e (enclaveMetadataPages n).toNat) :
      pageTag d' a = (if a = e then .enclave else .invalid : MetadataPage).code := by
    rw [pageTag_eq, hmem]; exact create_pageTag hf ha
  have hnew {a : Word} {k : MetadataPage} (ha : a ∈ pagesFrom e (enclaveMetadataPages n).toNat)
      (hv : ValidMetadata d' a k) : k = if a = e then .enclave else .invalid :=
    hv.tag_unique ⟨hv.toMetadataPageAt, htag ha⟩
  refine
    { kept := fun a ha k => validMetadata_congr (hpages a) fun hp => ?_
      cores := fun c => by rw [← hd']; exact ⟨rfl, rfl⟩
      content := fun a ha _ _ hs x hx => ?_
      counters := fun _ ho => ho.elim
      extents := fun f hv a hx => iff_of_false (fun ha => ?_) fun hS => ?_
      newSlot := fun a ha _ _ _ => hf.slot_of_mem ha
      newEnclave := fun f hS hv => ?_
      newFree := fun a ha hv => ?_
      newTail := fun a ha hv => ?_
      newThread := fun t ht hv => ?_
      newDead := fun a ha hd => ?_
      owners := fun o ho _ hE => absurd hE (not_enclaveOrDead_of_free (hf.free o ho))
      running := fun c _ hS ht => absurd ht (not_threadOfOrDead_of_free (hf.free _ hS)) }
  · rw [pageTag_eq, hmem, create_tag hf hp]
    exact tagPages_agree hf.pos _ (info_notMem_pagesFrom hf.slot hf.fits hp ha)
  · rw [hmem]
    exact create_content hf hs (by rintro rfl; exact ha hself) hx
  · rcases h.tag_of_inExtent hv hx with rfl | hi
    · exact absurd ((hf.free a ha).tag_unique hv) (by decide)
    · exact absurd ((hf.free a ha).tag_unique hi) (by decide)
  · exact absurd ((hf.free f hS).tag_unique hv) (by decide)
  · have hfe : f = e := by
      by_contra hne
      have := hnew hS hv
      rw [if_neg hne] at this
      exact absurd this (by decide)
    subst hfe
    rw [hrecord, (create_record h hf).1, hextent]
    refine ⟨hw, hf.fits, fun i h0 hi => ?_, fun a ha => ?_⟩
    · have hnat := page_toNat hf.slot.inRam (i := i) (by have := hf.fits; omega)
      rw [htag ⟨i, hi, rfl⟩, if_neg fun he => by rw [he] at hnat; omega]
    · rwa [InExtent, hextent] at ha
  · have := hnew ha hv; split_ifs at this
  · rcases hv with hv | hv <;> have := hnew ha hv <;> split_ifs at this
  · have := hnew ht hv; split_ifs at this
  · refine absurd ?_ (hd.notBody e ⟨(hpages e).mpr (hf.free e hself).toMetadataPageAt, ?_⟩)
    · rwa [InExtent, hextent]
    · rw [htag hself, if_pos rfl]

theorem createEnclave_heapInv (h : HeapInv img d) (hw : NoWrap n)
    (hf : FreeSpace d e (enclaveMetadataPages n).toNat) :
    HeapInv img { d with mem := createEnclave d.mem e b mask n debug } := by
  have hr : Retags img d { d with mem := createEnclave d.mem e b mask n debug } _ _ :=
    create_retags h hw hf
  generalize hd' : ({ d with mem := createEnclave d.mem e b mask n debug } : Data N) = d' at hr ⊢
  have hself : e ∈ pagesFrom e (enclaveMetadataPages n).toNat := ⟨0, hf.pos, by simp⟩
  have htag {a : Word} {k : MetadataPage} (ha : a ∈ pagesFrom e (enclaveMetadataPages n).toNat)
      (hv : ValidMetadata d' a k) : k = if a = e then .enclave else .invalid :=
    hv.tag_unique ⟨hv.toMetadataPageAt, by rw [pageTag_eq, ← hd']; exact create_pageTag hf ha⟩
  have hnot := not_enclaveOrDead_of_free (hf.free e hself)
  have hnoThread {t : Word} (ht : t ∈ pagesFrom e (enclaveMetadataPages n).toNat) :
      ¬ ValidMetadata d' t .thread := fun hv => by have := htag ht hv; split_ifs at this
  refine hr.heapInv h fun f hv => ?_
  by_cases hS : f ∈ pagesFrom e (enclaveMetadataPages n).toNat
  · obtain rfl : f = e := by
      by_contra hne
      have := htag hS hv
      rw [if_neg hne] at this
      exact absurd this (by decide)
    -- nothing refers to the page of the new enclave
    refine ⟨∅, ?_, fun t ht ho => ?_, fun c hc => ?_, fun t ht => absurd ht (Finset.notMem_empty t)⟩
    · rw [Data.enclave, ← hd', (create_record h hf).2.1]; rfl
    · have hS : t ∉ pagesFrom f (enclaveMetadataPages n).toNat := fun hS => hnoThread hS ht
      have ht := (hr.kept t hS _).mp ht
      rw [hr.thread h hS ht] at ho
      exact absurd (ho ▸ (h.thread t ht).1) hnot
    · have hc := (hr.cores c).1.symm.trans hc
      have hne : (d.cores c).owner ≠ ownerUntrusted := fun hu => by
        rw [← hc, hu] at hv; exact absurd hv.aligned (by decide)
      exact absurd (hc ▸ (h.running c hne).1) hnot
  · have hv := (hr.kept f hS _).mp hv
    exact hr.counts_kept h hv (by rw [hr.enclave_eq h hS (Set.notMem_empty f) hv])
      (fun t ht hv => absurd hv (hnoThread ht))
      fun t ht hT => absurd hT (not_threadOfOrDead_of_free (hf.free t ht))

end

/-! ## Threads -/

section
variable {pc sp l : Word}

/-- No core runs the thread at `t`. -/
def NotRunning (d : Data N) (t : Word) : Prop :=
  ∀ c, (d.cores c).owner ≠ ownerUntrusted → (d.cores c).thread ≠ t

instance (d : Data N) (t : Word) : Decidable (NotRunning d t) := inferInstanceAs (Decidable (∀ _, _))

/-- The page at `t` changes between free and thread, and the header of its owner `o` is
    written: what `thread_load` and `thread_delete` have in common. -/
structure PageStep (d d' : Data N) (o t : Word) (k k' : MetadataPage) : Prop where
  before : ValidMetadata d t k
  kind : k = .free ∨ k = .thread
  kind' : k' = .free ∨ k' = .thread
  owner : EnclaveOrDead d o
  idle : NotRunning d t
  regions : d'.regions = d.regions
  cores : SameRunning d d'
  mem : ∀ x, x ∉ header o → x ∉ threadBytes t → x ≠ pageInfoAddr t → d'.mem x = d.mem x
  tag : d'.mem (pageInfoAddr t) = k'.code

section
variable {o : Word} {k k' : MetadataPage}

theorem PageStep.slot (hp : PageStep d d' o t k k') (h : HeapInv img d) : IsSlot t := by
  refine h.slot t k hp.before ?_
  rcases hp.kind with rfl | rfl <;> nofun

theorem PageStep.kind_eq (hp : PageStep d d' o t k k') {k₁ : MetadataPage}
    (hv : ValidMetadata d t k₁) : k₁ = .free ∨ k₁ = .thread :=
  hp.before.tag_unique hv ▸ hp.kind

theorem PageStep.kind_eq' (hp : PageStep d d' o t k k') {k₁ : MetadataPage}
    (hv : ValidMetadata d' t k₁) : k₁ = .free ∨ k₁ = .thread :=
  hv.tag_unique ⟨hv.toMetadataPageAt, hp.tag⟩ ▸ hp.kind'

theorem PageStep.not_enclaveOrDead (hp : PageStep d d' o t k k') : ¬ EnclaveOrDead d t := by
  rintro (hv | hd)
  · exact absurd (hp.kind_eq hv) (by decide)
  · exact absurd (hp.kind_eq hd.page) (by decide)

theorem PageStep.ne (hp : PageStep d d' o t k k') : o ≠ t := by
  rintro rfl
  exact hp.not_enclaveOrDead hp.owner

theorem PageStep.sep (hp : PageStep d d' o t k k') (h : HeapInv img d) : ThreadSep o t :=
  ThreadSep.of_slots (hp.owner.slot h) (hp.slot h) hp.ne

theorem PageStep.after (hp : PageStep d d' o t k k') : ValidMetadata d' t k' :=
  ⟨(metadataPageAt_congr hp.regions).mpr hp.before.toMetadataPageAt, hp.tag⟩

theorem PageStep.kept (hp : PageStep d d' o t k k') (h : HeapInv img d) (ha : a ≠ t)
    (k₁ : MetadataPage) : ValidMetadata d' a k₁ ↔ ValidMetadata d a k₁ := by
  refine validMetadata_congr (metadataPageAt_congr hp.regions) fun hpa => ?_
  refine hp.mem _ (fun hx => ?_) (fun hx => ?_) fun hx => ha ?_
  · exact (hp.owner.slot h).info_notMem hpa.inRam (header_subset _ hx)
  · exact (hp.slot h).info_notMem hpa.inRam (threadBytes_subset t hx)
  · exact pageInfoAddr_inj hpa.aligned hpa.inRam (hp.slot h).aligned (hp.slot h).inRam hx

theorem PageStep.retags (hp : PageStep d d' o t k k') (h : HeapInv img d)
    (hcounter : ValidMetadata d o .enclave ∧
        (d'.enclave o).numMailboxes = (d.enclave o).numMailboxes ∧
        (d'.enclave o).initState = (d.enclave o).initState ∨
      Dead d o ∧ (DeadWords d.mem o → DeadWords d'.mem o))
    (hfree : k' = .free → ∀ x ∈ threadBytes t, d'.mem x = 0)
    (hthread : k' = .thread → EnclaveOrDead d' (d'.thread t).owner ∧ ThreadOk img (d'.thread t)) :
    Retags img d d' {t} {o} where
  kept _ ha := hp.kept h ha
  cores := hp.cores
  content a ha hao _ hs x hx := by
    refine hp.mem x (fun hh => ?_) (fun hh => ?_) fun hh => ?_
    · exact hs.sep (hp.owner.slot h) hao x hx (header_subset _ hh)
    · exact hs.sep (hp.slot h) ha x hx (threadBytes_subset t hh)
    · exact hs.info_notMem (hp.slot h).inRam (hh ▸ hx)
  counters := by rintro _ rfl; exact hcounter
  extents f hv a hx := by
    refine iff_of_false ?_ ?_
    · rintro rfl
      rcases h.tag_of_inExtent hv hx with rfl | hi
      · exact absurd (hp.kind_eq hv) (by decide)
      · exact absurd (hp.kind_eq hi) (by decide)
    · rintro rfl
      exact absurd (hp.kind_eq hv) (by decide)
  newSlot := by rintro _ rfl _ _ _; exact hp.slot h
  newEnclave := by rintro _ rfl hv; exact absurd (hp.kind_eq' hv) (by decide)
  newFree := by rintro _ rfl hv; exact hfree (hp.after.tag_unique hv)
  newTail := by
    intro a ha _ x hx hxt
    rw [Set.mem_singleton_iff.mp ha] at hx hxt
    have hold : FreeOrThread d t := by
      rcases hp.kind with rfl | rfl
      · exact .inl hp.before
      · exact .inr hp.before
    rw [hp.mem x (fun hh => ?_) hxt fun hh => ?_]
    · exact h.tail t hold x hx hxt
    · exact (hp.slot h).sep (hp.owner.slot h) hp.ne.symm x hx (header_subset _ hh)
    · exact (hp.slot h).info_notMem (hp.slot h).inRam (hh ▸ hx)
  newThread := by rintro _ rfl hv; exact hthread (hp.after.tag_unique hv)
  newDead := by rintro _ rfl hd; exact absurd (hp.kind_eq' hd.page) (by decide)
  owners := by rintro _ rfl _ hE; exact absurd hE hp.not_enclaveOrDead
  running c hc hS _ := absurd hS (hp.idle c hc)

theorem PageStep.enclave_eq {f : Word} (hp : PageStep d d' o t k k') (h : HeapInv img d)
    (hf : EnclaveOrDead d f) (hfo : f ≠ o) : d'.enclave f = d.enclave f := by
  have hft : f ≠ t := by rintro rfl; exact hp.not_enclaveOrDead hf
  refine enclaveMetadata_agree fun x hx => hp.mem x (fun hh => ?_) (fun hh => ?_) fun hh => ?_
  · exact (hf.slot h).sep (hp.owner.slot h) hfo x (header_subset f hx) (header_subset o hh)
  · exact (hf.slot h).sep (hp.slot h) hft x (header_subset f hx) (threadBytes_subset t hh)
  · exact (hf.slot h).info_notMem (hp.slot h).inRam (hh ▸ header_subset f hx)

/-- Enclaves other than the owner of the thread count what they counted. -/
theorem PageStep.counts (hp : PageStep d d' o t k k') (h : HeapInv img d)
    (hr : Retags img d d' {t} {o}) (hold : k = .thread → (d.thread t).owner = o)
    (hnew : k' = .thread → (d'.thread t).owner = o)
    (hcount : ValidMetadata d o .enclave → ∃ A, Counts d' o A) (f : Word)
    (hv : ValidMetadata d' f .enclave) : ∃ A, Counts d' f A := by
  have hS : f ≠ t := by rintro rfl; exact absurd (hp.kind_eq' hv) (by decide)
  have hv := (hp.kept h hS _).mp hv
  by_cases hfo : f = o
  · subst hfo; exact hcount hv
  · refine hr.counts_kept h hv (by rw [hr.enclave_eq h hS hfo hv]) ?_ ?_
    · rintro _ rfl ht ho
      exact hfo (ho.symm.trans (hnew (hp.after.tag_unique ht)))
    · rintro _ rfl (⟨ht, ho⟩ | hd)
      · exact absurd (ho.symm.trans (hold (hp.before.tag_unique ht))) hfo
      · exact absurd (hp.kind_eq hd.page) (by decide)

end

theorem toNat_add_one {w : Word} (h : w.toNat ≤ 2 ^ 20) : (w + 1).toNat = w.toNat + 1 := by
  rw [BitVec.toNat_add, show (1 : Word).toNat = 1 from rfl]; omega

theorem toNat_sub_one {w : Word} (h : 0 < w.toNat) : (w - 1).toNat = w.toNat - 1 := by
  have := w.isLt
  rw [BitVec.toNat_sub, show (1 : Word).toNat = 1 from rfl]; omega

theorem loadThread_step (h : HeapInv img d) (he : ValidMetadata d e .enclave) (hf : FreeSpace d t 1) :
    PageStep d { d with mem := loadThread d.mem e t pc sp l } e t .free .thread := by
  have hfree : ValidMetadata d t .free := hf.free t ⟨0, by decide, by simp⟩
  have hne : e ≠ t := by rintro rfl; exact absurd (he.tag_unique hfree) (by decide)
  have hsep := ThreadSep.of_slots (h.slot e _ he (by decide)) hf.slot hne
  refine ⟨hfree, .inl rfl, .inr rfl, .inl he, fun c hc hct => ?_, rfl, fun _ => ⟨rfl, rfl⟩,
    fun x h₁ h₂ h₃ => loadThread_apply h₁ h₂ h₃, loadThread_tag hsep⟩
  exact not_threadOfOrDead_of_free hfree (hct ▸ (h.running c hc).2)

theorem loadThread_heapInv (h : HeapInv img d) (he : ValidMetadata d e .enclave) (hf : FreeSpace d t 1) :
    HeapInv img { d with mem := loadThread d.mem e t pc sp l } := by
  have hp : PageStep d { d with mem := loadThread d.mem e t pc sp l } e t _ _ := loadThread_step h he hf
  have hsep := hp.sep h
  generalize hd' : ({ d with mem := loadThread d.mem e t pc sp l } : Data N) = d' at hp ⊢
  have hrecord : d'.enclave e = enclaveMetadata (loadThread d.mem e t pc sp l) e := by rw [← hd']; rfl
  rw [loadThread_record hsep] at hrecord
  have hthread : d'.thread t = threadMetadata (loadThread d.mem e t pc sp l) t := by rw [← hd']; rfl
  rw [loadThread_threadRecord hsep] at hthread
  have hzero {k : ℕ} (hk : k + 8 ≤ 912) : d.mem.load64 (off t k) = 0 :=
    Mem.load64_eq_zero fun i hi => by
      rw [off_off]
      exact h.free t hp.before _ (mem_range_off (by rw [sizeofThreadMetadata]; omega) (by decide))
  have hr : Retags img d d' {t} {e} := by
    refine hp.retags h (.inl ⟨he, by rw [hrecord]; rfl, by rw [hrecord]; rfl⟩) nofun fun _ => ?_
    rw [hthread]
    exact ⟨.inl ((hp.kept h hp.ne _).mpr he), hzero (by decide), .inl (hzero (by decide))⟩
  refine hr.heapInv h (hp.counts h hr nofun (fun _ => by rw [hthread]) fun _ => ?_)
  obtain ⟨A, hA⟩ := h.counts e he
  have ht : t ∉ A := fun ht => not_threadOfOrDead_of_free hp.before (hA.sound t ht)
  refine ⟨insert t A, ?_, fun u hu ho => ?_, fun c hc => ?_, fun u hu => ?_⟩
  · have hcard : (enclaveMetadata d.mem e).numThreads.toNat = A.card := hA.card
    rw [hrecord]
    show ((enclaveMetadata d.mem e).numThreads + 1).toNat = _
    rw [toNat_add_one (hcard ▸ hA.card_lt), hcard, Finset.card_insert_of_notMem ht]
  · by_cases hut : u = t
    · rw [hut]; exact Finset.mem_insert_self t A
    · have hu := (hp.kept h hut _).mp hu
      rw [hr.thread h hut hu] at ho
      exact Finset.mem_insert_of_mem (hA.live u hu ho)
  · rw [(hp.cores c).2]
    exact Finset.mem_insert_of_mem (hA.running c ((hp.cores c).1.symm.trans hc))
  · rcases Finset.mem_insert.mp hu with rfl | hmem
    · exact .inl ⟨hp.after, by rw [hthread]⟩
    · have hut : u ≠ t := by rintro rfl; exact ht hmem
      exact hr.threadOfOrDead h hut (hA.sound u hmem)

theorem deleteThread_step (h : HeapInv img d) (ht : ValidMetadata d t .thread) (hT : NotRunning d t) :
    PageStep d { d with mem := deleteThread d.mem t } (d.thread t).owner t .thread .free where
  before := ht
  kind := .inr rfl
  kind' := .inl rfl
  owner := (h.thread t ht).1
  idle := hT
  regions := rfl
  cores _ := ⟨rfl, rfl⟩
  mem _ h₁ h₂ h₃ :=
    deleteThread_apply (fun hx => h₁ (range_off_sub (by decide) (by decide) hx)) h₂ h₃
  tag := deleteThread_tag

theorem deleteThread_heapInv (h : HeapInv img d) (ht : ValidMetadata d t .thread)
    (hT : NotRunning d t) : HeapInv img { d with mem := deleteThread d.mem t } := by
  have hp := deleteThread_step h ht hT
  have hsep := hp.sep h
  have hO := (h.thread t ht).1
  generalize hd' : ({ d with mem := deleteThread d.mem t } : Data N) = d' at hp ⊢
  generalize ho : (d.thread t).owner = o at *
  have hrecord : d'.enclave o = enclaveMetadata (deleteThread d.mem t) o := by rw [← hd']; rfl
  rw [deleteThread_record hsep ho] at hrecord
  have hr : Retags img d d' {t} {o} := by
    refine hp.retags h ?_ (fun _ x hx => ?_) nofun
    · rcases hO with hv | hd
      · exact .inl ⟨hv, by rw [hrecord]; rfl, by rw [hrecord]; rfl⟩
      · -- the counter of a dead enclave is none of the words that are used of it
        have hload {k : ℕ} (hk : k + 8 ≤ 912) (hk' : 528 ≤ k ∨ k + 8 ≤ 520) :
            d'.mem.load64 (off o k) = d.mem.load64 (off o k) := Mem.load64_agree fun x hx => by
          have hpage : x ∈ range o 4096 := range_off_sub (by omega) (by decide) hx
          rw [← hd']
          refine deleteThread_apply (fun hc => ?_) (fun hb => ?_) fun hi => ?_
          · rw [show (threadMetadata d.mem t).owner = o from ho] at hc
            exact sep_off (by omega) (by omega) (by omega) x hx hc
          · exact hd.slot.sep (hp.slot h) hp.ne x hpage (threadBytes_subset t hb)
          · exact hd.slot.info_notMem (hp.slot h).inRam (hi ▸ hpage)
        exact .inr ⟨hd, fun hw => ⟨(hload (by decide) (by decide)).trans hw.numMailboxes,
          (hload (by decide) (by decide)).trans hw.memrbm,
          (hload (by decide) (by decide)).trans hw.faultSp⟩⟩
    · rw [← hd']; exact deleteThread_zero hsep.info_thread hx
  refine hr.heapInv h (hp.counts h hr (fun _ => ho) nofun fun hv => ?_)
  obtain ⟨A, hA⟩ := h.counts o hv
  have htA : t ∈ A := hA.live t ht ho
  refine ⟨A.erase t, ?_, fun u hu ho' => ?_, fun c hc => ?_, fun u hu => ?_⟩
  · have hcard : (enclaveMetadata d.mem o).numThreads.toNat = A.card := hA.card
    have hpos : 0 < A.card := Finset.card_pos.mpr ⟨t, htA⟩
    rw [hrecord]
    show ((enclaveMetadata d.mem o).numThreads - 1).toNat = _
    rw [toNat_sub_one (hcard ▸ hpos), hcard, Finset.card_erase_of_mem htA]
  · have hut : u ≠ t := by rintro rfl; exact absurd (hu.tag_unique hp.after) (by decide)
    have hu := (hp.kept h hut _).mp hu
    rw [hr.thread h hut hu] at ho'
    exact Finset.mem_erase_of_ne_of_mem hut (hA.live u hu ho')
  · have hc' := (hp.cores c).1.symm.trans hc
    have hne : (d.cores c).owner ≠ ownerUntrusted := fun hu => by
      rw [← hc', hu] at hv; exact absurd hv.aligned (by decide)
    rw [(hp.cores c).2]
    exact Finset.mem_erase_of_ne_of_mem (hT c hne) (hA.running c hc')
  · exact hr.threadOfOrDead h (Finset.ne_of_mem_erase hu) (hA.sound u (Finset.mem_of_mem_erase hu))

end

end SecurityMonitor
