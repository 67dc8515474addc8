/-
  Metadata is allocated in fresh pages.

  * `allocation_disjoint`: in a careful run the pages of a new enclave or thread
    were free, and nothing else is in them;
  * `mailboxes_inside`: the mailboxes of an enclave are in the pages that
    `enclave_create` allocated, exactly if the size of its metadata did not wrap;
    in a careful run this holds for all enclaves.

  `enclave_metadata_pages` computes modulo `2 ^ 64`, so with the right number of
  mailboxes `enclave_create` allocates one page for them, or none at all.
-/
import SecurityMonitor.MemoryIsolation

namespace SecurityMonitor

open ByteMem

variable {N : ℕ} {img : Image N} {boot : Boot N} {s s' : Config N} {d : Data N} {c : Fin N}
  {a e x : Word} {es : List (Event N)} {k : Call} {ctx : TrapContext} {r : Reply} {n : Word}

/-! ## New objects -/

/-- The pages of an enclave with `n` mailboxes at `e`. -/
def enclavePages (e n : Word) : Set Word :=
  pagesFrom e ((sizeofEnclaveMetadata + sizeofMailbox * n.toNat + (pageSize - 1)) / pageSize)

theorem enclavePages_eq (h : NoWrap n) : enclavePages e n = pagesFrom e (enclaveMetadataPages n).toNat := by
  rw [enclavePages, enclaveMetadataPages_toNat h]
  rfl

/-- The pages of the enclave or thread that a call makes. -/
def newPages : Call → Set Word
  | .enclaveCreate e _ _ n _ => enclavePages e n
  | .threadLoad _ t _ _ _ => {t}
  | _ => ∅

/-- Page `a` is free, behind the page map of its region, and nothing else is in it. -/
structure FreshPage (d : Data N) (a : Word) : Prop where
  free : ValidMetadata d a .free
  start : getMetadataStartPage ≤ (addrToRegionPageId a).toNat
  enclaves : ∀ e, ValidMetadata d e .enclave → ∀ b ∈ enclavePages e (d.enclave e).numMailboxes,
    Disjoint (range a 4096) (range b 4096)
  threads : ∀ t, ValidMetadata d t .thread → Disjoint (range a 4096) (range t 4096)
  map : ∀ b, (addrToRegionId b).toNat < 64 → pageInfoAddr b ∉ range a 4096

theorem HeapInv.freshPage (h : HeapInv img d) (ha : ValidMetadata d a .free) : FreshPage d a := by
  have hs := h.slot a _ ha (by decide)
  refine ⟨ha, hs.start, fun e he b hb => ?_, fun t ht => ?_, fun b hb => hs.info_notMem hb⟩
  · rw [enclavePages_eq (h.size e he).1] at hb
    have hne : a ≠ e := by rintro rfl; exact absurd (ha.tag_unique he) (by decide)
    refine Set.disjoint_left.mpr (hs.sep (h.slot_of_inExtent he hb) ?_)
    rintro rfl
    exact h.notInExtent he ha (by decide) hne hb
  · refine Set.disjoint_left.mpr (hs.sep (h.slot t _ ht (by decide)) ?_)
    rintro rfl
    exact absurd (ha.tag_unique ht) (by decide)

/-- **Allocation is disjoint.** -/
theorem allocation_disjoint (h : CarefulRun img boot es s)
    (hs : CarefulStep img s (.call c k ctx, some r) s') (hr : r.value = 0) (ha : a ∈ newPages k) :
    FreshPage s.data a ∧ ∀ b ∈ newPages k, regionOf b = regionOf a := by
  have hinv := h.inv.heap
  obtain ⟨r', hr', -, hE⟩ := (step_call hs.1).reply
  obtain rfl := Option.some.inj hr'
  have hE := hE hr
  cases k with
  | enclaveCreate e b mask n debug =>
    have hf := hE.1.freeSpace_enclave hinv hs.2
    change a ∈ enclavePages e n at ha
    rw [enclavePages_eq hs.2] at ha
    have hregion {b : Word} (hb : b ∈ pagesFrom e (enclaveMetadataPages n).toNat) :
        regionOf b = regionOf e := by
      obtain ⟨i, hi, rfl⟩ := hb
      exact (region_page hf.slot (by have := hf.fits; omega)).2
    refine ⟨hinv.freshPage (hf.free a ha), fun b hb => ?_⟩
    change b ∈ enclavePages e n at hb
    rw [enclavePages_eq hs.2] at hb
    exact (hregion hb).trans (hregion ha).symm
  | threadLoad e t pc sp l =>
    obtain rfl : a = t := ha
    have hf := hE.2.2.1.freeSpace hinv (by decide) (by decide)
    refine ⟨hinv.freshPage (hf.free a ⟨0, by decide, by simp⟩), ?_⟩
    rintro _ rfl
    rfl
  | _ => exact ha.elim

theorem mem_enclavePages_self : e ∈ enclavePages e n := ⟨0, by
  rw [sizeofEnclaveMetadata, pageSize]; omega, by rw [Nat.mul_zero, off_zero]⟩

set_option maxRecDepth 100000 in
/-- The page of a second enclave, next to an enclave and its thread. -/
theorem allocation_disjoint_second : ∃ es s o s', CarefulRun smallImage zeroBoot es s ∧
    CarefulStep smallImage s (callOn 0 (.enclaveCreate secondEnclave 0 0 0 false), some o) s' ∧
    ValidMetadata s.data firstEnclave .enclave ∧ ValidMetadata s.data firstThread .thread ∧
    FreshPage s.data secondEnclave := by
  obtain ⟨es, s, o, s', h, hs, ho, he, ht⟩ : ∃ es s o s', CarefulRun smallImage zeroBoot es s ∧
      CarefulStep smallImage s (callOn 0 (.enclaveCreate secondEnclave 0 0 0 false), o) s' ∧
      o.map Reply.value = some 0 ∧ ValidMetadata s.data firstEnclave .enclave ∧
      ValidMetadata s.data firstThread .thread :=
    CarefulRun.exists_step_of_labels (setupLabels ++ buildLabels firstEnclave firstThread 0) _
      (by decide +kernel)
  obtain ⟨r, rfl, hr⟩ := Option.map_eq_some_iff.mp ho
  exact ⟨es, s, r, s', h, hs, he, ht, (allocation_disjoint h hs hr mem_enclavePages_self).1⟩

set_option maxRecDepth 100000 in
/-- A number of mailboxes for which no page is allocated: an enclave is created on top of
    another one. -/
theorem allocation_disjoint_fails : ∃ es s o s',
    Runs (Step smallImage) (smInit smallImage zeroBoot) es s ∧
    Step smallImage s (callOn 0 (.enclaveCreate firstEnclave 0 0 0xcf3cf3cf3cf3cf2 false), o) s' ∧
    o.map Reply.value = some 0 ∧ ValidMetadata s.data firstEnclave .enclave ∧
    (s.data.enclave firstEnclave).initState = enclaveStateInitialized ∧
    (s'.data.enclave firstEnclave).initState = enclaveStateCreated :=
  Runs.exists_step_of_runsOf (setupLabels ++ buildLabels firstEnclave firstThread 0) _
    (by decide +kernel)

/-! ## Mailboxes -/

theorem mailboxBytes_eq (e id : Word) :
    mailboxBytes e id = range (off e (sizeofEnclaveMetadata + sizeofMailbox * id.toNat)) sizeofMailbox := by
  have haddr : mailboxAddr e id = off e (sizeofEnclaveMetadata + sizeofMailbox * id.toNat) := by
    refine BitVec.eq_of_toNat_eq ?_
    rw [mailboxAddr, BitVec.toNat_add, off_toNat, BitVec.toNat_mul, BitVec.toNat_ofNat, off_toNat,
      sizeofEnclaveMetadata, sizeofMailbox]
    omega
  rw [mailboxBytes, haddr]

theorem mailboxBytes_subset {id : Word} (hw : NoWrap n) (hid : id < n) :
    mailboxBytes e id ⊆ range e (4096 * (enclaveMetadataPages n).toNat) := by
  have hlt : id.toNat < n.toNat := hid
  rw [mailboxBytes_eq, enclaveMetadataPages_toNat hw]
  simp only [NoWrap, sizeofEnclaveMetadata, sizeofMailbox, pageSize] at hw ⊢
  exact range_off_sub (by omega) (by omega)

/-- When the size wraps, a mailbox behind all pages of a region has a number below `n`. -/
theorem mailboxBytes_not_subset (hf : FreeMetadataPages d e (enclaveMetadataPages n)) (hw : ¬ NoWrap n) :
    99866 < n ∧ ¬ mailboxBytes e 99866 ⊆ range e (4096 * (enclaveMetadataPages n).toNat) := by
  have hpages : (enclaveMetadataPages n).toNat ≤ 8192 := by
    have hfits := hf.fits
    have hid := pageId_lt e
    have hdiv : (enclaveMetadataPages n).toNat < 2 ^ 52 := by
      rw [enclaveMetadataPages, BitVec.toNat_udiv]
      have := (BitVec.ofNat 64 sizeofEnclaveMetadata + BitVec.ofNat 64 sizeofMailbox * n +
        BitVec.ofNat 64 (pageSize - 1)).isLt
      rw [show (BitVec.ofNat 64 pageSize).toNat = 4096 by decide]
      omega
    rw [BitVec.toNat_sub, BitVec.toNat_add, show (1 : Word).toNat = 1 from rfl] at hfits
    omega
  simp only [NoWrap, sizeofEnclaveMetadata, sizeofMailbox, pageSize] at hw
  refine ⟨?_, fun hsub => ?_⟩
  · show (99866 : Word).toNat < n.toNat
    rw [show (99866 : Word).toNat = 99866 from rfl]
    omega
  · rw [mailboxBytes_eq] at hsub
    have hmem := hsub (mem_range_self (by decide))
    change (off e _ - e).toNat < _ at hmem
    rw [off_sub_self e (by decide), show sizeofEnclaveMetadata + sizeofMailbox * (99866 : Word).toNat =
      33555568 from rfl] at hmem
    omega

/-- **Mailboxes are in the pages of their enclave**, after a create if and only if the size
    did not wrap, and in all states of a careful run. -/
theorem mailboxes_inside :
    (∀ (s s' : Config N) (c : Fin N) (ctx : TrapContext) (e b mask n : Word) (debug : Bool) (r : Reply),
      Step img s (.call c (.enclaveCreate e b mask n debug) ctx, some r) s' → r.value = 0 →
      ((∀ id, MailboxId s'.data e id →
        mailboxBytes e id ⊆ range e (4096 * (enclaveMetadataPages n).toNat)) ↔ NoWrap n)) ∧
    ∀ (es : List (Event N)) (s : Config N), CarefulRun img boot es s →
      ∀ e, ValidMetadata s.data e .enclave → ∀ id, MailboxId s.data e id →
        mailboxBytes e id ⊆ range e (4096 * (enclaveMetadataPages (s.data.enclave e).numMailboxes).toNat) := by
  have hne {d : Data N} {e : Word} (hp : MetadataPageAt d e) : e ≠ ownerUntrusted := by
    rintro rfl; exact absurd hp.aligned (by decide)
  constructor
  · intro s s' c ctx e b mask n debug r hs hr
    obtain ⟨r', hr', -, hE⟩ := (step_call hs).reply
    obtain rfl := Option.some.inj hr'
    obtain ⟨hf, hd⟩ := hE hr
    have hn : (s'.data.enclave e).numMailboxes = n := by
      rw [hd, Data.enclave, createEnclave_record]
    simp only [MailboxId, if_neg (hne hf.toMetadataPageAt), hn]
    refine ⟨fun hall => ?_, fun hw id hid => mailboxBytes_subset hw hid⟩
    by_contra hw
    obtain ⟨hlt, hnot⟩ := mailboxBytes_not_subset hf hw
    exact hnot (hall _ hlt)
  · intro es s h e he id hid
    rw [MailboxId, if_neg (hne he.toMetadataPageAt)] at hid
    exact mailboxBytes_subset (h.inv.heap.size e he).1 hid

set_option maxRecDepth 100000 in
/-- The eleventh mailbox of an enclave, which gets a second page. -/
theorem mailboxes_inside_eleven : ∃ es s o s', CarefulRun smallImage zeroBoot es s ∧
    CarefulStep smallImage s (callOn 0 (.enclaveCreate firstEnclave 0 0 11 false), some o) s' ∧
    MailboxId s'.data firstEnclave 10 ∧ enclaveMetadataPages 11 = 2 ∧
    mailboxBytes firstEnclave 10 ⊆ range firstEnclave (4096 * (enclaveMetadataPages 11).toNat) ∧
    mailboxBytes firstEnclave 10 ⊆ range firstEnclave
      (4096 * (enclaveMetadataPages (s'.data.enclave firstEnclave).numMailboxes).toNat) := by
  obtain ⟨es, s, o, s', h, hs, ho, he, hid⟩ : ∃ es s o s', CarefulRun smallImage zeroBoot es s ∧
      CarefulStep smallImage s (callOn 0 (.enclaveCreate firstEnclave 0 0 11 false), o) s' ∧
      o.map Reply.value = some 0 ∧ ValidMetadata s'.data firstEnclave .enclave ∧
      10 < (s'.data.enclave firstEnclave).numMailboxes :=
    CarefulRun.exists_step_of_labels setupLabels _ (by decide +kernel)
  obtain ⟨r, rfl, hr⟩ := Option.map_eq_some_iff.mp ho
  have hid : MailboxId s'.data firstEnclave 10 := by rwa [MailboxId, if_neg (by decide)]
  obtain ⟨hcreate, hrun⟩ := @mailboxes_inside 2 smallImage zeroBoot
  exact ⟨es, s, r, s', h, hs, hid, by decide,
    (hcreate s s' 0 zeroContext firstEnclave 0 0 11 false r hs.1 hr).mpr (by decide) 10 hid,
    hrun _ s' (h.snoc hs) firstEnclave he 10 hid⟩

set_option maxRecDepth 100000 in
/-- An enclave with `2 ^ 60` mailboxes gets one page. -/
theorem mailboxes_inside_fails : ∃ es s o s',
    Runs (Step smallImage) (smInit smallImage zeroBoot) es s ∧
    Step smallImage s (callOn 0 (.enclaveCreate firstEnclave 0 0 0x1000000000000000 false), o) s' ∧
    o.map Reply.value = some 0 ∧ enclaveMetadataPages 0x1000000000000000 = 1 ∧
    99866 < (s'.data.enclave firstEnclave).numMailboxes ∧
    mailboxAddr firstEnclave 99866 ∉ range firstEnclave 4096 :=
  Runs.exists_step_of_runsOf setupLabels _ (by decide +kernel)

end SecurityMonitor
