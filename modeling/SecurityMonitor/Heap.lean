/-
  The invariant of the metadata pages.

  The tags of the page maps say what a page holds: nothing, an enclave (on its
  first page; the pages of its mailboxes are tagged invalid), or a thread.  The
  running enclaves and threads, and the owner of each thread, are addresses.
  `HeapInv` says that all these addresses still mean what they meant:

  * an enclave fits into its pages, and they are its own;
  * a free page is zero, and so is the page of a thread behind its structure;
  * the owner of a thread, and the enclave of a core, is an enclave, or a page
    that `enclave_delete` has destroyed and that nothing can use again (`Dead`);
  * `num_threads` counts at least the threads of the enclave that are left and
    the threads that cores are in.

  `enclave_delete` clears the whole metadata region of an enclave that owns
  regions.  The other enclaves and threads there are dead from then on; the
  invariant holds nevertheless.
-/
import SecurityMonitor.Writes

namespace SecurityMonitor

open ByteMem

variable {N : ℕ} {img : Image N} {d d' : Data N} {a e t x : Word} {k : MetadataPage}

/-! ## Sizes -/

/-- The size of the metadata of an enclave with `n` mailboxes is below `2 ^ 64`. -/
def NoWrap (n : Word) : Prop :=
  sizeofEnclaveMetadata + sizeofMailbox * n.toNat + (pageSize - 1) < 2 ^ 64

instance (n : Word) : Decidable (NoWrap n) := inferInstanceAs (Decidable (_ < _))

theorem enclaveMetadataPages_toNat {n : Word} (h : NoWrap n) :
    (enclaveMetadataPages n).toNat = (592 + 336 * n.toNat + 4095) / 4096 := by
  simp only [NoWrap, sizeofEnclaveMetadata, sizeofMailbox, pageSize] at h
  simp only [enclaveMetadataPages, BitVec.toNat_udiv, BitVec.toNat_add, BitVec.toNat_mul,
    BitVec.toNat_ofNat, sizeofEnclaveMetadata, sizeofMailbox, pageSize, Nat.reducePow, Nat.reduceMod,
    Nat.reduceSub]
  omega

/-- The number of pages of the enclave at `e`. -/
def extentPages (d : Data N) (e : Word) : ℕ := (enclaveMetadataPages (d.enclave e).numMailboxes).toNat

/-- `a` is a page of the enclave at `e`. -/
def InExtent (d : Data N) (e a : Word) : Prop := ∃ i < extentPages d e, a = off e (4096 * i)

/-! ## The invariant -/

/-- A page that held metadata and was destroyed: it is tagged invalid, and no enclave has
    it as one of its pages. -/
structure Dead (d : Data N) (a : Word) : Prop where
  page : ValidMetadata d a .invalid
  slot : IsSlot a
  notBody : ∀ e, ValidMetadata d e .enclave → ¬ InExtent d e a

/-- A page that is free or holds a thread. -/
def FreeOrThread (d : Data N) (a : Word) : Prop :=
  ValidMetadata d a .free ∨ ValidMetadata d a .thread

/-- An enclave, or what is left of one. -/
def EnclaveOrDead (d : Data N) (e : Word) : Prop := ValidMetadata d e .enclave ∨ Dead d e

/-- The words of a dead page that the monitor still uses. -/
structure DeadWords (m : Mem) (a : Word) : Prop where
  numMailboxes : (enclaveMetadata m a).numMailboxes = 0
  memrbm : (threadMetadata m a).memrbm = 0
  faultSp : (threadMetadata m a).untrustedFaultSp = 0

/-- What an exit restores from a thread. -/
structure ThreadOk (img : Image N) (T : ThreadMetadata) : Prop where
  memrbm : T.memrbm = 0
  faultSp : T.untrustedFaultSp = 0 ∨ ∃ c, T.untrustedFaultSp = untrustedFaultSpOf img c

/-- A thread of the enclave at `e`, or what is left of one. -/
def ThreadOfOrDead (d : Data N) (e t : Word) : Prop :=
  ValidMetadata d t .thread ∧ (d.thread t).owner = e ∨ Dead d t

/-- The threads that `num_threads` of the enclave at `e` counts. -/
structure Counts (d : Data N) (e : Word) (A : Finset Word) : Prop where
  card : (d.enclave e).numThreads.toNat = A.card
  live : ∀ t, ValidMetadata d t .thread → (d.thread t).owner = e → t ∈ A
  running : ∀ c, (d.cores c).owner = e → (d.cores c).thread ∈ A
  sound : ∀ t ∈ A, ThreadOfOrDead d e t

structure HeapInv (img : Image N) (d : Data N) : Prop where
  slot : ∀ a k, ValidMetadata d a k → k ≠ .invalid → IsSlot a
  size : ∀ e, ValidMetadata d e .enclave → NoWrap (d.enclave e).numMailboxes ∧
    (addrToRegionPageId e).toNat + extentPages d e ≤ 8192
  body : ∀ e, ValidMetadata d e .enclave → ∀ i, 0 < i → i < extentPages d e →
    pageTag d (off e (4096 * i)) = MetadataPage.invalid.code
  free : ∀ a, ValidMetadata d a .free → ∀ x ∈ threadBytes a, d.mem x = 0
  tail : ∀ a, FreeOrThread d a → ∀ x ∈ range a 4096, x ∉ threadBytes a → d.mem x = 0
  thread : ∀ t, ValidMetadata d t .thread →
    EnclaveOrDead d (d.thread t).owner ∧ ThreadOk img (d.thread t)
  dead : ∀ a, Dead d a → DeadWords d.mem a
  running : ∀ c, (d.cores c).owner ≠ ownerUntrusted →
    EnclaveOrDead d (d.cores c).owner ∧ ThreadOfOrDead d (d.cores c).owner (d.cores c).thread
  distinct : ∀ c c', (d.cores c).owner ≠ ownerUntrusted → (d.cores c').owner ≠ ownerUntrusted →
    (d.cores c).owner ≠ (d.cores c').thread
  initialized : ∀ c, ValidMetadata d (d.cores c).owner .enclave →
    (d.enclave (d.cores c).owner).initState = enclaveStateInitialized
  counts : ∀ e, ValidMetadata d e .enclave → ∃ A, Counts d e A

/-! ## Consequences -/

theorem ValidMetadata.tag_unique {k k' : MetadataPage} (h : ValidMetadata d a k)
    (h' : ValidMetadata d a k') : k = k' := by
  have := h.tag.symm.trans h'.tag
  cases k <;> cases k' <;> first | rfl | exact absurd this (by decide)

theorem Dead.not_valid (h : Dead d a) (hk : k ≠ .invalid) : ¬ ValidMetadata d a k :=
  fun hv => hk (hv.tag_unique h.page)

theorem EnclaveOrDead.page (h : EnclaveOrDead d e) : MetadataPageAt d e :=
  h.elim (·.toMetadataPageAt) (·.page.toMetadataPageAt)

theorem EnclaveOrDead.ne_of_thread (he : EnclaveOrDead d e) (ht : ValidMetadata d t .thread) : e ≠ t := by
  rintro rfl
  rcases he with hv | hd
  · exact absurd (hv.tag_unique ht) (by decide)
  · exact absurd ht (hd.not_valid (by decide))

theorem ThreadOfOrDead.ne_of_enclave {o : Word} (ht : ThreadOfOrDead d o t)
    (he : ValidMetadata d e .enclave) : e ≠ t := by
  rintro rfl
  rcases ht with ⟨hv, -⟩ | hd
  · exact absurd (hv.tag_unique he) (by decide)
  · exact absurd he (hd.not_valid (by decide))

theorem extentPages_pos (h : NoWrap (d.enclave e).numMailboxes) : 0 < extentPages d e := by
  rw [extentPages, enclaveMetadataPages_toNat h]
  omega

theorem inExtent_self (h : NoWrap (d.enclave e).numMailboxes) : InExtent d e e :=
  ⟨0, extentPages_pos h, by rw [Nat.mul_zero, off_zero]⟩

/-- The pages of an enclave behind the first are metadata pages with tag invalid. -/
theorem HeapInv.body_valid (h : HeapInv img d) (he : ValidMetadata d e .enclave) {i : ℕ}
    (h0 : 0 < i) (hi : i < extentPages d e) : ValidMetadata d (off e (4096 * i)) .invalid := by
  have hslot := h.slot e _ he (by decide)
  have hfit : (addrToRegionPageId e).toNat + i < 8192 := by have := (h.size e he).2; omega
  obtain ⟨hr, hreg⟩ := region_page hslot hfit
  exact ⟨⟨(isSlot_page hslot hfit).aligned, hr, hreg ▸ he.type, hreg ▸ he.state⟩, h.body e he i h0 hi⟩

theorem HeapInv.slot_of_inExtent (h : HeapInv img d) (he : ValidMetadata d e .enclave)
    (ha : InExtent d e a) : IsSlot a := by
  obtain ⟨i, hi, rfl⟩ := ha
  exact isSlot_page (h.slot e _ he (by decide)) (by have := (h.size e he).2; omega)

theorem HeapInv.region_of_inExtent (h : HeapInv img d) (he : ValidMetadata d e .enclave)
    (ha : InExtent d e a) : regionOf a = regionOf e := by
  obtain ⟨i, hi, rfl⟩ := ha
  exact (region_page (h.slot e _ he (by decide)) (by have := (h.size e he).2; omega)).2

/-- A page of an enclave is its first page or is tagged invalid. -/
theorem HeapInv.tag_of_inExtent (h : HeapInv img d) (he : ValidMetadata d e .enclave)
    (ha : InExtent d e a) : a = e ∨ ValidMetadata d a .invalid := by
  obtain ⟨i, hi, rfl⟩ := ha
  rcases Nat.eq_zero_or_pos i with rfl | h0
  · exact .inl (by rw [Nat.mul_zero, off_zero])
  · exact .inr (h.body_valid he h0 hi)

theorem HeapInv.page_of_inExtent (h : HeapInv img d) (he : ValidMetadata d e .enclave)
    (ha : InExtent d e a) : MetadataPageAt d a := by
  rcases h.tag_of_inExtent he ha with rfl | hi
  · exact he.toMetadataPageAt
  · exact hi.toMetadataPageAt

theorem EnclaveOrDead.slot (h : HeapInv img d) (he : EnclaveOrDead d e) : IsSlot e := by
  rcases he with hv | hd
  · exact h.slot e _ hv (by decide)
  · exact hd.slot

/-- Pages tagged free or thread, and first pages of other enclaves, are not pages of an
    enclave. -/
theorem HeapInv.notInExtent (h : HeapInv img d) (he : ValidMetadata d e .enclave)
    (hv : ValidMetadata d a k) (hk : k ≠ .invalid) (hne : a ≠ e) : ¬ InExtent d e a := fun ha => by
  rcases h.tag_of_inExtent he ha with rfl | hi
  · exact hne rfl
  · exact hk (hv.tag_unique hi)

theorem EnclaveOrDead.notInExtent {f : Word} (hf : EnclaveOrDead d f) (h : HeapInv img d)
    (he : ValidMetadata d e .enclave) (hne : f ≠ e) : ¬ InExtent d e f := by
  rcases hf with hv | hd
  · exact h.notInExtent he hv (by decide) hne
  · exact hd.notBody e he

/-- All bytes of a free page are zero. -/
theorem HeapInv.free_zero (h : HeapInv img d) (ha : ValidMetadata d a .free) (hx : x ∈ range a 4096) :
    d.mem x = 0 := by
  by_cases hxt : x ∈ threadBytes a
  · exact h.free a ha x hxt
  · exact h.tail a (.inl ha) x hx hxt

/-- A counted set is small: its members are pages of RAM. -/
theorem Counts.card_lt {A : Finset Word} (h : Counts d e A) : A.card ≤ 2 ^ 20 := by
  have hpage : ∀ t ∈ A, t.toNat % 4096 = 0 ∧ 0x80000000 ≤ t.toNat ∧ t.toNat < 0x100000000 := by
    intro t ht
    have hp : MetadataPageAt d t := by
      rcases h.sound t ht with ⟨hv, _⟩ | hd
      · exact hv.toMetadataPageAt
      · exact hd.page.toMetadataPageAt
    exact ⟨(isPageAligned_iff t).mp hp.aligned, (addrToRegionId_lt t).mp hp.inRam⟩
  rw [show 2 ^ 20 = (Finset.range (2 ^ 20)).card by simp]
  refine Finset.card_le_card_of_injOn (fun t => t.toNat / 4096) (fun t ht => ?_) fun t ht t' ht' hEq => ?_
  · have := hpage t ht
    simp only [Finset.coe_range, Set.mem_Iio]
    omega
  · have := hpage t ht
    have := hpage t' ht'
    simp only at hEq
    exact BitVec.eq_of_toNat_eq (by omega)

/-! ## Steps that keep the tags -/

/-- The metadata pages and their tags are the same. -/
structure SamePages (d d' : Data N) : Prop where
  pages : ∀ a, MetadataPageAt d' a ↔ MetadataPageAt d a
  tags : ∀ a, MetadataPageAt d a → pageTag d' a = pageTag d a

theorem validMetadata_congr (hp : MetadataPageAt d' a ↔ MetadataPageAt d a)
    (ht : MetadataPageAt d a → pageTag d' a = pageTag d a) :
    ValidMetadata d' a k ↔ ValidMetadata d a k := by
  constructor
  · intro hv
    have hp := hp.mp hv.toMetadataPageAt
    exact ⟨hp, (ht hp).symm.trans hv.tag⟩
  · intro hv
    exact ⟨hp.mpr hv.toMetadataPageAt, (ht hv.toMetadataPageAt).trans hv.tag⟩

theorem SamePages.valid_iff (h : SamePages d d') : ValidMetadata d' a k ↔ ValidMetadata d a k :=
  validMetadata_congr (h.pages a) (h.tags a)

/-- What a step may change while the tags stay the same. -/
structure KeepsHeap (img : Image N) (d d' : Data N) : Prop extends SamePages d d' where
  enclave : ∀ e, ValidMetadata d e .enclave →
    (d'.enclave e).numMailboxes = (d.enclave e).numMailboxes ∧
    (d'.enclave e).numThreads = (d.enclave e).numThreads ∧
    ((d.enclave e).initState = enclaveStateInitialized →
      (d'.enclave e).initState = enclaveStateInitialized)
  free : ∀ a, ValidMetadata d a .free → ∀ x ∈ threadBytes a, d'.mem x = d.mem x
  tail : ∀ a, FreeOrThread d a → ∀ x ∈ range a 4096, x ∉ threadBytes a → d'.mem x = d.mem x
  thread : ∀ t, ValidMetadata d t .thread → ThreadOk img (d.thread t) →
    (d'.thread t).owner = (d.thread t).owner ∧ ThreadOk img (d'.thread t)
  dead : ∀ a, Dead d a → DeadWords d.mem a → DeadWords d'.mem a
  cores : ∀ c, (d'.cores c).owner ≠ ownerUntrusted →
    (d'.cores c).owner = (d.cores c).owner ∧ (d'.cores c).thread = (d.cores c).thread ∨
      EnterGuard d (d'.cores c).owner (d'.cores c).thread

namespace KeepsHeap

variable (hk : KeepsHeap img d d')
include hk

theorem extentPages_eq (he : ValidMetadata d e .enclave) : extentPages d' e = extentPages d e := by
  rw [extentPages, (hk.enclave e he).1, extentPages]

theorem inExtent_iff (he : ValidMetadata d e .enclave) : InExtent d' e a ↔ InExtent d e a := by
  simp only [InExtent, hk.extentPages_eq he]

theorem dead_iff : Dead d' a ↔ Dead d a := by
  constructor
  · rintro ⟨hp, hs, hb⟩
    exact ⟨hk.valid_iff.mp hp, hs, fun e he hx =>
      hb e (hk.valid_iff.mpr he) ((hk.inExtent_iff he).mpr hx)⟩
  · rintro ⟨hp, hs, hb⟩
    refine ⟨hk.valid_iff.mpr hp, hs, fun e he hx => ?_⟩
    have he := hk.valid_iff.mp he
    exact hb e he ((hk.inExtent_iff he).mp hx)

theorem enclaveOrDead_iff : EnclaveOrDead d' e ↔ EnclaveOrDead d e :=
  or_congr hk.valid_iff hk.dead_iff

theorem threadOfOrDead (h : HeapInv img d) (ht : ThreadOfOrDead d e t) : ThreadOfOrDead d' e t := by
  rcases ht with ⟨hv, ho⟩ | hd
  · exact .inl ⟨hk.valid_iff.mpr hv, (hk.thread t hv (h.thread t hv).2).1.trans ho⟩
  · exact .inr (hk.dead_iff.mpr hd)

theorem heapInv (h : HeapInv img d) : HeapInv img d' where
  slot a k hv := h.slot a k (hk.valid_iff.mp hv)
  size e he := by
    have he := hk.valid_iff.mp he
    rw [(hk.enclave e he).1, hk.extentPages_eq he]
    exact h.size e he
  body e he i h0 hi := by
    have he := hk.valid_iff.mp he
    rw [hk.extentPages_eq he] at hi
    rw [hk.tags _ (h.body_valid he h0 hi).toMetadataPageAt]
    exact h.body e he i h0 hi
  free a ha x hx := by
    have ha := hk.valid_iff.mp ha
    rw [hk.free a ha x hx]
    exact h.free a ha x hx
  tail a ha x hx hxt := by
    have ha : FreeOrThread d a := ha.imp hk.valid_iff.mp hk.valid_iff.mp
    rw [hk.tail a ha x hx hxt]
    exact h.tail a ha x hx hxt
  thread t ht := by
    have ht := hk.valid_iff.mp ht
    obtain ⟨ho, hok⟩ := hk.thread t ht (h.thread t ht).2
    rw [ho, hk.enclaveOrDead_iff]
    exact ⟨(h.thread t ht).1, hok⟩
  dead a ha := by
    have ha := hk.dead_iff.mp ha
    exact hk.dead a ha (h.dead a ha)
  running c hc := by
    rw [hk.enclaveOrDead_iff]
    rcases hk.cores c hc with ⟨ho, ht⟩ | hg
    · rw [ho] at hc ⊢
      rw [ht]
      exact ⟨(h.running c hc).1, hk.threadOfOrDead h (h.running c hc).2⟩
    · exact ⟨.inl hg.enclave, hk.threadOfOrDead h (.inl ⟨hg.thread, hg.owner⟩)⟩
  distinct c c' hc hc' := by
    rcases hk.cores c hc with ⟨ho, -⟩ | hg <;> rcases hk.cores c' hc' with ⟨ho', ht⟩ | hg'
    · rw [ho] at hc ⊢
      rw [ho'] at hc'
      rw [ht]
      exact h.distinct c c' hc hc'
    · rw [ho] at hc ⊢
      exact (h.running c hc).1.ne_of_thread hg'.thread
    · rw [ho'] at hc'
      rw [ht]
      exact (h.running c' hc').2.ne_of_enclave hg.enclave
    · exact (EnclaveOrDead.ne_of_thread (.inl hg.enclave)) hg'.thread
  initialized c hc := by
    have hv := hk.valid_iff.mp hc
    have hne : (d'.cores c).owner ≠ ownerUntrusted := fun hu => by
      rw [hu] at hv; exact absurd hv.aligned (by decide)
    refine (hk.enclave _ hv).2.2 ?_
    rcases hk.cores c hne with ⟨ho, _⟩ | hg
    · rw [ho] at hv ⊢; exact h.initialized c hv
    · exact hg.state
  counts e he := by
    have he := hk.valid_iff.mp he
    obtain ⟨A, hA⟩ := h.counts e he
    refine ⟨A, ?_, fun t ht ho => ?_, fun c hc => ?_, fun t ht => hk.threadOfOrDead h (hA.sound t ht)⟩
    · rw [(hk.enclave e he).2.1]; exact hA.card
    · have ht := hk.valid_iff.mp ht
      exact hA.live t ht ((hk.thread t ht (h.thread t ht).2).1.symm.trans ho)
    · have hne : (d'.cores c).owner ≠ ownerUntrusted := fun hu => by
        rw [← hc, hu] at he; exact absurd he.aligned (by decide)
      rcases hk.cores c hne with ⟨ho, ht⟩ | hg
      · rw [ht]; exact hA.running c (ho.symm.trans hc)
      · exact hA.live _ hg.thread (hg.owner.trans hc)

end KeepsHeap

/-! ### Steps by the pages they write -/

/-- Only the pages in `T` are written. -/
structure AgreesOutside (d d' : Data N) (T : Set Word) : Prop extends SamePages d d' where
  content : ∀ a, MetadataPageAt d a → IsSlot a → a ∉ T → ∀ x ∈ range a 4096, d'.mem x = d.mem x

/-- The core runs what it ran before. -/
def SameRunning (d d' : Data N) : Prop :=
  ∀ c, (d'.cores c).owner = (d.cores c).owner ∧ (d'.cores c).thread = (d.cores c).thread

theorem header_subset (e : Word) : header e ⊆ range e 4096 := range_subset_of_le (by decide)

theorem threadBytes_subset (t : Word) : threadBytes t ⊆ range t 4096 := range_subset_of_le (by decide)

theorem DeadWords.of_agree {m m' : Mem} (h : DeadWords m a) (ha : ∀ x ∈ range a 4096, m' x = m x) :
    DeadWords m' a := by
  have he : enclaveMetadata m' a = enclaveMetadata m a :=
    enclaveMetadata_agree fun x hx => ha x (header_subset a hx)
  have ht : threadMetadata m' a = threadMetadata m a :=
    threadMetadata_agree fun x hx => ha x (threadBytes_subset a hx)
  exact ⟨by rw [he]; exact h.numMailboxes, by rw [ht]; exact h.memrbm, by rw [ht]; exact h.faultSp⟩

theorem AgreesOutside.enclave_eq {T : Set Word} (ha : AgreesOutside d d' T) (hp : MetadataPageAt d e)
    (hs : IsSlot e) (hT : e ∉ T) : d'.enclave e = d.enclave e :=
  enclaveMetadata_agree fun x hx => ha.content e hp hs hT x (header_subset e hx)

theorem AgreesOutside.thread_eq {T : Set Word} (ha : AgreesOutside d d' T) (hp : MetadataPageAt d t)
    (hs : IsSlot t) (hT : t ∉ T) : d'.thread t = d.thread t :=
  threadMetadata_agree fun x hx => ha.content t hp hs hT x (threadBytes_subset t hx)

theorem AgreesOutside.keepsHeap {T : Set Word} (ha : AgreesOutside d d' T) (h : HeapInv img d)
    (hfree : ∀ a ∈ T, ¬ ValidMetadata d a .free)
    (htail : ∀ t ∈ T, ValidMetadata d t .thread → ∀ x ∈ range t 4096, x ∉ threadBytes t →
      d'.mem x = d.mem x)
    (henclave : ∀ e ∈ T, ValidMetadata d e .enclave →
      (d'.enclave e).numMailboxes = (d.enclave e).numMailboxes ∧
      (d'.enclave e).numThreads = (d.enclave e).numThreads ∧
      ((d.enclave e).initState = enclaveStateInitialized →
        (d'.enclave e).initState = enclaveStateInitialized))
    (hthread : ∀ t ∈ T, ValidMetadata d t .thread → ThreadOk img (d.thread t) →
      (d'.thread t).owner = (d.thread t).owner ∧ ThreadOk img (d'.thread t))
    (hdead : ∀ a ∈ T, Dead d a → DeadWords d.mem a → DeadWords d'.mem a)
    (hcores : ∀ c, (d'.cores c).owner ≠ ownerUntrusted →
      (d'.cores c).owner = (d.cores c).owner ∧ (d'.cores c).thread = (d.cores c).thread ∨
        EnterGuard d (d'.cores c).owner (d'.cores c).thread) : KeepsHeap img d d' where
  toSamePages := ha.toSamePages
  enclave e he := by
    by_cases hT : e ∈ T
    · exact henclave e hT he
    · rw [ha.enclave_eq he.toMetadataPageAt (h.slot e _ he (by decide)) hT]
      exact ⟨rfl, rfl, id⟩
  free a hv x hx :=
    ha.content a hv.toMetadataPageAt (h.slot a _ hv (by decide)) (fun hT => hfree a hT hv) x
      (threadBytes_subset a hx)
  tail a hv x hx hxt := by
    have hpage : MetadataPageAt d a := hv.elim (·.toMetadataPageAt) (·.toMetadataPageAt)
    have hslot : IsSlot a := hv.elim (h.slot a _ · (by decide)) (h.slot a _ · (by decide))
    by_cases hT : a ∈ T
    · exact htail a hT (hv.resolve_left (hfree a hT)) x hx hxt
    · exact ha.content a hpage hslot hT x hx
  thread t ht hok := by
    by_cases hT : t ∈ T
    · exact hthread t hT ht hok
    · rw [ha.thread_eq ht.toMetadataPageAt (h.slot t _ ht (by decide)) hT]
      exact ⟨rfl, hok⟩
  dead a hd hw := by
    by_cases hT : a ∈ T
    · exact hdead a hT hd hw
    · exact hw.of_agree (ha.content a hd.page.toMetadataPageAt hd.slot hT)
  cores := hcores

/-- A step that writes no metadata page. -/
theorem AgreesOutside.keepsHeap_empty (ha : AgreesOutside d d' ∅) (h : HeapInv img d)
    (hcores : SameRunning d d') : KeepsHeap img d d' :=
  ha.keepsHeap h (fun _ hT => hT.elim) (fun _ hT => hT.elim) (fun _ hT => hT.elim)
    (fun _ hT => hT.elim) (fun _ hT => hT.elim) fun c _ => .inl (hcores c)

/-- A step that writes pages of one enclave only. -/
theorem AgreesOutside.keepsHeap_extent (h : HeapInv img d) (he : ValidMetadata d e .enclave)
    (ha : AgreesOutside d d' {a | InExtent d e a})
    (hm : (d'.enclave e).numMailboxes = (d.enclave e).numMailboxes)
    (ht : (d'.enclave e).numThreads = (d.enclave e).numThreads)
    (hi : (d.enclave e).initState = enclaveStateInitialized →
      (d'.enclave e).initState = enclaveStateInitialized)
    (hcores : SameRunning d d') : KeepsHeap img d d' := by
  have hne {a : Word} {k : MetadataPage} (ha : InExtent d e a) (hv : ValidMetadata d a k)
      (hk : k ≠ .invalid) : a = e :=
    (h.tag_of_inExtent he ha).resolve_right fun hi => hk (hv.tag_unique hi)
  refine ha.keepsHeap h (fun a hT hv => ?_) (fun t hT hv => ?_) (fun f hT hv => ?_)
    (fun t hT hv => ?_) (fun a hT hd => absurd hT (hd.notBody e he)) fun c _ => .inl (hcores c)
  · obtain rfl := hne hT hv nofun
    exact absurd (hv.tag_unique he) (by decide)
  · obtain rfl := hne hT hv nofun
    exact absurd (hv.tag_unique he) (by decide)
  · obtain rfl := hne hT hv nofun
    exact ⟨hm, ht, hi⟩
  · obtain rfl := hne hT hv nofun
    exact absurd (hv.tag_unique he) (by decide)

/-- Metadata regions belong to the monitor. -/
def MetadataOwned (d : Data N) : Prop := ∀ i, (d.regions i).type = .metadata → (d.regions i).owner = ownerSm

theorem MetadataPageAt.not_ownedBy {o : Word} (hp : MetadataPageAt d a) (hm : MetadataOwned d)
    (ho : o ≠ ownerSm) (hx : regionOf x = regionOf a) : ¬ OwnedBy d o x := fun h =>
  ho (h.2.symm.trans (by rw [hx]; exact hm _ hp.type))

theorem metadataPageAt_of_regions (hr : ∀ i,
      (d'.regions i).type = .metadata ∧ (d'.regions i).state = .owned ↔
        (d.regions i).type = .metadata ∧ (d.regions i).state = .owned) :
    MetadataPageAt d' a ↔ MetadataPageAt d a := by
  constructor
  · rintro ⟨ha, hr', ht, hs⟩
    exact ⟨ha, hr', ((hr _).mp ⟨ht, hs⟩).1, ((hr _).mp ⟨ht, hs⟩).2⟩
  · rintro ⟨ha, hr', ht, hs⟩
    exact ⟨ha, hr', ((hr _).mpr ⟨ht, hs⟩).1, ((hr _).mpr ⟨ht, hs⟩).2⟩

theorem metadataPageAt_congr (hr : d'.regions = d.regions) : MetadataPageAt d' a ↔ MetadataPageAt d a :=
  metadataPageAt_of_regions fun _ => by rw [hr]

theorem samePages_of_mem (hr : d'.regions = d.regions)
    (hi : ∀ a, MetadataPageAt d a → d'.mem (pageInfoAddr a) = d.mem (pageInfoAddr a)) :
    SamePages d d' where
  pages _ := metadataPageAt_congr hr
  tags := hi

theorem IsSlot.ne_ownerSm (h : IsSlot e) : e ≠ ownerSm := by
  rintro rfl; exact absurd h.aligned (by decide)

/-- A build step writes the first page of its enclave only. -/
theorem BuildFrame.agreesOutside (hf : BuildFrame d e d') (hm : MetadataOwned d) (he : IsSlot e) :
    AgreesOutside d d' {e} where
  toSamePages := by
    refine samePages_of_mem (by rw [hf.rest]) fun a hp => hf.mem _ (fun hx => ?_) ?_
    · exact he.info_notMem hp.inRam (header_subset e hx)
    · exact hp.not_ownedBy hm he.ne_ownerSm (region_pageInfoAddr hp.inRam).2
  content a hp hs hT x hx := by
    refine hf.mem x (fun hh => ?_) ?_
    · exact (hs.sep he hT) x hx (header_subset e hh)
    · exact hp.not_ownedBy hm he.ne_ownerSm (hs.region_of_mem hx).2

theorem AgreesOutside.mono {T T' : Set Word} (ha : AgreesOutside d d' T) (h : T ⊆ T') :
    AgreesOutside d d' T' where
  toSamePages := ha.toSamePages
  content a hp hs hT := ha.content a hp hs fun h' => hT (h h')

/-- The header of an enclave is not memory of that enclave. -/
theorem MetadataPageAt.headerSep (hp : MetadataPageAt d e) (hm : MetadataOwned d) :
    HeaderSep d e := fun _ hx => by
  have hne : e ≠ ownerSm := by rintro rfl; exact absurd hp.aligned (by decide)
  exact hp.not_ownedBy hm hne (header_region hp.aligned hp.inRam hx).2

/-! ### Mail -/

section
variable {id : Word}

theorem HeapInv.mailboxAddr_toNat (h : HeapInv img d) (he : ValidMetadata d e .enclave)
    (hid : id < (d.enclave e).numMailboxes) :
    (mailboxAddr e id).toNat = e.toNat + 592 + 336 * id.toNat ∧
      592 + 336 * id.toNat + 336 ≤ 4096 * extentPages d e ∧
      e.toNat + 4096 * extentPages d e ≤ 2 ^ 64 := by
  obtain ⟨hw, hfit⟩ := h.size e he
  have hslot := isSlot_iff.mp (h.slot e _ he (by decide))
  have hlt : id.toNat < (d.enclave e).numMailboxes.toNat := hid
  have hpages : extentPages d e = _ := enclaveMetadataPages_toNat hw
  simp only [NoWrap, sizeofEnclaveMetadata, sizeofMailbox, pageSize] at hw
  rw [addrToRegionPageId_toNat_of_ram hslot.2.1] at hfit
  refine ⟨?_, by omega, by omega⟩
  rw [mailboxAddr, BitVec.toNat_add, off_toNat, BitVec.toNat_mul, BitVec.toNat_ofNat,
    sizeofEnclaveMetadata, sizeofMailbox]
  omega

/-- The bytes of a mailbox are bytes of the enclave's pages, behind its header. -/
theorem HeapInv.mailboxBytes_page (h : HeapInv img d) (he : ValidMetadata d e .enclave)
    (hid : id < (d.enclave e).numMailboxes) (hx : x ∈ mailboxBytes e id) :
    x ∉ header e ∧ ∃ a, InExtent d e a ∧ x ∈ range a 4096 := by
  obtain ⟨hnat, hle, hwrap⟩ := h.mailboxAddr_toNat he hid
  have hfit := (h.size e he).2
  have hslot := h.slot e _ he (by decide)
  rw [mailboxBytes, sizeofMailbox, mem_range_iff (by omega), hnat] at hx
  have hi : (x.toNat - e.toNat) / 4096 < extentPages d e := by omega
  refine ⟨fun hh => ?_, off e (4096 * ((x.toNat - e.toNat) / 4096)), ⟨_, hi, rfl⟩, ?_⟩
  · rw [header, sizeofEnclaveMetadata, mem_range_iff (by omega)] at hh; omega
  · have hpage := page_toNat hslot.inRam (i := (x.toNat - e.toNat) / 4096) (by omega)
    rw [(isSlot_page hslot (by omega)).mem_iff le_rfl, hpage]
    omega

theorem MailFrame.agreesOutside (hf : MailFrame d e id d') (h : HeapInv img d)
    (he : ValidMetadata d e .enclave) (hid : id < (d.enclave e).numMailboxes) :
    AgreesOutside d d' {a | InExtent d e a} where
  toSamePages := by
    refine samePages_of_mem (by rw [hf.rest]) fun a hp => hf.mem _ (.inr fun hx => ?_)
    obtain ⟨-, b, hb, hxb⟩ := h.mailboxBytes_page he hid hx
    exact (h.slot_of_inExtent he hb).info_notMem hp.inRam hxb
  content a hp hs hT x hx := by
    refine hf.mem x (.inr fun hm => ?_)
    obtain ⟨-, b, hb, hxb⟩ := h.mailboxBytes_page he hid hm
    have hne : a ≠ b := by rintro rfl; exact hT hb
    exact hs.sep (h.slot_of_inExtent he hb) hne x hx hxb

theorem MailFrame.enclave_eq (hf : MailFrame d e id d') (h : HeapInv img d)
    (he : ValidMetadata d e .enclave) (hid : id < (d.enclave e).numMailboxes) :
    d'.enclave e = d.enclave e :=
  enclaveMetadata_agree fun x hx => hf.mem x (.inr fun hm => (h.mailboxBytes_page he hid hm).1 hx)

/-- The mail calls of untrusted software and of enclaves, dead ones included, keep the heap. -/
theorem MailFrame.keepsHeap {owner : Word} (hf : MailFrame d owner id d') (h : HeapInv img d)
    (ho : owner = ownerUntrusted ∨ EnclaveOrDead d owner) (hid : MailboxId d owner id) :
    KeepsHeap img d d' := by
  have hcores : SameRunning d d' := fun c => by rw [hf.rest]; exact ⟨rfl, rfl⟩
  rcases ho with rfl | he | hd
  · refine AgreesOutside.keepsHeap_empty ⟨samePages_of_mem (by rw [hf.rest]) fun a _ =>
      hf.mem _ (.inl rfl), fun _ _ _ _ x _ => hf.mem x (.inl rfl)⟩ h hcores
  · have hne : owner ≠ ownerUntrusted := by rintro rfl; exact absurd he.aligned (by decide)
    rw [MailboxId, if_neg hne] at hid
    have heq := hf.enclave_eq h he hid
    exact (hf.agreesOutside h he hid).keepsHeap_extent h he (by rw [heq]) (by rw [heq])
      (by rw [heq]; exact fun h => h) hcores
  · -- a dead enclave has no mailboxes
    have hne : owner ≠ ownerUntrusted := by rintro rfl; exact absurd hd.slot.aligned (by decide)
    rw [MailboxId, if_neg hne, Data.enclave, (h.dead _ hd).numMailboxes] at hid
    exact absurd hid BitVec.not_lt_zero

end

/-! ### Enter and exit -/

section
variable {c : Fin N} {ctx : TrapContext}

/-- A step that writes the thread structure at `t`, and memory outside the metadata regions. -/
theorem agreesOutside_thread (hr : d'.regions = d.regions) (ht : IsSlot t)
    (hm : ∀ a, MetadataPageAt d a → ∀ x, (addrToRegionId x).toNat < 64 → regionOf x = regionOf a →
      x ∉ threadBytes t → d'.mem x = d.mem x) : AgreesOutside d d' {t} where
  toSamePages := samePages_of_mem hr fun a hp => by
    obtain ⟨hx, hreg⟩ := region_pageInfoAddr hp.inRam
    exact hm a hp _ hx hreg fun hh => ht.info_notMem hp.inRam (threadBytes_subset t hh)
  content a hp hs hT x hx := by
    obtain ⟨hxr, hreg⟩ := hs.region_of_mem hx
    exact hm a hp x hxr hreg fun hh => hs.sep ht hT x hx (threadBytes_subset t hh)

theorem ThreadSep.of_slots (he : IsSlot e) (ht : IsSlot t) (hne : e ≠ t) : ThreadSep e t where
  header x hx hxt := he.sep ht hne x (header_subset e hx) (threadBytes_subset t hxt)
  info_header hx := he.info_notMem ht.inRam (header_subset e hx)
  info_thread hx := ht.info_notMem ht.inRam (threadBytes_subset t hx)

theorem EnterGuard.sep (hg : EnterGuard d e t) (h : HeapInv img d) : ThreadSep e t :=
  ThreadSep.of_slots (h.slot e _ hg.enclave (by decide)) (h.slot t _ hg.thread (by decide))
    (EnclaveOrDead.ne_of_thread (.inl hg.enclave) hg.thread)

theorem enterEnclave_agrees (h : HeapInv img d) (hg : EnterGuard d e t) :
    AgreesOutside d (enterEnclave img d c e t ctx) {t} :=
  agreesOutside_thread (by rw [enterEnclave_eq (hg.sep h).header]) (h.slot t _ hg.thread (by decide))
    fun _ _ x _ _ hx => enterEnclave_apply hx

theorem enterEnclave_keepsHeap (h : HeapInv img d) (hg : EnterGuard d e t)
    (hmem : (d.harts c).memrbm = 0) : KeepsHeap img d (enterEnclave img d c e t ctx) := by
  have hsep := (hg.sep h).header
  refine (enterEnclave_agrees h hg).keepsHeap h ?_ ?_ ?_ ?_ ?_ fun c' _ => ?_
  · rintro _ rfl hv; exact absurd (hv.tag_unique hg.thread) (by decide)
  · rintro _ rfl _ x _ hx; exact enterEnclave_apply hx
  · rintro _ rfl hv; exact absurd (hv.tag_unique hg.thread) (by decide)
  · rintro _ rfl _ _
    rw [enterEnclave_thread]
    exact ⟨rfl, hmem, .inr ⟨c, rfl⟩⟩
  · rintro _ rfl hd; exact absurd hg.thread (hd.not_valid (by decide))
  · rw [enterEnclave_cores hsep]
    by_cases hc : c' = c
    · subst hc; simp only [Function.update_self]; exact .inr hg
    · rw [Function.update_of_ne hc]; exact .inl ⟨rfl, rfl⟩

/-- A step that writes a thread but keeps what the invariant needs of it. -/
theorem AgreesOutside.keepsHeap_thread {o : Word} (ha : AgreesOutside d d' {t}) (h : HeapInv img d)
    (ht : ThreadOfOrDead d o t)
    (htail : ∀ x ∈ range t 4096, x ∉ threadBytes t → d'.mem x = d.mem x)
    (howner : (d'.thread t).owner = (d.thread t).owner)
    (hmemrbm : (d'.thread t).memrbm = (d.thread t).memrbm)
    (hsp : (d'.thread t).untrustedFaultSp = (d.thread t).untrustedFaultSp)
    (hmail : (d'.enclave t).numMailboxes = (d.enclave t).numMailboxes)
    (hcores : ∀ c, (d'.cores c).owner ≠ ownerUntrusted →
      (d'.cores c).owner = (d.cores c).owner ∧ (d'.cores c).thread = (d.cores c).thread) :
    KeepsHeap img d d' := by
  have hnot (k : MetadataPage) (hk : k ≠ .thread) (hk' : k ≠ .invalid) : ¬ ValidMetadata d t k := by
    rcases ht with ⟨hv, _⟩ | hd
    · exact fun hv' => hk (hv'.tag_unique hv)
    · exact hd.not_valid hk'
  refine ha.keepsHeap h ?_ ?_ ?_ ?_ ?_ fun c hc => .inl (hcores c hc)
  · rintro _ rfl; exact hnot .free nofun nofun
  · rintro _ rfl _; exact htail
  · rintro _ rfl hv; exact absurd hv (hnot .enclave nofun nofun)
  · rintro _ rfl _ hok
    exact ⟨howner, hmemrbm.trans hok.memrbm, by rw [hsp]; exact hok.faultSp⟩
  · rintro _ rfl _ hw
    exact ⟨hmail.trans hw.numMailboxes, hmemrbm.trans hw.memrbm, hsp.trans hw.faultSp⟩

theorem untrustedFaultSpOf_toNat (img : Image N) (c : Fin N) :
    0x80000000 ≤ (untrustedFaultSpOf img c).toNat ∧
      (untrustedFaultSpOf img c).toNat + 256 ≤ 0x80030000 := by
  have hlo := img.stack_lo
  have hhi := img.stack_hi
  have hc := c.isLt
  rw [show smAddr.toNat = 0x80000000 by decide, stackSize] at hlo
  rw [show smAddr.toNat = 0x80000000 by decide, smLen] at hhi
  have hmul : c.val * 4096 + 4096 ≤ N * 4096 := by omega
  rw [untrustedFaultSpOf, BitVec.toNat_sub, BitVec.toNat_sub, BitVec.toNat_ofNat, BitVec.toNat_ofNat,
    stackSize, mentryFrameSize]
  omega

/-- The stack that an exit writes is memory of the monitor, or outside RAM. -/
theorem stack_region {sp : Word} (h : sp = 0 ∨ ∃ c, sp = untrustedFaultSpOf img c)
    (hx : x ∈ range sp integerContextSize) (hr : (addrToRegionId x).toNat < 64) : regionOf x = 0 := by
  have hram := (addrToRegionId_lt x).mp hr
  apply Fin.ext
  rw [regionOf_val hr]
  rcases h with rfl | ⟨c, rfl⟩
  · rw [mem_range_iff (by decide), integerContextSize, show (0 : Word).toNat = 0 from rfl] at hx
    omega
  · have hsp := untrustedFaultSpOf_toNat img c
    rw [integerContextSize, mem_range_iff (by omega)] at hx
    show _ = 0
    omega

/-- Region 0, which holds the monitor, is no metadata region. -/
def MonitorRegion (d : Data N) : Prop := (d.regions 0).type ≠ .metadata

theorem MetadataPageAt.regionOf_ne (hp : MetadataPageAt d a) (hm : MonitorRegion d) : regionOf a ≠ 0 :=
  fun h => hm (h ▸ hp.type)

theorem ThreadOfOrDead.page (ht : ThreadOfOrDead d e t) : MetadataPageAt d t := by
  rcases ht with ⟨hv, _⟩ | hd
  · exact hv.toMetadataPageAt
  · exact hd.page.toMetadataPageAt

theorem HeapInv.slot_thread (h : HeapInv img d) (ht : ThreadOfOrDead d e t) : IsSlot t := by
  rcases ht with ⟨hv, _⟩ | hd
  · exact h.slot t _ hv (by decide)
  · exact hd.slot

/-- What the exit of a core restores: no enclave memory, and a stack outside metadata. -/
theorem HeapInv.threadOk (h : HeapInv img d) (ht : ThreadOfOrDead d e t) : ThreadOk img (d.thread t) := by
  rcases ht with ⟨hv, _⟩ | hd
  · exact (h.thread t hv).2
  · exact ⟨(h.dead t hd).memrbm, .inl (h.dead t hd).faultSp⟩

theorem HeapInv.stack_notMem (h : HeapInv img d) (ht : ThreadOfOrDead d e t) (hm : MonitorRegion d)
    (hp : MetadataPageAt d a) (hr : (addrToRegionId x).toNat < 64) (hx : regionOf x = regionOf a) :
    x ∉ range (d.thread t).untrustedFaultSp integerContextSize := fun hs =>
  hp.regionOf_ne hm (hx.symm.trans (stack_region (h.threadOk ht).faultSp hs hr))

theorem exitEnclave_agrees {aex : Bool} (h : HeapInv img d) (hm : MonitorRegion d)
    (hc : (d.cores c).owner ≠ ownerUntrusted) :
    AgreesOutside d (exitEnclave d c aex) {(d.cores c).thread} := by
  have ht := (h.running c hc).2
  exact agreesOutside_thread (by rw [exitEnclave_eq]) (h.slot_thread ht) fun a hp x hr hx hxt =>
    exitEnclave_apply hxt (h.stack_notMem ht hm hp hr hx)

theorem exitEnclave_keepsHeap {aex : Bool} (h : HeapInv img d) (hm : MonitorRegion d)
    (hc : (d.cores c).owner ≠ ownerUntrusted) : KeepsHeap img d (exitEnclave d c aex) := by
  have ht := (h.running c hc).2
  have hs := h.slot_thread ht
  -- the pushed registers do not reach the page of the thread
  have hpush : ∀ x ∈ range (d.cores c).thread 4096, (exitEnclave d c aex).mem x =
      Thread.setAexPresent d.mem (d.cores c).thread aex x := fun x hx => by
    obtain ⟨hr, hreg⟩ := hs.region_of_mem hx
    rw [exitEnclave_eq]
    exact pushUntrustedState_apply (h.stack_notMem ht hm ht.page hr hreg)
  have hthread : (exitEnclave d c aex).thread (d.cores c).thread =
      { d.thread (d.cores c).thread with aexPresent := if aex then 1 else 0 } :=
    (threadMetadata_agree fun x hx => hpush x (threadBytes_subset _ hx)).trans
      (threadMetadata_setAexPresent ..)
  refine (exitEnclave_agrees h hm hc).keepsHeap_thread h ht (fun x hx hxt => ?_) (by rw [hthread])
    (by rw [hthread]) (by rw [hthread]) ?_ fun c' hc' => ?_
  · obtain ⟨hr, hreg⟩ := hs.region_of_mem hx
    exact exitEnclave_apply hxt (h.stack_notMem ht hm ht.page hr hreg)
  · refine (congrArg EnclaveMetadata.numMailboxes (enclaveMetadata_agree fun x hx =>
      hpush x (header_subset _ hx))).trans ?_
    exact load64_fill_off (by decide) (by decide) (by decide)
  · rw [exitEnclave_cores] at hc' ⊢
    by_cases hcc : c' = c
    · subst hcc; rw [Function.update_self] at hc'; exact absurd rfl hc'
    · rw [Function.update_of_ne hcc]; exact ⟨rfl, rfl⟩

theorem setAexState_apply {m : Mem} {regs : Fin 32 → Word} (hx : x ∉ threadBytes t) :
    Thread.setAexState m t regs x = m x := by
  rw [Thread.setAexState, Mem.storeWords, threadBytes_fill hx (by decide)]

theorem setAexState_agrees {regs : Fin 32 → Word} (h : HeapInv img d)
    (hc : (d.cores c).owner ≠ ownerUntrusted) :
    AgreesOutside d { d with mem := Thread.setAexState d.mem (d.cores c).thread regs }
      {(d.cores c).thread} :=
  agreesOutside_thread rfl (h.slot_thread (h.running c hc).2) fun _ _ _ _ _ hx =>
    setAexState_apply hx

theorem setAexState_keepsHeap {regs : Fin 32 → Word} (h : HeapInv img d)
    (hc : (d.cores c).owner ≠ ownerUntrusted) :
    KeepsHeap img d { d with mem := Thread.setAexState d.mem (d.cores c).thread regs } := by
  have ht := (h.running c hc).2
  have ha : AgreesOutside d { d with mem := Thread.setAexState d.mem (d.cores c).thread regs } _ :=
    setAexState_agrees h hc
  generalize hd' : ({ d with mem := Thread.setAexState d.mem (d.cores c).thread regs } : Data N) = d'
    at ha ⊢
  have hmem : d'.mem = Thread.setAexState d.mem (d.cores c).thread regs := by rw [← hd']
  have hthread : d'.thread (d.cores c).thread = { d.thread (d.cores c).thread with aexState := regs } := by
    rw [Data.thread, hmem, threadMetadata_setAexState]; rfl
  refine ha.keepsHeap_thread h ht (fun x _ hx => by rw [hmem, setAexState_apply hx]) (by rw [hthread])
    (by rw [hthread]) (by rw [hthread]) ?_ fun _ _ => by rw [← hd']; exact ⟨rfl, rfl⟩
  simp only [Data.enclave, enclaveMetadata, hmem, Thread.setAexState, Mem.storeWords]
  exact load64_fill_off (by decide) (by decide) (by decide)

end

/-! ### Region steps -/

/-- A step that changes neither memory nor which regions are metadata regions. -/
theorem agreesOutside_of_regions (hmem : d'.mem = d.mem)
    (hr : ∀ i, (d'.regions i).type = .metadata ∧ (d'.regions i).state = .owned ↔
      (d.regions i).type = .metadata ∧ (d.regions i).state = .owned) : AgreesOutside d d' ∅ where
  pages _ := metadataPageAt_of_regions hr
  tags a _ := by rw [pageTag_eq, hmem, pageTag_eq]
  content a _ _ _ x _ := by rw [hmem]

end SecurityMonitor
