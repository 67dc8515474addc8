/-
  What the operations write.

  For each state transition of the API: the addresses outside which the memory
  stays the same, and what the enclave or thread metadata reads as afterwards.
  The build calls write the first 592 bytes of the enclave's page (its header),
  page map entries, and memory of regions that the enclave owns.
-/
import SecurityMonitor.Pages

namespace SecurityMonitor

open ByteMem

variable {N : ℕ} {m : Mem} {a e t x : Word} {k n : ℕ} {f : ℕ → Byte}

/-! ## Writes inside a structure -/

/-- The bytes of the enclave structure at `e`. -/
def header (e : Word) : Set Word := range e sizeofEnclaveMetadata

/-- The bytes of the thread structure at `t`. -/
def threadBytes (t : Word) : Set Word := range t sizeofThreadMetadata

theorem agreeOn_fill_compl {W : Set Word} (h : range a n ⊆ W) : (m.fill a n f).AgreeOn m Wᶜ :=
  Mem.agreeOn_fill fun _ hx hr => hx (h hr)

theorem header_fill (hx : x ∉ header e) (h : k + n ≤ 592) : m.fill (off e k) n f x = m x :=
  Mem.fill_apply_of_notMem fun hr => hx (range_off_sub h (by decide) hr)

theorem threadBytes_fill (hx : x ∉ threadBytes t) (h : k + n ≤ 912) : m.fill (off t k) n f x = m x :=
  Mem.fill_apply_of_notMem fun hr => hx (range_off_sub h (by decide) hr)

theorem setHashContext_apply (hx : x ∉ header e) (c : HashContext) :
    Enclave.setHashContext m e c x = m x := by
  simp [Enclave.setHashContext, storeHashContext, off_off, Mem.store64, Mem.storeWords,
    Mem.storeBytes, header_fill hx, -off_zero]

theorem hashExtend_apply (hx : x ∉ header e) (bs : List Byte) : hashExtend m e bs x = m x :=
  setHashContext_apply hx _

theorem setRegion_apply (hx : x ∉ header e) (r : Fin 64) (v : Bool) :
    Enclave.setRegion m e r v x = m x := by
  rw [Enclave.setRegion, Mem.store8, header_fill hx (by have := r.isLt; omega)]

@[simp] theorem enclaveMetadata_hashExtend (bs : List Byte) : enclaveMetadata (hashExtend m e bs) e =
    { enclaveMetadata m e with
      hashContext := sha512Update (enclaveMetadata m e).hashContext bs } :=
  enclaveMetadata_setHashContext ..

/-! ## Page maps -/

section
variable {p : Word} {k : MetadataPage}

theorem tagPages_eq (m : Mem) (a p : Word) (k : MetadataPage) : tagPages m a p k =
    (m.fill (pageInfoAddr a) 1 fun _ => k.code).fill (off (pageInfoAddr a) 1) (p.toNat - 1) fun _ =>
      MetadataPage.invalid.code := rfl

theorem tagPages_agree (hp : 0 < p.toNat) :
    (tagPages m a p k).AgreeOn m (range (pageInfoAddr a) p.toNat)ᶜ := by
  have hlt := p.isLt
  rw [tagPages_eq]
  refine (agreeOn_fill_compl (range_off_sub (by omega) (by omega))).trans (agreeOn_fill_compl ?_)
  intro x (hx : (x - pageInfoAddr a).toNat < 1)
  exact (show (x - pageInfoAddr a).toNat < p.toNat by omega)

theorem tagPages_head (hp : 0 < p.toNat) : tagPages m a p k (pageInfoAddr a) = k.code := by
  have hlt := p.isLt
  have hsep : Sep (off (pageInfoAddr a) 0) 1 (off (pageInfoAddr a) 1) (p.toNat - 1) :=
    sep_off (by omega) (by omega) (by omega)
  rw [off_zero] at hsep
  have hhead : pageInfoAddr a ∈ range (pageInfoAddr a) 1 := mem_range_self (by decide)
  rw [tagPages_eq, Mem.fill_apply_of_notMem (hsep _ hhead), Mem.fill_apply_of_mem hhead]

theorem tagPages_tail {i : ℕ} (h0 : 0 < i) (hi : i < p.toNat) :
    tagPages m a p k (off (pageInfoAddr a) i) = MetadataPage.invalid.code := by
  have hlt := p.isLt
  obtain ⟨j, rfl⟩ : ∃ j, i = 1 + j := ⟨i - 1, by omega⟩
  rw [tagPages_eq, ← off_off, Mem.fill_off (by omega) (by omega)]

theorem freePages_agree : (freePages m a p).AgreeOn m (range (pageInfoAddr a) p.toNat)ᶜ :=
  agreeOn_fill_compl subset_rfl

theorem freePages_apply {i : ℕ} (hi : i < p.toNat) :
    freePages m a p (off (pageInfoAddr a) i) = MetadataPage.free.code :=
  Mem.fill_off hi (by have := p.isLt; omega)

end

/-! ## Building an enclave -/

section
variable {img : Image N}

theorem createEnclave_agree {b k n : Word} {debug : Bool} : (createEnclave m e b k n debug).AgreeOn
    (tagPages m e (enclaveMetadataPages n) .enclave) (header e)ᶜ := by
  intro x hx
  simp only [createEnclave, ↓hashExtend_apply hx, ↓setHashContext_apply hx, ↓Enclave.setDebug,
    ↓Enclave.setNumMailboxes, ↓Enclave.setEvMask, ↓Enclave.setEvBase,
    ↓Enclave.setLastPhysAddrLoaded, ↓Enclave.setInitState, ↓Mem.store8, ↓Mem.store32, ↓Mem.store64,
    ↓header_fill hx, Nat.reduceAdd, Nat.reduceLeDiff]

/-- The hash context of a new enclave. -/
def createContext (c : HashContext) (b k n : Word) (debug : Bool) : HashContext :=
  let c := sha512Update (sha512Init c) (wordBytes b)
  let c := sha512Update (sha512Update c (wordBytes k)) (wordBytes n)
  sha512Update c [if debug then 1 else 0]

theorem createEnclave_record {b k n : Word} {debug : Bool} :
    let E := enclaveMetadata (tagPages m e (enclaveMetadataPages n) .enclave) e
    enclaveMetadata (createEnclave m e b k n debug) e =
      { E with
        initState := enclaveStateCreated
        lastPhysAddrLoaded := 0
        hashContext := createContext E.hashContext b k n debug
        evBase := b
        evMask := k
        numMailboxes := n
        debug := if debug then 1 else 0 } := by
  simp only [createEnclave, createContext, enclaveMetadata_hashExtend, enclaveMetadata_setDebug,
    enclaveMetadata_setNumMailboxes, enclaveMetadata_setEvMask, enclaveMetadata_setEvBase,
    enclaveMetadata_setHashContext, enclaveMetadata_setLastPhysAddrLoaded,
    enclaveMetadata_setInitState]

theorem initEnclave_agree {keys : Keys} : (initEnclave img keys m e).AgreeOn m (header e)ᶜ := by
  intro x hx
  simp only [initEnclave, ↓Enclave.setInitState, ↓Enclave.setAttestation, ↓Enclave.setPublicKey,
    ↓Enclave.setSecretKey, ↓Mem.store32, ↓Mem.storeBytes, ↓header_fill hx, Nat.reduceAdd,
    Nat.reduceLeDiff]
  cases (sha512Final (enclaveMetadata m e).hashContext).2 with
  | none => exact setHashContext_apply hx _
  | some h =>
    simp only [Enclave.setMeasurement, Mem.storeBytes, ↓header_fill hx, setHashContext_apply hx,
      Nat.reduceAdd, Nat.reduceLeDiff]

/-- The handler and the stacks of an enclave are far smaller than a region. -/
theorem Image.size_le (img : Image N) : N * stackSize + img.enclaveHandler.length ≤ 0x60000 := by
  have hlo := img.stack_lo
  have hhi := img.stack_hi
  have hlen := img.handler_le
  simp only [smAddr, smLen, stackSize] at *
  omega

/-- A short range lies in one region if its two ends do. -/
theorem region_of_mem_range {p : Word} {n : ℕ} (hn : n < 0x2000000)
    (hp : (addrToRegionId p).toNat < 64) (hfit : addrToRegionId p = addrToRegionId (off p n))
    (hx : x ∈ range p n) : (addrToRegionId x).toNat < 64 ∧ regionOf x = regionOf p := by
  have hram := (addrToRegionId_lt p).mp hp
  have hend : (addrToRegionId (off p n)).toNat < 64 := hfit ▸ hp
  have hreg : regionOf p = regionOf (off p n) := congrArg toRegion hfit
  have hnat : (off p n).toNat = p.toNat + n := off_toNat_of_lt (by omega)
  rw [regionOf_eq_iff hp hend, hnat] at hreg
  have hend' := (addrToRegionId_lt _).mp hend
  rw [hnat] at hend'
  rw [mem_range_iff (by omega)] at hx
  have hxr : (addrToRegionId x).toNat < 64 := (addrToRegionId_lt x).mpr (by omega)
  refine ⟨hxr, (regionOf_eq_iff hxr hp).mpr (le_antisymm ?_ (Nat.div_le_div_right (by omega)))⟩
  rw [hreg]
  exact Nat.div_le_div_right (by omega)

/-- `load_handler` writes the header and the `n` bytes from `p` on. -/
theorem loadHandler_apply {p : Word} (hx : x ∉ header e)
    (hp : x ∉ range p (N * stackSize + img.enclaveHandler.length)) : loadHandler img m e p x = m x := by
  have hsize := img.size_le
  have hstacks : x ∉ range p (N * stackSize) := fun hr => hp (range_subset_of_le (by omega) hr)
  have hhandler : x ∉ range (off p (N * stackSize)) img.enclaveHandler.length := fun hr =>
    hp (range_off_sub (by omega) (by omega) hr)
  simp only [loadHandler, platformProtectEnclaveSmHandler, ↓Enclave.setLastPhysAddrLoaded,
    ↓Enclave.setFaultPc, ↓Enclave.setInitState, ↓hashExtend_apply hx, ↓Mem.fill_apply_of_notMem hhandler, ↓Enclave.setMeparmask,
    ↓Enclave.setMeparbase, ↓Mem.set, ↓Mem.fill_apply_of_notMem hstacks, ↓Enclave.setFaultSpBase,
    ↓Mem.store32, ↓Mem.store64, ↓header_fill hx, Nat.reduceAdd, Nat.reduceLeDiff]

/-! ### Page tables -/

/-- The index of a virtual address in a table of level `i`. -/
def vpn (va : Word) (i : ℕ) : ℕ := va.toNat / 2 ^ (12 + 9 * i) % 512

theorem vpn_lt (va : Word) (i : ℕ) : vpn va i < 512 := Nat.mod_lt _ (by decide)

theorem pteAddr_eq (base va : Word) (i : ℕ) : pteAddr base va i = off base (8 * vpn va i) := by
  have h : ((va >>> (pageShift + pnOffset * i)) &&& pnMask).toNat = vpn va i := by
    rw [BitVec.toNat_and, show pnMask.toNat = 2 ^ 9 - 1 by decide, Nat.and_two_pow_sub_one_eq_mod,
      BitVec.toNat_ushiftRight, Nat.shiftRight_eq_div_pow]
    rfl
  have hlt := vpn_lt va i
  rw [pteAddr, off]
  congr 1
  apply BitVec.eq_of_toNat_eq
  rw [BitVec.toNat_mul, h, show (BitVec.ofNat 64 pteSize).toNat = 8 by decide, BitVec.toNat_ofNat]
  omega

theorem rootTable_aligned (x : Word) : (rootTable x).toNat % 4096 = 0 := by
  rw [rootTable, BitVec.toNat_shiftLeft, Nat.shiftLeft_eq, show pageShift = 12 from rfl]
  omega

theorem pteTable_aligned (x : Word) : (pteTable x).toNat % 4096 = 0 := by
  rw [pteTable, BitVec.toNat_shiftLeft, Nat.shiftLeft_eq, show pageShift = 12 from rfl]
  omega

variable {d d' : Data N} {va base : Word} {i : ℕ}

/-- The bytes of an owned page are owned. -/
theorem OwnedBy.of_mem {o p : Word} (h : OwnedBy d o p) (hp : p.toNat % 4096 = 0)
    (hx : x ∈ range p 4096) : OwnedBy d o x := by
  have hram := (addrToRegionId_lt p).mp h.1
  rw [mem_range_iff (by omega)] at hx
  have hxr : (addrToRegionId x).toNat < 64 := (addrToRegionId_lt x).mpr (by omega)
  have hreg : regionOf x = regionOf p := (regionOf_eq_iff hxr h.1).mpr (by omega)
  exact ⟨hxr, hreg ▸ h.2⟩

theorem PtePath.owned (h : PtePath d e va i base) : OwnedBy d e base ∧ base.toNat % 4096 = 0 := by
  cases h with
  | root ho => exact ⟨ho, rootTable_aligned _⟩
  | node _ _ ho => exact ⟨ho, pteTable_aligned _⟩

/-- The entry that a walk reaches lies in memory of the enclave. -/
theorem PtePath.slot_owned (h : PtePath d e va i base) {j : ℕ} (hx : x ∈ range (pteAddr base va j) 8) :
    OwnedBy d e x := by
  have hlt := vpn_lt va j
  rw [pteAddr_eq] at hx
  exact h.owned.1.of_mem h.owned.2 (range_off_sub (by omega) (by decide) hx)

/-- A memory effect on the header of `e` and on memory that `e` owns. -/
structure BuildFrame (d : Data N) (e : Word) (d' : Data N) : Prop where
  rest : d' = { d with mem := d'.mem }
  mem : ∀ x, x ∉ header e → ¬ OwnedBy d e x → d'.mem x = d.mem x

theorem EntryLoaded.frame {p v l acl : Word} (h : EntryLoaded d e p v l acl d') :
    BuildFrame d e d' := by
  rcases h with ⟨_, rfl⟩ | ⟨_, base, hpath, rfl⟩
  · exact ⟨rfl, fun x hx _ => header_fill hx (by decide)⟩
  · exact ⟨rfl, fun x _ ho => Mem.fill_apply_of_notMem fun hr => ho (hpath.slot_owned hr)⟩

theorem finishLoadPageTable_apply {p v l acl : Word} (hx : x ∉ header e) :
    finishLoadPageTable m e p v l acl x = m x := by
  simp only [finishLoadPageTable, ↓hashExtend_apply hx, ↓Enclave.setInitState,
    ↓Enclave.setLastPhysAddrLoaded, ↓Mem.store32, ↓Mem.store64, ↓header_fill hx, Nat.reduceAdd,
    Nat.reduceLeDiff]

theorem finishLoadPage_apply {p v o acl : Word} (hx : x ∉ header e) (hp : x ∉ range p pageSize) :
    finishLoadPage m e p v o acl x = m x := by
  simp only [finishLoadPage, ↓hashExtend_apply hx, ↓Mem.copy, ↓Mem.fill_apply_of_notMem hp,
    ↓Enclave.setInitState, ↓Enclave.setLastPhysAddrLoaded, ↓Mem.store32, ↓Mem.store64,
    ↓header_fill hx, Nat.reduceAdd, Nat.reduceLeDiff]

/-- The stacks and the handler lie in the region of the enclave. -/
theorem LoadHandlerGuard.owned_of_mem {p : Word} (h : LoadHandlerGuard img d e p)
    (hx : x ∈ range p (N * stackSize + img.enclaveHandler.length)) : OwnedBy d e x := by
  have hsize := img.size_le
  obtain ⟨hxr, hreg⟩ := region_of_mem_range (by omega) h.owned.1 (by rw [← off_off]; exact h.fits) hx
  exact ⟨hxr, hreg ▸ h.owned.2⟩

theorem loadHandler_frame {p : Word} (h : LoadHandlerGuard img d e p) :
    BuildFrame d e { d with mem := loadHandler img d.mem e p } :=
  ⟨rfl, fun _ hx ho => loadHandler_apply hx fun hr => ho (h.owned_of_mem hr)⟩

theorem loadPageTable_frame {d₁ : Data N} {p v l acl : Word} (h : EntryLoaded d e p v l acl d₁) :
    BuildFrame d e { d₁ with mem := finishLoadPageTable d₁.mem e p v l acl } := by
  refine ⟨?_, fun x hx ho => (finishLoadPageTable_apply hx).trans (h.frame.mem x hx ho)⟩
  rw [h.frame.rest]

theorem loadPage_frame {d₁ : Data N} {p v o l acl : Word} (hp : LoadGuard d e p v)
    (h : EntryLoaded d e p v l acl d₁) :
    BuildFrame d e { d₁ with mem := finishLoadPage d₁.mem e p v o acl } := by
  refine ⟨?_, fun x hx ho => (finishLoadPage_apply hx fun hr => ho ?_).trans (h.frame.mem x hx ho)⟩
  · rw [h.frame.rest]
  · exact hp.owned.of_mem hp.aligned hr

/-! ### The new enclave metadata -/

theorem enclaveMetadata_fill (h : ∀ x ∈ header e, x ∉ range a n) :
    enclaveMetadata (m.fill a n f) e = enclaveMetadata m e :=
  enclaveMetadata_agree (Mem.agreeOn_fill h)

/-- The memory that `e` owns is separate from the header of `e`. -/
def HeaderSep (d : Data N) (e : Word) : Prop := ∀ x ∈ header e, ¬ OwnedBy d e x

theorem EntryLoaded.record {p v l acl : Word} (hsep : HeaderSep d e)
    (h : EntryLoaded d e p v l acl d') : d'.enclave e =
      if l = 3 then { d.enclave e with eptbr := (p >>> pageShift) ||| satpModeSv39 }
      else d.enclave e := by
  rcases h with ⟨hl, rfl⟩ | ⟨hl, base, hpath, rfl⟩
  · rw [if_pos hl]; exact enclaveMetadata_setEptbr ..
  · rw [if_neg hl]
    exact enclaveMetadata_fill fun x hx hr => hsep x hx (hpath.slot_owned hr)

theorem finishLoadPageTable_record {p v l acl : Word} :
    enclaveMetadata (finishLoadPageTable m e p v l acl) e =
      { enclaveMetadata m e with
        initState := enclaveStatePageTablesLoaded
        lastPhysAddrLoaded := p
        hashContext := sha512Update (sha512Update (sha512Update (enclaveMetadata m e).hashContext
          (wordBytes v)) (wordBytes l)) (wordBytes acl) } := by
  simp only [finishLoadPageTable, enclaveMetadata_hashExtend, enclaveMetadata_setInitState,
    enclaveMetadata_setLastPhysAddrLoaded]

theorem memBytes_congr {m m' : Mem} {n : ℕ} (h : ∀ i < n, m (off a i) = m' (off a i)) :
    memBytes m a n = memBytes m' a n :=
  List.map_congr_left fun i hi => h i (List.mem_range.mp hi)

theorem finishLoadPage_record {p v o acl : Word} (hp : ∀ x ∈ header e, x ∉ range p pageSize)
    (ho : ∀ x ∈ header e, x ∉ range o pageSize) (hpo : Sep o pageSize p pageSize) :
    enclaveMetadata (finishLoadPage m e p v o acl) e =
      { enclaveMetadata m e with
        initState := enclaveStatePageDataLoaded
        lastPhysAddrLoaded := off p pageSize
        hashContext := sha512Update (sha512Update (sha512Update (enclaveMetadata m e).hashContext
          (wordBytes v)) (wordBytes acl)) (memBytes m o pageSize) } := by
  -- the last extension reads the OS page, which the call has not changed
  have hbytes (m' : Mem) (h : ∀ x, x ∉ header e → x ∉ range p pageSize → m' x = m x) :
      memBytes m' o pageSize = memBytes m o pageSize := memBytes_congr fun i hi => by
    have hi' : off o i ∈ range o pageSize := mem_range_off hi (by decide)
    exact h _ (fun hx => ho _ hx hi') (hpo _ hi')
  simp only [finishLoadPage, enclaveMetadata_hashExtend, Mem.copy, enclaveMetadata_fill hp,
    enclaveMetadata_setInitState, enclaveMetadata_setLastPhysAddrLoaded]
  rw [hbytes]
  intro x hx hp
  simp only [↓hashExtend_apply hx, ↓Mem.fill_apply_of_notMem hp, ↓Enclave.setInitState,
    ↓Enclave.setLastPhysAddrLoaded, ↓Mem.store32, ↓Mem.store64, ↓header_fill hx, Nat.reduceAdd,
    Nat.reduceLeDiff]

theorem memBytes_fill_list (l : List Byte) (hl : l.length ≤ 2 ^ 64) :
    memBytes (m.fill a l.length fun i => l.getD i 0) a l.length = l := by
  refine List.ext_getElem (by simp [memBytes]) fun i _ hi => ?_
  simp only [memBytes, List.getElem_map, List.getElem_range]
  rw [Mem.fill_off hi hl, List.getD_eq_getElem?_getD, List.getElem?_eq_getElem hi, Option.getD_some]

theorem loadHandler_record {p : Word}
    (hp : ∀ x ∈ header e, x ∉ range p (N * stackSize + img.enclaveHandler.length)) :
    let h := off p (N * stackSize)
    enclaveMetadata (loadHandler img m e p) e =
      { enclaveMetadata m e with
        initState := enclaveStateHandlerLoaded
        lastPhysAddrLoaded := off h img.enclaveHandler.length
        hashContext := sha512Update (enclaveMetadata m e).hashContext img.enclaveHandler
        meparbase := h
        meparmask := handlerMask
        faultPc := h
        faultSpBase := h } := by
  have hsize := img.size_le
  have hstacks : ∀ x ∈ header e, x ∉ range p (N * stackSize) := fun x hx hr => hp x hx <|
    range_subset_of_le (by omega) hr
  have hhandler : ∀ x ∈ header e, x ∉ range (off p (N * stackSize)) img.enclaveHandler.length :=
    fun x hx hr => hp x hx (range_off_sub (by omega) (by omega) hr)
  simp only [loadHandler, platformProtectEnclaveSmHandler, enclaveMetadata_setLastPhysAddrLoaded,
    enclaveMetadata_setFaultPc, enclaveMetadata_setInitState, enclaveMetadata_hashExtend,
    enclaveMetadata_fill hhandler, enclaveMetadata_setMeparmask, enclaveMetadata_setMeparbase,
    Mem.set, enclaveMetadata_fill hstacks, enclaveMetadata_setFaultSpBase,
    memBytes_fill_list _ (by omega : img.enclaveHandler.length ≤ 2 ^ 64)]

theorem initEnclave_record {keys : Keys} :
    let E := enclaveMetadata m e
    let M := (sha512Final E.hashContext).2.getD E.measurement
    let sk := createSecretSigningKey (hashOf₂ (List.ofFn keys.softwareSecretKey) (List.ofFn M))
    let pk := img.computePublicSigningKey sk
    enclaveMetadata (initEnclave img keys m e) e =
      { E with
        initState := enclaveStateInitialized
        hashContext := (sha512Final E.hashContext).1
        measurement := M
        secretKey := sk
        publicKey := pk
        attestation := img.sign (List.ofFn (hashOf₂ (List.ofFn M) (List.ofFn pk)))
          keys.softwarePublicKey keys.softwareSecretKey } := by
  simp only [initEnclave, enclaveMetadata_setInitState, enclaveMetadata_setAttestation,
    enclaveMetadata_setPublicKey, enclaveMetadata_setSecretKey]
  cases (sha512Final (enclaveMetadata m e).hashContext).2 with
  | none => simp only [enclaveMetadata_setHashContext, Option.getD_none]
  | some h =>
    simp only [enclaveMetadata_setMeasurement, enclaveMetadata_setHashContext, Option.getD_some]

end

/-! ## Threads -/

section

theorem eq_of_mem_range_one (h : x ∈ range a 1) : x = a := by
  have h' := off_self_sub a x
  rw [show (x - a).toNat = 0 from Nat.lt_one_iff.mp h, off_zero] at h'
  exact h'.symm

theorem loadThread_apply {pc sp l : Word} (he : x ∉ header e) (ht : x ∉ threadBytes t)
    (hi : x ≠ pageInfoAddr t) : loadThread m e t pc sp l x = m x := by
  have htag : tagPages m t threadMetadataPages .thread x = m x :=
    tagPages_agree (by decide) x fun hr => hi (eq_of_mem_range_one hr)
  simp only [loadThread, ↓hashExtend_apply he, ↓Enclave.setNumThreads, ↓Thread.setTimerLimit,
    ↓Thread.setEntrySp, ↓Thread.setEntryPc, ↓Thread.setOwner, ↓Mem.store64, ↓header_fill he,
    ↓threadBytes_fill ht, Nat.reduceAdd, Nat.reduceLeDiff, htag]

/-- The page of the thread is free and does not overlap the header of the enclave. -/
structure ThreadSep (e t : Word) : Prop where
  header : ∀ x ∈ header e, x ∉ threadBytes t
  info_header : pageInfoAddr t ∉ SecurityMonitor.header e
  info_thread : pageInfoAddr t ∉ threadBytes t

theorem loadThread_tag {pc sp l : Word} (h : ThreadSep e t) :
    loadThread m e t pc sp l (pageInfoAddr t) = MetadataPage.thread.code := by
  have htag : tagPages m t threadMetadataPages .thread (pageInfoAddr t) = MetadataPage.thread.code :=
    tagPages_head (by decide)
  simp only [loadThread, ↓hashExtend_apply h.info_header, ↓Enclave.setNumThreads,
    ↓Thread.setTimerLimit, ↓Thread.setEntrySp, ↓Thread.setEntryPc, ↓Thread.setOwner, ↓Mem.store64,
    ↓header_fill h.info_header, ↓threadBytes_fill h.info_thread, Nat.reduceAdd, Nat.reduceLeDiff,
    htag]

theorem tagPages_thread_agree {A : Set Word} (h : pageInfoAddr t ∉ A) :
    (tagPages m t threadMetadataPages .thread).AgreeOn m A :=
  fun x hx => tagPages_agree (by decide) x fun hr => h (eq_of_mem_range_one hr ▸ hx)

theorem loadThread_record {pc sp l : Word} (h : ThreadSep e t) :
    enclaveMetadata (loadThread m e t pc sp l) e =
      { enclaveMetadata m e with
        numThreads := (enclaveMetadata m e).numThreads + 1
        hashContext := sha512Update (sha512Update (sha512Update (enclaveMetadata m e).hashContext
          (wordBytes pc)) (wordBytes sp)) (wordBytes l) } := by
  have hfill (m : Mem) (k n : ℕ) (f : ℕ → Byte) (hk : k + n ≤ 912) :
      enclaveMetadata (m.fill (off t k) n f) e = enclaveMetadata m e :=
    enclaveMetadata_fill fun x hx hr => h.header x hx (range_off_sub hk (by decide) hr)
  have htag : enclaveMetadata (tagPages m t threadMetadataPages .thread) e = enclaveMetadata m e :=
    enclaveMetadata_agree (tagPages_thread_agree h.info_header)
  simp only [loadThread, enclaveMetadata_hashExtend, enclaveMetadata_setNumThreads,
    Thread.setTimerLimit, Thread.setEntrySp, Thread.setEntryPc, Thread.setOwner, Mem.store64, hfill,
    Nat.reduceAdd, Nat.reduceLeDiff, htag]

theorem loadThread_threadRecord {pc sp l : Word} (h : ThreadSep e t) :
    threadMetadata (loadThread m e t pc sp l) t =
      { threadMetadata m t with owner := e, entryPc := pc, entrySp := sp, timerLimit := l } := by
  have hheader (m' : Mem) (bs : List Byte) :
      threadMetadata (hashExtend m' e bs) t = threadMetadata m' t :=
    threadMetadata_agree fun x hx => hashExtend_apply (fun hr => h.header x hr hx) bs
  have hthreads (m' : Mem) (v : Word) :
      threadMetadata (Enclave.setNumThreads m' e v) t = threadMetadata m' t :=
    threadMetadata_agree fun x hx => header_fill (fun hr => h.header x hr hx) (by decide)
  have htag : threadMetadata (tagPages m t threadMetadataPages .thread) t = threadMetadata m t :=
    threadMetadata_agree (tagPages_thread_agree h.info_thread)
  simp only [loadThread, hheader, hthreads, threadMetadata_setTimerLimit, threadMetadata_setEntrySp,
    threadMetadata_setEntryPc, threadMetadata_setOwner, htag]

/-- Of the enclave, `thread_delete` writes the thread counter only. -/
theorem deleteThread_apply (he : x ∉ range (off (threadMetadata m t).owner 520) 8)
    (ht : x ∉ threadBytes t) (hi : x ≠ pageInfoAddr t) : deleteThread m t x = m x := by
  have hfree (m : Mem) : freePages m t threadMetadataPages x = m x :=
    freePages_agree x fun hr => hi (eq_of_mem_range_one hr)
  simp only [deleteThread, hfree, Mem.set, Mem.fill_apply_of_notMem ht, Enclave.setNumThreads,
    Mem.store64, Mem.fill_apply_of_notMem he]

theorem deleteThread_tag : deleteThread m t (pageInfoAddr t) = MetadataPage.free.code := by
  rw [deleteThread, freePages]
  exact Mem.fill_apply_of_mem (mem_range_self (by decide))

theorem deleteThread_zero (h : pageInfoAddr t ∉ threadBytes t) (hx : x ∈ threadBytes t) :
    deleteThread m t x = 0 := by
  have hfree (m : Mem) : freePages m t threadMetadataPages x = m x :=
    freePages_agree x fun hr => h (eq_of_mem_range_one hr ▸ hx)
  simp only [deleteThread, hfree, Mem.set, Mem.fill_apply_of_mem hx]

theorem deleteThread_record (h : ThreadSep e t) (he : (threadMetadata m t).owner = e) :
    enclaveMetadata (deleteThread m t) e =
      { enclaveMetadata m e with numThreads := (enclaveMetadata m e).numThreads - 1 } := by
  have hfree (m : Mem) :
      enclaveMetadata (freePages m t threadMetadataPages) e = enclaveMetadata m e :=
    enclaveMetadata_agree fun x hx =>
      freePages_agree x fun hr => h.info_header (eq_of_mem_range_one hr ▸ hx)
  simp only [deleteThread, hfree, Mem.set, enclaveMetadata_fill h.header, he,
    enclaveMetadata_setNumThreads]

end

/-! ## Mail -/

section
variable {d : Data N} {owner id sender caller : Word}

/-- The bytes of mailbox `id` of the enclave at `owner`. -/
def mailboxBytes (owner id : Word) : Set Word := range (mailboxAddr owner id) sizeofMailbox

theorem mailbox_fill (hx : x ∉ mailboxBytes owner id) (h : k + n ≤ 336) :
    m.fill (off (mailboxAddr owner id) k) n f x = m x :=
  Mem.fill_apply_of_notMem fun hr => hx (range_off_sub h (by decide) hr)

/-- The mail calls change mailboxes only. -/
structure MailFrame (d : Data N) (owner id : Word) (d' : Data N) : Prop where
  rest : d' = { d with mem := d'.mem, untrustedMailboxes := d'.untrustedMailboxes }
  mem : ∀ x, owner = ownerUntrusted ∨ x ∉ mailboxBytes owner id → d'.mem x = d.mem x

theorem acceptMail_frame : MailFrame d owner id (acceptMail d owner id sender) := by
  unfold acceptMail
  split_ifs with h
  · exact ⟨rfl, fun _ _ => rfl⟩
  · refine ⟨rfl, fun x hx => ?_⟩
    simp only [Mailbox.setExpectedSender, Mailbox.setState, Mem.store64, Mem.store32,
      mailbox_fill (hx.resolve_left h), Nat.reduceAdd, Nat.reduceLeDiff]

theorem receiveMail_frame : MailFrame d owner id (receiveMail d owner id) := by
  unfold receiveMail
  split_ifs with h
  · exact ⟨rfl, fun _ _ => rfl⟩
  · exact ⟨rfl, fun x hx => mailbox_fill (hx.resolve_left h) (by decide)⟩

theorem sendMail_frame {message : Bytes 256} :
    MailFrame d owner id (sendMail d caller owner id message) := by
  unfold sendMail
  split_ifs with h
  · exact ⟨rfl, fun _ _ => rfl⟩
  · refine ⟨rfl, fun x hx => ?_⟩
    simp only [Mailbox.setSenderMeasurement, Mailbox.setMessage, Mailbox.setState, Mem.storeBytes,
      Mem.store32, mailbox_fill (hx.resolve_left h), Nat.reduceAdd, Nat.reduceLeDiff]

end

/-! ## Enter and exit -/

section
variable {d : Data N} {img : Image N} {c : Fin N} {ctx : TrapContext}

theorem saveUntrusted_apply (hx : x ∉ threadBytes t) : saveUntrusted img m c t ctx x = m x := by
  simp only [saveUntrusted]
  split_ifs <;>
  simp only [Thread.setAexPresent, Thread.setUntrustedFaultSp, Thread.setUntrustedFaultPc,
    Thread.setUntrustedPc, Thread.setUntrustedState, Mem.store8, Mem.store64, Mem.storeWords,
    threadBytes_fill hx, Nat.reduceAdd, Nat.reduceLeDiff, Nat.reduceMul]

theorem enterEnclave_apply (hx : x ∉ threadBytes t) :
    (enterEnclave img d c e t ctx).mem x = d.mem x := by
  simp only [enterEnclave, platformInterruptsEnterEnclave, platformMemoryProtectionEnterEnclave,
    platformSetEnclavePageTable, Data.setHart, Data.setCore, Thread.setMedeleg, Thread.setMideleg,
    Thread.setMie, Thread.setMeparmask, Thread.setMeparbase, Thread.setMemrbm, Thread.setEvMask,
    Thread.setEvBase, Thread.setEptbr, Mem.store64, threadBytes_fill hx, Nat.reduceAdd,
    Nat.reduceLeDiff, saveUntrusted_apply hx]

theorem saveUntrusted_thread : threadMetadata (saveUntrusted img m c t ctx) t =
    { threadMetadata m t with
      untrustedPc := ctx.mepc
      untrustedState := ctx.regs
      untrustedFaultPc := img.trapVectorFromUntrusted &&& ~~~3
      untrustedFaultSp := untrustedFaultSpOf img c
      aexPresent := 0 } := by
  simp only [saveUntrusted]
  split_ifs with h
  · simp only [threadMetadata_setAexPresent, threadMetadata_setUntrustedFaultSp,
      threadMetadata_setUntrustedFaultPc, threadMetadata_setUntrustedPc,
      threadMetadata_setUntrustedState, Bool.false_eq_true, if_false]
  · have h0 : (threadMetadata m t).aexPresent = 0 := by simpa using h
    simp only [threadMetadata_setUntrustedFaultSp, threadMetadata_setUntrustedFaultPc,
      threadMetadata_setUntrustedPc, threadMetadata_setUntrustedState, h0]

/-- The thread after an entry holds what the exit restores. -/
theorem enterEnclave_thread : (enterEnclave img d c e t ctx).thread t =
    { d.thread t with
      untrustedPc := ctx.mepc
      untrustedState := ctx.regs
      untrustedFaultPc := img.trapVectorFromUntrusted &&& ~~~3
      untrustedFaultSp := untrustedFaultSpOf img c
      aexPresent := 0
      evBase := (d.harts c).mevbase
      evMask := (d.harts c).mevmask
      memrbm := (d.harts c).memrbm
      meparbase := (d.harts c).meparbase
      meparmask := (d.harts c).meparmask
      eptbr := (d.harts c).meatp
      mie := (d.harts c).mie
      mideleg := (d.harts c).mideleg
      medeleg := (d.harts c).medeleg } := by
  simp only [enterEnclave, platformInterruptsEnterEnclave, platformMemoryProtectionEnterEnclave,
    platformSetEnclavePageTable, Data.setHart, Data.setCore, Data.thread, threadMetadata_setMedeleg,
    threadMetadata_setMideleg, threadMetadata_setMie, threadMetadata_setMeparmask,
    threadMetadata_setMeparbase, threadMetadata_setMemrbm, threadMetadata_setEvMask,
    threadMetadata_setEvBase, threadMetadata_setEptbr, saveUntrusted_thread, Function.update_self]

/-- The control registers of the core after an entry. -/
def enterHart (d : Data N) (c : Fin N) (e t : Word) (ctx : TrapContext) : Hart :=
  let E := d.enclave e
  let T := d.thread t
  { d.harts c with
    mstatus := mstatusForSMode (d.harts c).mstatus
    regs := fun i => if T.aexPresent != 0 then T.aexState i else 0
    meatp := E.eptbr
    mevbase := E.evBase
    mevmask := E.evMask
    memrbm := regionsToBitmap E.flag
    meparbase := E.meparbase
    meparmask := E.meparmask
    mie := mipMtip
    mideleg := 0
    medeleg := 0
    mtvec := E.faultPc
    mepc := T.entryPc
    mscratch := E.faultSpBase - BitVec.ofNat 64 (c * stackSize) - BitVec.ofNat 64 integerContextSize
    timecmp := ctx.mtime + T.timerLimit }

theorem enterHart_bits : (enterHart d c e t ctx).mmrbm = (d.harts c).mmrbm ∧
    (enterHart d c e t ctx).memrbm = regionsToBitmap (d.enclave e).flag := by
  simp only [enterHart, and_self]

theorem enterEnclave_eq (h : ∀ x ∈ header e, x ∉ threadBytes t) :
    enterEnclave img d c e t ctx =
      { d with
        mem := (enterEnclave img d c e t ctx).mem
        cores := Function.update d.cores c
          { d.cores c with
            owner := e
            thread := t
            memrbm := regionsToBitmap (d.enclave e).flag }
        harts := Function.update d.harts c (enterHart d c e t ctx) } := by
  have hfill (m : Mem) (k n : ℕ) (f : ℕ → Byte) (hk : k + n ≤ 912) :
      enclaveMetadata (m.fill (off t k) n f) e = enclaveMetadata m e :=
    enclaveMetadata_fill fun x hx hr => h x hx (range_off_sub hk (by decide) hr)
  -- none of the writes to the thread changes the enclave
  have h₀ : enclaveMetadata (saveUntrusted img d.mem c t ctx) e = enclaveMetadata d.mem e :=
    enclaveMetadata_agree fun x hx => saveUntrusted_apply (h x hx)
  have h₁ m v : enclaveMetadata (Thread.setEptbr m t v) e = enclaveMetadata m e :=
    hfill m 880 8 _ (by decide)
  have h₂ m v : enclaveMetadata (Thread.setEvBase m t v) e = enclaveMetadata m e :=
    hfill m 840 8 _ (by decide)
  have h₃ m v : enclaveMetadata (Thread.setEvMask m t v) e = enclaveMetadata m e :=
    hfill m 848 8 _ (by decide)
  have h₄ m v : enclaveMetadata (Thread.setMemrbm m t v) e = enclaveMetadata m e :=
    hfill m 856 8 _ (by decide)
  have h₅ m v : enclaveMetadata (Thread.setMeparbase m t v) e = enclaveMetadata m e :=
    hfill m 864 8 _ (by decide)
  have h₆ m v : enclaveMetadata (Thread.setMeparmask m t v) e = enclaveMetadata m e :=
    hfill m 872 8 _ (by decide)
  have h₇ m v : enclaveMetadata (Thread.setMie m t v) e = enclaveMetadata m e :=
    hfill m 888 8 _ (by decide)
  have h₈ m v : enclaveMetadata (Thread.setMideleg m t v) e = enclaveMetadata m e :=
    hfill m 896 8 _ (by decide)
  have h₉ m v : enclaveMetadata (Thread.setMedeleg m t v) e = enclaveMetadata m e :=
    hfill m 904 8 _ (by decide)
  simp only [enterEnclave, enterHart, platformInterruptsEnterEnclave,
    platformMemoryProtectionEnterEnclave, platformSetEnclavePageTable, Data.setHart, Data.setCore,
    Data.enclave, Data.thread, h₀, h₁, h₂, h₃, h₄, h₅, h₆, h₇, h₈, h₉, saveUntrusted_thread,
    threadMetadata_setMedeleg, threadMetadata_setMideleg, threadMetadata_setMie,
    threadMetadata_setMeparmask, threadMetadata_setMeparbase, threadMetadata_setMemrbm,
    threadMetadata_setEvMask, threadMetadata_setEvBase, threadMetadata_setEptbr,
    Function.update_self, Function.update_idem]

theorem enterEnclave_cores (h : ∀ x ∈ header e, x ∉ threadBytes t) :
    (enterEnclave img d c e t ctx).cores = Function.update d.cores c
      { d.cores c with owner := e, thread := t, memrbm := regionsToBitmap (d.enclave e).flag } := by
  rw [enterEnclave_eq h]

theorem enterEnclave_harts (h : ∀ x ∈ header e, x ∉ threadBytes t) :
    (enterEnclave img d c e t ctx).harts = Function.update d.harts c (enterHart d c e t ctx) := by
  rw [enterEnclave_eq h]

theorem pushUntrustedState_apply {sp : Word} (hx : x ∉ range sp integerContextSize) :
    pushUntrustedState m t sp x = m x := by
  have hstep : ∀ (l : List (Fin 32)) (m : Mem), l.foldl
      (fun m (i : Fin 32) => m.store64 (off sp (8 * i)) (m.load64 (off t (40 + 8 * i)))) m x = m x := by
    intro l
    induction l with
    | nil => intro m; rfl
    | cons i l ih =>
      intro m
      rw [List.foldl_cons, ih]
      exact Mem.fill_apply_of_notMem fun hr => hx (range_off_sub
        (by have := i.isLt; show 8 * i.val + 8 ≤ 256; omega) (by decide) hr)
  rw [pushUntrustedState]
  exact hstep _ m

/-- The control registers of the core after an exit. -/
def exitHart (d : Data N) (c : Fin N) (regs : Fin 32 → Word) : Hart :=
  let T := d.thread (d.cores c).thread
  { d.harts c with
    mstatus := mstatusForSMode (d.harts c).mstatus
    mevbase := T.evBase
    mevmask := T.evMask
    memrbm := T.memrbm
    meparbase := T.meparbase
    meparmask := T.meparmask
    meatp := T.eptbr
    mie := T.mie
    mideleg := T.mideleg
    medeleg := T.medeleg
    mepc := T.untrustedPc
    mtvec := T.untrustedFaultPc
    regs := regs }

theorem exitHart_bits {regs : Fin 32 → Word} : (exitHart d c regs).mmrbm = (d.harts c).mmrbm ∧
    (exitHart d c regs).memrbm = (d.thread (d.cores c).thread).memrbm := by
  simp only [exitHart, and_self]

theorem exitEnclave_eq {aex : Bool} : exitEnclave d c aex =
    let T := d.thread (d.cores c).thread
    let m := pushUntrustedState (Thread.setAexPresent d.mem (d.cores c).thread aex) (d.cores c).thread
      T.untrustedFaultSp
    { d with
      mem := m
      cores := Function.update d.cores c
        { d.cores c with owner := ownerUntrusted, thread := 0, memrbm := T.memrbm }
      harts := Function.update d.harts c (exitHart d c (m.loadWords T.untrustedFaultSp 32)) } := by
  simp only [exitEnclave, exitHart, platformInterruptsExitEnclave, platformRestoreUntrustedPageTable,
    platformMemoryProtectionExitEnclave, Data.setHart, Data.setCore, Data.thread,
    threadMetadata_setAexPresent, Function.update_self, Function.update_idem]

theorem exitEnclave_cores {aex : Bool} : (exitEnclave d c aex).cores = Function.update d.cores c
    { d.cores c with
      owner := ownerUntrusted
      thread := 0
      memrbm := (d.thread (d.cores c).thread).memrbm } := by
  rw [exitEnclave_eq]

theorem exitEnclave_harts (aex : Bool) : ∃ regs,
    (exitEnclave d c aex).harts = Function.update d.harts c (exitHart d c regs) := by
  rw [exitEnclave_eq]
  exact ⟨_, rfl⟩

theorem exitEnclave_apply {aex : Bool} (ht : x ∉ threadBytes (d.cores c).thread)
    (hsp : x ∉ range (d.thread (d.cores c).thread).untrustedFaultSp integerContextSize) :
    (exitEnclave d c aex).mem x = d.mem x := by
  rw [exitEnclave_eq]
  refine (pushUntrustedState_apply hsp).trans ?_
  rw [Thread.setAexPresent, Mem.store8, threadBytes_fill ht (by decide)]

end

/-! ## Delete -/

section
variable {d : Data N}

/-- The first region in the map of the enclave at `e`. -/
def firstRegion (d : Data N) (e : Word) : Option (Fin 64) :=
  (List.finRange 64).find? (d.enclave e).flag

/-- The effect of the first iteration that finds a region: the region `i` is blocked, and the
    region that holds the metadata of `e` is cleared. -/
def wipeRegion (d : Data N) (e : Word) (i : Fin 64) : Data N :=
  { d.setRegion i { d.regions i with state := .blocked, owner := ownerSm } with
    mem := d.mem.set (regionIdToAddr (addrToRegionId e)) regionSize 0 }

/-- The header of an aligned address lies in its region. -/
theorem header_region (ha : isPageAligned e = true) (hr : (addrToRegionId e).toNat < 64)
    (hx : x ∈ header e) : (addrToRegionId x).toNat < 64 ∧ regionOf x = regionOf e :=
  region_of_mem_page ha hr (range_subset_of_le (by decide) hx)

theorem wipeRegion_mem {i : Fin 64} : (wipeRegion d e i).mem =
    d.mem.fill (regionIdToAddr (addrToRegionId e)) regionSize fun _ => 0 := rfl

theorem wipeRegion_zero {i : Fin 64} (he : (addrToRegionId e).toNat < 64)
    (hx : (addrToRegionId x).toNat < 64) (h : regionOf x = regionOf e) :
    (wipeRegion d e i).mem x = 0 := by
  rw [wipeRegion_mem, Mem.fill_apply_of_mem ((mem_region_iff he).mpr ⟨hx, h⟩)]

/-- The metadata of the enclave is cleared too. -/
theorem wipeRegion_header {i : Fin 64} (ha : isPageAligned e = true)
    (he : (addrToRegionId e).toNat < 64) {k : ℕ} (hk : k < 592) :
    (wipeRegion d e i).mem (off e k) = 0 := by
  obtain ⟨hx, hreg⟩ := header_region ha he (x := off e k) (mem_range_off hk (by decide))
  exact wipeRegion_zero he hx hreg

theorem wipeRegion_flag {i j : Fin 64} (ha : isPageAligned e = true)
    (he : (addrToRegionId e).toNat < 64) : ((wipeRegion d e i).enclave e).flag j = false := by
  have hzero : ((wipeRegion d e i).enclave e).regions j = 0 := by
    show (wipeRegion d e i).mem (off (off e 528) j) = 0
    rw [off_off]
    exact wipeRegion_header ha he (by have := j.isLt; omega)
  simp [EnclaveMetadata.flag, hzero]

theorem foldl_blockEnclaveRegion (ha : isPageAligned e = true) (he : (addrToRegionId e).toNat < 64) :
    ∀ (l : List (Fin 64)) (d : Data N), l.foldl (blockEnclaveRegion e) d =
      match l.find? (d.enclave e).flag with
      | none => d
      | some i => wipeRegion d e i
  | [], d => rfl
  | i :: l, d => by
    rw [List.foldl_cons, foldl_blockEnclaveRegion ha he l, List.find?_cons, blockEnclaveRegion]
    cases hf : (d.enclave e).flag i with
    | false => simp only [Bool.false_eq_true, if_false]
    | true =>
      -- the wipe erased the map that the loop goes through
      have hnone : l.find? ((wipeRegion d e i).enclave e).flag = none :=
        List.find?_eq_none.mpr fun j _ => by rw [wipeRegion_flag ha he]; exact Bool.false_ne_true
      simp only [if_true]
      show (match l.find? ((wipeRegion d e i).enclave e).flag with
        | none => wipeRegion d e i
        | some j => wipeRegion (wipeRegion d e i) e j) = _
      rw [hnone]

theorem deleteEnclave_of_none (ha : isPageAligned e = true) (he : (addrToRegionId e).toNat < 64)
    (h : firstRegion d e = none) :
    let pages := enclaveMetadataPages (d.enclave e).numMailboxes
    deleteEnclave d e = { d with
      mem := (freePages d.mem e pages).set e (pages * BitVec.ofNat 64 pageSize).toNat 0 } := by
  rw [firstRegion] at h
  simp only [deleteEnclave, foldl_blockEnclaveRegion ha he, h]

theorem deleteEnclave_of_some {i : Fin 64} (ha : isPageAligned e = true)
    (he : (addrToRegionId e).toNat < 64) (h : firstRegion d e = some i) :
    deleteEnclave d e = { wipeRegion d e i with
      mem := (freePages (wipeRegion d e i).mem e 1).set e pageSize 0 } := by
  rw [firstRegion] at h
  have hn : ((wipeRegion d e i).enclave e).numMailboxes = 0 := Mem.load64_eq_zero fun j hj => by
    rw [off_off]
    exact wipeRegion_header ha he (by omega)
  simp only [deleteEnclave, foldl_blockEnclaveRegion ha he, h, hn]
  rfl

end

end SecurityMonitor
