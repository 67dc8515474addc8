/-
  What a successful call does to the metadata of the enclaves, and that it keeps
  the invariant of the metadata pages.

  `changeRecord img d c f k` is what the call `k` of core `c` does to the metadata
  of the enclave at `f`.  `effect_records` says that this is so for every enclave
  that existed or ran before and does so after, except for those whose metadata
  `enclave_delete` has cleared.
-/
import SecurityMonitor.Isolation
import SecurityMonitor.Effect

namespace SecurityMonitor

open ByteMem

variable {N : ℕ} {img : Image N} {d d' : Data N} {e f t x : Word} {c : Fin N} {k : Call}
  {L : LockId N → Bool} {ctx : TrapContext}

/-! ## New metadata -/

def loadHandlerRecord (img : Image N) (p : Word) (E : EnclaveMetadata) : EnclaveMetadata :=
  { E with
    initState := enclaveStateHandlerLoaded
    lastPhysAddrLoaded := off (off p (N * stackSize)) img.enclaveHandler.length
    hashContext := sha512Update E.hashContext img.enclaveHandler
    meparbase := off p (N * stackSize)
    meparmask := handlerMask
    faultPc := off p (N * stackSize)
    faultSpBase := off p (N * stackSize) }

def loadPageTableRecord (p v l acl : Word) (E : EnclaveMetadata) : EnclaveMetadata :=
  { E with
    initState := enclaveStatePageTablesLoaded
    lastPhysAddrLoaded := p
    eptbr := if l = 3 then (p >>> pageShift) ||| satpModeSv39 else E.eptbr
    hashContext := sha512Update (sha512Update (sha512Update E.hashContext (wordBytes v))
      (wordBytes l)) (wordBytes acl) }

def loadPageRecord (p v acl : Word) (contents : List Byte) (E : EnclaveMetadata) : EnclaveMetadata :=
  { E with
    initState := enclaveStatePageDataLoaded
    lastPhysAddrLoaded := off p pageSize
    hashContext := sha512Update (sha512Update (sha512Update E.hashContext (wordBytes v))
      (wordBytes acl)) contents }

def loadThreadRecord (pc sp l : Word) (E : EnclaveMetadata) : EnclaveMetadata :=
  { E with
    numThreads := E.numThreads + 1
    hashContext := sha512Update (sha512Update (sha512Update E.hashContext (wordBytes pc))
      (wordBytes sp)) (wordBytes l) }

def initRecord (img : Image N) (keys : Keys) (E : EnclaveMetadata) : EnclaveMetadata :=
  let M := (sha512Final E.hashContext).2.getD E.measurement
  let sk := createSecretSigningKey (hashOf₂ (List.ofFn keys.softwareSecretKey) (List.ofFn M))
  let pk := img.computePublicSigningKey sk
  { E with
    initState := enclaveStateInitialized
    hashContext := (sha512Final E.hashContext).1
    measurement := M
    secretKey := sk
    publicKey := pk
    attestation := img.sign (List.ofFn (hashOf₂ (List.ofFn M) (List.ofFn pk)))
      keys.softwarePublicKey keys.softwareSecretKey }

/-- The change that the call `k` of core `c` makes to the metadata of the enclave at `f`. -/
def changeRecord (img : Image N) (d : Data N) (c : Fin N) (f : Word) :
    Call → EnclaveMetadata → EnclaveMetadata
  | .enclaveInit e => if f = e then initRecord img d.keys else id
  | .enclaveLoadHandler e p => if f = e then loadHandlerRecord img p else id
  | .enclaveLoadPageTable e p v l acl => if f = e then loadPageTableRecord p v l acl else id
  | .enclaveLoadPage e p v o acl =>
    if f = e then loadPageRecord p v acl (memBytes d.mem o pageSize) else id
  | .threadLoad e _ pc sp l => if f = e then loadThreadRecord pc sp l else id
  | .threadDelete t =>
    if f = (d.thread t).owner then fun E => { E with numThreads := E.numThreads - 1 } else id
  | .regionAssign r o =>
    if f = o then fun E => { E with regions := Function.update E.regions (toRegion r) 1 } else id
  | .regionBlock r =>
    if f = (d.cores c).owner then fun E => { E with regions := Function.update E.regions (toRegion r) 0 }
    else id
  | _ => id

/-! ## The calls -/

theorem ne_initialized : enclaveStateCreated ≠ enclaveStateInitialized ∧
    enclaveStateHandlerLoaded ≠ enclaveStateInitialized ∧
    enclaveStatePageTablesLoaded ≠ enclaveStateInitialized ∧
    enclaveStatePageDataLoaded ≠ enclaveStateInitialized := by decide

/-- What the calls do not check: the size of new metadata does not wrap, and a thread is
    not deleted while a core runs it. -/
def CallCareful (d : Data N) : Call → Prop
  | .enclaveCreate _ _ _ n _ => NoWrap n
  | .threadDelete t => NotRunning d t
  | _ => True

/-- The metadata of a new enclave. -/
structure NewRecord (b mask n : Word) (debug : Bool) (E : EnclaveMetadata) : Prop where
  state : E.initState = enclaveStateCreated
  absorbed : Absorbed E.hashContext
    (wordBytes b ++ wordBytes mask ++ wordBytes n ++ [if debug then 1 else 0])
  map : ∀ i, E.flag i = false

/-- The call creates an enclave at `f`. -/
def CreatedBy : Call → Word → EnclaveMetadata → Prop
  | .enclaveCreate e b mask n debug, f, E => f = e ∧ NewRecord b mask n debug E
  | _, _, _ => False

/-- The step keeps the invariant of the pages, changes the metadata of the enclaves that
    are left by `g`, and every enclave that comes into being is described by `new`. -/
structure Records (img : Image N) (d d' : Data N) (g : Word → EnclaveMetadata → EnclaveMetadata)
    (new : Word → EnclaveMetadata → Prop) : Prop where
  heap : HeapInv img d'
  running : ∀ c, (d'.cores c).owner ≠ ownerUntrusted → LiveOrRunning d (d'.cores c).owner
  live : ∀ f, ValidMetadata d' f .enclave → ValidMetadata d f .enclave ∨ new f (d'.enclave f)
  record : ∀ f, LiveOrRunning d f → LiveOrRunning d' f → d'.enclave f = g f (d.enclave f) ∨
    Dead d' f ∧ ∀ i, (d'.enclave f).flag i = false

section
variable {g : Word → EnclaveMetadata → EnclaveMetadata} {new : Word → EnclaveMetadata → Prop}

theorem KeepsHeap.records (hk : KeepsHeap img d d') (h : HeapInv img d)
    (hg : ∀ f, EnclaveOrDead d f → (∀ c, (d.cores c).owner ≠ ownerUntrusted → f ≠ (d.cores c).thread) →
      d'.enclave f = g f (d.enclave f)) : Records img d d' g new where
  heap := hk.heapInv h
  running c hc := by
    rcases hk.cores c hc with ⟨ho, -⟩ | he
    · exact .inr ⟨hc, c, ho.symm⟩
    · exact .inl he.enclave
  live f hv := .inl (hk.valid_iff.mp hv)
  record f hf _ := by
    refine .inl (hg f (hf.enclaveOrDead h) fun c hc hft => ?_)
    rcases hf with hv | ⟨hne, c', rfl⟩
    · exact (h.running c hc).2.ne_of_enclave hv hft
    · exact h.distinct c' c hne hc hft

/-- A step that writes no metadata page. -/
theorem AgreesOutside.records_empty (ha : AgreesOutside d d' ∅) (h : HeapInv img d)
    (hcores : SameRunning d d') : Records img d d' (fun _ => id) new :=
  (ha.keepsHeap_empty h hcores).records h fun f hf _ =>
    ha.enclave_eq hf.page (hf.slot h) (Set.notMem_empty f)

theorem records_of_mem (h : HeapInv img d) (hmem : d'.mem = d.mem) (hregions : d'.regions = d.regions)
    (hcores : SameRunning d d') : Records img d d' (fun _ => id) new :=
  (agreesOutside_of_regions hmem fun _ => by rw [hregions]).records_empty h hcores

/-- A step that writes the header of one enclave only. -/
theorem AgreesOutside.records_header (ha : AgreesOutside d d' {e}) (h : HeapInv img d)
    (he : ValidMetadata d e .enclave) (hcores : SameRunning d d') {r : EnclaveMetadata → EnclaveMetadata}
    (hr : d'.enclave e = r (d.enclave e))
    (hmail : (r (d.enclave e)).numMailboxes = (d.enclave e).numMailboxes)
    (hthreads : (r (d.enclave e)).numThreads = (d.enclave e).numThreads)
    (hinit : (d.enclave e).initState = enclaveStateInitialized →
      (r (d.enclave e)).initState = enclaveStateInitialized) :
    Records img d d' (fun f => if f = e then r else id) new := by
  have hself : {e} ⊆ {a | InExtent d e a} := by
    rintro _ rfl; exact inExtent_self (h.size _ he).1
  refine ((ha.mono hself).keepsHeap_extent h he (by rw [hr]; exact hmail) (by rw [hr]; exact hthreads)
    (by rw [hr]; exact hinit) hcores).records h fun f hE _ => ?_
  by_cases hfe : f = e
  · rw [hfe, if_pos rfl, hr]
  · rw [if_neg hfe]
    exact ha.enclave_eq hE.page (hE.slot h) hfe

theorem MailFrame.records {owner box : Word} (hf : MailFrame d owner box d') (h : HeapInv img d)
    (ho : owner = ownerUntrusted ∨ EnclaveOrDead d owner) (hid : MailboxId d owner box) :
    Records img d d' (fun _ => id) new := by
  refine (hf.keepsHeap h ho hid).records h fun f hE _ => ?_
  by_cases hu : owner = ownerUntrusted
  · exact enclaveMetadata_agree fun x _ => hf.mem x (.inl hu)
  · rcases ho.resolve_left hu with hv | hd
    · rw [MailboxId, if_neg hu] at hid
      by_cases hfo : f = owner
      · rw [hfo]; exact hf.enclave_eq h hv hid
      · exact (hf.agreesOutside h hv hid).enclave_eq hE.page (hE.slot h) (hE.notInExtent h hv hfo)
    · rw [MailboxId, if_neg hu, Data.enclave, (h.dead _ hd).numMailboxes] at hid
      exact absurd hid BitVec.not_lt_zero

theorem PageStep.records {o : Word} {k k' : MetadataPage} (hp : PageStep d d' o t k k')
    (h : HeapInv img d) (h' : HeapInv img d') {r : EnclaveMetadata → EnclaveMetadata}
    (hr : d'.enclave o = r (d.enclave o)) :
    Records img d d' (fun f => if f = o then r else id) new where
  heap := h'
  running c hc := .inr ⟨hc, c, (hp.cores c).1.symm⟩
  live f hv := by
    have hft : f ≠ t := by rintro rfl; exact absurd (hp.kind_eq' hv) (by decide)
    exact .inl ((hp.kept h hft _).mp hv)
  record f hf _ := by
    refine .inl ?_
    by_cases hfo : f = o
    · rw [hfo, if_pos rfl, hr]
    · rw [if_neg hfo]
      exact hp.enclave_eq h (hf.enclaveOrDead h) hfo

theorem Clears.records {S : Set Word} (hc : Clears d d' S) (h : HeapInv img d) :
    Records img d d' (fun _ => id) new where
  heap := hc.heapInv h
  running c hu := .inr ⟨hu, c, (hc.cores c).1.symm⟩
  live f hv := .inl ((hc.kept f (fun hS => hc.notEnclave hS hv) _).mp hv)
  record f hf hf' := by
    have hE := hf.enclaveOrDead h
    by_cases hS : f ∈ S
    · -- what is cleared and still there is run by a core, and dead
      obtain ⟨-, c, hc'⟩ := hf'.resolve_left (hc.notEnclave hS)
      have hd := hc.owners f hS (.inl ⟨c, (hc.cores c).1.symm.trans hc'⟩) hE
      refine .inr ⟨hd, fun i => ?_⟩
      have hzero : (d'.enclave f).regions i = 0 := by
        show d'.mem (off (off f 528) i) = 0
        rw [off_off]
        exact hc.zero f hS hd.slot _ (mem_range_off (by have := i.isLt; omega) (by decide))
      simp [EnclaveMetadata.flag, hzero]
    · exact .inl (enclaveMetadata_agree fun x hx =>
        hc.content f hS hE.page (hE.slot h) x (header_subset f hx))

end

/-! ### Create and load -/

section
variable {b mask n : Word} {debug : Bool}

theorem createContext_absorbed (H : HashContext) : Absorbed (createContext H b mask n debug)
    (wordBytes b ++ wordBytes mask ++ wordBytes n ++ [if debug then 1 else 0]) :=
  ((((absorbed_init H).update _).update _).update _).update _

theorem newRecord_create (h : HeapInv img d) (hf : FreeSpace d e (enclaveMetadataPages n).toNat) :
    NewRecord b mask n debug (enclaveMetadata (createEnclave d.mem e b mask n debug) e) where
  state := by rw [createEnclave_record]
  absorbed := by
    have hctx : (enclaveMetadata (createEnclave d.mem e b mask n debug) e).hashContext =
        createContext (enclaveMetadata (tagPages d.mem e (enclaveMetadataPages n) .enclave) e).hashContext
          b mask n debug := by rw [createEnclave_record]
    rw [hctx]
    exact createContext_absorbed _
  map i := by simp [EnclaveMetadata.flag, (create_record h hf).2.2 i]

theorem createEnclave_records (h : HeapInv img d) (hw : NoWrap n)
    (hf : FreeSpace d e (enclaveMetadataPages n).toNat) :
    Records img d { d with mem := createEnclave d.mem e b mask n debug } (fun _ => id)
      (CreatedBy (.enclaveCreate e b mask n debug)) := by
  have hr : Retags img d { d with mem := createEnclave d.mem e b mask n debug } _ _ :=
    create_retags h hw hf
  have h' : HeapInv img { d with mem := createEnclave d.mem e b mask n debug } :=
    createEnclave_heapInv h hw hf
  generalize hd' : ({ d with mem := createEnclave d.mem e b mask n debug } : Data N) = d' at hr h' ⊢
  have hmem : d'.mem = createEnclave d.mem e b mask n debug := by rw [← hd']
  refine ⟨h', fun c hc => .inr ⟨hc, c, (hr.cores c).1.symm⟩, fun f hv => ?_, fun f hf' _ => ?_⟩
  · by_cases hS : f ∈ pagesFrom e (enclaveMetadataPages n).toNat
    · have htag := hv.tag
      rw [pageTag_eq, hmem, create_pageTag hf hS] at htag
      have hfe : f = e := by
        by_contra hne
        rw [if_neg hne] at htag
        exact absurd htag (by decide)
      refine .inr ⟨hfe, ?_⟩
      rw [Data.enclave, hmem, hfe]
      exact newRecord_create h hf
    · exact .inl ((hr.kept f hS _).mp hv)
  · have hE := hf'.enclaveOrDead h
    have hfe : f ≠ e := by
      rintro rfl
      exact not_enclaveOrDead_of_free (hf.free f ⟨0, hf.pos, by simp⟩) hE
    refine .inl (enclaveMetadata_agree fun x hx => ?_)
    rw [hmem]
    exact create_content hf (hE.slot h) hfe (header_subset f hx)

end

section
variable {p v l o acl : Word}

/-- A build step that changes the metadata of its enclave by `r`. -/
theorem BuildFrame.records {new : Word → EnclaveMetadata → Prop} (hf : BuildFrame d e d')
    (h : HeapInv img d) (hm : MetadataOwned d) (he : ValidMetadata d e .enclave)
    {r : EnclaveMetadata → EnclaveMetadata} (hr : d'.enclave e = r (d.enclave e))
    (hmail : (r (d.enclave e)).numMailboxes = (d.enclave e).numMailboxes)
    (hthreads : (r (d.enclave e)).numThreads = (d.enclave e).numThreads)
    (hinit : (d.enclave e).initState = enclaveStateInitialized →
      (r (d.enclave e)).initState = enclaveStateInitialized) :
    Records img d d' (fun f => if f = e then r else id) new :=
  (hf.agreesOutside hm (h.slot e _ he (by decide))).records_header h he
    (fun c => by rw [hf.rest]; exact ⟨rfl, rfl⟩) hr hmail hthreads hinit

theorem initEnclave_frame : BuildFrame d e { d with mem := initEnclave img d.keys d.mem e } := by
  have h : (initEnclave img d.keys d.mem e).AgreeOn d.mem (header e)ᶜ := initEnclave_agree
  exact ⟨rfl, fun x hx _ => h x hx⟩

theorem initEnclave_enclave : ({ d with mem := initEnclave img d.keys d.mem e } : Data N).enclave e =
    initRecord img d.keys (d.enclave e) := by
  rw [Data.enclave, initEnclave_record]
  rfl

theorem loadHandler_enclave (hg : LoadHandlerGuard img d e p) (hm : MetadataOwned d) :
    enclaveMetadata (loadHandler img d.mem e p) e = loadHandlerRecord img p (d.enclave e) := by
  have hsize := img.size_le
  have hsep := hg.enclave.toMetadataPageAt.headerSep hm
  refine loadHandler_record fun x hx hr => hsep x hx ?_
  obtain ⟨hxr, hreg⟩ := region_of_mem_range (by omega) hg.owned.1 (by rw [← off_off]; exact hg.fits) hr
  exact ⟨hxr, hreg ▸ hg.owned.2⟩

theorem loadPageTable_enclave {d₁ : Data N} (hg : LoadGuard d e p v) (hm : MetadataOwned d)
    (h₁ : EntryLoaded d e p v l acl d₁) :
    enclaveMetadata (finishLoadPageTable d₁.mem e p v l acl) e =
      loadPageTableRecord p v l acl (d.enclave e) := by
  have hrec := h₁.record (hg.enclave.toMetadataPageAt.headerSep hm)
  rw [finishLoadPageTable_record, show enclaveMetadata d₁.mem e = d₁.enclave e from rfl, hrec]
  unfold loadPageTableRecord
  split_ifs <;> rfl

/-- The OS page is no memory of the enclave. -/
theorem LoadPageGuard.os_not_owned (hg : LoadPageGuard d e p v o acl) (hx : x ∈ range o pageSize) :
    ¬ OwnedBy d e x := fun ho => by
  have hne : e ≠ ownerUntrusted := by
    rintro rfl; exact absurd hg.enclave.aligned (by decide)
  exact hne (ho.2.symm.trans (hg.osOwned.of_mem hg.osAligned hx).2)

theorem loadPage_enclave {d₁ : Data N} (hg : LoadPageGuard d e p v o acl) (hm : MetadataOwned d)
    (h₁ : EntryLoaded d e p v 0 acl d₁) :
    enclaveMetadata (finishLoadPage d₁.mem e p v o acl) e =
      loadPageRecord p v acl (memBytes d.mem o pageSize) (d.enclave e) := by
  have hsep := hg.enclave.toMetadataPageAt.headerSep hm
  have hrec : enclaveMetadata d₁.mem e = d.enclave e := h₁.record hsep
  have hp {x : Word} (hx : x ∈ range p pageSize) : OwnedBy d e x := hg.owned.of_mem hg.aligned hx
  have hos : ∀ x ∈ header e, x ∉ range o pageSize := fun x hx hr =>
    hg.enclave.toMetadataPageAt.not_ownedBy hm (by decide)
      (header_region hg.enclave.aligned hg.enclave.inRam hx).2 (hg.osOwned.of_mem hg.osAligned hr)
  have hbytes : memBytes d₁.mem o pageSize = memBytes d.mem o pageSize := memBytes_congr fun i hi => by
    have hx : off o i ∈ range o pageSize := mem_range_off hi (by decide)
    exact h₁.frame.mem _ (fun hh => hos _ hh hx) (hg.os_not_owned hx)
  rw [finishLoadPage_record (fun x hx hr => hsep x hx (hp hr)) hos
    fun x hx hr => hg.os_not_owned hx (hp hr), hrec, hbytes]
  rfl

end

/-! ### Regions -/

theorem EnclaveOrDead.ne_untrusted (h : EnclaveOrDead d e) : e ≠ ownerUntrusted := by
  rintro rfl; exact absurd h.page.aligned (by decide)

section
variable {o r : Word} {i : Fin 64} {v : Bool} {new : Word → EnclaveMetadata → Prop}

/-- `region_assign` and `region_block`: one entry in the map of `o` is set to `v`. -/
theorem setRegion_agrees (h : HeapInv img d)
    (hmem : d'.mem = if o = ownerUntrusted then d.mem else Enclave.setRegion d.mem o i v)
    (hpages : ∀ j, (d'.regions j).type = .metadata ∧ (d'.regions j).state = .owned ↔
      (d.regions j).type = .metadata ∧ (d.regions j).state = .owned)
    (ho : o ≠ ownerUntrusted → ValidMetadata d o .enclave) : AgreesOutside d d' {o} := by
  by_cases hu : o = ownerUntrusted
  · rw [if_pos hu] at hmem
    exact (agreesOutside_of_regions hmem hpages).mono (Set.empty_subset _)
  · rw [if_neg hu] at hmem
    have hs := h.slot o _ (ho hu) nofun
    exact
      { pages := fun a => metadataPageAt_of_regions hpages
        tags := fun a hp => by
          rw [pageTag_eq, hmem]
          exact setRegion_apply (fun hx => hs.info_notMem hp.inRam (header_subset o hx)) i v
        content := fun a _ hsa hne x hx => by
          rw [hmem]
          exact setRegion_apply (fun hh => hsa.sep hs hne x hx (header_subset o hh)) i v }

theorem setRegion_records (h : HeapInv img d)
    (hmem : d'.mem = if o = ownerUntrusted then d.mem else Enclave.setRegion d.mem o i v)
    (hpages : ∀ j, (d'.regions j).type = .metadata ∧ (d'.regions j).state = .owned ↔
      (d.regions j).type = .metadata ∧ (d.regions j).state = .owned)
    (hcores : SameRunning d d') (ho : o ≠ ownerUntrusted → ValidMetadata d o .enclave) :
    Records img d d' (fun f => if f = o then fun E =>
      { E with regions := Function.update E.regions i (if v then 1 else 0) } else id) new := by
  by_cases hu : o = ownerUntrusted
  · rw [if_pos hu] at hmem
    refine ((agreesOutside_of_regions hmem hpages).keepsHeap_empty h hcores).records h fun f hf _ => ?_
    rw [if_neg (hu ▸ hf.ne_untrusted), Data.enclave, hmem]
    rfl
  · refine (setRegion_agrees h hmem hpages ho).records_header h (ho hu) hcores ?_ rfl rfl fun hi => hi
    rw [if_neg hu] at hmem
    rw [Data.enclave, hmem, enclaveMetadata_setRegion]
    rfl

/-- A region that is assigned is no metadata region, before and after. -/
theorem assignRegion_pages (hg : AssignGuard L d r o) (j : Fin 64) :
    ((assignRegion d c (toRegion r) o).regions j).type = .metadata ∧
        ((assignRegion d c (toRegion r) o).regions j).state = .owned ↔
      (d.regions j).type = .metadata ∧ (d.regions j).state = .owned := by
  rw [assignRegion_regions]
  by_cases hj : j = toRegion r
  · rw [hj, Function.update_self]
    refine iff_of_false (fun ht => ?_) fun ht => ?_
    · have := ht.1; dsimp only at this; split_ifs at this
    · rw [hg.state] at ht; exact absurd ht.2 nofun
  · rw [Function.update_of_ne hj]

theorem assignRegion_agrees (h : HeapInv img d) (hg : AssignGuard L d r o) :
    AgreesOutside d (assignRegion d c (toRegion r) o) {o} :=
  setRegion_agrees h assignRegion_mem (assignRegion_pages hg) hg.enclave

theorem assignRegion_records (h : HeapInv img d) (hg : AssignGuard L d r o) :
    Records img d (assignRegion d c (toRegion r) o)
      (fun f => changeRecord img d c f (.regionAssign r o)) new :=
  setRegion_records h assignRegion_mem (assignRegion_pages hg) assignRegion_frame.sameRunning hg.enclave

theorem BlockGuard.type_ne (hg : BlockGuard L d c r) (hm : Maps d) :
    (d.regions (toRegion r)).type ≠ .metadata := fun ht => hg.notSm (hm.metadata _ ht).2

theorem blockRegion_pages (hm : Maps d) (hg : BlockGuard L d c r) (j : Fin 64) :
    ((blockRegion d c (toRegion r)).regions j).type = .metadata ∧
        ((blockRegion d c (toRegion r)).regions j).state = .owned ↔
      (d.regions j).type = .metadata ∧ (d.regions j).state = .owned := by
  rw [blockRegion_regions hg.notSm]
  by_cases hj : j = toRegion r
  · rw [hj, Function.update_self]
    exact iff_of_false (fun ht => absurd ht.2 nofun) fun ht => hg.type_ne hm ht.1
  · rw [Function.update_of_ne hj]

theorem blockRegion_owner_mem (hg : BlockGuard L d c r) : (blockRegion d c (toRegion r)).mem =
    if (d.cores c).owner = ownerUntrusted then d.mem
    else Enclave.setRegion d.mem (d.cores c).owner (toRegion r) false := by
  rw [blockRegion_mem hg.notSm, hg.owner]

theorem blockRegion_agrees (h : HeapInv img d) (hm : Maps d) (hg : BlockGuard L d c r) :
    AgreesOutside d (blockRegion d c (toRegion r)) {(d.cores c).owner} :=
  setRegion_agrees h (blockRegion_owner_mem hg) (blockRegion_pages hm hg) (hg.owner ▸ hg.enclave)

theorem blockRegion_records (h : HeapInv img d) (hm : Maps d) (hg : BlockGuard L d c r) :
    Records img d (blockRegion d c (toRegion r))
      (fun f => changeRecord img d c f (.regionBlock r)) new :=
  setRegion_records h (blockRegion_owner_mem hg) (blockRegion_pages hm hg)
    (blockRegion_frame hg.notSm).sameRunning (hg.owner ▸ hg.enclave)

end

/-! ### All calls -/

theorem FreeMetadataPages.freeSpace_enclave {n : Word} (hf : FreeMetadataPages d e (enclaveMetadataPages n))
    (h : HeapInv img d) (hw : NoWrap n) : FreeSpace d e (enclaveMetadataPages n).toNat := by
  have hpages := enclaveMetadataPages_toNat hw
  simp only [NoWrap, sizeofEnclaveMetadata, sizeofMailbox, pageSize] at hw
  exact hf.freeSpace h (by omega) (by omega)

/-- **A successful call keeps the invariant of the pages, and changes the metadata of
    enclaves only as `changeRecord` says.** -/
theorem effect_records (h : HeapInv img d) (hr : RegionInv d) (hcare : CallCareful d k)
    (hE : Effect img L c ctx d k d') :
    Records img d d' (fun f => changeRecord img d c f k) (CreatedBy k) := by
  have hm := hr.toMaps.metadataOwned
  have hmail : (d.cores c).owner = ownerUntrusted ∨ EnclaveOrDead d (d.cores c).owner :=
    or_iff_not_imp_left.mpr fun hu => (h.running c hu).1
  cases k <;> simp only [Effect] at hE
  case enclaveCreate e b mask n debug =>
    obtain ⟨hf, rfl⟩ := hE
    exact createEnclave_records h hcare (hf.freeSpace_enclave h hcare)
  case enclaveDelete e =>
    obtain ⟨hg, rfl⟩ := hE
    cases hf : firstRegion d e with
    | none => exact (delete_none_clears h hg hf).records h
    | some i =>
      exact (delete_some_clears h hg hf (hr.type_ne hg.enclave (List.find?_some hf))).records h
  case enclaveEnter e t =>
    obtain ⟨hu, hg, rfl⟩ := hE
    have hidle : (d.harts c).memrbm = 0 := (hr.cores c).hart.2.trans ((hr.cores c).idle hu)
    exact (enterEnclave_keepsHeap h hg hidle).records h fun f hf _ =>
      (enterEnclave_agrees h hg).enclave_eq hf.page (hf.slot h) (hf.ne_of_thread hg.thread)
  case enclaveExit =>
    obtain ⟨hu, rfl⟩ := hE
    exact (exitEnclave_keepsHeap h hr.monitorRegion hu).records h fun f hf hne =>
      (exitEnclave_agrees h hr.monitorRegion hu).enclave_eq hf.page (hf.slot h) (hne c hu)
  case enclaveInit e =>
    obtain ⟨he, -, rfl⟩ := hE
    exact initEnclave_frame.records h hm he initEnclave_enclave rfl rfl fun _ => rfl
  case enclaveLoadHandler e p =>
    obtain ⟨hg, rfl⟩ := hE
    exact (loadHandler_frame hg).records h hm hg.enclave (loadHandler_enclave hg hm) rfl rfl fun hi =>
      absurd (hg.state.symm.trans hi) ne_initialized.1
  case enclaveLoadPageTable e p v l acl =>
    obtain ⟨hg, d₁, h₁, rfl⟩ := hE
    refine (loadPageTable_frame h₁).records h hm hg.enclave (loadPageTable_enclave hg.toLoadGuard hm h₁)
      rfl rfl fun hi => ?_
    rcases hg.state with hs | hs
    · exact absurd (hs.symm.trans hi) ne_initialized.2.1
    · exact absurd (hs.symm.trans hi) ne_initialized.2.2.1
  case enclaveLoadPage e p v o acl =>
    obtain ⟨hg, d₁, h₁, rfl⟩ := hE
    refine (loadPage_frame hg.toLoadGuard h₁).records h hm hg.enclave (loadPage_enclave hg hm h₁)
      rfl rfl fun hi => ?_
    rcases hg.state with hs | hs
    · exact absurd (hs.symm.trans hi) ne_initialized.2.2.1
    · exact absurd (hs.symm.trans hi) ne_initialized.2.2.2
  case mailAccept id x =>
    obtain ⟨hid, rfl⟩ := hE
    exact acceptMail_frame.records h hmail hid
  case mailReceive id a b =>
    obtain ⟨hid, -, rfl⟩ := hE
    exact receiveMail_frame.records h hmail hid
  case mailSend o id msg =>
    obtain ⟨hg, rfl⟩ := hE
    exact sendMail_frame.records h (or_iff_not_imp_left.mpr fun hu => .inl (hg.enclave hu).1) hg.box
  case regionAssign r o =>
    obtain ⟨hg, rfl⟩ := hE
    exact assignRegion_records h hg
  case regionBlock r =>
    obtain ⟨hg, rfl⟩ := hE
    exact blockRegion_records h hr.toMaps hg
  case regionUpdate =>
    subst hE
    exact records_of_mem h rfl rfl platformUpdateMemoryProtection_frame.sameRunning
  case regionMetadataCreate r =>
    obtain ⟨hlt, -, hfree, rfl⟩ := hE
    exact (createMetadataRegion_clears hlt hfree h).records h
  case regionCachePartitioning p =>
    obtain ⟨-, rfl⟩ := hE
    exact records_of_mem h rfl rfl fun _ => ⟨rfl, rfl⟩
  case threadDelete t =>
    obtain ⟨ht, -, rfl⟩ := hE
    have hp := deleteThread_step h ht hcare
    exact hp.records h (deleteThread_heapInv h ht hcare) (deleteThread_record (hp.sep h) rfl)
  case threadLoad e t pc sp l =>
    obtain ⟨he, hst, hf, rfl⟩ := hE
    have hfree := hf.freeSpace h (by decide) (by decide)
    have hp : PageStep d { d with mem := loadThread d.mem e t pc sp l } e t _ _ :=
      loadThread_step h he hfree
    exact hp.records h (loadThread_heapInv h he hfree) (loadThread_record (hp.sep h))
  all_goals
    subst hE
    exact records_of_mem h rfl rfl fun _ => ⟨rfl, rfl⟩

end SecurityMonitor
