/-
  What the monitor reads of an enclave's memory.

  Two states agree off a set of addresses if they are equal but for the memory at
  these addresses.  The addresses are those of regions that an initialized
  enclave owns (`Sealed`).  The monitor never reads there: its calls read the
  pages of metadata regions, the OS page of `enclave_load_page`, the page tables
  of enclaves that are being built, and the stack that an exit pushes to.

  * `AgreeOff A d d'`, `AgreeCall A s t`: the relation on data and on the states of
    calls;
  * the lemmas `AgreeOn.<operation>`: an operation takes memories that agree to
    memories that agree, if what it reads is among what they agree on;
  * the lemmas `<call>_lockstep`: a call ends alike in two states that agree.
-/
import SecurityMonitor.Invariant
import SecurityMonitor.Lib.Lockstep

namespace SecurityMonitor

open ByteMem Prog

variable {N : ℕ} {img : Image N} {d d' : Data N} {m m' : Mem} {a e t x : Word} {c : Fin N}
  {A B : Set Word} {H : Set (Fin 64)}

/-! ## Sealed regions -/

/-- The addresses of the regions in `H`. -/
def bytesOfRegions (H : Set (Fin 64)) : Set Word := {x | (addrToRegionId x).toNat < 64 ∧ regionOf x ∈ H}

/-- The regions in `H` belong to the initialized enclave at `e`. -/
structure Sealed (d : Data N) (e : Word) (H : Set (Fin 64)) : Prop where
  enclave : ValidMetadata d e .enclave
  initialized : (d.enclave e).initState = enclaveStateInitialized
  owned : ∀ i ∈ H, Owned d i e

/-- What the calls rely on: the invariants, and regions that are sealed. -/
structure Shut (img : Image N) (d : Data N) (e : Word) (H : Set (Fin 64)) : Prop extends
    Sealed d e H where
  heap : HeapInv img d
  regions : RegionInv d

namespace Shut

variable (h : Shut img d e H)
include h

theorem slot : IsSlot e := h.heap.slot e _ h.enclave (by decide)

theorem ne_sm : e ≠ ownerSm := h.slot.ne_ownerSm

/-- Memory of another owner can be seen. -/
theorem visible_of_owned {o : Word} (ho : OwnedBy d o x) (hne : o ≠ e) : x ∉ bytesOfRegions H :=
  fun hx => hne (ho.2.symm.trans (h.owned _ hx.2).2)

/-- Memory of a region that the monitor owns can be seen. -/
theorem visible_of_sm {i : Fin 64} (hi : (d.regions i).owner = ownerSm)
    (hx : (addrToRegionId x).toNat < 64 → regionOf x = i) : x ∉ bytesOfRegions H := fun hx' => by
  have ho := (h.owned _ hx'.2).2
  rw [hx hx'.1, hi] at ho
  exact h.ne_sm ho.symm

theorem visible_region (hp : MetadataPageAt d a) (hx : regionOf x = regionOf a) : x ∉ bytesOfRegions H :=
  h.visible_of_sm (h.regions.metadataOwned _ hp.type) fun _ => hx

/-- Metadata pages can be seen. -/
theorem visible_page (hp : MetadataPageAt d a) : range a 4096 ⊆ (bytesOfRegions H)ᶜ := fun _ hx =>
  h.visible_region hp (region_of_mem_page hp.aligned hp.inRam hx).2

theorem visible_header (hp : MetadataPageAt d a) : range a 592 ⊆ (bytesOfRegions H)ᶜ :=
  (header_subset a).trans (h.visible_page hp)

theorem visible_thread (hp : MetadataPageAt d a) : range a 912 ⊆ (bytesOfRegions H)ᶜ :=
  (threadBytes_subset a).trans (h.visible_page hp)

/-- The mailboxes of an enclave can be seen; a dead one has none. -/
theorem visible_box {f id : Word} (hf : EnclaveOrDead d f) (hid : id < (d.enclave f).numMailboxes) :
    range (mailboxAddr f id) 336 ⊆ (bytesOfRegions H)ᶜ := fun _ hx => by
  rcases hf with hv | hdead
  · obtain ⟨-, a, ha, hxa⟩ := h.heap.mailboxBytes_page hv hid hx
    exact h.visible_page (h.heap.page_of_inExtent hv ha) hxa
  · rw [Data.enclave, (h.heap.dead f hdead).numMailboxes] at hid
    exact absurd hid BitVec.not_lt_zero

/-- The stack that an exit pushes to can be seen. -/
theorem visible_stack (hu : (d.cores c).owner ≠ ownerUntrusted) :
    range (d.thread (d.cores c).thread).untrustedFaultSp integerContextSize ⊆ (bytesOfRegions H)ᶜ :=
  fun _ hx => by
    refine h.visible_of_sm (i := 0) (by rw [h.regions.monitor]) fun hr => ?_
    exact stack_region (h.heap.threadOk (h.heap.running c hu).2).faultSp hx hr

/-- The memory of an enclave that is being built can be seen. -/
theorem visible_build {f : Word} (hf : (d.enclave f).initState ≠ enclaveStateInitialized)
    (ho : OwnedBy d f x) : x ∉ bytesOfRegions H :=
  h.visible_of_owned ho fun heq => hf (heq ▸ h.initialized)

end Shut

/-! ## Memory operations -/

/-- Two memories agree off the addresses in `A`. -/
def AgreeOff (A : Set Word) (m m' : Mem) : Prop := m.AgreeOn m' Aᶜ

namespace AgreeOff

variable (h : AgreeOff A m m')
include h

theorem symm : AgreeOff A m' m := Mem.AgreeOn.symm h

theorem enclave (he : range e 592 ⊆ Aᶜ) : enclaveMetadata m' e = enclaveMetadata m e :=
  (enclaveMetadata_agree (Mem.AgreeOn.mono h he)).symm

theorem thread (ht : range t 912 ⊆ Aᶜ) : threadMetadata m' t = threadMetadata m t :=
  (threadMetadata_agree (Mem.AgreeOn.mono h ht)).symm

theorem mailbox (ha : range a 336 ⊆ Aᶜ) : mailbox m' a = mailbox m a :=
  (mailbox_agree (Mem.AgreeOn.mono h ha)).symm

theorem load64 (ha : range a 8 ⊆ Aᶜ) : m'.load64 a = m.load64 a :=
  (Mem.load64_agree (Mem.AgreeOn.mono h ha)).symm

theorem fill {n : ℕ} {f f' : ℕ → Byte} (hf : ∀ i < n, f i = f' i) :
    AgreeOff A (m.fill a n f) (m'.fill a n f') := fun x hx => by
  by_cases hr : x ∈ range a n
  · rw [Mem.fill_apply_of_mem hr, Mem.fill_apply_of_mem hr, hf _ hr]
  · rw [Mem.fill_apply_of_notMem hr, Mem.fill_apply_of_notMem hr, h x hx]

theorem store8 {v : Byte} : AgreeOff A (m.store8 a v) (m'.store8 a v) := h.fill fun _ _ => rfl

theorem store32 {v : BitVec 32} : AgreeOff A (m.store32 a v) (m'.store32 a v) := h.fill fun _ _ => rfl

theorem store64 {v : Word} : AgreeOff A (m.store64 a v) (m'.store64 a v) := h.fill fun _ _ => rfl

theorem storeBytes {n : ℕ} {v : Bytes n} : AgreeOff A (m.storeBytes a v) (m'.storeBytes a v) :=
  h.fill fun _ _ => rfl

theorem storeWords {n : ℕ} {v : Fin n → Word} : AgreeOff A (m.storeWords a v) (m'.storeWords a v) :=
  h.fill fun _ _ => rfl

theorem set {n : ℕ} {v : Byte} : AgreeOff A (m.set a n v) (m'.set a n v) := h.fill fun _ _ => rfl

theorem tagPages {n : Word} {k : MetadataPage} :
    AgreeOff A (tagPages m a n k) (tagPages m' a n k) := by
  rw [tagPages_eq, tagPages_eq]
  exact (h.fill fun _ _ => rfl).fill fun _ _ => rfl

theorem freePages {n : Word} : AgreeOff A (freePages m a n) (freePages m' a n) :=
  h.fill fun _ _ => rfl

theorem copy {b : Word} {n : ℕ} (hb : range b n ⊆ Aᶜ) (hn : n ≤ 2 ^ 64) :
    AgreeOff A (m.copy a b n) (m'.copy a b n) := h.fill fun _ hi => h _ (hb (mem_range_off hi hn))

theorem memBytes {n : ℕ} (ha : range a n ⊆ Aᶜ) (hn : n ≤ 2 ^ 64) : memBytes m' a n = memBytes m a n :=
  memBytes_congr fun _ hi => (h _ (ha (mem_range_off hi hn))).symm

theorem storeContext {c : HashContext} :
    AgreeOff A (Enclave.setHashContext m e c) (Enclave.setHashContext m' e c) :=
  h.store64.storeWords.store64.storeBytes

/-! ### Operations on an enclave that can be seen -/

section
variable (he : range e 592 ⊆ Aᶜ)
include he

theorem setHashContext {g : EnclaveMetadata → HashContext} :
    AgreeOff A (Enclave.setHashContext m e (g (enclaveMetadata m e)))
      (Enclave.setHashContext m' e (g (enclaveMetadata m' e))) := by
  rw [h.enclave he]
  exact h.storeContext

theorem hashBytes {bs bs' : List Byte} (hbs : bs' = bs) :
    AgreeOff A (hashExtend m e bs) (hashExtend m' e bs') := by
  rw [hbs]
  exact h.setHashContext he (g := fun E => sha512Update E.hashContext bs)

theorem hashExtend {g : EnclaveMetadata → List Byte} :
    AgreeOff A (hashExtend m e (g (enclaveMetadata m e)))
      (SecurityMonitor.hashExtend m' e (g (enclaveMetadata m' e))) :=
  h.hashBytes he (by rw [h.enclave he])

theorem hashMem {n : ℕ} (ha : range a n ⊆ Aᶜ) (hn : n ≤ 2 ^ 64) :
    AgreeOff A (SecurityMonitor.hashExtend m e (SecurityMonitor.memBytes m a n))
      (SecurityMonitor.hashExtend m' e (SecurityMonitor.memBytes m' a n)) :=
  h.hashBytes he (h.memBytes ha hn)

theorem storeBytesOf {k n : ℕ} {g : EnclaveMetadata → Bytes n} :
    AgreeOff A (m.storeBytes (off e k) (g (enclaveMetadata m e)))
      (m'.storeBytes (off e k) (g (enclaveMetadata m' e))) := by
  rw [h.enclave he]
  exact h.storeBytes

theorem store64Of {k : ℕ} {g : EnclaveMetadata → Word} :
    AgreeOff A (m.store64 (off e k) (g (enclaveMetadata m e)))
      (m'.store64 (off e k) (g (enclaveMetadata m' e))) := by
  rw [h.enclave he]
  exact h.store64

theorem createEnclave {b k n : Word} {debug : Bool} :
    AgreeOff A (createEnclave m e b k n debug) (createEnclave m' e b k n debug) := by
  unfold SecurityMonitor.createEnclave
  refine hashExtend ?_ he (g := fun E => [E.debug])
  refine store8 (hashExtend ?_ he (g := fun E => wordBytes E.numMailboxes))
  refine store64 (hashExtend ?_ he (g := fun E => wordBytes E.evMask))
  refine store64 (hashExtend ?_ he (g := fun E => wordBytes E.evBase))
  refine store64 (setHashContext ?_ he (g := fun E => sha512Init E.hashContext))
  exact h.tagPages.store32.store64

theorem loadHandler {p : Word} : AgreeOff A (loadHandler img m e p) (loadHandler img m' e p) := by
  have hlen : img.enclaveHandler.length ≤ 2 ^ 64 := by have := img.size_le; omega
  unfold SecurityMonitor.loadHandler
  refine store64 (store64 (store32 (hashBytes ?_ he ?_)))
  · exact (h.store64.set.store64.store64).fill fun _ _ => rfl
  · -- the handler is hashed from where it was just written
    rw [memBytes_fill_list _ hlen, memBytes_fill_list _ hlen]

theorem finishLoadPageTable {p v l acl : Word} :
    AgreeOff A (finishLoadPageTable m e p v l acl) (finishLoadPageTable m' e p v l acl) := by
  unfold SecurityMonitor.finishLoadPageTable
  exact hashBytes (hashBytes (hashBytes h.store64.store32 he rfl) he rfl) he rfl

theorem finishLoadPage {p v o acl : Word} (ho : range o pageSize ⊆ Aᶜ) :
    AgreeOff A (finishLoadPage m e p v o acl) (finishLoadPage m' e p v o acl) := by
  unfold SecurityMonitor.finishLoadPage
  refine hashMem (hashBytes (hashBytes ?_ he rfl) he rfl) he ho (by decide)
  exact copy h.store64.store32 ho (by decide)

theorem loadThread {pc sp l : Word} :
    AgreeOff A (loadThread m e t pc sp l) (loadThread m' e t pc sp l) := by
  unfold SecurityMonitor.loadThread
  refine hashBytes (hashBytes (hashBytes ?_ he rfl) he rfl) he rfl
  refine store64Of ?_ he (g := fun E => E.numThreads + 1)
  exact h.tagPages.store64.store64.store64.store64

theorem initEnclave {keys : Keys} :
    AgreeOff A (initEnclave img keys m e) (initEnclave img keys m' e) := by
  unfold SecurityMonitor.initEnclave
  refine store32 (storeBytesOf (storeBytesOf (storeBytesOf ?_ he (g := fun E =>
      createSecretSigningKey (hashOf₂ (List.ofFn keys.softwareSecretKey) (List.ofFn E.measurement)))) he
    (g := fun E => img.computePublicSigningKey E.secretKey)) he (g := fun E =>
      img.sign (List.ofFn (hashOf₂ (List.ofFn E.measurement) (List.ofFn E.publicKey)))
        keys.softwarePublicKey keys.softwareSecretKey))
  rw [h.enclave he]
  cases (sha512Final (enclaveMetadata m e).hashContext).2 with
  | none => exact h.storeContext
  | some _ => exact h.storeContext.storeBytes

end

/-- `thread_delete` reads the thread and its owner. -/
theorem deleteThread (ht : range t 912 ⊆ Aᶜ) (he : range (threadMetadata m t).owner 592 ⊆ Aᶜ) :
    AgreeOff A (deleteThread m t) (deleteThread m' t) := by
  unfold SecurityMonitor.deleteThread
  rw [h.thread ht]
  exact freePages (set (store64Of h he (g := fun E => E.numThreads - 1)))

theorem saveUntrusted (ht : range t 912 ⊆ Aᶜ) {ctx : TrapContext} :
    AgreeOff A (saveUntrusted img m c t ctx) (saveUntrusted img m' c t ctx) := by
  unfold SecurityMonitor.saveUntrusted
  rw [h.thread ht]
  dsimp only
  split_ifs
  · exact h.storeWords.store64.store64.store64.store8
  · exact h.storeWords.store64.store64.store64

theorem pushUntrustedState {sp : Word} (ht : range t 912 ⊆ Aᶜ) :
    AgreeOff A (pushUntrustedState m t sp) (pushUntrustedState m' t sp) := by
  have hstep : ∀ (l : List (Fin 32)) {m m' : Mem}, AgreeOff A m m' → AgreeOff A
      (l.foldl (fun m (i : Fin 32) => m.store64 (off sp (8 * i)) (m.load64 (off t (40 + 8 * i)))) m)
      (l.foldl (fun m (i : Fin 32) => m.store64 (off sp (8 * i)) (m.load64 (off t (40 + 8 * i)))) m') := by
    intro l
    induction l with
    | nil => exact fun h => h
    | cons i l ih =>
      intro m m' h
      have hi : range (off t (40 + 8 * i)) 8 ⊆ Aᶜ :=
        (range_off_sub (by have := i.isLt; omega) (by decide)).trans ht
      refine ih ?_
      dsimp only
      rw [h.load64 hi]
      exact h.store64
  exact hstep _ h

end AgreeOff

/-! ## Data -/

/-- The data is the same, but for the memory at the addresses in `A`. -/
structure SameBut (A : Set Word) (d d' : Data N) : Prop where
  rest : d' = { d with mem := d'.mem }
  mem : AgreeOff A d.mem d'.mem

theorem sameBut_mem (h : AgreeOff A m m') : SameBut A { d with mem := m } { d with mem := m' } := ⟨rfl, h⟩

/-- A store to an address in `A` is not seen elsewhere. -/
theorem store8_apply_of_mem {v : Byte} (ha : a ∈ A) (hx : x ∉ A) : m.store8 a v x = m x :=
  Mem.fill_apply_of_notMem fun hr => hx (by rwa [eq_of_mem_range_one hr])

theorem SameBut.store8_left {v : Byte} (h : SameBut A d d') (ha : a ∈ A) :
    SameBut A { d with mem := d.mem.store8 a v } d' := by
  refine ⟨h.rest, fun x hx => ?_⟩
  rw [← h.mem x hx]
  exact store8_apply_of_mem ha hx

theorem SameBut.store8_right {v : Byte} (h : SameBut A d d') (ha : a ∈ A) :
    SameBut A d { d' with mem := d'.mem.store8 a v } := by
  refine ⟨by rw [h.rest], fun x hx => ?_⟩
  rw [h.mem x hx]
  exact (store8_apply_of_mem ha hx).symm

/-- A change of the data that has nothing to do with the memory. -/
theorem SameBut.map {F : Data N → Data N} (h : SameBut A d d')
    (hF : ∀ (d : Data N) (m : Mem), F { d with mem := m } = { F d with mem := m }) :
    SameBut A (F d) (F d') := by
  have hmem : (F d).mem = d.mem := by
    have hd : F d = { F d with mem := d.mem } := hF d d.mem
    rw [hd]
  have hF' : F d' = { F d with mem := d'.mem } := by rw [← hF, ← h.rest]
  refine ⟨by rw [hF'], ?_⟩
  rw [hmem, hF']
  exact h.mem

section
variable (h : AgreeOff A d.mem m')
include h

theorem AgreeOff.data : SameBut A d { d with mem := m' } := ⟨rfl, h⟩

theorem AgreeOff.enclaveOf (he : range e 592 ⊆ Aᶜ) :
    ({ d with mem := m' } : Data N).enclave e = d.enclave e := h.enclave he

theorem AgreeOff.threadOf (ht : range t 912 ⊆ Aᶜ) :
    ({ d with mem := m' } : Data N).thread t = d.thread t := h.thread ht

end

/-- The bitmaps of a core are computed from the map of the enclave that it runs. -/
theorem platformUpdateMemoryProtection_sameBut (h : SameBut A d d')
    (hc : (d.cores c).owner ≠ ownerUntrusted → range (d.cores c).owner 592 ⊆ Aᶜ) :
    SameBut A (platformUpdateMemoryProtection d c) (platformUpdateMemoryProtection d' c) := by
  rw [h.rest]
  have hflag : (if (d.cores c).owner ≠ ownerUntrusted
      then regionsToBitmap (enclaveMetadata d'.mem (d.cores c).owner).flag else 0) =
      if (d.cores c).owner ≠ ownerUntrusted
      then regionsToBitmap (enclaveMetadata d.mem (d.cores c).owner).flag else 0 := by
    split_ifs with hu
    · rw [h.mem.enclave (hc hu)]
    · rfl
  refine ⟨?_, h.mem⟩
  simp only [platformUpdateMemoryProtection, Data.enclave, Data.setHart, Data.setCore, hflag]

section
variable {i : Fin 64} (h : SameBut A d d')
  (hc : (d.cores c).owner ≠ ownerUntrusted → range (d.cores c).owner 592 ⊆ Aᶜ)
include h hc

theorem platformUpdateUntrustedRegions_sameBut {flag : Bool} :
    SameBut A (platformUpdateUntrustedRegions d c i flag) (platformUpdateUntrustedRegions d' c i flag) :=
  platformUpdateMemoryProtection_sameBut (h.map (F := fun d => { d with
    untrustedRegions := Function.update d.untrustedRegions i flag }) fun _ _ => rfl) hc

theorem platformUpdateEnclaveRegions_sameBut {flag : Bool} :
    SameBut A (platformUpdateEnclaveRegions d c e i flag) (platformUpdateEnclaveRegions d' c e i flag) := by
  rw [h.rest]
  exact platformUpdateMemoryProtection_sameBut (sameBut_mem h.mem.store8) hc

theorem blockRegion_sameBut : SameBut A (blockRegion d c i) (blockRegion d' c i) := by
  have howner : d'.regions = d.regions := by rw [h.rest]
  have h₁ : SameBut A (d.setRegion i { d.regions i with owner := ownerSm })
      (d'.setRegion i { d'.regions i with owner := ownerSm }) :=
    h.map (F := fun d => d.setRegion i { d.regions i with owner := ownerSm }) fun _ _ => rfl
  unfold blockRegion
  refine SameBut.map (F := fun d => d.setRegion i { d.regions i with state := .blocked }) ?_ fun _ _ => rfl
  rw [howner] at h₁ ⊢
  dsimp only
  split_ifs
  · exact platformUpdateEnclaveRegions_sameBut h₁ hc
  · exact platformUpdateUntrustedRegions_sameBut h₁ hc
  · exact h₁

theorem assignRegion_sameBut {o : Word} : SameBut A (assignRegion d c i o) (assignRegion d' c i o) := by
  unfold assignRegion
  dsimp only
  have h₁ : SameBut A
      (d.setRegion i ⟨o, if o = ownerUntrusted then .untrusted else .enclave, .owned⟩)
      (d'.setRegion i ⟨o, if o = ownerUntrusted then .untrusted else .enclave, .owned⟩) :=
    h.map (F := fun d => d.setRegion i _) fun _ _ => rfl
  split_ifs at h₁ ⊢
  · exact platformUpdateUntrustedRegions_sameBut h₁ hc
  · exact platformUpdateEnclaveRegions_sameBut h₁ hc

end

/-- Mailbox `id` of `owner` can be seen. -/
def BoxVisible (A : Set Word) (owner id : Word) : Prop :=
  owner ≠ ownerUntrusted → range (mailboxAddr owner id) 336 ⊆ Aᶜ

section
variable (h : AgreeOff A d.mem m')
include h

theorem enterEnclave_sameBut {ctx : TrapContext} (hsep : ∀ x ∈ header e, x ∉ threadBytes t)
    (he : range e 592 ⊆ Aᶜ) (ht : range t 912 ⊆ Aᶜ) :
    SameBut A (enterEnclave img d c e t ctx) (enterEnclave img { d with mem := m' } c e t ctx) := by
  have hhart : enterHart { d with mem := m' } c e t ctx = enterHart d c e t ctx := by
    simp only [enterHart, h.enclaveOf he, h.threadOf ht]
  have hmem : AgreeOff A (enterEnclave img d c e t ctx).mem
      (enterEnclave img { d with mem := m' } c e t ctx).mem := by
    simp only [enterEnclave, platformInterruptsEnterEnclave, platformMemoryProtectionEnterEnclave,
      platformSetEnclavePageTable, Data.setHart, Data.setCore, Function.update_self]
    exact (h.saveUntrusted ht).store64.store64.store64.store64.store64.store64.store64.store64.store64
  refine ⟨?_, hmem⟩
  rw [enterEnclave_eq hsep, enterEnclave_eq (d := d) hsep, hhart, h.enclaveOf he]

theorem exitEnclave_sameBut {aex : Bool} (ht : range (d.cores c).thread 912 ⊆ Aᶜ)
    (hsp : range (d.thread (d.cores c).thread).untrustedFaultSp integerContextSize ⊆ Aᶜ) :
    SameBut A (exitEnclave d c aex) (exitEnclave { d with mem := m' } c aex) := by
  have hpush : AgreeOff A (pushUntrustedState (Thread.setAexPresent d.mem (d.cores c).thread aex)
      (d.cores c).thread (d.thread (d.cores c).thread).untrustedFaultSp)
      (pushUntrustedState (Thread.setAexPresent m' (d.cores c).thread aex)
      (d.cores c).thread (d.thread (d.cores c).thread).untrustedFaultSp) :=
    AgreeOff.pushUntrustedState h.store8 ht
  have hregs := Mem.loadWords_agree (n := 32) (Mem.AgreeOn.mono hpush hsp) (by decide)
  rw [exitEnclave_eq, exitEnclave_eq, h.threadOf ht]
  refine ⟨?_, hpush⟩
  simp only [exitHart, h.threadOf ht, hregs]

theorem createMetadataRegion_sameBut {r : Word} : SameBut A (createMetadataRegion d (toRegion r) r)
    (createMetadataRegion { d with mem := m' } (toRegion r) r) := by
  refine ⟨rfl, ?_⟩
  rw [createMetadataRegion_mem, createMetadataRegion_mem]
  exact h.set.fill fun _ _ => rfl

theorem setPartitions_sameBut {part : Fin 64 → Byte} :
    SameBut A (setPartitions d part) (setPartitions { d with mem := m' } part) := by
  unfold setPartitions
  exact ⟨rfl, h⟩

theorem firstRegion_sameBut (he : range e 592 ⊆ Aᶜ) :
    firstRegion { d with mem := m' } e = firstRegion d e := by
  rw [firstRegion, firstRegion, h.enclaveOf he]

theorem deleteEnclave_sameBut (hp : MetadataPageAt d e) (he : range e 592 ⊆ Aᶜ) :
    SameBut A (deleteEnclave d e) (deleteEnclave { d with mem := m' } e) := by
  cases hi : firstRegion d e with
  | none =>
    rw [deleteEnclave_of_none hp.aligned hp.inRam hi,
      deleteEnclave_of_none hp.aligned hp.inRam ((firstRegion_sameBut h he).trans hi), h.enclaveOf he]
    exact sameBut_mem h.freePages.set
  | some i =>
    rw [deleteEnclave_of_some hp.aligned hp.inRam hi,
      deleteEnclave_of_some hp.aligned hp.inRam ((firstRegion_sameBut h he).trans hi)]
    exact ⟨rfl, h.set.freePages.set⟩

/-! ### Mail -/

variable {owner id : Word}

theorem mailboxOf_sameBut (hb : BoxVisible A owner id) :
    mailboxOf { d with mem := m' } owner id = mailboxOf d owner id := by
  unfold mailboxOf
  split_ifs with hu
  · rfl
  · exact h.mailbox (hb hu)

theorem acceptMail_sameBut {sender : Word} :
    SameBut A (acceptMail d owner id sender) (acceptMail { d with mem := m' } owner id sender) := by
  unfold acceptMail
  split_ifs
  · exact ⟨rfl, h⟩
  · exact ⟨rfl, h.store32.store64⟩

theorem receiveMail_sameBut :
    SameBut A (receiveMail d owner id) (receiveMail { d with mem := m' } owner id) := by
  unfold receiveMail
  split_ifs
  · exact ⟨rfl, h⟩
  · exact ⟨rfl, h.store32⟩

theorem sendMail_sameBut {caller : Word} {message : Bytes 256}
    (hcaller : caller ≠ ownerUntrusted → range caller 592 ⊆ Aᶜ) :
    SameBut A (sendMail d caller owner id message)
      (sendMail { d with mem := m' } caller owner id message) := by
  have hmeas : senderMeasurementOf { d with mem := m' } caller = senderMeasurementOf d caller := by
    unfold senderMeasurementOf
    split_ifs with hu
    · rfl
    · rw [h.enclaveOf (hcaller hu)]
  unfold sendMail
  rw [hmeas]
  split_ifs
  · exact ⟨rfl, h⟩
  · exact ⟨rfl, h.storeBytes.storeBytes.store32⟩

end

end SecurityMonitor
