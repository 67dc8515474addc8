/-
  Locks and the checks of metadata pages (`src/sm.h`,
  `src/common/lock_region_iff_valid_metadata.c`,
  `src/common/lock_region_iff_free_metadata_pages.c`, `src/api/region_owner.c`).

  A lock is acquired by a swap, so a failed acquire leaves it held.  A call
  collects the regions it has locked in `locked_regions` and releases them
  together.

  `At L d s` is what every call keeps until it changes data: the data is `d`,
  the locks `L` that were held when the call started are still held, and the
  regions in `locked_regions` are not among them.  Each helper has one lemma
  `At.<helper>`: how the call can continue after it.
-/
import SecurityMonitor.State

namespace SecurityMonitor

open ByteMem Prog

variable {N : ℕ} {ρ : Type}

/-! ## Reading and writing the state -/

/-- The array index of a region id. -/
def toRegion (r : Word) : Fin 64 := Fin.ofNat 64 r.toNat

/-- The region of an address in RAM. -/
def regionOf (a : Word) : Fin 64 := toRegion (addrToRegionId a)

/-- The index `r` of an array of `NUM_REGIONS` entries. -/
def regionIndex (r : Word) : M N ρ (Fin 64) :=
  if r.toNat < numRegions then pure (toRegion r) else fault .regionIndex

def getData : M N ρ (Data N) := instr Instr.getData
def setData (d : Data N) : M N ρ Unit := instr (Instr.setData d)
def getLocked : M N ρ (Fin 64 → Bool) := instr Instr.getLocked
def markLocked (i : Fin 64) : M N ρ Unit := instr (Instr.markLocked i)
def clearLocked : M N ρ Unit := instr Instr.clearLocked
def undoLock (previouslyLocked : Bool) (i : Fin 64) : M N ρ Unit := instr (Instr.undo previouslyLocked i)

/-! ## Locks -/

def platformLockAcquire (l : LockId N) : M N ρ Bool := instr (Instr.acquire l)
def platformLockRelease (l : LockId N) : M N ρ Unit := instr (Instr.release l)

def lockUntrustedState : M N ρ Bool := platformLockAcquire .untrustedState
def unlockUntrustedState : M N ρ Unit := platformLockRelease .untrustedState
def lockCore (c : Fin N) : M N ρ Bool := platformLockAcquire (.core c)
def unlockCore (c : Fin N) : M N ρ Unit := platformLockRelease (.core c)

def lockRegion (r : Word) : M N ρ Bool := do
  let i ← regionIndex r
  platformLockAcquire (.region i)

def unlockRegion (r : Word) : M N ρ Unit := do
  let i ← regionIndex r
  platformLockRelease (.region i)

def unlockRegions : M N ρ Unit :=
  forEach (List.finRange 64) fun i => do
    let flags ← getLocked
    if flags i then platformLockRelease (.region i)

def addLockRegion (r : Word) : M N ρ Bool := do
  let i ← regionIndex r
  let flags ← getLocked
  if flags i then pure true
  else
    let locked ← platformLockAcquire (.region i)
    if locked then
      markLocked i
      pure true
    else pure false

/-! ## Region owners -/

/-- `region_owner`: the owner, or the code of an error. -/
def regionOwner (r : Word) : M N Word Empty := do
  if !isValidRegionId r then ret ApiResult.invalidValue.code
  if !(← lockRegion r) then ret ApiResult.concurrentCall.code
  let d ← getData
  unlockRegion r
  ret (d.regions (toRegion r)).owner

def regionOwnerLockFree (r : Word) : M N Word Empty := do
  if !isValidRegionId r then ret ApiResult.invalidValue.code
  let d ← getData
  ret (d.regions (toRegion r)).owner

/-! ## Metadata pages -/

/-- `((metadata_region_t *)region_id_to_addr(r))->page_info[p]`. -/
def pageInfo (m : Mem) (r p : Word) : Byte := m (regionIdToAddr r + p)

def setPageInfo (m : Mem) (r p : Word) (k : MetadataPage) : Mem :=
  m.store8 (regionIdToAddr r + p) k.code

/-- Tag the pages of a new object: the first with the object's type, the others invalid. -/
def tagPages (m : Mem) (a numPages : Word) (k : MetadataPage) : Mem :=
  let r := addrToRegionId a
  let p := addrToRegionPageId a
  let m := setPageInfo m r p k
  m.fill (regionIdToAddr r + p + 1) (numPages.toNat - 1) fun _ => MetadataPage.invalid.code

/-- Tag the pages of a deleted object as free. -/
def freePages (m : Mem) (a numPages : Word) : Mem :=
  m.fill (regionIdToAddr (addrToRegionId a) + addrToRegionPageId a) numPages.toNat fun _ =>
    MetadataPage.free.code

/-- The checks after the region of a metadata pointer is locked fail. -/
def failUnlocking (previouslyLocked : Bool) (r : Word) : M N ApiResult Empty := do
  undoLock previouslyLocked (← regionIndex r)
  ret .invalidState

def addLockRegionIffFreeMetadataPages (ptr numPages : Word) : M N ApiResult Empty := do
  if !isPageAligned ptr then ret .invalidValue
  let regionId := addrToRegionId ptr
  if !isValidRegionId regionId then ret .invalidValue
  let pageId := addrToRegionPageId ptr
  if !isValidPageIdInRegion (pageId + numPages - 1) then ret .invalidValue
  -- the source calls this flag not_previously_locked
  let flag := (← getLocked) (toRegion regionId)
  if !(← addLockRegion regionId) then ret .concurrentCall
  let d ← getData
  if (d.regions (toRegion regionId)).type ≠ .metadata then ret (← call (failUnlocking flag regionId))
  if (d.regions (toRegion regionId)).state ≠ .owned then ret (← call (failUnlocking flag regionId))
  forEach (List.range numPages.toNat) fun i => do
    if pageInfo d.mem regionId (pageId + BitVec.ofNat 64 i) ≠ MetadataPage.free.code then
      ret (← call (failUnlocking flag regionId))
  ret .ok

def addLockRegionIffValidMetadata (ptr : Word) (metadataType : MetadataPage) :
    M N ApiResult Empty := do
  if !isPageAligned ptr then ret .invalidValue
  let regionId := addrToRegionId ptr
  if !isValidRegionId regionId then ret .invalidValue
  let pageId := addrToRegionPageId ptr
  let flag := (← getLocked) (toRegion regionId)
  if !(← addLockRegion regionId) then ret .concurrentCall
  let d ← getData
  if (d.regions (toRegion regionId)).type ≠ .metadata then ret (← call (failUnlocking flag regionId))
  if (d.regions (toRegion regionId)).state ≠ .owned then ret (← call (failUnlocking flag regionId))
  if pageInfo d.mem regionId pageId ≠ metadataType.code then
    ret (← call (failUnlocking flag regionId))
  ret .ok

def addLockRegionIffValidEnclave (ptr : Word) : M N ApiResult Empty :=
  addLockRegionIffValidMetadata ptr .enclave

def addLockRegionIffValidThread (ptr : Word) : M N ApiResult Empty :=
  addLockRegionIffValidMetadata ptr .thread

/-- `thread_metadata_pages`. -/
def threadMetadataPages : Word := BitVec.ofNat 64 ((sizeofThreadMetadata + (pageSize - 1)) / pageSize)

/-- `enclave_metadata_pages`, with the size computed modulo `2 ^ 64`. -/
def enclaveMetadataPages (numMailboxes : Word) : Word :=
  let enclaveSize := BitVec.ofNat 64 sizeofEnclaveMetadata + numMailboxes * BitVec.ofNat 64 sizeofMailbox
  (enclaveSize + BitVec.ofNat 64 (pageSize - 1)) / BitVec.ofNat 64 pageSize

/-! ## What the checks establish -/

/-- The tag of the metadata page at `a`. -/
def pageTag (d : Data N) (a : Word) : Byte := pageInfo d.mem (addrToRegionId a) (addrToRegionPageId a)

/-- `a` is a page of a metadata region. -/
structure MetadataPageAt (d : Data N) (a : Word) : Prop where
  aligned : isPageAligned a = true
  inRam : (addrToRegionId a).toNat < 64
  type : (d.regions (regionOf a)).type = .metadata
  state : (d.regions (regionOf a)).state = .owned

/-- `a` is a page of a metadata region with tag `k`. -/
structure ValidMetadata (d : Data N) (a : Word) (k : MetadataPage) : Prop extends
    MetadataPageAt d a where
  tag : pageTag d a = k.code

/-- The `numPages` pages from `a` on are free. -/
structure FreeMetadataPages (d : Data N) (a numPages : Word) : Prop extends
    MetadataPageAt d a where
  fits : (addrToRegionPageId a + numPages - 1).toNat < 8192
  free : ∀ i < numPages.toNat,
    pageInfo d.mem (addrToRegionId a) (addrToRegionPageId a + BitVec.ofNat 64 i) =
      MetadataPage.free.code

instance (d : Data N) (a : Word) : Decidable (MetadataPageAt d a) :=
  decidable_of_iff (isPageAligned a = true ∧ (addrToRegionId a).toNat < 64 ∧
      (d.regions (regionOf a)).type = .metadata ∧ (d.regions (regionOf a)).state = .owned)
    ⟨fun h => ⟨h.1, h.2.1, h.2.2.1, h.2.2.2⟩, fun h => ⟨h.aligned, h.inRam, h.type, h.state⟩⟩

instance (d : Data N) (a : Word) (k : MetadataPage) : Decidable (ValidMetadata d a k) :=
  decidable_of_iff (MetadataPageAt d a ∧ pageTag d a = k.code)
    ⟨fun h => ⟨h.1, h.2⟩, fun h => ⟨h.toMetadataPageAt, h.tag⟩⟩

/-! ## How a call continues after a helper -/

section
variable {α : Type} {Q : α → CallState N → Prop} {R : ρ → CallState N → Prop} {F : Fault → Prop}
  {E : Empty → CallState N → Prop} {L : LockId N → Bool} {d : Data N} {s : CallState N}

/-- The data is `d`, the locks `L` are held, and the call's own locked regions are
    not among them. -/
structure At (L : LockId N → Bool) (d : Data N) (s : CallState N) : Prop where
  data : s.data = d
  locks : ∀ l, L l = true → s.locks l = true
  own : ∀ i, s.lockedRegions i = true → L (.region i) = false

/-- A call ends: it fails and the data is still `d`, or it returns `MONITOR_OK` and the
    new data satisfies `T`. -/
def Ends (L : LockId N → Bool) (d : Data N) (T : Data N → Prop) (r : ApiResult)
    (s : CallState N) : Prop :=
  ∃ d', At L d' s ∧ (r ≠ .ok ∧ d' = d ∨ r = .ok ∧ T d')

theorem Ends.imp {T T' : Data N → Prop} {r : ApiResult} (h : Ends L d T r s)
    (hT : ∀ d', T d' → T' d') : Ends L d T' r s := by
  obtain ⟨d', hat, hd | ⟨hr, hd⟩⟩ := h
  · exact ⟨d', hat, .inl hd⟩
  · exact ⟨d', hat, .inr ⟨hr, hT d' hd⟩⟩

theorem At.fails {T : Data N → Prop} {r : ApiResult} (h : At L d s) (hr : r ≠ .ok) :
    Ends L d T r s :=
  ⟨d, h, .inl ⟨hr, rfl⟩⟩

theorem At.succeeds {T : Data N → Prop} {d' : Data N} (h : At L d' s) (hT : T d') :
    Ends L d T .ok s :=
  ⟨d', h, .inr ⟨rfl, hT⟩⟩

/-- The branch after a lock was obtained. -/
theorem obtained {P Q : Prop} (h : Q) : (true = false → P) ∧ (¬ true = false → Q) := by simpa using h

/-- The branch after a lock was refused. -/
theorem refused {P Q : Prop} (h : P) : (false = false → P) ∧ (¬ false = false → Q) := by simpa using h

theorem wp_regionIndex {Q : Fin 64 → CallState N → Prop} {r : Word} :
    (regionIndex r).wp Q R F s ↔
      (r.toNat < 64 → Q (toRegion r) s) ∧ (¬ r.toNat < 64 → F .regionIndex) :=
  wp_ite _ _

/-! ### Instructions -/

@[simp] theorem wp_getLocked {Q : (Fin 64 → Bool) → CallState N → Prop} :
    (getLocked : M N ρ _).wp Q R F s = Q s.lockedRegions s := rfl

@[simp] theorem wp_getData {Q : Data N → CallState N → Prop} :
    (getData : M N ρ _).wp Q R F s = Q s.data s := rfl

@[simp] theorem wp_acquire {Q : Bool → CallState N → Prop} {l : LockId N} :
    (platformLockAcquire l).wp Q R F s = Q (!s.locks l) (s.setLock l true) := rfl

@[simp] theorem wp_markLocked {Q : Unit → CallState N → Prop} {i : Fin 64} :
    (markLocked i).wp Q R F s =
      Q () { s with lockedRegions := Function.update s.lockedRegions i true } := rfl

@[simp] theorem wp_undoLock {Q : Unit → CallState N → Prop} {b : Bool} {i : Fin 64} :
    (undoLock b i).wp Q R F s = Q () (if b then s.setLock (.region i) false else s) := rfl

@[simp] theorem CallState.setLock_self (s : CallState N) (l : LockId N) (b : Bool) :
    (s.setLock l b).locks l = b := Function.update_self ..

/-- A lock that is acquired while it is held. -/
theorem CallState.setLock_eq {b : Bool} {l : LockId N} (h : s.locks l = b) : s.setLock l b = s := by
  have hlocks : Function.update s.locks l b = s.locks := by rw [← h, Function.update_eq_self]
  exact congrArg (fun locks => ({ s with locks := locks } : CallState N)) hlocks

theorem At.getData {Q : Data N → CallState N → Prop} (h : At L d s) (hQ : Q d s) :
    (getData : M N ρ _).wp Q R F s := by
  show Q s.data s
  rwa [h.data]

theorem At.setData {Q : Unit → CallState N → Prop} {d' : Data N} (h : At L d s)
    (hQ : ∀ s, At L d' s → Q () s) : (setData d').wp Q R F s :=
  hQ { s with data := d' } ⟨rfl, h.locks, h.own⟩

theorem At.acquire {Q : Bool → CallState N → Prop} {l : LockId N} (h : At L d s)
    (hok : ∀ s, At L d s → L l = false → Q true s) (hno : ∀ s, At L d s → Q false s) :
    (platformLockAcquire l).wp Q R F s := by
  show Q (!s.locks l) (s.setLock l true)
  have hat : At L d (s.setLock l true) := by
    refine ⟨h.data, fun l' hl' => ?_, h.own⟩
    show Function.update s.locks l true l' = true
    rw [Function.update_apply]
    split_ifs
    · rfl
    · exact h.locks l' hl'
  cases hl : s.locks l with
  | true => exact hno _ hat
  | false =>
    refine hok _ hat ?_
    cases hL : L l with
    | false => rfl
    | true => rw [h.locks l hL] at hl; exact hl

theorem At.unset {l : LockId N} (h : At L d s) (hl : L l = false) : At L d (s.setLock l false) := by
  refine ⟨h.data, fun l' hl' => ?_, h.own⟩
  show Function.update s.locks l false l' = true
  rw [Function.update_apply, if_neg (by rintro rfl; rw [hl] at hl'; exact absurd hl' (by simp))]
  exact h.locks l' hl'

theorem At.release {Q : Unit → CallState N → Prop} {l : LockId N} (h : At L d s)
    (hl : L l = false) (hQ : ∀ s, At L d s → Q () s) : (platformLockRelease l).wp Q R F s :=
  hQ (s.setLock l false) (h.unset hl)

theorem At.clearLocked {Q : Unit → CallState N → Prop} (h : At L d s)
    (hQ : ∀ s, At L d s → Q () s) : (clearLocked : M N ρ _).wp Q R F s :=
  hQ { s with lockedRegions := fun _ => false } ⟨h.data, h.locks, nofun⟩

theorem At.lockRegion {Q : Bool → CallState N → Prop} {r : Word} (h : At L d s)
    (hF : ¬ r.toNat < 64 → F .regionIndex)
    (hok : ∀ s, At L d s → r.toNat < 64 → L (.region (toRegion r)) = false → Q true s)
    (hno : ∀ s, At L d s → Q false s) : (lockRegion r).wp Q R F s := by
  rw [SecurityMonitor.lockRegion, wp_bind, wp_regionIndex]
  exact ⟨fun hr => h.acquire (fun s hs hl => hok s hs hr hl) hno, hF⟩

theorem At.unlockRegion {Q : Unit → CallState N → Prop} {r : Word} (h : At L d s)
    (hr : r.toNat < 64) (hl : L (.region (toRegion r)) = false)
    (hQ : ∀ s, At L d s → Q () s) : (unlockRegion r).wp Q R F s := by
  rw [SecurityMonitor.unlockRegion, wp_bind, wp_regionIndex]
  exact ⟨fun _ => h.release hl hQ, fun hn => absurd hr hn⟩

theorem At.unlockRegions {Q : Unit → CallState N → Prop} (h : At L d s)
    (hQ : ∀ s, At L d s → Q () s) : unlockRegions.wp Q R F s := by
  refine wp_mono (wp_forEach (List.finRange 64) (fun _ => At L d) h ?_)
    (fun _ s hs => hQ s hs) (fun _ _ h => h) fun _ h => h
  intro _ i s hs _
  rw [wp_bind, wp_getLocked, wp_ite]
  exact ⟨fun hi => hs.release (hs.own i hi) fun _ h => h, fun _ => hs⟩

theorem At.markLocked {Q : Unit → CallState N → Prop} {i : Fin 64} (h : At L d s)
    (hl : L (.region i) = false) (hQ : ∀ s, At L d s → Q () s) :
    (markLocked i).wp Q R F s := by
  refine hQ { s with lockedRegions := Function.update s.lockedRegions i true } ⟨h.data, h.locks, fun j hj => ?_⟩
  change Function.update s.lockedRegions i true j = true at hj
  rw [Function.update_apply] at hj
  split_ifs at hj with hji
  · rw [hji]; exact hl
  · exact h.own j hj

theorem At.addLockRegion {Q : Bool → CallState N → Prop} {r : Word} (h : At L d s)
    (hF : ¬ r.toNat < 64 → F .regionIndex)
    (hok : ∀ s, At L d s → r.toNat < 64 → L (.region (toRegion r)) = false → Q true s)
    (hno : ∀ s, At L d s → Q false s) : (addLockRegion r).wp Q R F s := by
  rw [SecurityMonitor.addLockRegion, wp_bind, wp_regionIndex]
  refine ⟨fun hr => ?_, hF⟩
  rw [wp_bind, wp_getLocked, wp_ite]
  refine ⟨fun hi => hok s h hr (h.own _ hi), fun _ => ?_⟩
  rw [wp_bind]
  refine h.acquire (fun s' hs' hl => ?_) hno
  rw [if_pos rfl, wp_bind]
  exact hs'.markLocked hl fun s'' hs'' => hok s'' hs'' hr hl

/-- The end of a failed call that holds the core and the untrusted state. -/
theorem At.abort {R : ApiResult → CallState N → Prop} {T : Data N → Prop} {r : ApiResult} {c : Fin N}
    (h : At L d s) (hc : L (.core c) = false) (hu : L .untrustedState = false) (hr : r ≠ .ok) :
    (unlockCore c).wp (fun _ s => unlockUntrustedState.wp
      (fun _ s => SecurityMonitor.unlockRegions.wp (fun _ s => Ends L d T r s) R F s) R F s) R F s :=
  h.release hc fun _ h => h.release hu fun _ h => h.unlockRegions fun _ h => h.fails hr

/-- The end of a successful call that holds the core and the untrusted state. -/
theorem At.commit {R : ApiResult → CallState N → Prop} {T : Data N → Prop} {d' : Data N} {c : Fin N}
    (h : At L d s) (hc : L (.core c) = false) (hu : L .untrustedState = false) (hT : T d') :
    (SecurityMonitor.setData d').wp (fun _ s => (unlockCore c).wp (fun _ s => unlockUntrustedState.wp
      (fun _ s => SecurityMonitor.unlockRegions.wp (fun _ s => Ends L d T .ok s) R F s) R F s)
      R F s) R F s :=
  h.setData fun _ h => h.release hc fun _ h => h.release hu fun _ h => h.unlockRegions fun _ h =>
    h.succeeds hT

/-- What `region_owner` can return: the owner, or one of two error codes. -/
def OwnerReply (d : Data N) (r v : Word) : Prop :=
  r.toNat < 64 ∧ v = (d.regions (toRegion r)).owner ∨
    ¬ r.toNat < 64 ∧ v = ApiResult.invalidValue.code ∨ v = ApiResult.concurrentCall.code

/-- The address `a` lies in a region owned by `e`. -/
def OwnedBy (d : Data N) (e a : Word) : Prop :=
  (addrToRegionId a).toNat < 64 ∧ (d.regions (regionOf a)).owner = e

/-- The error codes are no enclave ids, so a reply that is one comes from the region. -/
theorem OwnerReply.ownedBy {e a : Word} (h : OwnerReply d (addrToRegionId a) e)
    (he : isPageAligned e = true) : OwnedBy d e a := by
  rw [isPageAligned_iff] at he
  rcases h with ⟨hr, h⟩ | ⟨_, h⟩ | h
  · exact ⟨hr, h.symm⟩
  · rw [h] at he; exact absurd he (by decide)
  · rw [h] at he; exact absurd he (by decide)

theorem At.regionOwner {Q : Word → CallState N → Prop} {r : Word} (h : At L d s)
    (hQ : ∀ s v, At L d s → OwnerReply d r v → Q v s) :
    (regionOwner r).wp E Q F s := by
  simp only [SecurityMonitor.regionOwner, wp_bind, wp_ite, wp_ret,
    Bool.not_eq_true', isValidRegionId_eq_false, not_not]
  refine ⟨fun hr => hQ _ _ h (.inr (.inl ⟨hr, rfl⟩)), fun hr => ?_⟩
  refine h.lockRegion (fun hn => absurd hr hn) (fun s hs _ hl => obtained ?_)
    fun s hs => ⟨fun _ => hQ _ _ hs (.inr (.inr rfl)), fun hn => absurd rfl hn⟩
  exact hs.getData (hs.unlockRegion hr hl fun s hs => hQ _ _ hs (.inl ⟨hr, rfl⟩))

theorem At.regionOwnerLockFree {Q : Word → CallState N → Prop} {r : Word} (h : At L d s)
    (hQ : ∀ s v, At L d s → OwnerReply d r v → Q v s) :
    (regionOwnerLockFree r).wp E Q F s := by
  simp only [SecurityMonitor.regionOwnerLockFree, wp_bind, wp_ite, wp_ret,
    Bool.not_eq_true', isValidRegionId_eq_false, not_not]
  exact ⟨fun hr => hQ _ _ h (.inr (.inl ⟨hr, rfl⟩)),
    fun hr => h.getData (hQ _ _ h (.inl ⟨hr, rfl⟩))⟩

theorem At.failUnlocking {Q : ApiResult → CallState N → Prop} {r : Word} {b : Bool} (h : At L d s)
    (hr : r.toNat < 64) (hb : b = true → L (.region (toRegion r)) = false)
    (hQ : ∀ s, At L d s → Q .invalidState s) :
    (failUnlocking b r).wp E Q F s := by
  simp only [SecurityMonitor.failUnlocking, wp_bind, wp_ret, wp_regionIndex]
  refine ⟨fun _ => ?_, fun hn => absurd hr hn⟩
  cases b with
  | false => exact hQ s h
  | true => exact hQ (s.setLock _ false) (h.unset (hb rfl))

theorem At.addLockRegionIffValidMetadata {Q : ApiResult → CallState N → Prop} {ptr : Word}
    {k : MetadataPage} (h : At L d s)
    (hok : ∀ s, At L d s → ValidMetadata d ptr k → L (.region (regionOf ptr)) = false → Q .ok s)
    (hno : ∀ s r, At L d s → r ≠ .ok → Q r s) :
    (addLockRegionIffValidMetadata ptr k).wp E Q F s := by
  simp only [wp_call, SecurityMonitor.addLockRegionIffValidMetadata, wp_bind, wp_ite, wp_ret,
    wp_getLocked, Bool.not_eq_true', isValidRegionId_eq_false, not_not, Bool.not_eq_false]
  refine ⟨fun _ => hno s _ h nofun, fun ha => ⟨fun _ => hno s _ h nofun, fun hr => ?_⟩⟩
  have hown := h.own (toRegion (addrToRegionId ptr))
  refine h.addLockRegion (fun hn => absurd hr hn) (fun s hs _ hl => ⟨nofun, fun _ => ?_⟩)
    fun s hs => ⟨fun _ => hno s _ hs nofun, fun hn => absurd hn nofun⟩
  refine hs.getData ⟨fun _ => ?_, fun ht => ⟨fun _ => ?_, fun hst => ⟨fun _ => ?_, fun htag => ?_⟩⟩⟩
  · exact hs.failUnlocking hr hown fun s hs => hno s _ hs nofun
  · exact hs.failUnlocking hr hown fun s hs => hno s _ hs nofun
  · exact hs.failUnlocking hr hown fun s hs => hno s _ hs nofun
  · exact hok s hs ⟨⟨ha, hr, ht, hst⟩, htag⟩ hl

theorem At.addLockRegionIffFreeMetadataPages {Q : ApiResult → CallState N → Prop}
    {ptr n : Word} (h : At L d s)
    (hok : ∀ s, At L d s → FreeMetadataPages d ptr n → L (.region (regionOf ptr)) = false → Q .ok s)
    (hno : ∀ s r, At L d s → r ≠ .ok → Q r s) :
    (addLockRegionIffFreeMetadataPages ptr n).wp E Q F s := by
  simp only [wp_call, SecurityMonitor.addLockRegionIffFreeMetadataPages, wp_bind, wp_ite, wp_ret,
    wp_getLocked, Bool.not_eq_true', isValidRegionId_eq_false, isValidPageIdInRegion_eq_false,
    not_not, Bool.not_eq_false]
  refine ⟨fun _ => hno s _ h nofun, fun ha => ⟨fun _ => hno s _ h nofun, fun hr =>
    ⟨fun _ => hno s _ h nofun, fun hp => ?_⟩⟩⟩
  have hown := h.own (toRegion (addrToRegionId ptr))
  refine h.addLockRegion (fun hn => absurd hr hn) (fun s hs _ hl => ⟨nofun, fun _ => ?_⟩)
    fun s hs => ⟨fun _ => hno s _ hs nofun, fun hn => absurd hn nofun⟩
  refine hs.getData ⟨fun _ => ?_, fun ht => ⟨fun _ => ?_, fun hst => ?_⟩⟩
  · exact hs.failUnlocking hr hown fun s hs => hno s _ hs nofun
  · exact hs.failUnlocking hr hown fun s hs => hno s _ hs nofun
  · -- the pages visited so far are free
    refine wp_mono (wp_forEach (List.range n.toNat) (fun done s => At L d s ∧ ∀ i ∈ done,
      pageInfo d.mem (addrToRegionId ptr) (addrToRegionPageId ptr + BitVec.ofNat 64 i) =
        MetadataPage.free.code) ⟨hs, by simp⟩ ?_) (fun _ s hs => ?_) (fun _ _ h => h) fun _ h => h
    · intro done i s hs _
      rw [wp_ite, wp_bind, wp_call]
      refine ⟨fun _ => hs.1.failUnlocking hr hown fun s hs => hno s _ hs nofun, fun hi => ?_⟩
      refine ⟨hs.1, fun j hj => ?_⟩
      rcases List.mem_append.mp hj with hj | hj
      · exact hs.2 j hj
      · rw [List.mem_singleton.mp hj]; exact not_not.mp hi
    · exact hok s hs.1 ⟨⟨ha, hr, ht, hst⟩, hp, fun i hi => hs.2 i (List.mem_range.mpr hi)⟩ hl

end

end SecurityMonitor
