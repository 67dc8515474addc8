/-
  The region calls (`src/api/region_*.c`).

  Each call is the statement sequence of the source; the state transition at its
  end is a pure function on `Data` of its own (`blockRegion`, `assignRegion`,
  ...).  `region_free` is cut into the pieces between which other cores can run:
  its start, one accessibility check per core, and its end.

  In `region_flush` and `region_cache_partitioning` the handshake through
  `llc_sync` and the flush loads have no effect on the state; the other cores
  are taken to answer, and only the checks and updates are kept.

  The specifications have one form, `Ends L d T`: the call fails and leaves the
  data as it is, or it returns `MONITOR_OK` and the new data satisfies `T`; the
  locks held before it are held after it.
-/
import SecurityMonitor.Platform

namespace SecurityMonitor

open ByteMem Prog

variable {N : ℕ}

/-! ## Region states and owners -/

def regionCheckOwned (c : Fin N) (r : Word) : M N ApiResult Empty := do
  if !isValidRegionId r then ret .invalidValue
  let d ← getData
  if !(← lockRegion r) then ret .concurrentCall
  if (d.regions (toRegion r)).state ≠ .owned then
    unlockRegion r
    ret .invalidState
  if (d.regions (toRegion r)).owner ≠ (d.cores c).owner then
    unlockRegion r
    ret .accessDenied
  unlockRegion r
  ret .ok

/-- `region_state`: the state, or the code of an error. -/
def regionState (r : Word) : M N Word Empty := do
  if !isValidRegionId r then ret ApiResult.invalidValue.code
  if !(← lockRegion r) then ret ApiResult.concurrentCall.code
  let d ← getData
  unlockRegion r
  ret (d.regions (toRegion r)).state.code

/-- `flush_llc_region`: it only reads the partition size of the region. -/
def flushLlcRegion {ρ : Type} (r : Word) : M N ρ Unit := do
  let _ ← regionIndex r

def regionFlush (id : Word) : M N ApiResult Empty := do
  if numRegions < id.toNat then ret .invalidValue
  if !(← lockRegion id) then ret .concurrentCall
  let d ← getData
  if (d.regions (toRegion id)).owner ≠ ownerUntrusted then
    unlockRegion id
    ret .invalidState
  flushLlcRegion id
  unlockRegion id
  ret .ok

/-! ## Block -/

def blockRegion (d : Data N) (c : Fin N) (i : Fin 64) : Data N :=
  let formerOwner := (d.regions i).owner
  let d := d.setRegion i { d.regions i with owner := ownerSm }
  let d :=
    if formerOwner ≠ ownerUntrusted ∧ formerOwner ≠ ownerSm then
      platformUpdateEnclaveRegions d c formerOwner i false
    else if formerOwner = ownerUntrusted then platformUpdateUntrustedRegions d c i false
    else d
  d.setRegion i { d.regions i with state := .blocked }

def regionBlock (c : Fin N) (r : Word) : M N ApiResult Empty := do
  if !isValidRegionId r then ret .invalidValue
  let d ← getData
  let region := d.regions (toRegion r)
  if !(← addLockRegion r) then ret .concurrentCall
  if region.state ≠ .owned then
    unlockRegions
    ret .invalidState
  if region.type = .sm then
    unlockRegions
    ret .accessDenied
  if region.owner ≠ (d.cores c).owner then
    unlockRegions
    ret .accessDenied
  if !(← lockUntrustedState) then
    unlockRegions
    ret .concurrentCall
  if !(← lockCore c) then
    unlockUntrustedState
    unlockRegions
    ret .concurrentCall
  if region.owner = ownerSm then
    unlockCore c
    unlockUntrustedState
    unlockRegions
    ret .accessDenied
  if region.owner ≠ ownerUntrusted then
    if (← call (addLockRegionIffValidEnclave region.owner)) ≠ .ok then
      unlockCore c
      unlockUntrustedState
      unlockRegions
      ret .concurrentCall
  setData (blockRegion d c (toRegion r))
  unlockCore c
  unlockUntrustedState
  unlockRegions
  ret .ok

/-! ## Assign and update -/

def assignRegion (d : Data N) (c : Fin N) (i : Fin 64) (newOwner : Word) : Data N :=
  let d := d.setRegion i
    { owner := newOwner
      type := if newOwner = ownerUntrusted then .untrusted else .enclave
      state := .owned }
  if newOwner = ownerUntrusted then platformUpdateUntrustedRegions d c i true
  else platformUpdateEnclaveRegions d c newOwner i true

/-- On an invalid new owner the core and the untrusted state stay locked. -/
def regionAssign (c : Fin N) (r newOwner : Word) : M N ApiResult Empty := do
  if !isValidRegionId r then ret .invalidValue
  if !(← addLockRegion r) then ret .concurrentCall
  let d ← getData
  if (d.regions (toRegion r)).state ≠ .free then
    unlockRegions
    ret .invalidState
  if !(← lockUntrustedState) then
    unlockRegions
    ret .concurrentCall
  if !(← lockCore c) then
    unlockUntrustedState
    unlockRegions
    ret .concurrentCall
  if newOwner ≠ ownerUntrusted then
    let result ← call (addLockRegionIffValidEnclave newOwner)
    if result ≠ .ok then
      unlockRegions
      ret result
  setData (assignRegion d c (toRegion r) newOwner)
  unlockCore c
  unlockUntrustedState
  unlockRegions
  ret .ok

def regionUpdate (c : Fin N) : M N ApiResult Empty := do
  if !(← lockUntrustedState) then ret .concurrentCall
  if !(← lockCore c) then
    unlockUntrustedState
    ret .concurrentCall
  let d ← getData
  setData (platformUpdateMemoryProtection d c)
  unlockCore c
  unlockUntrustedState
  ret .ok

/-! ## Free -/

/-- `region_free` up to its loop over the cores. -/
def regionFreeBegin (r : Word) : M N ApiResult Unit := do
  if !isValidRegionId r then ret .invalidValue
  if !(← addLockRegion r) then ret .concurrentCall
  let d ← getData
  if (d.regions (toRegion r)).state ≠ .blocked then
    unlockRegions
    ret .invalidState

/-- The check of core `c` in `region_free`. -/
def regionFreeCheck (r : Word) (c : Fin N) : M N ApiResult Unit := do
  if !(← lockCore c) then
    unlockRegions
    ret .concurrentCall
  let d ← getData
  if regionIsAccessible (d.cores c).mmrbm r.toNat || regionIsAccessible (d.cores c).memrbm r.toNat then
    unlockCore c
    unlockRegions
    ret .invalidState
  unlockCore c

def freeRegion (d : Data N) (i : Fin 64) : Data N := d.setRegion i { d.regions i with state := .free }

/-- `region_free` after its loop. -/
def regionFreeEnd (r : Word) : M N ApiResult Empty := do
  flushLlcRegion r
  let d ← getData
  setData (freeRegion d (toRegion r))
  unlockRegions
  ret .ok

def regionFree (r : Word) : M N ApiResult Empty := do
  regionFreeBegin r
  forEach (List.finRange N) (regionFreeCheck r)
  regionFreeEnd r

/-! ## Metadata regions -/

/-- `get_metadata_start_page`: the page after the page map. -/
def getMetadataStartPage : ℕ := 1 + (numRegionPages + pageSize - 1) / pageSize

def createMetadataRegion (d : Data N) (i : Fin 64) (r : Word) : Data N :=
  let base := regionIdToAddr r
  let m := (d.mem.set base regionSize 0).fill base numRegionPages fun p =>
    if p < getMetadataStartPage then MetadataPage.invalid.code else MetadataPage.free.code
  { d.setRegion i { owner := ownerSm, type := .metadata, state := .owned } with mem := m }

def regionMetadataCreate (r : Word) : M N ApiResult Empty := do
  if !isValidRegionId r then ret .invalidValue
  if !(← lockRegion r) then ret .concurrentCall
  let d ← getData
  if (d.regions (toRegion r)).state ≠ .free then
    unlockRegion r
    ret .invalidState
  setData (createMetadataRegion d (toRegion r) r)
  unlockRegion r
  ret .ok

/-! ## Cache partitioning -/

/-- The number of leading regions whose size stays the same. -/
def idxFirstMod (part old : Fin 64 → Byte) : ℕ :=
  ((List.finRange 64).takeWhile fun i => part i == old i).length

/-- The loop that looks for a running enclave: it always reads the owner of the first
    core, and leaves the lock of the core at which it stops held. -/
def noEnclavesRunning {ρ : Type} (c₀ : Fin N) : List (Fin N) → M N ρ Bool
  | [] => pure true
  | c :: cs => do
    if !(← lockCore c) then fault .panic
    let d ← getData
    if (d.cores c₀).owner ≠ ownerUntrusted then pure false
    else
      unlockCore c
      noEnclavesRunning c₀ cs

/-- `bases[rid]`: the sizes before region `rid`. -/
def llcBase (part : Fin 64 → Byte) (rid : Fin 64) : ℕ :=
  (((List.finRange 64).take rid).map fun i => 2 ^ (part i).toNat).sum

/-- The word that is written to `LLC_CTRL_ADDR` for a region. -/
def llcCtrlWord (rid : Fin 64) (base size : Word) : Word :=
  (BitVec.ofNat 64 rid <<< 14) + (base <<< 4) + (size <<< 0)

/-- The fields of such a word: region, base and size. -/
def decodeLlcCtrl (w : Word) : ℕ × ℕ × ℕ := ((w >>> 14).toNat, (w >>> 4).toNat % 2 ^ 10, w.toNat % 2 ^ 4)

/-- The controller takes a word. -/
def writeLlcCtrl (slices : Fin 64 → LlcSlice) (w : Word) : Fin 64 → LlcSlice :=
  let (rid, base, size) := decodeLlcCtrl w
  if h : rid < 64 then Function.update slices ⟨rid, h⟩ { base := base, lgsize := size } else slices

/-- The words of the loop over the regions from `first` on. -/
def llcCtrlWords (part : Fin 64 → Byte) (first : ℕ) : List Word :=
  ((List.finRange 64).drop first).map fun rid =>
    llcCtrlWord rid (BitVec.ofNat 64 (llcBase part rid)) (BitVec.ofNat 64 (part rid).toNat)

def setPartitions (d : Data N) (part : Fin 64 → Byte) : Data N :=
  let first := idxFirstMod part d.llcPartitions
  { d with
    llcSlices := (llcCtrlWords part first).foldl writeLlcCtrl d.llcSlices
    llcPartitions := fun i => if first ≤ i then part i else d.llcPartitions i }

def regionCachePartitioning (c : Fin N) (part : Fin 64 → Byte) : M N ApiResult Empty := do
  if !(← lockUntrustedState) then ret .concurrentCall
  if (List.finRange 64).any fun i => decide (10 ≤ (part i).toNat) then
    unlockUntrustedState
    ret .invalidValue
  if 1024 < ((List.finRange 64).map fun i => 2 ^ (part i).toNat).sum then
    unlockUntrustedState
    ret .invalidValue
  let d ← getData
  if idxFirstMod part d.llcPartitions = 0 then
    unlockUntrustedState
    ret .invalidValue
  let idle ← noEnclavesRunning ⟨0, c.pos⟩ (List.finRange N)
  if idle then setData (setPartitions d part)
  unlockUntrustedState
  ret (if idle then .ok else .invalidState)

/-! ## Specifications -/

section
variable {E : Empty → CallState N → Prop} {F : Fault → Prop} {L : LockId N → Bool} {d : Data N}
  {s : CallState N} {c : Fin N} {r : Word}

theorem regionCheckOwned_spec (h : At L d s) :
    (regionCheckOwned c r).wp E (Ends L d fun d' => d' = d) F s := by
  simp only [regionCheckOwned, wp_bind, wp_ite, wp_ret, Bool.not_eq_true', isValidRegionId_eq_false,
    not_not]
  refine ⟨fun _ => h.fails nofun, fun hr => h.getData ?_⟩
  refine h.lockRegion (fun hn => absurd hr hn) (fun s hs _ hl => obtained ⟨fun _ => ?_,
    fun _ => ⟨fun _ => ?_, fun _ => ?_⟩⟩) fun s hs => refused (hs.fails nofun)
  · exact hs.unlockRegion hr hl fun s hs => hs.fails nofun
  · exact hs.unlockRegion hr hl fun s hs => hs.fails nofun
  · exact hs.unlockRegion hr hl fun s hs => hs.succeeds rfl

/-- What a successful `region_block` has checked. -/
structure BlockGuard (L : LockId N → Bool) (d : Data N) (c : Fin N) (r : Word) : Prop where
  valid : r.toNat < 64
  unlocked : L (.region (toRegion r)) = false
  state : (d.regions (toRegion r)).state = .owned
  type : (d.regions (toRegion r)).type ≠ .sm
  owner : (d.regions (toRegion r)).owner = (d.cores c).owner
  notSm : (d.regions (toRegion r)).owner ≠ ownerSm
  enclave : (d.regions (toRegion r)).owner ≠ ownerUntrusted →
    ValidMetadata d (d.regions (toRegion r)).owner .enclave

theorem regionBlock_spec (h : At L d s) : (regionBlock c r).wp E
    (Ends L d fun d' => BlockGuard L d c r ∧ d' = blockRegion d c (toRegion r)) F s := by
  simp only [regionBlock, wp_bind, wp_ite, wp_ret, wp_call, Bool.not_eq_true',
    isValidRegionId_eq_false, not_not, ne_eq]
  refine ⟨fun _ => h.fails nofun, fun hr => h.getData ?_⟩
  refine h.addLockRegion (fun hn => absurd hr hn) (fun s hs _ hl => obtained ?_)
    fun s hs => refused (hs.fails nofun)
  refine ⟨fun _ => hs.unlockRegions fun s hs => hs.fails nofun, fun hstate => ?_⟩
  refine ⟨fun _ => hs.unlockRegions fun s hs => hs.fails nofun, fun htype => ?_⟩
  refine ⟨fun _ => hs.unlockRegions fun s hs => hs.fails nofun, fun howner => ?_⟩
  refine hs.acquire (fun s hs hu => obtained ?_)
    fun s hs => refused (hs.unlockRegions fun s hs => hs.fails nofun)
  refine hs.acquire (fun s hs hc => obtained ?_) fun s hs =>
    refused (hs.release hu fun s hs => hs.unlockRegions fun s hs => hs.fails nofun)
  refine ⟨fun _ => hs.abort hc hu nofun, fun hsm => ⟨fun hut => ?_, fun hut => hs.commit hc hu
    ⟨⟨hr, hl, hstate, htype, howner, hsm, fun h => absurd hut h⟩, rfl⟩⟩⟩
  exact hs.addLockRegionIffValidMetadata
    (fun s hs hv _ => ⟨nofun, fun _ => hs.commit hc hu
      ⟨⟨hr, hl, hstate, htype, howner, hsm, fun _ => hv⟩, rfl⟩⟩)
    fun s r hs hr => ⟨fun _ => hs.abort hc hu nofun, fun h => absurd h hr⟩

/-- What a successful `region_assign` has checked. -/
structure AssignGuard (L : LockId N → Bool) (d : Data N) (r newOwner : Word) : Prop where
  valid : r.toNat < 64
  unlocked : L (.region (toRegion r)) = false
  state : (d.regions (toRegion r)).state = .free
  enclave : newOwner ≠ ownerUntrusted → ValidMetadata d newOwner .enclave

theorem regionAssign_spec {newOwner : Word} (h : At L d s) : (regionAssign c r newOwner).wp E
    (Ends L d fun d' => AssignGuard L d r newOwner ∧ d' = assignRegion d c (toRegion r) newOwner)
    F s := by
  simp only [regionAssign, wp_bind, wp_ite, wp_ret, wp_call, Bool.not_eq_true',
    isValidRegionId_eq_false, not_not, ne_eq]
  refine ⟨fun _ => h.fails nofun, fun hr => ?_⟩
  refine h.addLockRegion (fun hn => absurd hr hn) (fun s hs _ hl => obtained (hs.getData ?_))
    fun s hs => refused (hs.fails nofun)
  refine ⟨fun _ => hs.unlockRegions fun s hs => hs.fails nofun, fun hstate => ?_⟩
  refine hs.acquire (fun s hs hu => obtained ?_)
    fun s hs => refused (hs.unlockRegions fun s hs => hs.fails nofun)
  refine hs.acquire (fun s hs hc => obtained ?_) fun s hs =>
    refused (hs.release hu fun s hs => hs.unlockRegions fun s hs => hs.fails nofun)
  refine ⟨fun _ => ?_, fun hut => hs.commit hc hu ⟨⟨hr, hl, hstate, fun h => absurd hut h⟩, rfl⟩⟩
  exact hs.addLockRegionIffValidMetadata
    (fun s hs hv _ => ⟨fun hn => absurd rfl hn,
      fun _ => hs.commit hc hu ⟨⟨hr, hl, hstate, fun _ => hv⟩, rfl⟩⟩)
    fun s r hs hr => ⟨fun _ => hs.unlockRegions fun s hs => hs.fails hr, fun h => absurd h hr⟩

theorem regionUpdate_spec (h : At L d s) : (regionUpdate c).wp E
    (Ends L d fun d' => d' = platformUpdateMemoryProtection d c) F s := by
  simp only [regionUpdate, wp_bind, wp_ite, wp_ret, Bool.not_eq_true']
  refine h.acquire (fun s hs hu => obtained ?_) fun s hs => refused (hs.fails nofun)
  refine hs.acquire (fun s hs hc => obtained (hs.getData ?_))
    fun s hs => refused (hs.release hu fun s hs => hs.fails nofun)
  exact hs.setData fun s hs => hs.release hc fun s hs => hs.release hu fun s hs => hs.succeeds rfl

theorem regionMetadataCreate_spec (h : At L d s) : (regionMetadataCreate r).wp E
    (Ends L d fun d' => r.toNat < 64 ∧ L (.region (toRegion r)) = false ∧
      (d.regions (toRegion r)).state = .free ∧ d' = createMetadataRegion d (toRegion r) r) F s := by
  simp only [regionMetadataCreate, wp_bind, wp_ite, wp_ret, Bool.not_eq_true',
    isValidRegionId_eq_false, not_not, ne_eq]
  refine ⟨fun _ => h.fails nofun, fun hr => ?_⟩
  refine h.lockRegion (fun hn => absurd hr hn) (fun s hs _ hl => obtained (hs.getData ?_))
    fun s hs => refused (hs.fails nofun)
  refine ⟨fun _ => hs.unlockRegion hr hl fun s hs => hs.fails nofun, fun hstate => ?_⟩
  exact hs.setData fun s hs => hs.unlockRegion hr hl fun s hs => hs.succeeds ⟨hr, hl, hstate, rfl⟩

/-- The index `NUM_REGIONS` passes the check of `region_flush`. -/
theorem regionFlush_spec (h : At L d s) (hF : r.toNat = 64 → F .regionIndex) :
    (regionFlush r).wp E (Ends L d fun d' => d' = d) F s := by
  simp only [regionFlush, flushLlcRegion, wp_bind, wp_ite, wp_ret, wp_pure, wp_regionIndex,
    Bool.not_eq_true', numRegions, not_lt]
  refine ⟨fun _ => h.fails nofun, fun hr => ?_⟩
  refine h.lockRegion (fun hn => hF (by omega)) (fun s hs hr hl => obtained (hs.getData ?_))
    fun s hs => refused (hs.fails nofun)
  refine ⟨fun _ => hs.unlockRegion hr hl fun s hs => hs.fails nofun, fun _ => ⟨fun _ => ?_,
    fun hn => absurd hr (by omega)⟩⟩
  exact hs.unlockRegion hr hl fun s hs => hs.succeeds rfl

theorem At.noEnclavesRunning {ρ : Type} {Q : Bool → CallState N → Prop}
    {R : ρ → CallState N → Prop} (hF : F .panic) (hQ : ∀ b s, At L d s → Q b s) (c₀ : Fin N) :
    ∀ (cs : List (Fin N)) {s : CallState N}, At L d s → (noEnclavesRunning c₀ cs).wp Q R F s
  | [], s, h => hQ true s h
  | c :: cs, s, h => by
    simp only [SecurityMonitor.noEnclavesRunning, wp_bind, wp_ite, wp_fault, Bool.not_eq_true']
    refine h.acquire (fun s hs hc => obtained (hs.getData ⟨fun _ => hQ _ _ hs, fun _ => ?_⟩))
      fun s hs => refused hF
    exact hs.release hc fun s hs => At.noEnclavesRunning hF hQ c₀ cs hs

/-- What a successful `region_cache_partitioning` has checked. -/
structure PartitionGuard (d : Data N) (part : Fin 64 → Byte) : Prop where
  sizes : ∀ i, (part i).toNat < 10
  sum : ((List.finRange 64).map fun i => 2 ^ (part i).toNat).sum ≤ 1024
  first : idxFirstMod part d.llcPartitions ≠ 0

theorem regionCachePartitioning_spec {part : Fin 64 → Byte} (h : At L d s) (hF : F .panic) :
    (regionCachePartitioning c part).wp E
      (Ends L d fun d' => PartitionGuard d part ∧ d' = setPartitions d part) F s := by
  simp only [regionCachePartitioning, wp_bind, wp_ite, wp_ret, Bool.not_eq_true']
  refine h.acquire (fun s hs hu => obtained ?_) fun s hs => refused (hs.fails nofun)
  refine ⟨fun _ => hs.release hu fun s hs => hs.fails nofun, fun hsizes => ?_⟩
  refine ⟨fun _ => hs.release hu fun s hs => hs.fails nofun, fun hsum => hs.getData ?_⟩
  refine ⟨fun _ => hs.release hu fun s hs => hs.fails nofun, fun hfirst => ?_⟩
  have hg : PartitionGuard d part := by
    refine ⟨fun i => not_le.mp fun hi => hsizes ?_, not_lt.mp hsum, hfirst⟩
    exact List.any_eq_true.mpr ⟨i, List.mem_finRange i, decide_eq_true hi⟩
  refine At.noEnclavesRunning hF (fun b s hs => ?_) _ _ hs
  cases b with
  | true =>
    exact ⟨fun _ => hs.setData fun s hs => hs.release hu fun s hs => hs.succeeds ⟨hg, rfl⟩, nofun⟩
  | false => exact ⟨nofun, fun _ => hs.release hu fun s hs => hs.fails nofun⟩

/-! ### Free -/

/-- The first region that a call locks. -/
theorem wp_addLockRegion {Q : Bool → CallState N → Prop} {R : ApiResult → CallState N → Prop}
    (hr : r.toNat < 64) (hn : s.lockedRegions (toRegion r) = false)
    (hno : s.locks (.region (toRegion r)) = true → Q false s)
    (hok : s.locks (.region (toRegion r)) = false → Q true
      { s with
        locks := Function.update s.locks (.region (toRegion r)) true
        lockedRegions := Function.update s.lockedRegions (toRegion r) true }) :
    (addLockRegion r).wp Q R F s := by
  rw [addLockRegion, wp_bind, wp_regionIndex]
  refine ⟨fun _ => ?_, fun h => absurd hr h⟩
  rw [wp_bind, wp_getLocked, if_neg (by rw [hn]; simp), wp_bind]
  show wp (if !s.locks _ then _ else _) Q R F (s.setLock _ true)
  cases hl : s.locks (.region (toRegion r)) with
  | false => exact hok hl
  | true =>
    have : Function.update s.locks (.region (toRegion r)) true = s.locks := by
      rw [← hl, Function.update_eq_self]
    rw [CallState.setLock, this]
    exact hno hl

/-- After `region_free` has started, its region is locked and blocked. -/
theorem regionFreeBegin_spec (h : At L d s) (hn : ∀ i, s.lockedRegions i = false) :
    (regionFreeBegin r).wp
      (fun _ s' => r.toNat < 64 ∧ (d.regions (toRegion r)).state = .blocked ∧ s'.data = d ∧
        s.locks (.region (toRegion r)) = false ∧
        s'.locks = Function.update s.locks (.region (toRegion r)) true ∧
        s'.lockedRegions = Function.update s.lockedRegions (toRegion r) true)
      (fun x s' => x ≠ .ok ∧ At L d s') F s := by
  simp only [regionFreeBegin, wp_bind, wp_ite, wp_ret, wp_pure, Bool.not_eq_true',
    isValidRegionId_eq_false, not_not, ne_eq]
  refine ⟨fun _ => ⟨nofun, h⟩, fun hr => ?_⟩
  refine wp_addLockRegion hr (hn _) (fun _ => refused (⟨nofun, h⟩)) fun hl => obtained ?_
  have hs : At L d { s with
      locks := Function.update s.locks (.region (toRegion r)) true
      lockedRegions := Function.update s.lockedRegions (toRegion r) true } := by
    have hL : L (.region (toRegion r)) = false := by
      by_contra hL; rw [h.locks _ (Bool.not_eq_false _ ▸ hL)] at hl; exact absurd hl nofun
    refine ⟨h.data, fun l hl' => ?_, fun i hi => ?_⟩
    · show Function.update s.locks _ true l = true
      rw [Function.update_apply]; split_ifs
      · rfl
      · exact h.locks l hl'
    · change Function.update s.lockedRegions _ true i = true at hi
      rw [Function.update_apply] at hi
      split_ifs at hi with hir
      · rw [hir]; exact hL
      · rw [hn i] at hi; exact absurd hi nofun
  exact hs.getData ⟨fun _ => hs.unlockRegions fun s hs => ⟨nofun, hs⟩,
    fun hb => ⟨hr, hb, h.data, hl, rfl, rfl⟩⟩

/-- A check that passes leaves the locks as they are. -/
theorem regionFreeCheck_spec (h : At L d s) : (regionFreeCheck r c).wp
    (fun _ s' => s'.data = d ∧ s'.locks = s.locks ∧ s'.lockedRegions = s.lockedRegions ∧
      regionIsAccessible (d.cores c).mmrbm r.toNat = false ∧
      regionIsAccessible (d.cores c).memrbm r.toNat = false)
    (fun x s' => x ≠ .ok ∧ At L d s') F s := by
  simp only [regionFreeCheck, wp_bind, wp_ite, wp_ret, Bool.not_eq_true', Bool.or_eq_true, not_or,
    Bool.not_eq_true]
  show (((!s.locks (.core c)) = false) → wp _ _ _ _ (s.setLock (.core c) true)) ∧
    (¬((!s.locks (.core c)) = false) → wp _ _ _ _ (s.setLock (.core c) true))
  cases hl : s.locks (.core c) with
  | true =>
    have : Function.update s.locks (.core c) true = s.locks := by rw [← hl, Function.update_eq_self]
    rw [CallState.setLock, this]
    exact refused (h.unlockRegions fun s hs => ⟨nofun, hs⟩)
  | false =>
    have hL : L (.core c) = false := by
      by_contra hL; rw [h.locks _ (Bool.not_eq_false _ ▸ hL)] at hl; exact absurd hl nofun
    refine obtained ?_
    have hs : At L d { s with locks := Function.update s.locks (.core c) true } := by
      refine ⟨h.data, fun l hl' => ?_, h.own⟩
      show Function.update s.locks _ true l = true
      rw [Function.update_apply]; split_ifs
      · rfl
      · exact h.locks l hl'
    refine hs.getData ⟨fun _ => hs.release hL fun s hs => hs.unlockRegions fun s hs => ⟨nofun, hs⟩,
      fun hacc => ⟨h.data, ?_, rfl, hacc.1, hacc.2⟩⟩
    show Function.update (Function.update s.locks _ true) _ false = s.locks
    rw [Function.update_idem, ← hl, Function.update_eq_self]

theorem regionFreeEnd_spec (h : At L d s) (hF : ¬ r.toNat < 64 → F .regionIndex) :
    (regionFreeEnd r).wp E (fun x s' => x = .ok ∧ r.toNat < 64 ∧
      At L (freeRegion d (toRegion r)) s') F s := by
  simp only [regionFreeEnd, flushLlcRegion, wp_bind, wp_ret, wp_pure, wp_regionIndex]
  exact ⟨fun hr => h.getData (h.setData fun s hs => hs.unlockRegions fun s hs => ⟨trivial, hr, hs⟩), hF⟩

end

end SecurityMonitor
