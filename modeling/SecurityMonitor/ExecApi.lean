/-
  The calls that run and tear down enclaves (`src/api/enclave_enter.c`,
  `enclave_exit.c`, `src/handle_enclave/enclave_aex.c`, `src/api/enclave_delete.c`,
  `thread_delete.c`).

  A trap hands the call a `TrapContext`: the register frame, the trapping pc and
  the time.  `enclave_exit` reads everything it restores from the memory at the
  core's thread id, whatever is stored there by then.

  `enclave_delete` clears the region of the enclave's own metadata once for each
  region in the enclave's map, and it rereads the map and the number of mailboxes
  after each step.
-/
import SecurityMonitor.BuildApi

namespace SecurityMonitor

open ByteMem Prog

variable {N : ℕ}

/-- What a trap hands to the monitor. -/
structure TrapContext where
  regs : Fin 32 → Word
  mepc : Word
  mtime : Word

/-! ## Enter -/

/-- The stack of core `c` for traps from untrusted software. -/
def untrustedFaultSpOf (img : Image N) (c : Fin N) : Word :=
  img.stackPtr - BitVec.ofNat 64 (c * stackSize) - BitVec.ofNat 64 mentryFrameSize

/-- The updates of the thread's metadata on entry. -/
def saveUntrusted (img : Image N) (m : Mem) (c : Fin N) (t : Word) (ctx : TrapContext) : Mem :=
  let aex := (threadMetadata m t).aexPresent != 0
  let m := Thread.setUntrustedState m t ctx.regs
  let m := Thread.setUntrustedPc m t ctx.mepc
  let m := Thread.setUntrustedFaultPc m t (img.trapVectorFromUntrusted &&& ~~~3)
  let m := Thread.setUntrustedFaultSp m t (untrustedFaultSpOf img c)
  if aex then Thread.setAexPresent m t false else m

def enterEnclave (img : Image N) (d : Data N) (c : Fin N) (e t : Word) (ctx : TrapContext) : Data N :=
  let T := d.thread t
  let regs : Fin 32 → Word := fun i => if T.aexPresent != 0 then T.aexState i else 0
  let d := { d with mem := saveUntrusted img d.mem c t ctx }
  let d := d.setCore c { d.cores c with owner := e, thread := t }
  let d := d.setHart c { d.harts c with mstatus := mstatusForSMode (d.harts c).mstatus, regs := regs }
  let d := platformSetEnclavePageTable d c e t
  let d := platformMemoryProtectionEnterEnclave d c e t
  let d := platformInterruptsEnterEnclave d c t
  d.setHart c { d.harts c with
    mtvec := (d.enclave e).faultPc
    mepc := (d.thread t).entryPc
    mscratch := (d.enclave e).faultSpBase - BitVec.ofNat 64 (c * stackSize) -
      BitVec.ofNat 64 integerContextSize
    timecmp := ctx.mtime + (d.thread t).timerLimit }

/-- A failed check of the thread leaves the enclave's region locked.  The wait for the
    core lock inside `platform_memory_protection_enter_enclave` ends at once, because
    the lock is held, and the lock is then released. -/
def enclaveEnter (img : Image N) (c : Fin N) (e t : Word) (ctx : TrapContext) :
    M N ApiResult Empty := do
  let result ← call (addLockRegionIffValidEnclave e)
  if result ≠ .ok then ret result
  let d ← getData
  if (d.enclave e).initState ≠ enclaveStateInitialized then
    unlockRegions
    ret .invalidState
  let result ← call (addLockRegionIffValidThread t)
  if result ≠ .ok then ret result
  if (d.thread t).isScheduled ≠ 0 then
    unlockRegions
    ret .invalidState
  if (d.thread t).owner ≠ e then
    unlockRegions
    ret .invalidState
  if !(← lockCore c) then
    unlockRegions
    ret .concurrentCall
  setData (enterEnclave img d c e t ctx)
  let _ ← platformLockAcquire (.core c)
  unlockCore c
  unlockRegions
  unlockCore c
  ret .ok

/-! ## Exit -/

/-- The loop that pushes the saved registers on the stack `sp`. -/
def pushUntrustedState (m : Mem) (t sp : Word) : Mem :=
  (List.finRange 32).foldl
    (fun m (i : Fin 32) => m.store64 (off sp (8 * i)) (m.load64 (off t (40 + 8 * i)))) m

def exitEnclave (d : Data N) (c : Fin N) (aexPresent : Bool) : Data N :=
  let t := (d.cores c).thread
  let d := d.setCore c { d.cores c with owner := ownerUntrusted, thread := 0 }
  let d := { d with mem := Thread.setAexPresent d.mem t aexPresent }
  let d := d.setHart c { d.harts c with mstatus := mstatusForSMode (d.harts c).mstatus }
  let d := platformMemoryProtectionExitEnclave d c t
  let d := platformRestoreUntrustedPageTable d c t
  let d := platformInterruptsExitEnclave d c t
  let sp := (d.thread t).untrustedFaultSp
  let d := d.setHart c { d.harts c with
    mepc := (d.thread t).untrustedPc
    mtvec := (d.thread t).untrustedFaultPc }
  let m := pushUntrustedState d.mem t sp
  { d.setHart c { d.harts c with regs := m.loadWords sp 32 } with mem := m }

def performEnclaveExit (c : Fin N) (aexPresent : Bool) : M N ApiResult Empty := do
  clearLocked
  if !(← lockCore c) then ret .concurrentCall
  let d ← getData
  if !(← addLockRegion (addrToRegionId (d.cores c).thread)) then
    unlockRegions
    unlockCore c
    ret .concurrentCall
  setData (exitEnclave d c aexPresent)
  unlockRegions
  unlockCore c
  ret .ok

def enclaveExit (c : Fin N) : M N ApiResult Empty := performEnclaveExit c false

/-- `sm_internal_enclave_aex`; when the exit does not happen the monitor panics. -/
def enclaveAex (c : Fin N) (regs : Fin 32 → Word) : M N ApiResult Empty := do
  let d ← getData
  let t := (d.cores c).thread
  if !(← addLockRegion (addrToRegionId t)) then fault .panic
  setData { d with mem := Thread.setAexState d.mem t regs }
  unlockRegions
  let result ← call (performEnclaveExit c true)
  if result ≠ .ok then fault .panic
  ret .ok

/-! ## Delete -/

/-- One iteration of the loop that blocks the enclave's regions. -/
def blockEnclaveRegion (e : Word) (d : Data N) (i : Fin 64) : Data N :=
  if (d.enclave e).flag i then
    { d.setRegion i { d.regions i with state := .blocked, owner := ownerSm } with
      mem := d.mem.set (regionIdToAddr (addrToRegionId e)) regionSize 0 }
  else d

def deleteEnclave (d : Data N) (e : Word) : Data N :=
  let d := (List.finRange 64).foldl (blockEnclaveRegion e) d
  let pages := enclaveMetadataPages (d.enclave e).numMailboxes
  let m := freePages d.mem e pages
  { d with mem := m.set e (pages * BitVec.ofNat 64 pageSize).toNat 0 }

def enclaveDelete (c : Fin N) (e : Word) : M N ApiResult Empty := do
  let result ← call (addLockRegionIffValidEnclave e)
  if result ≠ .ok then ret result
  let d ← getData
  if 0 < (d.enclave e).numThreads.toInt then
    unlockRegions
    ret .invalidState
  forEach (List.finRange 64) fun i => do
    if (d.enclave e).flag i then
      if !(← platformLockAcquire (.region i)) then
        unlockRegions
        ret .concurrentCall
      markLocked i
  if !(← lockUntrustedState) then
    unlockRegions
    ret .invalidState
  if !(← lockCore c) then
    unlockUntrustedState
    unlockRegions
    ret .invalidState
  setData (deleteEnclave d e)
  unlockCore c
  unlockUntrustedState
  unlockRegions
  ret .ok

def deleteThread (m : Mem) (t : Word) : Mem :=
  let e := (threadMetadata m t).owner
  let m := Enclave.setNumThreads m e ((enclaveMetadata m e).numThreads - 1)
  let m := m.set t sizeofThreadMetadata 0
  freePages m t threadMetadataPages

def threadDelete (t : Word) : M N ApiResult Empty := do
  let result ← call (addLockRegionIffValidThread t)
  if result ≠ .ok then ret result
  let d ← getData
  if !(← addLockRegion (addrToRegionId (d.thread t).owner)) then
    unlockRegions
    ret .concurrentCall
  if (d.thread t).isScheduled ≠ 0 then
    unlockRegions
    ret .invalidState
  setData { d with mem := deleteThread d.mem t }
  unlockRegions
  ret .ok

/-! ## Specifications -/

section
variable {E : Empty → CallState N → Prop} {F : Fault → Prop} {L : LockId N → Bool} {d : Data N}
  {s : CallState N} {img : Image N} {c : Fin N} {e t : Word}

/-- What a successful `enclave_enter` has checked. -/
structure EnterGuard (d : Data N) (e t : Word) : Prop where
  enclave : ValidMetadata d e .enclave
  state : (d.enclave e).initState = enclaveStateInitialized
  thread : ValidMetadata d t .thread
  notScheduled : (d.thread t).isScheduled = 0
  owner : (d.thread t).owner = e

theorem enclaveEnter_spec {ctx : TrapContext} (h : At L d s) : (enclaveEnter img c e t ctx).wp E
    (Ends L d fun d' => EnterGuard d e t ∧ d' = enterEnclave img d c e t ctx) F s := by
  simp only [enclaveEnter, wp_bind, wp_ite, wp_ret, wp_call, ne_eq, not_not, Bool.not_eq_true']
  refine h.addLockRegionIffValidMetadata (fun s hs he _ => ⟨fun hn => absurd rfl hn, fun _ =>
    hs.getData ?_⟩) fun s r hs hr => ⟨fun _ => hs.fails hr, fun h => absurd h hr⟩
  refine ⟨fun _ => hs.unlockRegions fun s hs => hs.fails nofun, fun hst => ?_⟩
  refine hs.addLockRegionIffValidMetadata (fun s hs ht _ => ⟨fun hn => absurd rfl hn, fun _ => ?_⟩)
    fun s r hs hr => ⟨fun _ => hs.fails hr, fun h => absurd h hr⟩
  refine ⟨fun _ => hs.unlockRegions fun s hs => hs.fails nofun, fun hsched => ?_⟩
  refine ⟨fun _ => hs.unlockRegions fun s hs => hs.fails nofun, fun howner => ?_⟩
  refine hs.acquire (fun s hs hc => obtained (hs.setData fun s hs => ?_))
    fun s hs => refused (hs.unlockRegions fun s hs => hs.fails nofun)
  have hend : ∀ s, At L (enterEnclave img d c e t ctx) s → (unlockCore c).wp (fun _ s =>
      unlockRegions.wp (fun _ s => (unlockCore c).wp (fun _ s => Ends L d (fun d' =>
        EnterGuard d e t ∧ d' = enterEnclave img d c e t ctx) .ok s)
        (Ends L d fun d' => EnterGuard d e t ∧ d' = enterEnclave img d c e t ctx) F s)
        (Ends L d fun d' => EnterGuard d e t ∧ d' = enterEnclave img d c e t ctx) F s)
        (Ends L d fun d' => EnterGuard d e t ∧ d' = enterEnclave img d c e t ctx) F s :=
    fun s hs => hs.release hc fun s hs => hs.unlockRegions fun s hs => hs.release hc fun s hs =>
      hs.succeeds ⟨⟨he, hst, ht, hsched, howner⟩, rfl⟩
  exact hs.acquire (fun s hs _ => hend s hs) hend

theorem performEnclaveExit_spec {aex : Bool} (h : At L d s)
    (hF : ¬ (addrToRegionId (d.cores c).thread).toNat < 64 → F .regionIndex) :
    (performEnclaveExit c aex).wp E (Ends L d fun d' => d' = exitEnclave d c aex) F s := by
  simp only [performEnclaveExit, wp_bind, wp_ite, wp_ret, Bool.not_eq_true']
  refine h.clearLocked fun s hs => hs.acquire (fun s hs hc => obtained (hs.getData ?_))
    fun s hs => refused (hs.fails nofun)
  refine hs.addLockRegion hF (fun s hs _ _ => obtained ?_) fun s hs =>
    refused (hs.unlockRegions fun s hs => hs.release hc fun s hs => hs.fails nofun)
  exact hs.setData fun s hs => hs.unlockRegions fun s hs => hs.release hc fun s hs =>
    hs.succeeds rfl

/-- An asynchronous exit saves the registers and exits. -/
def aexEnclave (d : Data N) (c : Fin N) (regs : Fin 32 → Word) : Data N :=
  exitEnclave { d with mem := Thread.setAexState d.mem (d.cores c).thread regs } c true

theorem enclaveAex_spec {regs : Fin 32 → Word} (h : At L d s) (hP : F .panic)
    (hF : ¬ (addrToRegionId (d.cores c).thread).toNat < 64 → F .regionIndex) :
    (enclaveAex c regs).wp E (fun r s => r = .ok ∧ At L (aexEnclave d c regs) s) F s := by
  simp only [enclaveAex, wp_bind, wp_ite, wp_ret, wp_fault, wp_call, ne_eq, not_not,
    Bool.not_eq_true']
  refine h.getData (h.addLockRegion hF (fun s hs _ _ => obtained ?_)
    fun s hs => refused hP)
  refine hs.setData fun s hs => hs.unlockRegions fun s hs => ?_
  refine wp_mono (performEnclaveExit_spec hs hF) (fun _ _ h => h) ?_ fun _ h => h
  rintro r s ⟨d', hs, ⟨hr, -⟩ | ⟨rfl, hd⟩⟩
  · exact ⟨fun _ => hP, fun h => absurd h hr⟩
  · rw [hd] at hs
    exact ⟨fun hn => absurd rfl hn, fun _ => ⟨trivial, hs⟩⟩

/-- What a successful `enclave_delete` has checked. -/
structure DeleteGuard (L : LockId N → Bool) (d : Data N) (e : Word) : Prop where
  enclave : ValidMetadata d e .enclave
  noThreads : (d.enclave e).numThreads.toInt ≤ 0
  unlocked : ∀ i, (d.enclave e).flag i = true → L (.region i) = false

theorem enclaveDelete_spec (h : At L d s) : (enclaveDelete c e).wp E
    (Ends L d fun d' => DeleteGuard L d e ∧ d' = deleteEnclave d e) F s := by
  simp only [enclaveDelete, wp_bind, wp_ite, wp_ret, wp_call, ne_eq, not_not, not_lt,
    Bool.not_eq_true']
  refine h.addLockRegionIffValidMetadata (fun s hs he _ => ⟨fun hn => absurd rfl hn, fun _ =>
    hs.getData ?_⟩) fun s r hs hr => ⟨fun _ => hs.fails hr, fun h => absurd h hr⟩
  refine ⟨fun _ => hs.unlockRegions fun s hs => hs.fails nofun, fun hthr => ?_⟩
  -- the regions visited so far were not locked before the call
  refine wp_mono (wp_forEach (List.finRange 64) (fun done s => At L d s ∧ ∀ i ∈ done,
    (d.enclave e).flag i = true → L (.region i) = false) ⟨hs, by simp⟩ ?_) ?_ (fun _ _ h => h)
    fun _ h => h
  · intro done i s ⟨hs, hdone⟩ _
    simp only [wp_bind, wp_ite, wp_ret, wp_pure]
    refine ⟨fun _ => ?_, fun hf => ⟨hs, fun j hj => ?_⟩⟩
    · refine hs.acquire (fun s hs hl => obtained (hs.markLocked hl fun s hs => ⟨hs, fun j hj => ?_⟩))
        fun s hs => refused (hs.unlockRegions fun s hs => hs.fails nofun)
      rcases List.mem_append.mp hj with hj | hj
      · exact hdone j hj
      · rw [List.mem_singleton.mp hj]; exact fun _ => hl
    · rcases List.mem_append.mp hj with hj | hj
      · exact hdone j hj
      · rw [List.mem_singleton.mp hj]; exact fun h => absurd h hf
  · rintro _ s ⟨hs, hall⟩
    refine hs.acquire (fun s hs hu => obtained ?_)
      fun s hs => refused (hs.unlockRegions fun s hs => hs.fails nofun)
    refine hs.acquire (fun s hs hc => obtained ?_) fun s hs =>
      refused (hs.release hu fun s hs => hs.unlockRegions fun s hs => hs.fails nofun)
    exact hs.commit hc hu ⟨⟨he, hthr, fun i => hall i (List.mem_finRange i)⟩, rfl⟩

theorem threadDelete_spec (h : At L d s)
    (hF : ValidMetadata d t .thread → ¬ (addrToRegionId (d.thread t).owner).toNat < 64 →
      F .regionIndex) :
    (threadDelete t).wp E (Ends L d fun d' => ValidMetadata d t .thread ∧
      (addrToRegionId (d.thread t).owner).toNat < 64 ∧
      d' = { d with mem := deleteThread d.mem t }) F s := by
  simp only [threadDelete, wp_bind, wp_ite, wp_ret, wp_call, ne_eq, not_not, Bool.not_eq_true']
  refine h.addLockRegionIffValidMetadata (fun s hs ht _ => ⟨fun hn => absurd rfl hn, fun _ =>
    hs.getData ?_⟩) fun s r hs hr => ⟨fun _ => hs.fails hr, fun h => absurd h hr⟩
  refine hs.addLockRegion (hF ht) (fun s hs hr _ => obtained ⟨fun _ =>
    hs.unlockRegions fun s hs => hs.fails nofun, fun _ => ?_⟩)
    fun s hs => refused (hs.unlockRegions fun s hs => hs.fails nofun)
  exact hs.setData fun s hs => hs.unlockRegions fun s hs => hs.succeeds ⟨ht, hr, rfl⟩

end

end SecurityMonitor
