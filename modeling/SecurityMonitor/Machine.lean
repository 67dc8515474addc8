/-
  The monitor as a system: cores that call it in any interleaving
  (`src/handle_untrusted/api_call_from_untrusted.c`,
  `src/handle_enclave/api_call_from_enclave.c`, `src/init/init.c`).

  A configuration holds the data, the locks, and for each core the `region_free`
  it is in the middle of.  Its transitions are

  * a call by a core, atomic; what the core may call depends on whether it runs
    an enclave;
  * the start and each further step of `region_free`;
  * the timer interrupt of a core that runs an enclave;
  * a store by the software on a core, to a region that the core's region bitmaps
    make accessible.

  A fault ends the run: `exec` has no next configuration then.  The monitor itself goes
  on after an index out of bounds, so what is said about runs is said about runs in
  which no step has one (`IndexFaults`).
-/
import SecurityMonitor.MailApi
import SecurityMonitor.Lib.Run

namespace SecurityMonitor

open ByteMem Prog

variable {N : ℕ}

/-! ## Calls -/

inductive Call where
  | enclaveCreate (e evBase evMask numMailboxes : Word) (debug : Bool)
  | enclaveDelete (e : Word)
  | enclaveEnter (e t : Word)
  | enclaveExit
  | enclaveInit (e : Word)
  | enclaveLoadHandler (e physAddr : Word)
  | enclaveLoadPageTable (e physAddr virtualAddr level acl : Word)
  | enclaveLoadPage (e physAddr virtualAddr osAddr acl : Word)
  | enclaveMetadataPages (numMailboxes : Word)
  | enclaveGetAttest (e addrM addrPk addrS : Word)
  | enclaveGetKeys (addrM addrPk addrSk addrS : Word)
  | getPublicField (field outBuffer : Word)
  | mailAccept (id expectedSender : Word)
  | mailReceive (id outMessage outSenderMeasurement : Word)
  | mailSend (recipient id : Word) (message : Bytes 256)
  | regionAssign (r newOwner : Word)
  | regionBlock (r : Word)
  | regionCheckOwned (r : Word)
  | regionUpdate
  | regionMetadataCreate (r : Word)
  | regionMetadataPages
  | regionMetadataStart
  | regionOwner (r : Word)
  | regionState (r : Word)
  | regionCachePartitioning (part : Fin 64 → Byte)
  | regionFlush (r : Word)
  | threadDelete (t : Word)
  | threadLoad (e t entryPc entryStack timerLimit : Word)
  | threadMetadataPages

/-- The value returned in `a0`, and what was copied to the caller. -/
structure Reply where
  value : Word
  outputs : Outputs

def Reply.ofResult (r : ApiResult) : Reply := ⟨r.code, []⟩

def returnResult (p : M N ApiResult Empty) : M N Reply Empty := do
  let r ← call p
  ret (.ofResult r)

def returnOutputs (p : M N (ApiResult × Outputs) Empty) : M N Reply Empty := do
  let r ← call p
  ret ⟨r.1.code, r.2⟩

def returnValue (p : M N Word Empty) : M N Reply Empty := do
  let v ← call p
  ret ⟨v, []⟩

/-- `ecall_from_s_trap`: the calls of untrusted software. -/
def ecallFromUntrusted (img : Image N) (c : Fin N) (ctx : TrapContext) : Call → M N Reply Empty
  | .enclaveCreate e b m n debug => returnResult (enclaveCreate e b m n debug)
  | .enclaveDelete e => returnResult (enclaveDelete c e)
  | .enclaveEnter e t => returnResult (enclaveEnter img c e t ctx)
  | .enclaveInit e => returnResult (enclaveInit img e)
  | .enclaveLoadHandler e p => returnResult (enclaveLoadHandler img e p)
  | .enclaveLoadPageTable e p v l a => returnResult (enclaveLoadPageTable e p v l a)
  | .enclaveLoadPage e p v o a => returnResult (enclaveLoadPage e p v o a)
  | .enclaveMetadataPages n => ret ⟨enclaveMetadataPages n, []⟩
  | .enclaveGetAttest e m p s => returnOutputs (enclaveGetAttest e m p s)
  | .getPublicField f o => returnOutputs (getPublicField f o)
  | .mailAccept id x => returnResult (mailAccept c id x)
  | .mailReceive id o m => returnOutputs (mailReceive c id o m)
  | .mailSend x id msg => returnResult (mailSend c x id msg)
  | .regionAssign r o => returnResult (regionAssign c r o)
  | .regionBlock r => returnResult (regionBlock c r)
  | .regionUpdate => returnResult (regionUpdate c)
  | .regionMetadataCreate r => returnResult (regionMetadataCreate r)
  | .regionMetadataPages => ret ⟨BitVec.ofNat 64 numRegionPages, []⟩
  | .regionMetadataStart => ret ⟨BitVec.ofNat 64 getMetadataStartPage, []⟩
  | .regionOwner r => returnValue (regionOwner r)
  | .regionState r => returnValue (regionState r)
  | .regionCachePartitioning p => returnResult (regionCachePartitioning c p)
  | .regionFlush r => returnResult (regionFlush r)
  | .threadDelete t => returnResult (threadDelete t)
  | .threadLoad e t pc sp l => returnResult (threadLoad e t pc sp l)
  | .threadMetadataPages => ret ⟨threadMetadataPages, []⟩
  | .enclaveExit | .enclaveGetKeys .. | .regionCheckOwned _ => ret (.ofResult .unsupported)

/-- `ecall_from_enclave_trap`: the calls of enclaves. -/
def ecallFromEnclave (c : Fin N) : Call → M N Reply Empty
  | .enclaveExit => returnResult (enclaveExit c)
  | .enclaveGetKeys m p s a => returnOutputs (enclaveGetKeys c m p s a)
  | .getPublicField f o => returnOutputs (getPublicField f o)
  | .mailAccept id x => returnResult (mailAccept c id x)
  | .mailReceive id o m => returnOutputs (mailReceive c id o m)
  | .mailSend x id msg => returnResult (mailSend c x id msg)
  | .regionBlock r => returnResult (regionBlock c r)
  | .regionCheckOwned r => returnResult (regionCheckOwned c r)
  | _ => ret (.ofResult .unsupported)

/-! ## Configurations and steps -/

/-- A `region_free` in progress: its region, the next core to check, and its map of
    locked regions. -/
structure FreeCall where
  regionId : Word
  next : ℕ
  lockedRegions : Fin 64 → Bool

structure Config (N : ℕ) where
  data : Data N
  locks : LockId N → Bool
  pending : Fin N → Option FreeCall

inductive Label (N : ℕ) where
  | call (c : Fin N) (k : Call) (ctx : TrapContext)
  | regionFree (c : Fin N) (r : Word)
  | regionFreeStep (c : Fin N)
  | timer (c : Fin N) (regs : Fin 32 → Word)
  | userStore (c : Fin N) (a : Word) (v : Byte)

namespace Config

/-- The state of a call that starts now. -/
def start (s : Config N) : CallState N := ⟨s.data, s.locks, fun _ => false⟩

/-- The configuration after a call left the state `s'`. -/
def after (s : Config N) (s' : CallState N) : Config N := { s with data := s'.data, locks := s'.locks }

def setPending (s : Config N) (c : Fin N) (p : Option FreeCall) : Config N :=
  { s with pending := Function.update s.pending c p }

end Config

/-- Core `c` may store to `a`. -/
def CanStore (s : Config N) (c : Fin N) (a : Word) : Prop :=
  (addrToRegionId a).toNat < 64 ∧
    (regionIsAccessible (s.data.harts c).mmrbm (regionOf a) = true ∨
      regionIsAccessible (s.data.harts c).memrbm (regionOf a) = true)

instance (s : Config N) (c : Fin N) (a : Word) : Decidable (CanStore s c a) :=
  inferInstanceAs (Decidable (_ ∧ _))

/-- The end of a call that does not fall through. -/
def finish (s : Config N) {ρ : Type} (f : ρ → Reply) :
    Outcome (CallState N) ρ Fault Empty → Except Fault (Option Reply × Config N)
  | .next a _ => a.elim
  | .ret r s' => .ok (some (f r), s.after s')
  | .fault x => .error x

/-- The next piece of the `region_free` that core `c` is in. -/
def execFreeStep (s : Config N) (c : Fin N) (p : FreeCall) : Except Fault (Option Reply × Config N) :=
  let start : CallState N := ⟨s.data, s.locks, p.lockedRegions⟩
  if h : p.next < N then
    match (regionFreeCheck p.regionId ⟨p.next, h⟩).run start with
    | .next _ s' => .ok (none, (s.after s').setPending c (some { p with next := p.next + 1 }))
    | .ret r s' => .ok (some (.ofResult r), (s.after s').setPending c none)
    | .fault x => .error x
  else finish (s.setPending c none) .ofResult ((regionFreeEnd p.regionId).run start)

/-- One transition: `none` if the label is not enabled. -/
def tryExec (img : Image N) (s : Config N) : Label N → Option (Except Fault (Option Reply × Config N))
  | .call c k ctx =>
    if (s.pending c).isSome then none
    else some (finish s id
      ((if (s.data.cores c).owner = ownerUntrusted then ecallFromUntrusted img c ctx k
        else ecallFromEnclave c k).run s.start))
  | .regionFree c r =>
    if (s.pending c).isSome then none
    else if (s.data.cores c).owner ≠ ownerUntrusted then
      some (.ok (some (.ofResult .unsupported), s))
    else some (match (regionFreeBegin r).run s.start with
      | .next _ s' => .ok (none, (s.after s').setPending c (some ⟨r, 0, s'.lockedRegions⟩))
      | .ret x s' => .ok (some (.ofResult x), s.after s')
      | .fault x => .error x)
  | .regionFreeStep c => (s.pending c).map (execFreeStep s c)
  | .timer c regs =>
    if (s.pending c).isSome ∨ (s.data.cores c).owner = ownerUntrusted then none
    else some (finish s .ofResult ((enclaveAex c regs).run s.start))
  | .userStore c a v =>
    if (s.pending c).isSome ∨ ¬ CanStore s c a then none
    else some (.ok (none, { s with data := { s.data with mem := s.data.mem.store8 a v } }))

/-- One transition that does not fault. -/
def exec (img : Image N) (s : Config N) (l : Label N) : Option (Option Reply × Config N) :=
  match tryExec img s l with
  | some (.ok r) => some r
  | _ => none

/-- A label with the reply it got: `none` while a call is not finished, and for stores. -/
abbrev Event (N : ℕ) := Label N × Option Reply

def Step (img : Image N) (s : Config N) (e : Event N) (s' : Config N) : Prop :=
  exec img s e.1 = some (e.2, s')

/-- The step uses an index outside `regions`, `locked_regions.flags` or
    `llc_partitions.lgsizes`. -/
def IndexFaults (img : Image N) (s : Config N) (l : Label N) : Prop :=
  tryExec img s l = some (.error .regionIndex)

theorem Step.not_indexFaults {img : Image N} {s s' : Config N} {e : Event N} (h : Step img s e s') :
    ¬ IndexFaults img s e.1 := by
  intro hf
  rw [IndexFaults] at hf
  rw [Step, exec, hf] at h
  cases h

/-! ## The start -/

/-- What the monitor finds at boot: its keys, the contents of memory and the harts. -/
structure Boot (N : ℕ) where
  keys : Keys
  mem : Mem
  harts : Fin N → Hart

/-- Region `i` does not include the monitor. -/
def regionDoesntIncludeSm (i : Fin 64) : Bool :=
  decide (smLastAddress < regionIdToAddr (BitVec.ofNat 64 i))

/-- `sm_init` on the first core. -/
def initState (boot : Boot N) : Data N where
  keys := boot.keys
  cores := fun _ => { owner := ownerUntrusted, thread := enclaveThreadNone, mmrbm := 0, memrbm := 0 }
  regions := fun i =>
    if regionDoesntIncludeSm i then ⟨ownerUntrusted, .untrusted, .owned⟩ else ⟨ownerSm, .sm, .owned⟩
  untrustedRegions := regionDoesntIncludeSm
  untrustedMailboxes := fun _ =>
    { state := mailboxStateUnused, expectedSender := 0, senderMeasurement := fun _ => 0
      message := fun _ => 0 }
  llcPartitions := fun _ => 4
  -- what the controller holds before it is written
  llcSlices := fun i => { base := 16 * i, lgsize := 4 }
  harts := boot.harts
  mem := boot.mem

/-- `platform_core_init` and `platform_initialize_memory_protection` of core `c`. -/
def initCore (img : Image N) (d : Data N) (c : Fin N) : Data N :=
  let d := d.setHart c { d.harts c with
    mtvec := img.trapVectorFromUntrusted &&& ~~~3
    mstatus := mstatusForSMode 0
    mevbase := mvbaseDefault
    mevmask := mvmaskDefault }
  platformUpdateMemoryProtection d c

/-- The configuration after `sm_init` on all cores. -/
def smInit (img : Image N) (boot : Boot N) : Config N where
  data := (List.finRange N).foldl (initCore img) (initState boot)
  locks := fun _ => false
  pending := fun _ => none

end SecurityMonitor
