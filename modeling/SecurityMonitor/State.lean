/-
  The state of the security monitor (`src/sm_types.h`, `api/api_types.h`) and
  of the machine it runs on.

  * `Data N` is `sm_state_t` for `N` cores without its locks, together with the
    physical memory and the control registers of the harts;
  * the locks are kept apart, as a function from `LockId N`: no call reads or
    writes anything else through a lock;
  * `CallState N` is what a call works on: it adds the call's own
    `locked_regions` map;
  * `Instr N` are the instructions of calls: they read and write data, locks and
    the map.  A call is a tree of them, so that it can be run in one go or with
    other cores in between;
  * `Image N` holds what the monitor's binary fixes: the trap vector, the stacks,
    the enclave handler, and the two signature functions, which are not unfolded.

  A use of an array index outside the array, and `platform_panic`, are faults.
  The monitor reads its `sm_state` from `Data N`, not from the bytes of the memory at
  its address; no step of a careful run writes there (`CarefulRun.smState_kept`).
-/
import SecurityMonitor.Sha512
import SecurityMonitor.Lib.Prog

namespace SecurityMonitor

open ByteMem

/-! ## Enumerations -/

/-- `api_result_t`. -/
inductive ApiResult where
  | ok
  | invalidValue
  | invalidState
  | concurrentCall
  | asyncExit
  | accessDenied
  | unsupported
  deriving DecidableEq, Repr

/-- The value of an `api_result_t` in a register. -/
def ApiResult.code : ApiResult → Word
  | ok => 0
  | invalidValue => 1
  | invalidState => 2
  | concurrentCall => 3
  | asyncExit => 4
  | accessDenied => 5
  | unsupported => 6

/-- `region_type_t`. -/
inductive RegionType where
  | sm
  | untrusted
  | enclave
  | metadata
  deriving DecidableEq, Repr

/-- `region_state_t`. -/
inductive RegionState where
  | invalid
  | free
  | owned
  | blocked
  deriving DecidableEq, Repr

def RegionState.code : RegionState → Word
  | invalid => 0
  | free => 1
  | owned => 2
  | blocked => 3

/-- `metadata_page_t`: the tags of the page map of a metadata region. -/
inductive MetadataPage where
  | invalid
  | free
  | enclave
  | thread
  deriving DecidableEq, Repr

def MetadataPage.code : MetadataPage → Byte
  | invalid => 0
  | free => 1
  | enclave => 2
  | thread => 3

/-! ## Records -/

/-- `sm_region_t` without its lock. -/
structure Region where
  owner : Word
  type : RegionType
  state : RegionState
  deriving DecidableEq

/-- `sm_core_t` without its lock. -/
structure Core where
  owner : Word
  thread : Word
  mmrbm : Word
  memrbm : Word

/-- The control registers of a hart that the monitor writes, its timer, and the
    register frame of the trap being handled. -/
structure Hart where
  mepc : Word
  mtvec : Word
  mscratch : Word
  mstatus : Word
  mevbase : Word
  mevmask : Word
  mmrbm : Word
  memrbm : Word
  meparbase : Word
  meparmask : Word
  meatp : Word
  mie : Word
  mideleg : Word
  medeleg : Word
  timecmp : Word
  regs : Fin 32 → Word

/-- `sm_keys_t`, the fields that calls read. -/
structure Keys where
  manufacturerPublicKey : Bytes 32
  devicePublicKey : Bytes 32
  deviceSignature : Bytes 64
  softwareMeasurement : Bytes 64
  softwarePublicKey : Bytes 32
  softwareSecretKey : Bytes 64
  softwareSignature : Bytes 64

/-- An entry of the LLC controller: the slice of a region has `2 ^ lgsize` sets from `base` on. -/
structure LlcSlice where
  base : ℕ
  lgsize : ℕ
  deriving DecidableEq

/-- The state of the monitor, the harts, the LLC controller and the memory. -/
structure Data (N : ℕ) where
  keys : Keys
  cores : Fin N → Core
  regions : Fin 64 → Region
  untrustedRegions : Fin 64 → Bool
  untrustedMailboxes : Fin 8 → Mailbox
  llcPartitions : Fin 64 → Byte
  llcSlices : Fin 64 → LlcSlice
  harts : Fin N → Hart
  mem : Mem

/-- The locks: one per region, one per core, and the lock of the untrusted state. -/
inductive LockId (N : ℕ) where
  | region (i : Fin 64)
  | core (c : Fin N)
  | untrustedState
  deriving DecidableEq

/-- What a call works on. -/
structure CallState (N : ℕ) where
  data : Data N
  locks : LockId N → Bool
  lockedRegions : Fin 64 → Bool

inductive Fault where
  /-- an index outside `regions`, `locked_regions.flags` or `llc_partitions.lgsizes` -/
  | regionIndex
  | panic
  deriving DecidableEq, Repr

/-- The instructions of calls. -/
inductive Instr (N : ℕ) where
  | getData
  | setData (d : Data N)
  | acquire (l : LockId N)
  | release (l : LockId N)
  /-- the flags of `locked_regions` -/
  | getLocked
  /-- `locked_regions->flags[i] = true` -/
  | markLocked (i : Fin 64)
  /-- a new `locked_regions` -/
  | clearLocked
  /-- what the checks of metadata pages do about the lock of region `i` when they fail -/
  | undo (previouslyLocked : Bool) (i : Fin 64)

@[reducible] def Instr.Answer {N : ℕ} : Instr N → Type
  | getData => Data N
  | acquire _ => Bool
  | getLocked => Fin 64 → Bool
  | _ => Unit

namespace CallState

variable {N : ℕ}

def setLock (s : CallState N) (l : LockId N) (b : Bool) : CallState N :=
  { s with locks := Function.update s.locks l b }

/-- A lock is acquired by a swap, so a failed acquire leaves it held.  The undo of the
    source runs if the region had been locked before. -/
def exec : (i : Instr N) → CallState N → i.Answer × CallState N
  | .getData, s => (s.data, s)
  | .setData d, s => ((), { s with data := d })
  | .acquire l, s => (!s.locks l, s.setLock l true)
  | .release l, s => ((), s.setLock l false)
  | .getLocked, s => (s.lockedRegions, s)
  | .markLocked i, s => ((), { s with lockedRegions := Function.update s.lockedRegions i true })
  | .clearLocked, s => ((), { s with lockedRegions := fun _ => false })
  | .undo previouslyLocked i, s => ((), if previouslyLocked then s.setLock (.region i) false else s)

end CallState

instance callHandler {N : ℕ} : Handler (Instr.Answer (N := N)) (CallState N) := ⟨CallState.exec⟩

/-- A statement of the monitor, in a function that returns a `ρ`; a whole function
    is an `M N ρ Empty`. -/
abbrev M (N : ℕ) (ρ α : Type) := Prog (Instr.Answer (N := N)) ρ Fault α

/-- What the binary of the monitor fixes.  The stacks of all cores lie inside the
    monitor's memory, and so does the handler that is copied into enclaves. -/
structure Image (N : ℕ) where
  trapVectorFromUntrusted : Word
  stackPtr : Word
  enclaveHandler : List Byte
  computePublicSigningKey : Bytes 64 → Bytes 32
  sign : List Byte → Bytes 32 → Bytes 64 → Bytes 64
  stack_lo : smAddr.toNat + N * stackSize ≤ stackPtr.toNat
  stack_hi : stackPtr.toNat ≤ smAddr.toNat + smLen
  handler_le : enclaveHandler.length ≤ smLen

namespace Data

variable {N : ℕ}

def setRegion (d : Data N) (i : Fin 64) (r : Region) : Data N :=
  { d with regions := Function.update d.regions i r }

def setCore (d : Data N) (c : Fin N) (k : Core) : Data N :=
  { d with cores := Function.update d.cores c k }

def setHart (d : Data N) (c : Fin N) (h : Hart) : Data N :=
  { d with harts := Function.update d.harts c h }

def setUntrustedMailbox (d : Data N) (i : Fin 8) (b : Mailbox) : Data N :=
  { d with untrustedMailboxes := Function.update d.untrustedMailboxes i b }

def enclave (d : Data N) (e : Word) : EnclaveMetadata := enclaveMetadata d.mem e

def thread (d : Data N) (t : Word) : ThreadMetadata := threadMetadata d.mem t

end Data

/-- A flag of a region map, as a C `bool`. -/
def EnclaveMetadata.flag (e : EnclaveMetadata) (i : Fin 64) : Bool := e.regions i != 0

end SecurityMonitor
