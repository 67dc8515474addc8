/-
  The layout of the metadata structures in physical memory
  (`src/sm_types.h`, `platform/platform_types.h`, `crypto/ed25519/sha512.h`).

  Enclave and thread metadata live in physical memory at the address that is
  the enclave's or thread's id, so a structure is read and written field by
  field at its C offset (RV64, natural alignment):

  * `enclaveMetadata m e`, `threadMetadata m t`, `mailbox m a` and
    `hashContext m a` read the structure at an address;
  * `Enclave.set...`, `Thread.set...` and `Mailbox.set...` are the assignments
    to one field; what the structure at the same address reads as afterwards is
    said for all fields at once (`enclaveMetadata_store`, ...);
  * `enclaveMetadata_agree`, ...: a structure only depends on its own bytes.

  Whatever is stored at an address, it can be read as any of the structures.
-/
import SecurityMonitor.Params

namespace SecurityMonitor

open ByteMem

/-! ## Loads at an offset after a fill at another offset -/

section
variable {m : Mem} {a : Word} {i j k n : ℕ} {f : ℕ → Byte}

@[simp] theorem load8_fill_off (h : j + 1 ≤ i ∨ i + k ≤ j) (hj : j + 1 ≤ 2 ^ 64) (hi : i + k ≤ 2 ^ 64) :
    (m.fill (off a i) k f).load8 (off a j) = m.load8 (off a j) := Mem.load8_fill (sep_off h hj hi)

@[simp] theorem load32_fill_off (h : j + 4 ≤ i ∨ i + k ≤ j) (hj : j + 4 ≤ 2 ^ 64) (hi : i + k ≤ 2 ^ 64) :
    (m.fill (off a i) k f).load32 (off a j) = m.load32 (off a j) :=
  Mem.load32_fill (sep_off h hj hi)

@[simp] theorem load64_fill_off (h : j + 8 ≤ i ∨ i + k ≤ j) (hj : j + 8 ≤ 2 ^ 64) (hi : i + k ≤ 2 ^ 64) :
    (m.fill (off a i) k f).load64 (off a j) = m.load64 (off a j) :=
  Mem.load64_fill (sep_off h hj hi)

@[simp] theorem loadBytes_fill_off (h : j + n ≤ i ∨ i + k ≤ j) (hj : j + n ≤ 2 ^ 64)
    (hi : i + k ≤ 2 ^ 64) :
    (m.fill (off a i) k f).loadBytes (off a j) n = m.loadBytes (off a j) n :=
  Mem.loadBytes_fill (sep_off h hj hi) (by omega)

@[simp] theorem loadWords_fill_off (h : j + 8 * n ≤ i ∨ i + k ≤ j) (hj : j + 8 * n ≤ 2 ^ 64)
    (hi : i + k ≤ 2 ^ 64) :
    (m.fill (off a i) k f).loadWords (off a j) n = m.loadWords (off a j) n :=
  Mem.loadWords_fill (sep_off h hj hi) (by omega)

end

/-! ## Hash contexts -/

/-- `sha512_context` (208 bytes). -/
structure HashContext where
  length : Word
  state : Fin 8 → Word
  curlen : Word
  buf : Bytes 128

def hashContext (m : Mem) (a : Word) : HashContext where
  length := m.load64 (off a 0)
  state := m.loadWords (off a 8) 8
  curlen := m.load64 (off a 72)
  buf := m.loadBytes (off a 80) 128

def storeHashContext (m : Mem) (a : Word) (c : HashContext) : Mem :=
  (((m.store64 (off a 0) c.length).storeWords (off a 8) c.state).store64 (off a 72)
    c.curlen).storeBytes (off a 80) c.buf

/-! ## Mailboxes -/

/-- `mailbox_t` (336 bytes). -/
structure Mailbox where
  state : BitVec 32
  expectedSender : Word
  senderMeasurement : Bytes 64
  message : Bytes 256

def mailboxStateUnused : BitVec 32 := 0
def mailboxStateEmpty : BitVec 32 := 1
def mailboxStateFull : BitVec 32 := 2

def mailbox (m : Mem) (a : Word) : Mailbox where
  state := m.load32 (off a 0)
  expectedSender := m.load64 (off a 8)
  senderMeasurement := m.loadBytes (off a 16) 64
  message := m.loadBytes (off a 80) 256

namespace Mailbox

def setState (m : Mem) (a : Word) (v : BitVec 32) : Mem := m.store32 (off a 0) v
def setExpectedSender (m : Mem) (a v : Word) : Mem := m.store64 (off a 8) v
def setSenderMeasurement (m : Mem) (a : Word) (v : Bytes 64) : Mem := m.storeBytes (off a 16) v
def setMessage (m : Mem) (a : Word) (v : Bytes 256) : Mem := m.storeBytes (off a 80) v

end Mailbox

/-! ## Enclave metadata -/

/-- `enclave_metadata_t` without its mailboxes (592 bytes). -/
structure EnclaveMetadata where
  initState : BitVec 32
  lastPhysAddrLoaded : Word
  hashContext : HashContext
  evBase : Word
  evMask : Word
  meparbase : Word
  meparmask : Word
  eptbr : Word
  numMailboxes : Word
  debug : Byte
  measurement : Bytes 64
  publicKey : Bytes 32
  secretKey : Bytes 64
  attestation : Bytes 64
  faultPc : Word
  faultSpBase : Word
  numThreads : Word
  regions : Bytes 64

def enclaveStateCreated : BitVec 32 := 0
def enclaveStateHandlerLoaded : BitVec 32 := 1
def enclaveStatePageTablesLoaded : BitVec 32 := 2
def enclaveStatePageDataLoaded : BitVec 32 := 3
def enclaveStateInitialized : BitVec 32 := 4

def enclaveMetadata (m : Mem) (e : Word) : EnclaveMetadata where
  initState := m.load32 (off e 0)
  lastPhysAddrLoaded := m.load64 (off e 8)
  hashContext := hashContext m (off e 16)
  evBase := m.load64 (off e 224)
  evMask := m.load64 (off e 232)
  meparbase := m.load64 (off e 240)
  meparmask := m.load64 (off e 248)
  eptbr := m.load64 (off e 256)
  numMailboxes := m.load64 (off e 264)
  debug := m.load8 (off e 272)
  measurement := m.loadBytes (off e 273) 64
  publicKey := m.loadBytes (off e 337) 32
  secretKey := m.loadBytes (off e 369) 64
  attestation := m.loadBytes (off e 433) 64
  faultPc := m.load64 (off e 504)
  faultSpBase := m.load64 (off e 512)
  numThreads := m.load64 (off e 520)
  regions := m.loadBytes (off e 528) 64

def sizeofEnclaveMetadata : ℕ := 592
def sizeofMailbox : ℕ := 336
def sizeofThreadMetadata : ℕ := 912

/-- The address of `mailboxes[id]` of the enclave at `e`, computed modulo `2 ^ 64`. -/
def mailboxAddr (e id : Word) : Word := off e sizeofEnclaveMetadata + id * BitVec.ofNat 64 sizeofMailbox

namespace Enclave

def setInitState (m : Mem) (e : Word) (v : BitVec 32) : Mem := m.store32 (off e 0) v
def setLastPhysAddrLoaded (m : Mem) (e v : Word) : Mem := m.store64 (off e 8) v
def setHashContext (m : Mem) (e : Word) (c : HashContext) : Mem := storeHashContext m (off e 16) c
def setEvBase (m : Mem) (e v : Word) : Mem := m.store64 (off e 224) v
def setEvMask (m : Mem) (e v : Word) : Mem := m.store64 (off e 232) v
def setMeparbase (m : Mem) (e v : Word) : Mem := m.store64 (off e 240) v
def setMeparmask (m : Mem) (e v : Word) : Mem := m.store64 (off e 248) v
def setEptbr (m : Mem) (e v : Word) : Mem := m.store64 (off e 256) v
def setNumMailboxes (m : Mem) (e v : Word) : Mem := m.store64 (off e 264) v
def setDebug (m : Mem) (e : Word) (v : Byte) : Mem := m.store8 (off e 272) v
def setMeasurement (m : Mem) (e : Word) (v : Bytes 64) : Mem := m.storeBytes (off e 273) v
def setPublicKey (m : Mem) (e : Word) (v : Bytes 32) : Mem := m.storeBytes (off e 337) v
def setSecretKey (m : Mem) (e : Word) (v : Bytes 64) : Mem := m.storeBytes (off e 369) v
def setAttestation (m : Mem) (e : Word) (v : Bytes 64) : Mem := m.storeBytes (off e 433) v
def setFaultPc (m : Mem) (e v : Word) : Mem := m.store64 (off e 504) v
def setFaultSpBase (m : Mem) (e v : Word) : Mem := m.store64 (off e 512) v
def setNumThreads (m : Mem) (e v : Word) : Mem := m.store64 (off e 520) v
def setRegion (m : Mem) (e : Word) (r : Fin 64) (v : Bool) : Mem :=
  m.store8 (off e (528 + r)) (if v then 1 else 0)

end Enclave

/-! ## Thread metadata -/

/-- `thread_metadata_t` (912 bytes). -/
structure ThreadMetadata where
  owner : Word
  entryPc : Word
  entrySp : Word
  isScheduled : Byte
  untrustedPc : Word
  untrustedState : Fin 32 → Word
  untrustedFaultPc : Word
  untrustedFaultSp : Word
  faultState : Fin 32 → Word
  aexPresent : Byte
  aexState : Fin 32 → Word
  timerLimit : Word
  evBase : Word
  evMask : Word
  memrbm : Word
  meparbase : Word
  meparmask : Word
  eptbr : Word
  mie : Word
  mideleg : Word
  medeleg : Word

def threadMetadata (m : Mem) (t : Word) : ThreadMetadata where
  owner := m.load64 (off t 0)
  entryPc := m.load64 (off t 8)
  entrySp := m.load64 (off t 16)
  isScheduled := m.load8 (off t 24)
  untrustedPc := m.load64 (off t 32)
  untrustedState := m.loadWords (off t 40) 32
  untrustedFaultPc := m.load64 (off t 296)
  untrustedFaultSp := m.load64 (off t 304)
  faultState := m.loadWords (off t 312) 32
  aexPresent := m.load8 (off t 568)
  aexState := m.loadWords (off t 576) 32
  timerLimit := m.load64 (off t 832)
  evBase := m.load64 (off t 840)
  evMask := m.load64 (off t 848)
  memrbm := m.load64 (off t 856)
  meparbase := m.load64 (off t 864)
  meparmask := m.load64 (off t 872)
  eptbr := m.load64 (off t 880)
  mie := m.load64 (off t 888)
  mideleg := m.load64 (off t 896)
  medeleg := m.load64 (off t 904)

namespace Thread

def setOwner (m : Mem) (t v : Word) : Mem := m.store64 (off t 0) v
def setEntryPc (m : Mem) (t v : Word) : Mem := m.store64 (off t 8) v
def setEntrySp (m : Mem) (t v : Word) : Mem := m.store64 (off t 16) v
def setUntrustedPc (m : Mem) (t v : Word) : Mem := m.store64 (off t 32) v
def setUntrustedState (m : Mem) (t : Word) (v : Fin 32 → Word) : Mem := m.storeWords (off t 40) v
def setUntrustedFaultPc (m : Mem) (t v : Word) : Mem := m.store64 (off t 296) v
def setUntrustedFaultSp (m : Mem) (t v : Word) : Mem := m.store64 (off t 304) v
def setAexPresent (m : Mem) (t : Word) (v : Bool) : Mem :=
  m.store8 (off t 568) (if v then 1 else 0)
def setAexState (m : Mem) (t : Word) (v : Fin 32 → Word) : Mem := m.storeWords (off t 576) v
def setTimerLimit (m : Mem) (t v : Word) : Mem := m.store64 (off t 832) v
def setEvBase (m : Mem) (t v : Word) : Mem := m.store64 (off t 840) v
def setEvMask (m : Mem) (t v : Word) : Mem := m.store64 (off t 848) v
def setMemrbm (m : Mem) (t v : Word) : Mem := m.store64 (off t 856) v
def setMeparbase (m : Mem) (t v : Word) : Mem := m.store64 (off t 864) v
def setMeparmask (m : Mem) (t v : Word) : Mem := m.store64 (off t 872) v
def setEptbr (m : Mem) (t v : Word) : Mem := m.store64 (off t 880) v
def setMie (m : Mem) (t v : Word) : Mem := m.store64 (off t 888) v
def setMideleg (m : Mem) (t v : Word) : Mem := m.store64 (off t 896) v
def setMedeleg (m : Mem) (t v : Word) : Mem := m.store64 (off t 904) v

end Thread

/-! ## Assignments to a field

An assignment changes its own field of the structure at the same address and
nothing else of it. -/

/-- The types of the fields. -/
inductive FieldType where
  | byte
  | int
  | word
  | bytes (n : ℕ)
  | words (n : ℕ)

namespace FieldType

abbrev Val : FieldType → Type
  | byte => Byte
  | int => BitVec 32
  | word => Word
  | bytes n => Bytes n
  | words n => Fin n → Word

def store (m : Mem) (a : Word) : (ty : FieldType) → ty.Val → Mem
  | byte, v => m.store8 a v
  | int, v => m.store32 a v
  | word, v => m.store64 a v
  | bytes _, v => m.storeBytes a v
  | words _, v => m.storeWords a v

end FieldType

/-- The fields of an enclave's metadata that are assigned as a whole. -/
inductive EnclaveField : FieldType → Type
  | initState : EnclaveField .int
  | lastPhysAddrLoaded : EnclaveField .word
  | evBase : EnclaveField .word
  | evMask : EnclaveField .word
  | meparbase : EnclaveField .word
  | meparmask : EnclaveField .word
  | eptbr : EnclaveField .word
  | numMailboxes : EnclaveField .word
  | faultPc : EnclaveField .word
  | faultSpBase : EnclaveField .word
  | numThreads : EnclaveField .word
  | debug : EnclaveField .byte
  | measurement : EnclaveField (.bytes 64)
  | secretKey : EnclaveField (.bytes 64)
  | attestation : EnclaveField (.bytes 64)
  | publicKey : EnclaveField (.bytes 32)

namespace EnclaveField

variable {ty : FieldType}

def offset : EnclaveField ty → ℕ
  | initState => 0
  | lastPhysAddrLoaded => 8
  | evBase => 224
  | evMask => 232
  | meparbase => 240
  | meparmask => 248
  | eptbr => 256
  | numMailboxes => 264
  | debug => 272
  | measurement => 273
  | publicKey => 337
  | secretKey => 369
  | attestation => 433
  | faultPc => 504
  | faultSpBase => 512
  | numThreads => 520

def set : EnclaveField ty → ty.Val → EnclaveMetadata → EnclaveMetadata
  | initState, v, E => { E with initState := v }
  | lastPhysAddrLoaded, v, E => { E with lastPhysAddrLoaded := v }
  | evBase, v, E => { E with evBase := v }
  | evMask, v, E => { E with evMask := v }
  | meparbase, v, E => { E with meparbase := v }
  | meparmask, v, E => { E with meparmask := v }
  | eptbr, v, E => { E with eptbr := v }
  | numMailboxes, v, E => { E with numMailboxes := v }
  | debug, v, E => { E with debug := v }
  | measurement, v, E => { E with measurement := v }
  | publicKey, v, E => { E with publicKey := v }
  | secretKey, v, E => { E with secretKey := v }
  | attestation, v, E => { E with attestation := v }
  | faultPc, v, E => { E with faultPc := v }
  | faultSpBase, v, E => { E with faultSpBase := v }
  | numThreads, v, E => { E with numThreads := v }

end EnclaveField

/-- The fields of a thread's metadata that are assigned. -/
inductive ThreadField : FieldType → Type
  | owner : ThreadField .word
  | entryPc : ThreadField .word
  | entrySp : ThreadField .word
  | untrustedPc : ThreadField .word
  | untrustedFaultPc : ThreadField .word
  | untrustedFaultSp : ThreadField .word
  | timerLimit : ThreadField .word
  | evBase : ThreadField .word
  | evMask : ThreadField .word
  | memrbm : ThreadField .word
  | meparbase : ThreadField .word
  | meparmask : ThreadField .word
  | eptbr : ThreadField .word
  | mie : ThreadField .word
  | mideleg : ThreadField .word
  | medeleg : ThreadField .word
  | untrustedState : ThreadField (.words 32)
  | aexState : ThreadField (.words 32)
  | aexPresent : ThreadField .byte

namespace ThreadField

variable {ty : FieldType}

def offset : ThreadField ty → ℕ
  | owner => 0
  | entryPc => 8
  | entrySp => 16
  | untrustedPc => 32
  | untrustedState => 40
  | untrustedFaultPc => 296
  | untrustedFaultSp => 304
  | aexPresent => 568
  | aexState => 576
  | timerLimit => 832
  | evBase => 840
  | evMask => 848
  | memrbm => 856
  | meparbase => 864
  | meparmask => 872
  | eptbr => 880
  | mie => 888
  | mideleg => 896
  | medeleg => 904

def set : ThreadField ty → ty.Val → ThreadMetadata → ThreadMetadata
  | owner, v, T => { T with owner := v }
  | entryPc, v, T => { T with entryPc := v }
  | entrySp, v, T => { T with entrySp := v }
  | untrustedPc, v, T => { T with untrustedPc := v }
  | untrustedState, v, T => { T with untrustedState := v }
  | untrustedFaultPc, v, T => { T with untrustedFaultPc := v }
  | untrustedFaultSp, v, T => { T with untrustedFaultSp := v }
  | aexPresent, v, T => { T with aexPresent := v }
  | aexState, v, T => { T with aexState := v }
  | timerLimit, v, T => { T with timerLimit := v }
  | evBase, v, T => { T with evBase := v }
  | evMask, v, T => { T with evMask := v }
  | memrbm, v, T => { T with memrbm := v }
  | meparbase, v, T => { T with meparbase := v }
  | meparmask, v, T => { T with meparmask := v }
  | eptbr, v, T => { T with eptbr := v }
  | mie, v, T => { T with mie := v }
  | mideleg, v, T => { T with mideleg := v }
  | medeleg, v, T => { T with medeleg := v }

end ThreadField

/-- The fields of a mailbox. -/
inductive MailboxField : FieldType → Type
  | state : MailboxField .int
  | expectedSender : MailboxField .word
  | senderMeasurement : MailboxField (.bytes 64)
  | message : MailboxField (.bytes 256)

namespace MailboxField

variable {ty : FieldType}

def offset : MailboxField ty → ℕ
  | state => 0
  | expectedSender => 8
  | senderMeasurement => 16
  | message => 80

def set : MailboxField ty → ty.Val → Mailbox → Mailbox
  | state, v, M => { M with state := v }
  | expectedSender, v, M => { M with expectedSender := v }
  | senderMeasurement, v, M => { M with senderMeasurement := v }
  | message, v, M => { M with message := v }

end MailboxField

section
variable (m : Mem) (e t : Word)

theorem enclaveMetadata_store {ty : FieldType} (f : EnclaveField ty) (v : ty.Val) :
    enclaveMetadata (ty.store m (off e f.offset) v) e = f.set v (enclaveMetadata m e) := by
  cases f <;>
  · simp only [enclaveMetadata, hashContext, FieldType.store, EnclaveField.offset, EnclaveField.set, off_off,
      Mem.load8_store8, Mem.load32_store32, Mem.load64_store64, Mem.loadBytes_storeBytes, Nat.reducePow,
      Nat.reduceLeDiff]
    simp [Mem.store8, Mem.store32, Mem.store64, Mem.storeBytes, -off_zero]

@[simp] theorem enclaveMetadata_setInitState (v : BitVec 32) :
    enclaveMetadata (Enclave.setInitState m e v) e = { enclaveMetadata m e with initState := v } :=
  enclaveMetadata_store m e .initState v

@[simp] theorem enclaveMetadata_setLastPhysAddrLoaded (v : Word) :
    enclaveMetadata (Enclave.setLastPhysAddrLoaded m e v) e = { enclaveMetadata m e with lastPhysAddrLoaded := v } :=
  enclaveMetadata_store m e .lastPhysAddrLoaded v

@[simp] theorem enclaveMetadata_setEvBase (v : Word) :
    enclaveMetadata (Enclave.setEvBase m e v) e = { enclaveMetadata m e with evBase := v } :=
  enclaveMetadata_store m e .evBase v

@[simp] theorem enclaveMetadata_setEvMask (v : Word) :
    enclaveMetadata (Enclave.setEvMask m e v) e = { enclaveMetadata m e with evMask := v } :=
  enclaveMetadata_store m e .evMask v

@[simp] theorem enclaveMetadata_setMeparbase (v : Word) :
    enclaveMetadata (Enclave.setMeparbase m e v) e = { enclaveMetadata m e with meparbase := v } :=
  enclaveMetadata_store m e .meparbase v

@[simp] theorem enclaveMetadata_setMeparmask (v : Word) :
    enclaveMetadata (Enclave.setMeparmask m e v) e = { enclaveMetadata m e with meparmask := v } :=
  enclaveMetadata_store m e .meparmask v

@[simp] theorem enclaveMetadata_setEptbr (v : Word) :
    enclaveMetadata (Enclave.setEptbr m e v) e = { enclaveMetadata m e with eptbr := v } :=
  enclaveMetadata_store m e .eptbr v

@[simp] theorem enclaveMetadata_setNumMailboxes (v : Word) :
    enclaveMetadata (Enclave.setNumMailboxes m e v) e = { enclaveMetadata m e with numMailboxes := v } :=
  enclaveMetadata_store m e .numMailboxes v

@[simp] theorem enclaveMetadata_setDebug (v : Byte) :
    enclaveMetadata (Enclave.setDebug m e v) e = { enclaveMetadata m e with debug := v } :=
  enclaveMetadata_store m e .debug v

@[simp] theorem enclaveMetadata_setMeasurement (v : Bytes 64) :
    enclaveMetadata (Enclave.setMeasurement m e v) e = { enclaveMetadata m e with measurement := v } :=
  enclaveMetadata_store m e .measurement v

@[simp] theorem enclaveMetadata_setPublicKey (v : Bytes 32) :
    enclaveMetadata (Enclave.setPublicKey m e v) e = { enclaveMetadata m e with publicKey := v } :=
  enclaveMetadata_store m e .publicKey v

@[simp] theorem enclaveMetadata_setSecretKey (v : Bytes 64) :
    enclaveMetadata (Enclave.setSecretKey m e v) e = { enclaveMetadata m e with secretKey := v } :=
  enclaveMetadata_store m e .secretKey v

@[simp] theorem enclaveMetadata_setAttestation (v : Bytes 64) :
    enclaveMetadata (Enclave.setAttestation m e v) e = { enclaveMetadata m e with attestation := v } :=
  enclaveMetadata_store m e .attestation v

@[simp] theorem enclaveMetadata_setFaultPc (v : Word) :
    enclaveMetadata (Enclave.setFaultPc m e v) e = { enclaveMetadata m e with faultPc := v } :=
  enclaveMetadata_store m e .faultPc v

@[simp] theorem enclaveMetadata_setFaultSpBase (v : Word) :
    enclaveMetadata (Enclave.setFaultSpBase m e v) e = { enclaveMetadata m e with faultSpBase := v } :=
  enclaveMetadata_store m e .faultSpBase v

@[simp] theorem enclaveMetadata_setNumThreads (v : Word) :
    enclaveMetadata (Enclave.setNumThreads m e v) e = { enclaveMetadata m e with numThreads := v } :=
  enclaveMetadata_store m e .numThreads v

theorem hashContext_storeHashContext (c : HashContext) :
    hashContext (storeHashContext m e c) e = c := by
  -- the stores in front of the one to the field that is read
  have h8 (m : Mem) (v : Fin 8 → Word) : m.storeWords (off e 8) v = m.fill (off e 8) (8 * 8) _ := rfl
  have h72 (m : Mem) (v : Word) : m.store64 (off e 72) v = m.fill (off e 72) 8 _ := rfl
  have h80 (m : Mem) (v : Bytes 128) : m.storeBytes (off e 80) v = m.fill (off e 80) 128 _ := rfl
  have hlength : (hashContext (storeHashContext m e c) e).length = c.length := by
    simp [hashContext, storeHashContext, h8, h72, h80, -off_zero]
  have hstate : (hashContext (storeHashContext m e c) e).state = c.state := by
    simp [hashContext, storeHashContext, h72, h80, Mem.loadWords_storeWords, -off_zero]
  have hcurlen : (hashContext (storeHashContext m e c) e).curlen = c.curlen := by
    simp [hashContext, storeHashContext, h80, -off_zero]
  have hbuf : (hashContext (storeHashContext m e c) e).buf = c.buf := by
    simp [hashContext, storeHashContext, Mem.loadBytes_storeBytes, -off_zero]
  cases c
  simp only [hashContext, HashContext.mk.injEq] at *
  exact ⟨hlength, hstate, hcurlen, hbuf⟩

@[simp] theorem enclaveMetadata_setHashContext (c : HashContext) :
    enclaveMetadata (Enclave.setHashContext m e c) e = { enclaveMetadata m e with hashContext := c } := by
  simp only [enclaveMetadata, Enclave.setHashContext, hashContext_storeHashContext]
  simp [storeHashContext, Mem.store64, Mem.storeBytes, Mem.storeWords, off_off, -off_zero]

@[simp] theorem enclaveMetadata_setRegion (r : Fin 64) (v : Bool) :
    enclaveMetadata (Enclave.setRegion m e r v) e =
      { enclaveMetadata m e with
        regions := Function.update (enclaveMetadata m e).regions r (if v then 1 else 0) } := by
  have hr := r.isLt
  generalize hb : (if v then 1 else 0 : Byte) = b
  have hregions : (m.fill (off e (528 + r)) 1 fun _ => b).loadBytes (off e 528) 64 =
      Function.update (m.loadBytes (off e 528) 64) r b := by
    funext i
    have hi := i.isLt
    rw [Mem.loadBytes, off_off, Function.update_apply, Mem.loadBytes, off_off]
    split_ifs with h
    · rw [h]; exact Mem.load8_store8 ..
    · have : i.val ≠ r.val := fun h' => h (Fin.ext h')
      exact load8_fill_off (by omega) (by omega) (by omega)
  simp only [enclaveMetadata, hashContext, Enclave.setRegion, Mem.store8, hb, hregions, off_off]
  simp (disch := omega) [-off_zero]

theorem threadMetadata_store {ty : FieldType} (f : ThreadField ty) (v : ty.Val) :
    threadMetadata (ty.store m (off t f.offset) v) t = f.set v (threadMetadata m t) := by
  cases f <;>
  · simp only [threadMetadata, FieldType.store, ThreadField.offset, ThreadField.set, Mem.load8_store8,
      Mem.load64_store64, Mem.loadWords_storeWords, Nat.reducePow, Nat.reduceLeDiff, Nat.reduceMul]
    simp [Mem.store8, Mem.store64, Mem.storeWords, -off_zero]

@[simp] theorem threadMetadata_setOwner (v : Word) :
    threadMetadata (Thread.setOwner m t v) t = { threadMetadata m t with owner := v } :=
  threadMetadata_store m t .owner v

@[simp] theorem threadMetadata_setEntryPc (v : Word) :
    threadMetadata (Thread.setEntryPc m t v) t = { threadMetadata m t with entryPc := v } :=
  threadMetadata_store m t .entryPc v

@[simp] theorem threadMetadata_setEntrySp (v : Word) :
    threadMetadata (Thread.setEntrySp m t v) t = { threadMetadata m t with entrySp := v } :=
  threadMetadata_store m t .entrySp v

@[simp] theorem threadMetadata_setUntrustedPc (v : Word) :
    threadMetadata (Thread.setUntrustedPc m t v) t = { threadMetadata m t with untrustedPc := v } :=
  threadMetadata_store m t .untrustedPc v

@[simp] theorem threadMetadata_setUntrustedState (v : Fin 32 → Word) :
    threadMetadata (Thread.setUntrustedState m t v) t = { threadMetadata m t with untrustedState := v } :=
  threadMetadata_store m t .untrustedState v

@[simp] theorem threadMetadata_setUntrustedFaultPc (v : Word) :
    threadMetadata (Thread.setUntrustedFaultPc m t v) t = { threadMetadata m t with untrustedFaultPc := v } :=
  threadMetadata_store m t .untrustedFaultPc v

@[simp] theorem threadMetadata_setUntrustedFaultSp (v : Word) :
    threadMetadata (Thread.setUntrustedFaultSp m t v) t = { threadMetadata m t with untrustedFaultSp := v } :=
  threadMetadata_store m t .untrustedFaultSp v

@[simp] theorem threadMetadata_setAexPresent (v : Bool) :
    threadMetadata (Thread.setAexPresent m t v) t = { threadMetadata m t with aexPresent := if v then 1 else 0 } :=
  threadMetadata_store m t .aexPresent (if v then 1 else 0)

@[simp] theorem threadMetadata_setAexState (v : Fin 32 → Word) :
    threadMetadata (Thread.setAexState m t v) t = { threadMetadata m t with aexState := v } :=
  threadMetadata_store m t .aexState v

@[simp] theorem threadMetadata_setTimerLimit (v : Word) :
    threadMetadata (Thread.setTimerLimit m t v) t = { threadMetadata m t with timerLimit := v } :=
  threadMetadata_store m t .timerLimit v

@[simp] theorem threadMetadata_setEvBase (v : Word) :
    threadMetadata (Thread.setEvBase m t v) t = { threadMetadata m t with evBase := v } :=
  threadMetadata_store m t .evBase v

@[simp] theorem threadMetadata_setEvMask (v : Word) :
    threadMetadata (Thread.setEvMask m t v) t = { threadMetadata m t with evMask := v } :=
  threadMetadata_store m t .evMask v

@[simp] theorem threadMetadata_setMemrbm (v : Word) :
    threadMetadata (Thread.setMemrbm m t v) t = { threadMetadata m t with memrbm := v } :=
  threadMetadata_store m t .memrbm v

@[simp] theorem threadMetadata_setMeparbase (v : Word) :
    threadMetadata (Thread.setMeparbase m t v) t = { threadMetadata m t with meparbase := v } :=
  threadMetadata_store m t .meparbase v

@[simp] theorem threadMetadata_setMeparmask (v : Word) :
    threadMetadata (Thread.setMeparmask m t v) t = { threadMetadata m t with meparmask := v } :=
  threadMetadata_store m t .meparmask v

@[simp] theorem threadMetadata_setEptbr (v : Word) :
    threadMetadata (Thread.setEptbr m t v) t = { threadMetadata m t with eptbr := v } :=
  threadMetadata_store m t .eptbr v

@[simp] theorem threadMetadata_setMie (v : Word) :
    threadMetadata (Thread.setMie m t v) t = { threadMetadata m t with mie := v } :=
  threadMetadata_store m t .mie v

@[simp] theorem threadMetadata_setMideleg (v : Word) :
    threadMetadata (Thread.setMideleg m t v) t = { threadMetadata m t with mideleg := v } :=
  threadMetadata_store m t .mideleg v

@[simp] theorem threadMetadata_setMedeleg (v : Word) :
    threadMetadata (Thread.setMedeleg m t v) t = { threadMetadata m t with medeleg := v } :=
  threadMetadata_store m t .medeleg v

theorem mailbox_store {ty : FieldType} (f : MailboxField ty) (v : ty.Val) :
    mailbox (ty.store m (off t f.offset) v) t = f.set v (mailbox m t) := by
  cases f <;>
  · simp only [mailbox, FieldType.store, MailboxField.offset, MailboxField.set, Mem.load32_store32,
      Mem.load64_store64, Mem.loadBytes_storeBytes, Nat.reducePow, Nat.reduceLeDiff]
    simp [Mem.store32, Mem.store64, Mem.storeBytes, -off_zero]

@[simp] theorem mailbox_setState (v : BitVec 32) :
    mailbox (Mailbox.setState m t v) t = { mailbox m t with state := v } :=
  mailbox_store m t .state v

@[simp] theorem mailbox_setExpectedSender (v : Word) :
    mailbox (Mailbox.setExpectedSender m t v) t = { mailbox m t with expectedSender := v } :=
  mailbox_store m t .expectedSender v

@[simp] theorem mailbox_setSenderMeasurement (v : Bytes 64) :
    mailbox (Mailbox.setSenderMeasurement m t v) t = { mailbox m t with senderMeasurement := v } :=
  mailbox_store m t .senderMeasurement v

@[simp] theorem mailbox_setMessage (v : Bytes 256) :
    mailbox (Mailbox.setMessage m t v) t = { mailbox m t with message := v } :=
  mailbox_store m t .message v

end

/-! ## A structure only depends on its own bytes -/

section
variable {m m' : Mem} {a : Word}

theorem load64_agree_off {k n : ℕ} (h : m.AgreeOn m' (range a n)) (hk : k + 8 ≤ n) (hn : n ≤ 2 ^ 64) :
    m.load64 (off a k) = m'.load64 (off a k) :=
  Mem.load64_agree (h.mono (range_off_sub hk hn))

theorem loadBytes_agree_off {k j n : ℕ} (h : m.AgreeOn m' (range a n)) (hk : k + j ≤ n)
    (hn : n ≤ 2 ^ 64) : m.loadBytes (off a k) j = m'.loadBytes (off a k) j :=
  Mem.loadBytes_agree (h.mono (range_off_sub hk hn)) (by omega)

theorem loadWords_agree_off {k j n : ℕ} (h : m.AgreeOn m' (range a n)) (hk : k + 8 * j ≤ n)
    (hn : n ≤ 2 ^ 64) : m.loadWords (off a k) j = m'.loadWords (off a k) j :=
  Mem.loadWords_agree (h.mono (range_off_sub hk hn)) (by omega)

theorem enclaveMetadata_agree (h : m.AgreeOn m' (range a 592)) :
    enclaveMetadata m a = enclaveMetadata m' a := by
  have h32 : m.load32 (off a 0) = m'.load32 (off a 0) :=
    Mem.load32_agree (h.mono (range_off_sub (by decide) (by decide)))
  have h8 : m.load8 (off a 272) = m'.load8 (off a 272) :=
    Mem.load8_agree (h.mono (range_off_sub (by decide) (by decide)))
  simp [enclaveMetadata, hashContext, off_off, h32, h8, load64_agree_off h, loadBytes_agree_off h,
    loadWords_agree_off h, -off_zero]

theorem threadMetadata_agree (h : m.AgreeOn m' (range a 912)) :
    threadMetadata m a = threadMetadata m' a := by
  have h8 (k : ℕ) (hk : k + 1 ≤ 912) : m.load8 (off a k) = m'.load8 (off a k) :=
    Mem.load8_agree (h.mono (range_off_sub hk (by decide)))
  simp [threadMetadata, h8, load64_agree_off h, loadWords_agree_off h, -off_zero]

theorem mailbox_agree (h : m.AgreeOn m' (range a 336)) : mailbox m a = mailbox m' a := by
  have h32 : m.load32 (off a 0) = m'.load32 (off a 0) :=
    Mem.load32_agree (h.mono (range_off_sub (by decide) (by decide)))
  simp [mailbox, h32, load64_agree_off h, loadBytes_agree_off h, -off_zero]

end

end SecurityMonitor
