/-
  The calls that build an enclave (`src/api/enclave_create.c`,
  `enclave_load_handler.c`, `enclave_load_page_table.c`, `enclave_load_page.c`,
  `enclave_init.c`, `src/common/load_page_table_entry.c`, `src/api/thread_load.c`).

  Every successful call extends the hash context in the enclave's metadata by
  its arguments, and the state transition of each call is a function on memory
  (`createEnclave`, `loadHandler`, ...).

  The page tables of an enclave are pages of its own regions.
  `load_page_table_entry` walks them from the root with `PtePath`: at each level
  the entry must be a valid pointer to the next table, and each table must lie in
  a region of the enclave.  The region index of a table is an `int`.
-/
import SecurityMonitor.RegionApi

namespace SecurityMonitor

open ByteMem Prog

variable {N : ℕ}

/-! ## Hashing -/

/-- The bytes of a word in memory. -/
def wordBytes (w : Word) : List Byte := (List.range 8).map (Mem.leByte w.toNat)

/-- The `n` bytes from `a` on. -/
def memBytes (m : Mem) (a : Word) (n : ℕ) : List Byte := (List.range n).map fun i => m (off a i)

/-- `hash_extend` of the enclave's hash context. -/
def hashExtend (m : Mem) (e : Word) (data : List Byte) : Mem :=
  Enclave.setHashContext m e (sha512Update (enclaveMetadata m e).hashContext data)

/-- The digest of two inputs in a context on the stack. -/
def hashOf₂ (x y : List Byte) : Bytes 64 :=
  (sha512Final (sha512Update (sha512Update (sha512Init emptyContext) x) y)).2.getD fun _ => 0

/-! ## Create -/

def createEnclave (m : Mem) (e evBase evMask numMailboxes : Word) (debug : Bool) : Mem :=
  let m := tagPages m e (enclaveMetadataPages numMailboxes) .enclave
  let m := Enclave.setInitState m e enclaveStateCreated
  let m := Enclave.setLastPhysAddrLoaded m e 0
  let m := Enclave.setHashContext m e (sha512Init (enclaveMetadata m e).hashContext)
  let m := Enclave.setEvBase m e evBase
  let m := hashExtend m e (wordBytes (enclaveMetadata m e).evBase)
  let m := Enclave.setEvMask m e evMask
  let m := hashExtend m e (wordBytes (enclaveMetadata m e).evMask)
  let m := Enclave.setNumMailboxes m e numMailboxes
  let m := hashExtend m e (wordBytes (enclaveMetadata m e).numMailboxes)
  let m := Enclave.setDebug m e (if debug then 1 else 0)
  hashExtend m e [(enclaveMetadata m e).debug]

def enclaveCreate (e evBase evMask numMailboxes : Word) (debug : Bool) : M N ApiResult Empty := do
  let result ← call (addLockRegionIffFreeMetadataPages e (enclaveMetadataPages numMailboxes))
  if result ≠ .ok then ret result
  let d ← getData
  setData { d with mem := createEnclave d.mem e evBase evMask numMailboxes debug }
  unlockRegions
  ret .ok

/-! ## The handler -/

def loadHandler (img : Image N) (m : Mem) (e physAddr : Word) : Mem :=
  let sizeStacks := N * stackSize
  let m := Enclave.setFaultSpBase m e (off physAddr sizeStacks)
  let m := m.set physAddr sizeStacks 0
  let handlerAddr := off physAddr sizeStacks
  let m := platformProtectEnclaveSmHandler m e handlerAddr
  let m := m.fill handlerAddr img.enclaveHandler.length fun i => img.enclaveHandler.getD i 0
  let m := hashExtend m e (memBytes m handlerAddr img.enclaveHandler.length)
  let m := Enclave.setInitState m e enclaveStateHandlerLoaded
  let m := Enclave.setFaultPc m e handlerAddr
  Enclave.setLastPhysAddrLoaded m e (off handlerAddr img.enclaveHandler.length)

def enclaveLoadHandler (img : Image N) (e physAddr : Word) : M N ApiResult Empty := do
  let result ← call (addLockRegionIffValidEnclave e)
  if result ≠ .ok then ret result
  let d ← getData
  if (d.enclave e).initState ≠ enclaveStateCreated then
    unlockRegions
    ret .invalidValue
  if physAddr.toNat % handlerLen ≠ 0 then
    unlockRegions
    ret .invalidValue
  if physAddr < (d.enclave e).lastPhysAddrLoaded then
    unlockRegions
    ret .invalidValue
  let endPhysAddr := off (off physAddr (N * stackSize)) img.enclaveHandler.length
  if addrToRegionId physAddr ≠ addrToRegionId endPhysAddr then
    unlockRegions
    ret .invalidValue
  if (← call (regionOwner (addrToRegionId physAddr))) ≠ e then
    unlockRegions
    ret .invalidState
  if !(← addLockRegion (addrToRegionId physAddr)) then
    unlockRegions
    ret .concurrentCall
  setData { d with mem := loadHandler img d.mem e physAddr }
  unlockRegions
  ret .ok

/-! ## Page table entries -/

/-- The slot of a virtual address in the level `i` table at `base`. -/
def pteAddr (base virtualAddr : Word) (i : ℕ) : Word :=
  base + ((virtualAddr >>> (pageShift + pnOffset * i)) &&& pnMask) * BitVec.ofNat 64 pteSize

/-- The table an entry points to. -/
def pteTable (pte : Word) : Word := ((pte &&& ppnsMask) >>> pageEntryAclOffset) <<< pageShift

/-- The root table of an enclave. -/
def rootTable (eptbr : Word) : Word := (eptbr &&& satpPpnMask) <<< pageShift

/-- An entry is not a valid pointer to a table. -/
def badNode (pte : Word) : Prop :=
  let acl := pte &&& aclMask
  acl &&& pteV = 0 ∨ (acl &&& pteR = 0 ∧ acl &&& pteW = pteW) ∨ acl &&& pteR = pteR ∨
    acl &&& pteX = pteX

instance (pte : Word) : Decidable (badNode pte) := by unfold badNode; infer_instance

/-- The entry for a page. -/
def mkPte (physAddr acl : Word) : Word :=
  ((physAddr >>> pageShift) <<< pageEntryAclOffset) &&& ppnsMask ||| (acl &&& aclMask)

/-- `int pte_region_id = addr_to_region_id(base)`. -/
def intRegionId (base : Word) : ℤ := ((addrToRegionId base).setWidth 32).toInt

/-- Whether the table at `base` lies in a region of the enclave. -/
def ownsTable {ρ : Type} (e base : Word) : M N ρ Bool := do
  let id := intRegionId base
  if 0 ≤ id ∧ id < 64 then
    let r : Word := BitVec.ofInt 64 id
    if (← getLocked) (toRegion r) then pure ((← call (regionOwnerLockFree r)) == e)
    else pure ((← call (regionOwner r)) == e)
  else fault .regionIndex

/-- The loop of `load_page_table_entry` from level `i` on. -/
def loadPageTableEntryFrom (e physAddr virtualAddr : Word) (level : ℕ) (acl : Word) :
    ℕ → Word → M N ApiResult Empty
  | i, base => do
    let d ← getData
    let slot := pteAddr base virtualAddr i
    if i = level then
      setData { d with mem := d.mem.store64 slot (mkPte physAddr acl) }
      ret .ok
    let pte := d.mem.load64 slot
    if badNode pte then ret .invalidState
    if !(← ownsTable e (pteTable pte)) then ret .invalidState
    match i with
    | 0 => ret .ok
    | i + 1 => loadPageTableEntryFrom e physAddr virtualAddr level acl i (pteTable pte)

def loadPageTableEntry (e physAddr virtualAddr level acl : Word) : M N ApiResult Empty := do
  let d ← getData
  if level = 3 then
    setData { d with mem := Enclave.setEptbr d.mem e ((physAddr >>> pageShift) ||| satpModeSv39) }
    ret .ok
  if !(← ownsTable e (rootTable (d.enclave e).eptbr)) then ret .invalidState
  loadPageTableEntryFrom e physAddr virtualAddr level.toNat acl 2 (rootTable (d.enclave e).eptbr)

/-! ## Page tables and pages -/

/-- The checks of a virtual address against the enclave's range. -/
def outsideEvRange (E : EnclaveMetadata) (virtualAddr : Word) : Prop :=
  virtualAddr &&& E.evMask ≠ E.evBase ∨ off virtualAddr pageSize &&& E.evMask ≠ E.evBase

instance (E : EnclaveMetadata) (v : Word) : Decidable (outsideEvRange E v) :=
  inferInstanceAs (Decidable (_ ∨ _))

def finishLoadPageTable (m : Mem) (e physAddr virtualAddr level acl : Word) : Mem :=
  let m := Enclave.setLastPhysAddrLoaded m e physAddr
  let m := Enclave.setInitState m e enclaveStatePageTablesLoaded
  let m := hashExtend m e (wordBytes virtualAddr)
  let m := hashExtend m e (wordBytes level)
  hashExtend m e (wordBytes acl)

/-- On a bad access control list the locks stay held. -/
def enclaveLoadPageTable (e physAddr virtualAddr level acl : Word) : M N ApiResult Empty := do
  let result ← call (addLockRegionIffValidEnclave e)
  if result ≠ .ok then ret result
  let d ← getData
  let E := d.enclave e
  if E.initState ≠ enclaveStateHandlerLoaded ∧ E.initState ≠ enclaveStatePageTablesLoaded then
    unlockRegions
    ret .invalidState
  if physAddr.toNat % pageSize ≠ 0 then
    unlockRegions
    ret .invalidValue
  if physAddr < E.lastPhysAddrLoaded then
    unlockRegions
    ret .invalidValue
  if (← call (regionOwner (addrToRegionId physAddr))) ≠ e then
    unlockRegions
    ret .invalidState
  if outsideEvRange E virtualAddr then
    unlockRegions
    ret .invalidValue
  if 3 < level.toNat then
    unlockRegions
    ret .invalidValue
  if acl &&& pteV = 0 ∨ (acl &&& pteR = 0 ∧ acl &&& pteW = pteW) then ret .invalidValue
  if (acl &&& pteR ≠ 0 ∨ acl &&& pteX ≠ 0) ∧ level ≠ 0 then ret .invalidValue
  if !(← addLockRegion (addrToRegionId physAddr)) then
    unlockRegions
    ret .invalidValue
  let result ← call (loadPageTableEntry e physAddr virtualAddr level acl)
  if result ≠ .ok then
    unlockRegions
    ret result
  let d ← getData
  setData { d with mem := finishLoadPageTable d.mem e physAddr virtualAddr level acl }
  unlockRegions
  ret .ok

def finishLoadPage (m : Mem) (e physAddr virtualAddr osAddr acl : Word) : Mem :=
  let m := Enclave.setLastPhysAddrLoaded m e (off physAddr pageSize)
  let m := Enclave.setInitState m e enclaveStatePageDataLoaded
  let m := m.copy physAddr osAddr pageSize
  let m := hashExtend m e (wordBytes virtualAddr)
  let m := hashExtend m e (wordBytes acl)
  hashExtend m e (memBytes m osAddr pageSize)

/-- On a bad access control list the locks stay held. -/
def enclaveLoadPage (e physAddr virtualAddr osAddr acl : Word) : M N ApiResult Empty := do
  let result ← call (addLockRegionIffValidEnclave e)
  if result ≠ .ok then ret result
  let d ← getData
  let E := d.enclave e
  if E.initState ≠ enclaveStatePageTablesLoaded ∧ E.initState ≠ enclaveStatePageDataLoaded then
    unlockRegions
    ret .invalidState
  if physAddr.toNat % pageSize ≠ 0 then
    unlockRegions
    ret .invalidValue
  if physAddr < E.lastPhysAddrLoaded then
    unlockRegions
    ret .invalidValue
  if (← call (regionOwner (addrToRegionId physAddr))) ≠ e then
    unlockRegions
    ret .invalidState
  if outsideEvRange E virtualAddr then
    unlockRegions
    ret .invalidValue
  if osAddr.toNat % pageSize ≠ 0 then
    unlockRegions
    ret .invalidValue
  if (← call (regionOwner (addrToRegionId osAddr))) ≠ ownerUntrusted then
    unlockRegions
    ret .invalidState
  if acl &&& pteV = 0 ∨ (acl &&& pteR = 0 ∧ acl &&& pteW = pteW) ∨
      (acl &&& pteR = 0 ∧ acl &&& pteX = 0) then ret .invalidValue
  if !(← addLockRegion (addrToRegionId physAddr)) then
    unlockRegions
    ret .invalidValue
  if !(← addLockRegion (addrToRegionId osAddr)) then
    unlockRegions
    ret .invalidValue
  let result ← call (loadPageTableEntry e physAddr virtualAddr 0 acl)
  if result ≠ .ok then
    unlockRegions
    ret result
  let d ← getData
  setData { d with mem := finishLoadPage d.mem e physAddr virtualAddr osAddr acl }
  unlockRegions
  ret .ok

/-! ## Threads -/

def loadThread (m : Mem) (e t entryPc entryStack timerLimit : Word) : Mem :=
  let m := tagPages m t threadMetadataPages .thread
  let m := Thread.setOwner m t e
  let m := Thread.setEntryPc m t entryPc
  let m := Thread.setEntrySp m t entryStack
  let m := Thread.setTimerLimit m t timerLimit
  let m := Enclave.setNumThreads m e ((enclaveMetadata m e).numThreads + 1)
  let m := hashExtend m e (wordBytes entryPc)
  let m := hashExtend m e (wordBytes entryStack)
  hashExtend m e (wordBytes timerLimit)

def threadLoad (e t entryPc entryStack timerLimit : Word) : M N ApiResult Empty := do
  let result ← call (addLockRegionIffValidEnclave e)
  if result ≠ .ok then ret result
  let d ← getData
  if (d.enclave e).initState ≠ enclaveStatePageDataLoaded then
    unlockRegions
    ret .invalidState
  let result ← call (addLockRegionIffFreeMetadataPages t threadMetadataPages)
  if result ≠ .ok then
    unlockRegions
    ret result
  setData { d with mem := loadThread d.mem e t entryPc entryStack timerLimit }
  unlockRegions
  ret .ok

/-! ## Init -/

/-- `ed25519_create_privkey` on the first 32 bytes of a key seed. -/
def createSecretSigningKey (seed : Bytes 64) : Bytes 64 :=
  let h := sha512Digest (List.ofFn fun i : Fin 32 => seed (i.castLE (by decide)))
  fun i => if i.val = 0 then h i &&& 248 else if i.val = 31 then (h i &&& 63) ||| 64 else h i

def initEnclave (img : Image N) (keys : Keys) (m : Mem) (e : Word) : Mem :=
  let final := sha512Final (enclaveMetadata m e).hashContext
  let m := Enclave.setHashContext m e final.1
  let m := match final.2 with
    | some h => Enclave.setMeasurement m e h
    | none => m
  let keySeed := hashOf₂ (List.ofFn keys.softwareSecretKey) (List.ofFn (enclaveMetadata m e).measurement)
  let m := Enclave.setSecretKey m e (createSecretSigningKey keySeed)
  let m := Enclave.setPublicKey m e (img.computePublicSigningKey (enclaveMetadata m e).secretKey)
  let attestation := hashOf₂ (List.ofFn (enclaveMetadata m e).measurement)
    (List.ofFn (enclaveMetadata m e).publicKey)
  let m := Enclave.setAttestation m e
    (img.sign (List.ofFn attestation) keys.softwarePublicKey keys.softwareSecretKey)
  Enclave.setInitState m e enclaveStateInitialized

def enclaveInit (img : Image N) (e : Word) : M N ApiResult Empty := do
  let result ← call (addLockRegionIffValidEnclave e)
  if result ≠ .ok then ret result
  let d ← getData
  if (d.enclave e).initState ≠ enclaveStatePageDataLoaded then
    unlockRegions
    ret .invalidState
  setData { d with mem := initEnclave img d.keys d.mem e }
  unlockRegions
  ret .ok

/-! ## Specifications -/

section
variable {E : Empty → CallState N → Prop} {F : Fault → Prop} {L : LockId N → Bool} {d : Data N}
  {s : CallState N} {img : Image N} {e : Word}

theorem enclaveCreate_spec {evBase evMask n : Word} {debug : Bool} (h : At L d s) :
    (enclaveCreate e evBase evMask n debug).wp E
      (Ends L d fun d' => FreeMetadataPages d e (enclaveMetadataPages n) ∧
        d' = { d with mem := createEnclave d.mem e evBase evMask n debug }) F s := by
  simp only [enclaveCreate, wp_bind, wp_ite, wp_ret, wp_call, ne_eq, not_not]
  refine h.addLockRegionIffFreeMetadataPages (fun s hs hf _ => ⟨fun hn => absurd rfl hn, fun _ => ?_⟩)
    fun s r hs hr => ⟨fun _ => hs.fails hr, fun h => absurd h hr⟩
  exact hs.getData (hs.setData fun s hs => hs.unlockRegions fun s hs => hs.succeeds ⟨hf, rfl⟩)

/-- What a successful `enclave_load_handler` has checked. -/
structure LoadHandlerGuard (img : Image N) (d : Data N) (e physAddr : Word) : Prop where
  enclave : ValidMetadata d e .enclave
  state : (d.enclave e).initState = enclaveStateCreated
  aligned : physAddr.toNat % handlerLen = 0
  last : (d.enclave e).lastPhysAddrLoaded ≤ physAddr
  fits : addrToRegionId physAddr =
    addrToRegionId (off (off physAddr (N * stackSize)) img.enclaveHandler.length)
  owned : OwnedBy d e physAddr

theorem enclaveLoadHandler_spec {physAddr : Word} (h : At L d s) :
    (enclaveLoadHandler img e physAddr).wp E
      (Ends L d fun d' => LoadHandlerGuard img d e physAddr ∧
        d' = { d with mem := loadHandler img d.mem e physAddr }) F s := by
  simp only [enclaveLoadHandler, wp_bind, wp_ite, wp_ret, wp_call, ne_eq, not_not, Bool.not_eq_true']
  refine h.addLockRegionIffValidMetadata (fun s hs hv _ => ⟨fun hn => absurd rfl hn, fun _ =>
    hs.getData ?_⟩) fun s r hs hr => ⟨fun _ => hs.fails hr, fun h => absurd h hr⟩
  refine ⟨fun _ => hs.unlockRegions fun s hs => hs.fails nofun, fun hst => ?_⟩
  refine ⟨fun _ => hs.unlockRegions fun s hs => hs.fails nofun, fun hal => ?_⟩
  refine ⟨fun _ => hs.unlockRegions fun s hs => hs.fails nofun, fun hlast => ?_⟩
  refine ⟨fun _ => hs.unlockRegions fun s hs => hs.fails nofun, fun hfit => ?_⟩
  refine hs.regionOwner fun s v hs hv' => ⟨fun _ => hs.unlockRegions fun s hs => hs.fails nofun,
    fun hve => ?_⟩
  have howned : OwnedBy d e physAddr := (hve ▸ hv').ownedBy hv.aligned
  refine hs.addLockRegion (fun hn => absurd howned.1 hn) (fun s hs _ _ => obtained ?_)
    fun s hs => refused (hs.unlockRegions fun s hs => hs.fails nofun)
  exact hs.setData fun s hs => hs.unlockRegions fun s hs =>
    hs.succeeds ⟨⟨hv, hst, hal, BitVec.not_lt.mp hlast, hfit, howned⟩, rfl⟩

/-! ### Page table entries -/

/-- The tables of `d` for a virtual address: `PtePath d e va i base` says that the walk
    reaches the table at `base` on level `i`. -/
inductive PtePath (d : Data N) (e virtualAddr : Word) : ℕ → Word → Prop
  | root : OwnedBy d e (rootTable (d.enclave e).eptbr) →
      PtePath d e virtualAddr 2 (rootTable (d.enclave e).eptbr)
  | node {i : ℕ} {base : Word} : PtePath d e virtualAddr (i + 1) base →
      ¬ badNode (d.mem.load64 (pteAddr base virtualAddr (i + 1))) →
      OwnedBy d e (pteTable (d.mem.load64 (pteAddr base virtualAddr (i + 1)))) →
      PtePath d e virtualAddr i (pteTable (d.mem.load64 (pteAddr base virtualAddr (i + 1))))

/-- All tables whose owner a walk down to `level` looks up lie in RAM. -/
structure TablesInRam (d : Data N) (e virtualAddr : Word) (level : ℕ) : Prop where
  root : (addrToRegionId (rootTable (d.enclave e).eptbr)).toNat < 64
  node : ∀ i base, PtePath d e virtualAddr i base → level < i →
    ¬ badNode (d.mem.load64 (pteAddr base virtualAddr i)) →
    (addrToRegionId (pteTable (d.mem.load64 (pteAddr base virtualAddr i)))).toNat < 64

theorem rootTable_lt (x : Word) : (rootTable x).toNat < 2 ^ 56 := by
  have h : (x &&& satpPpnMask).toNat < 2 ^ 44 := by
    rw [BitVec.toNat_and, show satpPpnMask.toNat = 2 ^ 44 - 1 by decide,
      Nat.and_two_pow_sub_one_eq_mod]
    exact Nat.mod_lt _ (by decide)
  rw [rootTable, BitVec.toNat_shiftLeft, Nat.shiftLeft_eq, show pageShift = 12 from rfl]
  omega

theorem pteTable_lt (x : Word) : (pteTable x).toNat < 2 ^ 56 := by
  have h : ((x &&& ppnsMask) >>> pageEntryAclOffset).toNat < 2 ^ 44 := by
    rw [BitVec.toNat_ushiftRight, Nat.shiftRight_eq_div_pow, BitVec.toNat_and,
      show pageEntryAclOffset = 10 from rfl]
    have : x.toNat &&& ppnsMask.toNat ≤ ppnsMask.toNat := Nat.and_le_right
    have : ppnsMask.toNat = 2 ^ 54 - 2 ^ 10 := by decide
    omega
  rw [pteTable, BitVec.toNat_shiftLeft, Nat.shiftLeft_eq, show pageShift = 12 from rfl]
  omega

/-- Below `2 ^ 56` the truncation to `int` does not alias region ids. -/
theorem intRegionId_eq {base : Word} (hb : base.toNat < 2 ^ 56) {i : ℤ} (hi : intRegionId base = i) :
    (0 ≤ i ∧ i < 64 ↔ (addrToRegionId base).toNat < 64) ∧
      (0 ≤ i → i < 64 → BitVec.ofInt 64 i = addrToRegionId base) := by
  have hid := addrToRegionId_toNat base
  rw [BitVec.toNat_sub, show ramBase.toNat = 0x80000000 by decide, show regionSize = 0x2000000 from rfl]
    at hid
  rw [intRegionId, BitVec.toInt_eq_toNat_cond, BitVec.toNat_setWidth] at hi
  have hlt := (addrToRegionId base).isLt
  refine ⟨by split_ifs at hi <;> omega, fun h0 h64 => BitVec.eq_of_toNat_eq ?_⟩
  rw [BitVec.toNat_ofInt]
  split_ifs at hi <;> omega

theorem At.ownsTable {ρ : Type} {Q : Bool → CallState N → Prop} {R : ρ → CallState N → Prop}
    {base : Word} (h : At L d s) (he : isPageAligned e = true) (hb : base.toNat < 2 ^ 56)
    (hF : ¬ (addrToRegionId base).toNat < 64 → F .regionIndex)
    (hyes : ∀ s, At L d s → OwnedBy d e base → Q true s) (hno : ∀ s, At L d s → Q false s) :
    (ownsTable e base).wp Q R F s := by
  obtain ⟨hiff, hr⟩ := intRegionId_eq hb rfl
  have hreply : ∀ s v, At L d s → OwnerReply d (addrToRegionId base) v → Q (v == e) s := by
    intro s v hs hv
    cases hve : v == e with
    | false => exact hno s hs
    | true => exact hyes s hs ((beq_iff_eq.mp hve ▸ hv).ownedBy he)
  simp only [SecurityMonitor.ownsTable, wp_bind, wp_ite, wp_getLocked, wp_call, wp_pure, wp_fault]
  refine ⟨fun hid => ?_, fun hid => hF fun hn => hid (hiff.mpr hn)⟩
  rw [hr hid.1 hid.2]
  exact ⟨fun _ => h.regionOwnerLockFree hreply, fun _ => h.regionOwner hreply⟩

/-- The effect of a successful `load_page_table_entry`. -/
def EntryLoaded (d : Data N) (e physAddr virtualAddr level acl : Word) (d' : Data N) : Prop :=
  level = 3 ∧
      d' = { d with mem := Enclave.setEptbr d.mem e ((physAddr >>> pageShift) ||| satpModeSv39) } ∨
    level ≠ 3 ∧ ∃ base, PtePath d e virtualAddr level.toNat base ∧
      d' = { d with mem := d.mem.store64 (pteAddr base virtualAddr level.toNat) (mkPte physAddr acl) }

theorem loadPageTableEntryFrom_spec {physAddr virtualAddr acl : Word} {level : ℕ}
    (he : isPageAligned e = true) (hF : ¬ TablesInRam d e virtualAddr level → F .regionIndex) :
    ∀ (i : ℕ) (base : Word) {s : CallState N}, At L d s → level ≤ i →
      PtePath d e virtualAddr i base →
      (loadPageTableEntryFrom e physAddr virtualAddr level acl i base).wp E
        (Ends L d fun d' => ∃ base, PtePath d e virtualAddr level base ∧
          d' = { d with mem := d.mem.store64 (pteAddr base virtualAddr level) (mkPte physAddr acl) })
        F s
  | i, base, s, h, hi, hp => by
    rw [loadPageTableEntryFrom]
    simp only [wp_bind, wp_ite, wp_ret, Bool.not_eq_true']
    refine h.getData ⟨fun hl => ?_, fun hl => ⟨fun _ => h.fails nofun, fun hnode => ?_⟩⟩
    · exact h.setData fun s hs => hs.succeeds ⟨base, hl ▸ hp, by rw [hl]⟩
    · refine h.ownsTable he (pteTable_lt _) (fun hn => hF fun ht =>
        hn (ht.node i base hp (by omega) hnode)) (fun s hs ho => obtained ?_)
        fun s hs => refused (hs.fails nofun)
      cases i with
      | zero => omega
      | succ i => exact loadPageTableEntryFrom_spec he hF i _ hs (by omega) (.node hp hnode ho)

theorem loadPageTableEntry_spec {physAddr virtualAddr level acl : Word} (h : At L d s)
    (he : isPageAligned e = true) (hl : level.toNat ≤ 3)
    (hF : level ≠ 3 → ¬ TablesInRam d e virtualAddr level.toNat → F .regionIndex) :
    (loadPageTableEntry e physAddr virtualAddr level acl).wp E
      (Ends L d (EntryLoaded d e physAddr virtualAddr level acl)) F s := by
  simp only [loadPageTableEntry, wp_bind, wp_ite, wp_ret, Bool.not_eq_true']
  refine h.getData ⟨fun h3 => h.setData fun s hs => hs.succeeds (.inl ⟨h3, rfl⟩), fun h3 => ?_⟩
  have h3' : level.toNat ≠ 3 := fun hn => h3 (BitVec.eq_of_toNat_eq hn)
  refine h.ownsTable he (rootTable_lt _) (fun hn => hF h3 fun ht => hn ht.root)
    (fun s hs ho => obtained ?_) fun s hs => refused (hs.fails nofun)
  refine wp_mono (loadPageTableEntryFrom_spec he (hF h3) 2 _ hs (by omega) (.root ho))
    (fun _ _ h => h) (fun _ _ h => h.imp fun _ hd => .inr ⟨h3, hd⟩) fun _ h => h

/-! ### Page tables and pages -/

/-- What the two load calls check alike. -/
structure LoadGuard (d : Data N) (e physAddr virtualAddr : Word) : Prop where
  enclave : ValidMetadata d e .enclave
  aligned : physAddr.toNat % pageSize = 0
  last : (d.enclave e).lastPhysAddrLoaded ≤ physAddr
  owned : OwnedBy d e physAddr
  inRange : ¬ outsideEvRange (d.enclave e) virtualAddr

/-- What a successful `enclave_load_page_table` has checked. -/
structure LoadPageTableGuard (d : Data N) (e physAddr virtualAddr level acl : Word) : Prop extends
    LoadGuard d e physAddr virtualAddr where
  state : (d.enclave e).initState = enclaveStateHandlerLoaded ∨
    (d.enclave e).initState = enclaveStatePageTablesLoaded
  level_le : level.toNat ≤ 3
  valid : acl &&& pteV ≠ 0
  readable : ¬ (acl &&& pteR = 0 ∧ acl &&& pteW = pteW)
  noMegapage : (acl &&& pteR ≠ 0 ∨ acl &&& pteX ≠ 0) → level = 0

theorem enclaveLoadPageTable_spec {physAddr virtualAddr level acl : Word} (h : At L d s)
    (hF : LoadPageTableGuard d e physAddr virtualAddr level acl → level ≠ 3 →
      ¬ TablesInRam d e virtualAddr level.toNat → F .regionIndex) :
    (enclaveLoadPageTable e physAddr virtualAddr level acl).wp E
      (Ends L d fun d' => LoadPageTableGuard d e physAddr virtualAddr level acl ∧
        ∃ d₁, EntryLoaded d e physAddr virtualAddr level acl d₁ ∧
          d' = { d₁ with mem := finishLoadPageTable d₁.mem e physAddr virtualAddr level acl }) F s := by
  simp only [enclaveLoadPageTable, wp_bind, wp_ite, wp_ret, wp_call, ne_eq, not_not,
    Bool.not_eq_true']
  refine h.addLockRegionIffValidMetadata (fun s hs hv _ => ⟨fun hn => absurd rfl hn, fun _ =>
    hs.getData ?_⟩) fun s r hs hr => ⟨fun _ => hs.fails hr, fun h => absurd h hr⟩
  refine ⟨fun _ => hs.unlockRegions fun s hs => hs.fails nofun, fun hst => ?_⟩
  refine ⟨fun _ => hs.unlockRegions fun s hs => hs.fails nofun, fun hal => ?_⟩
  refine ⟨fun _ => hs.unlockRegions fun s hs => hs.fails nofun, fun hlast => ?_⟩
  refine hs.regionOwner fun s v hs hv' => ⟨fun _ => hs.unlockRegions fun s hs => hs.fails nofun,
    fun hve => ?_⟩
  have howned : OwnedBy d e physAddr := (hve ▸ hv').ownedBy hv.aligned
  refine ⟨fun _ => hs.unlockRegions fun s hs => hs.fails nofun, fun hrange => ?_⟩
  refine ⟨fun _ => hs.unlockRegions fun s hs => hs.fails nofun, fun hl => ?_⟩
  refine ⟨fun _ => hs.fails nofun, fun hacl => ⟨fun _ => hs.fails nofun, fun hmega => ?_⟩⟩
  have hguard : LoadPageTableGuard d e physAddr virtualAddr level acl := by
    refine ⟨⟨hv, hal, BitVec.not_lt.mp hlast, howned, hrange⟩, ?_, by omega, fun h => hacl (.inl h),
      fun h => hacl (.inr h), fun h => ?_⟩
    · by_contra hn; exact hst ⟨fun h => hn (.inl h), fun h => hn (.inr h)⟩
    · by_contra hn; exact hmega ⟨h, hn⟩
  refine hs.addLockRegion (fun hn => absurd howned.1 hn) (fun s hs _ _ => obtained ?_)
    fun s hs => refused (hs.unlockRegions fun s hs => hs.fails nofun)
  refine wp_mono (loadPageTableEntry_spec hs hv.aligned (by omega) (hF hguard)) (fun _ _ h => h) ?_
    fun _ h => h
  rintro r s ⟨d₁, hs, ⟨hr, hd⟩ | ⟨rfl, hd⟩⟩
  · rw [hd] at hs
    exact ⟨fun _ => hs.unlockRegions fun s hs => hs.fails hr, fun h => absurd h hr⟩
  · exact ⟨fun hn => absurd rfl hn, fun _ => hs.getData (hs.setData fun s hs =>
      hs.unlockRegions fun s hs => hs.succeeds ⟨hguard, d₁, hd, rfl⟩)⟩

/-- The checks of `enclave_load_page`.  An address outside RAM passes the check of the OS
    page, because the error code is the id of untrusted software. -/
structure LoadPageChecks (d : Data N) (e physAddr virtualAddr osAddr acl : Word) : Prop extends
    LoadGuard d e physAddr virtualAddr where
  state : (d.enclave e).initState = enclaveStatePageTablesLoaded ∨
    (d.enclave e).initState = enclaveStatePageDataLoaded
  osAligned : osAddr.toNat % pageSize = 0
  osChecked : (addrToRegionId osAddr).toNat < 64 → OwnedBy d ownerUntrusted osAddr
  valid : acl &&& pteV ≠ 0
  readable : ¬ (acl &&& pteR = 0 ∧ acl &&& pteW = pteW)
  leaf : ¬ (acl &&& pteR = 0 ∧ acl &&& pteX = 0)

/-- What holds of a successful `enclave_load_page`. -/
structure LoadPageGuard (d : Data N) (e physAddr virtualAddr osAddr acl : Word) : Prop extends
    LoadPageChecks d e physAddr virtualAddr osAddr acl where
  osOwned : OwnedBy d ownerUntrusted osAddr

theorem enclaveLoadPage_spec {physAddr virtualAddr osAddr acl : Word} (h : At L d s)
    (hF : LoadPageChecks d e physAddr virtualAddr osAddr acl →
      ¬ (TablesInRam d e virtualAddr 0 ∧ (addrToRegionId osAddr).toNat < 64) → F .regionIndex) :
    (enclaveLoadPage e physAddr virtualAddr osAddr acl).wp E
      (Ends L d fun d' => LoadPageGuard d e physAddr virtualAddr osAddr acl ∧
        ∃ d₁, EntryLoaded d e physAddr virtualAddr 0 acl d₁ ∧
          d' = { d₁ with mem := finishLoadPage d₁.mem e physAddr virtualAddr osAddr acl }) F s := by
  simp only [enclaveLoadPage, wp_bind, wp_ite, wp_ret, wp_call, ne_eq, not_not, Bool.not_eq_true']
  refine h.addLockRegionIffValidMetadata (fun s hs hv _ => ⟨fun hn => absurd rfl hn, fun _ =>
    hs.getData ?_⟩) fun s r hs hr => ⟨fun _ => hs.fails hr, fun h => absurd h hr⟩
  refine ⟨fun _ => hs.unlockRegions fun s hs => hs.fails nofun, fun hst => ?_⟩
  refine ⟨fun _ => hs.unlockRegions fun s hs => hs.fails nofun, fun hal => ?_⟩
  refine ⟨fun _ => hs.unlockRegions fun s hs => hs.fails nofun, fun hlast => ?_⟩
  refine hs.regionOwner fun s v hs hv' => ⟨fun _ => hs.unlockRegions fun s hs => hs.fails nofun,
    fun hve => ?_⟩
  have howned : OwnedBy d e physAddr := (hve ▸ hv').ownedBy hv.aligned
  refine ⟨fun _ => hs.unlockRegions fun s hs => hs.fails nofun, fun hrange => ?_⟩
  refine ⟨fun _ => hs.unlockRegions fun s hs => hs.fails nofun, fun hosal => ?_⟩
  refine hs.regionOwner fun s v' hs hos => ⟨fun _ => hs.unlockRegions fun s hs => hs.fails nofun,
    fun hvu => ⟨fun _ => hs.fails nofun, fun hacl => ?_⟩⟩
  refine hs.addLockRegion (fun hn => absurd howned.1 hn) (fun s hs _ _ => obtained ?_)
    fun s hs => refused (hs.unlockRegions fun s hs => hs.fails nofun)
  have hchecked (hosr : (addrToRegionId osAddr).toNat < 64) : OwnedBy d ownerUntrusted osAddr := by
    rcases hos with ⟨hr, h⟩ | ⟨hr, _⟩ | h
    · exact ⟨hr, h.symm.trans hvu⟩
    · exact absurd hosr hr
    · rw [hvu] at h; exact absurd h (by decide)
  have hchecks : LoadPageChecks d e physAddr virtualAddr osAddr acl := by
    refine ⟨⟨hv, hal, BitVec.not_lt.mp hlast, howned, hrange⟩, ?_, hosal, hchecked, fun h => hacl (.inl h),
      fun h => hacl (.inr (.inl h)), fun h => hacl (.inr (.inr h))⟩
    by_contra hn; exact hst ⟨fun h => hn (.inl h), fun h => hn (.inr h)⟩
  refine hs.addLockRegion (fun hn => hF hchecks fun h => hn h.2) (fun s hs hosr _ => obtained ?_)
    fun s hs => refused (hs.unlockRegions fun s hs => hs.fails nofun)
  refine wp_mono (loadPageTableEntry_spec hs hv.aligned (by decide) fun _ hn => hF hchecks fun h => hn h.1)
    (fun _ _ h => h) ?_ fun _ h => h
  rintro r s ⟨d₁, hs, ⟨hr, hd⟩ | ⟨rfl, hd⟩⟩
  · rw [hd] at hs
    exact ⟨fun _ => hs.unlockRegions fun s hs => hs.fails hr, fun h => absurd h hr⟩
  · exact ⟨fun hn => absurd rfl hn, fun _ => hs.getData (hs.setData fun s hs =>
      hs.unlockRegions fun s hs => hs.succeeds ⟨⟨hchecks, hchecked hosr⟩, d₁, hd, rfl⟩)⟩

/-! ### Threads and init -/

theorem threadLoad_spec {t entryPc entryStack timerLimit : Word} (h : At L d s) :
    (threadLoad e t entryPc entryStack timerLimit).wp E
      (Ends L d fun d' => ValidMetadata d e .enclave ∧
        (d.enclave e).initState = enclaveStatePageDataLoaded ∧
        FreeMetadataPages d t threadMetadataPages ∧
        d' = { d with mem := loadThread d.mem e t entryPc entryStack timerLimit }) F s := by
  simp only [threadLoad, wp_bind, wp_ite, wp_ret, wp_call, ne_eq, not_not]
  refine h.addLockRegionIffValidMetadata (fun s hs hv _ => ⟨fun hn => absurd rfl hn, fun _ =>
    hs.getData ?_⟩) fun s r hs hr => ⟨fun _ => hs.fails hr, fun h => absurd h hr⟩
  refine ⟨fun _ => hs.unlockRegions fun s hs => hs.fails nofun, fun hst => ?_⟩
  refine hs.addLockRegionIffFreeMetadataPages (fun s hs hf _ => ⟨fun hn => absurd rfl hn,
    fun _ => ?_⟩) fun s r hs hr => ⟨fun _ => hs.unlockRegions fun s hs => hs.fails hr,
      fun h => absurd h hr⟩
  exact hs.setData fun s hs => hs.unlockRegions fun s hs => hs.succeeds ⟨hv, hst, hf, rfl⟩

theorem enclaveInit_spec (h : At L d s) : (enclaveInit img e).wp E
    (Ends L d fun d' => ValidMetadata d e .enclave ∧
      (d.enclave e).initState = enclaveStatePageDataLoaded ∧
      d' = { d with mem := initEnclave img d.keys d.mem e }) F s := by
  simp only [enclaveInit, wp_bind, wp_ite, wp_ret, wp_call, ne_eq, not_not]
  refine h.addLockRegionIffValidMetadata (fun s hs hv _ => ⟨fun hn => absurd rfl hn, fun _ =>
    hs.getData ?_⟩) fun s r hs hr => ⟨fun _ => hs.fails hr, fun h => absurd h hr⟩
  refine ⟨fun _ => hs.unlockRegions fun s hs => hs.fails nofun, fun hst => ?_⟩
  exact hs.setData fun s hs => hs.unlockRegions fun s hs => hs.succeeds ⟨hv, hst, rfl⟩

end

end SecurityMonitor
