/-
  Parameters and address arithmetic of the security monitor
  (`platform/parameters.h`, `src/sm_constants.h`, the region helpers of
  `src/sm.h`).

  All addresses and ids are 64-bit words.  The masks are the `int` expressions
  of the source, sign extended to 64 bits.  For each helper a lemma
  `..._toNat` gives its value as a natural number; later proofs use only these.
-/
import SecurityMonitor.Lib.Memory

namespace SecurityMonitor

open ByteMem

/-! ## Parameters -/

def ramBase : Word := 0x80000000
def ramSize : ℕ := 0x80000000
def regionShift : ℕ := 25
def pageShift : ℕ := 12
def pageSize : ℕ := 4096
def regionSize : ℕ := 0x2000000
/-- `NUM_REGIONS`, that is `RAM_SIZE / REGION_SIZE`. -/
def numRegions : ℕ := 64
def numRegionPages : ℕ := 8192

def pageMask : Word := 0xFFF
def regionMask : Word := 0xFFFFFFFFFE000000

def smAddr : Word := 0x80000000
def smLen : ℕ := 0x30000
def smStateAddr : Word := 0x80040000
def smStateLen : ℕ := 0x3000
def smLastAddress : Word := 0x80043000

def handlerLen : ℕ := 0x8000
def stackSize : ℕ := 0x1000
def integerContextSize : ℕ := 0x100
def mentryFrameSize : ℕ := 0x140
def numUntrustedMailboxes : ℕ := 8

-- literals for regions, registers, untrusted mailboxes and the cores of a small machine
instance instNeZeroRegions : NeZero 64 := ⟨by decide⟩
instance instNeZeroRegisters : NeZero 32 := ⟨by decide⟩
instance instNeZeroMailboxes : NeZero 8 := ⟨by decide⟩
instance instNeZeroCores : NeZero 2 := ⟨by decide⟩

/-! ### Page tables -/

def pteV : Word := 1
def pteR : Word := 2
def pteW : Word := 4
def pteX : Word := 8
def pnOffset : ℕ := 9
def pteSize : ℕ := 8
def pageEntryAclOffset : ℕ := 10
def pnMask : Word := 0x1FF
def aclMask : Word := 0x3FF
/-- `SATP_PPN_MASK`: the 44 bits of a physical page number. -/
def satpPpnMask : Word := 0xFFFFFFFFFFF
/-- `PPNs_MASK`: the page number of a page table entry. -/
def ppnsMask : Word := 0x3FFFFFFFFFFC00
def satpModeSv39 : Word := 0x8000000000000000

/-! ### The last-level cache -/

/-- `LLC_INDEX_OFFSET`: lines have 64 bytes. -/
def llcIndexOffset : ℕ := 6
def llcNumWays : ℕ := 16
def zeroDeviceOffset : Word := 0x100000000

/-! ### Machine status -/

def mstatusTvmMask : Word := 0x00100000
def mstatusMppMask : Word := 0x00001800
def mstatusMppOffset : ℕ := 11
def mstatusMpieMask : Word := 0x00000080
def mstatusSieMask : Word := 0x00000002
def mstatusUieMask : Word := 0x00000001
def mipMtip : Word := 0x80
def mvbaseDefault : Word := 0xFFFFFFFFFFFFFFFF
def mvmaskDefault : Word := 0

/-! ### Owners and threads -/

def ownerUntrusted : Word := 1
def ownerSm : Word := 2
def enclaveThreadNone : Word := 1

/-! ## Address helpers -/

/-- An illegally large number for an address outside RAM. -/
def addrToRegionId (addr : Word) : Word := ((addr - ramBase) &&& regionMask) >>> regionShift

def regionIdToAddr (regionId : Word) : Word := ramBase + (regionId <<< regionShift)

def isValidRegionId (regionId : Word) : Bool := decide (regionId.toNat < numRegions)

def isPageAligned (addr : Word) : Bool := addr &&& pageMask == 0

def addrToRegionPageId (addr : Word) : Word := ((addr - ramBase) &&& ~~~regionMask) >>> pageShift

def isValidPageIdInRegion (pageId : Word) : Bool := decide (pageId.toNat < numRegionPages)

/-- `region_is_accessible`: bit `regionId` of a region bitmap. -/
def regionIsAccessible (mrbm : Word) (regionId : ℕ) : Bool := mrbm &&& (1#64 <<< regionId) != 0

/-! ### Their values -/

theorem regionMask_getLsbD : ∀ i < 64, regionMask.getLsbD i = decide (25 ≤ i) := by decide

-- the expression of the source, of type int
example : regionMask = (~~~(1#32 <<< regionShift - 1)).signExtend 64 := by decide

theorem addrToRegionId_toNat (a : Word) :
    (addrToRegionId a).toNat = (a - ramBase).toNat / regionSize := by
  have h : addrToRegionId a = (a - ramBase) >>> 25 := by
    apply BitVec.eq_of_getLsbD_eq
    intro i hi
    simp only [addrToRegionId, regionShift, BitVec.getLsbD_ushiftRight, BitVec.getLsbD_and]
    rcases Nat.lt_or_ge (25 + i) 64 with h | h
    · rw [regionMask_getLsbD _ h]; simp
    · rw [BitVec.getLsbD_of_ge _ _ h]; simp
  rw [h, BitVec.toNat_ushiftRight, Nat.shiftRight_eq_div_pow]
  rfl

theorem addrToRegionPageId_toNat (a : Word) :
    (addrToRegionPageId a).toNat = (a - ramBase).toNat % regionSize / pageSize := by
  rw [addrToRegionPageId, BitVec.toNat_ushiftRight, BitVec.toNat_and,
    show (~~~regionMask).toNat = 2 ^ 25 - 1 by decide, Nat.and_two_pow_sub_one_eq_mod,
    Nat.shiftRight_eq_div_pow]
  rfl

theorem isPageAligned_iff (a : Word) : isPageAligned a = true ↔ a.toNat % pageSize = 0 := by
  rw [isPageAligned, beq_iff_eq, ← BitVec.toNat_inj, BitVec.toNat_and,
    show pageMask.toNat = 2 ^ 12 - 1 by decide, Nat.and_two_pow_sub_one_eq_mod]
  rfl

theorem isValidRegionId_iff (r : Word) : isValidRegionId r = true ↔ r.toNat < 64 := by
  rw [isValidRegionId, decide_eq_true_iff]; rfl

theorem isValidRegionId_eq_false (r : Word) : isValidRegionId r = false ↔ ¬ r.toNat < 64 := by
  rw [← isValidRegionId_iff, Bool.not_eq_true]

theorem isValidPageIdInRegion_iff (p : Word) : isValidPageIdInRegion p = true ↔ p.toNat < 8192 := by
  rw [isValidPageIdInRegion, decide_eq_true_iff]; rfl

theorem isValidPageIdInRegion_eq_false (p : Word) :
    isValidPageIdInRegion p = false ↔ ¬ p.toNat < 8192 := by
  rw [isValidPageIdInRegion, decide_eq_false_iff_not]; rfl

/-- An address has a valid region id iff it is in RAM. -/
theorem addrToRegionId_lt (a : Word) :
    (addrToRegionId a).toNat < 64 ↔ 0x80000000 ≤ a.toNat ∧ a.toNat < 0x100000000 := by
  rw [addrToRegionId_toNat, BitVec.toNat_sub, show ramBase.toNat = 0x80000000 by decide]
  have := a.isLt
  simp only [regionSize]
  omega

theorem addrToRegionId_toNat_of_ram {a : Word} (h : 0x80000000 ≤ a.toNat) :
    (addrToRegionId a).toNat = (a.toNat - 0x80000000) / 0x2000000 := by
  rw [addrToRegionId_toNat, BitVec.toNat_sub, show ramBase.toNat = 0x80000000 by decide]
  have := a.isLt
  simp only [regionSize]
  omega

theorem addrToRegionPageId_toNat_of_ram {a : Word} (h : 0x80000000 ≤ a.toNat) :
    (addrToRegionPageId a).toNat = (a.toNat - 0x80000000) % 0x2000000 / 0x1000 := by
  rw [addrToRegionPageId_toNat, BitVec.toNat_sub, show ramBase.toNat = 0x80000000 by decide]
  have := a.isLt
  simp only [regionSize, pageSize]
  omega

theorem regionIdToAddr_toNat {r : Word} (h : r.toNat < 64) :
    (regionIdToAddr r).toNat = 0x80000000 + r.toNat * 0x2000000 := by
  rw [regionIdToAddr, BitVec.toNat_add, BitVec.toNat_shiftLeft, Nat.shiftLeft_eq,
    show ramBase.toNat = 0x80000000 by decide, show 2 ^ regionShift = 0x2000000 by decide]
  omega

theorem regionIsAccessible_eq (b : Word) {i : ℕ} (hi : i < 64) :
    regionIsAccessible b i = b.getLsbD i := by
  have h : b &&& (1#64 <<< i) = if b.getLsbD i then 1#64 <<< i else 0 := by
    apply BitVec.eq_of_getLsbD_eq
    intro j hj
    by_cases hij : j = i
    · subst hij
      cases hb : b.getLsbD j <;> rw [BitVec.getLsbD_and, hb] <;> simp [hj]
    · rw [BitVec.getLsbD_and]
      have : (1#64 <<< i).getLsbD j = false := by
        simp only [BitVec.getLsbD_shiftLeft, BitVec.getLsbD_one]
        rcases Nat.lt_or_ge j i with h | h
        · simp [h]
        · simp [show ¬ j - i = 0 by omega]
      rw [this, Bool.and_false]
      split_ifs
      · exact this.symm
      · simp
  have hne : (1#64 <<< i) ≠ 0 := by
    intro h0
    have := congrArg (fun v => v.getLsbD i) h0
    simp [hi] at this
  rw [regionIsAccessible, h]
  cases b.getLsbD i with
  | false => simp
  | true => simpa using hne

@[simp] theorem regionIsAccessible_zero (i : ℕ) : regionIsAccessible 0 i = false := by
  simp [regionIsAccessible]

end SecurityMonitor
