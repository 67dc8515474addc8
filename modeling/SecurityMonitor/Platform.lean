/-
  The platform layer (`platform/platform_memory_protection_*.c`,
  `platform_interrupts.c`, `platform_set_enclave_page_table.c`,
  `platform_helper.c`): how the monitor programs a core's control registers.

  Every function is a pure update of `Data`.  A core's two region bitmaps are
  kept both in its `sm_core_t` and in the registers `MMRBM` and `MEMRBM`; only
  the calling core is ever refreshed.

  `address_decomposition`: addresses and region maps are decomposed exactly.
-/
import SecurityMonitor.Sync

namespace SecurityMonitor

open ByteMem

variable {N : ℕ}

/-! ## Region bitmaps -/

/-- `regions_to_bitmap`. -/
def regionsToBitmap (flags : Fin 64 → Bool) : Word :=
  (List.finRange 64).foldl (fun b i => if flags i then b ||| (1#64 <<< i.val) else b) 0

theorem foldl_bitmap_getLsbD (flags : Fin 64 → Bool) (j : Fin 64) : ∀ (l : List (Fin 64)) (b : Word),
    (l.foldl (fun b i => if flags i then b ||| (1#64 <<< i.val) else b) b).getLsbD j =
      (b.getLsbD j || (flags j && decide (j ∈ l)))
  | [], b => by simp
  | i :: l, b => by
    rw [List.foldl_cons, foldl_bitmap_getLsbD flags j l]
    have hbit : (1#64 <<< i.val).getLsbD j = decide (j = i) := by
      rw [BitVec.getLsbD_shiftLeft, BitVec.getLsbD_one]
      rcases lt_trichotomy j.val i.val with h | h | h
      · have : j ≠ i := by rintro rfl; omega
        simp [h, this]
      · have : j = i := Fin.ext h
        simp [this]
      · have : j ≠ i := by rintro rfl; omega
        simp [this, show ¬ j.val - i.val = 0 by omega]
    have hstep : (if flags i then b ||| (1#64 <<< i.val) else b).getLsbD j =
        (b.getLsbD j || (flags i && decide (j = i))) := by
      cases flags i with
      | false => simp
      | true => rw [if_pos rfl, BitVec.getLsbD_or, hbit, Bool.true_and]
    rw [hstep, Bool.or_assoc]
    congr 1
    by_cases hji : j = i
    · subst hji
      cases flags j <;> simp
    · simp [hji]

@[simp] theorem regionsToBitmap_accessible (flags : Fin 64 → Bool) (i : Fin 64) :
    regionIsAccessible (regionsToBitmap flags) i = flags i := by
  rw [regionIsAccessible_eq _ i.isLt, regionsToBitmap, foldl_bitmap_getLsbD]
  simp

/-- `bitmap_to_regions`. -/
def bitmapToRegions (bitmap : Word) : Fin 64 → Bool := fun i => regionIsAccessible bitmap i

/-! ## Addresses -/

/-- An address in RAM is the address of its page in its region and the offset in the page. -/
theorem eq_region_page_offset {a : Word} (h : (addrToRegionId a).toNat < 64) :
    a = regionIdToAddr (addrToRegionId a) + BitVec.ofNat 64 pageSize * addrToRegionPageId a +
      BitVec.ofNat 64 (a.toNat % pageSize) := by
  have hram := (addrToRegionId_lt a).mp h
  apply BitVec.eq_of_toNat_eq
  rw [BitVec.toNat_add, BitVec.toNat_add, BitVec.toNat_mul, regionIdToAddr_toNat h,
    addrToRegionId_toNat_of_ram hram.1, addrToRegionPageId_toNat_of_ram hram.1]
  simp only [pageSize, BitVec.toNat_ofNat]
  omega

theorem addrToRegionPageId_lt (a : Word) : (addrToRegionPageId a).toNat < numRegionPages := by
  rw [addrToRegionPageId_toNat]
  simp only [regionSize, pageSize, numRegionPages]
  omega

/-- **The helpers decompose addresses and region maps exactly.** -/
theorem address_decomposition :
    (∀ a : Word, (isValidRegionId (addrToRegionId a) = true ↔
        ramBase.toNat ≤ a.toNat ∧ a.toNat < ramBase.toNat + ramSize) ∧
      (isValidRegionId (addrToRegionId a) = true →
        a = regionIdToAddr (addrToRegionId a) + BitVec.ofNat 64 pageSize * addrToRegionPageId a +
          BitVec.ofNat 64 (a.toNat % pageSize) ∧
        (addrToRegionPageId a).toNat < numRegionPages)) ∧
    (∀ (flags : Fin 64 → Bool) (i : Fin 64), regionIsAccessible (regionsToBitmap flags) i = flags i) ∧
    (∀ flags : Fin 64 → Bool, bitmapToRegions (regionsToBitmap flags) = flags) ∧
    ∀ a b : Word, isPageAligned a = true → isPageAligned b = true →
      isValidRegionId (addrToRegionId a) = true → addrToRegionId a = addrToRegionId b →
      addrToRegionPageId a = addrToRegionPageId b → a = b := by
  refine ⟨fun a => ⟨?_, fun ha => ?_⟩, regionsToBitmap_accessible,
    fun flags => funext (regionsToBitmap_accessible flags), ?_⟩
  · rw [isValidRegionId_iff, addrToRegionId_lt]
    rfl
  · exact ⟨eq_region_page_offset ((isValidRegionId_iff _).mp ha), addrToRegionPageId_lt a⟩
  · intro a b ha hb hr hid hpage
    rw [isPageAligned_iff] at ha hb
    rw [isValidRegionId_iff] at hr
    have hdec := eq_region_page_offset hr
    rw [hid] at hr
    rw [hid, hpage, ha, ← hb, ← eq_region_page_offset hr] at hdec
    exact hdec

/-! ## Memory protection -/

/-- `platform_update_memory_protection`. -/
def platformUpdateMemoryProtection (d : Data N) (c : Fin N) : Data N :=
  let mmrbm := regionsToBitmap d.untrustedRegions
  let memrbm :=
    if (d.cores c).owner ≠ ownerUntrusted then regionsToBitmap (d.enclave (d.cores c).owner).flag
    else 0
  let d := d.setCore c { d.cores c with memrbm := memrbm, mmrbm := mmrbm }
  d.setHart c { d.harts c with mmrbm := mmrbm, memrbm := memrbm }

def platformUpdateUntrustedRegions (d : Data N) (c : Fin N) (i : Fin 64) (flag : Bool) : Data N :=
  platformUpdateMemoryProtection
    { d with untrustedRegions := Function.update d.untrustedRegions i flag } c

def platformUpdateEnclaveRegions (d : Data N) (c : Fin N) (e : Word) (i : Fin 64) (flag : Bool) :
    Data N :=
  platformUpdateMemoryProtection { d with mem := Enclave.setRegion d.mem e i flag } c

/-- `~((~HANDLER_LEN) % HANDLER_LEN)`, an expression of type `int`. -/
def handlerMask : Word :=
  let len := BitVec.ofNat 32 handlerLen
  (~~~((~~~len).srem len)).signExtend 64

/-- `platform_protect_enclave_sm_handler`. -/
def platformProtectEnclaveSmHandler (m : Mem) (e physAddr : Word) : Mem :=
  Enclave.setMeparmask (Enclave.setMeparbase m e physAddr) e handlerMask

/-- `platform_memory_protection_enter_enclave`, without its use of the core lock. -/
def platformMemoryProtectionEnterEnclave (d : Data N) (c : Fin N) (e t : Word) : Data N :=
  let h := d.harts c
  let m := Thread.setEvBase d.mem t h.mevbase
  let h := { h with mevbase := (enclaveMetadata m e).evBase }
  let m := Thread.setEvMask m t h.mevmask
  let h := { h with mevmask := (enclaveMetadata m e).evMask }
  let memrbm := regionsToBitmap (enclaveMetadata m e).flag
  let m := Thread.setMemrbm m t h.memrbm
  let h := { h with memrbm := memrbm }
  let m := Thread.setMeparbase m t h.meparbase
  let h := { h with meparbase := (enclaveMetadata m e).meparbase }
  let m := Thread.setMeparmask m t h.meparmask
  let h := { h with meparmask := (enclaveMetadata m e).meparmask }
  { (d.setCore c { d.cores c with memrbm := memrbm }).setHart c h with mem := m }

/-- `platform_memory_protection_exit_enclave`. -/
def platformMemoryProtectionExitEnclave (d : Data N) (c : Fin N) (t : Word) : Data N :=
  let T := d.thread t
  (d.setHart c { d.harts c with
      mevbase := T.evBase
      mevmask := T.evMask
      memrbm := T.memrbm
      meparbase := T.meparbase
      meparmask := T.meparmask }).setCore c { d.cores c with memrbm := T.memrbm }

/-! ## Page table root and interrupts -/

/-- `platform_set_enclave_page_table`. -/
def platformSetEnclavePageTable (d : Data N) (c : Fin N) (e t : Word) : Data N :=
  { d.setHart c { d.harts c with meatp := (d.enclave e).eptbr } with
    mem := Thread.setEptbr d.mem t (d.harts c).meatp }

/-- `platform_restore_untrusted_page_table`. -/
def platformRestoreUntrustedPageTable (d : Data N) (c : Fin N) (t : Word) : Data N :=
  d.setHart c { d.harts c with meatp := (d.thread t).eptbr }

/-- `platform_interrupts_enter_enclave`. -/
def platformInterruptsEnterEnclave (d : Data N) (c : Fin N) (t : Word) : Data N :=
  let h := d.harts c
  let m := Thread.setMedeleg (Thread.setMideleg (Thread.setMie d.mem t h.mie) t h.mideleg) t h.medeleg
  { d.setHart c { h with mie := mipMtip, mideleg := 0, medeleg := 0 } with mem := m }

/-- `platform_interrupts_exit_enclave`. -/
def platformInterruptsExitEnclave (d : Data N) (c : Fin N) (t : Word) : Data N :=
  let T := d.thread t
  d.setHart c { d.harts c with mie := T.mie, mideleg := T.mideleg, medeleg := T.medeleg }

/-- The new `MSTATUS` for a return to supervisor mode: `TVM` and `SIE` set, `MPP` is S,
    `MPIE` and `UIE` cleared. -/
def mstatusForSMode (mstatus : Word) : Word :=
  let x := mstatus ||| mstatusTvmMask
  let x := x &&& ~~~mstatusMppMask
  let x := x ||| (1 <<< mstatusMppOffset)
  let x := x &&& ~~~mstatusMpieMask
  let x := x ||| mstatusSieMask
  x &&& ~~~mstatusUieMask

end SecurityMonitor
