/-
  The check of a virtual address against the range of an enclave
  (`src/api/enclave_load_page.c`, `src/api/enclave_load_page_table.c`).

  The range of an enclave is given by `ev_base` and `ev_mask`.  Before a page is
  mapped at an address, the calls compare the address itself, and the address of
  the page after it, with the base.  For an aligned range this asks that the next
  page is in the range, too.

  * `insideEvRange_iff`: what the check accepts, as an interval;
  * `page_subset_evRange_iff`: when the whole page is in the range;
  * `ev_range_check_iff`: the two differ on the last page of the range, and only
    there.
-/
import SecurityMonitor.BuildApi
import SecurityMonitor.Lib.Mask

namespace SecurityMonitor

open ByteMem

section
variable {k : ℕ} {E : EnclaveMetadata} {va : Word}

theorem two_pow_aligned (hk : 12 ≤ k) : 2 ^ k % 4096 = 0 :=
  Nat.mod_eq_zero_of_dvd (pow_dvd_pow 2 hk)

theorem aligned_of_two_pow {n : ℕ} (hk : 12 ≤ k) (hn : n % 2 ^ k = 0) : n % 4096 = 0 :=
  Nat.mod_eq_zero_of_dvd ((pow_dvd_pow 2 hk : 2 ^ 12 ∣ 2 ^ k).trans (Nat.dvd_of_mod_eq_zero hn))

/-- An aligned range does not wrap. -/
theorem add_two_pow_le {base : Word} (hk : k < 64) (hb : base.toNat % 2 ^ k = 0) :
    base.toNat + 2 ^ k ≤ 2 ^ 64 := by
  obtain ⟨q, hq⟩ := Nat.dvd_of_mod_eq_zero hb
  obtain ⟨r, hr⟩ : 2 ^ k ∣ 2 ^ 64 := pow_dvd_pow 2 hk.le
  have hlt := base.isLt
  rw [hq, hr] at hlt ⊢
  have hqr : q < r := Nat.lt_of_mul_lt_mul_left hlt
  calc 2 ^ k * q + 2 ^ k = 2 ^ k * (q + 1) := by ring
    _ ≤ 2 ^ k * r := Nat.mul_le_mul_left _ hqr

/-- **What the check accepts**: the page and the one after it start in the range. -/
theorem insideEvRange_iff (hk : k < 64) (hmask : E.evMask = highMask k)
    (hbase : E.evBase.toNat % 2 ^ k = 0) (hva : va.toNat % 4096 = 0) :
    ¬ outsideEvRange E va ↔ E.evBase.toNat ≤ va.toNat ∧ va.toNat + 4096 < E.evBase.toNat + 2 ^ k := by
  have hle := add_two_pow_le hk hbase
  have hpow : 2 ^ k ≤ 2 ^ 63 := Nat.pow_le_pow_right (by decide) (by omega)
  have hlt := va.isLt
  rw [outsideEvRange, not_or, not_not, not_not, hmask, and_highMask_eq_iff hbase,
    and_highMask_eq_iff hbase, off_toNat, pageSize]
  rcases Nat.lt_or_ge (va.toNat + 4096) (2 ^ 64) with h | h
  · rw [Nat.mod_eq_of_lt h]
    omega
  · -- the last page of all: the page after it is at 0
    rw [show va.toNat + 4096 = 2 ^ 64 by omega, Nat.mod_self]
    omega

/-- The page lies in the range. -/
theorem page_subset_evRange_iff (hk : 12 ≤ k) (hmask : E.evMask = highMask k)
    (hbase : E.evBase.toNat % 2 ^ k = 0) (hva : va.toNat % 4096 = 0) :
    (∀ a ∈ range va pageSize, a &&& E.evMask = E.evBase) ↔
      E.evBase.toNat ≤ va.toNat ∧ va.toNat + 4096 ≤ E.evBase.toNat + 2 ^ k := by
  have hb := aligned_of_two_pow hk hbase
  have hp := two_pow_aligned hk
  have hlt := va.isLt
  have hmem (a : Word) : a ∈ range va pageSize ↔ va.toNat ≤ a.toNat ∧ a.toNat < va.toNat + 4096 :=
    mem_range_iff (by rw [pageSize]; omega)
  constructor
  · intro h
    have hfirst := h va ((hmem va).mpr ⟨le_rfl, by omega⟩)
    rw [hmask, and_highMask_eq_iff hbase] at hfirst
    omega
  · intro h a ha
    rw [hmem] at ha
    rw [hmask, and_highMask_eq_iff hbase]
    omega

/-- **The check is exact on every page but the last one of the range.** -/
theorem ev_range_check_iff (hk : 12 ≤ k) (hk' : k < 64) (hmask : E.evMask = highMask k)
    (hbase : E.evBase.toNat % 2 ^ k = 0) (hva : va.toNat % pageSize = 0) :
    (¬ outsideEvRange E va ↔ ∀ a ∈ range va pageSize, a &&& E.evMask = E.evBase) ↔
      va ≠ off E.evBase (2 ^ k - pageSize) := by
  have hle := add_two_pow_le hk' hbase
  have hpage : 2 ^ 12 ≤ 2 ^ k := Nat.pow_le_pow_right (by decide) hk
  have hlast : va = off E.evBase (2 ^ k - pageSize) ↔ va.toNat + 4096 = E.evBase.toNat + 2 ^ k := by
    rw [← BitVec.toNat_inj, pageSize, off_toNat_of_lt (by omega)]
    omega
  rw [insideEvRange_iff hk' hmask hbase hva, page_subset_evRange_iff hk hmask hbase hva, ne_eq, hlast]
  omega

end

/-- Metadata with a range of `2 ^ k` addresses. -/
def rangeMetadata (base : Word) (k : ℕ) : EnclaveMetadata :=
  { enclaveMetadata (fun _ => 0) 0 with evBase := base, evMask := highMask k }

theorem ev_range_check_first : (¬ outsideEvRange (rangeMetadata 0x40000000 13) 0x40000000 ↔
    ∀ a ∈ range 0x40000000 pageSize, a &&& (rangeMetadata 0x40000000 13).evMask =
      (rangeMetadata 0x40000000 13).evBase) :=
  (ev_range_check_iff (k := 13) (by decide) (by decide) rfl (by decide) (by decide)).mpr (by decide)

/-- The second of two pages is in the range, and it is refused. -/
theorem ev_range_check_fails :
    (∀ a ∈ range 0x40001000 pageSize, a &&& (rangeMetadata 0x40000000 13).evMask =
      (rangeMetadata 0x40000000 13).evBase) ∧
    outsideEvRange (rangeMetadata 0x40000000 13) 0x40001000 :=
  ⟨(page_subset_evRange_iff (k := 13) (by decide) rfl (by decide) (by decide)).mpr (by decide), by decide⟩

end SecurityMonitor
