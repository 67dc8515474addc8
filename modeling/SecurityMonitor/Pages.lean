/-
  The pages of metadata regions (`metadata_region_t` of `src/sm_types.h`).

  A metadata region starts with its page map: one tag for each page of the
  region, two pages in all.  The pages from `get_metadata_start_page()` on hold
  enclaves and threads.

  * `pageInfoAddr a` is the address of the tag of the page at `a`;
  * `IsSlot a`: `a` is a page that can hold metadata, wherever it lies;
  * the bytes of two slots are separated, tags are not in slots, and two pages
    have their tags at different addresses;
  * `off e (4096 * i)` is page `i` of an object that starts at `e`.
-/
import SecurityMonitor.Effect

namespace SecurityMonitor

open ByteMem

variable {N : ℕ} {a b e x : Word}

/-! ## Addresses in RAM -/

theorem toRegion_val {r : Word} (h : r.toNat < 64) : (toRegion r).val = r.toNat := Nat.mod_eq_of_lt h

theorem regionOf_val (h : (addrToRegionId a).toNat < 64) :
    (regionOf a).val = (a.toNat - 0x80000000) / 0x2000000 := by
  rw [regionOf, toRegion_val h, addrToRegionId_toNat_of_ram ((addrToRegionId_lt a).mp h).1]

theorem regionOf_eq_iff (ha : (addrToRegionId a).toNat < 64) (hb : (addrToRegionId b).toNat < 64) :
    regionOf a = regionOf b ↔
      (a.toNat - 0x80000000) / 0x2000000 = (b.toNat - 0x80000000) / 0x2000000 := by
  rw [← regionOf_val ha, ← regionOf_val hb, Fin.ext_iff]

/-- The first address of a region. -/
theorem regionBase_toNat (h : (addrToRegionId a).toNat < 64) :
    (regionIdToAddr (addrToRegionId a)).toNat =
      0x80000000 + (a.toNat - 0x80000000) / 0x2000000 * 0x2000000 := by
  rw [regionIdToAddr_toNat h, addrToRegionId_toNat_of_ram ((addrToRegionId_lt a).mp h).1]

/-- The addresses of the region of `a`. -/
theorem mem_region_iff (ha : (addrToRegionId a).toNat < 64) :
    x ∈ range (regionIdToAddr (addrToRegionId a)) regionSize ↔
      (addrToRegionId x).toNat < 64 ∧ regionOf x = regionOf a := by
  have hram := (addrToRegionId_lt a).mp ha
  rw [mem_range_iff (by rw [regionBase_toNat ha]; simp only [regionSize]; omega), regionBase_toNat ha,
    show regionSize = 0x2000000 from rfl]
  constructor
  · intro h
    have hx : (addrToRegionId x).toNat < 64 := (addrToRegionId_lt x).mpr (by omega)
    exact ⟨hx, (regionOf_eq_iff hx ha).mpr (by omega)⟩
  · rintro ⟨hx, h⟩
    rw [regionOf_eq_iff hx ha] at h
    have := (addrToRegionId_lt x).mp hx
    omega

/-! ## Tags -/

/-- The address of the tag of the page at `a`. -/
def pageInfoAddr (a : Word) : Word := regionIdToAddr (addrToRegionId a) + addrToRegionPageId a

theorem pageTag_eq (d : Data N) (a : Word) : pageTag d a = d.mem (pageInfoAddr a) := rfl

theorem pageId_lt (a : Word) : (addrToRegionPageId a).toNat < 8192 := by
  rw [addrToRegionPageId_toNat]
  simp only [regionSize, pageSize]
  omega

theorem pageInfoAddr_toNat (h : (addrToRegionId a).toNat < 64) :
    (pageInfoAddr a).toNat = 0x80000000 + (a.toNat - 0x80000000) / 0x2000000 * 0x2000000 +
      (a.toNat - 0x80000000) % 0x2000000 / 0x1000 := by
  have hram := (addrToRegionId_lt a).mp h
  rw [pageInfoAddr, BitVec.toNat_add, regionBase_toNat h, addrToRegionPageId_toNat_of_ram hram.1]
  omega

theorem pageInfoAddr_inj (ha : isPageAligned a = true) (har : (addrToRegionId a).toNat < 64)
    (hb : isPageAligned b = true) (hbr : (addrToRegionId b).toNat < 64)
    (h : pageInfoAddr a = pageInfoAddr b) : a = b := by
  rw [isPageAligned_iff, pageSize] at ha hb
  have h := congrArg BitVec.toNat h
  rw [pageInfoAddr_toNat har, pageInfoAddr_toNat hbr] at h
  have := (addrToRegionId_lt a).mp har
  have := (addrToRegionId_lt b).mp hbr
  exact BitVec.eq_of_toNat_eq (by omega)

theorem region_pageInfoAddr (h : (addrToRegionId a).toNat < 64) :
    (addrToRegionId (pageInfoAddr a)).toNat < 64 ∧ regionOf (pageInfoAddr a) = regionOf a := by
  have hram := (addrToRegionId_lt a).mp h
  have hp : (addrToRegionId (pageInfoAddr a)).toNat < 64 :=
    (addrToRegionId_lt _).mpr (by rw [pageInfoAddr_toNat h]; omega)
  exact ⟨hp, (regionOf_eq_iff hp h).mpr (by rw [pageInfoAddr_toNat h]; omega)⟩

/-! ## Slots -/

/-- A page of RAM behind the page map of its region. -/
structure IsSlot (a : Word) : Prop where
  aligned : isPageAligned a = true
  inRam : (addrToRegionId a).toNat < 64
  start : getMetadataStartPage ≤ (addrToRegionPageId a).toNat

theorem isSlot_iff : IsSlot a ↔ a.toNat % 0x1000 = 0 ∧ 0x80000000 ≤ a.toNat ∧
    a.toNat < 0x100000000 ∧ 3 ≤ (a.toNat - 0x80000000) % 0x2000000 / 0x1000 := by
  have hstart : getMetadataStartPage = 3 := by decide
  constructor
  · rintro ⟨ha, hr, hs⟩
    have hram := (addrToRegionId_lt a).mp hr
    rw [isPageAligned_iff, pageSize] at ha
    rw [addrToRegionPageId_toNat_of_ram hram.1, hstart] at hs
    exact ⟨ha, hram.1, hram.2, hs⟩
  · rintro ⟨ha, hlo, hhi, hs⟩
    exact ⟨(isPageAligned_iff a).mpr ha, (addrToRegionId_lt a).mpr ⟨hlo, hhi⟩, by
      rw [addrToRegionPageId_toNat_of_ram hlo, hstart]; exact hs⟩

theorem IsSlot.mem_iff (h : IsSlot a) {n : ℕ} (hn : n ≤ 4096) :
    x ∈ range a n ↔ a.toNat ≤ x.toNat ∧ x.toNat < a.toNat + n :=
  mem_range_iff (by have := isSlot_iff.mp h; omega)

theorem IsSlot.sep (ha : IsSlot a) (hb : IsSlot b) (h : a ≠ b) : Sep a 4096 b 4096 := by
  have hne : a.toNat ≠ b.toNat := fun he => h (BitVec.eq_of_toNat_eq he)
  have := isSlot_iff.mp ha
  have := isSlot_iff.mp hb
  exact sep_of_le (by omega) (by omega) (by omega)

theorem IsSlot.info_notMem (hb : IsSlot b) (ha : (addrToRegionId a).toNat < 64) :
    pageInfoAddr a ∉ range b 4096 := by
  have := isSlot_iff.mp hb
  have := (addrToRegionId_lt a).mp ha
  rw [hb.mem_iff (by omega), pageInfoAddr_toNat ha]
  omega

/-- The bytes of a page of RAM lie in its region. -/
theorem region_of_mem_page (ha : isPageAligned a = true) (hr : (addrToRegionId a).toNat < 64)
    (hx : x ∈ range a 4096) : (addrToRegionId x).toNat < 64 ∧ regionOf x = regionOf a := by
  have hram := (addrToRegionId_lt a).mp hr
  rw [isPageAligned_iff, pageSize] at ha
  rw [mem_range_iff (by omega)] at hx
  have hxr : (addrToRegionId x).toNat < 64 := (addrToRegionId_lt x).mpr (by omega)
  exact ⟨hxr, (regionOf_eq_iff hxr hr).mpr (by omega)⟩

theorem IsSlot.region_of_mem (h : IsSlot a) (hx : x ∈ range a 4096) :
    (addrToRegionId x).toNat < 64 ∧ regionOf x = regionOf a :=
  region_of_mem_page h.aligned h.inRam hx

/-! ## Pages of an object -/

section
variable {i : ℕ}

theorem page_toNat (he : (addrToRegionId e).toNat < 64)
    (hi : (addrToRegionPageId e).toNat + i < 8192) : (off e (4096 * i)).toNat = e.toNat + 4096 * i := by
  have := (addrToRegionId_lt e).mp he
  exact off_toNat_of_lt (by omega)

theorem region_page (he : IsSlot e) (hi : (addrToRegionPageId e).toNat + i < 8192) :
    (addrToRegionId (off e (4096 * i))).toNat < 64 ∧ regionOf (off e (4096 * i)) = regionOf e := by
  have hslot := isSlot_iff.mp he
  have hnat := page_toNat he.inRam hi
  rw [addrToRegionPageId_toNat_of_ram hslot.2.1] at hi
  have hr : (addrToRegionId (off e (4096 * i))).toNat < 64 := (addrToRegionId_lt _).mpr (by omega)
  exact ⟨hr, (regionOf_eq_iff hr he.inRam).mpr (by omega)⟩

theorem isSlot_page (he : IsSlot e) (hi : (addrToRegionPageId e).toNat + i < 8192) :
    IsSlot (off e (4096 * i)) := by
  have hslot := isSlot_iff.mp he
  have hnat := page_toNat he.inRam hi
  rw [addrToRegionPageId_toNat_of_ram hslot.2.1] at hi
  rw [isSlot_iff]
  omega

theorem pageInfoAddr_page (he : IsSlot e) (hi : (addrToRegionPageId e).toNat + i < 8192) :
    pageInfoAddr (off e (4096 * i)) = off (pageInfoAddr e) i := by
  have hslot := isSlot_iff.mp he
  have hr := (region_page he hi).1
  have hnat := page_toNat he.inRam hi
  have hi' := hi
  rw [addrToRegionPageId_toNat_of_ram hslot.2.1] at hi'
  have hinfo := pageInfoAddr_toNat he.inRam
  have hoff : (off (pageInfoAddr e) i).toNat = (pageInfoAddr e).toNat + i := off_toNat_of_lt (by omega)
  apply BitVec.eq_of_toNat_eq
  rw [pageInfoAddr_toNat hr, hoff, hinfo]
  omega

end

end SecurityMonitor
