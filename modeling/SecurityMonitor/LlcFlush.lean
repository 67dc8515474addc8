/-
  The flush of a slice of the last-level cache (`src/common/flush_llc_region.c`).

  Two nested loops load from the zero device: one line for each way and each set
  of the slice.  The indices of the two loops are flattened to one
  (`flushLoads_eq`); everything else follows from the address of a line as a sum
  (`flushAddr_toNat`).

  `flush_covers`: the loads are distinct lines of the alias of the region, and
  each set of the slice gets as many of them as the cache has ways.
-/
import SecurityMonitor.LlcPartitions

namespace SecurityMonitor

open ByteMem

variable {N : ℕ} {d : Data N} {r : Word} {lg : ℕ}

/-- `ZERO_DEVICE_OFFSET | start_addr | (index << LLC_INDEX_OFFSET)`; the index is computed in
    `int` arithmetic. -/
def flushAddr (regionId : Word) (sizeIndexRange stride i : BitVec 32) : Word :=
  let index := (sizeIndexRange * stride + i).signExtend 64
  zeroDeviceOffset ||| regionIdToAddr regionId ||| (index <<< llcIndexOffset)

/-- The addresses that `flush_llc_region` loads from, in order. -/
def flushLoads (d : Data N) (regionId : Word) : List Word :=
  let sizeIndexRange := 1#32 <<< (d.llcPartitions (toRegion regionId)).toNat
  (List.range llcNumWays).flatMap fun stride =>
    (List.range sizeIndexRange.toInt.toNat).map fun i =>
      flushAddr regionId sizeIndexRange (BitVec.ofNat 32 stride) (BitVec.ofNat 32 i)

/-- The line of an address. -/
def lineNumber (a : Word) : ℕ := a.toNat / 2 ^ llcIndexOffset

/-! ## Addresses -/

/-- The parts of an address have no bits in common. -/
theorem flushAddr_toNat {size stride i : BitVec 32} {k : ℕ} (hr : r.toNat < 64)
    (hk : (size * stride + i).toNat = k) (hlt : k < 2 ^ 19) :
    (flushAddr r size stride i).toNat = 2 ^ 32 + (0x80000000 + r.toNat * 0x2000000) + k * 64 := by
  have hindex : ((size * stride + i).signExtend 64).toNat = k := by
    rw [BitVec.signExtend_eq_setWidth_of_msb_false, BitVec.toNat_setWidth, hk]
    · omega
    · rw [BitVec.msb_eq_decide, hk]
      simp
      omega
  have hline : ((size * stride + i).signExtend 64 <<< llcIndexOffset).toNat = k * 64 := by
    rw [BitVec.toNat_shiftLeft, hindex, llcIndexOffset, Nat.shiftLeft_eq]
    omega
  have hzero : (zeroDeviceOffset ||| regionIdToAddr r).toNat =
      2 ^ 25 * (128 + 64 + r.toNat) := by
    rw [BitVec.toNat_or, regionIdToAddr_toNat hr, show zeroDeviceOffset.toNat = 2 ^ 32 * 1 by decide,
      ← Nat.two_pow_add_eq_or_of_lt (by omega)]
    omega
  rw [flushAddr, BitVec.toNat_or, hline, hzero, ← Nat.two_pow_add_eq_or_of_lt (by omega)]
  omega

/-- Nested loops over a product. -/
theorem range_flatMap_range (n : ℕ) : ∀ w : ℕ,
    ((List.range w).flatMap fun s => (List.range n).map fun i => n * s + i) = List.range (n * w)
  | 0 => by simp
  | w + 1 => by
    rw [List.range_succ, List.flatMap_append, range_flatMap_range n w, Nat.mul_succ, List.range_add]
    simp

/-- Line `k` of the alias of a region. -/
def aliasLine (regionId : Word) (k : ℕ) : Word :=
  zeroDeviceOffset + regionIdToAddr regionId + BitVec.ofNat 64 (k * 64)

theorem aliasLine_toNat (hr : r.toNat < 64) {k : ℕ} (hk : k < 2 ^ 19) :
    (aliasLine r k).toNat = 2 ^ 32 + (0x80000000 + r.toNat * 0x2000000) + k * 64 := by
  rw [aliasLine, BitVec.toNat_add, BitVec.toNat_add, regionIdToAddr_toNat hr, BitVec.toNat_ofNat,
    show zeroDeviceOffset.toNat = 2 ^ 32 by decide]
  omega

theorem lineNumber_aliasLine (hr : r.toNat < 64) {k : ℕ} (hk : k < 2 ^ 19) :
    lineNumber (aliasLine r k) = 2 ^ 19 * (192 + r.toNat) + k := by
  rw [lineNumber, aliasLine_toNat hr hk, llcIndexOffset]
  omega

/-- **The loads of the two loops**: the first lines of the alias, with a sum for the `|` of the source. -/
theorem flushLoads_eq (hr : r.toNat < 64) (hlg : (d.llcPartitions (toRegion r)).toNat = lg) (hle : lg ≤ 15) :
    flushLoads d r = (List.range (2 ^ lg * llcNumWays)).map (aliasLine r) := by
  have hpow : 2 ^ lg ≤ 2 ^ 15 := Nat.pow_le_pow_right (by decide) hle
  have hsize : (1#32 <<< lg).toNat = 2 ^ lg := by
    rw [BitVec.toNat_shiftLeft, Nat.shiftLeft_eq, BitVec.toNat_ofNat]
    omega
  have hcount : (1#32 <<< lg).toInt.toNat = 2 ^ lg := by
    rw [BitVec.toInt_eq_toNat_of_lt (by omega), hsize]
    exact Int.toNat_natCast _
  rw [flushLoads, hlg, ← range_flatMap_range, List.map_flatMap]
  simp only [hcount]
  refine List.flatMap_congr fun stride hs => ?_
  rw [List.map_map]
  refine List.map_congr_left fun i hi => ?_
  rw [List.mem_range] at hs hi
  have hs : stride < 16 := hs
  have hmul : 2 ^ lg * stride ≤ 2 ^ lg * 15 := Nat.mul_le_mul_left _ (by omega)
  have hindex : (1#32 <<< lg * BitVec.ofNat 32 stride + BitVec.ofNat 32 i).toNat = 2 ^ lg * stride + i := by
    rw [BitVec.toNat_add, BitVec.toNat_mul, hsize, BitVec.toNat_ofNat, BitVec.toNat_ofNat,
      Nat.mod_eq_of_lt (show stride < 2 ^ 32 by omega)]
    omega
  apply BitVec.eq_of_toNat_eq
  rw [flushAddr_toNat hr hindex (by omega), Function.comp_apply, aliasLine_toNat hr (by omega)]

/-! ## Coverage -/

/-- **A flush loads as many distinct lines for each set of the slice as the cache has ways.** -/
theorem flush_covers (hr : r.toNat < 64) (hlg : (d.llcPartitions (toRegion r)).toNat = lg)
    (hfit : llcNumWays * 2 ^ lg * 2 ^ llcIndexOffset ≤ regionSize) :
    flushLoads d r = (List.range (llcNumWays * 2 ^ lg)).map (aliasLine r) ∧
    (flushLoads d r).length = llcNumWays * 2 ^ lg ∧
    ((flushLoads d r).map lineNumber).Nodup ∧
    (∀ a ∈ flushLoads d r, a.toNat % 2 ^ llcIndexOffset = 0 ∧
      a ∈ range (zeroDeviceOffset + regionIdToAddr r) regionSize) ∧
    ∀ set < 2 ^ lg, ((flushLoads d r).filter fun a => lineNumber a % 2 ^ lg = set).length = llcNumWays := by
  have hlines : llcNumWays * 2 ^ lg ≤ 2 ^ 19 := by
    rw [llcNumWays, llcIndexOffset, regionSize] at hfit
    rw [llcNumWays]
    omega
  have hle : lg ≤ 15 := by
    by_contra hlt
    have hpow : 2 ^ 16 ≤ 2 ^ lg := Nat.pow_le_pow_right (by decide) (by omega)
    rw [llcNumWays] at hlines
    omega
  have heq : flushLoads d r = (List.range (llcNumWays * 2 ^ lg)).map (aliasLine r) := by
    rw [flushLoads_eq hr hlg hle, Nat.mul_comm]
  have hline (k : ℕ) (hk : k ∈ List.range (llcNumWays * 2 ^ lg)) :
      lineNumber (aliasLine r k) = 2 ^ 19 * (192 + r.toNat) + k :=
    lineNumber_aliasLine hr (lt_of_lt_of_le (List.mem_range.mp hk) hlines)
  refine ⟨heq, by rw [heq]; simp, ?_, ?_, fun set hset => ?_⟩
  · rw [heq, List.map_map]
    refine List.Nodup.map_on (fun k hk k' hk' h => ?_) List.nodup_range
    rw [Function.comp_apply, Function.comp_apply, hline k hk, hline k' hk'] at h
    omega
  · intro a ha
    rw [heq, List.mem_map] at ha
    obtain ⟨k, hk, rfl⟩ := ha
    have hk := lt_of_lt_of_le (List.mem_range.mp hk) hlines
    have hto := aliasLine_toNat hr hk
    have hbase : (zeroDeviceOffset + regionIdToAddr r).toNat = 2 ^ 32 + (0x80000000 + r.toNat * 0x2000000) := by
      simpa [aliasLine] using aliasLine_toNat hr (k := 0) (by decide)
    rw [llcIndexOffset, regionSize, mem_range_iff (by omega), hbase, hto]
    omega
  · -- the region and the alias start at a multiple of the number of sets
    have hdvd : 2 ^ 19 * (192 + r.toNat) % 2 ^ lg = 0 :=
      Nat.mod_eq_zero_of_dvd ((pow_dvd_pow 2 (by omega)).trans (Dvd.intro _ rfl))
    have hset' (k : ℕ) (hk : k ∈ List.range (llcNumWays * 2 ^ lg)) :
        ((fun a => decide (lineNumber a % 2 ^ lg = set)) ∘ aliasLine r) k = decide (k ≡ set [MOD 2 ^ lg]) := by
      rw [Function.comp_apply, hline k hk, Nat.add_mod, hdvd, Nat.zero_add, Nat.mod_mod]
      show decide (_ = set) = decide (_ = set % 2 ^ lg)
      rw [Nat.mod_eq_of_lt hset]
    rw [heq, List.filter_map, List.length_map, List.filter_congr hset']
    have hcard := Nat.count_modEq_card (llcNumWays * 2 ^ lg) (Nat.two_pow_pos lg) set
    rw [Nat.mul_mod_left, if_neg (Nat.not_lt_zero _), Nat.mul_div_cancel _ (Nat.two_pow_pos lg),
      Nat.count_eq_card_filter_range] at hcard
    exact hcard

/-- The sizes that `region_cache_partitioning` accepts are small enough. -/
theorem fits_of_admitted (h : lg < 10) : llcNumWays * 2 ^ lg * 2 ^ llcIndexOffset ≤ regionSize := by
  have hpow : 2 ^ lg ≤ 2 ^ 9 := Nat.pow_le_pow_right (by decide) (by omega)
  rw [llcNumWays, llcIndexOffset, regionSize]
  omega

set_option maxRecDepth 100000 in
theorem flush_covers_boot : (flushLoads bootState.data 1).length = 256 ∧
    ((flushLoads bootState.data 1).map lineNumber).Nodup ∧
    ((flushLoads bootState.data 1).filter fun a => lineNumber a % 2 ^ 4 = 5).length = llcNumWays := by
  have hlg : (bootState.data.llcPartitions (toRegion 1)).toNat = 4 := by decide +kernel
  obtain ⟨-, hlen, hnodup, -, hsets⟩ := flush_covers (by decide) hlg (fits_of_admitted (by decide))
  exact ⟨hlen, hnodup, hsets 5 (by decide)⟩

end SecurityMonitor
