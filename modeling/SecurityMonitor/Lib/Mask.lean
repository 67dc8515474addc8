/-
  Address ranges given by a base and a mask: an address is in the range if it
  agrees with the base on the bits of the mask.

  `highMask k` has all bits from bit `k` on.  With it and an aligned base the
  range is the interval of `2 ^ k` addresses from the base on (`and_highMask_eq_iff`).
-/
import SecurityMonitor.Lib.Memory

namespace ByteMem

variable {k : ℕ}

/-- `~(2^k - 1)`. -/
def highMask (k : ℕ) : Word := ~~~(BitVec.ofNat 64 (2 ^ k - 1))

theorem highMask_getLsbD (k : ℕ) {i : ℕ} (hi : i < 64) : (highMask k).getLsbD i = decide (k ≤ i) := by
  rw [highMask, BitVec.getLsbD_not, BitVec.getLsbD_ofNat, Nat.testBit_two_pow_sub_one]
  rcases Nat.lt_or_ge i k with h | h
  · simp [hi, h]
  · simp [hi, h]

theorem and_highMask (a : Word) (k : ℕ) : a &&& highMask k = (a >>> k) <<< k := by
  apply BitVec.eq_of_getLsbD_eq
  intro i hi
  rw [BitVec.getLsbD_and, highMask_getLsbD k hi, BitVec.getLsbD_shiftLeft, BitVec.getLsbD_ushiftRight]
  rcases Nat.lt_or_ge i k with h | h
  · simp [h]
  · simp [hi, h, Nat.not_lt.mpr h]

/-- The mask clears the low bits. -/
theorem toNat_and_highMask (a : Word) (k : ℕ) : (a &&& highMask k).toNat = a.toNat / 2 ^ k * 2 ^ k := by
  have hle : a.toNat / 2 ^ k * 2 ^ k ≤ a.toNat := Nat.div_mul_le_self ..
  rw [and_highMask, BitVec.toNat_shiftLeft, BitVec.toNat_ushiftRight, Nat.shiftLeft_eq,
    Nat.shiftRight_eq_div_pow, Nat.mod_eq_of_lt (lt_of_le_of_lt hle a.isLt)]

/-- **An aligned range is an interval.** -/
theorem and_highMask_eq_iff {a base : Word} (hb : base.toNat % 2 ^ k = 0) :
    a &&& highMask k = base ↔ base.toNat ≤ a.toNat ∧ a.toNat < base.toNat + 2 ^ k := by
  have hdiv : base.toNat / 2 ^ k * 2 ^ k = base.toNat := Nat.div_mul_cancel (Nat.dvd_of_mod_eq_zero hb)
  have hpos : 0 < 2 ^ k := Nat.two_pow_pos k
  rw [← BitVec.toNat_inj, toNat_and_highMask]
  constructor
  · intro h
    have := Nat.div_add_mod' a.toNat (2 ^ k)
    have := Nat.mod_lt a.toNat hpos
    omega
  · rintro ⟨hle, hlt⟩
    rw [← hdiv]
    congr 1
    refine le_antisymm (Nat.lt_succ_iff.mp ?_) (Nat.div_le_div_right hle)
    rw [Nat.div_lt_iff_lt_mul hpos, Nat.succ_mul, hdiv]
    exact hlt

end ByteMem
