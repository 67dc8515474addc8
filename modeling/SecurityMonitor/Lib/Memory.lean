/-
  Byte-addressed memory with 64-bit addresses.

  A memory maps every address to a byte and addresses wrap at `2 ^ 64`.  All
  writes are instances of one operation:

  * `Mem.fill m a n f` overwrites the `n` bytes from `a` on, byte `i` with `f i`;
    `store8`, `store32`, `store64`, `storeBytes`, `set` and `copy` are fills;
  * `load8`, `load32`, `load64` and `loadBytes` read little-endian values;
  * `Sep a n b k` says that two byte ranges have no address in common.  A load
    after a separated fill sees the old memory (`load64_fill`, ...), and a load
    after the store of the same cell sees the stored value (`load64_store64`,
    ...).

  Fields of a structure at `a` are addressed by `off a k`; the ranges of two
  fields are separated as soon as their offsets are (`sep_off`).
-/
import Mathlib

namespace ByteMem

abbrev Byte := BitVec 8
abbrev Word := BitVec 64

/-- An array of `n` bytes. -/
abbrev Bytes (n : ℕ) := Fin n → Byte

/-- A memory: one byte for each 64-bit address. -/
abbrev Mem := Word → Byte

/-- The address `k` bytes after `a`. -/
def off (a : Word) (k : ℕ) : Word := a + BitVec.ofNat 64 k

@[simp] theorem off_zero (a : Word) : off a 0 = a := by simp [off]

theorem off_off (a : Word) (j k : ℕ) : off (off a j) k = off a (j + k) := by
  simp only [off, BitVec.add_assoc, BitVec.ofNat_add]

theorem off_toNat (a : Word) (k : ℕ) : (off a k).toNat = (a.toNat + k) % 2 ^ 64 := by
  simp [off, BitVec.toNat_add]

theorem off_toNat_of_lt {a : Word} {k : ℕ} (h : a.toNat + k < 2 ^ 64) :
    (off a k).toNat = a.toNat + k := by
  rw [off_toNat, Nat.mod_eq_of_lt h]

theorem off_sub_self (a : Word) {k : ℕ} (hk : k < 2 ^ 64) : (off a k - a).toNat = k := by
  have : off a k - a = BitVec.ofNat 64 k := by
    rw [off, BitVec.add_comm, BitVec.add_sub_cancel]
  rw [this, BitVec.toNat_ofNat, Nat.mod_eq_of_lt hk]

theorem off_self_sub (a x : Word) : off a (x - a).toNat = x := by
  rw [off, BitVec.ofNat_toNat, BitVec.setWidth_eq, BitVec.add_comm, BitVec.sub_add_cancel]

/-! ## Ranges -/

/-- The `n` addresses from `a` on (modulo `2 ^ 64`). -/
def range (a : Word) (n : ℕ) : Set Word := {x | (x - a).toNat < n}

instance (a : Word) (n : ℕ) (x : Word) : Decidable (x ∈ range a n) :=
  inferInstanceAs (Decidable ((x - a).toNat < n))

/-- The ranges `[a, a + n)` and `[b, b + k)` have no address in common. -/
def Sep (a : Word) (n : ℕ) (b : Word) (k : ℕ) : Prop := ∀ x ∈ range a n, x ∉ range b k

theorem mem_range_off {a : Word} {n i : ℕ} (hi : i < n) (hn : n ≤ 2 ^ 64) : off a i ∈ range a n := by
  show (off a i - a).toNat < n
  rw [off_sub_self a (by omega)]; exact hi

theorem mem_range_self {a : Word} {n : ℕ} (hn : 0 < n) : a ∈ range a n := by
  show (a - a).toNat < n
  rwa [BitVec.sub_self]

theorem mem_range_iff {a x : Word} {n : ℕ} (h : a.toNat + n ≤ 2 ^ 64) :
    x ∈ range a n ↔ a.toNat ≤ x.toNat ∧ x.toNat < a.toNat + n := by
  show (x - a).toNat < n ↔ _
  rw [BitVec.toNat_sub]
  have ha := a.isLt; have hx := x.isLt
  rcases Nat.lt_or_ge x.toNat a.toNat with hlt | hge
  · rw [Nat.mod_eq_of_lt (by omega)]; omega
  · rw [show 2 ^ 64 - a.toNat + x.toNat = x.toNat - a.toNat + 2 ^ 64 by omega, Nat.add_mod_right,
      Nat.mod_eq_of_lt (by omega)]
    omega

theorem Sep.symm {a b : Word} {n k : ℕ} (h : Sep a n b k) : Sep b k a n :=
  fun x hb ha => h x ha hb

theorem Sep.mono {a b c d : Word} {n k n' k' : ℕ} (h : Sep a n b k)
    (h₁ : range c n' ⊆ range a n) (h₂ : range d k' ⊆ range b k) : Sep c n' d k' :=
  fun x hc hd => h x (h₁ hc) (h₂ hd)

theorem range_subset_of_le {a : Word} {n k : ℕ} (h : n ≤ k) : range a n ⊆ range a k :=
  fun _ hx => Nat.lt_of_lt_of_le hx h

/-- A field of a range. -/
theorem range_off_sub {a : Word} {j n k : ℕ} (h : j + n ≤ k) (hk : k ≤ 2 ^ 64) :
    range (off a j) n ⊆ range a k := by
  intro x (hx : (x - off a j).toNat < n)
  have hxo := off_self_sub (off a j) x
  rw [off_off] at hxo
  rw [← hxo]
  exact mem_range_off (by omega) hk

/-- Fields at separated offsets are separated, wherever the structure is. -/
theorem sep_off {a : Word} {j n i k : ℕ} (h : j + n ≤ i ∨ i + k ≤ j) (hj : j + n ≤ 2 ^ 64)
    (hi : i + k ≤ 2 ^ 64) : Sep (off a j) n (off a i) k := by
  intro x (hx : (x - off a j).toNat < n) (hx' : (x - off a i).toNat < k)
  have h₁ := off_self_sub (off a j) x
  have h₂ := off_self_sub (off a i) x
  rw [off_off] at h₁ h₂
  have h₃ : (x - a).toNat = j + (x - off a j).toNat := by
    conv_lhs => rw [← h₁]
    exact off_sub_self a (by omega)
  have h₄ : (x - a).toNat = i + (x - off a i).toNat := by
    conv_lhs => rw [← h₂]
    exact off_sub_self a (by omega)
  omega

theorem sep_of_le {a b : Word} {n k : ℕ} (ha : a.toNat + n ≤ 2 ^ 64) (hb : b.toNat + k ≤ 2 ^ 64)
    (h : a.toNat + n ≤ b.toNat ∨ b.toNat + k ≤ a.toNat) : Sep a n b k := by
  intro x hx hx'
  rw [mem_range_iff ha] at hx
  rw [mem_range_iff hb] at hx'
  omega

/-! ## Fills -/

namespace Mem

/-- Overwrite the `n` bytes from `a` on, byte `i` with `f i`. -/
def fill (m : Mem) (a : Word) (n : ℕ) (f : ℕ → Byte) : Mem :=
  fun x => if (x - a).toNat < n then f (x - a).toNat else m x

theorem fill_apply_of_notMem {m : Mem} {a x : Word} {n : ℕ} {f : ℕ → Byte} (h : x ∉ range a n) :
    m.fill a n f x = m x := if_neg h

theorem fill_apply_of_mem {m : Mem} {a x : Word} {n : ℕ} {f : ℕ → Byte} (h : x ∈ range a n) :
    m.fill a n f x = f (x - a).toNat := if_pos h

theorem fill_congr {m m' : Mem} {a x : Word} {n : ℕ} {f : ℕ → Byte} (h : m x = m' x) :
    m.fill a n f x = m'.fill a n f x := by
  simp only [fill, h]

theorem fill_off {m : Mem} {a : Word} {n i : ℕ} {f : ℕ → Byte} (hi : i < n) (hn : n ≤ 2 ^ 64) :
    m.fill a n f (off a i) = f i := by
  rw [fill_apply_of_mem (mem_range_off hi hn), off_sub_self a (by omega)]

/-- Two memories agree on a set of addresses. -/
def AgreeOn (m m' : Mem) (A : Set Word) : Prop := ∀ x ∈ A, m x = m' x

theorem AgreeOn.refl (m : Mem) (A : Set Word) : m.AgreeOn m A := fun _ _ => rfl

theorem AgreeOn.symm {m m' : Mem} {A : Set Word} (h : m.AgreeOn m' A) : m'.AgreeOn m A :=
  fun x hx => (h x hx).symm

theorem AgreeOn.trans {m m' m'' : Mem} {A : Set Word} (h : m.AgreeOn m' A) (h' : m'.AgreeOn m'' A) :
    m.AgreeOn m'' A := fun x hx => (h x hx).trans (h' x hx)

theorem AgreeOn.mono {m m' : Mem} {A B : Set Word} (h : m.AgreeOn m' A) (hB : B ⊆ A) :
    m.AgreeOn m' B := fun x hx => h x (hB hx)

theorem agreeOn_fill {m : Mem} {a : Word} {n : ℕ} {f : ℕ → Byte} {A : Set Word}
    (h : ∀ x ∈ A, x ∉ range a n) : (m.fill a n f).AgreeOn m A :=
  fun x hx => fill_apply_of_notMem (h x hx)

/-! ## Loads and stores -/

/-- The little-endian value of the `n` bytes from `a` on. -/
def loadNat (m : Mem) (a : Word) : ℕ → ℕ
  | 0 => 0
  | n + 1 => (m a).toNat + 256 * loadNat m (off a 1) n

def load8 (m : Mem) (a : Word) : Byte := m a
def load32 (m : Mem) (a : Word) : BitVec 32 := BitVec.ofNat 32 (m.loadNat a 4)
def load64 (m : Mem) (a : Word) : Word := BitVec.ofNat 64 (m.loadNat a 8)

/-- The `n` bytes from `a` on. -/
def loadBytes (m : Mem) (a : Word) (n : ℕ) : Bytes n := fun i => m (off a i)

/-- Byte `i` of a little-endian value. -/
def leByte (v i : ℕ) : Byte := BitVec.ofNat 8 (v / 256 ^ i)

def store8 (m : Mem) (a : Word) (v : Byte) : Mem := m.fill a 1 fun _ => v
def store32 (m : Mem) (a : Word) (v : BitVec 32) : Mem := m.fill a 4 (leByte v.toNat)
def store64 (m : Mem) (a v : Word) : Mem := m.fill a 8 (leByte v.toNat)

def storeBytes (m : Mem) (a : Word) {n : ℕ} (v : Bytes n) : Mem :=
  m.fill a n fun i => if h : i < n then v ⟨i, h⟩ else 0

/-- The `n` words from `a` on. -/
def loadWords (m : Mem) (a : Word) (n : ℕ) : Fin n → Word := fun i => m.load64 (off a (8 * i))

def storeWords (m : Mem) (a : Word) {n : ℕ} (v : Fin n → Word) : Mem :=
  m.fill a (8 * n) fun i => if h : i / 8 < n then leByte (v ⟨i / 8, h⟩).toNat (i % 8) else 0

/-- `memset`: all bytes of the range become `v`. -/
def set (m : Mem) (a : Word) (n : ℕ) (v : Byte) : Mem := m.fill a n fun _ => v

/-- `memcpy`: the range at `a` becomes a copy of the range at `b`. -/
def copy (m : Mem) (a b : Word) (n : ℕ) : Mem := m.fill a n fun i => m (off b i)

theorem loadNat_congr {m m' : Mem} {n : ℕ} : ∀ {a : Word},
    (∀ i < n, m (off a i) = m' (off a i)) → m.loadNat a n = m'.loadNat a n := by
  induction n with
  | zero => intro a _; rfl
  | succ n ih =>
    intro a h
    have h0 := h 0 (by omega)
    rw [off_zero] at h0
    rw [loadNat, loadNat, h0, ih fun i hi => ?_]
    rw [off_off]
    exact h (1 + i) (by omega)

theorem loadNat_agree {m m' : Mem} {a : Word} {n : ℕ} (h : m.AgreeOn m' (range a n))
    (hn : n ≤ 2 ^ 64) : m.loadNat a n = m'.loadNat a n :=
  loadNat_congr fun _ hi => h _ (mem_range_off hi hn)

theorem load8_agree {m m' : Mem} {a : Word} (h : m.AgreeOn m' (range a 1)) :
    m.load8 a = m'.load8 a := by
  have := h (off a 0) (mem_range_off (by omega) (by omega))
  rwa [off_zero] at this

theorem load32_agree {m m' : Mem} {a : Word} (h : m.AgreeOn m' (range a 4)) :
    m.load32 a = m'.load32 a := by
  rw [load32, load32, loadNat_agree h (by omega)]

theorem load64_agree {m m' : Mem} {a : Word} (h : m.AgreeOn m' (range a 8)) :
    m.load64 a = m'.load64 a := by
  rw [load64, load64, loadNat_agree h (by omega)]

theorem loadBytes_agree {m m' : Mem} {a : Word} {n : ℕ} (h : m.AgreeOn m' (range a n))
    (hn : n ≤ 2 ^ 64) : m.loadBytes a n = m'.loadBytes a n :=
  funext fun i => h _ (mem_range_off i.isLt hn)

theorem loadWords_agree {m m' : Mem} {a : Word} {n : ℕ} (h : m.AgreeOn m' (range a (8 * n)))
    (hn : 8 * n ≤ 2 ^ 64) : m.loadWords a n = m'.loadWords a n :=
  funext fun i => load64_agree (h.mono (range_off_sub (by have := i.isLt; omega) hn))

theorem loadNat_eq_zero {m : Mem} {n : ℕ} : ∀ {a : Word}, (∀ i < n, m (off a i) = 0) →
    m.loadNat a n = 0 := by
  induction n with
  | zero => intro a _; rfl
  | succ n ih =>
    intro a h
    have h0 := h 0 (by omega)
    rw [off_zero] at h0
    rw [loadNat, h0, ih fun i hi => ?_]
    · rfl
    · rw [off_off]
      exact h (1 + i) (by omega)

theorem load64_eq_zero {m : Mem} {a : Word} (h : ∀ i < 8, m (off a i) = 0) : m.load64 a = 0 := by
  rw [load64, loadNat_eq_zero h]; rfl

/-! ### A load after a separated fill -/

section
variable {m : Mem} {a b : Word} {k : ℕ} {f : ℕ → Byte}

theorem agreeOn_fill_sep {n : ℕ} (h : Sep a n b k) : (m.fill b k f).AgreeOn m (range a n) :=
  agreeOn_fill h

theorem load8_fill (h : Sep a 1 b k) : (m.fill b k f).load8 a = m.load8 a :=
  load8_agree (agreeOn_fill_sep h)

theorem load32_fill (h : Sep a 4 b k) : (m.fill b k f).load32 a = m.load32 a :=
  load32_agree (agreeOn_fill_sep h)

theorem load64_fill (h : Sep a 8 b k) : (m.fill b k f).load64 a = m.load64 a :=
  load64_agree (agreeOn_fill_sep h)

theorem loadBytes_fill {n : ℕ} (h : Sep a n b k) (hn : n ≤ 2 ^ 64) :
    (m.fill b k f).loadBytes a n = m.loadBytes a n :=
  loadBytes_agree (agreeOn_fill_sep h) hn

theorem loadWords_fill {n : ℕ} (h : Sep a (8 * n) b k) (hn : 8 * n ≤ 2 ^ 64) :
    (m.fill b k f).loadWords a n = m.loadWords a n :=
  loadWords_agree (agreeOn_fill_sep h) hn

end

/-! ### A load of the stored cell -/

theorem loadNat_fill_leByte (m : Mem) (v : ℕ) : ∀ (n : ℕ) (a : Word) (j : ℕ), n ≤ 2 ^ 64 →
    (∀ i < n, m (off a i) = leByte v (j + i)) → m.loadNat a n = v / 256 ^ j % 256 ^ n
  | 0, _, _, _, _ => by simp [loadNat, Nat.mod_one]
  | n + 1, a, j, hn, h => by
    have h0 := h 0 (by omega)
    rw [off_zero, Nat.add_zero] at h0
    have ih := loadNat_fill_leByte m v n (off a 1) (j + 1) (by omega) fun i hi => by
      rw [off_off, h (1 + i) (by omega), show j + (1 + i) = j + 1 + i by omega]
    rw [loadNat, ih, h0, leByte, BitVec.toNat_ofNat, pow_succ 256 j, ← Nat.div_div_eq_div_mul,
      pow_succ' 256 n, Nat.mod_mul]

theorem loadNat_store (m : Mem) (a : Word) (v n : ℕ) (hn : n ≤ 2 ^ 64) :
    (m.fill a n (leByte v)).loadNat a n = v % 256 ^ n := by
  rw [loadNat_fill_leByte _ v n a 0 hn fun i hi => by rw [fill_off hi hn, Nat.zero_add], pow_zero,
    Nat.div_one]

@[simp] theorem load8_store8 (m : Mem) (a : Word) (v : Byte) : (m.store8 a v).load8 a = v := by
  show (m.fill a 1 fun _ => v) a = v
  simp [fill]

@[simp] theorem load32_store32 (m : Mem) (a : Word) (v : BitVec 32) :
    (m.store32 a v).load32 a = v := by
  rw [store32, load32, loadNat_store _ _ _ _ (by omega), Nat.mod_eq_of_lt (by have := v.isLt; omega),
    BitVec.ofNat_toNat, BitVec.setWidth_eq]

@[simp] theorem load64_store64 (m : Mem) (a v : Word) : (m.store64 a v).load64 a = v := by
  rw [store64, load64, loadNat_store _ _ _ _ (by omega), Nat.mod_eq_of_lt (by have := v.isLt; omega),
    BitVec.ofNat_toNat, BitVec.setWidth_eq]

theorem loadBytes_storeBytes (m : Mem) (a : Word) {n : ℕ} (v : Bytes n) (hn : n ≤ 2 ^ 64) :
    (m.storeBytes a v).loadBytes a n = v := by
  funext i
  rw [loadBytes, storeBytes, fill_off i.isLt hn, dif_pos i.isLt]

theorem loadWords_storeWords (m : Mem) (a : Word) {n : ℕ} (v : Fin n → Word)
    (hn : 8 * n ≤ 2 ^ 64) : (m.storeWords a v).loadWords a n = v := by
  funext i
  have hi := i.isLt
  have h : (m.storeWords a v).loadNat (off a (8 * i)) 8 = (v i).toNat / 256 ^ 0 % 256 ^ 8 := by
    refine loadNat_fill_leByte _ _ 8 _ 0 (by omega) fun j hj => ?_
    rw [off_off, storeWords, fill_off (by omega) hn, dif_pos (show (8 * i.val + j) / 8 < n by omega)]
    congr 1
    · congr 2; exact Fin.ext (by show (8 * i.val + j) / 8 = i.val; omega)
    · omega
  rw [loadWords, load64, h, pow_zero, Nat.div_one, Nat.mod_eq_of_lt (by have := (v i).isLt; omega),
    BitVec.ofNat_toNat, BitVec.setWidth_eq]

theorem copy_off {m : Mem} {a b : Word} {n i : ℕ} (hi : i < n) (hn : n ≤ 2 ^ 64) :
    m.copy a b n (off a i) = m (off b i) := fill_off hi hn

end Mem

end ByteMem
