/-
  Sv39, the address translation of RISC-V with page tables of three levels.

  A table is a page of 512 entries of 8 bytes.  An entry holds flags in its low
  ten bits and the number of a physical page above them.  On level `i > 0` an
  entry that is valid, but not readable, writable or executable, points to a
  table of level `i - 1`; a walk ends at any other entry, and on level 0.

  * `walk` is the walk of the hardware, `tables` the tables that it visits;
  * `physAddr` is the address that a leaf gives, if the leaf is `Aligned`;
  * `Pointers` says that it gets from level `l + n` to level `l`, and `tableAt`
    is the table it finds there (`walk_eq`);
  * `Pointers.store`: storing an entry on level `l` changes nothing above it if
    the tables are distinct.
-/
import SecurityMonitor.Lib.Memory

namespace Sv39

open ByteMem

/-! ## Entries -/

/-- The index of a virtual address in tables of level `i`. -/
def vpn (va : Word) (i : ℕ) : ℕ := va.toNat / 2 ^ (12 + 9 * i) % 2 ^ 9

/-- The physical page number of an entry. -/
def ppn (pte : Word) : ℕ := pte.toNat / 2 ^ 10 % 2 ^ 44

def flags (pte : Word) : ℕ := pte.toNat % 2 ^ 10

/-- V is set, and R, W and X are clear. -/
def IsPointer (pte : Word) : Prop :=
  pte.getLsbD 0 = true ∧ pte.getLsbD 1 = false ∧ pte.getLsbD 2 = false ∧ pte.getLsbD 3 = false

instance decidableIsPointer (pte : Word) : Decidable (IsPointer pte) :=
  inferInstanceAs (Decidable (_ ∧ _))

/-- The physical page that an entry names. -/
def pageOf (pte : Word) : Word := BitVec.ofNat 64 (ppn pte * 4096)

/-- The root table that `satp` names. -/
def rootOf (satp : Word) : Word := BitVec.ofNat 64 (satp.toNat % 2 ^ 44 * 4096)

def entryAddr (table va : Word) (i : ℕ) : Word := off table (8 * vpn va i)

/-- The physical address that a leaf of level `i` gives to a virtual address. -/
def physAddr (pte va : Word) (i : ℕ) : ℕ :=
  ppn pte / 2 ^ (9 * i) * 2 ^ (12 + 9 * i) + va.toNat % 2 ^ (12 + 9 * i)

/-- The page of a leaf of level `i` is aligned to its size. -/
def Aligned (pte : Word) (i : ℕ) : Prop := ppn pte % 2 ^ (9 * i) = 0

theorem isPointer_iff (pte : Word) : IsPointer pte ↔ flags pte % 16 = 1 := by
  have hbit : ∀ i < 4, pte.getLsbD i = (flags pte % 16).testBit i := fun i hi => by
    rw [flags, Nat.mod_mod_of_dvd _ (by decide : 16 ∣ 2 ^ 10), Nat.testBit_mod_two_pow pte.toNat 4 i,
      decide_eq_true hi, Bool.true_and]
    rfl
  have hlt : flags pte % 16 < 16 := Nat.mod_lt _ (by decide)
  rw [IsPointer, hbit 0 (by decide), hbit 1 (by decide), hbit 2 (by decide), hbit 3 (by decide)]
  generalize flags pte % 16 = r at hlt
  interval_cases r <;> decide

/-- The entry with page number `p` and flags `f`. -/
theorem entry_toNat {p f : ℕ} (hp : p < 2 ^ 44) (hf : f < 2 ^ 10) :
    (BitVec.ofNat 64 (p <<< 10 ||| f)).toNat = p * 2 ^ 10 + f := by
  rw [← Nat.shiftLeft_add_eq_or_of_lt hf, Nat.shiftLeft_eq, BitVec.toNat_ofNat, Nat.mod_eq_of_lt]
  omega

theorem ppn_entry {p f : ℕ} (hp : p < 2 ^ 44) (hf : f < 2 ^ 10) :
    ppn (BitVec.ofNat 64 (p <<< 10 ||| f)) = p := by
  rw [ppn, entry_toNat hp hf]
  omega

theorem flags_entry {p f : ℕ} (hp : p < 2 ^ 44) (hf : f < 2 ^ 10) :
    flags (BitVec.ofNat 64 (p <<< 10 ||| f)) = f := by
  rw [flags, entry_toNat hp hf]
  omega

theorem pageOf_aligned (pte : Word) : (pageOf pte).toNat % 4096 = 0 := by
  rw [pageOf, BitVec.toNat_ofNat]
  omega

/-! ## Walks -/

section
variable (m : Mem) (va : Word)

/-- The entry of the virtual address in a table of level `i`. -/
def entry (i : ℕ) (table : Word) : Word := m.load64 (entryAddr table va i)

/-- The walk from a table of level `i`: the level where it ends, and the entry there. -/
def walk : ℕ → Word → ℕ × Word
  | 0, t => (0, entry m va 0 t)
  | i + 1, t =>
    if IsPointer (entry m va (i + 1) t) then walk i (pageOf (entry m va (i + 1) t))
    else (i + 1, entry m va (i + 1) t)

variable (l : ℕ)

/-- The tables that the walk visits from level `l + n` down to level `l`. -/
def tables : ℕ → Word → List Word
  | 0, t => [t]
  | n + 1, t => t :: if IsPointer (entry m va (l + n + 1) t) then
      tables n (pageOf (entry m va (l + n + 1) t)) else []

/-- The entries of the walk from level `l + n` down to level `l + 1` are pointers. -/
def Pointers : ℕ → Word → Prop
  | 0, _ => True
  | n + 1, t => IsPointer (entry m va (l + n + 1) t) ∧ Pointers n (pageOf (entry m va (l + n + 1) t))

/-- The table on level `l` that the pointers lead to. -/
def tableAt : ℕ → Word → Word
  | 0, t => t
  | n + 1, t => tableAt n (pageOf (entry m va (l + n + 1) t))

end

variable {m : Mem} {va : Word} {l : ℕ}

theorem walk_succ_of_pointer {i : ℕ} {t : Word} (h : IsPointer (entry m va (i + 1) t)) :
    walk m va (i + 1) t = walk m va i (pageOf (entry m va (i + 1) t)) := if_pos h

theorem walk_succ_of_leaf {i : ℕ} {t : Word} (h : ¬IsPointer (entry m va (i + 1) t)) :
    walk m va (i + 1) t = (i + 1, entry m va (i + 1) t) := if_neg h

/-- A walk whose entries are pointers reaches the table. -/
theorem Pointers.walk_eq : ∀ {n : ℕ} {t : Word}, Pointers m va l n t →
    walk m va (l + n) t = walk m va l (tableAt m va l n t)
  | 0, _, _ => rfl
  | n + 1, t, h => by
    have hstep : walk m va (l + (n + 1)) t = walk m va (l + n) (pageOf (entry m va (l + n + 1) t)) :=
      walk_succ_of_pointer h.1
    rw [hstep, h.2.walk_eq]
    rfl

theorem mem_tables_self (n : ℕ) (t : Word) : t ∈ tables m va l n t := by
  cases n <;> simp [tables]

theorem mem_tables_succ {n : ℕ} {t t' : Word} (h : IsPointer (entry m va (l + n + 1) t)) :
    t' ∈ tables m va l (n + 1) t ↔ t' = t ∨ t' ∈ tables m va l n (pageOf (entry m va (l + n + 1) t)) := by
  rw [tables, if_pos h, List.mem_cons]

theorem Pointers.tableAt_mem : ∀ {n : ℕ} {t : Word}, Pointers m va l n t →
    tableAt m va l n t ∈ tables m va l n t
  | 0, _, _ => List.mem_singleton.mpr rfl
  | _ + 1, _, h => (mem_tables_succ h.1).mpr (.inr h.2.tableAt_mem)

theorem tableAt_aligned : ∀ {n : ℕ} {t : Word}, t.toNat % 4096 = 0 →
    (tableAt m va l n t).toNat % 4096 = 0
  | 0, _, h => h
  | n + 1, t, _ => tableAt_aligned (n := n) (pageOf_aligned (entry m va (l + n + 1) t))

/-- Entries lie in the page of their table. -/
theorem entryAddr_range (t va : Word) (i : ℕ) : range (entryAddr t va i) 8 ⊆ range t 4096 :=
  range_off_sub (by have : vpn va i < 2 ^ 9 := Nat.mod_lt _ (by decide); omega) (by decide)

theorem page_sep {t t' : Word} (ht : t.toNat % 4096 = 0) (ht' : t'.toNat % 4096 = 0) (hne : t ≠ t') :
    Sep t 4096 t' 4096 := by
  intro x hx hx'
  have := t.isLt
  have := t'.isLt
  rw [mem_range_iff (by omega)] at hx hx'
  exact hne (BitVec.eq_of_toNat_eq (by omega))

/-- A store to another table does not change an entry. -/
theorem entry_store_of_ne {t t' v : Word} {i j : ℕ} (ht : t.toNat % 4096 = 0)
    (ht' : t'.toNat % 4096 = 0) (hne : t ≠ t') :
    entry (m.store64 (entryAddr t' va j) v) va i t = entry m va i t :=
  Mem.load64_fill ((page_sep ht ht' hne).mono (entryAddr_range t va i) (entryAddr_range t' va j))

/-- **The walk after a store to the entry on level `l`**: it goes the same way down to that
    level, and finds the new entry there. -/
theorem Pointers.store {v : Word} : ∀ {n : ℕ} {t : Word}, Pointers m va l n t →
    t.toNat % 4096 = 0 → (tables m va l n t).Nodup →
    let m' := m.store64 (entryAddr (tableAt m va l n t) va l) v
    Pointers m' va l n t ∧ tableAt m' va l n t = tableAt m va l n t ∧
      entry m' va l (tableAt m va l n t) = v
  | 0, t, _, _, _ => ⟨trivial, rfl, Mem.load64_store64 ..⟩
  | n + 1, t, h, ht, hd => by
    rw [tables, if_pos h.1, List.nodup_cons] at hd
    -- the entry is stored in a table further down, which is not this one
    have hne : t ≠ tableAt m va l (n + 1) t := by
      intro heq
      have hmem : tableAt m va l (n + 1) t ∈ tables m va l n (pageOf (entry m va (l + n + 1) t)) :=
        h.2.tableAt_mem
      rw [← heq] at hmem
      exact hd.1 hmem
    have halign : (tableAt m va l (n + 1) t).toNat % 4096 = 0 := tableAt_aligned ht
    have hsame : entry (m.store64 (entryAddr (tableAt m va l (n + 1) t) va l) v) va (l + n + 1) t =
        entry m va (l + n + 1) t := entry_store_of_ne ht halign hne
    obtain ⟨hp, hat, hentry⟩ := h.2.store (v := v) (pageOf_aligned _) hd.2
    refine ⟨⟨by rw [hsame]; exact h.1, ?_⟩, ?_, hentry⟩
    · rw [hsame]
      exact hp
    · rw [tableAt, hsame]
      exact hat

end Sv39
