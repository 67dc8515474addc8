/-
  Page tables of Sv39 that are built one entry at a time.

  A set of pages is used for tables, each on one level and for one part of the
  virtual address space.  The part of a table of level `l` is a number: that of the
  virtual addresses whose bits above level `l` it gives (`upper`).

  * `Tree m T leaf`: in the memory `m` each valid entry of each table of `T` is a
    pointer to a table of `T` for the part of that entry, or a leaf on level 0 that
    `leaf` allows for its virtual page;
  * `Tree.walk`: a walk that ends at a valid leaf ends on level 0, at a leaf that is
    allowed for its virtual page;
  * `Tree.agree`, `Tree.add`, `Tree.store`, `Tree.mono`: what keeps a `Tree`, namely
    writes outside the tables, a new table without entries, an entry in its place,
    and more leaves that are allowed.
-/
import SecurityMonitor.Lib.Sv39

namespace Sv39

open ByteMem

/-! ## Virtual pages -/

/-- The bits of a virtual address that the walk has used when it leaves level `l`. -/
def upper (va : Word) (l : ℕ) : ℕ := va.toNat % 2 ^ 39 / 2 ^ (12 + 9 * l)

/-- The number of the virtual page of an address. -/
def pageNumber (va : Word) : ℕ := upper va 0

theorem vpn_lt (va : Word) (l : ℕ) : vpn va l < 512 := Nat.mod_lt _ (by decide)

theorem upper_three (va : Word) : upper va 3 = 0 := by
  rw [upper]
  exact Nat.div_eq_of_lt (Nat.mod_lt _ (by decide))

/-- One more level of the walk. -/
theorem upper_eq (va : Word) {l : ℕ} (hl : l ≤ 2) : upper va l = 512 * upper va (l + 1) + vpn va l := by
  simp only [upper, vpn]
  interval_cases l <;> omega

/-- Bits 39 to 63 are copies of bit 38: the addresses that the hardware translates. -/
def Canonical (va : Word) : Prop := va.toNat < 2 ^ 38 ∨ 2 ^ 64 - 2 ^ 38 ≤ va.toNat

theorem Canonical.page_eq {va va' : Word} (h : Canonical va) (h' : Canonical va')
    (heq : pageNumber va = pageNumber va') : va.toNat / 2 ^ 12 = va'.toNat / 2 ^ 12 := by
  have hlt := va.isLt
  have hlt' := va'.isLt
  simp only [Canonical] at h h'
  simp only [pageNumber, upper] at heq
  omega

/-! ## Trees -/

/-- V is set. -/
def IsValid (pte : Word) : Prop := pte.getLsbD 0 = true

instance decidableIsValid (pte : Word) : Decidable (IsValid pte) := inferInstanceAs (Decidable (_ = _))

/-- The tables, with their levels and the parts of the address space they are for. -/
abbrev Tables := Word → ℕ → ℕ → Prop

/-- An entry on level `l` for the part `n`. -/
def EntryOk (T : Tables) (leaf : ℕ → Word → Prop) (l n : ℕ) (pte : Word) : Prop :=
  ¬ IsValid pte ∨ (IsPointer pte ∧ ∀ i, l = i + 1 → T (pageOf pte) i n) ∨
    (¬ IsPointer pte ∧ l = 0 ∧ leaf n pte)

structure Tree (m : Mem) (T : Tables) (leaf : ℕ → Word → Prop) : Prop where
  aligned : ∀ {t l n}, T t l n → t.toNat % 4096 = 0
  unique : ∀ {t l n l' n'}, T t l n → T t l' n' → l = l' ∧ n = n'
  entries : ∀ {t l n}, T t l n → ∀ j < 512, EntryOk T leaf l (512 * n + j) (m.load64 (off t (8 * j)))

/-- A page with no valid entry. -/
def NoEntries (m : Mem) (t : Word) : Prop := ∀ j < 512, ¬ IsValid (m.load64 (off t (8 * j)))

theorem isValid_load64 (m : Mem) (a : Word) : IsValid (m.load64 a) ↔ (m a).getLsbD 0 = true := by
  have hlow : (m.load64 a).toNat % 2 = (m a).toNat % 2 := by
    rw [Mem.load64, BitVec.toNat_ofNat, Mem.loadNat]
    omega
  rw [IsValid, BitVec.getLsbD, BitVec.getLsbD, Nat.testBit_zero, Nat.testBit_zero, hlow]

/-- The first byte of each entry is enough to see it. -/
instance decidableNoEntries (m : Mem) (t : Word) : Decidable (NoEntries m t) :=
  decidable_of_iff (∀ j < 512, ¬ (m (off t (8 * j))).getLsbD 0 = true) <|
    forall_congr' fun _ => forall_congr' fun _ => not_congr (isValid_load64 m _).symm

variable {m m' : Mem} {T T' : Tables} {leaf leaf' : ℕ → Word → Prop} {t va pte : Word} {l n i : ℕ}

theorem EntryOk.mono (h : EntryOk T leaf l n pte) (hT : ∀ {t l n}, T t l n → T' t l n)
    (hleaf : ∀ {n pte}, leaf n pte → leaf' n pte) : EntryOk T' leaf' l n pte := by
  rcases h with hv | ⟨hp, ht⟩ | ⟨hp, hl, hlf⟩
  · exact .inl hv
  · exact .inr (.inl ⟨hp, fun i hi => hT (ht i hi)⟩)
  · exact .inr (.inr ⟨hp, hl, hleaf hlf⟩)

theorem entry_range (t : Word) {j : ℕ} (hj : j < 512) : range (off t (8 * j)) 8 ⊆ range t 4096 :=
  range_off_sub (by omega) (by decide)

namespace Tree

theorem empty (m : Mem) (leaf : ℕ → Word → Prop) : Tree m (fun _ _ _ => False) leaf :=
  ⟨False.elim, False.elim, False.elim⟩

/-- The entry of a virtual address in a table for it. -/
theorem entryOk (h : Tree m T leaf) (hl : l ≤ 2) (ht : T t l (upper va (l + 1))) :
    EntryOk T leaf l (upper va l) (entry m va l t) := by
  rw [upper_eq va hl]
  exact h.entries ht (vpn va l) (vpn_lt va l)

/-- A pointer leads to a table for the same virtual addresses. -/
theorem next (h : Tree m T leaf) (hl : l + 1 ≤ 2) (ht : T t (l + 1) (upper va (l + 2)))
    (hp : IsPointer (entry m va (l + 1) t)) : T (pageOf (entry m va (l + 1) t)) l (upper va (l + 1)) := by
  rcases h.entryOk hl ht with hv | ⟨-, hT⟩ | ⟨hn, -⟩
  · exact absurd hp.1 hv
  · exact hT l rfl
  · exact absurd hp hn

/-- **A walk finds only leaves that are allowed**, and only on level 0. -/
theorem walk (h : Tree m T leaf) : ∀ {l : ℕ} {t : Word}, l ≤ 2 → T t l (upper va (l + 1)) →
    walk m va l t = (i, pte) → IsValid pte → ¬ IsPointer pte → i = 0 ∧ leaf (pageNumber va) pte
  | 0, t, hl, ht, hw, hv, hp => by
    obtain ⟨rfl, rfl⟩ := Prod.mk.inj hw
    rcases h.entryOk hl ht with hn | ⟨hptr, -⟩ | ⟨-, -, hleaf⟩
    · exact absurd hv hn
    · exact absurd hptr hp
    · exact ⟨rfl, hleaf⟩
  | l + 1, t, hl, ht, hw, hv, hp => by
    by_cases hptr : IsPointer (entry m va (l + 1) t)
    · rw [walk_succ_of_pointer hptr] at hw
      exact h.walk (by omega) (h.next hl ht hptr) hw hv hp
    · rw [walk_succ_of_leaf hptr] at hw
      obtain ⟨rfl, rfl⟩ := Prod.mk.inj hw
      rcases h.entryOk hl ht with hn | ⟨hptr', -⟩ | ⟨-, hl0, -⟩
      · exact absurd hv hn
      · exact absurd hptr' hptr
      · exact absurd hl0 (Nat.succ_ne_zero l)

theorem agree (h : Tree m T leaf) (hm : ∀ {t l n}, T t l n → m'.AgreeOn m (range t 4096)) :
    Tree m' T leaf := by
  refine ⟨h.aligned, h.unique, fun {t l n} ht j hj => ?_⟩
  rw [Mem.load64_agree ((hm ht).mono (entry_range t hj))]
  exact h.entries ht j hj

theorem mono (h : Tree m T leaf) (hleaf : ∀ {n pte}, leaf n pte → leaf' n pte) : Tree m T leaf' :=
  ⟨h.aligned, h.unique, fun ht j hj => (h.entries ht j hj).mono id hleaf⟩

/-- A page without entries becomes a table. -/
theorem add (h : Tree m T leaf) (ha : t.toNat % 4096 = 0) (hnew : ∀ l n, ¬ T t l n) (hno : NoEntries m t)
    (l n : ℕ) : Tree m (fun t' l' n' => T t' l' n' ∨ t' = t ∧ l' = l ∧ n' = n) leaf := by
  refine ⟨?_, ?_, ?_⟩
  · rintro t' l' n' (ht | ⟨rfl, -, -⟩)
    · exact h.aligned ht
    · exact ha
  · rintro t' l₁ n₁ l₂ n₂ (h₁ | ⟨rfl, rfl, rfl⟩) (h₂ | ⟨heq, rfl, rfl⟩)
    · exact h.unique h₁ h₂
    · exact absurd (heq ▸ h₁) (hnew l₁ n₁)
    · exact absurd h₂ (hnew l₂ n₂)
    · exact ⟨rfl, rfl⟩
  · rintro t' l' n' (ht | ⟨rfl, rfl, rfl⟩) j hj
    · exact (h.entries ht j hj).mono .inl id
    · exact .inl (hno j hj)

/-- The entry of a virtual address is replaced, in a table for it. -/
theorem store (h : Tree m T leaf) (hl : l ≤ 2) (ht : T t l (upper va (l + 1)))
    (hpte : EntryOk T leaf l (upper va l) pte) : Tree (m.store64 (entryAddr t va l) pte) T leaf := by
  refine ⟨h.aligned, h.unique, fun {t' l' n'} ht' j hj => ?_⟩
  by_cases heq : t' = t
  · subst heq
    obtain ⟨rfl, rfl⟩ := h.unique ht' ht
    by_cases hj' : j = vpn va l'
    · subst hj'
      rw [show off t' (8 * vpn va l') = entryAddr t' va l' from rfl, Mem.load64_store64, ← upper_eq va hl]
      exact hpte
    · have hlt := vpn_lt va l'
      have hsep : Sep (off t' (8 * j)) 8 (entryAddr t' va l') 8 := sep_off (by omega) (by omega) (by omega)
      rw [Mem.store64, Mem.load64_fill hsep]
      exact h.entries ht' j hj
  · have hsep : Sep (off t' (8 * j)) 8 (entryAddr t va l) 8 :=
      (page_sep (h.aligned ht') (h.aligned ht) heq).mono (entry_range t' hj) (entryAddr_range t va l)
    rw [Mem.store64, Mem.load64_fill hsep]
    exact h.entries ht' j hj

end Tree

end Sv39
