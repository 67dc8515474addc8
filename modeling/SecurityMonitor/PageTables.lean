/-
  `load_page_table_entry` and the Sv39 walk of the hardware.

  The source walks the page tables with masks and shifts; `Lib/Sv39.lean` says
  what the hardware does with the same tables.

  * `pteAddr_entryAddr`, `pteTable_eq`, `badNode_iff`, `mkPte_page`: the bit
    operations of the source are those of Sv39;
  * `Reaches`: the walk gets to a level, and the enclave owns every table on the
    way;
  * `loadPageTableEntry_sv39`: a call succeeds exactly if the walk gets to its
    level, and afterwards the walk finds the new entry there.
-/
import SecurityMonitor.MemoryIsolation
import SecurityMonitor.Lib.Sv39

namespace SecurityMonitor

open ByteMem Prog

variable {N : ℕ} {s : CallState N} {d : Data N} {e p va level acl root base pte : Word} {l n : ℕ}

/-! ## Masks and shifts -/

theorem pteAddr_entryAddr (base va : Word) (i : ℕ) : pteAddr base va i = Sv39.entryAddr base va i :=
  pteAddr_eq base va i

theorem pteTable_eq (pte : Word) : pteTable pte = Sv39.pageOf pte := by
  have h : ((pte &&& ppnsMask) >>> pageEntryAclOffset).toNat = Sv39.ppn pte := by
    rw [BitVec.toNat_ushiftRight, BitVec.toNat_and, Nat.shiftRight_and_distrib,
      show ppnsMask.toNat >>> pageEntryAclOffset = 2 ^ 44 - 1 by decide,
      Nat.and_two_pow_sub_one_eq_mod, Nat.shiftRight_eq_div_pow]
    rfl
  apply BitVec.eq_of_toNat_eq
  rw [pteTable, BitVec.toNat_shiftLeft, h, Nat.shiftLeft_eq, Sv39.pageOf, BitVec.toNat_ofNat]
  rfl

theorem rootTable_eq (satp : Word) : rootTable satp = Sv39.rootOf satp := by
  apply BitVec.eq_of_toNat_eq
  rw [rootTable, BitVec.toNat_shiftLeft, BitVec.toNat_and, show satpPpnMask.toNat = 2 ^ 44 - 1 by decide,
    Nat.and_two_pow_sub_one_eq_mod, Nat.shiftLeft_eq, Sv39.rootOf, BitVec.toNat_ofNat]
  rfl

/-- The test of the source is the one of the hardware. -/
theorem badNode_iff (pte : Word) : badNode pte ↔ ¬ Sv39.IsPointer pte := by
  have hbit (i : ℕ) (hi : i < 10) : (pte &&& aclMask) &&& BitVec.twoPow 64 i =
      if pte.getLsbD i = true then BitVec.twoPow 64 i else 0#64 := by
    rw [BitVec.and_assoc, show aclMask &&& BitVec.twoPow 64 i = BitVec.twoPow 64 i by
      interval_cases i <;> decide, BitVec.and_twoPow]
  have h0 := hbit 0 (by decide)
  have h1 := hbit 1 (by decide)
  have h2 := hbit 2 (by decide)
  have h3 := hbit 3 (by decide)
  rw [show BitVec.twoPow 64 0 = pteV by decide] at h0
  rw [show BitVec.twoPow 64 1 = pteR by decide] at h1
  rw [show BitVec.twoPow 64 2 = pteW by decide] at h2
  rw [show BitVec.twoPow 64 3 = pteX by decide] at h3
  rw [badNode, Sv39.IsPointer]
  simp only [h0, h1, h2, h3]
  cases pte.getLsbD 0 <;> cases pte.getLsbD 1 <;> cases pte.getLsbD 2 <;> cases pte.getLsbD 3 <;>
    decide

theorem mkPte_toNat (p acl : Word) :
    (mkPte p acl).toNat = p.toNat / 2 ^ 12 % 2 ^ 44 * 2 ^ 10 + acl.toNat % 2 ^ 10 := by
  have hflags : (acl &&& aclMask).toNat = acl.toNat % 2 ^ 10 := by
    rw [BitVec.toNat_and, show aclMask.toNat = 2 ^ 10 - 1 by decide, Nat.and_two_pow_sub_one_eq_mod]
  have hpage : ((p >>> pageShift) <<< pageEntryAclOffset &&& ppnsMask).toNat =
      (p.toNat / 2 ^ 12 % 2 ^ 44) <<< 10 := by
    have hlt : p.toNat / 2 ^ 12 * 2 ^ 10 < 2 ^ 64 := by have := p.isLt; omega
    rw [BitVec.toNat_and, BitVec.toNat_shiftLeft, BitVec.toNat_ushiftRight,
      Nat.shiftRight_eq_div_pow, show pageShift = 12 from rfl, show pageEntryAclOffset = 10 from rfl,
      show ppnsMask.toNat = (2 ^ 44 - 1) <<< 10 by decide, Nat.shiftLeft_eq, Nat.mod_eq_of_lt hlt,
      ← Nat.shiftLeft_eq, ← Nat.shiftLeft_and_distrib, Nat.and_two_pow_sub_one_eq_mod]
  rw [mkPte, BitVec.toNat_or, hflags, hpage,
    ← Nat.shiftLeft_add_eq_or_of_lt (Nat.mod_lt _ (by decide)), Nat.shiftLeft_eq]

/-- The page of an entry is the one it was made for. -/
theorem mkPte_page (hp : p.toNat % pageSize = 0) (hp' : p.toNat < 2 ^ 56) :
    Sv39.pageOf (mkPte p acl) = p := by
  apply BitVec.eq_of_toNat_eq
  rw [Sv39.pageOf, BitVec.toNat_ofNat, Sv39.ppn, mkPte_toNat]
  simp only [pageSize] at hp
  omega

theorem mkPte_flags : Sv39.flags (mkPte p acl) = acl.toNat % 2 ^ 10 := by
  rw [Sv39.flags, mkPte_toNat]
  omega

/-- The root that a load on level 3 stores in `eptbr`. -/
theorem rootOf_eptbr (hp : p.toNat % pageSize = 0) (hp' : p.toNat < 2 ^ 56) :
    Sv39.rootOf ((p >>> pageShift) ||| satpModeSv39) = p := by
  apply BitVec.eq_of_toNat_eq
  rw [Sv39.rootOf, BitVec.toNat_ofNat, BitVec.toNat_or, Nat.or_mod_two_pow, BitVec.toNat_ushiftRight,
    Nat.shiftRight_eq_div_pow, show satpModeSv39.toNat % 2 ^ 44 = 0 by decide, Nat.or_zero,
    show pageShift = 12 from rfl]
  simp only [pageSize] at hp
  omega

/-! ## The walk of the source -/

/-- All region locks that are held are the call's own. -/
def OwnLocks (s : CallState N) : Prop := ∀ i, s.locks (.region i) = true → s.lockedRegions i = true

instance (d : Data N) (e a : Word) : Decidable (OwnedBy d e a) := inferInstanceAs (Decidable (_ ∧ _))

/-- The walk gets to level `l`, and the enclave owns every table on the way. -/
def Reaches (d : Data N) (e va : Word) (l n : ℕ) (t : Word) : Prop :=
  Sv39.Pointers d.mem va l n t ∧ ∀ t' ∈ Sv39.tables d.mem va l n t, OwnedBy d e t'

theorem Reaches.owned (h : Reaches d e va l n base) : OwnedBy d e base :=
  h.2 base (Sv39.mem_tables_self n base)

theorem reaches_zero : Reaches d e va l 0 base ↔ OwnedBy d e base :=
  ⟨Reaches.owned, fun h => ⟨trivial, by simpa [Sv39.tables] using h⟩⟩

theorem reaches_succ : Reaches d e va l (n + 1) base ↔ OwnedBy d e base ∧
    Sv39.IsPointer (Sv39.entry d.mem va (l + n + 1) base) ∧
      Reaches d e va l n (Sv39.pageOf (Sv39.entry d.mem va (l + n + 1) base)) := by
  constructor
  · intro h
    exact ⟨h.owned, h.1.1, h.1.2, fun t ht => h.2 t ((Sv39.mem_tables_succ h.1.1).mpr (.inr ht))⟩
  · rintro ⟨hb, hptr, h⟩
    refine ⟨⟨hptr, h.1⟩, fun t ht => ?_⟩
    rcases (Sv39.mem_tables_succ hptr).mp ht with rfl | ht
    · exact hb
    · exact h.2 t ht

section
variable {ρ : Type} {E : Empty → CallState N → Prop} {R : ρ → CallState N → Prop} {F : Fault → Prop}

/-- With its own locks only, a call finds out the owner of a region. -/
theorem wp_regionOwner {Q : Word → CallState N → Prop} {r : Word} (hr : r.toNat < 64)
    (hl : s.locks (.region (toRegion r)) = false) (hQ : Q (s.data.regions (toRegion r)).owner s) :
    (regionOwner r).wp E Q F s := by
  simp only [regionOwner, lockRegion, unlockRegion, wp_bind, wp_ite, wp_ret, wp_regionIndex,
    Bool.not_eq_true', isValidRegionId_eq_false, not_not]
  refine ⟨fun hn => absurd hr hn, fun _ => ⟨fun _ => ⟨fun hn => ?_, fun _ => ⟨fun _ => ?_, ?_⟩⟩, ?_⟩⟩
  · change (!s.locks (.region (toRegion r))) = false at hn
    rw [hl] at hn
    exact absurd hn (by simp)
  · -- the lock is released again
    show Q _ ((s.setLock _ true).setLock _ false)
    have hback : (s.setLock (.region (toRegion r)) true).setLock (.region (toRegion r)) false = s := by
      simp only [CallState.setLock, Function.update_idem]
      rw [← hl, Function.update_eq_self]
    rw [hback]
    exact hQ
  · exact fun hn => absurd hr hn
  · exact fun hn => absurd hr hn

theorem wp_ownsTable {Q : Bool → CallState N → Prop} (hs : OwnLocks s) (hb : base.toNat < 2 ^ 56)
    (hQ : (addrToRegionId base).toNat < 64 → Q (decide (OwnedBy s.data e base)) s)
    (hF : ¬ (addrToRegionId base).toNat < 64 → F .regionIndex) : (ownsTable e base).wp Q R F s := by
  obtain ⟨hiff, hid⟩ := intRegionId_eq hb rfl
  simp only [ownsTable, wp_bind, wp_ite, wp_getLocked, wp_call, wp_pure, wp_fault]
  refine ⟨fun hi => ?_, fun hi => hF fun hr => hi (hiff.mpr hr)⟩
  have hr := hiff.mp hi
  rw [hid hi.1 hi.2]
  have hdec : decide (OwnedBy s.data e base) =
      ((s.data.regions (toRegion (addrToRegionId base))).owner == e) := by
    rw [Bool.beq_eq_decide_eq]
    exact decide_eq_decide.mpr (and_iff_right hr)
  have hQ := hdec ▸ hQ hr
  refine ⟨fun _ => ?_, fun hfree => wp_regionOwner hr ?_ hQ⟩
  · simp only [regionOwnerLockFree, wp_bind, wp_ite, wp_ret, Bool.not_eq_true',
      isValidRegionId_eq_false, not_not]
    exact ⟨fun hn => absurd hr hn, fun _ => hQ⟩
  · exact Bool.eq_false_iff.mpr fun hl => hfree (hs _ hl)

end

/-- The entry on level `l` of the walk from `t` becomes `v`. -/
def storeEntry (d : Data N) (va : Word) (l n : ℕ) (t v : Word) : Data N :=
  { d with mem := d.mem.store64 (Sv39.entryAddr (Sv39.tableAt d.mem va l n t) va l) v }

/-- How `load_page_table_entry` ends when it returns. -/
def EntryEnds (s : CallState N) (e p va acl : Word) (l n : ℕ) (t : Word) (r : ApiResult)
    (s' : CallState N) : Prop :=
  r = .ok ∧ Reaches s.data e va l n t ∧ s' = { s with data := storeEntry s.data va l n t (mkPte p acl) } ∨
    r ≠ .ok ∧ ¬ Reaches s.data e va l n t ∧ s' = s

/-- When it faults: a table lies outside RAM. -/
def EntryFaults (s : CallState N) (e va : Word) (l n : ℕ) (t : Word) : Prop :=
  ¬ Reaches s.data e va l n t ∧
    ∃ t' ∈ Sv39.tables s.data.mem va l n t, ¬ (addrToRegionId t').toNat < 64

/-- The loop, from a table that the enclave owns. -/
theorem loadPageTableEntryFrom_walk {E : Empty → CallState N → Prop} (hs : OwnLocks s) :
    ∀ (n : ℕ) (t : Word), OwnedBy s.data e t →
      (loadPageTableEntryFrom e p va l acl (l + n) t).wp E (EntryEnds s e p va acl l n t)
        (fun _ => EntryFaults s e va l n t) s
  | 0, t, ht => by
    rw [loadPageTableEntryFrom]
    simp only [wp_bind, wp_ite, wp_ret, pteAddr_entryAddr]
    exact ⟨fun _ => .inl ⟨rfl, reaches_zero.mpr ht, rfl⟩, fun hn => absurd rfl hn⟩
  | n + 1, t, ht => by
    rw [loadPageTableEntryFrom]
    simp only [wp_bind, wp_ite, wp_ret, Bool.not_eq_true', pteAddr_entryAddr, pteTable_eq, badNode_iff]
    refine ⟨fun hn => absurd hn (by omega), fun _ => ⟨fun hbad => ?_, fun hptr => ?_⟩⟩
    · exact .inr ⟨by decide, fun h => hbad h.1.1, rfl⟩
    have hptr := not_not.mp hptr
    refine wp_ownsTable hs (by rw [← pteTable_eq]; exact pteTable_lt _) (fun hram => ?_) fun hram => ?_
    · refine ⟨fun hno => .inr ⟨by decide, fun h => ?_, rfl⟩, fun hyes => ?_⟩
      · exact of_decide_eq_false hno (reaches_succ.mp h).2.2.owned
      · have hown := of_decide_eq_true (Bool.not_eq_false _ ▸ hyes)
        refine wp_mono (loadPageTableEntryFrom_walk hs n _ hown) (fun _ _ h => h) ?_ ?_
        · rintro r s' (⟨hr, h, hs'⟩ | ⟨hr, h, hs'⟩)
          · exact .inl ⟨hr, reaches_succ.mpr ⟨ht, hptr, h⟩, hs'⟩
          · exact .inr ⟨hr, fun h' => h (reaches_succ.mp h').2.2, hs'⟩
        · rintro _ ⟨h, t', ht', hout⟩
          exact ⟨fun h' => h (reaches_succ.mp h').2.2, t', (Sv39.mem_tables_succ hptr).mpr (.inr ht'), hout⟩
    · refine ⟨fun h => hram (reaches_succ.mp h).2.2.owned.1, _, ?_, hram⟩
      exact (Sv39.mem_tables_succ hptr).mpr (.inr (Sv39.mem_tables_self _ _))

theorem loadPageTableEntry_walk {E : Empty → CallState N → Prop} (hs : OwnLocks s)
    (hroot : rootTable (s.data.enclave e).eptbr = root) (hl : level.toNat ≤ 2) :
    (loadPageTableEntry e p va level acl).wp E
      (EntryEnds s e p va acl level.toNat (2 - level.toNat) root)
      (fun _ => EntryFaults s e va level.toNat (2 - level.toNat) root) s := by
  have h3 : level ≠ 3 := by rintro rfl; exact absurd hl (by decide)
  simp only [loadPageTableEntry, wp_bind, wp_ite, wp_ret, Bool.not_eq_true']
  refine ⟨fun h => absurd h h3, fun _ => ?_⟩
  show (ownsTable e (rootTable (s.data.enclave e).eptbr)).wp _ _ _ _
  refine wp_ownsTable hs (rootTable_lt _) (fun hram => ?_) fun hram => ?_
  · refine ⟨fun hno => .inr ⟨by decide, fun h => of_decide_eq_false hno (hroot ▸ h.owned), rfl⟩, fun hyes => ?_⟩
    have hown := of_decide_eq_true (Bool.not_eq_false _ ▸ hyes)
    have hwalk : (loadPageTableEntryFrom e p va level.toNat acl (level.toNat + (2 - level.toNat)) root).wp E
        (EntryEnds s e p va acl level.toNat (2 - level.toNat) root)
        (fun _ => EntryFaults s e va level.toNat (2 - level.toNat) root) s :=
      loadPageTableEntryFrom_walk hs (2 - level.toNat) _ (hroot ▸ hown)
    rw [show level.toNat + (2 - level.toNat) = 2 by omega] at hwalk
    show (loadPageTableEntryFrom e p va level.toNat acl 2 (rootTable (s.data.enclave e).eptbr)).wp E _ _ s
    rwa [hroot]
  · exact ⟨fun h => hram (hroot ▸ h.owned.1), root, Sv39.mem_tables_self _ _, hroot ▸ hram⟩

/-! ## Agreement -/

/-- In the memory `m` the walk from `root` gets to an entry on level `l` that names the page
    `p` and has the flags of `acl`. -/
def MapsAt (m : Mem) (root va : Word) (l : ℕ) (p acl : Word) : Prop :=
  Sv39.Pointers m va l (2 - l) root ∧
    Sv39.pageOf (Sv39.entry m va l (Sv39.tableAt m va l (2 - l) root)) = p ∧
    Sv39.flags (Sv39.entry m va l (Sv39.tableAt m va l (2 - l) root)) = acl.toNat % 2 ^ 10

/-- The enclave's `eptbr` names its root table in the way a load on level 3 sets it. -/
structure HasRoot (d : Data N) (e root : Word) : Prop where
  eptbr : (d.enclave e).eptbr = (root >>> pageShift) ||| satpModeSv39
  aligned : root.toNat % pageSize = 0
  lt : root.toNat < 2 ^ 56

/-- The data after the entry is stored: one slot of memory has changed, the enclave still has
    its root, and the walk finds the entry. -/
structure EntryStored (d : Data N) (e p va acl : Word) (l : ℕ) (root : Word) (d' : Data N) : Prop where
  slot : ∃ a, ∀ x ∉ range a 8, d'.mem x = d.mem x
  rest : d' = { d with mem := d'.mem }
  hasRoot : HasRoot d' e root
  maps : MapsAt d'.mem root va l p acl

theorem Reaches.stored (h : Reaches d e va l (2 - l) root) (he : ValidMetadata d e .enclave)
    (hm : MetadataOwned d) (hroot : HasRoot d e root) (hp : p.toNat % pageSize = 0)
    (hp' : p.toNat < 2 ^ 56) (hd : (Sv39.tables d.mem va l (2 - l) root).Nodup) :
    EntryStored d e p va acl l root (storeEntry d va l (2 - l) root (mkPte p acl)) := by
  have hown := h.2 _ h.1.tableAt_mem
  obtain ⟨hptr, hat, hentry⟩ := h.1.store (v := mkPte p acl) hroot.aligned hd
  refine ⟨⟨_, fun x hx => Mem.fill_apply_of_notMem hx⟩, rfl, ⟨?_, hroot.aligned, hroot.lt⟩, hptr, ?_, ?_⟩
  · -- the table is not the enclave's metadata
    have hsep := he.toMetadataPageAt.headerSep hm
    have hsame : (storeEntry d va l (2 - l) root (mkPte p acl)).enclave e = d.enclave e :=
      enclaveMetadata_fill fun x hx hr => hsep x hx
        (hown.of_mem (Sv39.tableAt_aligned hroot.aligned) (Sv39.entryAddr_range _ _ _ hr))
    rw [hsame, hroot.eptbr]
  · rw [storeEntry, hat, hentry, mkPte_page hp hp']
  · rw [storeEntry, hat, hentry, mkPte_flags]

/-- On level 0 the walk ends at the entry. -/
theorem MapsAt.walk {m : Mem} (h : MapsAt m root va 0 p acl) : ∃ pte, Sv39.walk m va 2 root = (0, pte) ∧
    Sv39.pageOf pte = p ∧ Sv39.flags pte = acl.toNat % 2 ^ 10 :=
  ⟨_, h.1.walk_eq, h.2⟩

/-- **`load_page_table_entry` agrees with the Sv39 walk.**  It succeeds exactly if the walk
    gets to the level over tables that the enclave owns; then it stores one entry, and the
    walk finds it.  Otherwise it changes nothing, and it faults only if a table lies outside
    RAM. -/
theorem loadPageTableEntry_sv39 (he : ValidMetadata s.data e .enclave) (hm : MetadataOwned s.data)
    (hroot : HasRoot s.data e root) (hp : p.toNat % pageSize = 0) (hp' : p.toNat < 2 ^ 56)
    (hl : level.toNat ≤ 2) (hs : OwnLocks s)
    (hd : (Sv39.tables s.data.mem va level.toNat (2 - level.toNat) root).Nodup) :
    ((∃ s', (loadPageTableEntry e p va level acl).run s = .ret .ok s') ↔
      Reaches s.data e va level.toNat (2 - level.toNat) root) ∧
    (∀ s', (loadPageTableEntry e p va level acl).run s = .ret .ok s' →
      EntryStored s.data e p va acl level.toNat root s'.data ∧
      (level = 0 → ∃ pte, Sv39.walk s'.data.mem va 2 (Sv39.rootOf (s'.data.enclave e).eptbr) = (0, pte) ∧
        Sv39.pageOf pte = p ∧ Sv39.flags pte = acl.toNat % 2 ^ 10)) ∧
    (∀ r s', (loadPageTableEntry e p va level acl).run s = .ret r s' → r ≠ .ok → s' = s) ∧
    ∀ f, (loadPageTableEntry e p va level acl).run s = .fault f →
      ∃ t ∈ Sv39.tables s.data.mem va level.toNat (2 - level.toNat) root,
        ¬ (addrToRegionId t).toNat < 64 := by
  have hrootTable : rootTable (s.data.enclave e).eptbr = root := by
    rw [rootTable_eq, hroot.eptbr, rootOf_eptbr hroot.aligned hroot.lt]
  have hwalk : (loadPageTableEntry e p va level acl).wp (fun _ _ => False)
      (EntryEnds s e p va acl level.toNat (2 - level.toNat) root)
      (fun _ => EntryFaults s e va level.toNat (2 - level.toNat) root) s :=
    loadPageTableEntry_walk hs hrootTable hl
  have hret {r : ApiResult} {s' : CallState N}
      (hrun : (loadPageTableEntry e p va level acl).run s = .ret r s') := of_wp_ret hwalk hrun
  refine ⟨⟨fun ⟨s', hrun⟩ => ?_, fun h => ?_⟩, fun s' hrun => ?_, fun r s' hrun hr => ?_, fun f hrun => ?_⟩
  · rcases hret hrun with ⟨-, h, -⟩ | ⟨hr, -⟩
    · exact h
    · exact absurd rfl hr
  · cases hrun : (loadPageTableEntry e p va level acl).run s with
    | next a _ => exact a.elim
    | ret r s' =>
      rcases hret hrun with ⟨rfl, -⟩ | ⟨-, hno, -⟩
      · exact ⟨s', rfl⟩
      · exact absurd h hno
    | fault f =>
      unfold Prog.wp at hwalk
      rw [hrun] at hwalk
      exact absurd h hwalk.1
  · rcases hret hrun with ⟨-, h, rfl⟩ | ⟨hr, -⟩
    · have hstored : EntryStored s.data e p va acl level.toNat root _ := h.stored he hm hroot hp hp' hd
      refine ⟨hstored, ?_⟩
      rintro rfl
      rw [hstored.hasRoot.eptbr, rootOf_eptbr hroot.aligned hroot.lt]
      exact hstored.maps.walk
    · exact absurd rfl hr
  · rcases hret hrun with ⟨hok, -⟩ | ⟨-, -, hs'⟩
    · exact absurd hok hr
    · exact hs'
  · unfold Prog.wp at hwalk
    rw [hrun] at hwalk
    exact hwalk.2

/-- The first enclave gets tables on all three levels for the virtual address
    `0x40000000`. -/
def mapLabels : List (Label 2) :=
  setupLabels ++ (buildLabels firstEnclave firstThread 0).take 4 ++
  [callOn 0 (.enclaveLoadPageTable firstEnclave 0x84004000 0x40000000 2 1),
    callOn 0 (.enclaveLoadPageTable firstEnclave 0x84005000 0x40000000 1 1)]

set_option maxRecDepth 100000 in
/-- The walk of `0x40000000` then ends at the page that is loaded for it. -/
theorem loadPageTableEntry_sv39_map : ∃ es s, ∃ s' : CallState 2, CarefulRun smallImage zeroBoot es s ∧
    (loadPageTableEntry firstEnclave 0x84006000 0x40000000 0 3).run s.start = .ret .ok s' ∧
    ∃ pte, Sv39.walk s'.data.mem 0x40000000 2 (Sv39.rootOf (s'.data.enclave firstEnclave).eptbr) = (0, pte) ∧
      Sv39.pageOf pte = 0x84006000 ∧ Sv39.flags pte = 3 := by
  obtain ⟨es, s, h, he, heptbr, hlocks, hptr, htables, hown⟩ :=
    (CarefulRun.exists_of_labels mapLabels (by decide +kernel) : ∃ es s, CarefulRun smallImage zeroBoot es s ∧
      ValidMetadata s.data firstEnclave .enclave ∧
      (s.data.enclave firstEnclave).eptbr = ((0x84003000 : Word) >>> pageShift) ||| satpModeSv39 ∧
      (∀ i, s.locks (.region i) = false) ∧
      (Sv39.IsPointer (Sv39.entry s.data.mem 0x40000000 2 0x84003000) ∧
        Sv39.IsPointer (Sv39.entry s.data.mem 0x40000000 1
          (Sv39.pageOf (Sv39.entry s.data.mem 0x40000000 2 0x84003000)))) ∧
      Sv39.tables s.data.mem 0x40000000 0 2 0x84003000 = [0x84003000, 0x84004000, 0x84005000] ∧
      OwnedBy s.data firstEnclave 0x84003000 ∧ OwnedBy s.data firstEnclave 0x84004000 ∧
      OwnedBy s.data firstEnclave 0x84005000)
  have hnodup : (Sv39.tables s.data.mem 0x40000000 0 2 0x84003000).Nodup := by
    rw [htables]
    decide
  obtain ⟨hiff, hok, -⟩ := @loadPageTableEntry_sv39 2 s.start firstEnclave 0x84006000 0x40000000 0 3
    0x84003000 he h.inv.regions.metadataOwned ⟨heptbr, by decide, by decide⟩ (by decide) (by decide)
    (by decide) (fun i hi => absurd ((hlocks i).symm.trans hi) (by decide)) hnodup
  have hreach : Reaches s.data firstEnclave 0x40000000 0 2 0x84003000 := by
    refine ⟨⟨hptr.1, hptr.2, trivial⟩, fun t ht => ?_⟩
    rw [htables] at ht
    simp only [List.mem_cons, List.not_mem_nil, or_false] at ht
    rcases ht with rfl | rfl | rfl
    exacts [hown.1, hown.2.1, hown.2.2]
  obtain ⟨s', hrun⟩ := hiff.mpr hreach
  exact ⟨es, s, s', h, hrun, (hok s' hrun).2 rfl⟩

end SecurityMonitor
