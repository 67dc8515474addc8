/-
  The identity page tables of the untrusted software (scripts/idpt.py).

  The script writes a root table of 512 entries and, after it, 1024 entries for
  the megapages of the memory.  The two root entries for the memory point to
  the pages that follow the root, by a running counter.

  * `gigaLoop_eq`: the counter, and the root entries in closed form;
  * `Placed.entry`: what the hardware loads from the file;
  * `identity_map`: from the root, the walk of every address below `2 ^ 38` ends
    at a leaf that maps the address to itself.
-/
import SecurityMonitor.PageTables

namespace SecurityMonitor

open ByteMem

/-! ## The script -/

namespace Idpt

def leafPermissions : ℕ := 0b11101111
def nodePermissions : ℕ := 0b00000001
def sizePte : ℕ := 8
def pgshift : ℕ := 12
def ptePpnShift : ℕ := 10
def gigaPageSize : ℕ := 0x40000000
def megaPageSize : ℕ := 0x200000
def kiloPageSize : ℕ := 0x1000
def numberGigaPages : ℕ := 512
def megaPageStart : ℕ := 0x080000000
def megaPageEnd : ℕ := 0x100000000
def numberMegaPages : ℕ := (megaPageEnd - megaPageStart) / megaPageSize
def sizePageTable : ℕ := (numberMegaPages + numberGigaPages) * sizePte

def pte (addr permissions : ℕ) : ℕ := ((addr >>> pgshift) <<< ptePpnShift) ||| permissions

/-- One iteration of the first loop, on `next_page` and the entries written so far. -/
def gigaStep (st : ℕ × List ℕ) (i : ℕ) : ℕ × List ℕ :=
  if megaPageStart ≤ i * gigaPageSize ∧ i * gigaPageSize < megaPageEnd then
    (st.1 + kiloPageSize, st.2 ++ [pte st.1 nodePermissions])
  else (st.1, st.2 ++ [pte (i * gigaPageSize) leafPermissions])

/-- The first loop, of `n` iterations. -/
def gigaLoop (start n : ℕ) : ℕ × List ℕ := (List.range n).foldl gigaStep (start + kiloPageSize, [])

/-- The second loop. -/
def megaEntries : List ℕ :=
  (List.range numberMegaPages).map fun i => pte (megaPageStart + i * megaPageSize) leafPermissions

/-- `struct.pack('<Q', pte)` -/
def pack (pte : ℕ) : Option (List Byte) :=
  if pte < 2 ^ 64 then some ((List.range sizePte).map (Mem.leByte pte)) else none

/-- The file that the script writes for `IDPT_BASE`, if it does not raise an error. -/
def idpt (start : ℕ) : Option (List Byte) :=
  if start + sizePageTable > megaPageEnd ∨ start < megaPageStart then none
  else do
    let packed ← ((gigaLoop start numberGigaPages).2 ++ megaEntries).mapM pack
    pure packed.flatten

/-! ## The entries -/

/-- An entry of the root table in closed form. -/
def gigaEntry (start i : ℕ) : ℕ :=
  if i = 2 ∨ i = 3 then pte (start + kiloPageSize * (i - 1)) nodePermissions
  else pte (i * gigaPageSize) leafPermissions

/-- **The first loop.**  Before iteration `n` it has written a node for each of 2 and 3
    that is below `n`. -/
theorem gigaLoop_eq (start n : ℕ) :
    gigaLoop start n =
      (start + kiloPageSize * (1 + (min n 4 - 2)), (List.range n).map (gigaEntry start)) := by
  induction n with
  | zero => rfl
  | succ n ih =>
    rw [gigaLoop, List.range_succ, List.foldl_append, ← gigaLoop, ih, List.foldl_cons, List.foldl_nil, gigaStep,
      List.map_append, List.map_singleton, gigaEntry]
    by_cases hn : n = 2 ∨ n = 3
    · have hcount : min (n + 1) 4 - 2 = min n 4 - 2 + 1 := by omega
      have hnode : 1 + (min n 4 - 2) = n - 1 := by omega
      rw [if_pos hn, if_pos (by unfold megaPageStart megaPageEnd gigaPageSize; omega), hcount, hnode,
        show 1 + (min n 4 - 2 + 1) = n - 1 + 1 by omega, Nat.mul_succ, ← Nat.add_assoc]
    · have hcount : min (n + 1) 4 - 2 = min n 4 - 2 := by omega
      rw [if_neg hn, if_neg (by unfold megaPageStart megaPageEnd gigaPageSize; omega), hcount]

/-- The entries of the file. -/
def entries (start : ℕ) : List ℕ := (List.range numberGigaPages).map (gigaEntry start) ++ megaEntries

theorem pte_lt {addr f : ℕ} (ha : addr < 2 ^ 56) (hf : f < 2 ^ 10) : pte addr f < 2 ^ 64 := by
  rw [pte, ptePpnShift, pgshift, ← Nat.shiftLeft_add_eq_or_of_lt hf, Nat.shiftLeft_eq, Nat.shiftRight_eq_div_pow]
  omega

theorem entries_lt {start : ℕ} (hs : start < 2 ^ 32) : ∀ p ∈ entries start, p < 2 ^ 64 := by
  intro p hp
  rcases List.mem_append.1 hp with hp | hp
  · obtain ⟨i, hi, rfl⟩ := List.mem_map.1 hp
    have hi : i < 512 := List.mem_range.1 hi
    rw [gigaEntry]
    split_ifs with h
    · exact pte_lt (by unfold kiloPageSize; omega) (by decide)
    · exact pte_lt (by unfold gigaPageSize; omega) (by decide)
  · obtain ⟨i, hi, rfl⟩ := List.mem_map.1 hp
    have hi : i < 1024 := List.mem_range.1 hi
    exact pte_lt (by unfold megaPageStart megaPageSize; omega) (by decide)

theorem mapM_pack : ∀ {l : List ℕ}, (∀ p ∈ l, p < 2 ^ 64) →
    l.mapM pack = some (l.map fun p => (List.range sizePte).map (Mem.leByte p))
  | [], _ => rfl
  | p :: l, h => by
    rw [List.mapM_cons, pack, if_pos (h p List.mem_cons_self),
      mapM_pack fun q hq => h q (List.mem_cons_of_mem p hq)]
    rfl

/-- The file, for a base that the script accepts. -/
theorem idpt_eq {start : ℕ} (h : megaPageStart ≤ start) (h' : start + sizePageTable ≤ megaPageEnd) :
    idpt start = some ((entries start).flatMap fun p => (List.range sizePte).map (Mem.leByte p)) := by
  have hs : start < 2 ^ 32 := lt_of_lt_of_le (Nat.lt_add_of_pos_right (by decide)) h'
  rw [idpt, if_neg (by omega), gigaLoop_eq, ← entries, mapM_pack (entries_lt hs), List.flatMap]
  rfl

theorem accepts_of_idpt {start : ℕ} {bytes : List Byte} (h : idpt start = some bytes) :
    megaPageStart ≤ start ∧ start + sizePageTable ≤ megaPageEnd := by
  by_contra hn
  rw [idpt, if_pos (by omega)] at h
  cases h

theorem length_packed (l : List ℕ) :
    (l.flatMap fun p => (List.range sizePte).map (Mem.leByte p)).length = l.length * sizePte := by
  induction l with
  | nil => rfl
  | cons p l ih =>
    rw [List.flatMap_cons, List.length_append, ih, List.length_map, List.length_range, List.length_cons,
      Nat.succ_mul, Nat.add_comm]

theorem length_idpt {start : ℕ} {bytes : List Byte} (h : idpt start = some bytes) :
    bytes.length = sizePageTable := by
  obtain ⟨hlow, hhigh⟩ := accepts_of_idpt h
  obtain rfl := Option.some.inj ((idpt_eq hlow hhigh).symm.trans h)
  rw [length_packed, entries, List.length_append, List.length_map, List.length_range, megaEntries,
    List.length_map, List.length_range, sizePageTable, Nat.add_comm numberGigaPages]

/-! ## The tables in memory -/

/-- The bytes stand in the memory from `base` on. -/
def Placed (m : Mem) (base : Word) (bytes : List Byte) : Prop :=
  ∀ k b, bytes[k]? = some b → m (off base k) = b

theorem getElem?_packed {v i : ℕ} (hi : i < sizePte) : ∀ {l : List ℕ} {j : ℕ}, l[j]? = some v →
    (l.flatMap fun p => (List.range sizePte).map (Mem.leByte p))[sizePte * j + i]? = some (Mem.leByte v i)
  | [], _, h => by simp at h
  | p :: l, 0, h => by
    obtain rfl : p = v := by simpa using h
    rw [List.flatMap_cons, Nat.mul_zero, Nat.zero_add, List.getElem?_append_left (by simpa using hi),
      List.getElem?_map, List.getElem?_range hi]
    rfl
  | p :: l, j + 1, h => by
    rw [List.getElem?_cons_succ] at h
    rw [List.flatMap_cons, List.getElem?_append_right (by rw [Nat.mul_succ]; simp; omega), List.length_map,
      List.length_range, show sizePte * (j + 1) + i - sizePte = sizePte * j + i by rw [Nat.mul_succ]; omega]
    exact getElem?_packed hi h

section
variable {m : Mem} {start : ℕ} {bytes : List Byte} {va : Word}

/-- An entry of the file, as the hardware loads it. -/
theorem Placed.load64 {base : Word} (hm : Placed m base bytes) (h : idpt start = some bytes) {j v : ℕ}
    (hv : (entries start)[j]? = some v) : m.load64 (off base (8 * j)) = BitVec.ofNat 64 v := by
  obtain ⟨hlow, hhigh⟩ := accepts_of_idpt h
  obtain rfl := Option.some.inj ((idpt_eq hlow hhigh).symm.trans h)
  rw [Mem.load64, Mem.loadNat_fill_leByte m v 8 _ 0 (by decide) fun i hi => ?_, pow_zero, Nat.div_one]
  · exact BitVec.eq_of_toNat_eq (by rw [BitVec.toNat_ofNat, BitVec.toNat_ofNat]; omega)
  · rw [off_off, Nat.zero_add]
    exact hm _ _ (getElem?_packed hi hv)

theorem entries_giga {i : ℕ} (hi : i < numberGigaPages) : (entries start)[i]? = some (gigaEntry start i) := by
  rw [entries, List.getElem?_append_left (by simpa using hi), List.getElem?_map, List.getElem?_range hi]
  rfl

theorem entries_mega {i : ℕ} (hi : i < numberMegaPages) :
    (entries start)[512 + i]? = some (pte (megaPageStart + i * megaPageSize) leafPermissions) := by
  rw [entries, List.getElem?_append_right (by simp [numberGigaPages]), megaEntries, List.getElem?_map,
    List.length_map, List.length_range, show 512 + i - numberGigaPages = i from Nat.add_sub_cancel_left ..,
    List.getElem?_range hi]
  rfl

theorem vpn_lt (va : Word) (i : ℕ) : Sv39.vpn va i < 512 := Nat.mod_lt _ (by decide)

theorem ppn_leaf {addr : ℕ} (ha : addr < 2 ^ 56) :
    Sv39.ppn (BitVec.ofNat 64 (pte addr leafPermissions)) = addr / 2 ^ 12 := by
  rw [pte, ptePpnShift, pgshift, Nat.shiftRight_eq_div_pow, Sv39.ppn_entry (by omega) (by decide)]

theorem flags_leaf {addr : ℕ} (ha : addr < 2 ^ 56) :
    Sv39.flags (BitVec.ofNat 64 (pte addr leafPermissions)) = leafPermissions := by
  rw [pte, ptePpnShift, pgshift, Nat.shiftRight_eq_div_pow, Sv39.flags_entry (by omega) (by decide)]

theorem not_isPointer_leaf {addr : ℕ} (ha : addr < 2 ^ 56) :
    ¬Sv39.IsPointer (BitVec.ofNat 64 (pte addr leafPermissions)) := by
  rw [Sv39.isPointer_iff, flags_leaf ha]
  decide

/-- **The walk from the root**, in the indices of the address. -/
theorem walk_eq (halign : start % 4096 = 0) (h : idpt start = some bytes)
    (hm : Placed m (BitVec.ofNat 64 start) bytes) :
    Sv39.walk m va 2 (BitVec.ofNat 64 start) =
      if Sv39.vpn va 2 = 2 ∨ Sv39.vpn va 2 = 3 then
        (1, BitVec.ofNat 64 (pte ((512 * Sv39.vpn va 2 + Sv39.vpn va 1) * megaPageSize) leafPermissions))
      else (2, BitVec.ofNat 64 (pte (Sv39.vpn va 2 * gigaPageSize) leafPermissions)) := by
  have hi := vpn_lt va 2
  have hj := vpn_lt va 1
  have hs : start < 2 ^ 32 := lt_of_lt_of_le (Nat.lt_add_of_pos_right (by decide)) (accepts_of_idpt h).2
  have hroot : Sv39.entry m va 2 (BitVec.ofNat 64 start) = BitVec.ofNat 64 (gigaEntry start (Sv39.vpn va 2)) :=
    hm.load64 h (entries_giga hi)
  generalize hi' : Sv39.vpn va 2 = i at hi hroot ⊢
  by_cases hnode : i = 2 ∨ i = 3
  · rw [gigaEntry, if_pos hnode] at hroot
    rw [if_pos hnode]
    -- the page of the node, in the numbers of the file
    have hpage : (start + kiloPageSize * (i - 1)) >>> pgshift * 4096 = start + 4096 * (i - 1) := by
      rw [Nat.shiftRight_eq_div_pow, kiloPageSize, pgshift]
      omega
    have hp : (start + kiloPageSize * (i - 1)) >>> pgshift < 2 ^ 44 := by omega
    have hpointer : Sv39.IsPointer (Sv39.entry m va 2 (BitVec.ofNat 64 start)) := by
      rw [hroot, Sv39.isPointer_iff, pte, ptePpnShift, Sv39.flags_entry hp (by decide)]
      rfl
    have htable : Sv39.pageOf (Sv39.entry m va 2 (BitVec.ofNat 64 start)) =
        off (BitVec.ofNat 64 start) (4096 * (i - 1)) := by
      rw [hroot, Sv39.pageOf, pte, ptePpnShift, Sv39.ppn_entry hp (by decide), hpage, off, BitVec.ofNat_add]
    have hmega : megaPageStart + (512 * (i - 2) + Sv39.vpn va 1) * megaPageSize =
        (512 * i + Sv39.vpn va 1) * megaPageSize := by
      rw [megaPageStart, megaPageSize]
      omega
    have hleaf : Sv39.entry m va 1 (off (BitVec.ofNat 64 start) (4096 * (i - 1))) =
        BitVec.ofNat 64 (pte ((512 * i + Sv39.vpn va 1) * megaPageSize) leafPermissions) := by
      rw [Sv39.entry, Sv39.entryAddr, off_off,
        show 4096 * (i - 1) + 8 * Sv39.vpn va 1 = 8 * (512 + (512 * (i - 2) + Sv39.vpn va 1)) by omega,
        hm.load64 h (entries_mega (show 512 * (i - 2) + Sv39.vpn va 1 < 1024 by omega)), hmega]
    rw [Sv39.walk_succ_of_pointer hpointer, htable, Sv39.walk_succ_of_leaf, hleaf]
    rw [hleaf]
    exact not_isPointer_leaf (by unfold megaPageSize; omega)
  · rw [gigaEntry, if_neg hnode] at hroot
    rw [if_neg hnode, Sv39.walk_succ_of_leaf, hroot]
    rw [hroot]
    exact not_isPointer_leaf (by unfold gigaPageSize; omega)

/-- The walk ends on level `l`, at an aligned leaf that maps the address to itself. -/
structure MapsToSelf (va : Word) (l : ℕ) (r : ℕ × Word) : Prop where
  level : r.1 = l
  flags : Sv39.flags r.2 = leafPermissions
  aligned : Sv39.Aligned r.2 l
  physAddr : Sv39.physAddr r.2 va l = va.toNat

section
variable {l n : ℕ}

theorem ppn_leaf_mul (h : n * 2 ^ (12 + 9 * l) < 2 ^ 56) :
    Sv39.ppn (BitVec.ofNat 64 (pte (n * 2 ^ (12 + 9 * l)) leafPermissions)) = n * 2 ^ (9 * l) := by
  rw [ppn_leaf h, pow_add, Nat.mul_left_comm, Nat.mul_div_cancel_left _ (by decide)]

theorem aligned_leaf (h : n * 2 ^ (12 + 9 * l) < 2 ^ 56) :
    Sv39.Aligned (BitVec.ofNat 64 (pte (n * 2 ^ (12 + 9 * l)) leafPermissions)) l := by
  rw [Sv39.Aligned, ppn_leaf_mul h, Nat.mul_mod_left]

/-- A leaf of level `l` for the page that holds the address. -/
theorem mapsToSelf_leaf (h : n * 2 ^ (12 + 9 * l) < 2 ^ 56) (hn : n = va.toNat / 2 ^ (12 + 9 * l)) :
    MapsToSelf va l (l, BitVec.ofNat 64 (pte (n * 2 ^ (12 + 9 * l)) leafPermissions)) := by
  refine ⟨rfl, flags_leaf h, aligned_leaf h, ?_⟩
  rw [Sv39.physAddr, ppn_leaf_mul h, Nat.mul_div_cancel _ (Nat.two_pow_pos _), hn, Nat.div_add_mod']

end

/-- `satp` as `platform_initialize_memory_protection` sets it. -/
def idptSatp (base : Word) : Word := (base >>> pageShift) ||| satpModeSv39

/-- **The identity map.**  With the file of an aligned base at its place, every address
    below `2 ^ 38` is mapped to itself, by a megapage in the memory and by a
    gigapage elsewhere; all leaves are aligned. -/
theorem identity_map (halign : start % 4096 = 0) (h : idpt start = some bytes)
    (hm : Placed m (BitVec.ofNat 64 start) bytes) :
    let root := Sv39.rootOf (idptSatp (BitVec.ofNat 64 start))
    root = BitVec.ofNat 64 start ∧
      (∀ va : Word, va.toNat < 2 ^ 38 → MapsToSelf va
        (if megaPageStart ≤ va.toNat ∧ va.toNat < megaPageEnd then 1 else 2) (Sv39.walk m va 2 root)) ∧
      ∀ va : Word, Sv39.Aligned (Sv39.walk m va 2 root).2 (Sv39.walk m va 2 root).1 := by
  intro root
  have hs : start < 2 ^ 32 := lt_of_lt_of_le (Nat.lt_add_of_pos_right (by decide)) (accepts_of_idpt h).2
  have hstart : (BitVec.ofNat 64 start).toNat = start := by
    rw [BitVec.toNat_ofNat, Nat.mod_eq_of_lt (by omega)]
  have hpage : (BitVec.ofNat 64 start).toNat % pageSize = 0 := by
    rw [hstart, pageSize]
    exact halign
  have hroot : root = BitVec.ofNat 64 start := rootOf_eptbr hpage (by rw [hstart]; omega)
  have hmega : megaPageSize = 2 ^ (12 + 9 * 1) := by decide
  have hgiga : gigaPageSize = 2 ^ (12 + 9 * 2) := by decide
  refine ⟨hroot, fun va hva => ?_, fun va => ?_⟩
  · have h2 : Sv39.vpn va 2 = va.toNat / 2 ^ (12 + 9 * 2) := Nat.mod_eq_of_lt (by omega)
    have h1 : 512 * Sv39.vpn va 2 + Sv39.vpn va 1 = va.toNat / 2 ^ (12 + 9 * 1) := by
      rw [h2, Sv39.vpn]
      omega
    have hnode : (Sv39.vpn va 2 = 2 ∨ Sv39.vpn va 2 = 3) ↔
        (megaPageStart ≤ va.toNat ∧ va.toNat < megaPageEnd) := by
      rw [h2, megaPageStart, megaPageEnd]
      omega
    rw [hroot, walk_eq halign h hm, hmega, hgiga]
    simp only [hnode]
    split_ifs
    · exact mapsToSelf_leaf (by omega) h1
    · exact mapsToSelf_leaf (by omega) h2
  · have hi := vpn_lt va 2
    have hj := vpn_lt va 1
    rw [hroot, walk_eq halign h hm, hmega, hgiga]
    split_ifs
    · exact aligned_leaf (by omega)
    · exact aligned_leaf (by omega)

end

theorem exists_placed (base : Word) {bytes : List Byte} (h : bytes.length ≤ 2 ^ 64) :
    ∃ m, Placed m base bytes := by
  refine ⟨fun a => bytes.getD (a - base).toNat 0, fun k b hk => ?_⟩
  have hlt : k < bytes.length := (List.getElem?_eq_some_iff.1 hk).1
  show bytes.getD (off base k - base).toNat 0 = b
  rw [off_sub_self base (by omega), List.getD_eq_getElem?_getD, hk]
  rfl

/-- `IDPT_BASE` of platform/parameters.h -/
theorem identity_map_parameters : ∃ m bytes, idpt 0x8D000000 = some bytes ∧
    Placed m (BitVec.ofNat 64 0x8D000000) bytes ∧
    MapsToSelf 0x80200000 1 (Sv39.walk m 0x80200000 2 (BitVec.ofNat 64 0x8D000000)) := by
  obtain ⟨bytes, hidpt⟩ : ∃ bytes, idpt 0x8D000000 = some bytes := ⟨_, idpt_eq (by decide) (by decide)⟩
  obtain ⟨m, hm⟩ := exists_placed (BitVec.ofNat 64 0x8D000000) (by rw [length_idpt hidpt]; decide)
  obtain ⟨hroot, hself, -⟩ := identity_map (by decide) hidpt hm
  rw [hroot] at hself
  exact ⟨m, bytes, hidpt, hm, hself 0x80200000 (by decide)⟩

end Idpt

end SecurityMonitor
