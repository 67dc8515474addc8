/-
  Copies between machine memory and user memory (clib/memcpy_virt.c).

  `memcpy_m2u` and `memcpy_u2m` copy words while both pointers are aligned and
  a whole word is left, then bytes.  They are one loop over two views of the
  memory: a machine address names its own byte, a user address the byte that the
  caller's translation gives.

  * `Progress`: what has been copied after `k` bytes; one iteration of either
    loop keeps it (`Progress.move`), and so do the loops (`exists_words`,
    `exists_bytes`);
  * the word loop's bound is `dest + len - 7` modulo `2 ^ 64`.  If it wraps to
    one of the last seven addresses no aligned pointer reaches it and the loop
    never ends (`words_eq_none`).  The byte loop's bound is `dest + len`, which
    is zero for a buffer at the end of the address space;
  * `user_copy_iff`: with the exception of these two cases the functions copy
    the buffer.
-/
import SecurityMonitor.Lib.Loop
import SecurityMonitor.Lib.Memory

namespace SecurityMonitor

open ByteMem

/-! ## The loops -/

/-- The local variables `d` and `s` with the memory; `reads` and `writes` record
    the addresses that have been accessed. -/
structure CopyState where
  mem : Mem
  d : Word
  s : Word
  reads : List Word
  writes : List Word

section
variable (dst src : Word → Word)

/-- One iteration of a loop: load `n` bytes at `s`, store them at `d`, and
    advance both pointers.  `dst` and `src` are the views of the two sides. -/
def CopyState.move (n : ℕ) (st : CopyState) : CopyState :=
  let tmp : ℕ → Byte := fun i => st.mem (src (off st.s i))
  { mem := (List.range n).foldl (fun m i => Function.update m (dst (off st.d i)) (tmp i)) st.mem
    d := off st.d n
    s := off st.s n
    reads := st.reads ++ (List.range n).map (off st.s)
    writes := st.writes ++ (List.range n).map (off st.d) }

/-- `((uintptr_t) dest | (uintptr_t) src) & (sizeof(uintptr_t)-1)) == 0` -/
def WordAligned (a b : Word) : Prop := (a ||| b) &&& 7 = 0

instance (a b : Word) : Decidable (WordAligned a b) := inferInstanceAs (Decidable (_ = _))

/-- `while (d < end) { ... }` over chunks of `n` bytes. -/
def copyLoop (n : ℕ) (bound : Word) (fuel : ℕ) (st : CopyState) : Option CopyState :=
  Loop.run (fun st => decide (st.d < bound)) (CopyState.move dst src n) fuel st

/-- The body of both copies, with the pointer that is returned and the state at
    the end.  It gives nothing if a loop is not finished after `fuel` tests. -/
def memcpyVirt (d s len : Word) (fuel : ℕ) (m : Mem) : Option (Word × CopyState) := do
  let st ← if WordAligned d s then copyLoop dst src 8 (d + len - 7) fuel ⟨m, d, s, [], []⟩
    else some ⟨m, d, s, [], []⟩
  let st ← copyLoop dst src 1 (d + len) fuel st
  pure (d, st)

end

/-- `memcpy_m2u(u_dest, m_src, len)`, where `tr` is the translation of the
    user's addresses. -/
def memcpyM2u (tr : Word → Word) (uDest mSrc len : Word) (fuel : ℕ) (m : Mem) :
    Option (Word × CopyState) :=
  memcpyVirt tr id uDest mSrc len fuel m

/-- `memcpy_u2m(m_dest, u_src, len)` -/
def memcpyU2m (tr : Word → Word) (mDest uSrc len : Word) (fuel : ℕ) (m : Mem) :
    Option (Word × CopyState) :=
  memcpyVirt id tr mDest uSrc len fuel m

/-! ## The byte-wise copy -/

section
variable (dst src : Word → Word) (d s : Word)

/-- Copying `len` bytes one by one. -/
def bytewise (len : ℕ) (m : Mem) : Mem :=
  (List.range len).foldl (fun m i => Function.update m (dst (off d i)) (m (src (off s i)))) m

/-- The effect of the byte-wise copy from the memory `m`.  A destination byte
    holds its source byte as soon as no other destination address names it. -/
structure Copied (len : ℕ) (m : Mem) (st : CopyState) : Prop where
  mem : st.mem = bytewise dst src d s len m
  copied : ∀ i < len, (∀ j < len, dst (off d j) = dst (off d i) → j = i) →
    st.mem (dst (off d i)) = m (src (off s i))
  frame : ∀ a, (∀ i < len, dst (off d i) ≠ a) → st.mem a = m a
  reads : ∀ a ∈ st.reads, a ∈ range s len
  writes : ∀ a ∈ st.writes, a ∈ range d len

/-- The buffers do not overlap. -/
def Apart (len : ℕ) : Prop := ∀ i < len, ∀ j < len, dst (off d i) ≠ src (off s j)

/-- The copy ends, returns its first argument and has copied the bytes. -/
def CopiesBytes (copy : Word → Word → Word → ℕ → Mem → Option (Word × CopyState)) (len : Word)
    (m : Mem) : Prop :=
  ∃ fuel st, copy d s len fuel m = some (d, st) ∧ Copied dst src d s len.toNat m st

/-- Neither bound wraps, or what a wrapped bound leaves out makes no difference. -/
structure BoundsHold (len : Word) (m : Mem) : Prop where
  low : ¬(WordAligned d s ∧ d = 0 ∧ len.toNat < 7)
  high : d.toNat + len.toNat = 2 ^ 64 → ¬WordAligned d s ∧ bytewise dst src d s len.toNat m = m

end

section
variable {dst src : Word → Word} {d s len : Word} {m : Mem} {st st' : CopyState} {k n : ℕ}

section
variable {ι : Type} {κ : ι → Word} {v : ι → Byte}

theorem foldl_update_of_ne {a : Word} : ∀ (l : List ι) {m : Mem}, (∀ i ∈ l, κ i ≠ a) →
    l.foldl (fun m i => Function.update m (κ i) (v i)) m a = m a
  | [], _, _ => rfl
  | i :: l, m, h => by
    rw [List.foldl_cons, foldl_update_of_ne l fun j hj => h j (List.mem_cons_of_mem i hj),
      Function.update_of_ne (h i List.mem_cons_self).symm]

theorem foldl_update_of_mem {i : ι} : ∀ (l : List ι) {m : Mem}, i ∈ l → (∀ j ∈ l, κ j = κ i → j = i) →
    l.foldl (fun m i => Function.update m (κ i) (v i)) m (κ i) = v i
  | [], _, hi, _ => absurd hi List.not_mem_nil
  | j :: l, m, hi, h => by
    rw [List.foldl_cons]
    by_cases hl : i ∈ l
    · exact foldl_update_of_mem l hl fun j' hj' => h j' (List.mem_cons_of_mem j hj')
    · obtain rfl : i = j := (List.mem_cons.1 hi).resolve_right hl
      rw [foldl_update_of_ne l fun j hj e => hl (h j (List.mem_cons_of_mem i hj) e ▸ hj),
        Function.update_self]

end

/-- The source does not change under the copy, so that all its bytes can be
    read from the first memory. -/
theorem Apart.bytewise_eq (hA : Apart dst src d s n) : ∀ {k : ℕ}, k ≤ n →
    bytewise dst src d s k m =
      (List.range k).foldl (fun m' i => Function.update m' (dst (off d i)) (m (src (off s i)))) m
  | 0, _ => rfl
  | k + 1, hk => by
    have hsrc : bytewise dst src d s k m (src (off s k)) = m (src (off s k)) := by
      rw [hA.bytewise_eq (Nat.le_of_succ_le hk)]
      exact foldl_update_of_ne _ fun i hi =>
        hA i (by have := List.mem_range.1 hi; omega) k (by omega)
    have hsucc : bytewise dst src d s (k + 1) m = Function.update (bytewise dst src d s k m)
        (dst (off d k)) (bytewise dst src d s k m (src (off s k))) := by
      simp only [bytewise, List.range_succ, List.foldl_append, List.foldl_cons, List.foldl_nil]
    rw [hsucc, hsrc, hA.bytewise_eq (Nat.le_of_succ_le hk), List.range_succ, List.foldl_append,
      List.foldl_cons, List.foldl_nil]

theorem Apart.bytewise_src (hA : Apart dst src d s n) (hk : k ≤ n) {j : ℕ} (hj : j < n) :
    bytewise dst src d s k m (src (off s j)) = m (src (off s j)) := by
  rw [hA.bytewise_eq hk]
  exact foldl_update_of_ne _ fun i hi => hA i (by have := List.mem_range.1 hi; omega) j hj

/-- What the byte-wise copy does to each byte. -/
theorem Apart.copied (hA : Apart dst src d s n) (hmem : st.mem = bytewise dst src d s n m)
    (hreads : ∀ a ∈ st.reads, a ∈ range s n) (hwrites : ∀ a ∈ st.writes, a ∈ range d n) :
    Copied dst src d s n m st := by
  refine ⟨hmem, fun i hi hdist => ?_, fun a ha => ?_, hreads, hwrites⟩
  · rw [hmem, hA.bytewise_eq le_rfl]
    exact foldl_update_of_mem (κ := fun i => dst (off d i)) _ (List.mem_range.2 hi) fun j hj e =>
      hdist j (List.mem_range.1 hj) e
  · rw [hmem, hA.bytewise_eq le_rfl]
    exact foldl_update_of_ne _ fun i hi => ha i (List.mem_range.1 hi)

/-- The state of the copy from `m` when `k` bytes have been copied. -/
structure Progress (dst src : Word → Word) (d s : Word) (m : Mem) (k : ℕ) (st : CopyState) : Prop where
  mem : st.mem = bytewise dst src d s k m
  dest : st.d = off d k
  source : st.s = off s k
  reads : ∀ a ∈ st.reads, a ∈ range s k
  writes : ∀ a ∈ st.writes, a ∈ range d k

theorem Progress.zero : Progress dst src d s m 0 ⟨m, d, s, [], []⟩ where
  mem := rfl
  dest := (off_zero d).symm
  source := (off_zero s).symm
  reads _ ha := absurd ha List.not_mem_nil
  writes _ ha := absurd ha List.not_mem_nil

theorem mem_range_append {l : List Word} {a x : Word} (hl : ∀ y ∈ l, y ∈ range a k) (hk : k + n ≤ 2 ^ 64)
    (hx : x ∈ l ++ (List.range n).map (off (off a k))) : x ∈ range a (k + n) := by
  rcases List.mem_append.1 hx with hx | hx
  · exact range_subset_of_le (Nat.le_add_right k n) (hl x hx)
  · obtain ⟨j, hj, rfl⟩ := List.mem_map.1 hx
    rw [off_off]
    exact mem_range_off (Nat.add_lt_add_left (List.mem_range.1 hj) k) hk

/-- **One iteration copies the next `n` bytes.** -/
theorem Progress.move (h : Progress dst src d s m k st) (hle : k + n ≤ len.toNat)
    (hA : Apart dst src d s len.toNat) :
    Progress dst src d s m (k + n) (st.move dst src n) := by
  have hlen := len.isLt
  refine ⟨?_, ?_, ?_, fun a ha => ?_, fun a ha => ?_⟩
  · rw [hA.bytewise_eq hle, List.range_add, List.foldl_append, List.foldl_map,
      ← hA.bytewise_eq (m := m) (by omega)]
    simp only [CopyState.move, h.mem, h.dest, h.source, off_off]
    -- the loaded bytes are those of the first memory
    refine List.foldl_ext _ _ _ fun m' i hi => ?_
    rw [hA.bytewise_src (by omega) (by have := List.mem_range.1 hi; omega)]
  · rw [CopyState.move, h.dest, off_off]
  · rw [CopyState.move, h.source, off_off]
  · rw [CopyState.move, h.source] at ha
    exact mem_range_append h.reads (by omega) ha
  · rw [CopyState.move, h.dest] at ha
    exact mem_range_append h.writes (by omega) ha

/-! ## Loops that end -/

/-- **A loop below its bound.**  If the test says that `n` more bytes are to be
    copied, the loop ends with a part of the buffer copied and the test false. -/
theorem exists_copyLoop {bound : Word} (hn : 0 < n) (hd : d.toNat + len.toNat < 2 ^ 64)
    (hA : Apart dst src d s len.toNat)
    (htest : ∀ k ≤ len.toNat, off d k < bound → k + n ≤ len.toNat)
    (hk : k ≤ len.toNat) (h : Progress dst src d s m k st) :
    ∃ fuel st' k', copyLoop dst src n bound fuel st = some st' ∧ k' ≤ len.toNat ∧
      Progress dst src d s m k' st' ∧ ¬off d k' < bound := by
  obtain ⟨fuel, st', hrun, ⟨k', hk', h'⟩, hend⟩ :=
    Loop.exists_run (c := fun st => decide (st.d < bound)) (b := CopyState.move dst src n)
      (I := fun st => ∃ k ≤ len.toNat, Progress dst src d s m k st) (fun st => 2 ^ 64 - st.d.toNat)
      (fun st ⟨k, hk, h⟩ hc => by
        have hle := htest k hk (h.dest ▸ of_decide_eq_true hc)
        have h' := h.move hle hA
        refine ⟨⟨k + n, hle, h'⟩, ?_⟩
        rw [h.dest, h'.dest, off_toNat_of_lt (by omega), off_toNat_of_lt (by omega)]
        omega)
      ⟨k, hk, h⟩
  exact ⟨fuel, st', k', hrun, hk', h', h'.dest ▸ of_decide_eq_false hend⟩

theorem exists_words (hd : d.toNat + len.toNat < 2 ^ 64) (h7 : 7 ≤ d.toNat + len.toNat)
    (hA : Apart dst src d s len.toNat) :
    ∃ fuel st k, copyLoop dst src 8 (d + len - 7) fuel ⟨m, d, s, [], []⟩ = some st ∧ k ≤ len.toNat ∧
      Progress dst src d s m k st := by
  have hbound : (d + len - 7).toNat = d.toNat + len.toNat - 7 := by
    rw [BitVec.toNat_sub_of_le, BitVec.toNat_add, Nat.mod_eq_of_lt hd]
    · rfl
    · rw [BitVec.le_def, BitVec.toNat_add, Nat.mod_eq_of_lt hd]
      exact h7
  have htest : ∀ k ≤ len.toNat, off d k < d + len - 7 → k + 8 ≤ len.toNat := fun k hk hlt => by
    rw [BitVec.lt_def, hbound, off_toNat_of_lt (by omega)] at hlt
    omega
  obtain ⟨fuel, st, k, hrun, hk, h, -⟩ :=
    exists_copyLoop (by decide) hd hA htest (Nat.zero_le _) Progress.zero
  exact ⟨fuel, st, k, hrun, hk, h⟩

theorem exists_bytes (hd : d.toNat + len.toNat < 2 ^ 64) (hA : Apart dst src d s len.toNat)
    (hk : k ≤ len.toNat) (h : Progress dst src d s m k st) :
    ∃ fuel st', copyLoop dst src 1 (d + len) fuel st = some st' ∧ Copied dst src d s len.toNat m st' := by
  have hbound : (d + len).toNat = d.toNat + len.toNat := by
    rw [BitVec.toNat_add, Nat.mod_eq_of_lt hd]
  have htest : ∀ k ≤ len.toNat, off d k < d + len ↔ k < len.toNat := fun k hk => by
    rw [BitVec.lt_def, hbound, off_toNat_of_lt (by omega)]
    omega
  obtain ⟨fuel, st', k', hrun, hk', h', hend⟩ :=
    exists_copyLoop Nat.one_pos hd hA (fun k hk hlt => (htest k hk).1 hlt) hk h
  obtain rfl : k' = len.toNat := le_antisymm hk' (by have := mt (htest k' hk').2 hend; omega)
  exact ⟨fuel, st', hrun, hA.copied h'.mem h'.reads h'.writes⟩

/-! ## Bounds that wrap -/

theorem WordAligned.mod_eight (h : WordAligned d s) : d.toNat % 8 = 0 := by
  have h : (d ||| s) &&& 7 = 0 := h
  have hd : d &&& 7 = 0 := by
    rw [BitVec.and_or_distrib_right] at h
    exact (BitVec.or_eq_zero_iff.1 h).1
  have : (d &&& 7).toNat = d.toNat % 8 := by
    rw [BitVec.toNat_and]
    exact Nat.and_two_pow_sub_one_eq_mod d.toNat 3
  rw [← this, hd]
  rfl

/-- **No aligned pointer reaches the last seven addresses.** -/
theorem words_eq_none {bound : Word} (hb : 2 ^ 64 - 7 ≤ bound.toNat) (fuel : ℕ)
    (h : st.d.toNat % 8 = 0) : copyLoop dst src 8 bound fuel st = none := by
  refine Loop.run_eq_none (I := fun st => st.d.toNat % 8 = 0) (fun st h => ⟨?_, ?_⟩) fuel h
  · have := st.d.isLt
    exact decide_eq_true (BitVec.lt_def.2 (by omega))
  · show (off st.d 8).toNat % 8 = 0
    rw [off_toNat]
    omega

theorem not_copiesBytes {bound : Word} (hb : 2 ^ 64 - 7 ≤ bound.toNat) (hbound : d + len - 7 = bound)
    (ha : WordAligned d s) : ¬CopiesBytes dst src d s (memcpyVirt dst src) len m := by
  rintro ⟨fuel, st, hcopy, -⟩
  rw [memcpyVirt, if_pos ha, hbound, words_eq_none hb fuel ha.mod_eight] at hcopy
  cases hcopy

theorem BoundsHold.of_copies (hc : CopiesBytes dst src d s (memcpyVirt dst src) len m) :
    BoundsHold dst src d s len m := by
  refine ⟨fun ⟨ha, h0, hlen⟩ => ?_, fun htop => ?_⟩
  · refine not_copiesBytes ?_ rfl ha hc
    rw [h0, show (0 : Word) + len = len from BitVec.zero_add len, BitVec.toNat_sub]
    have h7 : (7 : Word).toNat = 7 := rfl
    omega
  · have hend : d + len = 0 := BitVec.eq_of_toNat_eq (by rw [BitVec.toNat_add, htop]; rfl)
    have ha : ¬WordAligned d s := fun ha =>
      not_copiesBytes (show 2 ^ 64 - 7 ≤ (0 - 7 : Word).toNat by decide) (by rw [hend]) ha hc
    obtain ⟨fuel, st, hcopy, hC⟩ := hc
    rw [memcpyVirt, if_neg ha, hend] at hcopy
    cases fuel with
    | zero => cases hcopy
    | succ fuel =>
      obtain rfl : (⟨m, d, s, [], []⟩ : CopyState) = st := congrArg Prod.snd (Option.some.inj hcopy)
      exact ⟨ha, hC.mem.symm⟩

/-! ## The copies -/

theorem BoundsHold.copies (hd : d.toNat + len.toNat ≤ 2 ^ 64) (hA : Apart dst src d s len.toNat)
    (hB : BoundsHold dst src d s len m) : CopiesBytes dst src d s (memcpyVirt dst src) len m := by
  rcases Nat.lt_or_ge (d.toNat + len.toNat) (2 ^ 64) with hlt | hge
  · by_cases ha : WordAligned d s
    · have h7 : 7 ≤ d.toNat + len.toNat := by
        by_contra h
        have h8 := ha.mod_eight
        exact hB.low ⟨ha, BitVec.eq_of_toNat_eq (show d.toNat = 0 by omega), by omega⟩
      obtain ⟨n₁, st₁, k, hwords, hk, h⟩ := exists_words (m := m) hlt h7 hA
      obtain ⟨n₂, st₂, hbytes, hC⟩ := exists_bytes hlt hA hk h
      refine ⟨max n₁ n₂, st₂, ?_, hC⟩
      have hwords' := Loop.run_mono hwords (le_max_left n₁ n₂)
      have hbytes' := Loop.run_mono hbytes (le_max_right n₁ n₂)
      simp only [memcpyVirt, if_pos ha, copyLoop, hwords', hbytes', Option.bind_eq_bind, Option.bind_some,
        pure]
    · obtain ⟨fuel, st', hbytes, hC⟩ := exists_bytes hlt hA (Nat.zero_le _) (Progress.zero (m := m))
      refine ⟨fuel, st', ?_, hC⟩
      simp only [memcpyVirt, if_neg ha, hbytes, Option.bind_eq_bind, Option.bind_some, pure]
  · have htop : d.toNat + len.toNat = 2 ^ 64 := by omega
    have hend : d + len = 0 := BitVec.eq_of_toNat_eq (by rw [BitVec.toNat_add, htop]; rfl)
    obtain ⟨ha, heq⟩ := hB.high htop
    -- the bound is zero, the loop leaves the memory as it is
    refine ⟨1, ⟨m, d, s, [], []⟩, ?_, hA.copied heq.symm (fun a ha => absurd ha List.not_mem_nil)
      fun a ha => absurd ha List.not_mem_nil⟩
    rw [memcpyVirt, if_neg ha, hend]
    rfl

end

/-- **User copies.**  For buffers that do not wrap or overlap, each of the two
    functions ends and has the effect of the byte-wise copy if and only if its
    bounds hold. -/
theorem user_copy_iff (tr : Word → Word) {d s len : Word} (m : Mem)
    (hd : d.toNat + len.toNat ≤ 2 ^ 64) :
    (Apart tr id d s len.toNat →
      (CopiesBytes tr id d s (memcpyM2u tr) len m ↔ BoundsHold tr id d s len m)) ∧
    (Apart id tr d s len.toNat →
      (CopiesBytes id tr d s (memcpyU2m tr) len m ↔ BoundsHold id tr d s len m)) :=
  ⟨fun hA => ⟨.of_copies, BoundsHold.copies hd hA⟩, fun hA => ⟨.of_copies, BoundsHold.copies hd hA⟩⟩

/-- An address space whose page at zero is mapped. -/
def lowPages (a : Word) : Word := a + 0x90000000

/-- Two words to the user's address zero. -/
theorem user_copy_two_words :
    Apart lowPages id 0 0x80000000 16 ∧
      CopiesBytes lowPages id 0 0x80000000 (memcpyM2u lowPages) 16 (BitVec.setWidth 8) := by
  have hA : Apart lowPages id 0 0x80000000 16 := by
    unfold Apart
    decide +kernel
  exact ⟨hA, ((user_copy_iff lowPages _ (by decide)).1 hA).2 ⟨by decide, by decide⟩⟩

/-- Four bytes to the user's address zero: the word loop's bound is
    `2 ^ 64 - 3`, and the copy never ends. -/
theorem user_copy_fails :
    (0 : Word).toNat + (4 : Word).toNat ≤ 2 ^ 64 ∧ (0x80000000 : Word).toNat + (4 : Word).toNat ≤ 2 ^ 64 ∧
      Apart lowPages id 0 0x80000000 4 ∧
      (∀ fuel m, memcpyM2u lowPages 0 0x80000000 4 fuel m = none) ∧
      ∀ m, ¬CopiesBytes lowPages id 0 0x80000000 (memcpyM2u lowPages) 4 m := by
  have ha : WordAligned 0 0x80000000 := by decide
  have hnone : ∀ fuel m, memcpyM2u lowPages 0 0x80000000 4 fuel m = none := fun fuel m => by
    rw [memcpyM2u, memcpyVirt, if_pos ha, words_eq_none (by decide) fuel ha.mod_eight]
    rfl
  refine ⟨by decide, by decide, ?_, hnone, fun m ⟨fuel, st, hcopy, _⟩ => ?_⟩
  · unfold Apart
    decide +kernel
  · rw [hnone] at hcopy
    cases hcopy

end SecurityMonitor
