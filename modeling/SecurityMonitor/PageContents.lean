/-
  The contents of a page while other cores run (`src/api/enclave_load_page.c`,
  `src/clib/memcpy.c`).

  `enclave_load_page` reads the page of untrusted software twice: `memcpy` copies it
  to the enclave, and then `hash_extend` reads it again.  The lock of its region does
  not stop the stores of other cores.  Here the end of the call is a machine of single
  accesses, with such stores between any two of them.

  * `measured_contents_iff`: the bytes that are hashed are those of the enclave's page
    exactly if every byte had the same value when it was hashed as when it was copied;
  * `finishLoadPage_eq`: without stores the machine does what the call does in one
    step of the system;
  * `measured_contents_fails`: a store between the two loops.
-/
import SecurityMonitor.Loading
import SecurityMonitor.UserCopy

namespace SecurityMonitor

open ByteMem

variable {N : ℕ} {img : Image N} {d : Data N} {e p v o acl : Word} {m m' : Mem}

/-! ## The machine -/

/-- Where the call is. -/
inductive LoadPc where
  /-- in `memcpy`, with its pointers `d` and `s` -/
  | copy (d s : Word)
  /-- in `hash_extend` of the page, with the bytes that it has read -/
  | hash (read : List Byte)

structure LoadState where
  mem : Mem
  pc : LoadPc

/-- The number of bytes that `memcpy(p, o, PAGE_SIZE)` copies next, with `d` where it is.  The
    bytes come after the words, because `d` only grows. -/
def copySize (p o d : Word) : ℕ :=
  if WordAligned p o ∧ d < p + BitVec.ofNat 64 pageSize - 7 then 8
  else if d < p + BitVec.ofNat 64 pageSize then 1
  else 0

/-- The next access of the call: `none` if all bytes have been hashed. -/
def LoadState.access (p o : Word) (st : LoadState) : Option LoadState :=
  match st.pc with
  | .copy d s =>
    let n := copySize p o d
    if n = 0 then some ⟨st.mem, .hash []⟩ else some ⟨st.mem.copy d s n, .copy (off d n) (off s n)⟩
  | .hash read =>
    if read.length < pageSize then some ⟨st.mem, .hash (read ++ [st.mem (off o read.length)])⟩ else none

inductive LoadEvent where
  /-- the next access of the call -/
  | access
  /-- a store by another core -/
  | store (a : Word) (b : Byte)
  deriving DecidableEq

/-- Other cores have no access to the page at `p`, which belongs to an enclave that is not
    initialised. -/
def LoadStep (p o : Word) (st : LoadState) : LoadEvent → LoadState → Prop
  | .access, st' => st.access p o = some st'
  | .store a b, st' => a ∉ range p pageSize ∧ st' = { st with mem := st.mem.store8 a b }

/-- With this access byte `i` of the page is copied. -/
def CopiesByte (p o : Word) (i : ℕ) (x : LoadState × LoadEvent) : Prop :=
  x.2 = .access ∧ ∃ d s, x.1.pc = .copy d s ∧ off p i ∈ range d (copySize p o d)

/-- With this access byte `i` of the page is hashed. -/
def HashesByte (i : ℕ) (x : LoadState × LoadEvent) : Prop :=
  x.2 = .access ∧ ∃ read, x.1.pc = .hash read ∧ read.length = i

/-! ## Pages -/

/-- The page at `a` ends before the end of memory. -/
structure PageAt (a : Word) : Prop where
  aligned : a.toNat % 4096 = 0
  fits : a.toNat + 4096 < 2 ^ 64

theorem OwnedBy.pageAt {x : Word} (h : OwnedBy d e x) (ha : x.toNat % pageSize = 0) : PageAt x :=
  ⟨ha, (h.page_lt ha).trans_lt (by decide)⟩

theorem PageAt.wordAligned (hp : PageAt p) (ho : PageAt o) : WordAligned p o := by
  have hmod (a : Word) (ha : PageAt a) : a.toNat &&& 7 = 0 := by
    rw [show 7 = 2 ^ 3 - 1 from rfl, Nat.and_two_pow_sub_one_eq_mod]
    have := ha.aligned
    omega
  refine BitVec.eq_of_toNat_eq ?_
  rw [BitVec.toNat_and, BitVec.toNat_or]
  show (p.toNat ||| o.toNat) &&& 7 = 0
  rw [Nat.and_or_distrib_right, hmod p hp, hmod o ho]
  rfl

/-- `memcpy` of a page copies words. -/
theorem PageAt.copySize (hp : PageAt p) (ho : PageAt o) {j : ℕ} (hj : j ≤ 512) :
    copySize p o (off p (8 * j)) = if j < 512 then 8 else 0 := by
  have hfits := hp.fits
  have hd : (off p (8 * j)).toNat = p.toNat + 8 * j := off_toNat_of_lt (by omega)
  have hend : (p + BitVec.ofNat 64 pageSize).toNat = p.toNat + 4096 := off_toNat_of_lt (by
    show p.toNat + 4096 < _
    omega)
  have hword : (p + BitVec.ofNat 64 pageSize - 7).toNat = p.toNat + 4089 := by
    rw [BitVec.toNat_sub, hend]
    show (2 ^ 64 - 7 + (p.toNat + 4096)) % 2 ^ 64 = _
    omega
  rw [SecurityMonitor.copySize]
  by_cases hlt : j < 512
  · rw [if_pos ⟨hp.wordAligned ho, BitVec.lt_def.mpr (by omega)⟩, if_pos hlt]
  · rw [if_neg fun h => absurd (BitVec.lt_def.mp h.2) (by omega),
      if_neg fun h => absurd (BitVec.lt_def.mp h) (by omega), if_neg hlt]

/-! ## What has been copied and hashed -/

section
variable {hist : List (LoadState × LoadEvent)} {st st' : LoadState} {ev : LoadEvent} {k : ℕ}
  {read : List Byte}

/-- The first `k` bytes have been copied, and `read` has been hashed: each with the value that the
    byte had at the time. -/
structure Loaded (p o : Word) (hist : List (LoadState × LoadEvent)) (m : Mem) (k : ℕ) (read : List Byte) :
    Prop where
  copies : ∀ i < k, ∃ x ∈ hist, CopiesByte p o i x
  copied : ∀ i < pageSize, ∀ x ∈ hist, CopiesByte p o i x → i < k ∧ m (off p i) = x.1.mem (off o i)
  hashes : ∀ i < read.length, ∃ y ∈ hist, HashesByte i y
  hashed : ∀ i, ∀ y ∈ hist, HashesByte i y → read[i]? = some (y.1.mem (off o i))

/-- The call is where it has copied `k` bytes and hashed `read`. -/
inductive AtPc (p o : Word) : LoadPc → ℕ → List Byte → Prop
  | copy {j : ℕ} (hj : j ≤ 512) : AtPc p o (.copy (off p (8 * j)) (off o (8 * j))) (8 * j) []
  | hash {read : List Byte} : AtPc p o (.hash read) pageSize read

/-- An event that neither copies nor hashes. -/
theorem Loaded.other {m' : Mem} (h : Loaded p o hist m k read)
    (hmem : ∀ i < pageSize, m' (off p i) = m (off p i)) (hc : ∀ i < pageSize, ¬ CopiesByte p o i (st, ev))
    (hh : ∀ i, ¬ HashesByte i (st, ev)) : Loaded p o (hist ++ [(st, ev)]) m' k read where
  copies i hi := by
    obtain ⟨x, hx, hcx⟩ := h.copies i hi
    exact ⟨x, List.mem_append_left _ hx, hcx⟩
  copied i hi x hx hcx := by
    rcases List.mem_append.mp hx with hx | hx
    · rw [hmem i hi]
      exact h.copied i hi x hx hcx
    · rw [List.mem_singleton.mp hx] at hcx
      exact absurd hcx (hc i hi)
  hashes i hi := by
    obtain ⟨y, hy, hhy⟩ := h.hashes i hi
    exact ⟨y, List.mem_append_left _ hy, hhy⟩
  hashed i y hy hhy := by
    rcases List.mem_append.mp hy with hy | hy
    · exact h.hashed i y hy hhy
    · rw [List.mem_singleton.mp hy] at hhy
      exact absurd hhy (hh i)

theorem not_copiesByte_hash {i : ℕ} (hpc : st.pc = .hash read) : ¬ CopiesByte p o i (st, ev) := by
  rintro ⟨-, d, s, hd, -⟩
  rw [hpc] at hd
  cases hd

theorem not_hashesByte_copy {d s : Word} {i : ℕ} (hpc : st.pc = .copy d s) : ¬ HashesByte i (st, ev) := by
  rintro ⟨-, read, hr, -⟩
  rw [hpc] at hr
  cases hr

/-- Where a byte of the page lies in a word of it. -/
theorem off_mem_word {i j : ℕ} (hi : i < pageSize) (hj : j ≤ 512) {n : ℕ} (hn : n ≤ 8) :
    off p i ∈ range (off p (8 * j)) n ↔ 8 * j ≤ i ∧ i < 8 * j + n := by
  have hi : i < 4096 := hi
  constructor
  · intro hmem
    by_contra hout
    have hsep : Sep (off p i) 1 (off p (8 * j)) n := sep_off (by omega) (by omega) (by omega)
    exact hsep _ (mem_range_self (by decide)) hmem
  · rintro ⟨hle, hlt⟩
    obtain ⟨k, rfl⟩ := Nat.exists_eq_add_of_le hle
    rw [← off_off]
    exact mem_range_off (by omega) (by omega)

/-- The copy of a word. -/
theorem Loaded.copy {j : ℕ} (hp : PageAt p) (ho : PageAt o) (hj : j < 512)
    (hpc : st.pc = .copy (off p (8 * j)) (off o (8 * j))) (h : Loaded p o hist st.mem (8 * j) []) :
    Loaded p o (hist ++ [(st, .access)]) (st.mem.copy (off p (8 * j)) (off o (8 * j)) 8) (8 * (j + 1)) [] := by
  have hsize : copySize p o (off p (8 * j)) = 8 := by rw [hp.copySize ho hj.le, if_pos hj]
  have hnew (i : ℕ) (hi : i < pageSize) : CopiesByte p o i (st, .access) ↔ 8 * j ≤ i ∧ i < 8 * j + 8 := by
    rw [← off_mem_word hi hj.le le_rfl]
    constructor
    · rintro ⟨-, d, s, hd, hmem⟩
      rw [hpc] at hd
      cases hd
      rwa [hsize] at hmem
    · exact fun hmem => ⟨rfl, _, _, hpc, by rwa [hsize]⟩
  refine ⟨fun i hi => ?_, fun i hi x hx hcx => ?_, fun i hi => absurd hi (by simp), fun i y hy hhy => ?_⟩
  · by_cases hold : i < 8 * j
    · obtain ⟨x, hx, hcx⟩ := h.copies i hold
      exact ⟨x, List.mem_append_left _ hx, hcx⟩
    · exact ⟨(st, .access), by simp, (hnew i (by show i < 4096; omega)).mpr (by omega)⟩
  · rcases List.mem_append.mp hx with hx | hx
    · obtain ⟨hik, heq⟩ := h.copied i hi x hx hcx
      refine ⟨by omega, ?_⟩
      rw [← heq]
      refine Mem.fill_apply_of_notMem fun hmem => ?_
      have := (off_mem_word hi hj.le le_rfl).mp hmem
      omega
    · rw [List.mem_singleton.mp hx] at hcx ⊢
      obtain ⟨hle, hlt⟩ := (hnew i hi).mp hcx
      refine ⟨by omega, ?_⟩
      obtain ⟨k, rfl⟩ := Nat.exists_eq_add_of_le hle
      show (st.mem.fill _ 8 fun i => st.mem (off (off o (8 * j)) i)) (off p (8 * j + k)) = _
      rw [← off_off p, Mem.fill_off (by omega) (by omega), off_off]
  · rcases List.mem_append.mp hy with hy | hy
    · exact h.hashed i y hy hhy
    · rw [List.mem_singleton.mp hy] at hhy
      exact absurd hhy (not_hashesByte_copy hpc)

/-- The hash of a byte. -/
theorem Loaded.hash (hpc : st.pc = .hash read) (h : Loaded p o hist st.mem k read) :
    Loaded p o (hist ++ [(st, .access)]) st.mem k (read ++ [st.mem (off o read.length)]) where
  copies i hi := by
    obtain ⟨x, hx, hcx⟩ := h.copies i hi
    exact ⟨x, List.mem_append_left _ hx, hcx⟩
  copied i hi x hx hcx := by
    rcases List.mem_append.mp hx with hx | hx
    · exact h.copied i hi x hx hcx
    · rw [List.mem_singleton.mp hx] at hcx
      exact absurd hcx (not_copiesByte_hash hpc)
  hashes i hi := by
    by_cases hold : i < read.length
    · obtain ⟨y, hy, hhy⟩ := h.hashes i hold
      exact ⟨y, List.mem_append_left _ hy, hhy⟩
    · rw [List.length_append, List.length_singleton] at hi
      exact ⟨(st, .access), by simp, rfl, read, hpc, by omega⟩
  hashed i y hy hhy := by
    rcases List.mem_append.mp hy with hy | hy
    · have hread := h.hashed i y hy hhy
      rw [List.getElem?_append_left (List.getElem?_eq_some_iff.mp hread).1]
      exact hread
    · rw [List.mem_singleton.mp hy] at hhy ⊢
      obtain ⟨-, read', hpc', rfl⟩ := hhy
      obtain rfl := LoadPc.hash.inj (hpc.symm.trans hpc')
      rw [List.getElem?_append_right le_rfl, Nat.sub_self]
      rfl

/-- **Each access and each store keeps the account.** -/
theorem Loaded.step (hp : PageAt p) (ho : PageAt o) (hat : AtPc p o st.pc k read)
    (h : Loaded p o hist st.mem k read) (hs : LoadStep p o st ev st') :
    ∃ k' read', AtPc p o st'.pc k' read' ∧ Loaded p o (hist ++ [(st, ev)]) st'.mem k' read' := by
  cases ev with
  | store a b =>
    obtain ⟨ha, rfl⟩ := hs
    have hmem (i : ℕ) (hi : i < pageSize) : st.mem.store8 a b (off p i) = st.mem (off p i) := by
      refine Mem.fill_apply_of_notMem fun hmem => ha ?_
      rw [← eq_of_mem_range_one hmem]
      exact mem_range_off hi (by decide)
    exact ⟨k, read, hat, h.other hmem (fun i _ hc => absurd hc.1 (by simp)) fun i hc => absurd hc.1 (by simp)⟩
  | access =>
    obtain ⟨m, pc⟩ := st
    cases hat with
    | @copy j hj =>
      simp only [LoadStep, LoadState.access, hp.copySize ho hj] at hs
      by_cases hlt : j < 512
      · rw [if_pos hlt, if_neg (by decide)] at hs
        cases hs
        refine ⟨_, [], ?_, h.copy hp ho hlt rfl⟩
        rw [off_off, off_off]
        exact .copy hlt
      · rw [if_neg hlt, if_pos rfl] at hs
        cases hs
        have hall : 8 * j = pageSize := by
          rw [pageSize]
          omega
        refine ⟨pageSize, [], .hash, (hall ▸ h).other (fun _ _ => rfl) (fun i hi hc => ?_)
          fun i => not_hashesByte_copy rfl⟩
        obtain ⟨-, d, s, hd, hmem⟩ := hc
        cases hd
        rw [hp.copySize ho hj, if_neg hlt] at hmem
        exact absurd hmem (Nat.not_lt_zero _)
    | hash =>
      simp only [LoadStep, LoadState.access] at hs
      split_ifs at hs
      cases hs
      exact ⟨pageSize, _, .hash, h.hash rfl⟩

theorem Loaded.run (hp : PageAt p) (ho : PageAt o)
    (hr : Runs (Traced (LoadStep p o)) ⟨m, .copy p o⟩ hist st) :
    ∃ k read, AtPc p o st.pc k read ∧ Loaded p o hist st.mem k read := by
  induction hr with
  | nil =>
    have hat : AtPc p o (.copy (off p (8 * 0)) (off o (8 * 0))) (8 * 0) [] := .copy (Nat.zero_le _)
    rw [Nat.mul_zero, off_zero, off_zero] at hat
    exact ⟨0, [], hat, by simp, by simp, by simp, by simp⟩
  | @snoc st st' hist x _ hs ih =>
    obtain ⟨st₀, ev⟩ := x
    obtain ⟨heq, hs⟩ := hs
    obtain rfl : st = st₀ := heq.symm
    obtain ⟨k, read, hat, h⟩ := ih
    exact h.step hp ho hat hs

end

/-! ## The bytes that are measured -/

section
variable {hist : List (LoadState × LoadEvent)} {bs : List Byte}

/-- **The measured contents are the loaded contents** if and only if every byte of the page of
    untrusted software has the same value when it is hashed as when it was copied. -/
theorem measured_contents_iff (hg : LoadPageGuard d e p v o acl)
    (hr : Runs (Traced (LoadStep p o)) ⟨m, .copy p o⟩ hist ⟨m', .hash bs⟩) (hlen : bs.length = pageSize) :
    bs = memBytes m' p pageSize ↔ ∀ i < pageSize, ∀ x ∈ hist, ∀ y ∈ hist, CopiesByte p o i x →
      HashesByte i y → x.1.mem (off o i) = y.1.mem (off o i) := by
  obtain ⟨k, read, hat, h⟩ := Loaded.run (hg.owned.pageAt hg.aligned) (hg.osOwned.pageAt hg.osAligned) hr
  cases hat
  constructor
  · intro heq i hi x hx y hy hcx hhy
    have hread := h.hashed i y hy hhy
    rw [heq, memBytes, List.getElem?_map, List.getElem?_range hi, Option.map_some] at hread
    exact (h.copied i hi x hx hcx).2.symm.trans (Option.some.inj hread)
  · intro hsame
    refine List.ext_getElem? fun i => ?_
    by_cases hi : i < pageSize
    · obtain ⟨x, hx, hcx⟩ := h.copies i hi
      obtain ⟨y, hy, hhy⟩ := h.hashes i (hlen ▸ hi)
      have hcopied : m' (off p i) = x.1.mem (off o i) := (h.copied i hi x hx hcx).2
      rw [h.hashed i y hy hhy, memBytes, List.getElem?_map, List.getElem?_range hi, Option.map_some,
        hcopied, hsame i hi x hx y hy hcx hhy]
    · rw [List.getElem?_eq_none (by omega), List.getElem?_eq_none (by simpa [memBytes] using hi)]

end

/-! ## Calls that are not interrupted -/

/-- A copy in two parts, if the first does not change the source of the second. -/
theorem copy_copy {a b : Word} {n k : ℕ} (hk : n + k ≤ 2 ^ 64) (hsep : Sep a n (off b n) k) :
    (m.copy a b n).copy (off a n) (off b n) k = m.copy a b (n + k) := by
  funext x
  by_cases hx : x ∈ range a (n + k)
  · obtain ⟨i, hi, rfl⟩ : ∃ i, i < n + k ∧ x = off a i := ⟨_, hx, (off_self_sub a x).symm⟩
    have hwhole : m.copy a b (n + k) (off a i) = m (off b i) := Mem.fill_off hi hk
    rw [hwhole]
    by_cases hin : i < n
    · have hout : off a i ∉ range (off a n) k := fun hmem =>
        sep_off (.inl (by omega)) (by omega) (by omega) _ (mem_range_self Nat.one_pos) hmem
      rw [Mem.copy, Mem.fill_apply_of_notMem hout]
      exact Mem.fill_off hin (by omega)
    · obtain ⟨j, rfl⟩ := Nat.exists_eq_add_of_le (not_lt.mp hin)
      rw [← off_off a, Mem.copy, Mem.fill_off (by omega) (by omega), ← off_off b]
      exact Mem.fill_apply_of_notMem fun hmem => hsep _ hmem (mem_range_off (by omega) (by omega))
  · have hfirst : x ∉ range a n := fun h => hx (range_subset_of_le (by omega) h)
    have hsecond : x ∉ range (off a n) k := fun h => hx (range_off_sub le_rfl hk h)
    rw [Mem.copy, Mem.fill_apply_of_notMem hsecond, Mem.copy, Mem.fill_apply_of_notMem hfirst, Mem.copy,
      Mem.fill_apply_of_notMem hx]

section
variable (hp : PageAt p) (ho : PageAt o)
include hp ho

theorem runs_copy (hsep : Sep p pageSize o pageSize) {j : ℕ} (hj : j ≤ 512) :
    Runs (LoadStep p o) ⟨m, .copy p o⟩ (List.replicate j .access)
      ⟨m.copy p o (8 * j), .copy (off p (8 * j)) (off o (8 * j))⟩ := by
  induction j with
  | zero =>
    have hnone : m.copy p o (8 * 0) = m := funext fun x => Mem.fill_apply_of_notMem (Nat.not_lt_zero _)
    rw [hnone, Nat.mul_zero, off_zero, off_zero]
    exact .nil _
  | succ j ih =>
    rw [List.replicate_succ']
    refine .snoc (ih (by omega)) ?_
    have hsub : Sep p (8 * j) (off o (8 * j)) 8 :=
      hsep.mono (range_subset_of_le (by show 8 * j ≤ 4096; omega)) (range_off_sub (by show _ ≤ 4096; omega) (by decide))
    have hsize : copySize p o (off p (8 * j)) = 8 := by rw [hp.copySize ho (by omega), if_pos (by omega)]
    simp only [LoadStep, LoadState.access, hsize]
    rw [if_neg (by decide), copy_copy (by omega) hsub, off_off, off_off, Nat.mul_succ]

/-- `memcpy` of the whole page. -/
theorem runs_memcpy (hsep : Sep p pageSize o pageSize) : Runs (LoadStep p o) ⟨m, .copy p o⟩
    (List.replicate 512 .access ++ [.access]) ⟨m.copy p o pageSize, .hash []⟩ := by
  refine .snoc (runs_copy hp ho hsep le_rfl) ?_
  simp only [LoadStep, LoadState.access, hp.copySize ho le_rfl]
  rw [if_neg (lt_irrefl 512), if_pos rfl]
  rfl

end

theorem runs_hash {n : ℕ} (hn : n ≤ pageSize) :
    Runs (LoadStep p o) ⟨m, .hash []⟩ (List.replicate n .access) ⟨m, .hash (memBytes m o n)⟩ := by
  induction n with
  | zero => exact .nil _
  | succ n ih =>
    rw [List.replicate_succ']
    refine .snoc (ih (by omega)) ?_
    have hlen : (memBytes m o n).length = n := by simp [memBytes]
    have hnext : memBytes m o (n + 1) = memBytes m o n ++ [m (off o n)] := by
      rw [memBytes, List.range_succ, List.map_append]
      rfl
    simp only [LoadStep, LoadState.access, hlen, hnext]
    exact if_pos (by omega)

/-- The two pages belong to different owners. -/
theorem LoadPageGuard.sep (hg : LoadPageGuard d e p v o acl) : Sep p pageSize o pageSize := fun _ hx hx' =>
  hg.os_not_owned hx' (hg.owned.of_mem hg.aligned hx)

/-- The whole call. -/
theorem runs_page (hg : LoadPageGuard d e p v o acl) (m : Mem) : Runs (LoadStep p o) ⟨m, .copy p o⟩
    (List.replicate (513 + pageSize) .access)
    ⟨m.copy p o pageSize, .hash (memBytes (m.copy p o pageSize) o pageSize)⟩ := by
  have hcopy := runs_memcpy (m := m) (hg.owned.pageAt hg.aligned) (hg.osOwned.pageAt hg.osAligned) hg.sep
  have hrun := hcopy.append (runs_hash le_rfl)
  rwa [← List.replicate_succ', List.replicate_append_replicate] at hrun

theorem memBytes_copy {n : ℕ} (hn : n ≤ 2 ^ 64) (hsep : Sep p n o n) :
    memBytes (m.copy p o n) o n = memBytes (m.copy p o n) p n := by
  refine List.map_congr_left fun i hi => ?_
  have hi : i < n := List.mem_range.mp hi
  have hcopied : m.copy p o n (off p i) = m (off o i) := Mem.fill_off hi hn
  rw [hcopied]
  exact Mem.fill_apply_of_notMem fun hmem => hsep _ hmem (mem_range_off hi hn)

/-- The memory when `memcpy` starts. -/
def loadPageStart (m : Mem) (e p : Word) : Mem :=
  Enclave.setInitState (Enclave.setLastPhysAddrLoaded m e (off p pageSize)) e enclaveStatePageDataLoaded

/-- The memory after the call, which has copied the page and read `bs` of it. -/
def loadPageEnd (m : Mem) (e v acl : Word) (bs : List Byte) : Mem :=
  hashExtend (hashExtend (hashExtend m e (wordBytes v)) e (wordBytes acl)) e bs

theorem finishLoadPage_end (hh : ∀ x ∈ range o pageSize, x ∉ header e) (m : Mem) :
    finishLoadPage m e p v o acl = loadPageEnd ((loadPageStart m e p).copy p o pageSize) e v acl
      (memBytes ((loadPageStart m e p).copy p o pageSize) o pageSize) := by
  rw [finishLoadPage, loadPageEnd]
  refine congrArg _ (memBytes_congr fun i hi => ?_)
  have hx := hh _ (mem_range_off hi (by decide))
  rw [hashExtend_apply hx, hashExtend_apply hx]
  rfl

/-- **Without stores** the machine leaves the memory and hashes the bytes of `finishLoadPage`. -/
theorem finishLoadPage_eq (hg : LoadPageGuard d e p v o acl) (hh : ∀ x ∈ range o pageSize, x ∉ header e)
    (m : Mem) : ∃ n mem bs, Runs (LoadStep p o) ⟨loadPageStart m e p, .copy p o⟩ (List.replicate n .access)
        ⟨mem, .hash bs⟩ ∧ bs.length = pageSize ∧ finishLoadPage m e p v o acl = loadPageEnd mem e v acl bs :=
  ⟨_, _, _, runs_page hg (loadPageStart m e p), by simp [memBytes], finishLoadPage_end hh m⟩

/-! ## A store between the loops -/

/-- Another core changes the first byte of the page after it was copied. -/
theorem runs_mismatch (hg : LoadPageGuard d e p v o acl) (m : Mem) : ∃ hist m' bs,
    Runs (Traced (LoadStep p o)) ⟨m, .copy p o⟩ hist ⟨m', .hash bs⟩ ∧ bs.length = pageSize ∧
      (∀ x ∈ hist, x.2 = .access ∨ ∃ b, x.2 = .store o b) ∧ bs ≠ memBytes m' p pageSize := by
  have hsep := hg.sep
  have hpos : 0 < pageSize := by decide
  have hcopy := runs_memcpy (m := m) (hg.owned.pageAt hg.aligned) (hg.osOwned.pageAt hg.osAligned) hsep
  have hstore : LoadStep p o ⟨m.copy p o pageSize, .hash []⟩ (.store o (m o + 1))
      ⟨(m.copy p o pageSize).store8 o (m o + 1), .hash []⟩ :=
    ⟨hsep.symm _ (mem_range_self (by decide)), rfl⟩
  obtain ⟨hist, hr, hev⟩ := ((hcopy.snoc hstore).append (runs_hash le_rfl)).traced
  refine ⟨hist, _, _, hr, by simp [memBytes], fun x hx => ?_, fun heq => ?_⟩
  · have hmem : x.2 ∈ hist.map Prod.snd := List.mem_map_of_mem hx
    rw [hev] at hmem
    simp only [List.mem_append, List.mem_replicate, List.mem_singleton] at hmem
    rcases hmem with ((⟨-, hx⟩ | hx) | hx) | ⟨-, hx⟩
    · exact .inl hx
    · exact .inl hx
    · exact .inr ⟨_, hx⟩
    · exact .inl hx
  · -- the first byte: hashed after the store, copied before it
    rw [memBytes, memBytes] at heq
    have hfirst := List.map_inj_left.mp heq 0 (List.mem_range.mpr hpos)
    have hhashed : (m.copy p o pageSize).store8 o (m o + 1) o = m o + 1 :=
      Mem.fill_apply_of_mem (mem_range_self Nat.one_pos)
    have hcopied : (m.copy p o pageSize).store8 o (m o + 1) p = m o := by
      have hne : p ∉ range o 1 := fun hmem =>
        hsep p (mem_range_self hpos) (range_subset_of_le hpos hmem)
      have hcopy : m.copy p o pageSize (off p 0) = m (off o 0) := Mem.fill_off hpos (by decide)
      rw [off_zero, off_zero] at hcopy
      rw [← hcopy]
      exact Mem.fill_apply_of_notMem hne
    simp only [off_zero, hhashed, hcopied] at hfirst
    exact absurd hfirst (by simp)

/-- The page that is loaded in `buildLabels`. -/
def loadLabel : Label 2 := callOn 0 (.enclaveLoadPage firstEnclave 0x84004000 0x1000 0x82000000 3)

set_option maxRecDepth 100000 in
/-- A state in which `enclave_load_page` succeeds on core 0, and core 1 can store to the page that
    is loaded. -/
theorem loadPage_ready : ∃ es s r s', CarefulRun smallImage zeroBoot es s ∧
    CarefulStep smallImage s (loadLabel, some r) s' ∧ r.value = 0 ∧ CanStore s 1 0x82000000 ∧
    LoadPageGuard s.data firstEnclave 0x84004000 0x1000 0x82000000 3 ∧
    ∃ d₁, EntryLoaded s.data firstEnclave 0x84004000 0x1000 0 3 d₁ := by
  obtain ⟨es, s, o, s', hr, hs, ho, hcan⟩ : ∃ es s o s', CarefulRun smallImage zeroBoot es s ∧
      CarefulStep smallImage s (loadLabel, o) s' ∧ o.map Reply.value = some 0 ∧ CanStore s 1 0x82000000 :=
    CarefulRun.exists_step_of_labels (setupLabels ++ (buildLabels firstEnclave firstThread 0).take 4) _
      (by decide +kernel)
  obtain ⟨r, rfl, hv⟩ := Option.map_eq_some_iff.mp ho
  obtain ⟨r', hr', -, hE⟩ := (step_call hs.1).reply
  obtain rfl := Option.some.inj hr'
  obtain ⟨hg, d₁, h₁, -⟩ := hE hv
  exact ⟨es, s, r, s', hr, hs, hv, hcan, hg, d₁, h₁⟩

/-- Without stores every byte keeps its value. -/
theorem measured_contents_iff_quiet : ∃ es s, CarefulRun smallImage zeroBoot es s ∧
    LoadPageGuard s.data firstEnclave 0x84004000 0x1000 0x82000000 3 ∧ ∃ hist m bs,
      Runs (Traced (LoadStep 0x84004000 0x82000000)) ⟨s.data.mem, .copy 0x84004000 0x82000000⟩ hist
        ⟨m, .hash bs⟩ ∧ bs.length = pageSize ∧
      ∀ i < pageSize, ∀ x ∈ hist, ∀ y ∈ hist, CopiesByte 0x84004000 0x82000000 i x → HashesByte i y →
        x.1.mem (off 0x82000000 i) = y.1.mem (off 0x82000000 i) := by
  obtain ⟨es, s, r, s', hr, -, -, -, hg, -⟩ := loadPage_ready
  obtain ⟨hist, hrun, -⟩ := (runs_page hg s.data.mem).traced
  have hlen : (memBytes (s.data.mem.copy 0x84004000 0x82000000 pageSize) 0x82000000 pageSize).length =
      pageSize := by simp [memBytes]
  exact ⟨es, s, hr, hg, hist, _, _, hrun, hlen,
    (measured_contents_iff hg hrun hlen).mp (memBytes_copy (by decide) hg.sep)⟩

/-- **A store between the copy and the hash.**  Core 1 stores to the page while core 0 loads it:
    what is hashed is not what the enclave gets. -/
theorem measured_contents_fails : ∃ es s r s', CarefulRun smallImage zeroBoot es s ∧
    CarefulStep smallImage s (loadLabel, some r) s' ∧ r.value = 0 ∧ CanStore s 1 0x82000000 ∧
    ∃ d₁, EntryLoaded s.data firstEnclave 0x84004000 0x1000 0 3 d₁ ∧ ∃ hist m bs,
      Runs (Traced (LoadStep 0x84004000 0x82000000))
        ⟨loadPageStart d₁.mem firstEnclave 0x84004000, .copy 0x84004000 0x82000000⟩ hist ⟨m, .hash bs⟩ ∧
      bs.length = pageSize ∧ (∀ x ∈ hist, x.2 = .access ∨ ∃ b, x.2 = .store 0x82000000 b) ∧
      bs ≠ memBytes m 0x84004000 pageSize := by
  obtain ⟨es, s, r, s', hr, hs, hv, hcan, hg, d₁, h₁⟩ := loadPage_ready
  exact ⟨es, s, r, s', hr, hs, hv, hcan, d₁, h₁, runs_mismatch hg _⟩

end SecurityMonitor
