/-
  The physical pages that the load calls of an enclave use.

  `enclave_load_handler`, `enclave_load_page_table` and `enclave_load_page` accept
  a physical address that is not below `last_phys_addr_loaded`, and each moves
  `last_phys_addr_loaded` in its own way.

  * `Load`: the addresses that a successful load call uses;
  * `LoadCall`: the three calls, with their checks and their effect;
  * `Loads`, `CarefulStep.loads_of`: what they have in common: they check
    `last_phys_addr_loaded`, and move it;
  * `LoadInv`: the loads of an enclave so far, kept by every step;
  * `LoadInv.before_iff`: their ranges are disjoint and increasing exactly if no
    load uses the page of the page table loaded right before it.

  `enclave_load_page_table` leaves `last_phys_addr_loaded` at the start of its
  page, and so the next call may use the same page.
-/
import SecurityMonitor.MemoryIsolation

namespace SecurityMonitor

open ByteMem

variable {N : ℕ} {img : Image N} {s s' : Config N} {d : Data N} {e p : Word} {ev : Event N}

/-! ## Loads -/

/-- A successful load call: where it loads, how many bytes, and whether it loads a page
    table. -/
structure Load where
  addr : Word
  size : ℕ
  table : Bool
  deriving DecidableEq

namespace Load

/-- `last_phys_addr_loaded` after the load. -/
def top (l : Load) : ℕ := if l.table then l.addr.toNat else l.addr.toNat + l.size

/-- The later load lies above the earlier one. -/
def Before (l l' : Load) : Prop :=
  l.addr < l'.addr ∧ Disjoint (range l.addr l.size) (range l'.addr l'.size)

/-- What the checks of the calls say about a load. -/
structure Ok (l : Load) : Prop where
  aligned : l.addr.toNat % pageSize = 0
  pos : 0 < l.size
  inside : l.addr.toNat + l.size ≤ 2 ^ 64
  page : l.table = true → l.size = pageSize

variable {l l' : Load}

theorem Ok.before_iff (h : l.Ok) (h' : l'.Ok) :
    l.Before l' ↔ l.addr.toNat + l.size ≤ l'.addr.toNat := by
  have hmem (x : Word) := mem_range_iff (x := x) h.inside
  have hmem' (x : Word) := mem_range_iff (x := x) h'.inside
  have hpos := h.pos
  have hpos' := h'.pos
  constructor
  · rintro ⟨hlt, hd⟩
    by_contra hle
    -- the later load would start inside the earlier one
    have hin : l'.addr ∈ range l.addr l.size :=
      (hmem _).mpr ⟨(BitVec.lt_def.mp hlt).le, by omega⟩
    exact Set.disjoint_left.mp hd hin (mem_range_self hpos')
  · intro hle
    refine ⟨BitVec.lt_def.mpr (by omega), Set.disjoint_left.mpr fun x hx hx' => ?_⟩
    have := (hmem x).mp hx
    have := (hmem' x).mp hx'
    omega

/-- A load that the checks accept after another one lies above it, unless it uses the page
    of a page table again. -/
theorem Ok.before_iff_ne (h : l.Ok) (h' : l'.Ok) (htop : l.top ≤ l'.addr.toNat) :
    l.addr.toNat + l.size ≤ l'.addr.toNat ↔ (l.table = true → l'.addr ≠ l.addr) := by
  have hpos := h.pos
  have ha := h.aligned
  have ha' := h'.aligned
  rw [top] at htop
  rcases Bool.eq_false_or_eq_true l.table with ht | ht
  · rw [ht, if_pos rfl] at htop
    have hsize := h.page ht
    simp only [pageSize] at hsize ha ha'
    refine ⟨fun hle _ heq => ?_, fun hne => ?_⟩
    · rw [heq] at hle
      omega
    · have hne : l'.addr.toNat ≠ l.addr.toNat := fun heq => hne ht (BitVec.eq_of_toNat_eq heq)
      omega
  · rw [ht] at htop ⊢
    exact ⟨fun _ h => absurd h (by decide), fun _ => htop⟩

end Load

/-! ## The loads of a run -/

/-- The load of the enclave at `e` that the event makes. -/
def loadOf (img : Image N) (e : Word) : Event N → Option Load
  | (.call _ (.enclaveLoadHandler f p) _, some r) =>
    if f = e ∧ r.value = 0 then some ⟨p, N * stackSize + img.enclaveHandler.length, false⟩ else none
  | (.call _ (.enclaveLoadPageTable f p _ _ _) _, some r) =>
    if f = e ∧ r.value = 0 then some ⟨p, pageSize, true⟩ else none
  | (.call _ (.enclaveLoadPage f p _ _ _) _, some r) =>
    if f = e ∧ r.value = 0 then some ⟨p, pageSize, false⟩ else none
  | _ => none

/-- The successful load calls of the enclave at `e`, with their checks and their effect. -/
inductive LoadCall (img : Image N) (s : Config N) (e : Word) : Event N → Config N → Load → Prop
  | handler {c : Fin N} {ctx : TrapContext} {r : Reply} {s' : Config N} {p : Word} (hv : r.value = 0)
      (hg : LoadHandlerGuard img s.data e p)
      (hd : s'.data = { s.data with mem := loadHandler img s.data.mem e p }) :
      LoadCall img s e (.call c (.enclaveLoadHandler e p) ctx, some r) s'
        ⟨p, N * stackSize + img.enclaveHandler.length, false⟩
  | table {c : Fin N} {ctx : TrapContext} {r : Reply} {s' : Config N} {d₁ : Data N} {p v lev acl : Word}
      (hv : r.value = 0) (hg : LoadPageTableGuard s.data e p v lev acl)
      (h₁ : EntryLoaded s.data e p v lev acl d₁)
      (hd : s'.data = { d₁ with mem := finishLoadPageTable d₁.mem e p v lev acl }) :
      LoadCall img s e (.call c (.enclaveLoadPageTable e p v lev acl) ctx, some r) s' ⟨p, pageSize, true⟩
  | page {c : Fin N} {ctx : TrapContext} {r : Reply} {s' : Config N} {d₁ : Data N} {p v os acl : Word}
      (hv : r.value = 0) (hg : LoadPageGuard s.data e p v os acl) (h₁ : EntryLoaded s.data e p v 0 acl d₁)
      (hd : s'.data = { d₁ with mem := finishLoadPage d₁.mem e p v os acl }) :
      LoadCall img s e (.call c (.enclaveLoadPage e p v os acl) ctx, some r) s' ⟨p, pageSize, false⟩

theorem Step.loadCall {l : Load} (hs : Step img s ev s') (hl : loadOf img e ev = some l) :
    LoadCall img s e ev s' l := by
  obtain ⟨lab, o⟩ := ev
  rcases lab with ⟨c, k, ctx⟩ | _ | _ | _ | _
  case call =>
    obtain ⟨r, rfl, -, hE⟩ := (step_call hs).reply
    cases k with
    | enclaveLoadHandler f p =>
      simp only [loadOf] at hl
      split_ifs at hl with hf
      obtain ⟨rfl, hv⟩ := hf
      cases hl
      exact .handler hv (hE hv).1 (hE hv).2
    | enclaveLoadPageTable f p v lev acl =>
      simp only [loadOf] at hl
      split_ifs at hl with hf
      obtain ⟨rfl, hv⟩ := hf
      cases hl
      obtain ⟨hg, d₁, h₁, hd⟩ := hE hv
      exact .table hv hg h₁ hd
    | enclaveLoadPage f p v os acl =>
      simp only [loadOf] at hl
      split_ifs at hl with hf
      obtain ⟨rfl, hv⟩ := hf
      cases hl
      obtain ⟨hg, d₁, h₁, hd⟩ := hE hv
      exact .page hv hg h₁ hd
    | _ => cases hl
  all_goals cases hl

/-- Loads are made before the enclave is initialised. -/
theorem LoadCall.building {l : Load} (h : LoadCall img s e ev s' l) : ValidMetadata s.data e .enclave ∧
    (s.data.enclave e).initState ≠ enclaveStateInitialized := by
  cases h with
  | handler _ hg => exact ⟨hg.enclave, by rw [hg.state]; decide⟩
  | table _ hg => exact ⟨hg.enclave, by rcases hg.state with hst | hst <;> rw [hst] <;> decide⟩
  | page _ hg => exact ⟨hg.enclave, by rcases hg.state with hst | hst <;> rw [hst] <;> decide⟩

/-- What a load does: the checks, and the new `last_phys_addr_loaded`. -/
structure Loads (s s' : Config N) (e : Word) (l : Load) : Prop where
  ok : l.Ok
  last : (s.data.enclave e).lastPhysAddrLoaded.toNat ≤ l.addr.toNat
  owned : ∀ x ∈ range l.addr l.size, OwnedBy s.data e x
  top : ValidMetadata s'.data e .enclave →
    (s'.data.enclave e).lastPhysAddrLoaded.toNat = l.top
  state : ValidMetadata s'.data e .enclave → (s'.data.enclave e).initState ≠ enclaveStateCreated ∧
    (l.table = true → (s'.data.enclave e).initState = enclaveStatePageTablesLoaded)

theorem OwnedBy.page_lt (h : OwnedBy d e p) (ha : p.toNat % pageSize = 0) :
    p.toNat + pageSize ≤ 2 ^ 32 := by
  have := (addrToRegionId_lt p).mp h.1
  simp only [pageSize] at *
  omega

/-- The handler and its stacks lie in one region. -/
theorem LoadHandlerGuard.inside (hg : LoadHandlerGuard img d e p) :
    p.toNat + (N * stackSize + img.enclaveHandler.length) < 2 ^ 64 := by
  have hp := (addrToRegionId_lt p).mp hg.owned.1
  have hlo := img.stack_lo
  have hhi := img.stack_hi
  have hle := img.handler_le
  simp only [smLen] at hhi hle
  omega

/-- The step of a load call. -/
theorem CarefulStep.loads_of {l : Load} (hs : CarefulStep img s ev s') (h : SystemInv img s)
    (hl : loadOf img e ev = some l) : Loads s s' e l := by
  have hcall := Step.loadCall hs.1 hl
  have hrecord := hs.record_eq h hcall.building.1
  cases hcall with
  | @handler c ctx r _ p hv hg =>
    have hin := hg.inside
    refine ⟨⟨?_, ?_, hin.le, fun h => absurd h (by simp)⟩, BitVec.le_def.mp hg.last,
      fun x hx => hg.owned_of_mem hx, fun he' => ?_, fun he' => ?_⟩
    · have := hg.aligned
      simp only [handlerLen, pageSize] at *
      omega
    · have := c.pos
      simp only [stackSize]
      omega
    · rw [hrecord he']
      simp only [eventChange, hv, changeRecord, if_true, loadHandlerRecord, Load.top, off_off]
      rw [off_toNat_of_lt hin]
      rfl
    · rw [hrecord he']
      simp only [eventChange, hv, changeRecord, if_true, loadHandlerRecord]
      exact ⟨by decide, fun h => absurd h (by simp)⟩
  | table hv hg =>
    have hin := hg.owned.page_lt hg.aligned
    refine ⟨⟨hg.aligned, Nat.zero_lt_succ _, hin.trans (by decide), fun _ => rfl⟩,
      BitVec.le_def.mp hg.last, fun x hx => hg.owned.of_mem hg.aligned hx, fun he' => ?_, fun he' => ?_⟩
    · rw [hrecord he']
      simp only [eventChange, hv, changeRecord, if_true, loadPageTableRecord, Load.top]
    · rw [hrecord he']
      simp only [eventChange, hv, changeRecord, if_true, loadPageTableRecord]
      exact ⟨by decide, fun _ => trivial⟩
  | page hv hg =>
    have hin := hg.owned.page_lt hg.aligned
    refine ⟨⟨hg.aligned, Nat.zero_lt_succ _, hin.trans (by decide), fun h => absurd h (by simp)⟩,
      BitVec.le_def.mp hg.last, fun x hx => hg.owned.of_mem hg.aligned hx, fun he' => ?_, fun he' => ?_⟩
    · rw [hrecord he']
      simp only [eventChange, hv, changeRecord, if_true, loadPageRecord, Load.top]
      rw [off_toNat_of_lt (by omega)]
      rfl
    · rw [hrecord he']
      simp only [eventChange, hv, changeRecord, if_true, loadPageRecord]
      exact ⟨by decide, fun h => absurd h (by simp)⟩

/-- Other steps leave `last_phys_addr_loaded` and the root alone, and the state but for
    `enclave_init`. -/
structure Unloaded (E E' : EnclaveMetadata) : Prop where
  last : E'.lastPhysAddrLoaded = E.lastPhysAddrLoaded
  eptbr : E'.eptbr = E.eptbr
  state : E'.initState = E.initState ∨
    E.initState = enclaveStatePageDataLoaded ∧ E'.initState = enclaveStateInitialized

theorem Unloaded.refl (E : EnclaveMetadata) : Unloaded E E := ⟨rfl, rfl, .inl rfl⟩

theorem CarefulStep.unloaded (hs : CarefulStep img s ev s') (h : SystemInv img s)
    (he : ValidMetadata s.data e .enclave) (he' : ValidMetadata s'.data e .enclave)
    (hl : loadOf img e ev = none) : Unloaded (s.data.enclave e) (s'.data.enclave e) := by
  rw [hs.record_eq h he he']
  obtain ⟨l, o⟩ := ev
  rcases l with ⟨c, k, ctx⟩ | _ | _ | _ | _
  case call =>
    obtain ⟨r, rfl, -, hE⟩ := (step_call hs.1).reply
    simp only [eventChange]
    split_ifs with hv
    · cases k with
      | enclaveLoadHandler f p | enclaveLoadPageTable f p v lev acl | enclaveLoadPage f p v os acl =>
        have hf : ¬ e = f := by
          rintro rfl
          simp [loadOf, hv] at hl
        simp only [changeRecord, if_neg hf, id]
        exact .refl _
      | enclaveInit f =>
        simp only [changeRecord]
        split_ifs with hf
        · subst hf
          exact ⟨rfl, rfl, .inr ⟨(hE hv).2.1, rfl⟩⟩
        · exact .refl _
      | threadLoad | threadDelete | regionAssign | regionBlock =>
        simp only [changeRecord]
        split_ifs <;> exact ⟨rfl, rfl, .inl rfl⟩
      | _ => exact .refl _
    · exact .refl _
  all_goals exact .refl _

/-- The checks accept the later load after the earlier one. -/
def Load.Follows (l l' : Load) : Prop := l.Ok ∧ l'.Ok ∧ l.top ≤ l'.addr.toNat

/-- The loads of the enclave at `e` so far, and where the last one has left
    `last_phys_addr_loaded`. -/
structure LoadInv (e : Word) (ls : List Load) (s : Config N) : Prop where
  chain : ls.IsChain Load.Follows
  ok : ∀ l ∈ ls, l.Ok
  last : ∀ l ∈ ls.getLast?, (s.data.enclave e).lastPhysAddrLoaded.toNat = l.top
  state : ∀ l ∈ ls.getLast?, l.table = true → (s.data.enclave e).initState ≠ enclaveStateInitialized →
    (s.data.enclave e).initState = enclaveStatePageTablesLoaded
  fresh : (s.data.enclave e).initState = enclaveStateCreated → ls = []

theorem LoadInv.nil (e : Word) (s : Config N) : LoadInv e [] s :=
  ⟨.nil, by simp, by simp, by simp, fun _ => rfl⟩

/-- **Every step keeps the account of the loads.** -/
theorem LoadInv.step {ls : List Load} (hi : LoadInv e ls s) (h : SystemInv img s)
    (hs : CarefulStep img s ev s') (he : ValidMetadata s.data e .enclave)
    (he' : ValidMetadata s'.data e .enclave) : LoadInv e (ls ++ (loadOf img e ev).toList) s' := by
  cases hl : loadOf img e ev with
  | none =>
    have hu := hs.unloaded h he he' hl
    rw [Option.toList_none, List.append_nil]
    refine ⟨hi.chain, hi.ok, fun l hlast => ?_, fun l hlast ht hne => ?_, fun hst => ?_⟩
    · rw [hu.last]
      exact hi.last l hlast
    · rcases hu.state with hsame | ⟨-, hinit⟩
      · rw [hsame] at hne ⊢
        exact hi.state l hlast ht hne
      · exact absurd hinit hne
    · rcases hu.state with hsame | ⟨-, hinit⟩
      · exact hi.fresh (hsame.symm.trans hst)
      · exact absurd (hinit.symm.trans hst) (by decide)
  | some l =>
    have hload := hs.loads_of h hl
    rw [Option.toList_some]
    refine ⟨?_, fun l' hmem => ?_, fun l' hlast => ?_, fun l' hlast ht _ => ?_, fun hst => ?_⟩
    · refine hi.chain.append (.singleton l) fun l₁ h₁ l₂ h₂ => ?_
      obtain rfl : l = l₂ := by simpa using h₂
      refine ⟨hi.ok l₁ (List.mem_of_getLast? h₁), hload.ok, ?_⟩
      rw [← hi.last l₁ h₁]
      exact hload.last
    · rw [List.mem_append, List.mem_singleton] at hmem
      rcases hmem with hmem | rfl
      · exact hi.ok l' hmem
      · exact hload.ok
    · rw [List.getLast?_concat] at hlast
      obtain rfl := Option.some.inj hlast
      exact hload.top he'
    · rw [List.getLast?_concat] at hlast
      obtain rfl := Option.some.inj hlast
      exact (hload.state he').2 ht
    · exact absurd hst (hload.state he').1

/-! ## Disjoint ranges -/

/-- The earlier load ends where the later one starts, or below. -/
def Load.Ends (l l' : Load) : Prop := l.Ok ∧ l'.Ok ∧ l.addr.toNat + l.size ≤ l'.addr.toNat

instance Load.transEnds : Trans Load.Ends Load.Ends Load.Ends where
  trans h h' := ⟨h.1, h'.2.1, by have := h.2.2; have := h'.2.2; omega⟩

/-- The next load does not use the page of a page table again. -/
def Load.NewPage (l l' : Load) : Prop := l.table = true → l'.addr ≠ l.addr

/-- **The ranges that the loads use** are disjoint and increasing if and only if no load uses the
    page of the page table that was loaded right before it. -/
theorem LoadInv.before_iff {ls : List Load} (hi : LoadInv e ls s) :
    ls.Pairwise Load.Before ↔ ls.IsChain Load.NewPage := by
  calc ls.Pairwise Load.Before
      ↔ ls.Pairwise Load.Ends := by
        refine List.Pairwise.iff_of_mem fun hl hl' => ?_
        have hl := hi.ok _ hl
        have hl' := hi.ok _ hl'
        exact (hl.before_iff hl').trans ⟨fun hle => ⟨hl, hl', hle⟩, fun hle => hle.2.2⟩
    _ ↔ ls.IsChain Load.Ends := List.isChain_iff_pairwise.symm
    _ ↔ ls.IsChain Load.NewPage := by
        have hchain := hi.chain
        rw [List.isChain_iff_getElem] at hchain ⊢
        rw [List.isChain_iff_getElem]
        refine forall_congr' fun i => forall_congr' fun hlt => ?_
        obtain ⟨hok, hok', htop⟩ := hchain i hlt
        rw [Load.NewPage, ← hok.before_iff_ne hok' htop]
        exact ⟨fun hle => hle.2.2, fun hle => ⟨hok, hok', hle⟩⟩

end SecurityMonitor
