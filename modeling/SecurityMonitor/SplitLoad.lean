/-
  `enclave_load_page` while other cores store, as a part of runs.

  A step of the system makes the whole call at once.  Here the call is the machine
  of single accesses (`LoadStep`), with the stores of other cores between them.

  * `SplitLoad`: such a call, from the configuration before it to the one after it;
  * `SplitLoad.serial`: if the page that it reads is left alone meanwhile, it ends
    where the call at once and then the stores would end;
  * `QuietHistory`: the runs that are tidy, with calls of both kinds;
    `QuietHistory.serial`: there is a run of calls at once with the same end;
  * `mapped_measured`: in these runs the walk of the hardware finds only measured
    pages;
  * `mapped_measured_fails`: an entry that untrusted software left in its region.
-/
import SecurityMonitor.MappedMemory
import SecurityMonitor.PageContents

namespace SecurityMonitor

open ByteMem

variable {N : ℕ} {img : Image N} {boot : Boot N} {s s' s₁ : Config N} {c : Fin N} {m m' : Mem}
  {e p v o acl a x va : Word} {b : Byte} {ev : Event N} {es : List (Event N)} {ws : List (Word × Byte)}

/-! ## Stores -/

/-- The memory after the stores `ws`. -/
def storeAll (ws : List (Word × Byte)) (m : Mem) : Mem := ws.foldl (fun m w => m.store8 w.1 w.2) m

theorem storeAll_cons (w : Word × Byte) (ws : List (Word × Byte)) (m : Mem) :
    storeAll (w :: ws) m = storeAll ws (m.store8 w.1 w.2) := rfl

theorem storeAll_append (ws ws' : List (Word × Byte)) (m : Mem) :
    storeAll (ws ++ ws') m = storeAll ws' (storeAll ws m) := List.foldl_append ..

theorem storeAll_congr (h : m x = m' x) : storeAll ws m x = storeAll ws m' x := by
  induction ws generalizing m m' with
  | nil => exact h
  | cons w ws ih => exact ih (Mem.fill_congr h)

theorem storeAll_apply (h : ∀ w ∈ ws, w.1 ≠ x) : storeAll ws m x = m x := by
  induction ws generalizing m with
  | nil => rfl
  | cons w ws ih =>
    refine (ih fun w' hw' => h w' (List.mem_cons_of_mem _ hw')).trans (Mem.fill_apply_of_notMem fun hx => ?_)
    exact h w List.mem_cons_self (eq_of_mem_range_one hx).symm

/-- `hash_extend` and stores outside the header of the enclave do not interfere. -/
theorem hashExtend_store8 (ha : a ∉ header e) (bs : List Byte) :
    hashExtend (m.store8 a b) e bs = (hashExtend m e bs).store8 a b := by
  have hne {x : Word} (hx : x ∈ header e) : x ∉ range a 1 := fun hxa => ha (eq_of_mem_range_one hxa ▸ hx)
  have hrecord : enclaveMetadata (m.store8 a b) e = enclaveMetadata m e :=
    enclaveMetadata_agree fun x hx => Mem.fill_apply_of_notMem (hne hx)
  funext x
  by_cases hx : x ∈ header e
  · have hout : (hashExtend m e bs).store8 a b x = hashExtend m e bs x := Mem.fill_apply_of_notMem (hne hx)
    rw [hout, hashExtend, hashExtend, hrecord]
    simp only [Enclave.setHashContext, storeHashContext, Mem.storeBytes, Mem.storeWords, Mem.store64]
    exact Mem.fill_congr (Mem.fill_congr (Mem.fill_congr (Mem.fill_congr
      (Mem.fill_apply_of_notMem (hne hx)))))
  · rw [hashExtend_apply hx]
    exact Mem.fill_congr (hashExtend_apply hx bs).symm

theorem hashExtend_storeAll (hws : ∀ w ∈ ws, w.1 ∉ header e) (bs : List Byte) :
    hashExtend (storeAll ws m) e bs = storeAll ws (hashExtend m e bs) := by
  induction ws generalizing m with
  | nil => rfl
  | cons w ws ih =>
    rw [storeAll_cons, storeAll_cons, ih fun w' hw' => hws w' (List.mem_cons_of_mem _ hw'),
      hashExtend_store8 (hws w List.mem_cons_self)]

theorem loadPageEnd_storeAll (hws : ∀ w ∈ ws, w.1 ∉ header e) (bs : List Byte) :
    loadPageEnd (storeAll ws m) e v acl bs = storeAll ws (loadPageEnd m e v acl bs) := by
  simp only [loadPageEnd, hashExtend_storeAll hws]

/-! ## The machine when the page is left alone -/

section
variable {hist : List (LoadState × LoadEvent)} {st st' : LoadState} {bs : List Byte}

def LoadEvent.stored : LoadEvent → Option (Word × Byte)
  | .access => none
  | .store a b => some (a, b)

/-- The stores of other cores in a history of the machine. -/
def storesOf (hist : List (LoadState × LoadEvent)) : List (Word × Byte) :=
  (hist.map Prod.snd).filterMap LoadEvent.stored

theorem storesOf_append (h h' : List (LoadState × LoadEvent)) :
    storesOf (h ++ h') = storesOf h ++ storesOf h' := by
  rw [storesOf, List.map_append, List.filterMap_append]
  rfl

theorem mem_storesOf {w : Word × Byte} (h : w ∈ storesOf hist) : ∃ st, (st, .store w.1 w.2) ∈ hist := by
  obtain ⟨ev, hev, hw⟩ := List.mem_filterMap.mp h
  obtain ⟨⟨st, ev⟩, hx, rfl⟩ := List.mem_map.mp hev
  cases ev with
  | access => cases hw
  | store a b =>
    cases hw
    exact ⟨st, hx⟩

variable (hp : PageAt p) (ho : PageAt o)
include hp ho

/-- Outside the page of the enclave only the stores count. -/
theorem LoadStep.mem_run (hr : Runs (Traced (LoadStep p o)) ⟨m, .copy p o⟩ hist st) (hx : x ∉ range p pageSize) :
    st.mem x = storeAll (storesOf hist) m x := by
  induction hr with
  | nil => rfl
  | @snoc st st' hist y hr hs ih =>
    obtain ⟨st₀, ev⟩ := y
    obtain ⟨heq, hs⟩ := hs
    obtain rfl : st = st₀ := heq.symm
    obtain ⟨k, read, hat, -⟩ := Loaded.run hp ho hr
    rw [storesOf_append, storeAll_append, ← storeAll_congr ih]
    cases ev with
    | store a b =>
      obtain ⟨-, rfl⟩ := hs
      rfl
    | access =>
      show st'.mem x = st.mem x
      obtain ⟨mem, pc⟩ := st
      cases hat with
      | @copy j hj =>
        simp only [LoadStep, LoadState.access, hp.copySize ho hj] at hs
        by_cases hlt : j < 512
        · rw [if_pos hlt, if_neg (by decide)] at hs
          cases hs
          show mem.copy (off p (8 * j)) (off o (8 * j)) 8 x = mem x
          refine Mem.fill_apply_of_notMem fun hmem => hx ?_
          exact range_off_sub (by show _ ≤ 4096; omega) (by decide) hmem
        · rw [if_neg hlt, if_pos rfl] at hs
          cases hs
          rfl
      | hash =>
        simp only [LoadStep, LoadState.access] at hs
        split_ifs at hs
        cases hs
        rfl

omit hp ho in
theorem LoadStep.store_notMem (hr : Runs (Traced (LoadStep p o)) ⟨m, .copy p o⟩ hist st) {w : Word × Byte}
    (hw : w ∈ storesOf hist) : w.1 ∉ range p pageSize := by
  obtain ⟨st₀, hx⟩ := mem_storesOf hw
  obtain ⟨h₁, h₂, rfl⟩ := List.append_of_mem hx
  obtain ⟨st₁, st₂, -, hs, -⟩ := hr.split_cons
  exact hs.2.1

/-- The page that is read does not change. -/
theorem LoadStep.source_kept (hsep : Sep p pageSize o pageSize)
    (hr : Runs (Traced (LoadStep p o)) ⟨m, .copy p o⟩ hist st)
    (hq : ∀ w ∈ storesOf hist, w.1 ∉ range o pageSize) {y : LoadState × LoadEvent} (hy : y ∈ hist) {i : ℕ}
    (hi : i < pageSize) : y.1.mem (off o i) = m (off o i) := by
  obtain ⟨h₁, h₂, rfl⟩ := List.append_of_mem hy
  obtain ⟨st₁, st₂, hr₁, ⟨heq, -⟩, -⟩ := hr.split_cons
  have hmem : off o i ∈ range o pageSize := mem_range_off hi (by decide)
  rw [heq, LoadStep.mem_run hp ho hr₁ fun hx => hsep _ hx hmem]
  refine storeAll_apply fun w hw hwx => hq w ?_ (hwx ▸ hmem)
  rw [storesOf_append]
  exact List.mem_append_left _ hw

/-- **If the page that is read is left alone**, the machine copies and hashes it as if at once, before
    all stores. -/
theorem LoadStep.quiet_run (hsep : Sep p pageSize o pageSize)
    (hr : Runs (Traced (LoadStep p o)) ⟨m, .copy p o⟩ hist ⟨m', .hash bs⟩) (hlen : bs.length = pageSize)
    (hq : ∀ w ∈ storesOf hist, w.1 ∉ range o pageSize) :
    m' = storeAll (storesOf hist) (m.copy p o pageSize) ∧ bs = memBytes (m.copy p o pageSize) o pageSize := by
  obtain ⟨k, read, hat, h⟩ := Loaded.run hp ho hr
  cases hat
  have hcopy {x : Word} (hx : x ∉ range p pageSize) : m.copy p o pageSize x = m x :=
    Mem.fill_apply_of_notMem hx
  constructor
  · funext x
    by_cases hx : x ∈ range p pageSize
    · obtain ⟨i, hi, rfl⟩ : ∃ i, i < pageSize ∧ x = off p i := ⟨_, hx, (off_self_sub p x).symm⟩
      obtain ⟨y, hy, hcy⟩ := h.copies i hi
      rw [storeAll_apply fun w hw hwx => LoadStep.store_notMem hr hw (hwx ▸ hx), Mem.copy_off hi (by decide)]
      exact (h.copied i hi y hy hcy).2.trans (LoadStep.source_kept hp ho hsep hr hq hy hi)
    · rw [storeAll_congr (hcopy hx)]
      exact LoadStep.mem_run hp ho hr hx
  · refine List.ext_getElem? fun i => ?_
    by_cases hi : i < pageSize
    · obtain ⟨y, hy, hhy⟩ := h.hashes i (hlen ▸ hi)
      rw [h.hashed i y hy hhy, LoadStep.source_kept hp ho hsep hr hq hy hi, memBytes, List.getElem?_map,
        List.getElem?_range hi, Option.map_some, hcopy fun hx => hsep _ hx (mem_range_off hi (by decide))]
    · rw [List.getElem?_eq_none (by omega), List.getElem?_eq_none (by simpa [memBytes] using hi)]

end

/-! ## The call in a run -/

def Config.withMem (s : Config N) (m : Mem) : Config N := { s with data := { s.data with mem := m } }

/-- `enclave_load_page` in single accesses, with the stores `ws` of other cores.  At once it would lead
    to `s₁`.  The machine starts with the data `d₁`, after the checks and the new entry. -/
inductive SplitLoad (img : Image N) (s : Config N) : Event N → List (Word × Byte) → Config N → Prop
  | intro {c : Fin N} {ctx : TrapContext} {r : Reply} {s₁ : Config N} {d₁ : Data N} {e p v o acl : Word}
      {hist : List (LoadState × LoadEvent)} {m : Mem} {bs : List Byte}
      (hs : CarefulStep img s (.call c (.enclaveLoadPage e p v o acl) ctx, some r) s₁) (hv : r.value = 0)
      (h₁ : EntryLoaded s.data e p v 0 acl d₁)
      (hd : s₁.data = { d₁ with mem := finishLoadPage d₁.mem e p v o acl })
      (hr : Runs (Traced (LoadStep p o)) ⟨loadPageStart d₁.mem e p, .copy p o⟩ hist ⟨m, .hash bs⟩)
      (hlen : bs.length = pageSize)
      (hws : ∀ w ∈ storesOf hist, ∃ c', c' ≠ c ∧ s.pending c' = none ∧ CanStore s c' w.1) :
      SplitLoad img s (.call c (.enclaveLoadPage e p v o acl) ctx, some r) (storesOf hist)
        (s₁.withMem (loadPageEnd m e v acl bs))

/-- The page of untrusted software that the call reads. -/
def osPage : Label N → Set Word
  | .call _ (.enclaveLoadPage _ _ _ o _) _ => range o pageSize
  | _ => ∅

/-- **If the page that it reads is left alone, the call ends** where the call at once and then the
    stores would end. -/
theorem SplitLoad.end_eq (h : SplitLoad img s ev ws s') (hrun : CarefulRun img boot es s)
    (hq : ∀ w ∈ ws, w.1 ∉ osPage ev.1) : ∃ s₁, CarefulStep img s ev s₁ ∧
      s' = s₁.withMem (storeAll ws s₁.data.mem) ∧ ∀ w ∈ ws, ∃ c, s₁.pending c = none ∧ CanStore s₁ c w.1 := by
  obtain ⟨hs, hv, h₁, hd, hr, hlen, hws⟩ := h
  rename_i c ctx r s₁ d₁ e p v o acl hist m bs
  have hcall : LoadCall img s e _ s₁ _ := Step.loadCall hs.1 (if_pos ⟨rfl, hv⟩)
  have hb : Building img s e := ⟨hrun.inv, hrun.unowned, hcall.building.1, hcall.building.2⟩
  obtain ⟨r', hr', -, hE⟩ := (step_call hs.1).reply
  obtain rfl := Option.some.inj hr'
  obtain ⟨hg, -⟩ := hE hv
  -- the stores do not hit the header, and the page that is read is not in it
  have hstores : ∀ w ∈ storesOf hist, w.1 ∉ header e := by
    intro w hw hx
    obtain ⟨c', -, -, hcan⟩ := hws w hw
    exact hrun.inv.store_ne_metadata hcan (hb.header_type hx)
  have hos : ∀ x ∈ range o pageSize, x ∉ header e := fun x hx hmem =>
    absurd ((hg.osOwned.of_mem hg.osAligned hx).2.symm.trans
      (hb.inv.regions.metadata _ (hb.header_type hmem)).2) (by decide)
  have hquiet : ∀ w ∈ storesOf hist, w.1 ∉ range o pageSize := hq
  obtain ⟨hmem, hbytes⟩ := LoadStep.quiet_run (hg.owned.pageAt hg.aligned) (hg.osOwned.pageAt hg.osAligned)
    hg.sep hr hlen hquiet
  refine ⟨s₁, hs, ?_, fun w hw => ?_⟩
  · rw [hmem, hbytes, loadPageEnd_storeAll hstores, ← finishLoadPage_end hos, hd]
  · obtain ⟨c', -, hpend, hcan⟩ := hws w hw
    refine ⟨c', by rw [(step_call hs.1).pending]; exact hpend, ?_⟩
    rw [CanStore, hd, h₁.frame.rest]
    exact hcan

/-- Stores that cores have access for. -/
theorem runs_stores (hws : ∀ w ∈ ws, ∃ c, s.pending c = none ∧ CanStore s c w.1) :
    ∃ xs, Runs (Traced (TidyStep img)) s xs (s.withMem (storeAll ws s.data.mem)) ∧
      ∀ x ∈ xs, ∃ c a b, x.2 = (.userStore c a b, none) := by
  induction ws using List.reverseRecOn with
  | nil => exact ⟨[], .nil _, by simp⟩
  | append_singleton ws w ih =>
    obtain ⟨xs, hr, hxs⟩ := ih fun w' hw' => hws w' (List.mem_append_left _ hw')
    obtain ⟨c, hpend, hcan⟩ := hws w (by simp)
    have hs : Step img (s.withMem (storeAll ws s.data.mem)) (.userStore c w.1 w.2, none)
        (s.withMem (storeAll (ws ++ [w]) s.data.mem)) := by
      have hno : ¬ (((s.withMem (storeAll ws s.data.mem)).pending c).isSome = true ∨
          ¬ CanStore (s.withMem (storeAll ws s.data.mem)) c w.1) := by
        rw [not_or, not_not]
        exact ⟨by simp [Config.withMem, hpend], hcan⟩
      rw [Step, exec, tryExec, if_neg hno, storeAll_append]
      rfl
    have htidy : TidyStep img (s.withMem (storeAll ws s.data.mem)) (.userStore c w.1 w.2, none)
        (s.withMem (storeAll (ws ++ [w]) s.data.mem)) := ⟨Step.carefully hs trivial, trivial⟩
    refine ⟨xs ++ [(s.withMem (storeAll ws s.data.mem), (.userStore c w.1 w.2, none))],
      hr.snoc ⟨rfl, htidy⟩, fun x hx => ?_⟩
    rcases List.mem_append.mp hx with hx | hx
    · exact hxs x hx
    · exact ⟨c, w.1, w.2, by rw [List.mem_singleton.mp hx]⟩

/-- **A call that is interrupted** by stores elsewhere is the call at once, and then the stores. -/
theorem SplitLoad.serial (h : SplitLoad img s ev ws s') (hrun : CarefulRun img boot es s) (ht : Tidy s ev.1)
    (hq : ∀ w ∈ ws, w.1 ∉ osPage ev.1) : ∃ s₁ xs, TidyStep img s ev s₁ ∧ Runs (Traced (TidyStep img)) s₁ xs s' ∧
      ∀ x ∈ xs, ∃ c a b, x.2 = (.userStore c a b, none) := by
  obtain ⟨s₁, hs, rfl, hws⟩ := h.end_eq hrun hq
  obtain ⟨xs, hr, hxs⟩ := runs_stores hws
  exact ⟨s₁, xs, ⟨hs, ht⟩, hr, hxs⟩

/-! ## Quiet runs -/

/-- A tidy step, with `enclave_load_page` at once or interrupted; in both cases the page that the call
    reads is left alone until it returns. -/
inductive QuietStep (img : Image N) (s : Config N) (ev : Event N) (s' : Config N) : Prop
  | step : TidyStep img s ev s' → QuietStep img s ev s'
  | load {ws : List (Word × Byte)} : SplitLoad img s ev ws s' → Tidy s ev.1 →
      (∀ w ∈ ws, w.1 ∉ osPage ev.1) → QuietStep img s ev s'

/-- The history of a run of such steps. -/
def QuietHistory (img : Image N) (boot : Boot N) : List (Config N × Event N) → Config N → Prop :=
  Runs (Traced (QuietStep img)) (smInit img boot)

section
variable {hist hist' xs : List (Config N × Event N)}

/-- The pages and the log, which depend on the events that are about the enclave. -/
def SameLog (e : Word) (hist hist' : List (Config N × Event N)) : Prop :=
  pagesOf e hist' = pagesOf e hist ∧ logOf e hist' = logOf e hist

theorem SameLog.snoc (h : SameLog e hist hist') (y : Config N × Event N) :
    SameLog e (hist ++ [y]) (hist' ++ [y]) := by
  obtain ⟨s, ev⟩ := y
  refine ⟨?_, by rw [logOf_append, logOf_append, h.2]⟩
  cases hc : createdWith e ev with
  | some q => rw [pagesOf, pagesOf, sinceCreated_create hc, sinceCreated_create hc]
  | none =>
    have hpages := h.1
    rw [pagesOf, pagesOf] at hpages
    rw [pagesOf, pagesOf, sinceCreated_step hc, sinceCreated_step hc, filterMap_concat, filterMap_concat, hpages]

theorem SameLog.stores (h : SameLog e hist hist') (hxs : ∀ x ∈ xs, ∃ c a b, x.2 = (.userStore c a b, none)) :
    SameLog e hist (hist' ++ xs) := by
  induction xs using List.reverseRecOn with
  | nil => rwa [List.append_nil]
  | append_singleton xs x ih =>
    obtain ⟨hpages, hlog⟩ := ih fun y hy => hxs y (List.mem_append_left _ hy)
    obtain ⟨s, ev⟩ := x
    obtain ⟨c, a, b, rfl⟩ : ∃ c a b, ev = (.userStore c a b, none) := hxs (s, ev) (by simp)
    rw [← List.append_assoc]
    constructor
    · rw [pagesOf, sinceCreated_step rfl, filterMap_concat, ← hpages]
      exact List.append_nil _
    · rw [logOf_append, hlog, logStep]
      cases logOf e hist with
      | none => rfl
      | some q =>
        obtain ⟨q, ms⟩ := q
        simp [createdWith, measuredEvent]

/-- **Every quiet run has the same end as a tidy run** with the same loads. -/
theorem QuietHistory.serial (h : QuietHistory img boot hist s) :
    ∃ hist', TidyHistory img boot hist' s ∧ ∀ e, SameLog e hist hist' := by
  induction h with
  | nil => exact ⟨[], .nil _, fun _ => ⟨rfl, rfl⟩⟩
  | @snoc s s' hist x hr hs ih =>
    obtain ⟨s₀, ev⟩ := x
    obtain ⟨heq, hs⟩ := hs
    obtain rfl : s = s₀ := heq.symm
    obtain ⟨hist', hr', hsame⟩ := ih
    cases hs with
    | step hs => exact ⟨_, .snoc hr' ⟨rfl, hs⟩, fun e => (hsame e).snoc _⟩
    | load hs ht hq =>
      obtain ⟨s₁, xs, hs, hrun, hxs⟩ := hs.serial (CarefulHistory.run (TidyHistory.careful hr')) ht hq
      exact ⟨_, (hr'.snoc ⟨rfl, hs⟩).append hrun, fun e => ((hsame e).snoc _).stores hxs⟩

/-- **Only measured memory is mapped.**  When `enclave_init` succeeds in a quiet run and the walk for
    a virtual address ends at a valid leaf, then `enclave_load_page` has loaded a page for that
    virtual page since the enclave was created.  The leaf has the physical page and the access
    rights of that call, the page still has the contents that were loaded, and the call is in the
    log of which the measurement is the digest. -/
theorem mapped_measured {l : ℕ} {pte : Word} (hr : QuietHistory img boot hist s) (hs : CarefulStep img s ev s')
    (hi : InitsAt e ev)
    (hw : Sv39.walk s'.data.mem va 2 (Sv39.rootOf (s'.data.enclave e).eptbr) = (l, pte))
    (hv : Sv39.IsValid pte) (hp : ¬ Sv39.IsPointer pte) :
    l = 0 ∧ ∃ pg ∈ pagesOf e hist, LeafOfPage s'.data.mem va pte pg ∧
      ∃ q ms, logOf e hist = some (q, ms) ∧ .page pg.virtualAddr pg.acl pg.contents ∈ ms ∧
        (s'.data.enclave e).measurement = sha512Digest (measuredStream img.enclaveHandler q ms) := by
  obtain ⟨hist', hr', hsame⟩ := hr.serial
  rw [← (hsame e).1, ← (hsame e).2]
  exact hr'.walk_measured hs hi hw hv hp

end

/-- A store while `enclave_load_page` is between its two loops. -/
theorem SplitLoad.exists_store {ctx : TrapContext} {r : Reply} {c' : Fin N}
    (hs : CarefulStep img s (.call c (.enclaveLoadPage e p v o acl) ctx, some r) s₁) (hv : r.value = 0)
    (hc : c' ≠ c) (hpend : s.pending c' = none) (hcan : CanStore s c' a) (ha : a ∉ range p pageSize) (b : Byte) :
    ∃ s', SplitLoad img s (.call c (.enclaveLoadPage e p v o acl) ctx, some r) [(a, b)] s' := by
  obtain ⟨r', hr', -, hE⟩ := (step_call hs.1).reply
  obtain rfl := Option.some.inj hr'
  obtain ⟨hg, d₁, h₁, hd⟩ := hE hv
  have hcopy := runs_memcpy (m := loadPageStart d₁.mem e p) (hg.owned.pageAt hg.aligned)
    (hg.osOwned.pageAt hg.osAligned) hg.sep
  have hstore : LoadStep p o ⟨(loadPageStart d₁.mem e p).copy p o pageSize, .hash []⟩ (.store a b)
      ⟨((loadPageStart d₁.mem e p).copy p o pageSize).store8 a b, .hash []⟩ := ⟨ha, rfl⟩
  obtain ⟨hist, hr, hev⟩ := ((hcopy.snoc hstore).append (runs_hash le_rfl)).traced
  have hnone (n : ℕ) : (List.replicate n LoadEvent.access).filterMap LoadEvent.stored = [] :=
    List.filterMap_replicate_of_none rfl
  have hws : storesOf hist = [(a, b)] := by
    rw [storesOf, hev, List.filterMap_append, List.filterMap_append, List.filterMap_append, hnone, hnone]
    rfl
  rw [← hws]
  refine ⟨_, .intro hs hv h₁ hd hr (by simp [memBytes]) fun w hw => ⟨c', hc, hpend, ?_⟩⟩
  rw [hws, List.mem_singleton] at hw
  rw [hw]
  exact hcan

/-- `enclave_init` succeeds for the first enclave, and then the walk for `va` ends at a valid leaf
    on level 0. -/
def InitsMapped (va : Word) (s : Config 2) : Prop :=
  (carefulExec smallImage s (callOn 0 (.enclaveInit firstEnclave))).any (fun y =>
    let w := Sv39.walk y.2.data.mem va 2 (Sv39.rootOf (y.2.data.enclave firstEnclave).eptbr)
    decide (y.1.map Reply.value = some 0 ∧ Sv39.IsValid w.2 ∧ ¬ Sv39.IsPointer w.2)) = true

instance decidableInitsMapped (va : Word) (s : Config 2) : Decidable (InitsMapped va s) :=
  inferInstanceAs (Decidable (_ = _))

theorem InitsMapped.step {s : Config 2} (h : InitsMapped va s) : ∃ ev s' l pte,
    CarefulStep smallImage s ev s' ∧ InitsAt firstEnclave ev ∧
    Sv39.walk s'.data.mem va 2 (Sv39.rootOf (s'.data.enclave firstEnclave).eptbr) = (l, pte) ∧
    Sv39.IsValid pte ∧ ¬ Sv39.IsPointer pte := by
  obtain ⟨⟨o, s'⟩, hexec, hprop⟩ := Option.any_eq_true _ _ |>.mp h
  obtain ⟨ho, hvalid, hptr⟩ := of_decide_eq_true hprop
  obtain ⟨r, rfl, hv⟩ := Option.map_eq_some_iff.mp ho
  exact ⟨_, s', _, _, carefulStep_of_exec (e := (callOn 0 (.enclaveInit firstEnclave), some r)) hexec,
    ⟨0, zeroContext, r, rfl, hv⟩, rfl, hvalid, hptr⟩

set_option maxRecDepth 100000 in
/-- Core 1 stores to another page while core 0 loads the page, which is mapped when the enclave is
    initialised. -/
theorem mapped_measured_page : ∃ hist s₀ load ws s ev s' l pte, QuietHistory smallImage zeroBoot hist s₀ ∧
    SplitLoad smallImage s₀ load ws s ∧ ws ≠ [] ∧ CarefulStep smallImage s ev s' ∧ InitsAt firstEnclave ev ∧
    Sv39.walk s'.data.mem 0x1000 2 (Sv39.rootOf (s'.data.enclave firstEnclave).eptbr) = (l, pte) ∧
    Sv39.IsValid pte ∧ ¬ Sv39.IsPointer pte ∧ l = 0 ∧ ∃ pg ∈ pagesOf firstEnclave (hist ++ [(s₀, load)]),
      LeafOfPage s'.data.mem 0x1000 pte pg := by
  obtain ⟨hist, s₀, o, s₁, hr, hs, ho, hpend, hcan, hi⟩ : ∃ hist s o s',
      TidyHistory smallImage zeroBoot hist s ∧ TidyStep smallImage s (pageLabel 0x84007000, o) s' ∧
      o.map Reply.value = some 0 ∧ (s.pending 1).isNone = true ∧ CanStore s 1 0x82002000 ∧
      InitsMapped 0x1000 (s'.withMem (s'.data.mem.store8 0x82002000 1)) :=
    TidyHistory.exists_step_of_labels threeTableLabels _ (by decide +kernel)
  obtain ⟨r, rfl, hv⟩ := Option.map_eq_some_iff.mp ho
  have hout : (0x82002000 : Word) ∉ range 0x84007000 pageSize ∧
      (0x82002000 : Word) ∉ range 0x82000000 pageSize := by
    constructor <;> exact Nat.not_lt.mpr (by decide +kernel)
  obtain ⟨s, hload⟩ := SplitLoad.exists_store hs.1 hv (by decide : (1 : Fin 2) ≠ 0)
    (Option.isNone_iff_eq_none.mp hpend) hcan hout.1 1
  have hquiet : ∀ w ∈ [((0x82002000 : Word), (1 : Byte))], w.1 ∉ osPage (pageLabel 0x84007000) := by
    intro w hw
    rw [List.mem_singleton.mp hw]
    exact hout.2
  obtain ⟨s₂, hs₂, rfl, -⟩ := hload.end_eq (CarefulHistory.run hr.careful) hquiet
  obtain rfl : s₂ = s₁ := (Prod.mk.inj (Option.some.inj (hs₂.1.symm.trans hs.1.1))).2
  have hr' : QuietHistory smallImage zeroBoot hist s₀ := hr.mono fun _ _ _ h => ⟨h.1, .step h.2⟩
  obtain ⟨ev, s', l, pte, hsi, hinit, hw, hv, hp⟩ := hi.step
  have hnext : QuietHistory smallImage zeroBoot (hist ++ [(s₀, (pageLabel 0x84007000, some r))]) _ :=
    .snoc hr' ⟨rfl, .load hload hs.2 hquiet⟩
  obtain ⟨hl, pg, hpg, hleaf, -⟩ := mapped_measured hnext hsi hinit hw hv hp
  exact ⟨hist, s₀, _, _, _, ev, s', l, pte, hr', hload, by simp, hsi, hinit, hw, hv, hp, hl, pg, hpg, hleaf⟩

/-- Before region 2 is assigned, core 0 stores a leaf in the page that becomes the page table. -/
def strayLabels : List (Label 2) :=
  [.userStore 0 0x84003010 0x0F, .userStore 0 0x84003011 0x14, .userStore 0 0x84003013 0x21] ++ setupLabels ++
    (buildLabels firstEnclave firstThread 0).take 6

set_option maxRecDepth 100000 in
/-- **A leaf that untrusted software has left in the region.**  Virtual address `0x2000` is mapped
    although no page was loaded for it. -/
theorem mapped_measured_fails : ∃ hist s ev s' l pte, CarefulHistory smallImage zeroBoot hist s ∧
    CarefulStep smallImage s ev s' ∧ InitsAt firstEnclave ev ∧
    Sv39.walk s'.data.mem 0x2000 2 (Sv39.rootOf (s'.data.enclave firstEnclave).eptbr) = (l, pte) ∧
    Sv39.IsValid pte ∧ ¬ Sv39.IsPointer pte ∧
    ∀ pg ∈ pagesOf firstEnclave hist, Sv39.pageNumber pg.virtualAddr ≠ Sv39.pageNumber 0x2000 := by
  obtain ⟨hist, s, hr, hi, hno⟩ : ∃ hist s, CarefulHistory smallImage zeroBoot hist s ∧ InitsMapped 0x2000 s ∧
      ∀ pg ∈ pagesOf firstEnclave hist, Sv39.pageNumber pg.virtualAddr ≠ Sv39.pageNumber 0x2000 :=
    CarefulHistory.exists_of_labels strayLabels (by decide +kernel)
  obtain ⟨ev, s', l, pte, hs, hinit, hw, hv, hp⟩ := hi.step
  exact ⟨hist, s, ev, s', l, pte, hr, hs, hinit, hw, hv, hp, hno⟩

end SecurityMonitor
