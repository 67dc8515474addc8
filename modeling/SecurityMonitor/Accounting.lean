/-
  The threads of an enclave, and the pages that nobody uses.

  `num_threads` lives in the metadata of the enclave, and the threads may live in
  any metadata region.

  * `Accounted d`: `num_threads` of every enclave is the number of its threads,
    and every thread belongs to an enclave;
  * `thread_accounting`: every step but an `enclave_delete` keeps this, and with
    it an enclave that passes the check of `enclave_delete` has no thread;
  * `free_pages_zero`: free metadata pages are zero, so that a new enclave and a
    new thread start empty although nothing clears them.

  The first does not hold when `thread_delete` deletes a thread that is running:
  a core that runs a deleted enclave writes to whatever its page holds by then
  (`thread_accounting_fails`).
-/
import SecurityMonitor.RoundTrip

namespace SecurityMonitor

open ByteMem

variable {N : ℕ} {img : Image N} {boot : Boot N} {s s' : Config N} {d d' : Data N} {c : Fin N}
  {a e t x : Word} {k : Call} {L : LockId N → Bool} {ctx : TrapContext} {ev : Event N}
  {es : List (Event N)}

/-! ## Counting threads -/

/-- The threads of the enclave at `e`. -/
def threadsOf (d : Data N) (e : Word) : Set Word :=
  {t | ValidMetadata d t .thread ∧ (d.thread t).owner = e}

structure Accounted (d : Data N) : Prop where
  count : ∀ e, ValidMetadata d e .enclave → (d.enclave e).numThreads.toNat = (threadsOf d e).ncard
  owner : ∀ t, ValidMetadata d t .thread → ValidMetadata d (d.thread t).owner .enclave

/-- Threads are pages of RAM. -/
theorem threadsOf_ncard_le (d : Data N) (e : Word) : (threadsOf d e).ncard ≤ 2 ^ 20 := by
  rw [show 2 ^ 20 = (Finset.range (2 ^ 20) : Set ℕ).ncard by simp]
  refine Set.ncard_le_ncard_of_injOn (fun t => t.toNat / 4096) (fun t ht => ?_) (fun t ht t' ht' hEq => ?_)
    (Finset.finite_toSet _)
  · have := (addrToRegionId_lt t).mp ht.1.inRam
    simp only [Finset.coe_range, Set.mem_Iio]
    omega
  · have := (isPageAligned_iff t).mp ht.1.aligned
    have := (isPageAligned_iff t').mp ht'.1.aligned
    rw [pageSize] at *
    simp only at hEq
    exact BitVec.eq_of_toNat_eq (by omega)

/-- An enclave that passes the check of `enclave_delete` has no thread. -/
theorem Accounted.no_threads (h : Accounted d) (he : ValidMetadata d e .enclave)
    (hn : ¬ 0 < (d.enclave e).numThreads.toInt) : threadsOf d e = ∅ := by
  have hcount := h.count e he
  have hle := threadsOf_ncard_le d e
  have hint : (d.enclave e).numThreads.toInt = (d.enclave e).numThreads.toNat := by
    rw [BitVec.toInt_eq_toNat_of_lt (by omega)]
  rw [hint] at hn
  exact (Set.ncard_eq_zero (Set.toFinite _)).mp (by omega)

/-! ## Steps -/

/-- The event loads the thread at `t` for the enclave at `e`. -/
def LoadsThread (e t : Word) (ev : Event N) : Prop :=
  ∃ c pc sp l ctx r, ev = (.call c (.threadLoad e t pc sp l) ctx, some r) ∧ r.value = 0

/-- Only `region_metadata_create` makes new metadata pages. -/
theorem effect_metadataPage (hE : Effect img L c ctx d k d') (hp : MetadataPageAt d' a) :
    MetadataPageAt d a ∨ ∃ r, k = .regionMetadataCreate r := by
  have htype := hp.type
  have hstate := hp.state
  rcases effect_regions hE (regionOf a) with heq | ⟨-, -, -, -, hg⟩ | hchange
  · exact .inl ⟨hp.aligned, hp.inRam, heq ▸ htype, heq ▸ hstate⟩
  · rw [hg] at hstate
    exact absurd hstate (by simp)
  · generalize d'.regions (regionOf a) = g' at htype hstate hchange
    generalize regionOf a = i at hchange
    cases hchange with
    | block => exact absurd hstate (by simp)
    | delete => exact absurd hstate (by simp)
    | assign =>
      dsimp only at htype
      split_ifs at htype
    | metadata => exact .inr ⟨_, rfl⟩

/-- A step does not make a page a thread, unless it loads it. -/
theorem CarefulStep.thread_origin (hs : CarefulStep img s ev s') (h : SystemInv img s)
    (ht : ValidMetadata s'.data t .thread) :
    ValidMetadata s.data t .thread ∨ ∃ e, LoadsThread e t ev := by
  have hslot := (step_inv h hs.2 hs.1).1.heap.slot t _ ht (by decide)
  by_cases hl : ∀ c k ctx, ev.1 ≠ .call c k ctx
  · exact .inl ((step_agrees h hs.1 hl).valid_iff.mp ht)
  push Not at hl
  obtain ⟨c, k, ctx, hl⟩ := hl
  obtain ⟨l, o⟩ := ev
  obtain rfl : l = .call c k ctx := hl
  obtain ⟨r, rfl, hne, hE⟩ := (step_call hs.1).reply
  by_cases hv : r.value = 0
  · have hE := hE hv
    have hmaps := h.regions.toMaps
    have hcare : CallCareful s.data k := hs.2
    -- the calls that give pages new tags
    cases k with
    | enclaveCreate e b mask n debug =>
      obtain ⟨hf, hd⟩ := hE
      have hf := hf.freeSpace_enclave h.heap hs.2
      have hr : Retags img s.data { s.data with mem := createEnclave s.data.mem e b mask n debug }
          (pagesFrom e (enclaveMetadataPages n).toNat) ∅ := create_retags h.heap hs.2 hf
      rw [← hd] at hr
      by_cases hS : t ∈ pagesFrom e (enclaveMetadataPages n).toNat
      · have htag := ht.tag
        rw [pageTag_eq, hd] at htag
        have htag := (create_pageTag hf hS).symm.trans htag
        split_ifs at htag <;> exact absurd htag (by decide)
      · exact .inl ((hr.kept t hS _).mp ht)
    | enclaveDelete e =>
      obtain ⟨hg, hd⟩ := hE
      obtain ⟨S, hc⟩ : ∃ S, Clears s.data s'.data S := by
        rw [hd]
        cases hf : firstRegion s.data e with
        | none => exact ⟨_, delete_none_clears h.heap hg hf⟩
        | some i => exact ⟨_, delete_some_clears h.heap hg hf (hmaps.type_ne hg.enclave (List.find?_some hf))⟩
      by_cases hS : t ∈ S
      · exact absurd ht (hc.notThread hS)
      · exact .inl ((hc.kept t hS _).mp ht)
    | regionMetadataCreate r =>
      obtain ⟨hlt, -, hfree, hd⟩ := hE
      have hc := createMetadataRegion_clears hlt hfree h.heap
      rw [← hd] at hc
      by_cases hS : regionOf t = toRegion r
      · exact absurd ht (hc.notThread ⟨ht.aligned, ht.inRam, hS⟩)
      · exact .inl ((hc.kept t (fun hmem => hS hmem.2.2) _).mp ht)
    | threadDelete u =>
      obtain ⟨hu, -, hd⟩ := hE
      have hp := deleteThread_step h.heap hu hs.2
      rw [← hd] at hp
      by_cases htu : t = u
      · exact absurd (ht.tag_unique (htu ▸ hp.after)) (by decide)
      · exact .inl ((hp.kept h.heap htu _).mp ht)
    | threadLoad e u pc sp l =>
      obtain ⟨he, -, hf, hd⟩ := hE
      have hp : PageStep s.data { s.data with mem := loadThread s.data.mem e u pc sp l } e u .free
          .thread := loadThread_step h.heap he (hf.freeSpace h.heap (by decide) (by decide))
      rw [← hd] at hp
      by_cases htu : t = u
      · subst htu
        exact .inr ⟨e, c, pc, sp, l, ctx, r, rfl, hv⟩
      · exact .inl ((hp.kept h.heap htu _).mp ht)
    | _ =>
      rcases effect_metadataPage hE ht.toMetadataPageAt with hp | ⟨r, hr⟩
      · exact .inl ((effect_tags h.heap hmaps hcare hE (Set.notMem_empty t) hp hslot).mp ht)
      · cases hr
  · rw [hne hv] at ht
    exact .inl ht

/-- The event deletes the thread at `t`. -/
def DeletesThread (t : Word) (ev : Event N) : Prop :=
  ∃ c ctx r, ev = (.call c (.threadDelete t) ctx, some r) ∧ r.value = 0

theorem CarefulStep.loads (hs : CarefulStep img s ev s') (h : SystemInv img s)
    (hl : LoadsThread e t ev) : ValidMetadata s.data e .enclave ∧ ValidMetadata s.data t .free ∧
      ValidMetadata s'.data t .thread ∧ (s'.data.thread t).owner = e := by
  obtain ⟨c, pc, sp, l, ctx, r, rfl, hv⟩ := hl
  obtain ⟨r', hr', -, hE⟩ := (step_call hs.1).reply
  obtain rfl := Option.some.inj hr'
  obtain ⟨he, -, hf, hd⟩ := hE hv
  have hp : PageStep s.data { s.data with mem := loadThread s.data.mem e t pc sp l } e t .free
      .thread := loadThread_step h.heap he (hf.freeSpace h.heap (by decide) (by decide))
  have howner : (s'.data.thread t).owner = e := by
    rw [hd]
    exact congrArg ThreadMetadata.owner (loadThread_threadRecord (hp.sep h.heap))
  rw [← hd] at hp
  exact ⟨he, hp.before, hp.after, howner⟩

theorem CarefulStep.deletes (hs : CarefulStep img s ev s') (h : SystemInv img s)
    (hl : DeletesThread t ev) :
    ValidMetadata s.data t .thread ∧ ¬ ValidMetadata s'.data t .thread := by
  obtain ⟨c, ctx, r, rfl, hv⟩ := hl
  obtain ⟨r', hr', -, hE⟩ := (step_call hs.1).reply
  obtain rfl := Option.some.inj hr'
  obtain ⟨ht, -, hd⟩ := hE hv
  have hp := deleteThread_step h.heap ht hs.2
  rw [← hd] at hp
  exact ⟨ht, fun ht' => absurd (ht'.tag_unique hp.after) (by decide)⟩

/-- Threads stay until they are deleted. -/
theorem CarefulStep.thread_kept (hs : CarefulStep img s ev s') (h : SystemInv img s)
    (hno : ¬ IsEnclaveDelete ev.1) (ht : ValidMetadata s.data t .thread) (hdel : ¬ DeletesThread t ev) :
    ValidMetadata s'.data t .thread := by
  refine hs.tag_kept h ht (.inr rfl) fun hr => ?_
  cases hr with
  | thread hv => exact hdel ⟨_, _, _, rfl, hv⟩
  | enclave => exact hno trivial

/-- Enclaves stay until one is deleted. -/
theorem CarefulStep.enclave_kept (hs : CarefulStep img s ev s') (h : SystemInv img s)
    (hno : ¬ IsEnclaveDelete ev.1) (he : ValidMetadata s.data e .enclave) :
    ValidMetadata s'.data e .enclave := by
  refine hs.tag_kept h he (.inl rfl) fun hr => ?_
  cases hr with
  | thread hv =>
    have ht := (hs.deletes h ⟨_, _, _, rfl, hv⟩).1
    exact absurd (he.tag_unique ht) (by decide)
  | enclave => exact hno trivial

/-- A thread belongs to one enclave as long as it is there. -/
theorem CarefulStep.owner_eq (hs : CarefulStep img s ev s') (h : SystemInv img s)
    (ht : ValidMetadata s.data t .thread) (ht' : ValidMetadata s'.data t .thread) :
    (s'.data.thread t).owner = (s.data.thread t).owner := by
  rcases hs.thread_cases h ht ht' with heq | ⟨c, e, ctx, hen⟩ | ⟨c, -, -, -, regs, p, heq⟩
  · rw [heq]
  · rw [(enter_guard hs.1 hen).2, enterEnclave_thread]
  · rw [heq]

/-- What a step does to the threads of an enclave. -/
theorem CarefulStep.mem_threadsOf (hs : CarefulStep img s ev s') (h : SystemInv img s)
    (hno : ¬ IsEnclaveDelete ev.1) :
    t ∈ threadsOf s'.data e ↔ t ∈ threadsOf s.data e ∧ ¬ DeletesThread t ev ∨ LoadsThread e t ev := by
  constructor
  · rintro ⟨ht', ho⟩
    rcases hs.thread_origin h ht' with ht | ⟨f, hl⟩
    · rw [hs.owner_eq h ht ht'] at ho
      exact .inl ⟨⟨ht, ho⟩, fun hdel => (hs.deletes h hdel).2 ht'⟩
    · obtain rfl : f = e := (hs.loads h hl).2.2.2.symm.trans ho
      exact .inr hl
  · rintro (⟨⟨ht, ho⟩, hdel⟩ | hl)
    · have ht' := hs.thread_kept h hno ht hdel
      exact ⟨ht', (hs.owner_eq h ht ht').trans ho⟩
    · exact (hs.loads h hl).2.2

/-! ## The counter -/

theorem LoadsThread.unique {e' t' : Word} (hl : LoadsThread e t ev) (hl' : LoadsThread e' t' ev) :
    e' = e ∧ t' = t := by
  obtain ⟨c, pc, sp, l, ctx, r, rfl, -⟩ := hl
  obtain ⟨c', pc', sp', l', ctx', r', heq, -⟩ := hl'
  cases heq
  exact ⟨rfl, rfl⟩

theorem LoadsThread.not_deletes (hl : LoadsThread e t ev) : ¬ DeletesThread x ev := by
  rintro ⟨c', ctx', r', rfl, -⟩
  obtain ⟨c, pc, sp, l, ctx, r, heq, -⟩ := hl
  cases heq

theorem DeletesThread.unique {t' : Word} (hl : DeletesThread t ev) (hl' : DeletesThread t' ev) :
    t' = t := by
  obtain ⟨c, ctx, r, rfl, -⟩ := hl
  obtain ⟨c', ctx', r', heq, -⟩ := hl'
  cases heq
  rfl

theorem eventChange_loads (hl : LoadsThread e t ev) (E : EnclaveMetadata) :
    (eventChange img s e ev E).numThreads = E.numThreads + 1 := by
  obtain ⟨c, pc, sp, l, ctx, r, rfl, hv⟩ := hl
  simp only [eventChange, hv, changeRecord, if_true]
  rfl

theorem eventChange_deletes (hl : DeletesThread t ev) (ho : (s.data.thread t).owner = e)
    (E : EnclaveMetadata) : (eventChange img s e ev E).numThreads = E.numThreads - 1 := by
  obtain ⟨c, ctx, r, rfl, hv⟩ := hl
  simp only [eventChange, hv, changeRecord, if_true, ho]

/-- No other event changes the counter. -/
theorem eventChange_other (hload : ∀ t, ¬ LoadsThread e t ev)
    (hdel : ∀ t, DeletesThread t ev → (s.data.thread t).owner ≠ e) (E : EnclaveMetadata) :
    (eventChange img s e ev E).numThreads = E.numThreads := by
  obtain ⟨l, o⟩ := ev
  rcases l with ⟨c, k, ctx⟩ | _ | _ | _ | _
  case call =>
    rcases o with _ | r
    · rfl
    · simp only [eventChange]
      split_ifs with hv
      · cases k with
        | threadLoad f u pc sp l =>
          have hne : e ≠ f := by
            rintro rfl
            exact hload u ⟨c, pc, sp, l, ctx, r, rfl, hv⟩
          simp only [changeRecord, if_neg hne, id]
        | threadDelete u =>
          have hne : e ≠ (s.data.thread u).owner := fun heq => hdel u ⟨c, ctx, r, rfl, hv⟩ heq.symm
          simp only [changeRecord, if_neg hne, id]
        | _ => first | rfl | (simp only [changeRecord]; split_ifs <;> rfl)
      · rfl
  all_goals rfl

/-- A new enclave has no thread yet. -/
theorem CarefulStep.created (hs : CarefulStep img s ev s') (h : SystemInv img s)
    (hc : EventCreates ev e (s'.data.enclave e)) :
    (s'.data.enclave e).numThreads = 0 ∧ ¬ ValidMetadata s.data e .enclave ∧
      ∀ t, ¬ LoadsThread e t ev := by
  obtain ⟨l, o⟩ := ev
  rcases l with ⟨c, k, ctx⟩ | _ | _ | _ | _
  case call =>
    rcases o with _ | r
    · exact absurd hc id
    obtain ⟨hv, hc⟩ := hc
    cases k with
    | enclaveCreate f b mask n debug =>
      obtain ⟨rfl, -⟩ := hc
      obtain ⟨r', hr', -, hE⟩ := (step_call hs.1).reply
      obtain rfl := Option.some.inj hr'
      obtain ⟨hf, hd⟩ := hE hv
      have hf := hf.freeSpace_enclave h.heap hs.2
      refine ⟨?_, fun he => ?_, ?_⟩
      · rw [hd]
        exact (create_record h.heap hf).2.1
      · exact absurd (he.tag_unique (hf.free e ⟨0, hf.pos, by simp⟩)) (by decide)
      · rintro t ⟨c', pc, sp, l, ctx', r', heq, -⟩
        cases heq
    | _ => exact absurd hc id
  all_goals exact absurd hc id

/-- The counter follows the threads. -/
theorem CarefulStep.count_eq (hs : CarefulStep img s ev s') (h : SystemInv img s)
    (hno : ¬ IsEnclaveDelete ev.1) (he : ValidMetadata s.data e .enclave)
    (hcount : (s.data.enclave e).numThreads.toNat = (threadsOf s.data e).ncard) :
    (s'.data.enclave e).numThreads.toNat = (threadsOf s'.data e).ncard := by
  have hle := threadsOf_ncard_le s.data e
  rw [hs.record_eq h he (hs.enclave_kept h hno he)]
  by_cases hload : ∃ t, LoadsThread e t ev
  · obtain ⟨t, hl⟩ := hload
    have hset : threadsOf s'.data e = insert t (threadsOf s.data e) := by
      ext u
      rw [hs.mem_threadsOf h hno, Set.mem_insert_iff]
      refine ⟨fun hu => hu.symm.imp (fun hl' => (hl.unique hl').2) And.left, ?_⟩
      rintro (rfl | hu)
      · exact .inr hl
      · exact .inl ⟨hu, hl.not_deletes⟩
    have hnew : t ∉ threadsOf s.data e := fun ht =>
      absurd (ht.1.tag_unique (hs.loads h hl).2.1) (by decide)
    rw [hset, Set.ncard_insert_of_notMem hnew (Set.toFinite _), ← hcount, eventChange_loads hl,
      BitVec.toNat_add, show (1 : Word).toNat = 1 from rfl]
    omega
  by_cases hdel : ∃ t, DeletesThread t ev ∧ (s.data.thread t).owner = e
  · obtain ⟨t, hl, ho⟩ := hdel
    have hmem : t ∈ threadsOf s.data e := ⟨(hs.deletes h hl).1, ho⟩
    have hset : threadsOf s'.data e = threadsOf s.data e \ {t} := by
      ext u
      rw [hs.mem_threadsOf h hno, Set.mem_sdiff, Set.mem_singleton_iff]
      constructor
      · rintro (⟨hu, hnd⟩ | hu)
        · exact ⟨hu, fun heq => hnd (heq ▸ hl)⟩
        · exact absurd ⟨u, hu⟩ hload
      · rintro ⟨hu, hne⟩
        exact .inl ⟨hu, fun hu' => hne (hl.unique hu')⟩
    have hpos : 0 < (threadsOf s.data e).ncard := (Set.ncard_pos (Set.toFinite _)).mpr ⟨t, hmem⟩
    rw [hset, Set.ncard_sdiff_singleton_of_mem hmem, ← hcount, eventChange_deletes hl ho,
      BitVec.toNat_sub, show (1 : Word).toNat = 1 from rfl]
    omega
  · have hload : ∀ t, ¬ LoadsThread e t ev := not_exists.mp hload
    have hdel : ∀ t, DeletesThread t ev → (s.data.thread t).owner ≠ e :=
      fun t hl ho => hdel ⟨t, hl, ho⟩
    have hset : threadsOf s'.data e = threadsOf s.data e := by
      ext u
      rw [hs.mem_threadsOf h hno]
      constructor
      · rintro (⟨hu, -⟩ | hu)
        · exact hu
        · exact absurd hu (hload u)
      · exact fun hu => .inl ⟨hu, fun hl => hdel u hl hu.2⟩
    rw [hset, ← hcount, eventChange_other hload hdel]

/-- Every step but an `enclave_delete` keeps the accounts. -/
theorem CarefulStep.accounted (hs : CarefulStep img s ev s') (h : SystemInv img s)
    (hno : ¬ IsEnclaveDelete ev.1) (ha : Accounted s.data) : Accounted s'.data where
  count e he' := by
    obtain ⟨L, hstep⟩ := (step_inv h hs.2 hs.1).2
    rcases hstep.records.live e he' with he | hc
    · exact hs.count_eq h hno he (ha.count e he)
    · obtain ⟨hzero, hnew, hload⟩ := hs.created h hc
      have hset : threadsOf s'.data e = ∅ := by
        refine Set.eq_empty_of_forall_notMem fun t ht => ?_
        rcases (hs.mem_threadsOf h hno).mp ht with ⟨⟨ht, ho⟩, -⟩ | hl
        · exact hnew (ho ▸ ha.owner t ht)
        · exact hload t hl
      rw [hzero, hset, Set.ncard_empty]
      rfl
  owner t ht' := by
    rcases hs.thread_origin h ht' with ht | ⟨e, hl⟩
    · rw [hs.owner_eq h ht ht']
      exact hs.enclave_kept h hno (ha.owner t ht)
    · obtain ⟨he, -, -, ho⟩ := hs.loads h hl
      rw [ho]
      exact hs.enclave_kept h hno he

theorem accounted_smInit : Accounted (smInit img boot).data where
  count _ he := absurd he (smInit_booting img boot).not_valid
  owner _ ht := absurd ht (smInit_booting img boot).not_valid

/-- **Thread accounting**: an enclave counts its threads and every thread has an enclave,
    as long as no enclave is deleted; an enclave that passes the check of `enclave_delete`
    then has no thread in any metadata region. -/
theorem thread_accounting (h : CarefulRun img boot es s) :
    (∀ ev s', CarefulStep img s ev s' → ¬ IsEnclaveDelete ev.1 → Accounted s.data → Accounted s'.data) ∧
      ∀ (d : Data N) (e : Word), Accounted d → ValidMetadata d e .enclave →
        ¬ 0 < (d.enclave e).numThreads.toInt →
          ∀ t, ValidMetadata d t .thread → (d.thread t).owner ≠ e := by
  refine ⟨fun ev s' hs hno ha => hs.accounted h.inv hno ha, fun d e ha he hn t ht ho => ?_⟩
  have hmem : t ∈ threadsOf d e := ⟨ht, ho⟩
  rw [ha.no_threads he hn] at hmem
  exact hmem

/-- A message whose word at byte 32 is the address of `num_threads` of the enclave at page 4
    of region 3. -/
def counterMessage : Bytes 256 := fun i =>
  if i = 32 then 0x08 else if i = 33 then 0x42 else if i = 35 then 0x86 else 0

/-- Core 0 deletes the thread of the first enclave, which core 1 runs, and the page of the
    thread becomes the second page of a new enclave.  Core 1 then takes a message to the new
    enclave for the state to restore. -/
def counterLabels : List (Label 2) :=
  setupLabels ++ buildLabels firstEnclave (pageAddr 3 5) 0 ++
  [callOn 1 (.enclaveEnter firstEnclave (pageAddr 3 5)), callOn 0 (.threadDelete (pageAddr 3 5)),
    callOn 1 (.regionBlock 2)] ++ freeLabels 2 ++ buildLabels (pageAddr 3 4) (pageAddr 3 6) 12 ++
  [callOn 0 (.enclaveEnter (pageAddr 3 4) (pageAddr 3 6)), callOn 0 (.mailAccept 11 ownerUntrusted),
    callOn 0 .enclaveExit, callOn 0 (.mailSend (pageAddr 3 4) 11 counterMessage), callOn 1 .enclaveExit]

set_option maxRecDepth 100000 in
theorem counter_run : ∃ es s, Runs (Step smallImage) (smInit smallImage zeroBoot) es s ∧
    (∀ e ∈ es, SizeOk e.1 ∧ ¬ IsEnclaveDelete e.1) ∧
    ValidMetadata s.data (pageAddr 3 4) .enclave ∧ (s.data.enclave (pageAddr 3 4)).numThreads = 0 ∧
    ValidMetadata s.data (pageAddr 3 6) .thread ∧ (s.data.thread (pageAddr 3 6)).owner = pageAddr 3 4 :=
  Runs.exists_of_runsOf counterLabels (by decide +kernel)

/-- After `counterLabels` the new enclave counts no thread but has one: a step other than
    `enclave_delete` has broken the accounts. -/
theorem thread_accounting_fails : ∃ es s ev s',
    Runs (Step smallImage) (smInit smallImage zeroBoot) es s ∧ Step smallImage s ev s' ∧
    (∀ e ∈ es ++ [ev], SizeOk e.1) ∧ ¬ IsEnclaveDelete ev.1 ∧ Accounted s.data ∧ ¬ Accounted s'.data := by
  obtain ⟨es, s, hr, hes, he, hzero, ht, ho⟩ := counter_run
  have hn : ¬ Accounted s.data := by
    intro ha
    have hmem : pageAddr 3 6 ∈ threadsOf s.data (pageAddr 3 4) := ⟨ht, ho⟩
    rw [ha.no_threads he (by rw [hzero]; decide)] at hmem
    exact hmem
  obtain ⟨es₁, ev, es₂, s₁, s₂, rfl, hr₁, hs, ha, hb⟩ :=
    hr.exists_break (I := fun s => Accounted s.data) accounted_smInit hn
  refine ⟨es₁, s₁, ev, s₂, hr₁, hs, fun e hmem => (hes e ?_).1, (hes ev (by simp)).2, ha, hb⟩
  rcases List.mem_append.mp hmem with hmem | hmem
  · exact List.mem_append_left _ hmem
  · obtain rfl := List.mem_singleton.mp hmem
    simp

set_option maxRecDepth 100000 in
/-- The thread that is loaded last is counted. -/
theorem thread_accounting_load : ∃ es s o s', CarefulRun smallImage zeroBoot es s ∧
    CarefulStep smallImage s (callOn 0 (.threadLoad firstEnclave firstThread 0x1000 0 0), o) s' ∧
    ValidMetadata s'.data firstThread .thread ∧ (Accounted s.data → Accounted s'.data) := by
  obtain ⟨es, s, o, s', hr, hs, ht⟩ : ∃ es s o s', CarefulRun smallImage zeroBoot es s ∧
      CarefulStep smallImage s (callOn 0 (.threadLoad firstEnclave firstThread 0x1000 0 0), o) s' ∧
      ValidMetadata s'.data firstThread .thread :=
    CarefulRun.exists_step_of_labels (setupLabels ++ (buildLabels firstEnclave firstThread 0).take 5) _
      (by decide +kernel)
  exact ⟨es, s, o, s', hr, hs, ht, (thread_accounting hr).1 _ _ hs id⟩

/-! ## Free pages -/

/-- The event creates the enclave at `e`. -/
def CreatesEnclave (e : Word) (ev : Event N) : Prop :=
  ∃ c b mask n debug ctx r, ev = (.call c (.enclaveCreate e b mask n debug) ctx, some r) ∧ r.value = 0

theorem CarefulStep.creates (hs : CarefulStep img s ev s') (h : SystemInv img s)
    (hc : CreatesEnclave e ev) : (s'.data.enclave e).numThreads = 0 ∧
      (∀ i, (s'.data.enclave e).flag i = false) ∧
      ∀ id, MailboxId s'.data e id → (mailboxOf s'.data e id).state = mailboxStateUnused := by
  obtain ⟨c, b, mask, n, debug, ctx, r, rfl, hv⟩ := hc
  obtain ⟨r', hr', -, hE⟩ := (step_call hs.1).reply
  obtain rfl := Option.some.inj hr'
  obtain ⟨hf, hd⟩ := hE hv
  have hf := hf.freeSpace_enclave h.heap hs.2
  refine ⟨?_, fun i => ?_, fun id hid => create_mailbox_state h.heap hs.2 hf hd hid⟩
  · rw [hd]
    exact (create_record h.heap hf).2.1
  · rw [hd]
    exact (newRecord_create h.heap hf).map i

theorem CarefulStep.loads_idle (hs : CarefulStep img s ev s') (h : SystemInv img s)
    (hl : LoadsThread e t ev) :
    (s'.data.thread t).isScheduled = 0 ∧ (s'.data.thread t).aexPresent = 0 := by
  have hfree := (hs.loads h hl).2.1
  obtain ⟨c, pc, sp, l, ctx, r, rfl, hv⟩ := hl
  obtain ⟨r', hr', -, hE⟩ := (step_call hs.1).reply
  obtain rfl := Option.some.inj hr'
  obtain ⟨he, -, hf, hd⟩ := hE hv
  have hp : PageStep s.data { s.data with mem := loadThread s.data.mem e t pc sp l } e t .free
      .thread := loadThread_step h.heap he (hf.freeSpace h.heap (by decide) (by decide))
  have hzero (i : ℕ) (hi : i < 4096) : s.data.mem (off t i) = 0 :=
    h.heap.free_zero hfree (mem_range_off hi (by decide))
  rw [hd, Data.thread, loadThread_threadRecord (hp.sep h.heap)]
  exact ⟨hzero 24 (by decide), hzero 568 (by decide)⟩

/-- **Free metadata pages are zero**, and new enclaves and threads start empty. -/
theorem free_pages_zero (h : CarefulRun img boot es s) :
    (∀ a, isPageAligned a = true → (addrToRegionId a).toNat < 64 →
      (s.data.regions (regionOf a)).type = .metadata → pageTag s.data a = MetadataPage.free.code →
        ∀ x ∈ range a 4096, s.data.mem x = 0) ∧
    ∀ ev s', CarefulStep img s ev s' →
      (∀ e, CreatesEnclave e ev → (s'.data.enclave e).numThreads = 0 ∧
        (∀ i, (s'.data.enclave e).flag i = false) ∧
        ∀ id, MailboxId s'.data e id → (mailboxOf s'.data e id).state = mailboxStateUnused) ∧
      ∀ e t, LoadsThread e t ev →
        (s'.data.thread t).isScheduled = 0 ∧ (s'.data.thread t).aexPresent = 0 := by
  refine ⟨fun a ha hram htype htag x hx => ?_, fun ev s' hs => ⟨fun e hc => hs.creates h.inv hc,
    fun e t hl => hs.loads_idle h.inv hl⟩⟩
  have hstate := (h.inv.regions.toMaps.metadata _ htype).1
  exact h.inv.heap.free_zero ⟨⟨ha, hram, htype, hstate⟩, htag⟩ hx

set_option maxRecDepth 100000 in
/-- The first enclave of a run and a page that is left. -/
theorem free_pages_zero_create : ∃ es s o s', CarefulRun smallImage zeroBoot es s ∧
    CarefulStep smallImage s (callOn 0 (.enclaveCreate firstEnclave 0 0 0 false), o) s' ∧
    (∀ x ∈ range firstThread 4096, s.data.mem x = 0) ∧ (s'.data.enclave firstEnclave).numThreads = 0 := by
  obtain ⟨es, s, o, s', hr, hs, htype, htag, hv⟩ : ∃ es s o s', CarefulRun smallImage zeroBoot es s ∧
      CarefulStep smallImage s (callOn 0 (.enclaveCreate firstEnclave 0 0 0 false), o) s' ∧
      (s.data.regions (regionOf firstThread)).type = .metadata ∧
      pageTag s.data firstThread = MetadataPage.free.code ∧ o.any (fun r => r.value = 0) = true :=
    CarefulRun.exists_step_of_labels setupLabels _ (by decide +kernel)
  obtain ⟨r, rfl, hv⟩ := (Option.any_eq_true _ _).mp hv
  have hcreate : CreatesEnclave firstEnclave
      (callOn 0 (.enclaveCreate firstEnclave 0 0 0 false), some r) :=
    ⟨0, 0, 0, 0, false, zeroContext, r, rfl, of_decide_eq_true hv⟩
  obtain ⟨hfree, hnew⟩ := free_pages_zero hr
  exact ⟨es, s, some r, s', hr, hs, hfree _ (by decide) (by decide) htype htag,
    ((hnew _ _ hs).1 _ hcreate).1⟩

end SecurityMonitor
