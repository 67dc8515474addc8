/-
  Running threads.

  The monitor does not check what the cores run: `enclave_delete` clears a
  metadata region without looking who runs in it (`Spares`), and `enclave_enter`
  enters a thread that another core is in (`Exclusive`).  Nothing ever sets
  `is_scheduled`.

  * `Entered`: a core that runs an enclave has entered it, and since then the
    enclave and the thread are there;
  * `incarnation_alive`: the enclave that a core runs is the one that it entered,
    with its measurement and its keys;
  * `thread_exclusive`: a thread runs on one core, and a core that leaves it gets
    back what it had when it entered.
-/
import SecurityMonitor.Mailboxes

namespace SecurityMonitor

open ByteMem

variable {N : ℕ} {img : Image N} {boot : Boot N} {s s' : Config N} {d d' : Data N} {c c' : Fin N}
  {a e t x : Word} {k : Call} {L : LockId N → Bool} {ctx : TrapContext} {ev : Event N}
  {hist : List (Config N × Event N)}

/-! ## The cores -/

theorem enterEnclave_running (img : Image N) (d : Data N) (c : Fin N) (e t : Word) (ctx : TrapContext) :
    ((enterEnclave img d c e t ctx).cores c).owner = e ∧ ((enterEnclave img d c e t ctx).cores c).thread = t ∧
      ∀ c' ≠ c, (enterEnclave img d c e t ctx).cores c' = d.cores c' := by
  have hcores : (enterEnclave img d c e t ctx).cores = Function.update d.cores c
      { d.cores c with
        owner := e
        thread := t
        memrbm := ((enterEnclave img d c e t ctx).cores c).memrbm } := by
    simp only [enterEnclave, platformMemoryProtectionEnterEnclave, platformSetEnclavePageTable,
      platformInterruptsEnterEnclave, Data.setCore, Data.setHart, Function.update_idem, Function.update_self]
  rw [hcores]
  exact ⟨by rw [Function.update_self], by rw [Function.update_self], fun c' hc => Function.update_of_ne hc _ _⟩

/-- The call does not change what core `c'` runs, or it is an entry or an exit of `c'`. -/
theorem effect_cores (hE : Effect img L c ctx d k d') (c' : Fin N) :
    (d'.cores c').owner = (d.cores c').owner ∧ (d'.cores c').thread = (d.cores c').thread ∨
      c' = c ∧ (k = .enclaveExit ∧ (d'.cores c').owner = ownerUntrusted ∨
        (d.cores c).owner = ownerUntrusted ∧
          ∃ e t, k = .enclaveEnter e t ∧ (d'.cores c').owner = e ∧ (d'.cores c').thread = t) := by
  cases k <;> simp only [Effect] at hE
  case enclaveDelete f =>
    obtain ⟨hg, rfl⟩ := hE
    have he := hg.enclave
    refine .inl ?_
    cases hf : firstRegion d f with
    | none => rw [deleteEnclave_of_none he.aligned he.inRam hf]; exact ⟨rfl, rfl⟩
    | some i => rw [deleteEnclave_of_some he.aligned he.inRam hf]; exact ⟨rfl, rfl⟩
  case enclaveEnter f t =>
    obtain ⟨hu, hg, rfl⟩ := hE
    obtain ⟨ho, ht, hother⟩ := enterEnclave_running img d c f t ctx
    by_cases hc : c' = c
    · subst hc
      exact .inr ⟨rfl, .inr ⟨hu, f, t, rfl, ho, ht⟩⟩
    · rw [hother c' hc]
      exact .inl ⟨rfl, rfl⟩
  case enclaveExit =>
    obtain ⟨-, rfl⟩ := hE
    rw [exitEnclave_cores]
    by_cases hc : c' = c
    · refine .inr ⟨hc, .inl ⟨rfl, ?_⟩⟩
      rw [hc, Function.update_self]
    · rw [Function.update_of_ne hc]
      exact .inl ⟨rfl, rfl⟩
  all_goals refine .inl ?_
  case enclaveLoadPageTable f p v l acl =>
    obtain ⟨hg, d₁, h₁, rfl⟩ := hE
    rw [(loadPageTable_frame h₁).rest]
    exact ⟨rfl, rfl⟩
  case enclaveLoadPage f p v o acl =>
    obtain ⟨hg, d₁, h₁, rfl⟩ := hE
    rw [(loadPage_frame hg.toLoadGuard h₁).rest]
    exact ⟨rfl, rfl⟩
  case mailAccept b o => rw [hE.2, acceptMail_frame.rest]; exact ⟨rfl, rfl⟩
  case mailReceive b _ _ => rw [hE.2.2, receiveMail_frame.rest]; exact ⟨rfl, rfl⟩
  case mailSend o b msg => rw [hE.2, sendMail_frame.rest]; exact ⟨rfl, rfl⟩
  case regionAssign r o => rw [hE.2]; exact assignRegion_frame.sameRunning c'
  case regionBlock r => rw [hE.2]; exact (blockRegion_frame hE.1.notSm).sameRunning c'
  case regionUpdate => rw [hE]; exact platformUpdateMemoryProtection_frame.sameRunning c'
  case regionMetadataCreate r => rw [hE.2.2.2]; exact ⟨rfl, rfl⟩
  case enclaveCreate | enclaveLoadHandler | regionCachePartitioning => rw [hE.2]; exact ⟨rfl, rfl⟩
  case enclaveInit | threadDelete => rw [hE.2.2]; exact ⟨rfl, rfl⟩
  case threadLoad => rw [hE.2.2.2]; exact ⟨rfl, rfl⟩
  all_goals
    rw [hE]
    exact ⟨rfl, rfl⟩

/-- The event is a successful entry of core `c`. -/
def EntersAt (c : Fin N) (e t : Word) (ctx : TrapContext) (ev : Event N) : Prop :=
  ∃ r, ev = (.call c (.enclaveEnter e t) ctx, some r) ∧ r.value = 0

/-- The event makes core `c` leave its enclave. -/
def LeavesAt (c : Fin N) (ev : Event N) : Prop :=
  (∃ ctx r, ev = (.call c .enclaveExit ctx, some r) ∧ r.value = 0) ∨ ∃ regs o, ev = (.timer c regs, o)

theorem aexEnclave_cores {regs : Fin 32 → Word} : (aexEnclave d c regs).cores = Function.update d.cores c
    { d.cores c with
      owner := ownerUntrusted
      thread := 0
      memrbm := (d.thread (d.cores c).thread).memrbm } := by
  rw [aexEnclave, exitEnclave_cores]
  simp only [Data.thread, threadMetadata_setAexState]

/-- A core runs what it ran, leaves, or enters an enclave. -/
theorem step_cores (hs : Step img s ev s') (c : Fin N) :
    (s'.data.cores c).owner = (s.data.cores c).owner ∧ (s'.data.cores c).thread = (s.data.cores c).thread ∨
      (s'.data.cores c).owner = ownerUntrusted ∧ LeavesAt c ev ∨
      (s.data.cores c).owner = ownerUntrusted ∧
        ∃ ctx, EntersAt c (s'.data.cores c).owner (s'.data.cores c).thread ctx ev := by
  obtain ⟨l, o⟩ := ev
  cases l with
  | call c₁ k ctx =>
    obtain ⟨r, rfl, hne, heq⟩ := (step_call hs).reply
    by_cases hv : r.value = 0
    · rcases effect_cores (heq hv) c with hsame | ⟨rfl, ⟨rfl, hu⟩ | ⟨hu, e, t, rfl, rfl, rfl⟩⟩
      · exact .inl hsame
      · exact .inr (.inl ⟨hu, .inl ⟨ctx, r, rfl, hv⟩⟩)
      · exact .inr (.inr ⟨hu, ctx, r, rfl, hv⟩)
    · rw [hne hv]; exact .inl ⟨rfl, rfl⟩
  | regionFree c₁ r => rw [(step_free hs).2.1]; exact .inl ⟨rfl, rfl⟩
  | regionFreeStep c₁ =>
    obtain ⟨p, hpend, hstep⟩ := step_freeStep hs
    cases hstep with
    | passed hn hd => rw [hd]; exact .inl ⟨rfl, rfl⟩
    | failed hd => rw [hd]; exact .inl ⟨rfl, rfl⟩
    | done hn hd => rw [hd]; exact .inl ⟨rfl, rfl⟩
  | timer c₁ regs =>
    rw [(step_timer hs).2.2.2.2, aexEnclave_cores]
    by_cases hc : c = c₁
    · rw [hc, Function.update_self]; exact .inr (.inl ⟨rfl, .inr ⟨regs, o, rfl⟩⟩)
    · rw [Function.update_of_ne hc]; exact .inl ⟨rfl, rfl⟩
  | userStore c₁ a v => rw [(step_store hs).2.2]; exact .inl ⟨rfl, rfl⟩

/-! ## Sparing steps -/

def SparingStep (img : Image N) (s : Config N) (e : Event N) (s' : Config N) : Prop :=
  CarefulStep img s e s' ∧ Spares s e.1

/-- The history of a run with sparing steps only. -/
def SparingHistory (img : Image N) (boot : Boot N) : List (Config N × Event N) → Config N → Prop :=
  Runs (Traced (SparingStep img)) (smInit img boot)

theorem SparingHistory.careful (h : SparingHistory img boot hist s) : CarefulHistory img boot hist s :=
  h.mono fun _ _ _ h => ⟨h.1, h.2.1⟩

/-- Core `c` runs the thread at `t` of the enclave at `e`, and both are there. -/
structure RunsThread (d : Data N) (c : Fin N) (e t : Word) : Prop where
  owner : (d.cores c).owner = e
  thread : (d.cores c).thread = t
  enclave : ValidMetadata d e .enclave
  live : ValidMetadata d t .thread
  member : (d.thread t).owner = e

theorem RunsThread.running (h : RunsThread d c e t) : (d.cores c).owner ≠ ownerUntrusted := by
  rw [h.owner]
  rintro rfl
  exact absurd h.enclave.aligned (by decide)

/-- A sparing step gives neither the enclave nor the thread of a core a new tag. -/
theorem SparingStep.tags (hs : SparingStep img s ev s') (h : SystemInv img s) (hr : RunsThread s.data c e t)
    (hok : ∀ c k ctx r, ev = (.call c k ctx, some r) → r.value = 0) :
    e ∉ eventTags s ev ∧ t ∉ eventTags s ev := by
  obtain ⟨l, o⟩ := ev
  obtain ⟨hcs, hspare⟩ := hs
  cases l with
  | call c₁ k ctx =>
    obtain ⟨r, rfl, -, hE⟩ := (step_call hcs.1).reply
    have hE := hE (hok _ _ _ _ rfl)
    have hcare : CallCareful s.data k := hcs.2
    have hfree {a b : Word} {kind : MetadataPage} (hv : ValidMetadata s.data a kind)
        (hk : kind ≠ .free) (hb : ValidMetadata s.data b .free) : a ≠ b := by
      rintro rfl
      exact hk (hv.tag_unique hb)
    cases k with
    | enclaveCreate f b mask n debug =>
      have hf := (hE.1.freeSpace_enclave h.heap hcare).free
      exact ⟨fun hS => hfree hr.enclave nofun (hf e hS) rfl, fun hS => hfree hr.live nofun (hf t hS) rfl⟩
    | enclaveDelete f =>
      have hg := hE.1
      have hfe : f ≠ e := by
        rintro rfl
        exact hg.not_inUse h.heap (.inl ⟨c, hr.owner⟩)
      have hspare : _ ∨ _ := hspare
      refine ⟨?_, ?_⟩
      · rintro (hin | ⟨hne, hreg⟩)
        · exact h.heap.notInExtent hg.enclave hr.enclave (by decide) hfe.symm hin
        · exact (hspare.resolve_left hne c hr.running).1 (by rw [hr.owner]; exact hreg)
      · rintro (hin | ⟨hne, hreg⟩)
        · have htf : t ≠ f := by rintro rfl; exact absurd (hr.live.tag_unique hg.enclave) (by decide)
          exact h.heap.notInExtent hg.enclave hr.live (by decide) htf hin
        · exact (hspare.resolve_left hne c hr.running).2 (by rw [hr.thread]; exact hreg)
    | threadDelete u =>
      have hut : u ≠ t := by
        rintro rfl
        exact hcare c hr.running hr.thread
      refine ⟨?_, fun htu => hut htu.symm⟩
      rintro rfl
      exact absurd (hr.enclave.tag_unique hE.1) (by decide)
    | threadLoad f u pc sp l =>
      have hf := (hE.2.2.1.freeSpace h.heap (by decide) (by decide)).free u ⟨0, by decide, by simp⟩
      exact ⟨fun heu => hfree hr.enclave nofun hf heu, fun htu => hfree hr.live nofun hf htu⟩
    | _ => exact ⟨Set.notMem_empty _, Set.notMem_empty _⟩
  | _ => exact ⟨Set.notMem_empty _, Set.notMem_empty _⟩

/-- **What a core runs stays there**, as long as the core does not leave. -/
theorem SparingStep.runsThread (hs : SparingStep img s ev s') (h : SystemInv img s)
    (hr : RunsThread s.data c e t) (hrun : (s'.data.cores c).owner ≠ ownerUntrusted) :
    RunsThread s'.data c e t := by
  have hinv' := (step_inv h hs.1.2 hs.1.1).1
  -- the core is not idle, so it does not enter
  have hcores : (s'.data.cores c).owner = e ∧ (s'.data.cores c).thread = t := by
    rcases step_cores hs.1.1 c with hsame | ⟨hu, -⟩ | ⟨hu, -⟩
    · exact ⟨hsame.1.trans hr.owner, hsame.2.trans hr.thread⟩
    · exact absurd hu hrun
    · exact absurd hu hr.running
  have htags : ValidMetadata s'.data e .enclave ∧ ValidMetadata s'.data t .thread := by
    by_cases hok : ∀ c k ctx r, ev = (.call c k ctx, some r) → r.value = 0
    · obtain ⟨he, ht⟩ := hs.tags h hr hok
      exact ⟨(step_tags h hs.1 hr.enclave.toMetadataPageAt (h.heap.slot e _ hr.enclave (by decide)) he).mpr
          hr.enclave,
        (step_tags h hs.1 hr.live.toMetadataPageAt (h.heap.slot t _ hr.live (by decide)) ht).mpr hr.live⟩
    · push Not at hok
      obtain ⟨c₁, k, ctx, r, rfl, hv⟩ := hok
      obtain ⟨r', hr', hne, -⟩ := (step_call hs.1.1).reply
      obtain rfl := Option.some.inj hr'
      rw [hne hv]
      exact ⟨hr.enclave, hr.live⟩
  refine ⟨hcores.1, hcores.2, htags.1, htags.2, ?_⟩
  have hthread := (hinv'.heap.running c hrun).2
  rw [hcores.1, hcores.2] at hthread
  rcases hthread with ⟨-, ho⟩ | hd
  · exact ho
  · exact absurd htags.2 (hd.not_valid (by decide))

/-! ## Initialised enclaves -/

/-- The metadata of an initialised enclave: its region map and the number of its threads
    may change. -/
def Frozen (E E' : EnclaveMetadata) : Prop :=
  E' = { E with regions := E'.regions, numThreads := E'.numThreads }

theorem Frozen.refl (E : EnclaveMetadata) : Frozen E E := rfl

theorem Frozen.trans {E E' E'' : EnclaveMetadata} (h : Frozen E E') (h' : Frozen E' E'') : Frozen E E'' := by
  unfold Frozen at h h' ⊢
  rw [h', h]

theorem changeRecord_frozen (hE : Effect img L c ctx d k d')
    (hi : (d.enclave e).initState = enclaveStateInitialized) :
    Frozen (d.enclave e) (changeRecord img d c e k (d.enclave e)) := by
  have hne {v : BitVec 32} (hs : (d.enclave e).initState = v) (hv : v ≠ enclaveStateInitialized) : False :=
    hv (hs.symm.trans hi)
  cases k <;> simp only [Effect] at hE <;> simp only [changeRecord]
  case enclaveInit f =>
    rw [if_neg (by rintro rfl; exact hne hE.2.1 ne_initialized.2.2.2)]; rfl
  case enclaveLoadHandler f p =>
    rw [if_neg (by rintro rfl; exact hne hE.1.state ne_initialized.1)]; rfl
  case enclaveLoadPageTable f p v l acl =>
    rw [if_neg (by
      rintro rfl
      exact hE.1.state.elim (fun hs => hne hs ne_initialized.2.1) fun hs => hne hs ne_initialized.2.2.1)]
    rfl
  case enclaveLoadPage f p v o acl =>
    rw [if_neg (by
      rintro rfl
      exact hE.1.state.elim (fun hs => hne hs ne_initialized.2.2.1) fun hs => hne hs ne_initialized.2.2.2)]
    rfl
  case threadLoad f u pc sp l =>
    rw [if_neg (by rintro rfl; exact hne hE.2.1 ne_initialized.2.2.2)]; rfl
  case threadDelete u => split_ifs <;> rfl
  case regionAssign r o => split_ifs <;> rfl
  case regionBlock r => split_ifs <;> rfl
  all_goals rfl

/-- **The metadata of an initialised enclave is frozen** as long as it exists. -/
theorem CarefulStep.frozen (hs : CarefulStep img s ev s') (h : SystemInv img s)
    (he : ValidMetadata s.data e .enclave) (he' : ValidMetadata s'.data e .enclave)
    (hi : (s.data.enclave e).initState = enclaveStateInitialized) :
    Frozen (s.data.enclave e) (s'.data.enclave e) := by
  obtain ⟨-, L, hd⟩ := step_inv h hs.2 hs.1
  rcases hd.records.record e (.inl he) (.inl he') with heq | ⟨hdead, -⟩
  · rw [heq]
    obtain ⟨l, o⟩ := ev
    cases l with
    | call c k ctx =>
      obtain ⟨r, rfl, hne, hE⟩ := (step_call hs.1).reply
      simp only [eventChange]
      split_ifs with hv
      · exact changeRecord_frozen (hE hv) hi
      · exact Frozen.refl _
    | _ => exact Frozen.refl _
  · exact absurd he' (hdead.not_valid (by decide))

/-! ## Incarnations -/

/-- With the item `x` of the history core `c` has entered the thread at `t` of the enclave at
    `e`.  Since then it runs it, and the enclave is the same. -/
structure Entered (hist : List (Config N × Event N)) (s : Config N) (c : Fin N) (e t : Word)
    (ctx : TrapContext) (x : Config N × Event N) : Prop where
  history : ∃ h₁ h₂, hist = h₁ ++ x :: h₂ ∧ ∀ y ∈ h₂, RunsThread y.1.data c e t
  enters : EntersAt c e t ctx x.2
  guard : EnterGuard x.1.data e t
  runs : RunsThread s.data c e t
  frozen : Frozen (x.1.data.enclave e) (s.data.enclave e)

theorem enter_guard (hs : Step img s ev s') (he : EntersAt c e t ctx ev) :
    EnterGuard s.data e t ∧ s'.data = enterEnclave img s.data c e t ctx := by
  obtain ⟨r, rfl, hv⟩ := he
  obtain ⟨r', hr', -, hE⟩ := (step_call hs).reply
  obtain rfl := Option.some.inj hr'
  exact (hE hv).2

/-- A core that enters. -/
theorem SparingStep.entered (hs : SparingStep img s ev s') (h : SystemInv img s)
    (he : EntersAt c e t ctx ev) : Entered (hist ++ [(s, ev)]) s' c e t ctx (s, ev) := by
  obtain ⟨hg, hd⟩ := enter_guard hs.1.1 he
  have hinv' := (step_inv h hs.1.2 hs.1.1).1
  have hcores : (s'.data.cores c).owner = e ∧ (s'.data.cores c).thread = t := by
    rw [hd, enterEnclave_cores (hg.sep h.heap).header, Function.update_self]
    exact ⟨rfl, rfl⟩
  have hagrees : AgreesOutside s.data s'.data {t} := by rw [hd]; exact enterEnclave_agrees h.heap hg
  have he' : ValidMetadata s'.data e .enclave := hagrees.valid_iff.mpr hg.enclave
  refine ⟨⟨hist, [], rfl, nofun⟩, he, hg, ⟨hcores.1, hcores.2, he', hagrees.valid_iff.mpr hg.thread, ?_⟩,
    hs.1.frozen h hg.enclave he' hg.state⟩
  rw [hd, enterEnclave_thread]
  exact hg.owner

/-- A core that runs on. -/
theorem Entered.step {y : Config N × Event N} (hx : Entered hist s c e t ctx y)
    (hs : SparingStep img s ev s') (h : SystemInv img s)
    (hrun : (s'.data.cores c).owner ≠ ownerUntrusted) : Entered (hist ++ [(s, ev)]) s' c e t ctx y := by
  obtain ⟨h₁, h₂, rfl, hbetween⟩ := hx.history
  have hr' := hs.runsThread h hx.runs hrun
  refine ⟨⟨h₁, h₂ ++ [(s, ev)], by rw [List.append_assoc]; rfl, fun z hz => ?_⟩, hx.enters, hx.guard, hr',
    hx.frozen.trans (hs.1.frozen h hx.runs.enclave hr'.enclave ?_)⟩
  · rcases List.mem_append.mp hz with hz | hz
    · exact hbetween z hz
    · rw [List.mem_singleton.mp hz]
      exact hx.runs
  · have hinit : (s.data.enclave e).initState = (y.1.data.enclave e).initState := by rw [hx.frozen]
    rw [hinit, hx.guard.state]

/-- A core that runs an enclave has entered it. -/
theorem SparingHistory.entered (h : SparingHistory img boot hist s)
    (hc : (s.data.cores c).owner ≠ ownerUntrusted) :
    ∃ ctx x, Entered hist s c (s.data.cores c).owner (s.data.cores c).thread ctx x := by
  refine (Runs.invariant_events (I := fun hist s => SystemInv img s ∧ ∀ c,
    (s.data.cores c).owner ≠ ownerUntrusted →
      ∃ ctx x, Entered hist s c (s.data.cores c).owner (s.data.cores c).thread ctx x) h
    ⟨smInit_inv img boot, fun c hc => absurd ((smInit_booting img boot).idle c) hc⟩ ?_).2 c hc
  rintro hist s ⟨_, ev⟩ s' ⟨hinv, ih⟩ ⟨rfl, hs⟩
  refine ⟨(step_inv hinv hs.1.2 hs.1.1).1, fun c hc => ?_⟩
  rcases step_cores hs.1.1 c with hsame | ⟨hu, -⟩ | ⟨-, ctx, hen⟩
  · obtain ⟨ctx, x, hx⟩ := ih c (hsame.1 ▸ hc)
    rw [hsame.1, hsame.2]
    exact ⟨ctx, x, hx.step hs hinv hc⟩
  · exact absurd hu hc
  · exact ⟨ctx, _, hs.entered hinv hen⟩

theorem Frozen.keysOf {E E' : EnclaveMetadata} (h : Frozen E E') (m pk sk a : Word) :
    keysOf E' m pk sk a = keysOf E m pk sk a := by rw [h]; rfl

/-- **The incarnation that a core runs is the one that it entered**: its enclave cannot be
    deleted, and the core uses its keys and its measurement. -/
theorem incarnation_alive (h : SparingHistory img boot hist s)
    (hc : (s.data.cores c).owner ≠ ownerUntrusted) :
    ∃ ctx x, Entered hist s c (s.data.cores c).owner (s.data.cores c).thread ctx x ∧
      (∀ c' ctx' r s', Step img s (.call c' (.enclaveDelete (s.data.cores c).owner) ctx', some r) s' →
        r.value ≠ 0) ∧
      (∀ m pk sk a ctx' r s', Step img s (.call c (.enclaveGetKeys m pk sk a) ctx', some r) s' →
        r.value = 0 → r.outputs = keysOf (x.1.data.enclave (s.data.cores c).owner) m pk sk a) ∧
      ∀ o id msg ctx' r s', Step img s (.call c (.mailSend o id msg) ctx', some r) s' → r.value = 0 →
        (mailboxOf s'.data o id).senderMeasurement =
          (x.1.data.enclave (s.data.cores c).owner).measurement := by
  have hinv := h.careful.run.inv
  obtain ⟨ctx, x, hx⟩ := h.entered hc
  refine ⟨ctx, x, hx, fun c' ctx' r s' hs hr => ?_, fun m pk sk a ctx' r s' hs hr => ?_,
    fun o id msg ctx' r s' hs hr => ?_⟩
  · obtain ⟨r', hr', -, hE⟩ := (step_call hs).reply
    obtain rfl := Option.some.inj hr'
    exact (hE hr).1.not_inUse hinv.heap (.inl ⟨c, rfl⟩)
  · rw [← hx.frozen.keysOf]
    exact (step_call hs).copies r rfl hr
  · obtain ⟨r', hr', -, hE⟩ := (step_call hs).reply
    obtain rfl := Option.some.inj hr'
    rw [(hE hr).2, mailboxOf_sendMail]
    show senderMeasurementOf s.data (s.data.cores c).owner = _
    rw [senderMeasurementOf, if_neg hc, hx.frozen]

/-- Sparing runs, from a list of labels. -/
theorem SparingHistory.exists_of_labels (ls : List (Label N))
    {P : List (Config N × Event N) → Config N → Prop} [∀ hist s, Decidable (P hist s)]
    (h : (historyOf (restrict Spares (carefulExec img)) (smInit img boot) ls).any
      (fun r => decide (P r.1 r.2)) = true) : ∃ hist s, SparingHistory img boot hist s ∧ P hist s := by
  obtain ⟨hist, s, hr, hp⟩ := Runs.exists_of_historyOf ls h
  refine ⟨hist, s, hr.mono fun s x s' h => ⟨h.1, ?_⟩, hp⟩
  obtain ⟨hspares, hexec⟩ := restrict_eq_some.mp h.2
  exact ⟨carefulStep_of_exec hexec, hspares⟩

def enterLabels : List (Label 2) := setupLabels ++ buildLabels firstEnclave firstThread 0 ++
  [callOn 1 (.enclaveEnter firstEnclave firstThread)]

set_option maxRecDepth 100000 in
/-- Core 1 enters an enclave. -/
theorem incarnation_alive_enter : ∃ hist s ctx x, SparingHistory smallImage zeroBoot hist s ∧
    Entered hist s 1 firstEnclave firstThread ctx x := by
  obtain ⟨hist, s, h, ho, ht⟩ : ∃ hist s, SparingHistory smallImage zeroBoot hist s ∧
      (s.data.cores 1).owner = firstEnclave ∧ (s.data.cores 1).thread = firstThread :=
    SparingHistory.exists_of_labels enterLabels (by decide +kernel)
  obtain ⟨ctx, x, hx, -⟩ := incarnation_alive (c := 1) h (by rw [ho]; decide)
  rw [ho, ht] at hx
  exact ⟨hist, s, ctx, x, h, hx⟩

/-- Core 0 deletes the enclave that core 1 runs and makes another one, with a mailbox, at
    the same address. -/
def reuseLabels : List (Label 2) :=
  [callOn 1 (.regionBlock 2), callOn 0 (.enclaveDelete firstEnclave)] ++ freeLabels 2 ++
    buildLabels firstEnclave firstThread 1

set_option maxRecDepth 100000 in
/-- The thread that core 1 runs can be deleted, and after `reuseLabels` core 1 runs on as
    another enclave. -/
theorem incarnation_alive_fails : ∃ es s o s',
    Runs (Step smallImage) (smInit smallImage zeroBoot) es s ∧
    Step smallImage s (callOn 0 (.threadDelete firstThread), o) s' ∧
    ((s.data.cores 1).owner = firstEnclave ∧ (s.data.cores 1).thread = firstThread ∧
      (s.data.enclave firstEnclave).numMailboxes = 0 ∧ o.map Reply.value = some 0) ∧
    ∃ hist s'', Runs (Traced (Step smallImage)) s' hist s'' ∧
      (∀ x ∈ hist, (x.1.data.cores 1).owner = firstEnclave ∧ (x.1.data.cores 1).thread = firstThread) ∧
      (s''.data.cores 1).owner = firstEnclave ∧ (s''.data.enclave firstEnclave).numMailboxes = 1 ∧
      (s''.data.enclave firstEnclave).initState = enclaveStateInitialized := by
  obtain ⟨es, s, o, s', hr, hs, hbefore, hafter⟩ : ∃ es s o s',
      Runs (Step smallImage) (smInit smallImage zeroBoot) es s ∧
      Step smallImage s (callOn 0 (.threadDelete firstThread), o) s' ∧
      ((s.data.cores 1).owner = firstEnclave ∧ (s.data.cores 1).thread = firstThread ∧
        (s.data.enclave firstEnclave).numMailboxes = 0 ∧ o.map Reply.value = some 0) ∧
      (historyOf (exec smallImage) s' reuseLabels).any (fun r => decide
        ((∀ x ∈ r.1, (x.1.data.cores 1).owner = firstEnclave ∧
          (x.1.data.cores 1).thread = firstThread) ∧
        (r.2.data.cores 1).owner = firstEnclave ∧ (r.2.data.enclave firstEnclave).numMailboxes = 1 ∧
        (r.2.data.enclave firstEnclave).initState = enclaveStateInitialized)) = true :=
    Runs.exists_step_of_runsOf enterLabels _ (by decide +kernel)
  exact ⟨es, s, o, s', hr, hs, hbefore, Runs.exists_of_historyOf reuseLabels hafter⟩

/-! ## Exclusive threads -/

def ExclusiveStep (img : Image N) (s : Config N) (e : Event N) (s' : Config N) : Prop :=
  SparingStep img s e s' ∧ Exclusive s e.1

/-- The history of a run in which every thread is entered by one core at a time. -/
def ExclusiveHistory (img : Image N) (boot : Boot N) : List (Config N × Event N) → Config N → Prop :=
  Runs (Traced (ExclusiveStep img)) (smInit img boot)

/-- The threads of different cores are different. -/
def DistinctThreads (d : Data N) : Prop :=
  ∀ c c', c ≠ c' → (d.cores c).owner ≠ ownerUntrusted → (d.cores c').owner ≠ ownerUntrusted →
    (d.cores c).thread ≠ (d.cores c').thread

theorem ExclusiveStep.distinct (hs : ExclusiveStep img s ev s') (hd : DistinctThreads s.data) :
    DistinctThreads s'.data := by
  -- a core that enters does not enter a thread that is running
  have hentry {c : Fin N} {e t : Word} {ctx : TrapContext} (hen : EntersAt c e t ctx ev) :
      NotRunning s.data t := by
    obtain ⟨r, rfl, -⟩ := hen
    exact hs.2
  have hsame {c c' : Fin N} {ctx ctx' : TrapContext} {e e' t t' : Word} (hen : EntersAt c e t ctx ev)
      (hen' : EntersAt c' e' t' ctx' ev) : c = c' := by
    obtain ⟨r, rfl, -⟩ := hen
    obtain ⟨r', heq, -⟩ := hen'
    cases heq
    rfl
  intro c c' hne hc hc'
  rcases step_cores hs.1.1.1 c with ⟨ho, ht⟩ | ⟨hu, -⟩ | ⟨-, ctx, hen⟩
  · rcases step_cores hs.1.1.1 c' with ⟨ho', ht'⟩ | ⟨hu', -⟩ | ⟨-, ctx', hen'⟩
    · rw [ho] at hc
      rw [ho'] at hc'
      rw [ht, ht']
      exact hd c c' hne hc hc'
    · exact absurd hu' hc'
    · rw [ho] at hc
      rw [ht]
      exact hentry hen' c hc
  · exact absurd hu hc
  · rcases step_cores hs.1.1.1 c' with ⟨ho', ht'⟩ | ⟨hu', -⟩ | ⟨-, ctx', hen'⟩
    · rw [ho'] at hc'
      rw [ht']
      exact (hentry hen c' hc').symm
    · exact absurd hu' hc'
    · exact absurd (hsame hen hen') hne

/-- A thread has no page of the domain that a mail call is about. -/
theorem thread_notInExtent {o : Word} (ht : ValidMetadata d t .thread) (h : HeapInv img d)
    (ho : o = ownerUntrusted ∨ EnclaveOrDead d o) : ¬ InExtent d o t := fun hin => by
  rcases ho with rfl | hv | hd
  · obtain ⟨i, -, hi⟩ := hin
    have ht := (isPageAligned_iff t).mp ht.aligned
    rw [hi, off_toNat, pageSize, show ownerUntrusted.toNat = 1 from rfl] at ht
    omega
  · exact h.notInExtent hv ht (by decide) (EnclaveOrDead.ne_of_thread (.inl hv) ht).symm hin
  · obtain ⟨i, hi, hti⟩ := hin
    rw [extentPages, Data.enclave, (h.dead _ hd).numMailboxes] at hi
    have hi0 : i = 0 := by
      have : (enclaveMetadataPages 0).toNat = 1 := by decide
      omega
    rw [hi0, Nat.mul_zero, off_zero] at hti
    exact EnclaveOrDead.ne_of_thread (.inr hd) ht hti.symm

/-- The calls that touch the page of the thread at `t`. -/
inductive TouchesThread (d : Data N) (c : Fin N) (t : Word) : Call → Prop
  | enter (e : Word) : TouchesThread d c t (.enclaveEnter e t)
  | exit (hu : (d.cores c).owner ≠ ownerUntrusted) (ht : (d.cores c).thread = t) :
      TouchesThread d c t .enclaveExit
  | delete : TouchesThread d c t (.threadDelete t)
  | clear (e : Word) (hne : firstRegion d e ≠ none) (hr : regionOf t = regionOf e) :
      TouchesThread d c t (.enclaveDelete e)

theorem touches_thread (h : HeapInv img d) (hcare : CallCareful d k) (hE : Effect img L c ctx d k d')
    (ht : ValidMetadata d t .thread) (hT : t ∈ touchedPages d c k) : TouchesThread d c t k := by
  have hne {f : Word} (hf : EnclaveOrDead d f) (htf : t = f) : False := hf.ne_of_thread ht htf.symm
  have hfree {f : Word} (hf : ValidMetadata d f .free) (htf : t = f) : False :=
    absurd (ht.tag_unique (htf.symm ▸ hf : ValidMetadata d t .free)) (by decide)
  have howner {f : Word} (hf : f ≠ ownerUntrusted → ValidMetadata d f .enclave) (htf : t = f) : False := by
    by_cases hu : f = ownerUntrusted
    · exact absurd (hu ▸ htf ▸ ht.aligned) (by decide)
    · exact hne (.inl (hf hu)) htf
  cases k <;> simp only [Effect] at hE
  case enclaveCreate f b mask n debug =>
    exact (hfree ((hE.1.freeSpace_enclave h hcare).free t hT) rfl).elim
  case enclaveDelete f =>
    rcases hT with hin | ⟨hnone, hreg⟩
    · exact absurd hin (thread_notInExtent ht h (.inr (.inl hE.1.enclave)))
    · exact .clear f hnone hreg
  case enclaveEnter f u =>
    obtain rfl : t = u := hT
    exact .enter f
  case enclaveExit => exact .exit hE.1 (Eq.symm hT)
  case enclaveInit f => exact (hne (.inl hE.1) hT).elim
  case enclaveLoadHandler f p => exact (hne (.inl hE.1.enclave) hT).elim
  case enclaveLoadPageTable f p v l acl => exact (hne (.inl hE.1.enclave) hT).elim
  case enclaveLoadPage f p v o acl => exact (hne (.inl hE.1.enclave) hT).elim
  case mailAccept b o => exact absurd hT (thread_notInExtent ht h (h.mailOwner c))
  case mailReceive b _ _ => exact absurd hT (thread_notInExtent ht h (h.mailOwner c))
  case mailSend o b msg =>
    exact absurd hT (thread_notInExtent ht h (or_iff_not_imp_left.mpr fun hu => .inl (hE.1.enclave hu).1))
  case regionAssign r o => exact (howner hE.1.enclave hT).elim
  case regionBlock r => exact (howner (hE.1.owner ▸ hE.1.enclave) hT).elim
  case threadDelete u =>
    rcases hT with htu | hto
    · obtain rfl : t = u := htu
      exact .delete
    · exact (hne (h.thread u hE.1).1 hto).elim
  case threadLoad f u pc sp l =>
    rcases hT with htu | hte
    · exact (hfree ((hE.2.2.1.freeSpace h (by decide) (by decide)).free u ⟨0, by decide, by simp⟩) htu).elim
    · exact (hne (.inl hE.1) hte).elim
  all_goals exact absurd hT (Set.notMem_empty t)

/-- Another core does not touch the page of a running thread. -/
theorem ExclusiveStep.untouched (hs : ExclusiveStep img s ev s') (h : SystemInv img s)
    (hd : DistinctThreads s.data) (hr : RunsThread s.data c e t)
    (hrun : (s'.data.cores c).owner ≠ ownerUntrusted)
    (hok : ∀ c k ctx r, ev = (.call c k ctx, some r) → r.value = 0) : t ∉ eventPages s ev := by
  have htags := (hs.1.tags h hr hok).2
  -- a core that leaves is another core, with another thread
  have hleaves {c₁ : Fin N} (hu : (s.data.cores c₁).owner ≠ ownerUntrusted)
      (hu' : (s'.data.cores c₁).owner = ownerUntrusted) : (s.data.cores c₁).thread ≠ t := by
    have hcc : c₁ ≠ c := by rintro rfl; exact hrun hu'
    rw [← hr.thread]
    exact hd c₁ c hcc hu hr.running
  obtain ⟨l, o⟩ := ev
  cases l with
  | call c₁ k ctx =>
    obtain ⟨r, rfl, -, hE⟩ := (step_call hs.1.1.1).reply
    have hE := hE (hok _ _ _ _ rfl)
    intro hT
    cases touches_thread h.heap hs.1.1.2 hE hr.live hT with
    | enter f => exact hs.2 c hr.running hr.thread
    | exit hu ht => exact hleaves hu (by rw [hE.2, exitEnclave_cores, Function.update_self]) ht
    | delete => exact htags rfl
    | clear f hne hreg => exact htags (.inr ⟨hne, hreg⟩)
  | timer c₁ regs =>
    obtain ⟨-, hu, -, -, hd'⟩ := step_timer hs.1.1.1
    exact fun ht => hleaves hu (by rw [hd', aexEnclave_cores, Function.update_self]) (Eq.symm ht)
  | _ => exact Set.notMem_empty t

/-- **The saved state of a running thread is kept**, as long as its core does not leave. -/
theorem ExclusiveStep.thread_eq (hs : ExclusiveStep img s ev s') (h : SystemInv img s)
    (hd : DistinctThreads s.data) (hr : RunsThread s.data c e t)
    (hrun : (s'.data.cores c).owner ≠ ownerUntrusted) : s'.data.thread t = s.data.thread t := by
  by_cases hok : ∀ c k ctx r, ev = (.call c k ctx, some r) → r.value = 0
  · exact (step_pages h hs.1.1 hr.live.toMetadataPageAt (h.heap.slot t _ hr.live (by decide))
      (hs.untouched h hd hr hrun hok)).thread_eq
  · push Not at hok
    obtain ⟨c₁, k, ctx, r, rfl, hv⟩ := hok
    obtain ⟨r', hr', hne, -⟩ := (step_call hs.1.1.1).reply
    obtain rfl := Option.some.inj hr'
    rw [hne hv]

/-! ### What an exit restores -/

/-- The control registers of a core that leaves, from those `h₀` that it had when it entered
    in the context `ctx`, and those `h` that it has now. -/
def restoredHart (img : Image N) (h₀ : Hart) (ctx : TrapContext) (h : Hart) : Hart :=
  { h with
    mstatus := mstatusForSMode h.mstatus
    mevbase := h₀.mevbase
    mevmask := h₀.mevmask
    memrbm := h₀.memrbm
    meparbase := h₀.meparbase
    meparmask := h₀.meparmask
    meatp := h₀.meatp
    mie := h₀.mie
    mideleg := h₀.mideleg
    medeleg := h₀.medeleg
    mepc := ctx.mepc
    mtvec := img.trapVectorFromUntrusted &&& ~~~3
    regs := ctx.regs }

/-- The registers that an exit pops are those that it pushed. -/
theorem pushUntrustedState_regs {m : Mem} {sp : Word}
    (hsep : ∀ x ∈ range (off t 40) 256, x ∉ range sp integerContextSize) :
    (pushUntrustedState m t sp).loadWords sp 32 = m.loadWords (off t 40) 32 := by
  have hloop (j : Fin 32) : ∀ (l : List (Fin 32)) (m : Mem), (l.foldl
      (fun m (i : Fin 32) => m.store64 (off sp (8 * i)) (m.load64 (off t (40 + 8 * i)))) m).load64
        (off sp (8 * j)) = if j ∈ l then m.load64 (off t (40 + 8 * j)) else m.load64 (off sp (8 * j)) := by
    intro l
    induction l with
    | nil => intro m; rfl
    | cons i l ih =>
      intro m
      have hj := j.isLt
      have hi := i.isLt
      rw [List.foldl_cons, ih]
      have hsaved : (m.store64 (off sp (8 * i)) (m.load64 (off t (40 + 8 * i)))).load64 (off t (40 + 8 * j)) =
          m.load64 (off t (40 + 8 * j)) := by
        refine Mem.load64_fill fun x hx hx' => hsep x ?_ (range_off_sub (by
          rw [integerContextSize]; omega) (by decide) hx')
        rw [← off_off] at hx
        exact range_off_sub (by omega) (by decide) hx
      by_cases hji : j = i
      · subst hji
        rw [hsaved, Mem.load64_store64]
        simp
      · have hval : j.val ≠ i.val := fun hv => hji (Fin.ext hv)
        have hother : (m.store64 (off sp (8 * i)) (m.load64 (off t (40 + 8 * i)))).load64 (off sp (8 * j)) =
            m.load64 (off sp (8 * j)) := Mem.load64_fill (sep_off (by omega) (by omega) (by omega))
        rw [hsaved, hother]
        simp [hji]
  funext j
  rw [Mem.loadWords, pushUntrustedState, hloop j, if_pos (List.mem_finRange j), Mem.loadWords, off_off]

theorem exitEnclave_restores {aex : Bool} {h₀ : Hart} (h : HeapInv img d) (hm : MonitorRegion d)
    (hu : (d.cores c).owner ≠ ownerUntrusted)
    (hsaved : exitHart d c (d.thread (d.cores c).thread).untrustedState =
      restoredHart img h₀ ctx (d.harts c)) :
    (exitEnclave d c aex).harts c = restoredHart img h₀ ctx (d.harts c) := by
  have ht := (h.running c hu).2
  have hs := h.slot_thread ht
  have hsep : ∀ x ∈ range (off (d.cores c).thread 40) 256,
      x ∉ range (d.thread (d.cores c).thread).untrustedFaultSp integerContextSize := fun x hx => by
    obtain ⟨hr, hreg⟩ := hs.region_of_mem (range_off_sub (by decide) (by decide) hx)
    exact h.stack_notMem ht hm ht.page hr hreg
  have hregs : (Thread.setAexPresent d.mem (d.cores c).thread aex).loadWords (off (d.cores c).thread 40) 32 =
      (d.thread (d.cores c).thread).untrustedState := by
    rw [Thread.setAexPresent, Mem.store8, loadWords_fill_off (by decide) (by decide) (by decide)]
    rfl
  rw [exitEnclave_eq]
  dsimp only
  rw [Function.update_self, pushUntrustedState_regs hsep, hregs]
  exact hsaved

/-- The thread at `t` holds what core `c` saved when it entered the enclave at `e` from `d₀`. -/
def SavedAt (img : Image N) (d₀ : Data N) (c : Fin N) (e t : Word) (ctx : TrapContext) (d : Data N) : Prop :=
  ∃ regs p, d.thread t =
    { (enterEnclave img d₀ c e t ctx).thread t with aexState := regs, aexPresent := p }

theorem SavedAt.restores {d₀ : Data N} {aex : Bool} (hy : SavedAt img d₀ c e (d.cores c).thread ctx d)
    (h : HeapInv img d) (hm : MonitorRegion d) (hu : (d.cores c).owner ≠ ownerUntrusted) :
    (exitEnclave d c aex).harts c = restoredHart img (d₀.harts c) ctx (d.harts c) := by
  refine exitEnclave_restores h hm hu ?_
  obtain ⟨regs, p, hT⟩ := hy
  rw [exitHart, hT, enterEnclave_thread]
  rfl

/-- A core that leaves gets back what its thread holds. -/
theorem SavedAt.leaves {d₀ : Data N} (hy : SavedAt img d₀ c e (s.data.cores c).thread ctx s.data)
    (h : SystemInv img s) (hs : Step img s ev s') (hl : LeavesAt c ev)
    (hu : (s.data.cores c).owner ≠ ownerUntrusted) :
    s'.data.harts c = restoredHart img (d₀.harts c) ctx (s.data.harts c) := by
  rcases hl with ⟨ctx', r, rfl, hv⟩ | ⟨regs, o, rfl⟩
  · obtain ⟨r', hr', -, hE⟩ := (step_call hs).reply
    obtain rfl := Option.some.inj hr'
    rw [(hE hv).2]
    exact hy.restores h.heap h.regions.monitorRegion hu
  · obtain ⟨-, -, -, -, hd⟩ := step_timer hs
    obtain ⟨d₁, hsave, heq⟩ := aexEnclave_eq h.heap hu regs
    obtain ⟨regs', p, hT⟩ := hy
    have hm₁ : MonitorRegion d₁ := by rw [MonitorRegion, hsave.same.regions]; exact h.regions.monitorRegion
    have hy₁ : SavedAt img d₀ c e (d₁.cores c).thread ctx d₁ :=
      ⟨regs, p, by rw [hsave.same.cores, hsave.thread, hT]⟩
    rw [hd, heq, hy₁.restores hsave.records.heap hm₁ (by rw [hsave.same.cores]; exact hu), hsave.same.harts]

/-- The thread that core `c` runs holds what was saved when `c` entered with the item `x`. -/
def HoldsSaved (img : Image N) (d : Data N) (c : Fin N) (ctx : TrapContext)
    (x : Config N × Event N) : Prop :=
  ∃ regs, d.thread (d.cores c).thread =
    { (enterEnclave img x.1.data c (d.cores c).owner (d.cores c).thread ctx).thread (d.cores c).thread with
      aexState := regs }

theorem HoldsSaved.savedAt {y : Config N × Event N} (hy : HoldsSaved img d c ctx y) :
    SavedAt img y.1.data c (d.cores c).owner (d.cores c).thread ctx d :=
  hy.imp fun _ hT => ⟨_, hT⟩

/-- A core that runs an enclave has entered it, and its thread holds what was saved then. -/
def EnteredSaved (img : Image N) (hist : List (Config N × Event N)) (s : Config N) (c : Fin N) : Prop :=
  ∃ ctx x, Entered hist s c (s.data.cores c).owner (s.data.cores c).thread ctx x ∧
    HoldsSaved img s.data c ctx x

theorem ExclusiveHistory.saved (h : ExclusiveHistory img boot hist s) :
    SystemInv img s ∧ DistinctThreads s.data ∧
      ∀ c, (s.data.cores c).owner ≠ ownerUntrusted → EnteredSaved img hist s c := by
  refine Runs.invariant_events (I := fun hist s => SystemInv img s ∧ DistinctThreads s.data ∧
    ∀ c, (s.data.cores c).owner ≠ ownerUntrusted → EnteredSaved img hist s c) h
    ⟨smInit_inv img boot, fun c _ _ hc => absurd ((smInit_booting img boot).idle c) hc,
      fun c hc => absurd ((smInit_booting img boot).idle c) hc⟩ ?_
  rintro hist s ⟨s₀, ev⟩ s' ⟨hinv, hdist, ih⟩ ⟨heq, hs⟩
  obtain rfl : s₀ = s := heq
  refine ⟨(step_inv hinv hs.1.1.2 hs.1.1.1).1, hs.distinct hdist, fun c hc => ?_⟩
  rcases step_cores hs.1.1.1 c with hsame | ⟨hu, -⟩ | ⟨-, ctx, hen⟩
  · obtain ⟨ctx, x, hx, regs, hT⟩ := ih c (hsame.1 ▸ hc)
    refine ⟨ctx, x, ?_, regs, ?_⟩
    · rw [hsame.1, hsame.2]
      exact hx.step hs.1 hinv hc
    · rw [hsame.1, hsame.2, hs.thread_eq hinv hdist hx.runs hc, hT]
  · exact absurd hu hc
  · refine ⟨ctx, _, hs.1.entered hinv hen, (s'.data.thread (s'.data.cores c).thread).aexState, ?_⟩
    dsimp only
    rw [← (enter_guard hs.1.1.1 hen).2]

/-- **A thread runs on one core**, and when a core leaves it, it gets back the registers, the
    pc and the control registers of its own last entry. -/
theorem thread_exclusive (h : ExclusiveHistory img boot hist s) :
    DistinctThreads s.data ∧
      ∀ c ev s', ExclusiveStep img s ev s' → (s.data.cores c).owner ≠ ownerUntrusted →
        (s'.data.cores c).owner = ownerUntrusted →
        ∃ ctx x, Entered hist s c (s.data.cores c).owner (s.data.cores c).thread ctx x ∧
          s'.data.harts c = restoredHart img (x.1.data.harts c) ctx (s.data.harts c) := by
  obtain ⟨hinv, hdist, hsaved⟩ := h.saved
  refine ⟨hdist, fun c ev s' hs hu hu' => ?_⟩
  obtain ⟨ctx, x, hx, hy⟩ := hsaved c hu
  rcases step_cores hs.1.1.1 c with ⟨ho, -⟩ | ⟨-, hl⟩ | ⟨hidle, -⟩
  · exact absurd (ho.symm.trans hu') hu
  · exact ⟨ctx, x, hx, hy.savedAt.leaves hinv hs.1.1.1 hl hu⟩
  · exact absurd hidle hu

set_option maxRecDepth 100000 in
/-- Core 1 enters an enclave and leaves it. -/
theorem thread_exclusive_exit : ∃ hist s o s' ctx x, ExclusiveHistory smallImage zeroBoot hist s ∧
    ExclusiveStep smallImage s (callOn 1 .enclaveExit, o) s' ∧
    Entered hist s 1 firstEnclave firstThread ctx x ∧
    s'.data.harts 1 = restoredHart smallImage (x.1.data.harts 1) ctx (s.data.harts 1) := by
  obtain ⟨es, s, o, s', hr, he, ho, ht, ho'⟩ : ∃ es s o s',
      Runs (fun s (e : Event 2) s' =>
          restrict Exclusive (restrict Spares (carefulExec smallImage)) s e.1 = some (e.2, s'))
        (smInit smallImage zeroBoot) es s ∧
      restrict Exclusive (restrict Spares (carefulExec smallImage)) s (callOn 1 .enclaveExit) = some (o, s') ∧
      (s.data.cores 1).owner = firstEnclave ∧ (s.data.cores 1).thread = firstThread ∧
      (s'.data.cores 1).owner = ownerUntrusted :=
    Runs.exists_step_of_runsOf enterLabels _ (by decide +kernel)
  have hstep {s s' : Config 2} {e : Event 2}
      (h : restrict Exclusive (restrict Spares (carefulExec smallImage)) s e.1 = some (e.2, s')) :
      ExclusiveStep smallImage s e s' := by
    obtain ⟨hexcl, h⟩ := restrict_eq_some.mp h
    obtain ⟨hspares, h⟩ := restrict_eq_some.mp h
    exact ⟨⟨carefulStep_of_exec h, hspares⟩, hexcl⟩
  obtain ⟨hist, hh, -⟩ := (hr.mono fun _ _ _ => hstep).traced
  have hs : ExclusiveStep smallImage s (callOn 1 .enclaveExit, o) s' := hstep he
  obtain ⟨ctx, x, hx, hhart⟩ := (thread_exclusive hh).2 1 _ s' hs (by rw [ho]; decide) ho'
  rw [ho, ht] at hx
  exact ⟨hist, s, o, s', ctx, x, hh, hs, hx, hhart⟩

/-- The pc with which core `c` calls the monitor. -/
def callPc (c : Fin N) : Label N → Option Word
  | .call c' _ ctx => if c' = c then some ctx.mepc else none
  | _ => none

set_option maxRecDepth 100000 in
/-- Core 0 enters the thread that core 1 runs, and core 1 leaves with the pc of core 0. -/
theorem thread_exclusive_fails : ∃ es s o s',
    Runs (Step smallImage) (smInit smallImage zeroBoot) es s ∧
    Step smallImage s (callOn 1 .enclaveExit, o) s' ∧ (∀ e ∈ es, SizeOk e.1) ∧
    (s.data.cores 0).owner = firstEnclave ∧ (s.data.cores 1).owner = firstEnclave ∧
    (s.data.cores 0).thread = (s.data.cores 1).thread ∧
    (∀ e ∈ es, callPc 1 e.1 ≠ some 0x1234) ∧ (s'.data.harts 1).mepc = 0x1234 :=
  Runs.exists_step_of_runsOf (enterLabels ++
    [.call 0 (.enclaveEnter firstEnclave firstThread) ⟨fun _ => 0, 0x1234, 0⟩]) _ (by decide +kernel)

end SecurityMonitor
