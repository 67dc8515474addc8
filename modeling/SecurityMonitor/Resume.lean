/-
  What an enclave finds after an entry (`src/api/enclave_enter.c`,
  `platform/platform_clean_core.S`).

  The timer interrupt saves the registers of the enclave in its thread, and
  `enclave_enter` copies them to the trap frame (`aex_frame`).  But the entry ends
  with a piece of assembly that does not restore the frame: it loads the entry
  stack pointer, clears all other registers, and returns to `MEPC`, which holds
  the entry point.

  * `enterStub`: that piece of assembly, on the registers;
  * `resume_iff`: an interrupted enclave resumes where it was if and only if it
    was in the state of a fresh entry; every entry is a fresh one.
-/
import SecurityMonitor.Threads

namespace SecurityMonitor

open ByteMem

variable {N : ℕ} {img : Image N} {boot : Boot N} {s s' s₀ s₁ s₂ s₃ : Config N} {d d' : Data N} {c c₀ : Fin N}
  {e t x : Word} {ctx : TrapContext} {ev : Event N} {hist : List (Config N × Event N)}
  {es : List (Event N)} {regs : Fin 32 → Word} {o : Option Reply} {r : Reply}

/-! ## The end of an entry -/

/-- `platform_clean_core`: `x0`, `ra` and `sp` are left. -/
def platformCleanCore (x : Fin 32 → Word) : Fin 32 → Word := fun i => if i.val < 3 then x i else 0

/-- The last instructions of `enclave_enter`, from the registers `x`.  The calls in between
    write `ra`, which is cleared after them. -/
def enterStub (entrySp : Word) (x : Fin 32 → Word) : Fin 32 → Word :=
  let x := Function.update x 2 entrySp
  let x := platformCleanCore x
  Function.update x 1 0

/-- The registers and the pc of the software on a core. -/
structure UserState where
  regs : Fin 32 → Word
  pc : Word

/-- The state in which core `c` enters the thread at `t`, when the registers of the monitor
    are `x` at the end of the call. -/
def entryState (d : Data N) (c : Fin N) (t : Word) (x : Fin 32 → Word) : UserState where
  regs := enterStub (d.thread t).entrySp x
  pc := (d.harts c).mepc

/-- The registers other than `x0`, and the pc, are the same. -/
def UserState.Same (u v : UserState) : Prop := (∀ i, i ≠ 0 → u.regs i = v.regs i) ∧ u.pc = v.pc

/-- The state of a fresh entry. -/
def freshState (T : ThreadMetadata) : UserState where
  regs := fun i => if i = 2 then T.entrySp else 0
  pc := T.entryPc

theorem UserState.Same.symm {u v : UserState} (h : u.Same v) : v.Same u :=
  ⟨fun i hi => (h.1 i hi).symm, h.2.symm⟩

theorem UserState.Same.trans {u v w : UserState} (h : u.Same v) (h' : v.Same w) : u.Same w :=
  ⟨fun i hi => (h.1 i hi).trans (h'.1 i hi), h.2.trans h'.2⟩

theorem enterStub_apply (sp : Word) (x : Fin 32 → Word) {i : Fin 32} (hi : i ≠ 0) :
    enterStub sp x i = if i = 2 then sp else 0 := by
  have h0 : i.val ≠ 0 := fun h => hi (Fin.ext h)
  by_cases h1 : i = 1
  · subst h1
    simp [enterStub]
  · have h1' : i.val ≠ 1 := fun h => h1 (Fin.ext h)
    by_cases h2 : i = 2
    · subst h2
      simp [enterStub, platformCleanCore]
    · have h2' : i.val ≠ 2 := fun h => h2 (Fin.ext h)
      simp [enterStub, platformCleanCore, h1, h2, show ¬ i.val < 3 by omega]

/-- Different pages have no byte in common. -/
theorem page_disjoint (he : MetadataPageAt d e) (ht : MetadataPageAt d t) (hne : e ≠ t)
    (hx : x ∈ range e 4096) : x ∉ range t 4096 := fun hxt => by
  have hval : e.toNat ≠ t.toNat := fun h => hne (BitVec.eq_of_toNat_eq h)
  have hea := (isPageAligned_iff e).mp he.aligned
  have hta := (isPageAligned_iff t).mp ht.aligned
  have her := (addrToRegionId_lt e).mp he.inRam
  have htr := (addrToRegionId_lt t).mp ht.inRam
  rw [pageSize] at hea hta
  rw [mem_range_iff (by omega)] at hx hxt
  omega

theorem EnterGuard.header_notMem (hg : EnterGuard d e t) : ∀ x ∈ header e, x ∉ threadBytes t := by
  intro x hx hxt
  have hne : e ≠ t := EnclaveOrDead.ne_of_thread (.inl hg.enclave) hg.thread
  exact page_disjoint hg.enclave.toMetadataPageAt hg.thread.toMetadataPageAt hne (header_subset e hx)
    (threadBytes_subset t hxt)

/-- **Every entry is a fresh one.** -/
theorem entryState_fresh (hs : Step img s ev s') (he : EntersAt c e t ctx ev) (x : Fin 32 → Word) :
    (entryState s'.data c t x).Same (freshState (s.data.thread t)) := by
  obtain ⟨hg, hd⟩ := enter_guard hs he
  have hsp : (s'.data.thread t).entrySp = (s.data.thread t).entrySp := by rw [hd, enterEnclave_thread]
  refine ⟨fun i hi => ?_, ?_⟩
  · rw [entryState, hsp]
    exact enterStub_apply _ x hi
  · rw [entryState, hd, enterEnclave_harts hg.header_notMem, Function.update_self]
    rfl

/-- **An interrupted enclave resumes where it was if and only if it was in the state of a
    fresh entry**; and an entry after an exit is fresh. -/
theorem resume_iff (img : Image N) :
    (∀ s₀ s₁ s₂ s₃ c₀ regs pc o es c e ctx ev x,
      Step img s₀ (.timer c₀ regs, o) s₁ → Runs (Step img) s₁ es s₂ →
      (∀ ev ∈ es, ∀ c e ctx, ¬ EntersAt c e (s₀.data.cores c₀).thread ctx ev) →
      Step img s₂ ev s₃ → EntersAt c e (s₀.data.cores c₀).thread ctx ev →
      ((entryState s₃.data c (s₀.data.cores c₀).thread x).Same ⟨regs, pc⟩ ↔
        (freshState (s₂.data.thread (s₀.data.cores c₀).thread)).Same ⟨regs, pc⟩)) ∧
    ∀ s₀ s₁ s₂ s₃ c₀ ctx₀ r₀ es c e ctx ev x,
      Step img s₀ (.call c₀ .enclaveExit ctx₀, some r₀) s₁ → r₀.value = 0 → Runs (Step img) s₁ es s₂ →
      (∀ ev ∈ es, ∀ c e ctx, ¬ EntersAt c e (s₀.data.cores c₀).thread ctx ev) →
      Step img s₂ ev s₃ → EntersAt c e (s₀.data.cores c₀).thread ctx ev →
      (entryState s₃.data c (s₀.data.cores c₀).thread x).Same
        (freshState (s₂.data.thread (s₀.data.cores c₀).thread)) := by
  constructor
  · intro s₀ s₁ s₂ s₃ c₀ regs pc o es c e ctx ev x _ _ _ hs he
    have hfresh := entryState_fresh hs he x
    exact ⟨hfresh.symm.trans, hfresh.trans⟩
  · intro s₀ s₁ s₂ s₃ c₀ ctx₀ r₀ es c e ctx ev x _ _ _ _ hs he
    exact entryState_fresh hs he x

/-- Core 1 enters an enclave, leaves it with the label `l`, and enters it again. -/
theorem exists_enter_again (l : Label 2) {P : Config 2 → Option Reply → Config 2 → Config 2 → Prop}
    [∀ s₀ o s₁ s₂, Decidable (P s₀ o s₁ s₂)]
    (h : (runsOf (exec smallImage) (smInit smallImage zeroBoot) enterLabels).any (fun x =>
      (exec smallImage x.2 l).any fun y =>
        (exec smallImage y.2 (callOn 1 (.enclaveEnter firstEnclave firstThread))).any fun z =>
          z.1.any fun r => decide (r.value = 0 ∧ P x.2 y.1 y.2 z.2)) = true) :
    ∃ es s₀ o s₁ r s₂, Runs (Step smallImage) (smInit smallImage zeroBoot) es s₀ ∧
      Step smallImage s₀ (l, o) s₁ ∧
      Step smallImage s₁ (callOn 1 (.enclaveEnter firstEnclave firstThread), some r) s₂ ∧
      r.value = 0 ∧ P s₀ o s₁ s₂ := by
  obtain ⟨⟨es, s₀⟩, hr, h⟩ := (Option.any_eq_true _ _).mp h
  obtain ⟨⟨o, s₁⟩, hs, h⟩ := (Option.any_eq_true _ _).mp h
  obtain ⟨⟨o', s₂⟩, hs', h⟩ := (Option.any_eq_true _ _).mp h
  obtain ⟨r, rfl, h⟩ := (Option.any_eq_true _ _).mp h
  exact ⟨es, s₀, o, s₁, r, s₂, .of_runsOf hr, hs, hs', of_decide_eq_true h⟩

set_option maxRecDepth 100000 in
/-- Core 1 enters an enclave again, after an interrupt at its entry point with clear registers,
    and after an exit. -/
theorem resume_enter :
    (∃ es s₀ o s₁ r s₂, Runs (Step smallImage) (smInit smallImage zeroBoot) es s₀ ∧
      Step smallImage s₀ (.timer 1 fun _ => 0, o) s₁ ∧
      Step smallImage s₁ (callOn 1 (.enclaveEnter firstEnclave firstThread), some r) s₂ ∧
      (entryState s₂.data 1 firstThread fun _ => 0).Same ⟨fun _ => 0, 0x1000⟩) ∧
    ∃ es s₀ o s₁ r s₂, Runs (Step smallImage) (smInit smallImage zeroBoot) es s₀ ∧
      Step smallImage s₀ (callOn 1 .enclaveExit, some o) s₁ ∧
      Step smallImage s₁ (callOn 1 (.enclaveEnter firstEnclave firstThread), some r) s₂ ∧
      (entryState s₂.data 1 firstThread fun _ => 0).Same (freshState (s₁.data.thread firstThread)) := by
  obtain ⟨hinterrupt, hexit⟩ := resume_iff smallImage
  constructor
  · obtain ⟨es, s₀, o, s₁, r, s₂, hr, hs, hs', hv, ht, hsp, hpc⟩ :=
      exists_enter_again (P := fun s₀ _ s₁ _ => (s₀.data.cores 1).thread = firstThread ∧
        (s₁.data.thread firstThread).entrySp = 0 ∧ (s₁.data.thread firstThread).entryPc = 0x1000)
        (.timer 1 fun _ => 0) (by decide +kernel)
    refine ⟨es, s₀, o, s₁, r, s₂, hr, hs, hs', ?_⟩
    have hresume := hinterrupt s₀ s₁ s₁ s₂ 1 (fun _ => 0) 0x1000 o [] 1 firstEnclave zeroContext _
      (fun _ => 0) hs (.nil _) (by simp) hs' ⟨r, by rw [ht, callOn], hv⟩
    rw [ht] at hresume
    exact hresume.mpr ⟨fun i _ => by simp [freshState, hsp], hpc⟩
  · obtain ⟨es, s₀, o, s₁, r, s₂, hr, hs, hs', hv, ht, ho⟩ :=
      exists_enter_again (P := fun s₀ o _ _ => (s₀.data.cores 1).thread = firstThread ∧
        o.map Reply.value = some 0) (callOn 1 .enclaveExit) (by decide +kernel)
    obtain ⟨r₀, rfl, hr₀⟩ := Option.map_eq_some_iff.mp ho
    refine ⟨es, s₀, r₀, s₁, r, s₂, hr, hs, hs', ?_⟩
    have hfresh := hexit s₀ s₁ s₁ s₂ 1 zeroContext r₀ [] 1 firstEnclave zeroContext _
      (fun _ => 0) hs hr₀ (.nil _) (by simp) hs' ⟨r, by rw [ht, callOn], hv⟩
    rwa [ht] at hfresh

/-! ## The trap frame -/

/-- What a core that exits leaves in its thread. -/
theorem exitEnclave_thread {aex : Bool} (h : HeapInv img d) (hm : MonitorRegion d)
    (hu : (d.cores c).owner ≠ ownerUntrusted) : (exitEnclave d c aex).thread (d.cores c).thread =
      { d.thread (d.cores c).thread with aexPresent := if aex then 1 else 0 } := by
  have ht := (h.running c hu).2
  have hstack : ∀ x ∈ threadBytes (d.cores c).thread,
      x ∉ range (d.thread (d.cores c).thread).untrustedFaultSp integerContextSize := fun x hx => by
    obtain ⟨hr, hreg⟩ := (h.slot_thread ht).region_of_mem (threadBytes_subset _ hx)
    exact h.stack_notMem ht hm ht.page hr hreg
  rw [exitEnclave_eq]
  refine (threadMetadata_agree fun x hx => pushUntrustedState_apply (hstack x hx)).trans ?_
  exact threadMetadata_setAexPresent _ _ aex

/-- What an interrupted core leaves in its thread. -/
theorem aexEnclave_thread (h : HeapInv img d) (hm : MonitorRegion d)
    (hu : (d.cores c).owner ≠ ownerUntrusted) : (aexEnclave d c regs).thread (d.cores c).thread =
      { d.thread (d.cores c).thread with aexState := regs, aexPresent := 1 } := by
  obtain ⟨d', hsave, heq⟩ := aexEnclave_eq h hu regs
  have hm' : MonitorRegion d' := by rw [MonitorRegion, hsave.same.regions]; exact hm
  have hu' : (d'.cores c).owner ≠ ownerUntrusted := by rw [hsave.same.cores]; exact hu
  have hleft : (exitEnclave d' c true).thread _ = _ := exitEnclave_thread hsave.records.heap hm' hu'
  rw [hsave.same.cores, hsave.thread] at hleft
  rw [heq]
  exact hleft

/-- What a step does to a thread that is there before and after it: nothing, unless the
    thread is entered or a core leaves it. -/
theorem CarefulStep.thread_cases (hs : CarefulStep img s ev s') (h : SystemInv img s)
    (ht : ValidMetadata s.data t .thread) (ht' : ValidMetadata s'.data t .thread) :
    s'.data.thread t = s.data.thread t ∨ (∃ c e ctx, EntersAt c e t ctx ev) ∨
      ∃ c, (s.data.cores c).owner ≠ ownerUntrusted ∧ (s.data.cores c).thread = t ∧ LeavesAt c ev ∧
        ∃ regs p, s'.data.thread t = { s.data.thread t with aexState := regs, aexPresent := p } := by
  by_cases hT : t ∉ eventPages s ev
  · exact .inl (step_pages h hs ht.toMetadataPageAt (h.heap.slot t _ ht (by decide)) hT).thread_eq
  have hT := not_not.mp hT
  obtain ⟨l, o⟩ := ev
  cases l with
  | call c k ctx =>
    obtain ⟨r, rfl, hne, hE⟩ := (step_call hs.1).reply
    by_cases hv : r.value = 0
    · have hE := hE hv
      cases touches_thread h.heap hs.2 hE ht hT with
      | enter f => exact .inr (.inl ⟨c, f, ctx, r, rfl, hv⟩)
      | exit hu htc =>
        refine .inr (.inr ⟨c, hu, htc, .inl ⟨ctx, r, rfl, hv⟩, (s.data.thread t).aexState, 0, ?_⟩)
        rw [hE.2, ← htc, exitEnclave_thread h.heap h.regions.monitorRegion hu]
        rfl
      | delete =>
        have hp := deleteThread_step h.heap ht hs.2
        rw [← hE.2.2] at hp
        exact absurd (ht'.tag_unique ⟨ht'.toMetadataPageAt, hp.tag⟩) (by decide)
      | clear f hnone hreg =>
        obtain ⟨i, hi⟩ := Option.ne_none_iff_exists'.mp hnone
        have hg := hE.1
        have hc := delete_some_clears h.heap hg hi (h.regions.toMaps.type_ne hg.enclave (List.find?_some hi))
        rw [← hE.2] at hc
        exact absurd ht' (hc.notThread ⟨ht.aligned, ht.inRam, hreg⟩)
    · rw [hne hv]
      exact .inl rfl
  | timer c regs =>
    obtain ⟨-, hu, -, -, hd⟩ := step_timer hs.1
    refine .inr (.inr ⟨c, hu, Eq.symm hT, .inr ⟨regs, o, rfl⟩, regs, 1, ?_⟩)
    rw [hd, show t = _ from hT, aexEnclave_thread h.heap h.regions.monitorRegion hu]
  | _ => exact absurd hT (Set.notMem_empty t)

/-- The event deletes the thread at `a`, or an enclave. -/
inductive Removes (a : Word) : Event N → Prop
  | thread {c : Fin N} {ctx : TrapContext} {r : Reply} (hr : r.value = 0) :
      Removes a (.call c (.threadDelete a) ctx, some r)
  | enclave {c : Fin N} {f : Word} {ctx : TrapContext} {r : Reply} (hr : r.value = 0) :
      Removes a (.call c (.enclaveDelete f) ctx, some r)

/-- Enclaves and threads stay where they are until they are deleted. -/
theorem CarefulStep.tag_kept {a : Word} {k : MetadataPage} (hs : CarefulStep img s ev s')
    (h : SystemInv img s) (ha : ValidMetadata s.data a k) (hk : k = .enclave ∨ k = .thread)
    (hno : ¬ Removes a ev) : ValidMetadata s'.data a k := by
  have hinvalid : k ≠ .invalid := by rcases hk with rfl | rfl <;> decide
  have hkeep (hT : a ∉ eventTags s ev) : ValidMetadata s'.data a k :=
    (step_tags h hs ha.toMetadataPageAt (h.heap.slot a _ ha hinvalid) hT).mpr ha
  have hfree {b : Word} (hb : ValidMetadata s.data b .free) (hab : a = b) : False := by
    have := ha.tag_unique (hab.symm ▸ hb : ValidMetadata s.data a .free)
    rcases hk with rfl | rfl <;> exact absurd this (by decide)
  obtain ⟨l, o⟩ := ev
  cases l with
  | call c k ctx =>
    obtain ⟨r, rfl, hne, hE⟩ := (step_call hs.1).reply
    by_cases hv : r.value = 0
    · refine hkeep fun hT => ?_
      have hE := hE hv
      cases k with
      | enclaveCreate f b mask n debug =>
        exact hfree ((hE.1.freeSpace_enclave h.heap hs.2).free a hT) rfl
      | enclaveDelete f => exact hno (.enclave hv)
      | threadDelete u =>
        obtain rfl : a = u := hT
        exact hno (.thread hv)
      | threadLoad f u pc sp l =>
        exact hfree ((hE.2.2.1.freeSpace h.heap (by decide) (by decide)).free u ⟨0, by decide, by simp⟩) hT
      | _ => exact Set.notMem_empty a hT
    · rw [hne hv]
      exact ha
  | _ => exact hkeep (Set.notMem_empty a)

/-- A step does nothing to a thread that no core runs, as long as it is not entered. -/
theorem CarefulStep.idle_thread_eq (hs : CarefulStep img s ev s') (h : SystemInv img s)
    (ht : ValidMetadata s.data t .thread) (ht' : ValidMetadata s'.data t .thread)
    (hidle : NotRunning s.data t) (hno : ∀ c e ctx, ¬ EntersAt c e t ctx ev) :
    s'.data.thread t = s.data.thread t := by
  rcases hs.thread_cases h ht ht' with heq | ⟨c, e, ctx, hen⟩ | ⟨c, hu, htc, -⟩
  · exact heq
  · exact absurd hen (hno c e ctx)
  · exact absurd htc (hidle c hu)

theorem CarefulStep.notRunning (hs : CarefulStep img s ev s') (hidle : NotRunning s.data t)
    (hno : ∀ c e ctx, ¬ EntersAt c e t ctx ev) : NotRunning s'.data t := by
  intro c hc htc
  rcases step_cores hs.1 c with ⟨ho, ht⟩ | ⟨hu, -⟩ | ⟨-, ctx, hen⟩
  · exact hidle c (ho ▸ hc) (ht.symm.trans htc)
  · exact hc hu
  · exact hno c _ ctx (htc ▸ hen)

/-- A thread that no core runs keeps its metadata, as long as it is there and not entered. -/
theorem idle_thread_run (h : SystemInv img s) (hr : Runs (Traced (CarefulStep img)) s hist s')
    (hidle : NotRunning s.data t) (halive : ∀ y ∈ hist, ValidMetadata y.1.data t .thread)
    (hno : ∀ y ∈ hist, ∀ c e ctx, ¬ EntersAt c e t ctx y.2) :
    SystemInv img s' ∧ NotRunning s'.data t ∧
      (ValidMetadata s'.data t .thread → s'.data.thread t = s.data.thread t) := by
  refine Runs.invariant_events (I := fun hist s' => (∀ y ∈ hist, ValidMetadata y.1.data t .thread) →
    (∀ y ∈ hist, ∀ c e ctx, ¬ EntersAt c e t ctx y.2) → SystemInv img s' ∧ NotRunning s'.data t ∧
      (ValidMetadata s'.data t .thread → s'.data.thread t = s.data.thread t)) hr
    (fun _ _ => ⟨h, hidle, fun _ => rfl⟩) ?_ halive hno
  rintro hist s₁ ⟨s₂, ev⟩ s' ih ⟨heq, hs⟩ halive hno
  obtain rfl : s₂ = s₁ := heq
  obtain ⟨hinv, hidle, hthread⟩ := ih (fun y hy => halive y (List.mem_append_left _ hy))
    fun y hy => hno y (List.mem_append_left _ hy)
  have hlast : (s₂, ev) ∈ hist ++ [(s₂, ev)] := List.mem_append_right _ (List.mem_singleton_self _)
  have hv := halive _ hlast
  refine ⟨(step_inv hinv hs.2 hs.1).1, hs.notRunning hidle (hno _ hlast), fun ht' => ?_⟩
  exact (hs.idle_thread_eq hinv hv ht' hidle (hno _ hlast)).trans (hthread hv)

/-- **The registers of an interrupted thread reach the trap frame** of the core that enters
    it next. -/
theorem aex_frame (h : SystemInv img s₀) (hs₀ : Step img s₀ (.timer c₀ regs, o) s₁)
    (hidle : NotRunning s₁.data (s₀.data.cores c₀).thread)
    (hr : Runs (Traced (CarefulStep img)) s₁ hist s₂)
    (halive : ∀ y ∈ hist, ValidMetadata y.1.data (s₀.data.cores c₀).thread .thread)
    (hno : ∀ y ∈ hist, ∀ c e ctx, ¬ EntersAt c e (s₀.data.cores c₀).thread ctx y.2)
    (hs : Step img s₂ ev s₃) (he : EntersAt c e (s₀.data.cores c₀).thread ctx ev) :
    (s₃.data.harts c).regs = regs := by
  obtain ⟨-, hu, -, -, hd₁⟩ := step_timer hs₀
  obtain ⟨-, -, hthread⟩ := idle_thread_run (step_inv h (show Careful s₀ (.timer c₀ regs) from trivial) hs₀).1 hr hidle halive hno
  obtain ⟨hg, hd⟩ := enter_guard hs he
  have hsaved : s₁.data.thread (s₀.data.cores c₀).thread =
      { s₀.data.thread (s₀.data.cores c₀).thread with aexState := regs, aexPresent := 1 } := by
    rw [hd₁]
    exact aexEnclave_thread h.heap h.regions.monitorRegion hu
  rw [hd, enterEnclave_harts hg.header_notMem, Function.update_self]
  show (fun i => if (s₂.data.thread (s₀.data.cores c₀).thread).aexPresent != 0 then
    (s₂.data.thread (s₀.data.cores c₀).thread).aexState i else 0) = regs
  rw [hthread hg.thread, hsaved]
  rfl

/-- Registers of an enclave with a value in `a0`. -/
def interruptedRegs : Fin 32 → Word := fun i => if i = 10 then 5 else 0

set_option maxRecDepth 100000 in
/-- Core 1 is interrupted in an enclave and enters it again; its `a0` is lost. -/
theorem resume_fails : ∃ es s₀ o s₁ r s₂,
    Runs (Step smallImage) (smInit smallImage zeroBoot) es s₀ ∧
    Step smallImage s₀ (.timer 1 interruptedRegs, o) s₁ ∧
    Step smallImage s₁ (callOn 1 (.enclaveEnter firstEnclave firstThread), some r) s₂ ∧
    r.value = 0 ∧ (s₀.data.cores 1).thread = firstThread ∧
    (s₂.data.harts 1).regs 10 = 5 ∧ (entryState s₂.data 1 firstThread (fun _ => 0)).regs 10 = 0 :=
  exists_enter_again _ (by decide +kernel)

end SecurityMonitor
