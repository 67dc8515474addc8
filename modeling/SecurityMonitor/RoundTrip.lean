/-
  The way back to untrusted software (`src/api/enclave_exit.c`,
  `src/common/syscall_helpers.S`).

  A core leaves an enclave by `enclave_exit` or by the timer interrupt.  Both push
  the registers that were saved on entry, restore them with `.restore_regs`, and
  return behind the call with `.perform_mret_ecall`.  Nothing writes a result into
  the saved `a0`.

  * `exitStub`: these pieces of assembly, on the registers;
  * `round_trip`: untrusted software gets back all its registers, its pc and its
    control registers, whatever the enclave and the other cores do in between;
  * `enter_result_iff`: the `a0` that it gets back is the one that it had, and not
    the result of the call.
-/
import SecurityMonitor.Resume

namespace SecurityMonitor

open ByteMem

variable {N : ℕ} {img : Image N} {boot : Boot N} {s s' s₀ s₁ s₂ s₃ : Config N} {d d₀ : Data N} {c : Fin N}
  {e t : Word} {ctx : TrapContext} {ev ev₀ : Event N} {es es' : List (Event N)}

/-! ## The end of an exit -/

/-- `.restore_regs`, with the frame `f` on the stack: `ra`, `sp` and `t0` come later. -/
def restoreRegs (f x : Fin 32 → Word) : Fin 32 → Word := fun i =>
  if i.val < 3 ∨ i = 5 then x i else f i

/-- `.perform_mret`; `sp` comes back through `mscratch`. -/
def performMret (f x : Fin 32 → Word) : Fin 32 → Word :=
  let x := Function.update x 1 (f 1)
  let x := Function.update x 5 (f 5)
  Function.update x 2 (f 2)

/-- The last instructions of an exit, from the registers `x`. -/
def exitStub (f x : Fin 32 → Word) : Fin 32 → Word := performMret f (restoreRegs f (platformCleanCore x))

/-- The state in which core `c` leaves, when the registers of the monitor are `x` at the end of
    the exit.  `.perform_mret_ecall` skips the call. -/
def exitState (d : Data N) (c : Fin N) (x : Fin 32 → Word) : UserState where
  regs := exitStub (d.harts c).regs x
  pc := (d.harts c).mepc + 4

theorem exitStub_apply (f x : Fin 32 → Word) {i : Fin 32} (hi : i ≠ 0) : exitStub f x i = f i := by
  simp only [exitStub, performMret, restoreRegs, Function.update_apply]
  split_ifs with h2 h5 h1 h
  · rw [h2]
  · rw [h5]
  · rw [h1]
  · have h0 : i.val ≠ 0 := fun h => hi (Fin.ext h)
    have h1' : i.val ≠ 1 := fun h => h1 (Fin.ext h)
    have h2' : i.val ≠ 2 := fun h => h2 (Fin.ext h)
    exact absurd (h.resolve_right h5) (by omega)
  · rfl

/-! ## Between an entry and an exit -/

/-- Core `c` is in the thread at `t`, which it entered from `d₀`. -/
structure Inside (img : Image N) (d₀ : Data N) (c : Fin N) (e t : Word) (ctx : TrapContext)
    (s : Config N) : Prop where
  inv : SystemInv img s
  owner : (s.data.cores c).owner = e
  thread : (s.data.cores c).thread = t
  running : e ≠ ownerUntrusted
  live : ValidMetadata s.data t .thread
  saved : SavedAt img d₀ c e t ctx s.data

theorem inside_of_enters (h : SystemInv img s) (hs : CarefulStep img s ev s')
    (hen : EntersAt c e t ctx ev) : Inside img s.data c e t ctx s' := by
  obtain ⟨hg, hd⟩ := enter_guard hs.1 hen
  have hcores : (s'.data.cores c).owner = e ∧ (s'.data.cores c).thread = t := by
    rw [hd, enterEnclave_cores hg.header_notMem, Function.update_self]
    exact ⟨rfl, rfl⟩
  have hno : ¬ Removes t ev := by
    obtain ⟨r, rfl, -⟩ := hen
    intro hrem
    cases hrem
  refine ⟨(step_inv h hs.2 hs.1).1, hcores.1, hcores.2, ?_, hs.tag_kept h hg.thread (.inr rfl) hno, ?_⟩
  · rintro rfl
    exact absurd hg.enclave.aligned (by decide)
  · exact ⟨(s'.data.thread t).aexState, (s'.data.thread t).aexPresent, by rw [← hd]⟩

/-- Nothing but an entry or a deletion of the thread, or an `enclave_delete`, touches what
    was saved. -/
theorem Inside.step (h : Inside img d₀ c e t ctx s) (hs : CarefulStep img s ev s')
    (hno : ∀ c e ctx, ¬ EntersAt c e t ctx ev) (hrem : ¬ Removes t ev) (hl : ¬ LeavesAt c ev) :
    Inside img d₀ c e t ctx s' := by
  have hlive := hs.tag_kept h.inv h.live (.inr rfl) hrem
  have hcores : (s'.data.cores c).owner = e ∧ (s'.data.cores c).thread = t := by
    rcases step_cores hs.1 c with hsame | ⟨-, hl'⟩ | ⟨hu, -⟩
    · exact ⟨hsame.1.trans h.owner, hsame.2.trans h.thread⟩
    · exact absurd hl' hl
    · exact absurd (h.owner.symm.trans hu) h.running
  refine ⟨(step_inv h.inv hs.2 hs.1).1, hcores.1, hcores.2, h.running, hlive, ?_⟩
  obtain ⟨regs, p, hT⟩ := h.saved
  rcases hs.thread_cases h.inv h.live hlive with heq | ⟨c', e', ctx', hen⟩ | ⟨c', -, -, -, regs', p', heq⟩
  · exact ⟨regs, p, by rw [heq, hT]⟩
  · exact absurd hen (hno c' e' ctx')
  · exact ⟨regs', p', by rw [heq, hT]⟩

theorem Inside.run (h : Inside img d₀ c e t ctx s) (hr : Runs (CarefulStep img) s es s')
    (hno : ∀ ev ∈ es, (∀ c e ctx, ¬ EntersAt c e t ctx ev) ∧ ¬ Removes t ev ∧ ¬ LeavesAt c ev) :
    Inside img d₀ c e t ctx s' := by
  induction hr with
  | nil => exact h
  | snoc _ hs ih =>
    obtain ⟨hen, hrem, hl⟩ := hno _ (List.mem_append_right _ (List.mem_singleton_self _))
    exact (ih fun ev hev => hno ev (List.mem_append_left _ hev)).step hs hen hrem hl

/-! ## The round trip -/

theorem leaves_idle (hs : Step img s ev s') (hl : LeavesAt c ev) :
    (s'.data.cores c).owner = ownerUntrusted := by
  rcases hl with ⟨ctx, r, rfl, hv⟩ | ⟨regs, o, rfl⟩
  · obtain ⟨r', hr', -, hE⟩ := (step_call hs).reply
    obtain rfl := Option.some.inj hr'
    rw [(hE hv).2, exitEnclave_cores, Function.update_self]
  · rw [(step_timer hs).2.2.2.2, aexEnclave_cores, Function.update_self]

/-- Core `c` has left an enclave, and untrusted software finds everything as it was when it
    called the monitor in the context `ctx` with the control registers `h₀`.  The control
    registers are those that `restoredHart` lists. -/
structure RoundTrip (img : Image N) (h₀ : Hart) (ctx : TrapContext) (c : Fin N) (d : Data N) : Prop where
  user : ∀ x, (exitState d c x).Same ⟨ctx.regs, ctx.mepc + 4⟩
  hart : ∃ h, d.harts c = restoredHart img h₀ ctx h
  owner : (d.cores c).owner = ownerUntrusted
  memrbm : (d.cores c).memrbm = (d.harts c).memrbm

theorem Inside.leaves (h : Inside img d₀ c e t ctx s) (hs : CarefulStep img s ev s') (hl : LeavesAt c ev) :
    RoundTrip img (d₀.harts c) ctx c s'.data := by
  have hu : (s.data.cores c).owner ≠ ownerUntrusted := by rw [h.owner]; exact h.running
  have hhart : s'.data.harts c = restoredHart img (d₀.harts c) ctx (s.data.harts c) :=
    SavedAt.leaves (by rw [h.thread]; exact h.saved) h.inv hs.1 hl hu
  refine ⟨fun x => ⟨fun i hi => ?_, ?_⟩, ⟨_, hhart⟩, leaves_idle hs.1 hl, ?_⟩
  · rw [exitState, hhart]
    exact exitStub_apply _ _ hi
  · rw [exitState, hhart]
    rfl
  · exact ((step_inv h.inv hs.2 hs.1).1.regions.cores c).hart.2.symm

/-- **Untrusted software gets back what it had**: its registers, the pc behind the call, and
    its control registers, when it enters an enclave and the core leaves again.  In between
    there is any sequence of events in which the core does not leave and neither the thread
    is entered or deleted, nor an enclave deleted. -/
theorem round_trip (h : CarefulRun img boot es s₀) (hs₀ : CarefulStep img s₀ ev₀ s₁)
    (hen : EntersAt c e t ctx ev₀) (hr : Runs (CarefulStep img) s₁ es' s₂)
    (hno : ∀ ev ∈ es', (∀ c e ctx, ¬ EntersAt c e t ctx ev) ∧ ¬ Removes t ev ∧ ¬ LeavesAt c ev)
    (hs : CarefulStep img s₂ ev s₃) (hl : LeavesAt c ev) :
    RoundTrip img (s₀.data.harts c) ctx c s₃.data :=
  ((inside_of_enters h.inv hs₀ hen).run hr hno).leaves hs hl

set_option maxRecDepth 100000 in
/-- Core 1 enters an enclave, the timer interrupts it, and it is back. -/
theorem round_trip_timer : ∃ es s₀ r s₁ o s₂, CarefulRun smallImage zeroBoot es s₀ ∧
    CarefulStep smallImage s₀ (callOn 1 (.enclaveEnter firstEnclave firstThread), some r) s₁ ∧
    CarefulStep smallImage s₁ (.timer 1 interruptedRegs, o) s₂ ∧
    RoundTrip smallImage (s₀.data.harts 1) ⟨fun _ => 0, 0, 0⟩ 1 s₂.data := by
  obtain ⟨es, s₀, o₀, s₁, h, hs₀, ho, hany⟩ : ∃ es s₀ o₀ s₁, CarefulRun smallImage zeroBoot es s₀ ∧
      CarefulStep smallImage s₀ (callOn 1 (.enclaveEnter firstEnclave firstThread), o₀) s₁ ∧
      o₀.map Reply.value = some 0 ∧ (exec smallImage s₁ (.timer 1 interruptedRegs)).isSome = true :=
    CarefulRun.exists_step_of_labels (setupLabels ++ buildLabels firstEnclave firstThread 0) _
      (by decide +kernel)
  obtain ⟨r, rfl, hr⟩ := Option.map_eq_some_iff.mp ho
  obtain ⟨⟨o, s₂⟩, hs⟩ := Option.isSome_iff_exists.mp hany
  have hs₂ : CarefulStep smallImage s₁ (.timer 1 interruptedRegs, o) s₂ := Step.carefully hs trivial
  exact ⟨es, s₀, r, s₁, o, s₂, h, hs₀, hs₂,
    round_trip h hs₀ ⟨r, rfl, hr⟩ (.nil s₁) (by simp) hs₂ (.inr ⟨_, _, rfl⟩)⟩

set_option maxRecDepth 100000 in
/-- While core 1 is in an enclave, core 0 creates an enclave of no page on the thread.  The
    register 23 that core 1 gets back is the `ev_base` of that enclave. -/
theorem round_trip_fails : ∃ es s₀ r s₁ o₁ s₂ o₂ s₃,
    Runs (Step smallImage) (smInit smallImage zeroBoot) es s₀ ∧
    Step smallImage s₀ (callOn 1 (.enclaveEnter firstEnclave firstThread), some r) s₁ ∧ r.value = 0 ∧
    Step smallImage s₁ (callOn 0 (.enclaveCreate firstThread 5 0 0xcf3cf3cf3cf3cf2 false), o₁) s₂ ∧
    Step smallImage s₂ (callOn 1 .enclaveExit, o₂) s₃ ∧ o₂.map Reply.value = some 0 ∧
    ∀ x, (exitState s₃.data 1 x).regs 23 = 5 := by
  obtain ⟨es, s₀, o₀, s₁, h, hs₀, ho, hany⟩ : ∃ es s₀ o₀ s₁,
      Runs (Step smallImage) (smInit smallImage zeroBoot) es s₀ ∧
      Step smallImage s₀ (callOn 1 (.enclaveEnter firstEnclave firstThread), o₀) s₁ ∧
      o₀.map Reply.value = some 0 ∧
      (exec smallImage s₁ (callOn 0 (.enclaveCreate firstThread 5 0 0xcf3cf3cf3cf3cf2 false))).any
        (fun y => (exec smallImage y.2 (callOn 1 .enclaveExit)).any fun z =>
          z.1.map Reply.value = some 0 ∧ (z.2.data.harts 1).regs 23 = 5) = true :=
    Runs.exists_step_of_runsOf (setupLabels ++ buildLabels firstEnclave firstThread 0) _
      (by decide +kernel)
  obtain ⟨r, rfl, hr⟩ := Option.map_eq_some_iff.mp ho
  obtain ⟨⟨o₁, s₂⟩, hs₂, hany⟩ := (Option.any_eq_true _ _).mp hany
  obtain ⟨⟨o₂, s₃⟩, hs₃, hP⟩ := (Option.any_eq_true _ _).mp hany
  obtain ⟨hv, hreg⟩ := of_decide_eq_true hP
  exact ⟨es, s₀, r, s₁, o₁, s₂, o₂, s₃, h, hs₀, hr, hs₂, hs₃, hv, fun x =>
    (exitStub_apply _ x (by decide)).trans hreg⟩

/-! ## The result of an entry -/

/-- What `sm_enclave_enter` is to return when the core leaves by this event. -/
def leaveResult : Event N → ApiResult
  | (.timer _ _, _) => .asyncExit
  | _ => .ok

/-- **The caller of `sm_enclave_enter` finds the result in `a0` if and only if it was there
    before the call.**  The dispatcher takes the id of the enclave from `a0`, so it never
    was. -/
theorem enter_result_iff (h : CarefulRun img boot es s₀) (hs₀ : CarefulStep img s₀ ev₀ s₁)
    (hen : EntersAt c e t ctx ev₀) (hr : Runs (CarefulStep img) s₁ es' s₂)
    (hno : ∀ ev ∈ es', (∀ c e ctx, ¬ EntersAt c e t ctx ev) ∧ ¬ Removes t ev ∧ ¬ LeavesAt c ev)
    (hs : CarefulStep img s₂ ev s₃) (hl : LeavesAt c ev) (x : Fin 32 → Word) :
    ((exitState s₃.data c x).regs 10 = (leaveResult ev).code ↔ ctx.regs 10 = (leaveResult ev).code) ∧
      (ctx.regs 10 = e → (exitState s₃.data c x).regs 10 ≠ (leaveResult ev).code) := by
  have htrip := ((inside_of_enters h.inv hs₀ hen).run hr hno).leaves hs hl
  rw [(htrip.user x).1 10 (by decide)]
  refine ⟨Iff.rfl, fun ha hcode => ?_⟩
  change ctx.regs 10 = _ at hcode
  have hram := (addrToRegionId_lt e).mp (enter_guard hs₀.1 hen).1.enclave.inRam
  have hsmall : e.toNat ≤ 6 := by
    rw [← ha, hcode]
    cases leaveResult ev <;> decide
  omega

/-- The context of a call that enters the first enclave. -/
def enterContext : TrapContext := ⟨fun i => if i = 10 then firstEnclave else 0, 0, 0⟩

set_option maxRecDepth 100000 in
/-- Core 1 enters the first enclave, with its id in `a0`, and leaves it. -/
theorem enter_result_exit : ∃ es s₀ r s₁ r' s₂, CarefulRun smallImage zeroBoot es s₀ ∧
    CarefulStep smallImage s₀ (.call 1 (.enclaveEnter firstEnclave firstThread) enterContext, some r) s₁ ∧
    CarefulStep smallImage s₁ (callOn 1 .enclaveExit, some r') s₂ ∧ r'.value = 0 ∧
    ∀ x, (exitState s₂.data 1 x).regs 10 ≠ 0 := by
  obtain ⟨es, s₀, o₀, s₁, h, hs₀, ho, hany⟩ : ∃ es s₀ o₀ s₁, CarefulRun smallImage zeroBoot es s₀ ∧
      CarefulStep smallImage s₀
        (.call 1 (.enclaveEnter firstEnclave firstThread) enterContext, o₀) s₁ ∧
      o₀.map Reply.value = some 0 ∧
      (exec smallImage s₁ (callOn 1 .enclaveExit)).any
        (fun y => decide (y.1.map Reply.value = some 0)) = true :=
    CarefulRun.exists_step_of_labels (setupLabels ++ buildLabels firstEnclave firstThread 0) _
      (by decide +kernel)
  obtain ⟨r, rfl, hr⟩ := Option.map_eq_some_iff.mp ho
  obtain ⟨⟨o, s₂⟩, hs, hv⟩ := (Option.any_eq_true _ _).mp hany
  obtain ⟨r', rfl, hr'⟩ := Option.map_eq_some_iff.mp (of_decide_eq_true hv)
  have hs₂ : CarefulStep smallImage s₁ (callOn 1 .enclaveExit, some r') s₂ := Step.carefully hs trivial
  exact ⟨es, s₀, r, s₁, r', s₂, h, hs₀, hs₂, hr', fun x =>
    (enter_result_iff h hs₀ ⟨r, rfl, hr⟩ (.nil s₁) (by simp) hs₂ (.inl ⟨_, r', rfl, hr'⟩) x).2 rfl⟩

set_option maxRecDepth 100000 in
/-- The caller finds the id of the enclave in `a0`, after an exit and after an interrupt. -/
theorem enter_result_fails : ∃ es s₀ r s₁ r' s₂ o s₂',
    Runs (Step smallImage) (smInit smallImage zeroBoot) es s₀ ∧
    Step smallImage s₀ (.call 1 (.enclaveEnter firstEnclave firstThread) enterContext, some r) s₁ ∧
    r.value = 0 ∧ Step smallImage s₁ (callOn 1 .enclaveExit, some r') s₂ ∧ r'.value = 0 ∧
    Step smallImage s₁ (.timer 1 interruptedRegs, o) s₂' ∧
    ∀ x, (exitState s₂.data 1 x).regs 10 = firstEnclave ∧ (exitState s₂'.data 1 x).regs 10 = firstEnclave := by
  obtain ⟨es, s₀, o₀, s₁, h, hs₀, ho, hexit, htimer⟩ : ∃ es s₀ o₀ s₁,
      Runs (Step smallImage) (smInit smallImage zeroBoot) es s₀ ∧
      Step smallImage s₀ (.call 1 (.enclaveEnter firstEnclave firstThread) enterContext, o₀) s₁ ∧
      o₀.map Reply.value = some 0 ∧
      (exec smallImage s₁ (callOn 1 .enclaveExit)).any (fun y =>
        decide (y.1.map Reply.value = some 0 ∧ (y.2.data.harts 1).regs 10 = firstEnclave)) = true ∧
      (exec smallImage s₁ (.timer 1 interruptedRegs)).any (fun y =>
        decide ((y.2.data.harts 1).regs 10 = firstEnclave)) = true :=
    Runs.exists_step_of_runsOf (setupLabels ++ buildLabels firstEnclave firstThread 0) _
      (by decide +kernel)
  obtain ⟨r, rfl, hr⟩ := Option.map_eq_some_iff.mp ho
  obtain ⟨⟨o, s₂⟩, hs, hy⟩ := (Option.any_eq_true _ _).mp hexit
  obtain ⟨hv, hreg⟩ := of_decide_eq_true hy
  obtain ⟨r', rfl, hr'⟩ := Option.map_eq_some_iff.mp hv
  obtain ⟨⟨o', s₂'⟩, hs', hy'⟩ := (Option.any_eq_true _ _).mp htimer
  have hreg' := of_decide_eq_true hy'
  exact ⟨es, s₀, r, s₁, r', s₂, o', s₂', h, hs₀, hr, hs, hr', hs', fun x =>
    ⟨(exitStub_apply _ x (by decide)).trans hreg, (exitStub_apply _ x (by decide)).trans hreg'⟩⟩

end SecurityMonitor
