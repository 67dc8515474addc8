/-
  Region indices.

  `regions`, `locked_regions.flags` and `llc_partitions.lgsizes` have one entry per
  region, and a lock of a region outside them is a write to what lies behind.  The
  indices come from three places:

  * stored ids: the enclave and the thread of a core, and the region of a
    `region_free` in progress.  They were checked when they were stored (`IndexInv`),
    and nothing else writes them in careful runs;
  * the owner in a thread's metadata, which `thread_delete` uses.  It is in RAM as
    long as only careful calls have been made;
  * arguments and page table entries that are not checked, or against the wrong bound:
    `region_flush`, the OS page of `load_page` and the walk of both loads.

  `InBounds` is the condition for all of them, and `TakesIndex` are the calls for which it
  is left to the callers.
-/
import SecurityMonitor.Threads
import SecurityMonitor.EnclaveMemory

namespace SecurityMonitor

open ByteMem Prog

variable {N : ℕ} {img : Image N} {boot : Boot N} {s s' : Config N} {c : Fin N} {ev : Event N}
  {es : List (Event N)}

/-! ## Stored ids -/

/-- The ids that the cores and the calls in progress hold name regions. -/
structure IndexInv (s : Config N) : Prop where
  running : ∀ c, (s.data.cores c).owner ≠ ownerUntrusted →
    (addrToRegionId (s.data.cores c).owner).toNat < 64 ∧ (addrToRegionId (s.data.cores c).thread).toNat < 64
  pending : ∀ c p, s.pending c = some p → p.regionId.toNat < 64

theorem smInit_indexInv (img : Image N) (boot : Boot N) : IndexInv (smInit img boot) :=
  ⟨fun c hu => absurd ((smInit_booting img boot).running c).1 hu, fun _ _ h => nomatch h⟩

/-- What `enclave_enter` has checked of the ids that it stores. -/
theorem EntersAt.inRam {e t : Word} {ctx : TrapContext} (hs : Step img s ev s') (h : EntersAt c e t ctx ev) :
    (addrToRegionId e).toNat < 64 ∧ (addrToRegionId t).toNat < 64 := by
  obtain ⟨r, rfl, hv⟩ := h
  obtain ⟨r', hr', -, hE⟩ := (step_call hs).reply
  obtain rfl := Option.some.inj hr'
  obtain ⟨-, hg, -⟩ := hE hv
  exact ⟨hg.enclave.inRam, hg.thread.inRam⟩

theorem IndexInv.pending_step (h : IndexInv s) (hs : Step img s ev s') {p : FreeCall}
    (hp : s'.pending c = some p) : p.regionId.toNat < 64 := by
  obtain ⟨l, o⟩ := ev
  cases l with
  | call c₁ k ctx => exact h.pending c p ((step_call hs).pending ▸ hp)
  | regionFree c₁ r =>
    rcases (step_free hs).2.2.2 with hsame | hstart
    · exact h.pending c p (hsame ▸ hp)
    · rw [hstart.pending] at hp
      by_cases hc : c = c₁
      · rw [hc, Function.update_self] at hp
        obtain rfl := Option.some.inj hp
        exact hstart.valid
      · rw [Function.update_of_ne hc] at hp
        exact h.pending c p hp
  | regionFreeStep c₁ =>
    obtain ⟨q, hq, hstep⟩ := step_freeStep hs
    by_cases hc : c = c₁
    · subst hc
      cases hstep with
      | passed _ _ _ hpend =>
        rw [hpend, Function.update_self] at hp
        obtain rfl := Option.some.inj hp
        exact h.pending c q hq
      | failed _ hpend => rw [hpend, Function.update_self] at hp; cases hp
      | done _ _ hpend => rw [hpend, Function.update_self] at hp; cases hp
    · cases hstep with
      | passed _ _ _ hpend => rw [hpend, Function.update_of_ne hc] at hp; exact h.pending c p hp
      | failed _ hpend => rw [hpend, Function.update_of_ne hc] at hp; exact h.pending c p hp
      | done _ _ hpend => rw [hpend, Function.update_of_ne hc] at hp; exact h.pending c p hp
  | timer c₁ regs => exact h.pending c p ((step_timer hs).2.2.1 ▸ hp)
  | userStore c₁ a v =>
    rw [(step_store hs).2.2] at hp
    exact h.pending c p hp

theorem IndexInv.step (h : IndexInv s) (hs : Step img s ev s') : IndexInv s' := by
  refine ⟨fun c hu => ?_, fun c p hp => h.pending_step hs hp⟩
  rcases step_cores hs c with ⟨ho, ht⟩ | ⟨hleft, -⟩ | ⟨-, ctx, hen⟩
  · rw [ho] at hu
    rw [ho, ht]
    exact h.running c hu
  · exact absurd hleft hu
  · exact hen.inRam hs

theorem run_indexInv (hr : Runs (Step img) (smInit img boot) es s) : IndexInv s :=
  hr.invariant (smInit_indexInv img boot) fun _ _ _ h hs => h.step hs

/-! ## Faults -/

instance (img : Image N) (s : Config N) (l : Label N) : Decidable (IndexFaults img s l) :=
  match h : tryExec img s l with
  | none => isFalse fun hf => nomatch h.symm.trans hf
  | some (.ok _) => isFalse fun hf => nomatch h.symm.trans hf
  | some (.error .panic) => isFalse fun hf => nomatch h.symm.trans hf
  | some (.error .regionIndex) => isTrue h

/-- The condition under which the region indices of a step are in bounds.  It asks something of
    the arguments only where they pass the checks of the call. -/
def InBounds (s : Config N) : Label N → Prop
  | .call c k _ => IndexSafe s.data c k
  | .regionFreeStep c => ∀ p, s.pending c = some p → p.regionId.toNat < 64
  | .timer c _ => (s.data.cores c).owner ≠ ownerUntrusted → (addrToRegionId (s.data.cores c).thread).toNat < 64
  | .regionFree _ _ | .userStore _ _ _ => True

/-- The calls whose region indices come from their arguments or from page tables, and are not
    checked, or against the wrong bound. -/
def TakesIndex : Label N → Prop
  | .call _ (.regionFlush _) _ | .call _ (.enclaveLoadPageTable _ _ _ _ _) _
  | .call _ (.enclaveLoadPage _ _ _ _ _) _ => True
  | _ => False

/-- Outcomes other than a region index out of bounds. -/
def NoIndexFault (f : Fault) : Prop := f ≠ .regionIndex

theorem run_ne_fault {ρ α : Type} {p : M N ρ α} {t : CallState N} {Q : α → CallState N → Prop}
    {R : ρ → CallState N → Prop} (h : p.wp Q R NoIndexFault t) : p.run t ≠ .fault .regionIndex := by
  intro hx
  rw [wp, hx] at h
  exact h rfl

theorem finish_ne_fault {ρ : Type} {f : ρ → Reply} {p : M N ρ Empty} {t : CallState N}
    {Q : ρ → CallState N → Prop} (h : p.wp (fun a _ => a.elim) Q NoIndexFault t) :
    finish s f (p.run t) ≠ .error .regionIndex := by
  intro hf
  cases hx : p.run t with
  | next a => exact a.elim
  | ret r t' => rw [hx] at hf; cases hf
  | fault x =>
    rw [hx] at hf
    obtain rfl := Except.error.inj hf
    exact run_ne_fault h hx

/-- **A step in `InBounds` uses no index out of bounds**, in any state. -/
theorem InBounds.not_faults {l : Label N} (h : InBounds s l) : ¬ IndexFaults img s l := by
  intro hf
  rw [IndexFaults] at hf
  cases l with
  | call c k ctx =>
    have h : IndexSafe s.data c k := h
    rw [tryExec] at hf
    split_ifs at hf with hp hu
    · exact finish_ne_fault (ecallFromUntrusted_spec s.at_start hu (by simp [NoIndexFault]) k
        fun hn => absurd h hn) (Option.some.inj hf)
    · have hspec : (ecallFromEnclave c k).wp (fun a _ => a.elim)
          (Replies _ s.data (Effect img _ c ctx s.data k) (Copies s.data c k)) NoIndexFault s.start :=
        ecallFromEnclave_spec s.at_start hu k fun hn => absurd h hn
      exact finish_ne_fault hspec (Option.some.inj hf)
  | regionFree c r =>
    rw [tryExec] at hf
    split_ifs at hf with hp hu
    · cases Option.some.inj hf
    have hspec := regionFreeBegin_spec (F := NoIndexFault) (r := r) s.at_start fun _ => rfl
    cases hx : (regionFreeBegin r).run s.start with
    | next u t => rw [hx] at hf; cases hf
    | ret x t => rw [hx] at hf; cases hf
    | fault x =>
      rw [hx] at hf
      cases hf
      exact run_ne_fault hspec hx
  | regionFreeStep c =>
    rw [tryExec] at hf
    obtain ⟨p, hp, hf⟩ := Option.map_eq_some_iff.mp hf
    rw [execFreeStep] at hf
    split_ifs at hf with hn
    · have hspec := regionFreeCheck_spec (F := NoIndexFault) (r := p.regionId) (c := ⟨p.next, hn⟩)
        (at_resume s p)
      cases hx : (regionFreeCheck p.regionId ⟨p.next, hn⟩).run
          (⟨s.data, s.locks, p.lockedRegions⟩ : CallState N) with
      | next u t => rw [hx] at hf; cases hf
      | ret x t => rw [hx] at hf; cases hf
      | fault x =>
        rw [hx] at hf
        cases hf
        exact run_ne_fault hspec hx
    · exact finish_ne_fault (regionFreeEnd_spec (at_resume s p) fun hn => absurd (h p hp) hn) hf
  | timer c regs =>
    rw [tryExec] at hf
    split_ifs at hf with hc
    have ht := h (not_or.mp hc).2
    exact finish_ne_fault (enclaveAex_spec s.at_start (by simp [NoIndexFault]) fun hn => absurd ht hn)
      (Option.some.inj hf)
  | userStore c a v =>
    rw [tryExec] at hf
    split_ifs at hf with hc
    cases Option.some.inj hf

/-- The owner in the metadata of a thread names a region as long as the calls are careful. -/
theorem SystemInv.threadOwner_inRam (h : SystemInv img s) {t : Word}
    (ht : ValidMetadata s.data t .thread) : (addrToRegionId (s.data.thread t).owner).toNat < 64 :=
  (h.heap.thread t ht).1.page.inRam

/-- The indices that come from stored ids. -/
theorem CarefulRun.stored_inBounds (h : CarefulRun img boot es s) {l : Label N} (hl : ¬ TakesIndex l) :
    InBounds s l := by
  have hstored : IndexInv s := run_indexInv (h.mono fun _ _ _ hs => hs.step)
  cases l with
  | call c k ctx =>
    cases k with
    | regionFlush | enclaveLoadPageTable | enclaveLoadPage => exact absurd trivial hl
    | threadDelete t => exact fun _ ht => h.inv.threadOwner_inRam ht
    | mailAccept | mailReceive | mailSend => exact fun hu => (hstored.running c hu).1
    | enclaveExit => exact fun hu => (hstored.running c hu).2
    | _ => trivial
  | regionFreeStep c => exact hstored.pending c
  | timer c regs => exact fun hu => (hstored.running c hu).2
  | regionFree | userStore => trivial

/-- **Region indices are in bounds** for every step that keeps to `InBounds`, in every state,
    whatever the ids in it, the metadata and the page tables are.  In careful runs this asks
    nothing but of `region_flush` and of the two loads: the stored ids name regions, and no step
    writes the memory that holds `sm_state`. -/
theorem region_index_inBounds (img : Image N) (boot : Boot N) (s : Config N) (l : Label N) :
    (InBounds s l → ¬ IndexFaults img s l) ∧
      ∀ es, CarefulRun img boot es s → (¬ TakesIndex l → InBounds s l) ∧
        ∀ x ∈ range smStateAddr smStateLen, s.data.mem x = boot.mem x :=
  ⟨InBounds.not_faults, fun _ h => ⟨h.stored_inBounds, fun _ hx => h.smState_kept hx⟩⟩

/-- While the thread runs, neither its deletion nor a flush of the last region is out of bounds. -/
theorem region_index_inBounds_delete : ∃ es s, CarefulRun smallImage zeroBoot es s ∧
    (s.data.cores 1).owner = firstEnclave ∧
    ¬ IndexFaults smallImage s (callOn 0 (.threadDelete firstThread)) ∧
    ¬ IndexFaults smallImage s (callOn 0 (.regionFlush 63)) := by
  obtain ⟨es, s, hr, howner, -⟩ := carefulRun_enter
  have h₁ := region_index_inBounds smallImage zeroBoot s (callOn 0 (.threadDelete firstThread))
  have h₂ := region_index_inBounds smallImage zeroBoot s (callOn 0 (.regionFlush 63))
  exact ⟨es, s, hr, howner, h₁.1 ((h₁.2 es hr).1 id), h₂.1 fun _ => by decide⟩

set_option maxRecDepth 100000 in
/-- Region 64 is flushed, a first page table is loaded at a level below 3, and a page is loaded
    from an address outside RAM. -/
theorem region_index_fails :
    IndexFaults smallImage (smInit smallImage zeroBoot) (callOn 0 (.regionFlush 64)) ∧
    (∃ es s, Runs (Step smallImage) (smInit smallImage zeroBoot) es s ∧
      IndexFaults smallImage s (callOn 0 (.enclaveLoadPageTable firstEnclave 0x84003000 0 2 1))) ∧
    ∃ es s, Runs (Step smallImage) (smInit smallImage zeroBoot) es s ∧
      IndexFaults smallImage s (callOn 0 (.enclaveLoadPage firstEnclave 0x84004000 0x1000 0 3)) :=
  ⟨by decide +kernel,
    Runs.exists_of_runsOf (setupLabels ++ (buildLabels firstEnclave firstThread 0).take 3) (by decide +kernel),
    Runs.exists_of_runsOf (setupLabels ++ (buildLabels firstEnclave firstThread 0).take 4) (by decide +kernel)⟩

end SecurityMonitor
