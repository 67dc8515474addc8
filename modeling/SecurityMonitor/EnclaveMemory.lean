/-
  The monitor does not write the memory of an initialized enclave.

  * `effect_writes`: what a call may write, apart from metadata regions and the
    region of the monitor, is memory of the enclave that it builds, and the region
    that `region_metadata_create` clears;
  * `untrusted_mem_run`: untrusted memory is written by software only;
  * `enclave_memory_kept`: no step of a careful run but a store by software and
    the deletion of the enclave itself changes a byte in the regions of an
    initialized enclave.
-/
import SecurityMonitor.MemoryIsolation

namespace SecurityMonitor

open ByteMem

variable {N : ℕ} {img : Image N} {boot : Boot N} {s s' : Config N} {d d' : Data N} {c : Fin N}
  {a e t x : Word} {es : List (Event N)} {o : Option Reply} {L : LockId N → Bool} {k : Call}
  {ctx : TrapContext}

/-! ## What a call may write -/

/-- A byte of RAM outside the frames on the stacks of the monitor and outside the metadata
    regions. -/
structure Ordinary (img : Image N) (d : Data N) (x : Word) : Prop where
  inRam : (addrToRegionId x).toNat < 64
  frames : ∀ c, x ∉ range (untrustedFaultSpOf img c) integerContextSize
  metadata : (d.regions (regionOf x)).type ≠ .metadata

/-- The stacks lie in the region of the monitor. -/
theorem Ordinary.of_region (hr : (addrToRegionId x).toNat < 64) (h0 : regionOf x ≠ 0)
    (hm : (d.regions (regionOf x)).type ≠ .metadata) : Ordinary img d x := by
  refine ⟨hr, fun c hx => h0 ?_, hm⟩
  exact stack_region (.inr ⟨c, rfl⟩) hx hr

namespace Ordinary

variable (hx : Ordinary img d x)
include hx

theorem notMem_stack {sp : Word} (hsp : sp = 0 ∨ ∃ c, sp = untrustedFaultSpOf img c) :
    x ∉ range sp integerContextSize := by
  rcases hsp with rfl | ⟨c, rfl⟩
  · intro hm
    have hram := (addrToRegionId_lt x).mp hx.inRam
    rw [mem_range_iff (by decide), integerContextSize, show (0 : Word).toNat = 0 from rfl] at hm
    omega
  · exact hx.frames c

theorem notMem_page (hp : MetadataPageAt d a) (hs : IsSlot a) : x ∉ range a 4096 := fun hm =>
  hx.metadata ((hs.region_of_mem hm).2 ▸ hp.type)

theorem notMem_header (hp : MetadataPageAt d e) (hs : IsSlot e) : x ∉ header e := fun hm =>
  hx.notMem_page hp hs (header_subset e hm)

theorem notMem_thread (hp : MetadataPageAt d t) (hs : IsSlot t) : x ∉ threadBytes t := fun hm =>
  hx.notMem_page hp hs (threadBytes_subset t hm)

theorem notMem_infos {n : ℕ} (hp : MetadataPageAt d e) (hs : IsSlot e)
    (hfit : (addrToRegionPageId e).toNat + n ≤ 8192) : x ∉ range (pageInfoAddr e) n := fun hm => by
  have hoff := off_self_sub (pageInfoAddr e) x
  have hlt : (x - pageInfoAddr e).toNat < n := hm
  rw [← pageInfoAddr_page hs (by omega)] at hoff
  obtain ⟨hr, hreg⟩ := region_page hs (i := (x - pageInfoAddr e).toNat) (by omega)
  have hregion := (region_pageInfoAddr hr).2
  rw [hoff, hreg] at hregion
  exact hx.metadata (hregion ▸ hp.type)

theorem ne_info (hp : MetadataPageAt d t) : x ≠ pageInfoAddr t := by
  rintro rfl
  exact hx.metadata ((region_pageInfoAddr hp.inRam).2 ▸ hp.type)

end Ordinary

/-- The enclave that a call builds. -/
def buildTarget : Call → Option Word
  | .enclaveLoadHandler e _ | .enclaveLoadPageTable e _ _ _ _ | .enclaveLoadPage e _ _ _ _ => some e
  | _ => none

theorem createEnclave_writes {b mask n : Word} {debug : Bool} (hx : Ordinary img d x)
    (hf : FreeSpace d e (enclaveMetadataPages n).toNat) :
    createEnclave d.mem e b mask n debug x = d.mem x := by
  have hp := (hf.free e ⟨0, hf.pos, by simp⟩).toMetadataPageAt
  have hcreate : (createEnclave d.mem e b mask n debug).AgreeOn _ _ := createEnclave_agree
  have htag : (tagPages d.mem e (enclaveMetadataPages n) .enclave).AgreeOn _ _ := tagPages_agree hf.pos
  rw [hcreate x (hx.notMem_header hp hf.slot), htag x (hx.notMem_infos hp hf.slot hf.fits)]

section
variable (h : HeapInv img d) (hx : Ordinary img d x)
include h hx

theorem deleteEnclave_writes (hg : DeleteGuard L d e) : (deleteEnclave d e).mem x = d.mem x := by
  have he := hg.enclave
  have hs := h.slot e _ he (by decide)
  cases hf : firstRegion d e with
  | none =>
    have hfit := (h.size e he).2
    rw [delete_none_eq h he hf]
    dsimp only
    rw [Mem.fill_apply_of_notMem fun hm => ?_]
    · exact freePages_agree x (hx.notMem_infos he.toMetadataPageAt hs hfit)
    · obtain ⟨b, hb, hxb⟩ := mem_pagesFrom hs hfit hm
      have hsb := h.slot_of_inExtent he hb
      exact hx.metadata (((hsb.region_of_mem hxb).2.trans (h.region_of_inExtent he hb)) ▸ he.type)
  | some i => exact delete_some_other he hf fun hm => hx.metadata (hm.2 ▸ he.type)

theorem exitEnclave_writes {aex : Bool} (hu : (d.cores c).owner ≠ ownerUntrusted) :
    (exitEnclave d c aex).mem x = d.mem x := by
  have ht := (h.running c hu).2
  exact exitEnclave_apply (hx.notMem_thread ht.page (h.slot_thread ht))
    (hx.notMem_stack (h.threadOk ht).faultSp)

theorem aexEnclave_writes {regs : Fin 32 → Word} (hu : (d.cores c).owner ≠ ownerUntrusted) :
    (aexEnclave d c regs).mem x = d.mem x := by
  have ht := (h.running c hu).2
  obtain ⟨d₁, hsave, heq⟩ := aexEnclave_eq h hu regs
  have hx₁ : Ordinary img d₁ x := ⟨hx.inRam, hx.frames, by rw [hsave.same.regions]; exact hx.metadata⟩
  rw [heq, exitEnclave_writes hsave.records.heap hx₁ (by rw [hsave.same.cores]; exact hu)]
  exact hsave.mem x (hx.notMem_thread ht.page (h.slot_thread ht))

theorem BuildFrame.writes (hf : BuildFrame d e d') (he : ValidMetadata d e .enclave)
    (ho : ¬ OwnedBy d e x) : d'.mem x = d.mem x :=
  hf.mem x (hx.notMem_header he.toMetadataPageAt (h.slot e _ he (by decide))) ho

theorem MailFrame.writes {owner box : Word} (hf : MailFrame d owner box d')
    (ho : owner = ownerUntrusted ∨ EnclaveOrDead d owner) (hid : MailboxId d owner box) :
    d'.mem x = d.mem x := by
  by_cases hu : owner = ownerUntrusted
  · exact hf.mem x (.inl hu)
  rw [MailboxId, if_neg hu] at hid
  rcases ho.resolve_left hu with he | hd
  · refine hf.mem x (.inr fun hm => ?_)
    obtain ⟨-, b, hb, hxb⟩ := h.mailboxBytes_page he hid hm
    have hsb := h.slot_of_inExtent he hb
    exact hx.metadata (((hsb.region_of_mem hxb).2.trans (h.region_of_inExtent he hb)) ▸ he.type)
  · rw [Data.enclave, (h.dead _ hd).numMailboxes] at hid
    exact absurd hid BitVec.not_lt_zero

theorem setRegion_writes {i : Fin 64} {v : Bool} (he : ValidMetadata d e .enclave) :
    Enclave.setRegion d.mem e i v x = d.mem x :=
  setRegion_apply (hx.notMem_header he.toMetadataPageAt (h.slot e _ he (by decide))) i v

theorem PageStep.writes {k k' : MetadataPage} (hp : PageStep d d' e t k k') : d'.mem x = d.mem x :=
  hp.mem x (hx.notMem_header hp.owner.page (hp.owner.slot h))
    (hx.notMem_thread hp.before.toMetadataPageAt (hp.slot h)) (hx.ne_info hp.before.toMetadataPageAt)

end

/-- A call writes memory of the enclave that it builds, the region that it makes a metadata
    region, and nothing else in ordinary memory. -/
theorem effect_writes (h : HeapInv img d) (hcare : CallCareful d k)
    (hE : Effect img L c ctx d k d') (hx : Ordinary img d x)
    (hbuild : ∀ e ∈ buildTarget k, ¬ OwnedBy d e x)
    (hnew : ∀ r, k = .regionMetadataCreate r → regionOf x ≠ toRegion r) : d'.mem x = d.mem x := by
  have hmail : (d.cores c).owner = ownerUntrusted ∨ EnclaveOrDead d (d.cores c).owner :=
    or_iff_not_imp_left.mpr fun hu => (h.running c hu).1
  cases k <;> simp only [Effect] at hE
  case enclaveCreate e b mask n debug =>
    obtain ⟨hf, rfl⟩ := hE
    exact createEnclave_writes hx (hf.freeSpace_enclave h hcare)
  case enclaveDelete e =>
    obtain ⟨hg, rfl⟩ := hE
    exact deleteEnclave_writes h hx hg
  case enclaveEnter e t =>
    obtain ⟨-, hg, rfl⟩ := hE
    exact enterEnclave_apply (hx.notMem_thread hg.thread.toMetadataPageAt (h.slot t _ hg.thread (by decide)))
  case enclaveExit =>
    obtain ⟨hu, rfl⟩ := hE
    exact exitEnclave_writes h hx hu
  case enclaveInit e =>
    obtain ⟨he, -, rfl⟩ := hE
    have hinit : (initEnclave img d.keys d.mem e).AgreeOn _ _ := initEnclave_agree
    exact hinit x (hx.notMem_header he.toMetadataPageAt (h.slot e _ he (by decide)))
  case enclaveLoadHandler e p =>
    obtain ⟨hg, rfl⟩ := hE
    exact (loadHandler_frame hg).writes h hx hg.enclave (hbuild e rfl)
  case enclaveLoadPageTable e p v l acl =>
    obtain ⟨hg, d₁, h₁, rfl⟩ := hE
    exact (loadPageTable_frame h₁).writes h hx hg.enclave (hbuild e rfl)
  case enclaveLoadPage e p v o acl =>
    obtain ⟨hg, d₁, h₁, rfl⟩ := hE
    exact (loadPage_frame hg.toLoadGuard h₁).writes h hx hg.enclave (hbuild e rfl)
  case mailAccept b o =>
    obtain ⟨hid, rfl⟩ := hE
    exact acceptMail_frame.writes h hx hmail hid
  case mailReceive b _ _ =>
    obtain ⟨hid, -, rfl⟩ := hE
    exact receiveMail_frame.writes h hx hmail hid
  case mailSend o b msg =>
    obtain ⟨hg, rfl⟩ := hE
    exact sendMail_frame.writes h hx (or_iff_not_imp_left.mpr fun hu => .inl (hg.enclave hu).1) hg.box
  case regionAssign r o =>
    obtain ⟨hg, rfl⟩ := hE
    rw [assignRegion_mem]
    split_ifs with hu
    · rfl
    · exact setRegion_writes h hx (hg.enclave hu)
  case regionBlock r =>
    obtain ⟨hg, rfl⟩ := hE
    rw [blockRegion_mem hg.notSm]
    split_ifs with hu
    · rfl
    · exact setRegion_writes h hx (hg.enclave hu)
  case regionMetadataCreate r =>
    obtain ⟨hlt, -, -, rfl⟩ := hE
    exact createMetadataRegion_other hlt fun hm => hnew r rfl hm.2
  case threadDelete t =>
    obtain ⟨ht, -, rfl⟩ := hE
    exact (deleteThread_step h ht hcare).writes h hx
  case threadLoad e t pc sp l =>
    obtain ⟨he, -, hf, rfl⟩ := hE
    exact (loadThread_step h he (hf.freeSpace h (by decide) (by decide))).writes h hx
  case regionCachePartitioning => rw [hE.2]; rfl
  all_goals
    rw [hE]
    try rfl

/-- A step that is no store to `x` writes it if it is a call that builds the owner, and else
    leaves it alone. -/
theorem CarefulStep.writes {ev : Event N} (hs : CarefulStep img s ev s') (h : SystemInv img s)
    (hx : Ordinary img s.data x)
    (hst : ∀ c r ctx, ev.1 = .call c (.regionMetadataCreate r) ctx →
      (s.data.regions (regionOf x)).state ≠ .free)
    (hl : ∀ c v, ev.1 ≠ .userStore c x v)
    (hbuild : ∀ L c k ctx d', ev.1 = .call c k ctx → Effect img L c ctx s.data k d' →
      ∀ f ∈ buildTarget k, ¬ OwnedBy s.data f x) : s'.data.mem x = s.data.mem x := by
  obtain ⟨l, o⟩ := ev
  cases l with
  | call c k ctx =>
    obtain ⟨r, rfl, hne, heq⟩ := (step_call hs.1).reply
    by_cases hv : r.value = 0
    · refine effect_writes h.heap hs.2 (heq hv) hx (hbuild _ c k ctx _ rfl (heq hv)) fun r hk hreg => ?_
      subst hk
      exact hst c r ctx rfl (hreg ▸ (heq hv).2.2.1)
    · rw [hne hv]
  | regionFree c r => rw [(step_free hs.1).2.1]
  | regionFreeStep c =>
    obtain ⟨p, hp, hs⟩ := step_freeStep hs.1
    cases hs with
    | passed hn hd => rw [hd]
    | failed hd => rw [hd]
    | done hn hd => rw [hd]; rfl
  | timer c regs =>
    obtain ⟨-, hu, -, -, hd⟩ := step_timer hs.1
    rw [hd]
    exact aexEnclave_writes h.heap hx hu
  | userStore c a v =>
    rw [(step_store hs.1).2.2]
    show s.data.mem.store8 a v x = _
    refine Mem.fill_apply_of_notMem fun hm => ?_
    obtain rfl := eq_of_mem_range_one hm
    exact hl c v rfl

/-! ## Untrusted memory -/

theorem Effect.buildTarget_enclave {f : Word} (hE : Effect img L c ctx d k d') (hf : f ∈ buildTarget k) :
    ValidMetadata d f .enclave := by
  cases k <;> cases hf <;> simp only [Effect] at hE
  case enclaveLoadHandler => exact hE.1.enclave
  case enclaveLoadPageTable => exact hE.1.enclave
  case enclaveLoadPage => exact hE.1.enclave

/-- The monitor does not write the memory of untrusted software. -/
theorem CarefulStep.untrusted_mem {ev : Event N} (hs : CarefulStep img s ev s') (h : SystemInv img s)
    (hr : (addrToRegionId x).toNat < 64) (ho : Owned s.data (regionOf x) ownerUntrusted)
    (hl : ∀ c v, ev.1 ≠ .userStore c x v) : s'.data.mem x = s.data.mem x := by
  have hm := h.regions.toMaps
  have hx : Ordinary img s.data x := by
    refine .of_region hr (fun h0 => ?_) fun ht => ?_
    · rw [h0, Owned, hm.monitor] at ho
      exact absurd ho.2 (by decide)
    · exact absurd (ho.2.symm.trans (hm.metadata _ ht).2) (by decide)
  refine hs.writes h hx (fun _ _ _ _ => by rw [ho.1]; decide) hl fun L c k ctx d' _ hE f hf hof => ?_
  have halign := (hE.buildTarget_enclave hf).aligned
  rw [← hof.2, ho.2] at halign
  exact absurd halign (by decide)

/-- Memory that has always been untrusted and was not stored to is as at boot. -/
theorem untrusted_mem_run {hist : List (Config N × Event N)} (hr : CarefulHistory img boot hist s)
    (hx : (addrToRegionId x).toNat < 64)
    (hno : ∀ y ∈ hist, Owned y.1.data (regionOf x) ownerUntrusted ∧ ∀ c v, y.2.1 ≠ .userStore c x v) :
    s.data.mem x = boot.mem x := by
  induction hr with
  | nil => exact congrFun (smInit_booting img boot).mem x
  | @snoc s₁ s' hist y hr hs ih =>
    obtain ⟨s₀, ev⟩ := y
    obtain ⟨heq, hs⟩ := hs
    obtain rfl : s₁ = s₀ := heq.symm
    obtain ⟨ho, hl⟩ := hno (s₁, ev) (by simp)
    rw [hs.untrusted_mem (CarefulHistory.run hr).inv hx ho hl]
    exact ih fun y hy => hno y (List.mem_append_left _ hy)

/-! ## The state of the monitor -/

/-- `sm_state` lies in the region of the monitor, above its stacks. -/
theorem Maps.smState_ordinary (hm : Maps d) (hx : x ∈ range smStateAddr smStateLen) :
    regionOf x = 0 ∧ Ordinary img d x := by
  rw [mem_range_iff (by decide), show smStateAddr.toNat = 0x80040000 by decide, smStateLen] at hx
  have hr : (addrToRegionId x).toNat < 64 := (addrToRegionId_lt x).mpr (by omega)
  have h0 : regionOf x = 0 := by
    apply Fin.ext
    rw [regionOf_val hr]
    show _ = 0
    omega
  refine ⟨h0, hr, fun c hc => ?_, ?_⟩
  · have hsp := untrustedFaultSpOf_toNat img c
    rw [integerContextSize, mem_range_iff (by omega)] at hc
    omega
  · rw [h0, hm.monitor]
    decide

/-- No careful step writes a byte of `sm_state`, which the data has as fields of its own. -/
theorem CarefulStep.smState_kept {ev : Event N} (hs : CarefulStep img s ev s') (h : SystemInv img s)
    (hx : x ∈ range smStateAddr smStateLen) : s'.data.mem x = s.data.mem x := by
  have hm := h.regions.toMaps
  have hsm : regionOf x = 0 ∧ Ordinary img s.data x := hm.smState_ordinary hx
  obtain ⟨h0, hord⟩ := hsm
  have hown : Owned s.data (regionOf x) ownerSm := by
    rw [h0, Owned, hm.monitor]
    exact ⟨rfl, rfl⟩
  refine hs.writes h hord (fun _ _ _ _ => by rw [hown.1]; decide) (fun c v hl => ?_)
    fun L c k ctx d' _ hE f hf hof => ?_
  · obtain ⟨l, o⟩ := ev
    obtain rfl : l = .userStore c x v := hl
    exact h.store_not_sm (step_store hs.1).2.1 hown
  · exact (h.heap.slot f _ (hE.buildTarget_enclave hf) (by decide)).ne_ownerSm (hof.2.symm.trans hown.2)

theorem CarefulRun.smState_kept (h : CarefulRun img boot es s) (hx : x ∈ range smStateAddr smStateLen) :
    s.data.mem x = boot.mem x := by
  have hboth : SystemInv img s ∧ s.data.mem x = boot.mem x := by
    refine Runs.invariant (I := fun s => SystemInv img s ∧ s.data.mem x = boot.mem x) h
      ⟨smInit_inv img boot, congrFun (smInit_booting img boot).mem x⟩ ?_
    rintro s ev s' ⟨hinv, hmem⟩ hs
    exact ⟨(step_inv hinv hs.2 hs.1).1, (hs.smState_kept hinv hx).trans hmem⟩
  exact hboth.2

/-! ## Initialized enclaves -/

theorem Owned.ordinary (h : HeapInv img d) (hm : Maps d) (he : ValidMetadata d e .enclave)
    (hr : (addrToRegionId x).toNat < 64) (ho : Owned d (regionOf x) e) : Ordinary img d x := by
  have hne := (h.slot e _ he (by decide)).ne_ownerSm
  refine .of_region hr (fun h0 => hne ?_) fun ht => hne ?_
  · rw [h0, Owned, hm.monitor] at ho
    exact ho.2.symm
  · exact ho.2.symm.trans (hm.metadata _ ht).2

/-- An enclave that is being built is not initialized. -/
theorem Effect.buildTarget_state {f : Word} (hE : Effect img L c ctx d k d') (hf : f ∈ buildTarget k) :
    (d.enclave f).initState ≠ enclaveStateInitialized := by
  have hne := ne_initialized
  cases k <;> cases hf <;> simp only [Effect] at hE
  case enclaveLoadHandler => rw [hE.1.state]; exact hne.1
  case enclaveLoadPageTable =>
    rcases hE.1.state with hs | hs <;> rw [hs]
    · exact hne.2.1
    · exact hne.2.2.1
  case enclaveLoadPage =>
    rcases hE.1.state with hs | hs <;> rw [hs]
    · exact hne.2.2.1
    · exact hne.2.2.2

/-- **The memory of an initialized enclave**: no step but a store by software writes it.  Even
    its deletion does not, which clears the region of its metadata instead. -/
theorem enclave_memory_kept {l : Label N} (h : CarefulRun img boot es s) (hs : CarefulStep img s (l, o) s')
    (hl : ∀ c a v, l ≠ .userStore c a v) (he : ValidMetadata s.data e .enclave)
    (hi : (s.data.enclave e).initState = enclaveStateInitialized) (hr : (addrToRegionId x).toNat < 64)
    (ho : Owned s.data (regionOf x) e) : s'.data.mem x = s.data.mem x := by
  have hinv := h.inv
  have hx := ho.ordinary hinv.heap hinv.regions.toMaps he hr
  refine hs.writes hinv hx (fun _ _ _ _ => by rw [ho.1]; decide) (fun c v => hl c x v)
    fun L c k ctx d' _ hE f hf hof => ?_
  refine hE.buildTarget_state hf ?_
  rw [← hof.2, ho.2]
  exact hi

set_option maxRecDepth 100000 in
/-- Entering the enclave is such a step. -/
theorem enclave_memory_kept_enter : ∃ es s o s', CarefulRun smallImage zeroBoot es s ∧
    CarefulStep smallImage s (callOn 1 (.enclaveEnter firstEnclave firstThread), o) s' ∧
    (s'.data.cores 1).owner = firstEnclave ∧ s'.data.mem 0x84004000 = s.data.mem 0x84004000 := by
  obtain ⟨es, s, o, s', h, hs, he, hi, ho, howner⟩ : ∃ es s o s', CarefulRun smallImage zeroBoot es s ∧
      CarefulStep smallImage s (callOn 1 (.enclaveEnter firstEnclave firstThread), o) s' ∧
      ValidMetadata s.data firstEnclave .enclave ∧
      (s.data.enclave firstEnclave).initState = enclaveStateInitialized ∧
      Owned s.data (regionOf 0x84004000) firstEnclave ∧ (s'.data.cores 1).owner = firstEnclave :=
    CarefulRun.exists_step_of_labels (setupLabels ++ buildLabels firstEnclave firstThread 0) _
      (by decide +kernel)
  exact ⟨es, s, o, s', h, hs, howner, enclave_memory_kept h hs nofun he hi (by decide) ho⟩

set_option maxRecDepth 100000 in
/-- Without an enclave of its own, core 1 has the monitor write into region 2 of the second
    enclave. -/
theorem enclave_memory_kept_fails : ∃ es s o s',
    Runs (Step smallImage) (smInit smallImage zeroBoot) es s ∧
    Step smallImage s (callOn 1 (.mailAccept 0xc30c30c30c1862f 0), o) s' ∧ (∀ e ∈ es, SizeOk e.1) ∧
    ValidMetadata s.data secondEnclave .enclave ∧
    (s.data.enclave secondEnclave).initState = enclaveStateInitialized ∧
    Owned s.data (regionOf 0x84005000) secondEnclave ∧
    s'.data.mem 0x84005000 ≠ s.data.mem 0x84005000 :=
  Runs.exists_step_of_runsOf (zombieLabels 0) _ (by decide +kernel)

end SecurityMonitor
