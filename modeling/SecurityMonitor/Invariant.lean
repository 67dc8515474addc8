/-
  The invariant of the system and its runs.

  * `Careful s l`: what the monitor does not check about the label `l`;
  * `CarefulStep`: a step with a careful label and with all region indices in bounds;
    a careful run has such steps only.  `Spares` and `Exclusive` are further
    conditions, on the threads that cores run;
  * `SystemInv img s`: the invariants of the metadata pages and of the regions,
    and what each `region_free` in progress has established;
  * `step_inv`: a careful step keeps `SystemInv`, and changes the metadata of
    enclaves as `eventChange` says;
  * `CarefulRun.inv`: `SystemInv` holds in every state that a careful run reaches.
-/
import SecurityMonitor.RegionSteps

namespace SecurityMonitor

open ByteMem

variable {N : ℕ} {img : Image N} {boot : Boot N} {s s' : Config N} {d d' : Data N} {c : Fin N}
  {l : Label N} {o : Option Reply} {L : LockId N → Bool} {p : FreeCall}

/-! ## Conditions on steps -/

instance (d : Data N) (k : Call) : Decidable (CallCareful d k) := by
  cases k
  case enclaveCreate e b mask n debug => exact inferInstanceAs (Decidable (NoWrap n))
  case threadDelete t => exact inferInstanceAs (Decidable (NotRunning d t))
  all_goals exact isTrue trivial

/-- What the monitor does not check. -/
def Careful (s : Config N) : Label N → Prop
  | .call _ k _ => CallCareful s.data k
  | _ => True

instance (s : Config N) (l : Label N) : Decidable (Careful s l) := by
  cases l with
  | call _ k _ => exact inferInstanceAs (Decidable (CallCareful s.data k))
  | _ => exact isTrue trivial

/-- The size of the metadata of a new enclave does not wrap. -/
def SizeOk : Label N → Prop
  | .call _ (.enclaveCreate _ _ _ n _) _ => NoWrap n
  | _ => True

instance (l : Label N) : Decidable (SizeOk l) := by
  cases l with
  | call _ k _ =>
    cases k
    case enclaveCreate e b mask n debug => exact inferInstanceAs (Decidable (NoWrap n))
    all_goals exact isTrue trivial
  | _ => exact isTrue trivial

/-- The metadata region that `enclave_delete` clears holds nothing that a core runs. -/
def Spares (s : Config N) : Label N → Prop
  | .call _ (.enclaveDelete e) _ => firstRegion s.data e = none ∨
      ∀ c, (s.data.cores c).owner ≠ ownerUntrusted →
        regionOf (s.data.cores c).owner ≠ regionOf e ∧ regionOf (s.data.cores c).thread ≠ regionOf e
  | _ => True

instance (s : Config N) (l : Label N) : Decidable (Spares s l) := by
  cases l with
  | call _ k _ =>
    cases k
    case enclaveDelete e => exact inferInstanceAs (Decidable (_ ∨ _))
    all_goals exact isTrue trivial
  | _ => exact isTrue trivial

/-- No core runs the thread that is entered. -/
def Exclusive (s : Config N) : Label N → Prop
  | .call _ (.enclaveEnter _ t) _ => NotRunning s.data t
  | _ => True

instance (s : Config N) (l : Label N) : Decidable (Exclusive s l) := by
  cases l with
  | call _ k _ =>
    cases k
    case enclaveEnter e t => exact inferInstanceAs (Decidable (NotRunning s.data t))
    all_goals exact isTrue trivial
  | _ => exact isTrue trivial

def IsEnclaveDelete : Label N → Prop
  | .call _ (.enclaveDelete _) _ => True
  | _ => False

instance (l : Label N) : Decidable (IsEnclaveDelete l) := by
  cases l with
  | call _ k _ =>
    cases k
    case enclaveDelete => exact isTrue trivial
    all_goals exact isFalse id
  | _ => exact isFalse id

/-! ## The invariant -/

/-- What a `region_free` in progress on core `c` has established. -/
structure FreeInv (s : Config N) (p : FreeCall) : Prop where
  valid : p.regionId.toNat < 64
  own : p.lockedRegions = Function.update (fun _ => false) (toRegion p.regionId) true
  locked : s.locks (.region (toRegion p.regionId)) = true
  blocked : (s.data.regions (toRegion p.regionId)).state = .blocked
  checked : ∀ c : Fin N, c.val < p.next → ¬ Accessible s.data c (toRegion p.regionId)

structure SystemInv (img : Image N) (s : Config N) : Prop where
  heap : HeapInv img s.data
  regions : RegionInv s.data
  pending : ∀ c p, s.pending c = some p → FreeInv s p
  separate : ∀ c c' p p', s.pending c = some p → s.pending c' = some p' → c ≠ c' →
    toRegion p.regionId ≠ toRegion p'.regionId

/-- The change that an event makes to the metadata of the enclave at `f`. -/
def eventChange (img : Image N) (s : Config N) (f : Word) : Event N → EnclaveMetadata → EnclaveMetadata
  | (.call c k _, some r) => if r.value = 0 then changeRecord img s.data c f k else id
  | _ => id

/-- The event creates an enclave at `f`. -/
def EventCreates : Event N → Word → EnclaveMetadata → Prop
  | (.call _ k _, some r), f, E => r.value = 0 ∧ CreatedBy k f E
  | _, _, _ => False

/-! ## The data -/

/-- What a step does to the data, with `L` the locks that others hold during it. -/
structure DataStep (img : Image N) (L : LockId N → Bool) (s : Config N) (e : Event N) (d' : Data N) :
    Prop where
  records : Records img s.data d' (fun f => eventChange img s f e) (EventCreates e)
  regions : RegionStep L s.data d'

theorem RegionStep.refl (h : RegionInv d) : RegionStep L d d := ⟨h, fun _ _ => rfl, fun _ _ => .inl⟩

theorem RegionStep.of_same {d₁ : Data N} (h : RegionStep L d₁ d') (hr : d₁.regions = d.regions)
    (hc : d₁.cores = d.cores) : RegionStep L d d' where
  inv := h.inv
  locked i hi := by rw [← hr]; exact h.locked i hi
  bits c i hi := by rw [Accessible, ← hc]; exact h.bits c i hi

/-- Two steps that keep the metadata of enclaves, the first of which destroys nothing. -/
theorem Records.trans {d₁ : Data N} (h₁ : Records img d d₁ (fun _ => id) fun _ _ => False)
    (heq : ∀ f, LiveOrRunning d f → LiveOrRunning d₁ f → d₁.enclave f = d.enclave f)
    (h₂ : Records img d₁ d' (fun _ => id) fun _ _ => False) :
    Records img d d' (fun _ => id) fun _ _ => False where
  heap := h₂.heap
  running c hc := (h₁.liveOrRunning (h₂.running c hc)).resolve_right id
  live f hf := (h₂.live f hf).imp_left fun hf => (h₁.live f hf).resolve_right id
  record f hf hf' := by
    have hf₁ := (h₂.liveOrRunning hf').resolve_right id
    rcases h₂.record f hf₁ hf' with he | hd
    · exact .inl (he.trans (heq f hf hf₁))
    · exact .inr hd

theorem SystemInv.dataStep_refl (h : SystemInv img s) {e : Event N}
    (he : ∀ f, eventChange img s f e = id) : DataStep img L s e s.data := by
  refine ⟨?_, RegionStep.refl h.regions⟩
  simp only [he]
  exact records_of_mem h.heap rfl rfl fun _ => ⟨rfl, rfl⟩

theorem call_dataStep {k : Call} {ctx : TrapContext} (h : SystemInv img s)
    (hc : Careful s (.call c k ctx)) (hs : CallStep img s c k ctx o s') :
    DataStep img s.locks s (.call c k ctx, o) s'.data := by
  obtain ⟨r, rfl, hne, heq⟩ := hs.reply
  by_cases hr : r.value = 0
  · have hE := heq hr
    refine ⟨?_, effect_step h.heap h.regions hc hE⟩
    have hrec := effect_records h.heap h.regions hc hE
    simp only [eventChange, hr, if_true]
    exact ⟨hrec.heap, hrec.running, fun f hf => (hrec.live f hf).imp_right fun hn => ⟨hr, hn⟩,
      hrec.record⟩
  · rw [hne hr]
    exact h.dataStep_refl fun f => by simp only [eventChange, hr, if_false]

/-- The registers of an interrupted thread are saved on its page. -/
structure SavedRegs (img : Image N) (d : Data N) (c : Fin N) (regs : Fin 32 → Word) (d₁ : Data N) :
    Prop where
  same : SameRegions d d₁
  records : Records img d d₁ (fun _ => id) fun _ _ => False
  agrees : AgreesOutside d d₁ {(d.cores c).thread}
  mem : ∀ x ∉ threadBytes (d.cores c).thread, d₁.mem x = d.mem x
  thread : d₁.thread (d.cores c).thread = { d.thread (d.cores c).thread with aexState := regs }

theorem aexEnclave_eq (h : HeapInv img d) (hu : (d.cores c).owner ≠ ownerUntrusted)
    (regs : Fin 32 → Word) :
    ∃ d₁, SavedRegs img d c regs d₁ ∧ aexEnclave d c regs = exitEnclave d₁ c true := by
  refine ⟨{ d with mem := Thread.setAexState d.mem (d.cores c).thread regs },
    ⟨⟨rfl, rfl, rfl, rfl⟩, ?_, setAexState_agrees h hu, fun x hx => setAexState_apply hx, ?_⟩, rfl⟩
  · exact (setAexState_keepsHeap h hu).records h fun _ hE hne =>
      (setAexState_agrees h hu).enclave_eq hE.page (hE.slot h) (hne c hu)
  · exact threadMetadata_setAexState ..

/-- The timer interrupt: the registers are saved, then the core leaves the enclave. -/
theorem timer_dataStep {regs : Fin 32 → Word} (h : SystemInv img s)
    (hu : (s.data.cores c).owner ≠ ownerUntrusted) :
    DataStep img L s (.timer c regs, o) (aexEnclave s.data c regs) := by
  obtain ⟨d₁, hsave, heq⟩ := aexEnclave_eq h.heap hu regs
  have hrec₁ := hsave.records
  have hstep₁ : RegionStep L s.data d₁ :=
    h.regions.step_of_same hsave.same hrec₁ (fun _ _ hn => hn.elim) fun _ _ _ => rfl
  have hu₁ : (d₁.cores c).owner ≠ ownerUntrusted := by rw [hsave.same.cores]; exact hu
  have hrec₂ : Records img d₁ (exitEnclave d₁ c true) (fun _ => id) (fun _ _ => False) :=
    (exitEnclave_keepsHeap hrec₁.heap hstep₁.inv.monitorRegion hu₁).records hrec₁.heap fun f hE hne =>
      (exitEnclave_agrees hrec₁.heap hstep₁.inv.monitorRegion hu₁).enclave_eq hE.page
        (hE.slot hrec₁.heap) (hne c hu₁)
  have hstep₂ : RegionStep L d₁ (exitEnclave d₁ c true) :=
    exitEnclave_step hrec₁.heap hstep₁.inv hu₁ hrec₂ fun _ _ hn => hn.elim
  rw [heq]
  refine ⟨hrec₁.trans (fun f hf _ => ?_) hrec₂, hstep₂.of_same hsave.same.regions hsave.same.cores⟩
  have hE := hf.enclaveOrDead h.heap
  refine hsave.agrees.enclave_eq hE.page (hE.slot h.heap) ?_
  rcases hf with hv | ⟨hne, c', rfl⟩
  · exact (h.heap.running c hu).2.ne_of_enclave hv
  · exact h.heap.distinct c' c hne hu

theorem HeapInv.owner_ne_sm (h : HeapInv img d) (hu : (d.cores c).owner ≠ ownerUntrusted) :
    (d.cores c).owner ≠ ownerSm :=
  ((h.running c hu).1.slot h).ne_ownerSm

/-- A store to a byte outside the metadata regions. -/
theorem store8_agrees {a : Word} {v : Byte} (hne : (d.regions (regionOf a)).type ≠ .metadata) :
    AgreesOutside d { d with mem := d.mem.store8 a v } ∅ := by
  have hmem {b x : Word} (hp : MetadataPageAt d b) (hx : regionOf x = regionOf b) :
      d.mem.store8 a v x = d.mem x := by
    refine Mem.fill_apply_of_notMem fun hxa => hne ?_
    rw [← eq_of_mem_range_one hxa, hx]
    exact hp.type
  refine ⟨samePages_of_mem rfl fun b hp => ?_, fun b hp hs _ x hx => ?_⟩
  · exact hmem hp (region_pageInfoAddr hp.inRam).2
  · exact hmem hp (hs.region_of_mem hx).2

theorem SystemInv.store_not_sm {a : Word} (h : SystemInv img s) (hs : CanStore s c a) :
    ¬ Owned s.data (regionOf a) ownerSm := by
  refine h.regions.accessible_not_sm (c := c) (fun c' => h.heap.owner_ne_sm) ?_
  rw [← (h.regions.cores c).hart.1, ← (h.regions.cores c).hart.2]
  exact hs.2

theorem SystemInv.store_ne_metadata {a : Word} (h : SystemInv img s) (hs : CanStore s c a) :
    (s.data.regions (regionOf a)).type ≠ .metadata := fun ht =>
  h.store_not_sm hs (h.regions.metadata _ ht)

theorem store_dataStep {a : Word} {v : Byte} (h : SystemInv img s) (hs : CanStore s c a) :
    DataStep img L s (.userStore c a v, o) { s.data with mem := s.data.mem.store8 a v } := by
  have hrec : Records img s.data { s.data with mem := s.data.mem.store8 a v } (fun _ => id)
      (fun _ _ => False) :=
    (store8_agrees (h.store_ne_metadata hs)).records_empty h.heap fun _ => ⟨rfl, rfl⟩
  exact ⟨hrec, h.regions.step_of_same ⟨rfl, rfl, rfl, rfl⟩ hrec (fun _ _ hn => hn.elim) fun _ _ _ => rfl⟩

theorem freeRegion_agrees {i : Fin 64} (hb : (d.regions i).state = .blocked) :
    AgreesOutside d (freeRegion d i) ∅ := by
  have hregions : (freeRegion d i).regions =
      Function.update d.regions i { d.regions i with state := .free } := rfl
  refine agreesOutside_of_regions rfl fun j => ?_
  rw [hregions]
  by_cases hj : j = i
  · rw [hj, Function.update_self, hb]
    exact iff_of_false (fun ht => absurd ht.2 nofun) fun ht => absurd ht.2 nofun
  · rw [Function.update_of_ne hj]

theorem free_dataStep (h : SystemInv img s) (hp : s.pending c = some p) (hn : N ≤ p.next) :
    DataStep img (othersLocks s.locks p.lockedRegions) s (.regionFreeStep c, o)
      (freeRegion s.data (toRegion p.regionId)) := by
  have hinv := h.pending c p hp
  have hrec : Records img s.data (freeRegion s.data (toRegion p.regionId)) (fun _ => id)
      (fun _ _ => False) := (freeRegion_agrees hinv.blocked).records_empty h.heap fun _ => ⟨rfl, rfl⟩
  refine ⟨hrec, freeRegion_step h.regions ?_ hinv.blocked (fun c' => ?_) hrec⟩
  · simp only [othersLocks, hinv.own, Function.update_self, Bool.not_true, Bool.and_false]
  · exact hinv.checked c' (by have := c'.isLt; omega)

/-! ## The steps -/

/-- What a `region_free` has established stays, as long as it holds the lock of its
    region. -/
theorem FreeInv.step (h : FreeInv s p) (hs : RegionStep L s.data s'.data)
    (hL : L (.region (toRegion p.regionId)) = true)
    (hl : s'.locks (.region (toRegion p.regionId)) = true) : FreeInv s' p where
  valid := h.valid
  own := h.own
  locked := hl
  blocked := by rw [hs.locked _ hL]; exact h.blocked
  checked c hc hacc := by
    rcases hs.bits c _ hacc with ha | ho
    · exact h.checked c hc ha
    · rw [hs.locked _ hL, h.blocked] at ho
      exact absurd ho nofun

/-- A step that leaves the `region_free`s in progress. -/
theorem SystemInv.of_pending {e : Event N} (h : SystemInv img s) (hd : DataStep img s.locks s e s'.data)
    (hp : s'.pending = s.pending) (hl : KeepsLocks s s') : SystemInv img s' where
  heap := hd.records.heap
  regions := hd.regions.inv
  pending c p hc := by
    rw [hp] at hc
    have hinv := h.pending c p hc
    exact hinv.step hd.regions hinv.locked (hl _ hinv.locked)
  separate := by rw [hp]; exact h.separate

theorem SystemInv.freeStarted {r : Word} (h : SystemInv img s) (hd : s'.data = s.data)
    (hl : KeepsLocks s s') (hs : FreeStarted s c r s') : SystemInv img s' where
  heap := by rw [hd]; exact h.heap
  regions := by rw [hd]; exact h.regions
  pending c' p hc' := by
    rw [hs.pending, Function.update_apply] at hc'
    split_ifs at hc' with hc
    · obtain rfl := Option.some.inj hc'
      exact ⟨hs.valid, rfl, hs.locked, by rw [hd]; exact hs.state, fun _ h0 => absurd h0 (Nat.not_lt_zero _)⟩
    · have hinv := h.pending c' p hc'
      have hstep : RegionStep s.locks s.data s'.data := by rw [hd]; exact RegionStep.refl h.regions
      exact hinv.step hstep hinv.locked (hl _ hinv.locked)
  separate c₁ c₂ p₁ p₂ h₁ h₂ hne := by
    -- the region was not locked, those of the others are
    have hfresh {c' : Fin N} {p : FreeCall} (hp : s.pending c' = some p) :
        toRegion p.regionId ≠ toRegion r := fun heq => by
      have hlock := (h.pending c' p hp).locked
      rw [heq, hs.unlocked] at hlock
      exact absurd hlock nofun
    rw [hs.pending, Function.update_apply] at h₁ h₂
    split_ifs at h₁ h₂ with hc₁ hc₂ hc₂
    · exact absurd (hc₁.trans hc₂.symm) hne
    · obtain rfl := Option.some.inj h₁
      exact (hfresh h₂).symm
    · obtain rfl := Option.some.inj h₂
      exact hfresh h₁
    · exact h.separate c₁ c₂ p₁ p₂ h₁ h₂ hne

/-- The locks of the other `region_free`s in progress. -/
theorem SystemInv.othersLocks {c' : Fin N} {p' : FreeCall} (h : SystemInv img s)
    (hp : s.pending c = some p) (hp' : s.pending c' = some p') (hne : c' ≠ c) :
    othersLocks s.locks p.lockedRegions (.region (toRegion p'.regionId)) = true := by
  have hr := h.separate c' c p' p hp' hp hne
  simp only [SecurityMonitor.othersLocks, (h.pending c p hp).own, Function.update_of_ne hr,
    (h.pending c' p' hp').locked, Bool.not_false, Bool.and_true]

/-- A `region_free` ends. -/
theorem SystemInv.freeEnded {e : Event N} (h : SystemInv img s) (hp : s.pending c = some p)
    (hd : DataStep img (SecurityMonitor.othersLocks s.locks p.lockedRegions) s e s'.data)
    (hpend : s'.pending = Function.update s.pending c none)
    (hl : ∀ l, SecurityMonitor.othersLocks s.locks p.lockedRegions l = true → s'.locks l = true) :
    SystemInv img s' where
  heap := hd.records.heap
  regions := hd.regions.inv
  pending c' p' hc' := by
    rw [hpend, Function.update_apply] at hc'
    split_ifs at hc' with hc
    have hlock := h.othersLocks hp hc' hc
    exact (h.pending c' p' hc').step hd.regions hlock (hl _ hlock)
  separate c₁ c₂ p₁ p₂ h₁ h₂ := by
    rw [hpend, Function.update_apply] at h₁ h₂
    split_ifs at h₁ h₂
    exact h.separate c₁ c₂ p₁ p₂ h₁ h₂

/-- A check of a `region_free` has passed. -/
theorem SystemInv.freePassed (h : SystemInv img s) (hp : s.pending c = some p) (hn : p.next < N)
    (hd : s'.data = s.data) (hl : s'.locks = s.locks)
    (hpend : s'.pending = Function.update s.pending c (some { p with next := p.next + 1 }))
    (hacc : ¬ Accessible s.data ⟨p.next, hn⟩ (toRegion p.regionId)) : SystemInv img s' where
  heap := by rw [hd]; exact h.heap
  regions := by rw [hd]; exact h.regions
  pending c' p' hc' := by
    rw [hpend, Function.update_apply] at hc'
    split_ifs at hc' with hc
    · obtain rfl := Option.some.inj hc'
      have hinv := h.pending c p hp
      refine ⟨hinv.valid, hinv.own, by rw [hl]; exact hinv.locked, by rw [hd]; exact hinv.blocked, ?_⟩
      rw [hd]
      intro c'' hlt
      rcases Nat.lt_succ_iff_lt_or_eq.mp hlt with hlt | heq
      · exact hinv.checked c'' hlt
      · rwa [show c'' = ⟨p.next, hn⟩ from Fin.ext heq]
    · have hinv := h.pending c' p' hc'
      have hstep : RegionStep s.locks s.data s'.data := by rw [hd]; exact RegionStep.refl h.regions
      exact hinv.step hstep hinv.locked (by rw [hl]; exact hinv.locked)
  separate c₁ c₂ p₁ p₂ h₁ h₂ hne := by
    rw [hpend, Function.update_apply] at h₁ h₂
    split_ifs at h₁ h₂ with hc₁ hc₂ hc₂
    · exact absurd (hc₁.trans hc₂.symm) hne
    · obtain rfl := Option.some.inj h₁
      exact h.separate c c₂ p p₂ hp h₂ (Ne.symm hc₂)
    · obtain rfl := Option.some.inj h₂
      exact h.separate c₁ c p₁ p h₁ hp hc₁
    · exact h.separate c₁ c₂ p₁ p₂ h₁ h₂ hne

theorem freeStep_inv (h : SystemInv img s) (hp : s.pending c = some p) (hs : FreeStep s c p s') :
    SystemInv img s' ∧ ∃ L, DataStep img L s (.regionFreeStep c, o) s'.data := by
  have hrefl : ∀ L, DataStep img L s (.regionFreeStep c, o) s.data := fun _ => h.dataStep_refl fun _ => rfl
  cases hs with
  | passed hn hd hl hpend hm he =>
    refine ⟨h.freePassed hp hn hd hl hpend ?_, s.locks, by rw [hd]; exact hrefl _⟩
    rw [← toRegion_val (h.pending c p hp).valid] at hm he
    rintro (hacc | hacc)
    · rw [hm] at hacc; exact absurd hacc nofun
    · rw [he] at hacc; exact absurd hacc nofun
  | failed hd hpend hl =>
    have hstep : DataStep img (SecurityMonitor.othersLocks s.locks p.lockedRegions) s
      (.regionFreeStep c, o) s'.data := by rw [hd]; exact hrefl _
    exact ⟨h.freeEnded hp hstep hpend hl, _, hstep⟩
  | done hn hd hpend hl =>
    have hstep : DataStep img (SecurityMonitor.othersLocks s.locks p.lockedRegions) s
      (.regionFreeStep c, o) s'.data := by rw [hd]; exact free_dataStep h hp hn
    exact ⟨h.freeEnded hp hstep hpend hl, _, hstep⟩

/-- **A careful step keeps the invariant**, and changes the data as `DataStep` says. -/
theorem step_inv {e : Event N} (h : SystemInv img s) (hc : Careful s e.1) (hs : Step img s e s') :
    SystemInv img s' ∧ ∃ L, DataStep img L s e s'.data := by
  obtain ⟨l, o⟩ := e
  cases l with
  | call c k ctx =>
    have hs := step_call hs
    have hd := call_dataStep h hc hs
    exact ⟨h.of_pending hd hs.pending hs.locks, _, hd⟩
  | regionFree c r =>
    obtain ⟨-, hd, hl, hp⟩ := step_free hs
    have hstep : DataStep img s.locks s (.regionFree c r, o) s'.data := by
      rw [hd]; exact h.dataStep_refl fun _ => rfl
    rcases hp with hp | hp
    · exact ⟨h.of_pending hstep hp hl, _, hstep⟩
    · exact ⟨h.freeStarted hd hl hp, _, hstep⟩
  | regionFreeStep c =>
    obtain ⟨p, hp, hs⟩ := step_freeStep hs
    exact freeStep_inv h hp hs
  | timer c regs =>
    obtain ⟨-, hu, hp, hl, hd⟩ := step_timer hs
    have hstep : DataStep img s.locks s (.timer c regs, o) s'.data := by
      rw [hd]; exact timer_dataStep h hu
    exact ⟨h.of_pending hstep hp hl, _, hstep⟩
  | userStore c a v =>
    obtain ⟨-, hcan, rfl⟩ := step_store hs
    have hstep : DataStep img s.locks s (.userStore c a v, o)
      { s.data with mem := s.data.mem.store8 a v } := store_dataStep h hcan
    exact ⟨h.of_pending hstep rfl fun _ h => h, _, hstep⟩

/-! ## The start -/

/-- The cores in `done` have been initialised. -/
structure Booting (d₀ : Data N) (done : List (Fin N)) (d : Data N) : Prop where
  regions : d.regions = d₀.regions
  untrusted : d.untrustedRegions = d₀.untrustedRegions
  mailboxes : d.untrustedMailboxes = d₀.untrustedMailboxes
  partitions : d.llcPartitions = d₀.llcPartitions
  slices : d.llcSlices = d₀.llcSlices
  mem : d.mem = d₀.mem
  running : SameRunning d₀ d
  refreshed : ∀ c ∈ done, Refreshed d c

theorem Refreshed.of_frame {c' : Fin N} (h : Refreshed d c') (hf : RefreshFrame d c d') (hne : c' ≠ c)
    (hu : d'.untrustedRegions = d.untrustedRegions) (hmem : d'.mem = d.mem) : Refreshed d' c' where
  mmrbm := by rw [hf.cores c' hne, hu]; exact h.mmrbm
  memrbm := by rw [hf.cores c' hne, Data.enclave, hmem]; exact h.memrbm
  hart := by rw [hf.cores c' hne, hf.harts c' hne]; exact h.hart

theorem Booting.initCore {d₀ : Data N} {done : List (Fin N)} (h : Booting d₀ done d) (c : Fin N) :
    Booting d₀ (done ++ [c]) (initCore img d c) := by
  have hframe : RefreshFrame d c (SecurityMonitor.initCore img d c) :=
    { keys := rfl
      owner := by simp [SecurityMonitor.initCore, platformUpdateMemoryProtection, Data.setCore, Data.setHart]
      thread := by simp [SecurityMonitor.initCore, platformUpdateMemoryProtection, Data.setCore, Data.setHart]
      cores := fun c' hc => by
        simp [SecurityMonitor.initCore, platformUpdateMemoryProtection, Data.setCore, Data.setHart, hc]
      harts := fun c' hc => by
        simp [SecurityMonitor.initCore, platformUpdateMemoryProtection, Data.setCore, Data.setHart, hc] }
  refine ⟨h.regions, h.untrusted, h.mailboxes, h.partitions, h.slices, h.mem, fun c' => ?_, fun c' hc' => ?_⟩
  · have hr := hframe.sameRunning c'
    exact ⟨hr.1.trans (h.running c').1, hr.2.trans (h.running c').2⟩
  · by_cases hcc : c' = c
    · rw [hcc]; exact platformUpdateMemoryProtection_refreshed
    · have hd : c' ∈ done := by simpa [hcc] using hc'
      exact (h.refreshed c' hd).of_frame hframe hcc rfl rfl

theorem booting_foldl {d₀ : Data N} : ∀ (l done : List (Fin N)) (d : Data N), Booting d₀ done d →
    Booting d₀ (done ++ l) (l.foldl (initCore img) d)
  | [], done, d, h => by rw [List.append_nil]; exact h
  | c :: l, done, d, h => by
    rw [List.foldl_cons, List.append_cons]
    exact booting_foldl l (done ++ [c]) _ (h.initCore c)

theorem smInit_booting (img : Image N) (boot : Boot N) :
    Booting (initState boot) (List.finRange N) (smInit img boot).data :=
  booting_foldl (List.finRange N) [] _ ⟨rfl, rfl, rfl, rfl, rfl, rfl, fun _ => ⟨rfl, rfl⟩, nofun⟩

theorem initState_region (boot : Boot N) (i : Fin 64) : (initState boot).regions i =
    if regionDoesntIncludeSm i then ⟨ownerUntrusted, .untrusted, .owned⟩ else ⟨ownerSm, .sm, .owned⟩ := by
  simp only [initState]

theorem initState_untrustedRegions (boot : Boot N) :
    (initState boot).untrustedRegions = regionDoesntIncludeSm := by
  simp only [initState]

theorem initState_region_type (boot : Boot N) (i : Fin 64) :
    ((initState boot).regions i).type ≠ .metadata := by
  rw [initState_region]
  cases regionDoesntIncludeSm i <;> nofun

section
variable (hb : Booting (initState boot) (List.finRange N) d)
include hb

theorem Booting.idle (c : Fin N) : (d.cores c).owner = ownerUntrusted := (hb.running c).1

theorem Booting.not_valid {a : Word} {k : MetadataPage} : ¬ ValidMetadata d a k := fun hv =>
  initState_region_type boot _ (hb.regions ▸ hv.type)

theorem Booting.maps : Maps d where
  metadata i ht := absurd (hb.regions ▸ ht) (initState_region_type boot i)
  monitor := by
    rw [hb.regions, initState_region, if_neg (by decide)]
  untrusted i hi := by
    rw [hb.untrusted, initState_untrustedRegions] at hi
    rw [Owned, hb.regions, initState_region, if_pos hi]
    exact ⟨rfl, rfl⟩
  enclaves e he := by
    rcases he with hv | ⟨hne, c, rfl⟩
    · exact absurd hv hb.not_valid
    · exact absurd (hb.idle c) hne

theorem Booting.regionInv : RegionInv d :=
  ⟨hb.maps, fun c => (hb.refreshed c (List.mem_finRange c)).coreInv hb.maps⟩

theorem Booting.heapInv : HeapInv img d where
  slot _ _ hv := absurd hv hb.not_valid
  size _ hv := absurd hv hb.not_valid
  body _ hv := absurd hv hb.not_valid
  free _ hv := absurd hv hb.not_valid
  tail _ hv := (hv.elim hb.not_valid hb.not_valid).elim
  thread _ hv := absurd hv hb.not_valid
  dead _ hd := absurd hd.page hb.not_valid
  running c hc := absurd (hb.idle c) hc
  distinct c _ hc := absurd (hb.idle c) hc
  initialized _ hv := absurd hv hb.not_valid
  counts _ hv := absurd hv hb.not_valid

end

/-- **The state after `sm_init` meets the invariant.** -/
theorem smInit_inv (img : Image N) (boot : Boot N) : SystemInv img (smInit img boot) :=
  ⟨(smInit_booting img boot).heapInv, (smInit_booting img boot).regionInv, nofun, nofun⟩

/-! ## Runs -/

/-- A step whose label is careful, and all of whose region indices are below
    `NUM_REGIONS`. -/
structure CarefulStep (img : Image N) (s : Config N) (e : Event N) (s' : Config N) : Prop where
  step : Step img s e s'
  careful : Careful s e.1
  inBounds : ¬ IndexFaults img s e.1

/-- A step has no index out of bounds, because after a fault there is no next state. -/
theorem Step.carefully {e : Event N} (hs : Step img s e s') (hc : Careful s e.1) : CarefulStep img s e s' :=
  ⟨hs, hc, hs.not_indexFaults⟩

/-- A run from the state after `sm_init`, all of whose steps are careful. -/
def CarefulRun (img : Image N) (boot : Boot N) : List (Event N) → Config N → Prop :=
  Runs (CarefulStep img) (smInit img boot)

/-- The history of a careful run: its events, each with the state before it. -/
def CarefulHistory (img : Image N) (boot : Boot N) : List (Config N × Event N) → Config N → Prop :=
  Runs (Traced (CarefulStep img)) (smInit img boot)

theorem CarefulHistory.run {hist : List (Config N × Event N)} (h : CarefulHistory img boot hist s) :
    CarefulRun img boot (hist.map Prod.snd) s := Runs.of_traced h

/-- Careful runs, from a list of labels. -/
def carefulExec (img : Image N) (s : Config N) (l : Label N) : Option (Option Reply × Config N) :=
  if Careful s l then exec img s l else none

theorem carefulStep_of_exec {e : Event N} (h : carefulExec img s e.1 = some (e.2, s')) :
    CarefulStep img s e s' := by
  by_cases hc : Careful s e.1
  · rw [carefulExec, if_pos hc] at h
    exact Step.carefully h hc
  · rw [carefulExec, if_neg hc] at h
    cases h

theorem CarefulRun.exists_of_labels (ls : List (Label N)) {P : List (Event N) → Config N → Prop}
    [∀ es s, Decidable (P es s)]
    (h : (runsOf (carefulExec img) (smInit img boot) ls).any (fun r => decide (P r.1 r.2)) = true) :
    ∃ es s, CarefulRun img boot es s ∧ P es s := by
  obtain ⟨es, s, hr, hp⟩ := Runs.exists_of_runsOf ls h
  exact ⟨es, s, hr.mono fun _ _ _ => carefulStep_of_exec, hp⟩

theorem CarefulRun.exists_step_of_labels (ls : List (Label N)) (l : Label N)
    {P : List (Event N) → Config N → Option Reply → Config N → Prop}
    [∀ es s o s', Decidable (P es s o s')]
    (h : (runsOf (carefulExec img) (smInit img boot) ls).any (fun x =>
      (carefulExec img x.2 l).any fun y => decide (P x.1 x.2 y.1 y.2)) = true) :
    ∃ es s o s', CarefulRun img boot es s ∧ CarefulStep img s (l, o) s' ∧ P es s o s' := by
  obtain ⟨es, s, o, s', hr, he, hp⟩ := Runs.exists_step_of_runsOf ls l h
  exact ⟨es, s, o, s', hr.mono fun _ _ _ => carefulStep_of_exec, carefulStep_of_exec he, hp⟩

theorem CarefulHistory.exists_of_labels (ls : List (Label N))
    {P : List (Config N × Event N) → Config N → Prop} [∀ hist s, Decidable (P hist s)]
    (h : (historyOf (carefulExec img) (smInit img boot) ls).any (fun r => decide (P r.1 r.2)) = true) :
    ∃ hist s, CarefulHistory img boot hist s ∧ P hist s := by
  obtain ⟨hist, s, hr, hp⟩ := Runs.exists_of_historyOf ls h
  exact ⟨hist, s, hr.mono fun _ _ _ h => ⟨h.1, carefulStep_of_exec h.2⟩, hp⟩

/-- **The invariant holds in every state that a careful run reaches.** -/
theorem CarefulRun.inv {es : List (Event N)} (h : CarefulRun img boot es s) : SystemInv img s :=
  Runs.invariant h (smInit_inv img boot) fun _ _ _ hs hstep => (step_inv hs hstep.2 hstep.1).1

/-- An enclave that a step leaves alive keeps its metadata, but for the change of the event. -/
theorem CarefulStep.record_eq {ev : Event N} {e : Word} (hs : CarefulStep img s ev s')
    (h : SystemInv img s) (he : ValidMetadata s.data e .enclave) (he' : ValidMetadata s'.data e .enclave) :
    s'.data.enclave e = eventChange img s e ev (s.data.enclave e) := by
  obtain ⟨L, hstep⟩ := (step_inv h hs.2 hs.1).2
  exact (hstep.records.record e (.inl he) (.inl he')).resolve_right
    fun hd => hd.1.not_valid (by decide) he'

end SecurityMonitor
