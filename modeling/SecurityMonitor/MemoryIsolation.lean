/-
  Memory isolation and the life of a region.

  * `memory_isolation`: in every state of a careful run the region bitmaps of a
    core give access to blocked regions and to regions of the domain that the
    core runs, to nothing else;
  * `RegionChange`, `region_life_cycle`: what a step may do to a region, and that
    the regions of the monitor and the metadata regions never change.

  Both fail in runs that are not careful.  `thread_delete` does not know that a
  thread is running, because `enclave_enter` never marks it, so the enclave of a
  running core can be deleted and its page given to something else.
  `zombieLabels` make such a run: core 1 runs on after its enclave is gone, and what
  used to be the number of its mailboxes is now a saved register of another
  thread.  Its `mail_accept` then writes anywhere.
-/
import SecurityMonitor.Invariant

namespace SecurityMonitor

open ByteMem

variable {N : ℕ} {img : Image N} {boot : Boot N} {s s' : Config N} {d d' : Data N} {c : Fin N}
  {e : Event N} {es es' : List (Event N)} {o : Option Reply} {L : LockId N → Bool} {k : Call} {ctx : TrapContext}

/-! ## The bitmaps -/

/-- **Memory isolation.** -/
theorem memory_isolation (h : CarefulRun img boot es s) (c : Fin N) (r : Fin 64) :
    (regionIsAccessible (s.data.cores c).mmrbm r = true →
      (s.data.regions r).state = .blocked ∨ Owned s.data r ownerUntrusted) ∧
    (regionIsAccessible (s.data.cores c).memrbm r = true →
      (s.data.cores c).owner ≠ ownerUntrusted ∧ (s.data.cores c).owner ≠ ownerSm ∧
      ((s.data.regions r).state = .blocked ∨ Owned s.data r (s.data.cores c).owner)) := by
  have hinv := h.inv
  have hcore := hinv.regions.cores c
  refine ⟨hcore.mmrbm r, fun hr => ?_⟩
  have hne : (s.data.cores c).owner ≠ ownerUntrusted := fun hu => by
    rw [hcore.idle hu, regionIsAccessible_zero] at hr
    exact absurd hr nofun
  exact ⟨hne, hinv.heap.owner_ne_sm hne, hcore.memrbm r hr⟩

/-! ## A run that is not careful -/

/-- A monitor for two cores, with a handler of one byte. -/
def smallImage : Image 2 where
  trapVectorFromUntrusted := 0x80001000
  stackPtr := 0x80020000
  enclaveHandler := [0x13]
  computePublicSigningKey := fun _ _ => 0
  sign := fun _ _ _ _ => 0
  stack_lo := by decide
  stack_hi := by decide
  handler_le := by decide

def zeroHart : Hart := ⟨0, 0, 0, 0, 0, 0, 0, 0, 0, 0, 0, 0, 0, 0, 0, fun _ => 0⟩

/-- Everything is zero at boot. -/
def zeroBoot : Boot 2 where
  keys := ⟨fun _ => 0, fun _ => 0, fun _ => 0, fun _ => 0, fun _ => 0, fun _ => 0, fun _ => 0⟩
  mem := fun _ => 0
  harts := fun _ => zeroHart

def zeroContext : TrapContext := ⟨fun _ => 0, 0, 0⟩

/-- What a call finds after boot. -/
def bootState : CallState 2 := ⟨(smInit smallImage zeroBoot).data, fun _ => false, fun _ => false⟩

/-- Page `p` of region `r`. -/
def pageAddr (r p : ℕ) : Word := BitVec.ofNat 64 (0x80000000 + r * 0x2000000 + p * 4096)

def callOn (c : Fin 2) (k : Call) : Label 2 := .call c k zeroContext

/-- Core 0 frees region `r`: the start, a check per core and the end. -/
def freeLabels (r : Word) : List (Label 2) :=
  [.regionFree 0 r, .regionFreeStep 0, .regionFreeStep 0, .regionFreeStep 0]

/-- Region 3 becomes a metadata region, and region 2 free.  The words that core 0 stores
    make page 3 of region 2 a page table that points to itself. -/
def setupLabels : List (Label 2) :=
  [callOn 0 (.regionBlock 3), callOn 1 .regionUpdate] ++ freeLabels 3 ++
  [callOn 0 (.regionMetadataCreate 3), .userStore 0 0x84003000 0x01, .userStore 0 0x84003001 0x0C,
    .userStore 0 0x84003003 0x21, callOn 0 (.regionBlock 2), callOn 1 .regionUpdate] ++ freeLabels 2

/-- Build the enclave at `e`, with `n` mailboxes, region 2 and the thread at `t`. -/
def buildLabels (e t n : Word) : List (Label 2) :=
  [callOn 0 (.enclaveCreate e 0 0 n false), callOn 0 (.regionAssign 2 e),
    callOn 0 (.enclaveLoadHandler e 0x84000000), callOn 0 (.enclaveLoadPageTable e 0x84003000 0 3 1),
    callOn 0 (.enclaveLoadPage e 0x84004000 0x1000 0x82000000 3),
    callOn 0 (.threadLoad e t 0x1000 0 0), callOn 0 (.enclaveInit e)]

def firstEnclave : Word := pageAddr 3 3
def firstThread : Word := pageAddr 3 4
def secondEnclave : Word := pageAddr 3 5

/-- Core 1 runs the first enclave when core 0 deletes the thread, the enclave and, with its
    page as a thread, builds the second enclave with `n` mailboxes.  When core 0 enters it, its
    register 28 is saved where core 1 looks for the number of its mailboxes. -/
def zombieLabels (n : Word) : List (Label 2) :=
  setupLabels ++ buildLabels firstEnclave firstThread 0 ++
  [callOn 1 (.enclaveEnter firstEnclave firstThread), callOn 0 (.threadDelete firstThread),
    callOn 1 (.regionBlock 2), callOn 0 (.enclaveDelete firstEnclave)] ++ freeLabels 2 ++
  buildLabels secondEnclave firstEnclave n ++
  [.call 0 (.enclaveEnter secondEnclave firstEnclave)
    ⟨fun i => if i = 28 then 0xffffffffffffffff else 0, 0, 0⟩]

/-- Core 1 sets the saved `memrbm` of the thread that core 0 runs, and core 0 leaves. -/
def bitmapLabels (memrbm : Word) : List (Label 2) :=
  zombieLabels 0 ++ [callOn 1 (.mailAccept 0x3cf3cf3cf3cf3d0 memrbm), callOn 0 .enclaveExit]

instance (d : Data N) (i : Fin 64) (o : Word) : Decidable (Owned d i o) :=
  inferInstanceAs (Decidable (_ ∧ _))

set_option maxRecDepth 100000 in
/-- After `bitmapLabels` untrusted software on core 0 can access region 2, which the second
    enclave owns. -/
theorem memory_isolation_fails : ∃ es s, Runs (Step smallImage) (smInit smallImage zeroBoot) es s ∧
    (∀ e ∈ es, SizeOk e.1) ∧ (s.data.cores 0).owner = ownerUntrusted ∧
    regionIsAccessible (s.data.cores 0).memrbm 2 = true ∧ Owned s.data 2 secondEnclave :=
  Runs.exists_of_runsOf (bitmapLabels 4) (by decide +kernel)

set_option maxRecDepth 100000 in
/-- A careful run in which core 1 enters an enclave. -/
theorem carefulRun_enter : ∃ es s, CarefulRun smallImage zeroBoot es s ∧
    (s.data.cores 1).owner = firstEnclave ∧ regionIsAccessible (s.data.cores 1).memrbm 2 = true ∧
    (s.data.regions 3).type = .metadata :=
  CarefulRun.exists_of_labels (setupLabels ++ buildLabels firstEnclave firstThread 0 ++
    [callOn 1 (.enclaveEnter firstEnclave firstThread)]) (by decide +kernel)

/-- The core that runs an enclave has access to its region. -/
theorem memory_isolation_enter : ∃ es s, CarefulRun smallImage zeroBoot es s ∧
    regionIsAccessible (s.data.cores 1).memrbm 2 = true ∧
    ((s.data.regions 2).state = .blocked ∨ Owned s.data 2 firstEnclave) := by
  obtain ⟨es, s, h, howner, hacc, -⟩ := carefulRun_enter
  exact ⟨es, s, h, hacc, howner ▸ ((memory_isolation h 1 2).2 hacc).2.2⟩

/-! ## The life of a region -/

/-- What a call of core `c` may do to region `i`. -/
inductive CallChange (d : Data N) (c : Fin N) : Call → Fin 64 → Region → Region → Prop
  /-- Its owner gives it up. -/
  | block {r : Word} {g : Region} (hs : g.state = .owned) (ho : g.owner = (d.cores c).owner) :
      CallChange d c (.regionBlock r) (toRegion r) g ⟨ownerSm, g.type, .blocked⟩
  /-- Its owner is deleted. -/
  | delete {e : Word} {i : Fin 64} {g : Region} (he : ValidMetadata d e .enclave)
      (hs : g.state = .owned) (ho : g.owner = e) :
      CallChange d c (.enclaveDelete e) i g ⟨ownerSm, g.type, .blocked⟩
  /-- It is given to untrusted software or to an enclave. -/
  | assign {r o : Word} {g : Region} (hs : g.state = .free)
      (ho : o = ownerUntrusted ∨ ValidMetadata d o .enclave) : CallChange d c (.regionAssign r o) (toRegion r) g
        ⟨o, if o = ownerUntrusted then .untrusted else .enclave, .owned⟩
  /-- It becomes a metadata region. -/
  | metadata {r : Word} {g : Region} (hs : g.state = .free) :
      CallChange d c (.regionMetadataCreate r) (toRegion r) g ⟨ownerSm, .metadata, .owned⟩

/-- What an event may do to region `i`. -/
inductive RegionChange (s : Config N) : Event N → Fin 64 → Region → Region → Prop
  | call {c : Fin N} {k : Call} {ctx : TrapContext} {r : Reply} {i : Fin 64} {g g' : Region}
      (hr : r.value = 0) (h : CallChange s.data c k i g g') : RegionChange s (.call c k ctx, some r) i g g'
  /-- The last step of `region_free`. -/
  | free {c : Fin N} {p : FreeCall} {o : Option Reply} {g : Region} (hp : s.pending c = some p)
      (hs : g.state = .blocked) :
      RegionChange s (.regionFreeStep c, o) (toRegion p.regionId) g { g with state := .free }

theorem update_eq_or {i j : Fin 64} {f : Fin 64 → Region} {g : Region} :
    Function.update f j g i = f i ∨ i = j ∧ Function.update f j g i = g := by
  by_cases h : i = j
  · exact .inr ⟨h, by rw [h, Function.update_self]⟩
  · exact .inl (Function.update_of_ne h ..)

/-- `enclave_delete` blocks the first region in the map of the enclave, whoever owns it. -/
def Unmaps (d : Data N) (k : Call) (i : Fin 64) (g g' : Region) : Prop :=
  ∃ e, k = .enclaveDelete e ∧ ValidMetadata d e .enclave ∧ firstRegion d e = some i ∧
    g' = ⟨ownerSm, g.type, .blocked⟩

/-- Each call changes at most one region. -/
theorem effect_regions (hE : Effect img L c ctx d k d') (i : Fin 64) :
    d'.regions i = d.regions i ∨ Unmaps d k i (d.regions i) (d'.regions i) ∨
      CallChange d c k i (d.regions i) (d'.regions i) := by
  cases k <;> simp only [Effect] at hE
  case enclaveDelete e =>
    obtain ⟨hg, rfl⟩ := hE
    have he := hg.enclave
    cases hf : firstRegion d e with
    | none =>
      refine .inl ?_
      rw [deleteEnclave_of_none he.aligned he.inRam hf]
    | some j =>
      rw [deleteEnclave_some_regions he hf]
      refine update_eq_or.imp_right fun hchange => .inl ?_
      obtain ⟨hij, heq⟩ := hchange
      rw [heq, hij]
      exact ⟨e, rfl, he, hf, rfl⟩
  case enclaveEnter e t =>
    obtain ⟨-, -, rfl⟩ := hE
    exact .inl (by simp only [enterEnclave]; rfl)
  case enclaveExit =>
    obtain ⟨-, rfl⟩ := hE
    exact .inl (by rw [exitEnclave_eq])
  case regionAssign r o =>
    obtain ⟨hg, rfl⟩ := hE
    rw [assignRegion_regions]
    refine update_eq_or.imp_right fun hchange => .inr ?_
    obtain ⟨hij, heq⟩ := hchange
    rw [heq, hij]
    exact .assign hg.state (or_iff_not_imp_left.mpr hg.enclave)
  case regionBlock r =>
    obtain ⟨hg, rfl⟩ := hE
    rw [blockRegion_regions hg.notSm]
    refine update_eq_or.imp_right fun hchange => .inr ?_
    obtain ⟨hij, heq⟩ := hchange
    rw [heq, hij]
    exact .block hg.state hg.owner
  case regionMetadataCreate r =>
    obtain ⟨-, -, hfree, rfl⟩ := hE
    rw [createMetadataRegion_regions]
    refine update_eq_or.imp_right fun hchange => .inr ?_
    obtain ⟨hij, heq⟩ := hchange
    rw [heq, hij]
    exact .metadata hfree
  all_goals refine .inl ?_
  case enclaveLoadPageTable e p v l acl =>
    obtain ⟨hg, d₁, h₁, rfl⟩ := hE
    rw [(loadPageTable_frame h₁).rest]
  case enclaveLoadPage e p v o acl =>
    obtain ⟨hg, d₁, h₁, rfl⟩ := hE
    rw [(loadPage_frame hg.toLoadGuard h₁).rest]
  case mailAccept b o => rw [hE.2, acceptMail_frame.rest]
  case mailReceive b _ _ => rw [hE.2.2, receiveMail_frame.rest]
  case mailSend o b msg => rw [hE.2, sendMail_frame.rest]
  case enclaveCreate | enclaveLoadHandler => rw [hE.2]
  case regionCachePartitioning => rw [hE.2]; rfl
  case enclaveInit | threadDelete => rw [hE.2.2]
  case threadLoad => rw [hE.2.2.2]
  all_goals
    rw [hE]
    try rfl

/-- A region in the map of an enclave is owned by it. -/
theorem effect_change (hm : Maps d) (hE : Effect img L c ctx d k d') (i : Fin 64) :
    d'.regions i = d.regions i ∨ CallChange d c k i (d.regions i) (d'.regions i) := by
  refine (effect_regions hE i).imp_right fun hchange => hchange.elim ?_ id
  rintro ⟨e, rfl, he, hf, heq⟩
  have howned := hm.enclaves e (.inl he) i (List.find?_some hf)
  rw [heq]
  exact .delete he howned.1 howned.2

/-- Each step changes at most one region, by a call or by the end of a `region_free`. -/
theorem step_change (h : SystemInv img s) (hs : Step img s e s') (i : Fin 64) :
    s'.data.regions i = s.data.regions i ∨
      RegionChange s e i (s.data.regions i) (s'.data.regions i) := by
  obtain ⟨l, o⟩ := e
  cases l with
  | call c k ctx =>
    obtain ⟨r, rfl, hne, heq⟩ := (step_call hs).reply
    by_cases hr : r.value = 0
    · exact (effect_change h.regions.toMaps (heq hr) i).imp_right (.call hr)
    · exact .inl (by rw [hne hr])
  | regionFree c r => exact .inl (by rw [(step_free hs).2.1])
  | regionFreeStep c =>
    obtain ⟨p, hp, hs⟩ := step_freeStep hs
    cases hs with
    | passed hn hd => exact .inl (by rw [hd])
    | failed hd => exact .inl (by rw [hd])
    | done hn hd =>
      rw [hd, show (freeRegion s.data (toRegion p.regionId)).regions = Function.update s.data.regions
        (toRegion p.regionId) { s.data.regions (toRegion p.regionId) with state := .free } from rfl]
      refine update_eq_or.imp_right fun hchange => ?_
      obtain ⟨hij, heq⟩ := hchange
      rw [heq, hij]
      exact .free hp (h.pending c p hp).blocked
  | timer c regs => exact .inl (by rw [(step_timer hs).2.2.2.2, aexEnclave, exitEnclave_eq])
  | userStore c a v => exact .inl (by rw [(step_store hs).2.2])

/-- Nobody can change a region of the monitor. -/
theorem RegionChange.not_sm {i : Fin 64} {g g' : Region} (hc : RegionChange s e i g g')
    (h : SystemInv img s) : ¬ (g.state = .owned ∧ g.owner = ownerSm) := by
  rintro ⟨hst, ho⟩
  cases hc with
  | call _ hc =>
    cases hc with
    | @block _ _ _ hown =>
      have heq := hown.symm.trans ho
      exact h.heap.owner_ne_sm (by rw [heq]; decide) heq
    | delete he _ hown => exact (h.heap.slot _ _ he (by decide)).ne_ownerSm (hown.symm.trans ho)
    | assign hs => exact absurd (hst.symm.trans hs) nofun
    | metadata hs => exact absurd (hst.symm.trans hs) nofun
  | free _ hs => exact absurd (hst.symm.trans hs) nofun

/-- A region of the monitor stays what it is. -/
theorem owned_sm_run {r : Fin 64} (h : SystemInv img s) (h' : Runs (CarefulStep img) s es s')
    (hr : Owned s.data r ownerSm) : s'.data.regions r = s.data.regions r := by
  have hboth : SystemInv img s' ∧ s'.data.regions r = s.data.regions r := by
    refine h'.invariant (I := fun t => SystemInv img t ∧ t.data.regions r = s.data.regions r) ⟨h, rfl⟩ ?_
    rintro t e t' ⟨ht, heq⟩ ⟨hstep, hcare⟩
    refine ⟨(step_inv ht hcare hstep).1, ?_⟩
    rcases step_change ht hstep r with hsame | hchange
    · exact hsame.trans heq
    · refine absurd ?_ (hchange.not_sm ht)
      rw [heq]; exact hr
  exact hboth.2

/-- **The life cycle of a region.**  Every change is one of `RegionChange`, and the regions
    that hold the monitor after `sm_init` and metadata regions stay with the monitor, out of
    reach of all cores. -/
theorem region_life_cycle (h : CarefulRun img boot es s) (h' : Runs (CarefulStep img) s es' s')
    (r : Fin 64) :
    (∀ e t, CarefulStep img s' e t → t.data.regions r = s'.data.regions r ∨
      RegionChange s' e r (s'.data.regions r) (t.data.regions r)) ∧
    ((s.data.regions r).type = .metadata ∨ ((smInit img boot).data.regions r).type = .sm →
      s'.data.regions r = ⟨ownerSm, (s.data.regions r).type, .owned⟩ ∧ ∀ c, ¬ Accessible s'.data c r) := by
  have hinv' : SystemInv img s' := CarefulRun.inv (Runs.append h h')
  refine ⟨fun e t ht => step_change hinv' ht.1 r, fun hr => ?_⟩
  have hs : Owned s.data r ownerSm := by
    rcases hr with hr | hr
    · exact h.inv.regions.metadata r hr
    · have hb := (smInit_booting img boot).regions
      have hr0 : Owned (smInit img boot).data r ownerSm := by
        rw [hb, initState_region] at hr
        rw [Owned, hb, initState_region]
        cases hsm : regionDoesntIncludeSm r <;> rw [hsm] at hr <;> first | exact ⟨rfl, rfl⟩ | cases hr
      rw [Owned, owned_sm_run (smInit_inv img boot) h hr0]
      exact hr0
  have heq := owned_sm_run h.inv h' hs
  have hs' : Owned s'.data r ownerSm := by rw [Owned, heq]; exact hs
  refine ⟨?_, fun c hacc => hinv'.regions.accessible_not_sm (fun c' => hinv'.heap.owner_ne_sm) hacc hs'⟩
  rw [heq, ← hs.1, ← hs.2]

/-- The metadata region of a run is out of reach. -/
theorem region_life_cycle_metadata : ∃ es s, CarefulRun smallImage zeroBoot es s ∧
    s.data.regions 3 = ⟨ownerSm, .metadata, .owned⟩ ∧ ∀ c, ¬ Accessible s.data c 3 := by
  obtain ⟨es, s, h, -, -, ht⟩ := carefulRun_enter
  have hlife := (region_life_cycle h (.nil s) 3).2 (.inl ht)
  exact ⟨es, s, h, ht ▸ hlife.1, hlife.2⟩

set_option maxRecDepth 100000 in
/-- After `bitmapLabels` untrusted software on core 0 can access the region of the monitor. -/
theorem region_life_cycle_fails : ∃ es s, Runs (Step smallImage) (smInit smallImage zeroBoot) es s ∧
    (∀ e ∈ es, SizeOk e.1) ∧ s.data.regions 0 = ⟨ownerSm, .sm, .owned⟩ ∧
    (s.data.cores 0).owner = ownerUntrusted ∧ Accessible s.data 0 0 :=
  Runs.exists_of_runsOf (bitmapLabels 1) (by decide +kernel)

end SecurityMonitor
