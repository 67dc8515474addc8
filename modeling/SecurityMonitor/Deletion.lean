/-
  Deletion of an enclave.

  `enclave_delete` goes through the region map of the enclave, blocks the regions
  it finds there and means to clear them.  What it clears, for each region, is the
  region that holds the metadata, with the map that the loop reads; so it finds no
  second region, and everything else in the metadata region is lost.

  * `delete_regions_iff`: the regions of the enclave are given up, and zero, if and
    only if there is at most one, the first in the map, and it was zero before;
  * `delete_only_iff`: nobody else is touched if and only if the enclave has no
    regions, or there was nothing else in its metadata region.
-/
import SecurityMonitor.EnclaveMemory
import SecurityMonitor.Touched

namespace SecurityMonitor

open ByteMem

variable {N : ℕ} {img : Image N} {boot : Boot N} {s s' : Config N} {d d' : Data N} {c : Fin N}
  {es : List (Event N)} {ev : Event N} {e x : Word} {i : Fin 64} {ctx : TrapContext} {r : Reply}

/-! ## Metadata regions in all runs -/

/-- Whatever the run, metadata regions keep the monitor as owner. -/
theorem step_metadataOwned (h : MetadataOwned s.data) (hs : Step img s ev s') :
    MetadataOwned s'.data := by
  have hsame (heq : s'.data.regions = s.data.regions) : MetadataOwned s'.data := fun i => by
    rw [heq]; exact h i
  obtain ⟨l, o⟩ := ev
  cases l with
  | call c k ctx =>
    obtain ⟨r, rfl, hne, hE⟩ := (step_call hs).reply
    by_cases hr : r.value = 0
    · intro i hi
      rcases effect_regions (hE hr) i with heq | ⟨_, _, _, _, heq⟩ | hchange
      · rw [heq] at hi ⊢
        exact h i hi
      · rw [heq]
      · generalize s'.data.regions i = g' at hi hchange ⊢
        cases hchange with
        | block => rfl
        | delete => rfl
        | assign =>
          dsimp only at hi
          split_ifs at hi
        | metadata => rfl
    · exact hsame (by rw [hne hr])
  | regionFree c r => exact hsame (by rw [(step_free hs).2.1])
  | regionFreeStep c =>
    obtain ⟨p, hp, hs⟩ := step_freeStep hs
    cases hs with
    | passed _ hd => exact hsame (by rw [hd])
    | failed hd => exact hsame (by rw [hd])
    | done _ hd =>
      intro i hi
      rw [hd, show (freeRegion s.data (toRegion p.regionId)).regions = Function.update s.data.regions
        (toRegion p.regionId) { s.data.regions (toRegion p.regionId) with state := .free } from rfl] at hi ⊢
      by_cases hip : i = toRegion p.regionId
      · subst hip
        rw [Function.update_self] at hi ⊢
        exact h _ hi
      · rw [Function.update_of_ne hip] at hi ⊢
        exact h i hi
  | timer c regs => exact hsame (by rw [(step_timer hs).2.2.2.2, aexEnclave, exitEnclave_eq])
  | userStore c a v => exact hsame (by rw [(step_store hs).2.2])

theorem metadataOwned_run (h : Runs (Step img) (smInit img boot) es s) : MetadataOwned s.data :=
  h.invariant (smInit_inv img boot).regions.metadataOwned fun _ _ _ => step_metadataOwned

/-! ## The regions of the enclave -/

/-- The bytes of region `i`. -/
def regionBytes (i : Fin 64) : Set Word := {x | (addrToRegionId x).toNat < 64 ∧ regionOf x = i}

/-- The regions of the enclave at `e` are given up, with nothing in them. -/
structure DeletesRegions (d d' : Data N) (e : Word) : Prop where
  blocked : ∀ i, Owned d i e → (d'.regions i).state = .blocked ∧ (d'.regions i).owner = ownerSm
  zero : ∀ i, Owned d i e → ∀ x ∈ regionBytes i, d'.mem x = 0
  unowned : ∀ i, ¬ Owned d' i e

/-- The metadata of an enclave is in no region of the enclave. -/
theorem ValidMetadata.notOwned (he : ValidMetadata d e .enclave) (hm : MetadataOwned d) :
    ¬ Owned d (regionOf e) e := fun ho => by
  have heq : e = ownerSm := ho.2.symm.trans (hm _ he.type)
  exact absurd he.aligned (by rw [heq]; decide)

/-- Deletion changes the owner of the first region in the map. -/
theorem deleteEnclave_owned_iff (he : ValidMetadata d e .enclave) :
    Owned (deleteEnclave d e) i e ↔ Owned d i e ∧ firstRegion d e ≠ some i := by
  cases hf : firstRegion d e with
  | none =>
    rw [deleteEnclave_of_none he.aligned he.inRam hf]
    exact ⟨fun h => ⟨h, (Option.some_ne_none i).symm⟩, And.left⟩
  | some j =>
    rw [Owned, deleteEnclave_some_regions he hf]
    by_cases hij : i = j
    · subst hij
      rw [Function.update_self]
      exact iff_of_false (fun h => absurd h.1 (by simp)) fun h => h.2 rfl
    · rw [Function.update_of_ne hij]
      exact ⟨fun h => ⟨h, fun heq => hij (Option.some.inj heq).symm⟩, And.left⟩

/-- Deletion never writes to a region of the enclave that it blocks. -/
theorem deleteEnclave_regionBytes (he : ValidMetadata d e .enclave) (hm : MetadataOwned d)
    (ho : Owned d i e) (hf : firstRegion d e = some i) (hx : x ∈ regionBytes i) :
    (deleteEnclave d e).mem x = d.mem x :=
  delete_some_other he hf fun hxe => he.notOwned hm (hxe.2 ▸ hx.2 ▸ ho)

theorem deletesRegions_iff (he : ValidMetadata d e .enclave) (hm : MetadataOwned d) :
    DeletesRegions d (deleteEnclave d e) e ↔
      ∀ i, Owned d i e → firstRegion d e = some i ∧ ∀ x ∈ regionBytes i, d.mem x = 0 := by
  constructor
  · intro h i ho
    have hf : firstRegion d e = some i := by
      by_contra hne
      exact h.unowned i ((deleteEnclave_owned_iff he).mpr ⟨ho, hne⟩)
    refine ⟨hf, fun x hx => ?_⟩
    rw [← deleteEnclave_regionBytes he hm ho hf hx]
    exact h.zero i ho x hx
  · intro h
    refine ⟨fun i ho => ?_, fun i ho x hx => ?_, fun i ho => ?_⟩
    · rw [deleteEnclave_some_regions he (h i ho).1, Function.update_self]
      exact ⟨rfl, rfl⟩
    · rw [deleteEnclave_regionBytes he hm ho (h i ho).1 hx]
      exact (h i ho).2 x hx
    · obtain ⟨ho, hne⟩ := (deleteEnclave_owned_iff he).mp ho
      exact hne (h i ho).1

/-- The contents of the regions of the enclave do not reach any other byte. -/
theorem deleteEnclave_congr {m : Mem} (he : ValidMetadata d e .enclave) (hm : MetadataOwned d)
    (hagree : ∀ x, (∀ i, Owned d i e → x ∉ regionBytes i) → m x = d.mem x) :
    ∃ m', deleteEnclave { d with mem := m } e = { deleteEnclave d e with mem := m' } ∧
      ∀ x, m x = d.mem x → m' x = (deleteEnclave d e).mem x := by
  have hrec : ({ d with mem := m } : Data N).enclave e = d.enclave e :=
    enclaveMetadata_agree fun x hx => hagree x fun i ho hxi =>
      he.notOwned hm (by rw [← (header_region he.aligned he.inRam hx).2, hxi.2]; exact ho)
  have hfirst : firstRegion { d with mem := m } e = firstRegion d e := by rw [firstRegion, hrec]; rfl
  cases hf : firstRegion d e with
  | none =>
    rw [deleteEnclave_of_none he.aligned he.inRam hf,
      deleteEnclave_of_none he.aligned he.inRam (hfirst.trans hf), hrec]
    exact ⟨_, rfl, fun x hx => Mem.fill_congr (Mem.fill_congr hx)⟩
  | some i =>
    rw [deleteEnclave_of_some he.aligned he.inRam hf,
      deleteEnclave_of_some he.aligned he.inRam (hfirst.trans hf)]
    refine ⟨_, rfl, fun x hx => Mem.fill_congr (Mem.fill_congr ?_)⟩
    rw [wipeRegion_mem, wipeRegion_mem]
    exact Mem.fill_congr hx

/-- If the regions are given up whatever the enclave had stored in them, what is left does not depend
    on it. -/
theorem DeletesRegions.forgets {m : Mem} (h : DeletesRegions d (deleteEnclave d e) e)
    (h' : DeletesRegions { d with mem := m } (deleteEnclave { d with mem := m } e) e)
    (he : ValidMetadata d e .enclave) (hm : MetadataOwned d)
    (hagree : ∀ x, (∀ i, Owned d i e → x ∉ regionBytes i) → m x = d.mem x) :
    deleteEnclave { d with mem := m } e = deleteEnclave d e := by
  obtain ⟨m', heq, hm'⟩ := deleteEnclave_congr he hm hagree
  have hmem : m' = (deleteEnclave d e).mem := by
    funext x
    by_cases hx : ∀ i, Owned d i e → x ∉ regionBytes i
    · exact hm' x (hagree x hx)
    · push Not at hx
      obtain ⟨i, ho, hx⟩ := hx
      rw [h.zero i ho x hx, ← h'.zero i ho x hx, heq]
  rw [heq, hmem]

/-- **What deletion leaves behind.**  The regions of the enclave are blocked and zero, and none is
    left to it, if and only if it has at most one region, the first in its map, and that was zero
    before.  Then what is left does not depend on what the enclave had in its regions. -/
theorem delete_regions_iff (h : Runs (Step img) (smInit img boot) es s)
    (hs : Step img s (.call c (.enclaveDelete e) ctx, some r) s') (hr : r.value = 0) :
    (DeletesRegions s.data s'.data e ↔
      ∀ i, Owned s.data i e → firstRegion s.data e = some i ∧ ∀ x ∈ regionBytes i, s.data.mem x = 0) ∧
    ∀ m s₁' r₁, Step img { s with data := { s.data with mem := m } }
        (.call c (.enclaveDelete e) ctx, some r₁) s₁' → r₁.value = 0 →
      (∀ x, (∀ i, Owned s.data i e → x ∉ regionBytes i) → m x = s.data.mem x) →
      DeletesRegions s.data s'.data e → DeletesRegions { s.data with mem := m } s₁'.data e →
      s₁'.data = s'.data := by
  have hm := metadataOwned_run h
  obtain ⟨_, hr', -, hE⟩ := (step_call hs).reply
  obtain ⟨hg, hd⟩ := hE (Option.some.inj hr' ▸ hr)
  rw [hd]
  refine ⟨deletesRegions_iff hg.enclave hm, fun m s₁' r₁ hs₁ hr₁ hagree hdel hdel₁ => ?_⟩
  obtain ⟨_, hr₁', -, hE₁⟩ := (step_call hs₁).reply
  obtain ⟨-, hd₁⟩ := hE₁ (Option.some.inj hr₁' ▸ hr₁)
  rw [hd₁] at hdel₁ ⊢
  exact hdel.forgets hdel₁ hg.enclave hm hagree

/-- The region that the call makes a metadata region. -/
def metadataTarget : Call → Option Word
  | .regionMetadataCreate r => some r
  | _ => none

/-- The event does not write to region `i`. -/
def leaves (i : Fin 64) (y : Config N × Event N) : Bool :=
  (y.1.data.regions i).type != .metadata &&
    match y.2.1 with
    | .call _ k _ => (buildTarget k).isNone &&
      ((metadataTarget k).isNone || (y.1.data.regions i).state != .free)
    | .userStore _ a _ => regionOf a != i
    | _ => true

theorem mem_eq_of_leaves (h : leaves i (s, ev) = true) (hs : CarefulStep img s ev s')
    (hinv : SystemInv img s) (hi : i ≠ 0) (hx : x ∈ regionBytes i) : s'.data.mem x = s.data.mem x := by
  obtain ⟨hr, rfl⟩ := hx
  rw [leaves, Bool.and_eq_true, bne_iff_ne] at h
  obtain ⟨htype, hev⟩ := h
  refine hs.writes hinv (.of_region hr hi htype) (fun c r ctx hl => ?_) (fun c v hl => ?_) ?_
  · simp only [hl, metadataTarget, Bool.and_eq_true, Option.isNone_some, Bool.false_or, bne_iff_ne] at hev
    exact hev.2
  · simp only [hl, bne_self_eq_false, Bool.false_eq_true] at hev
  · intro L c k ctx d' hl _ f hf
    simp only [hl, Bool.and_eq_true, Option.isNone_iff_eq_none] at hev
    rw [hev.1] at hf
    cases hf

/-- A region that nothing is written to is as at boot. -/
theorem region_mem_run {hist : List (Config N × Event N)} (hr : CarefulHistory img boot hist s)
    (hl : ∀ y ∈ hist, leaves i y = true) (hi : i ≠ 0) (hx : x ∈ regionBytes i) : s.data.mem x = boot.mem x := by
  induction hr with
  | nil => exact congrFun (smInit_booting img boot).mem x
  | @snoc s₁ s' hist y hr hs ih =>
    obtain ⟨s₀, ev⟩ := y
    obtain ⟨heq, hs⟩ := hs
    obtain rfl : s₁ = s₀ := heq.symm
    rw [mem_eq_of_leaves (hl (s₁, ev) (by simp)) hs (CarefulHistory.run hr).inv hi hx]
    exact ih fun y hy => hl y (List.mem_append_left _ hy)

/-- The first enclave is created and gets region 4. -/
def oneRegionLabels : List (Label 2) := setupLabels ++
  [callOn 0 (.enclaveCreate firstEnclave 0 0 0 false), callOn 0 (.regionBlock 4), callOn 1 .regionUpdate] ++
  freeLabels 4 ++ [callOn 0 (.regionAssign 4 firstEnclave)]

set_option maxRecDepth 100000 in
/-- An enclave with one region, to which nothing has been written. -/
theorem delete_regions_zero : ∃ es s r s', Runs (Step smallImage) (smInit smallImage zeroBoot) es s ∧
    Step smallImage s (callOn 0 (.enclaveDelete firstEnclave), some r) s' ∧ Owned s.data 4 firstEnclave ∧
    DeletesRegions s.data s'.data firstEnclave := by
  obtain ⟨hist, s, hh, hl, hown, hfirst, hnext⟩ : ∃ hist s, CarefulHistory smallImage zeroBoot hist s ∧
      (∀ y ∈ hist, leaves 4 y = true) ∧ (∀ i, Owned s.data i firstEnclave ↔ i = 4) ∧
      firstRegion s.data firstEnclave = some 4 ∧
      (exec smallImage s (callOn 0 (.enclaveDelete firstEnclave))).any
        (fun y => decide (y.1.map Reply.value = some 0)) = true :=
    CarefulHistory.exists_of_labels oneRegionLabels (by decide +kernel)
  obtain ⟨⟨o, s'⟩, hexec, ho⟩ := Option.any_eq_true _ _ |>.mp hnext
  obtain ⟨r, rfl, hr⟩ := Option.map_eq_some_iff.mp (of_decide_eq_true ho)
  have h : Runs (Step smallImage) (smInit smallImage zeroBoot) _ s :=
    (CarefulHistory.run hh).mono fun _ _ _ hs => hs.1
  refine ⟨_, s, r, s', h, hexec, (hown 4).mpr rfl, (delete_regions_iff h hexec hr).1.mpr fun i hi => ?_⟩
  obtain rfl := (hown i).mp hi
  exact ⟨hfirst, fun x hx => region_mem_run hh hl (by decide) hx⟩

/-- The first enclave has the regions 2 and 4, and no thread. -/
def twoRegionLabels : List (Label 2) :=
  setupLabels ++ [callOn 0 (.regionBlock 4), callOn 1 .regionUpdate] ++ freeLabels 4 ++
  buildLabels firstEnclave firstThread 0 ++
  [callOn 0 (.regionAssign 4 firstEnclave), callOn 0 (.threadDelete firstThread)]

set_option maxRecDepth 100000 in
/-- Region 4 is left to an enclave that is gone, and what was in region 2 is still there when
    untrusted software gets it. -/
theorem delete_regions_fails : ∃ es s o s' es' s'',
    Runs (Step smallImage) (smInit smallImage zeroBoot) es s ∧
    Step smallImage s (callOn 0 (.enclaveDelete firstEnclave), o) s' ∧ o.map Reply.value = some 0 ∧
    Owned s.data 2 firstEnclave ∧ Owned s'.data 4 firstEnclave ∧ s'.data.mem 0x84003000 = 1 ∧
    Runs (Step smallImage) s' es' s'' ∧ Owned s''.data 2 ownerUntrusted ∧ s''.data.mem 0x84003000 = 1 := by
  obtain ⟨es, s, o, s', h, hs, ho, h2, h4, hx, hlater⟩ : ∃ es s o s',
      Runs (Step smallImage) (smInit smallImage zeroBoot) es s ∧
      Step smallImage s (callOn 0 (.enclaveDelete firstEnclave), o) s' ∧
      o.map Reply.value = some 0 ∧ Owned s.data 2 firstEnclave ∧ Owned s'.data 4 firstEnclave ∧
      s'.data.mem 0x84003000 = 1 ∧
      (runsOf (exec smallImage) s' (freeLabels 2 ++ [callOn 0 (.regionAssign 2 ownerUntrusted)])).any
        (fun x => decide (Owned x.2.data 2 ownerUntrusted ∧ x.2.data.mem 0x84003000 = 1)) = true :=
    Runs.exists_step_of_runsOf twoRegionLabels _ (by decide +kernel)
  obtain ⟨es', s'', h', hu, hx'⟩ := Runs.exists_of_runsOf _
    (P := fun _ (t : Config 2) => Owned t.data 2 ownerUntrusted ∧ t.data.mem 0x84003000 = 1) hlater
  exact ⟨es, s, o, s', es', s'', h, hs, ho, h2, h4, hx, h', hu, hx'⟩

/-! ## Everybody else -/

/-- The deletion of the enclave at `e` frees its pages and touches nothing else. -/
structure DeletesOnly (d d' : Data N) (e : Word) : Prop where
  enclaves : ∀ f, ValidMetadata d f .enclave → f ≠ e → ∀ a, InExtent d f a → KeepsPage d d' a
  threads : ∀ t, ValidMetadata d t .thread → KeepsPage d d' t
  others : ∀ x ∈ regionBytes (regionOf e),
    (∀ a, InExtent d e a → x ∉ range a 4096 ∧ x ≠ pageInfoAddr a) → d'.mem x = d.mem x
  freed : ∀ a, InExtent d e a →
    pageTag d' a = MetadataPage.free.code ∧ ∀ x ∈ range a 4096, d'.mem x = 0

section
variable {L : LockId N → Bool} (h : HeapInv img d) (hm : Maps d) (hg : DeleteGuard L d e)
include h hm hg

/-- The pages of other enclaves and the threads are kept where the region is not cleared. -/
theorem delete_keepsPage {a : Word} (hp : MetadataPageAt d a) (hs : IsSlot a) (hna : ¬ InExtent d e a)
    (hreg : firstRegion d e ≠ none → regionOf a ≠ regionOf e) : KeepsPage d (deleteEnclave d e) a := by
  cases hf : firstRegion d e with
  | none => exact (delete_none_clears h hg hf).keepsPage hp hs hna
  | some i =>
    have hni := hm.type_ne hg.enclave (List.find?_some hf)
    exact (delete_some_clears h hg hf hni).keepsPage hp hs fun ha => hreg (by rw [hf]; nofun) ha.2.2

theorem deletesOnly_of_keepsRegion
    (hreg : firstRegion d e ≠ none → ∀ f ≠ e, MetadataPageAt d f → regionOf f = regionOf e → pageTag d f = 0)
    (hothers : ∀ x ∈ regionBytes (regionOf e),
      (∀ a, InExtent d e a → x ∉ range a 4096 ∧ x ≠ pageInfoAddr a) → (deleteEnclave d e).mem x = d.mem x)
    (hfreed : ∀ a, InExtent d e a → pageTag (deleteEnclave d e) a = MetadataPage.free.code ∧
      ∀ x ∈ range a 4096, (deleteEnclave d e).mem x = 0) :
    DeletesOnly d (deleteEnclave d e) e where
  enclaves f hf hne a ha := by
    refine delete_keepsPage h hm hg (h.page_of_inExtent hf ha) (h.slot_of_inExtent hf ha)
      (fun hea => hne (h.extent_disjoint hf hg.enclave ha hea)) fun hn hr => ?_
    have htag := hreg hn f hne hf.toMetadataPageAt ((h.region_of_inExtent hf ha).symm.trans hr)
    exact absurd (hf.tag.symm.trans htag) (by decide)
  threads t ht := by
    have hne : t ≠ e := by rintro rfl; exact absurd (ht.tag_unique hg.enclave) (by decide)
    refine delete_keepsPage h hm hg ht.toMetadataPageAt (h.slot t _ ht (by decide))
      (h.notInExtent hg.enclave ht (by decide) hne) fun hn hr => ?_
    exact absurd (ht.tag.symm.trans (hreg hn t hne ht.toMetadataPageAt hr)) (by decide)
  others := hothers
  freed := hfreed

theorem deletesOnly_of_none (hn : firstRegion d e = none) : DeletesOnly d (deleteEnclave d e) e := by
  have he := hg.enclave
  have hs := h.slot e _ he (by decide)
  have hfit := (h.size e he).2
  refine deletesOnly_of_keepsRegion h hm hg (fun hne => absurd hn hne) (fun x hx hna => ?_) fun a ha =>
    ⟨delete_none_tag h he hn ha, (delete_none_clears h hg hn).zero a ha (h.slot_of_inExtent he ha)⟩
  rw [delete_none_eq h he hn]
  dsimp only
  rw [Mem.fill_apply_of_notMem fun hxe => ?_]
  · refine freePages_agree x fun hxi => ?_
    have hlt : (x - pageInfoAddr e).toNat < extentPages d e := hxi
    refine (hna _ ⟨_, hlt, rfl⟩).2 ?_
    rw [pageInfoAddr_page hs (by omega), off_self_sub]
  · obtain ⟨a, ha, hxa⟩ := mem_pagesFrom hs hfit hxe
    exact (hna a ha).1 hxa

theorem deletesOnly_some_iff (hf : firstRegion d e = some i) : DeletesOnly d (deleteEnclave d e) e ↔
    extentPages d e = 1 ∧
      ∀ x ∈ regionBytes (regionOf e), x ∉ range e 4096 → x ≠ pageInfoAddr e → d.mem x = 0 := by
  have he := hg.enclave
  have hs := h.slot e _ he (by decide)
  have hself : InExtent d e e := inExtent_self (h.size e he).1
  have hmem {x : Word} (hx : x ∈ regionBytes (regionOf e)) := delete_some_apply he hs hf hx
  constructor
  · intro hdel
    have hone : extentPages d e = 1 := by
      by_contra hne
      have hpos := extentPages_pos (h.size e he).1
      have ha : InExtent d e (off e (4096 * 1)) := ⟨1, by omega, rfl⟩
      have hsa := h.slot_of_inExtent he ha
      -- the tag of a second page is cleared with the page map
      have hinfo := region_pageInfoAddr hsa.inRam
      have htag := (hdel.freed _ ha).1
      rw [pageTag_eq, hmem ⟨hinfo.1, hinfo.2.trans (h.region_of_inExtent he ha)⟩, if_neg fun heq => ?_] at htag
      · exact absurd htag (by decide)
      · have hpage := congrArg BitVec.toNat (pageInfoAddr_inj hsa.aligned hsa.inRam hs.aligned hs.inRam heq)
        rw [page_toNat hs.inRam (by have := (h.size e he).2; omega)] at hpage
        omega
    refine ⟨hone, fun x hx hne hnt => ?_⟩
    have hkeep := hdel.others x hx fun a ⟨j, hj, haj⟩ => by
      obtain rfl : a = e := by rw [haj, show j = 0 by omega, Nat.mul_zero, off_zero]
      exact ⟨hne, hnt⟩
    rw [← hkeep, hmem hx, if_neg hnt]
  · rintro ⟨hone, hzero⟩
    refine deletesOnly_of_keepsRegion h hm hg (fun _ f hne hp hr => ?_) (fun x hx hna => ?_) fun a ha => ?_
    · have hinfo := region_pageInfoAddr hp.inRam
      refine hzero _ ⟨hinfo.1, hinfo.2.trans hr⟩ (hs.info_notMem hp.inRam) fun heq => hne ?_
      exact pageInfoAddr_inj hp.aligned hp.inRam hs.aligned hs.inRam heq
    · obtain ⟨hne, hnt⟩ := hna e hself
      rw [hmem hx, if_neg hnt, hzero x hx hne hnt]
    · obtain ⟨j, hj, haj⟩ := ha
      obtain rfl : a = e := by rw [haj, show j = 0 by omega, Nat.mul_zero, off_zero]
      refine ⟨?_, fun x hx => ?_⟩
      · rw [pageTag_eq, hmem (region_pageInfoAddr hs.inRam), if_pos rfl]
      · rw [hmem (hs.region_of_mem hx), if_neg fun hxe : x = pageInfoAddr a => hs.info_notMem hs.inRam (hxe ▸ hx)]

end

/-- **Whom deletion touches.**  Only the pages of the enclave change, and they become free and
    zero, if and only if the enclave has no regions, or has one page and there is nothing else in its metadata
    region. -/
theorem delete_only_iff (h : CarefulRun img boot es s)
    (hs : Step img s (.call c (.enclaveDelete e) ctx, some r) s') (hr : r.value = 0) :
    DeletesOnly s.data s'.data e ↔ firstRegion s.data e = none ∨ extentPages s.data e = 1 ∧
      ∀ x ∈ regionBytes (regionOf e), x ∉ range e 4096 → x ≠ pageInfoAddr e → s.data.mem x = 0 := by
  have hinv := h.inv
  obtain ⟨_, hr', -, hE⟩ := (step_call hs).reply
  obtain ⟨hg, hd⟩ := hE (Option.some.inj hr' ▸ hr)
  rw [hd]
  cases hf : firstRegion s.data e with
  | none => exact iff_of_true (deletesOnly_of_none hinv.heap hinv.regions.toMaps hg hf) (.inl rfl)
  | some i =>
    rw [deletesOnly_some_iff hinv.heap hinv.regions.toMaps hg hf]
    exact ⟨.inr, fun hor => hor.resolve_left nofun⟩

set_option maxRecDepth 100000 in
theorem delete_only_none : ∃ es s r s', CarefulRun smallImage zeroBoot es s ∧
    Step smallImage s (callOn 0 (.enclaveDelete secondEnclave), some r) s' ∧
    ValidMetadata s.data firstThread .thread ∧ DeletesOnly s.data s'.data secondEnclave := by
  obtain ⟨es, s, o, s', h, hs, ho, ht, hnone⟩ : ∃ es s o s',
      CarefulRun smallImage zeroBoot es s ∧
      CarefulStep smallImage s (callOn 0 (.enclaveDelete secondEnclave), o) s' ∧
      o.map Reply.value = some 0 ∧ ValidMetadata s.data firstThread .thread ∧
      firstRegion s.data secondEnclave = none :=
    CarefulRun.exists_step_of_labels (setupLabels ++ buildLabels firstEnclave firstThread 0 ++
      [callOn 0 (.enclaveCreate secondEnclave 0 0 0 false)]) _ (by decide +kernel)
  obtain ⟨r, rfl, hr⟩ := Option.map_eq_some_iff.mp ho
  exact ⟨es, s, r, s', h, hs.1, ht, (delete_only_iff h hs.1 hr).mpr (.inl hnone)⟩

set_option maxRecDepth 100000 in
/-- Another enclave in the same metadata region does not exist any more. -/
theorem delete_only_fails : ∃ es s o s', Runs (Step smallImage) (smInit smallImage zeroBoot) es s ∧
    Step smallImage s (callOn 0 (.enclaveDelete firstEnclave), o) s' ∧ o.map Reply.value = some 0 ∧
    (∀ e ∈ es, SizeOk e.1) ∧ ValidMetadata s.data secondEnclave .enclave ∧
    ¬ ValidMetadata s'.data secondEnclave .enclave :=
  Runs.exists_step_of_runsOf (setupLabels ++ buildLabels firstEnclave firstThread 0 ++
    [callOn 0 (.threadDelete firstThread), callOn 0 (.enclaveCreate secondEnclave 0 0 0 false)]) _
    (by decide +kernel)

end SecurityMonitor
