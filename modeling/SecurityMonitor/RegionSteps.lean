/-
  Every step keeps the isolation of memory.

  `RegionStep L d d'`: the step keeps `RegionInv`; with `L` the locks held before
  it, a locked region stays as it is; and a core gains access to owned regions
  only.  The last two are what a `region_free` in progress on another core relies
  on.
-/
import SecurityMonitor.Records

namespace SecurityMonitor

open ByteMem

variable {N : ℕ} {img : Image N} {d d' : Data N} {e f t x : Word} {c : Fin N} {k : Call}
  {L : LockId N → Bool} {ctx : TrapContext} {i : Fin 64}

/-- Core `c` can access region `i`. -/
def Accessible (d : Data N) (c : Fin N) (i : Fin 64) : Prop :=
  regionIsAccessible (d.cores c).mmrbm i = true ∨ regionIsAccessible (d.cores c).memrbm i = true

instance (d : Data N) (c : Fin N) (i : Fin 64) : Decidable (Accessible d c i) :=
  inferInstanceAs (Decidable (_ ∨ _))

structure RegionStep (L : LockId N → Bool) (d d' : Data N) : Prop where
  inv : RegionInv d'
  locked : ∀ i, L (.region i) = true → d'.regions i = d.regions i
  bits : ∀ c i, Accessible d' c i → Accessible d c i ∨ (d'.regions i).state = .owned

/-! ## The maps of the enclaves -/

section
variable {g : Word → EnclaveMetadata → EnclaveMetadata} {new : Word → EnclaveMetadata → Prop}

theorem Records.liveOrRunning (hr : Records img d d' g new) (hf : LiveOrRunning d' f) :
    LiveOrRunning d f ∨ new f (d'.enclave f) := by
  rcases hf with hv | ⟨hne, c, rfl⟩
  · exact (hr.live f hv).imp_left .inl
  · exact .inl (hr.running c hne)

/-- The maps after a step: new enclaves have no regions, the others own what they had. -/
theorem Records.enclaves (hr : Records img d d' g new) (hnew : ∀ f E, new f E → ∀ i, E.flag i = false)
    (hown : ∀ f, LiveOrRunning d f → LiveOrRunning d' f → ∀ i, (g f (d.enclave f)).flag i = true →
      Owned d' i f) :
    ∀ f, LiveOrRunning d' f → ∀ i, (d'.enclave f).flag i = true → Owned d' i f := by
  intro f hf i hi
  rcases hr.liveOrRunning hf with hf₀ | hn
  · rcases hr.record f hf₀ hf with heq | ⟨-, hflag⟩
    · rw [heq] at hi; exact hown f hf₀ hf i hi
    · rw [hflag] at hi; exact absurd hi nofun
  · rw [hnew f _ hn] at hi; exact absurd hi nofun

end

theorem CreatedBy.flag {E : EnclaveMetadata} (h : CreatedBy k f E) (i : Fin 64) : E.flag i = false := by
  cases k with
  | enclaveCreate e b mask n debug => exact h.2.map i
  | _ => exact h.elim

/-- Only `region_assign` and `region_block` change region maps. -/
theorem changeRecord_flag {E : EnclaveMetadata} (hk : ∀ r o, k ≠ .regionAssign r o)
    (hk' : ∀ r, k ≠ .regionBlock r) : (changeRecord img d c f k E).flag i = E.flag i := by
  cases k with
  | regionAssign r o => exact absurd rfl (hk r o)
  | regionBlock r => exact absurd rfl (hk' r)
  | enclaveInit | enclaveLoadHandler | enclaveLoadPageTable | enclaveLoadPage | threadLoad
  | threadDelete => simp only [changeRecord]; split_ifs <;> rfl
  | _ => rfl

/-! ## The bitmaps -/

/-- The bitmaps stay, and the regions in them stay accessible. -/
theorem RegionInv.step_of_cores (h : RegionInv d) (hm : Maps d')
    (hlocked : ∀ i, L (.region i) = true → d'.regions i = d.regions i) (hc : d'.cores = d.cores)
    (hh : d'.harts = d.harts)
    (hr : ∀ i o, OwnedOrBlocked d i o → (∃ c, Accessible d c i) → OwnedOrBlocked d' i o) :
    RegionStep L d d' where
  inv := ⟨hm, fun c => (h.cores c).of_same (by rw [hc]) (by rw [hh]; exact ⟨rfl, rfl⟩)
    fun i o ho hi => hr i o ho ⟨c, hi⟩⟩
  locked := hlocked
  bits c i hi := by rw [Accessible, hc] at hi; exact .inl hi

/-- The bitmaps of one core are computed anew, those of the others stay. -/
theorem RegionInv.step_of_refresh (h : RegionInv d) (hm : Maps d')
    (hlocked : ∀ i, L (.region i) = true → d'.regions i = d.regions i) (hf : RefreshFrame d c d')
    (hre : Refreshed d' c)
    (hr : ∀ i o, OwnedOrBlocked d i o → (∃ c, Accessible d c i) → OwnedOrBlocked d' i o) :
    RegionStep L d d' where
  inv := by
    refine ⟨hm, fun c' => ?_⟩
    by_cases hc : c' = c
    · rw [hc]; exact hre.coreInv hm
    · exact (h.cores c').of_same (hf.cores c' hc) (by rw [hf.harts c' hc]; exact ⟨rfl, rfl⟩)
        fun i o ho hi => hr i o ho ⟨c', hi⟩
  locked := hlocked
  bits c' i hi := by
    by_cases hc : c' = c
    · rw [hc] at hi
      exact .inr (hi.elim (fun h => (hre.owned hm h).1) fun h => (hre.ownedEnclave hm h).1)
    · rw [Accessible, hf.cores c' hc] at hi; exact .inl hi

/-- Core `c` enters or leaves an enclave: it keeps `mmrbm`, and `memrbm` has only regions
    of who runs on it now. -/
theorem RegionInv.step_of_core (h : RegionInv d) (hm : Maps d') (hregions : d'.regions = d.regions)
    (hc : ∀ c' ≠ c, d'.cores c' = d.cores c') (hh : ∀ c' ≠ c, d'.harts c' = d.harts c')
    (hmm : (d'.cores c).mmrbm = (d.cores c).mmrbm)
    (hmem : ∀ i : Fin 64, regionIsAccessible (d'.cores c).memrbm i = true →
      Owned d' i (d'.cores c).owner)
    (hidle : (d'.cores c).owner = ownerUntrusted → (d'.cores c).memrbm = 0)
    (hhart : (d'.harts c).mmrbm = (d.harts c).mmrbm ∧ (d'.harts c).memrbm = (d'.cores c).memrbm) :
    RegionStep L d d' where
  inv := by
    have hr {i : Fin 64} {o : Word} (ho : OwnedOrBlocked d i o) : OwnedOrBlocked d' i o := by
      rw [OwnedOrBlocked, Owned, hregions]; exact ho
    refine ⟨hm, fun c' => ?_⟩
    by_cases hcc : c' = c
    · subst hcc
      refine ⟨fun i hi => ?_, fun i hi => .inr (hmem i hi), hidle, ?_, hhart.2⟩
      · rw [hmm] at hi; exact hr ((h.cores c').mmrbm i hi)
      · rw [hhart.1, hmm]; exact (h.cores c').hart.1
    · exact (h.cores c').of_same (hc c' hcc) (by rw [hh c' hcc]; exact ⟨rfl, rfl⟩)
        fun i o ho _ => hr ho
  locked _ _ := by rw [hregions]
  bits c' i hi := by
    by_cases hcc : c' = c
    · subst hcc
      rcases hi with hi | hi
      · rw [hmm] at hi; exact .inl (.inl hi)
      · exact .inr (hmem i hi).1
    · rw [Accessible, hc c' hcc] at hi; exact .inl hi

/-! ## Steps that keep regions and cores -/

theorem Maps.of_same (h : Maps d) (hr : d'.regions = d.regions)
    (hu : d'.untrustedRegions = d.untrustedRegions)
    (he : ∀ f, LiveOrRunning d' f → ∀ i, (d'.enclave f).flag i = true → Owned d' i f) : Maps d' where
  metadata i hi := by rw [hr] at hi; rw [Owned, hr]; exact h.metadata i hi
  monitor := by rw [hr]; exact h.monitor
  untrusted i hi := by rw [hu] at hi; rw [Owned, hr]; exact h.untrusted i hi
  enclaves := he

/-- The data outside memory that isolation depends on. -/
structure SameRegions (d d' : Data N) : Prop where
  regions : d'.regions = d.regions
  cores : d'.cores = d.cores
  harts : d'.harts = d.harts
  untrusted : d'.untrustedRegions = d.untrustedRegions

theorem RegionInv.step_of_same {g : Word → EnclaveMetadata → EnclaveMetadata}
    {new : Word → EnclaveMetadata → Prop} (h : RegionInv d) (hs : SameRegions d d')
    (hrec : Records img d d' g new) (hnew : ∀ f E, new f E → ∀ i, E.flag i = false)
    (hflag : ∀ f E i, (g f E).flag i = E.flag i) : RegionStep L d d' := by
  have hm : Maps d' := h.toMaps.of_same hs.regions hs.untrusted <| hrec.enclaves hnew fun f hf _ i hi => by
    rw [hflag] at hi
    rw [Owned, hs.regions]
    exact h.enclaves f hf i hi
  refine h.step_of_cores hm (fun _ _ => by rw [hs.regions]) hs.cores hs.harts fun i o ho _ => ?_
  rw [OwnedOrBlocked, Owned, hs.regions]
  exact ho

/-! ## Steps that change one region -/

/-- Only the record of region `i` changes, and region `i` is not locked. -/
structure ChangesRegion (L : LockId N → Bool) (d d' : Data N) (i : Fin 64) : Prop where
  kept : ∀ j ≠ i, d'.regions j = d.regions j
  unlocked : L (.region i) = false

section
variable {o : Word} {j : Fin 64} (hc : ChangesRegion L d d' i)
include hc

theorem ChangesRegion.owned (hj : j ≠ i) (ho : Owned d j o) : Owned d' j o := by
  rw [Owned, hc.kept j hj]; exact ho

theorem ChangesRegion.ownedOrBlocked (hj : j ≠ i) (ho : OwnedOrBlocked d j o) :
    OwnedOrBlocked d' j o := by
  rw [OwnedOrBlocked, Owned, hc.kept j hj]; exact ho

theorem ChangesRegion.locked (hl : L (.region j) = true) : d'.regions j = d.regions j :=
  hc.kept j (by rintro rfl; rw [hc.unlocked] at hl; exact absurd hl nofun)

theorem Maps.of_change (h : Maps d) (h0 : i ≠ 0)
    (hmeta : (d'.regions i).type = .metadata → Owned d' i ownerSm)
    (hu : ∀ j, d'.untrustedRegions j = true →
      j ≠ i ∧ d.untrustedRegions j = true ∨ Owned d' j ownerUntrusted)
    (he : ∀ f, LiveOrRunning d' f → ∀ j, (d'.enclave f).flag j = true → Owned d' j f) : Maps d' where
  metadata j hj := by
    by_cases hji : j = i
    · subst hji; exact hmeta hj
    · rw [hc.kept j hji] at hj; exact hc.owned hji (h.metadata j hj)
  monitor := by rw [hc.kept 0 h0.symm]; exact h.monitor
  untrusted j hj := by
    rcases hu j hj with ⟨hji, hj⟩ | ho
    · exact hc.owned hji (h.untrusted j hj)
    · exact ho
  enclaves := he

end

/-- A free region is neither owned nor blocked. -/
theorem OwnedOrBlocked.ne_free {o : Word} {j : Fin 64} (ho : OwnedOrBlocked d j o)
    (hf : (d.regions i).state = .free) : j ≠ i := by
  rintro rfl
  rcases ho with hb | ⟨hs, -⟩
  · exact absurd (hf.symm.trans hb) nofun
  · exact absurd (hf.symm.trans hs) nofun

/-- The region of the monitor is owned by the monitor. -/
theorem Maps.ne_zero (h : Maps d)
    (hi : (d.regions i).state ≠ .owned ∨ (d.regions i).type ≠ .sm ∨ (d.regions i).owner ≠ ownerSm) :
    i ≠ 0 := by
  rintro rfl
  rw [h.monitor] at hi
  exact hi.elim (· rfl) (·.elim (· rfl) (· rfl))

/-! ## The region calls -/

section
variable {r o : Word}

/-- A region changes hands, and the maps follow. -/
theorem assignRegion_step (h : RegionInv d) (hg : AssignGuard L d r o)
    (hrec : Records img d (assignRegion d c (toRegion r) o)
      (fun f => changeRecord img d c f (.regionAssign r o)) (CreatedBy (.regionAssign r o))) :
    RegionStep L d (assignRegion d c (toRegion r) o) := by
  have hregions := assignRegion_regions (d := d) (c := c) (i := toRegion r) (o := o)
  have huntrusted := assignRegion_untrustedRegions (d := d) (c := c) (i := toRegion r) (o := o)
  have hframe := assignRegion_frame (d := d) (c := c) (i := toRegion r) (o := o)
  have hfresh := assignRegion_refreshed (d := d) (c := c) (i := toRegion r) (o := o)
  generalize hd' : assignRegion d c (toRegion r) o = d' at *
  have hself : Owned d' (toRegion r) o := by
    rw [Owned, hregions, Function.update_self]; exact ⟨rfl, rfl⟩
  have hc : ChangesRegion L d d' (toRegion r) :=
    ⟨fun j hj => by rw [hregions, Function.update_of_ne hj], hg.unlocked⟩
  have hown {j : Fin 64} {o' : Word} (ho : Owned d j o') : Owned d' j o' :=
    hc.owned (OwnedOrBlocked.ne_free (.inr ho) hg.state) ho
  have hm : Maps d' := by
    refine Maps.of_change hc h.toMaps (h.ne_zero (.inl (by rw [hg.state]; nofun))) (fun ht => ?_) (fun j hj => ?_)
      (hrec.enclaves (fun _ _ hn => hn.flag) fun f hf _ j hj => ?_)
    · rw [hregions, Function.update_self] at ht
      dsimp only at ht
      split_ifs at ht
    · rw [huntrusted] at hj
      split_ifs at hj with hu
      · by_cases hjr : j = toRegion r
        · rw [hjr, ← hu]; exact .inr hself
        · rw [Function.update_of_ne hjr] at hj; exact .inl ⟨hjr, hj⟩
      · exact .inr (hown (h.untrusted j hj))
    · simp only [changeRecord] at hj
      split_ifs at hj with hfo
      · by_cases hjr : j = toRegion r
        · rw [hjr, hfo]; exact hself
        · simp only [EnclaveMetadata.flag, Function.update_of_ne hjr] at hj
          exact hown (h.enclaves f hf j hj)
      · exact hown (h.enclaves f hf j hj)
  exact h.step_of_refresh hm (fun j hl => hc.locked hl) hframe hfresh fun j o' ho _ =>
    hc.ownedOrBlocked (ho.ne_free hg.state) ho

theorem blockRegion_step (h : RegionInv d) (hg : BlockGuard L d c r)
    (hrec : Records img d (blockRegion d c (toRegion r))
      (fun f => changeRecord img d c f (.regionBlock r)) (CreatedBy (.regionBlock r))) :
    RegionStep L d (blockRegion d c (toRegion r)) := by
  have hregions := blockRegion_regions (c := c) hg.notSm
  have huntrusted := blockRegion_untrustedRegions (c := c) hg.notSm
  have hframe := blockRegion_frame (c := c) hg.notSm
  have hfresh := blockRegion_refreshed (c := c) hg.notSm
  generalize hd' : blockRegion d c (toRegion r) = d' at *
  have hblocked : (d'.regions (toRegion r)).state = .blocked := by
    rw [hregions, Function.update_self]
  have hc : ChangesRegion L d d' (toRegion r) :=
    ⟨fun j hj => by rw [hregions, Function.update_of_ne hj], hg.unlocked⟩
  have hm : Maps d' := by
    refine Maps.of_change hc h.toMaps (h.ne_zero (.inr (.inl hg.type))) (fun ht => ?_) (fun j hj => ?_)
      (hrec.enclaves (fun _ _ hn => hn.flag) fun f hf _ j hj => ?_)
    · rw [hregions, Function.update_self] at ht
      exact absurd ht (hg.type_ne h.toMaps)
    · rw [huntrusted] at hj
      refine .inl ?_
      split_ifs at hj with hu
      · have hjr : j ≠ toRegion r := by rintro rfl; rw [Function.update_self] at hj; exact absurd hj nofun
        rw [Function.update_of_ne hjr] at hj
        exact ⟨hjr, hj⟩
      · exact ⟨by rintro rfl; exact hu (h.untrusted _ hj).2, hj⟩
    · simp only [changeRecord] at hj
      split_ifs at hj with hfo
      · have hjr : j ≠ toRegion r := by rintro rfl; simp [EnclaveMetadata.flag] at hj
        simp only [EnclaveMetadata.flag, Function.update_of_ne hjr] at hj
        exact hc.owned hjr (h.enclaves f hf j hj)
      · have ho := h.enclaves f hf j hj
        exact hc.owned (by rintro rfl; exact hfo (ho.2.symm.trans hg.owner)) ho
  refine h.step_of_refresh hm (fun j hl => hc.locked hl) hframe hfresh fun j o' ho _ => ?_
  by_cases hjr : j = toRegion r
  · rw [hjr]; exact .inl hblocked
  · exact hc.ownedOrBlocked hjr ho

theorem regionUpdate_step (h : RegionInv d)
    (hrec : Records img d (platformUpdateMemoryProtection d c) (fun _ => id) (CreatedBy .regionUpdate)) :
    RegionStep L d (platformUpdateMemoryProtection d c) := by
  have hm : Maps (platformUpdateMemoryProtection d c) :=
    h.toMaps.of_same rfl rfl <| hrec.enclaves (fun _ _ hn => hn.flag) fun f hf _ => h.enclaves f hf
  exact h.step_of_refresh hm (fun _ _ => rfl) platformUpdateMemoryProtection_frame
    platformUpdateMemoryProtection_refreshed fun _ _ ho _ => ho

theorem createMetadataRegion_step (h : RegionInv d) (hl : L (.region (toRegion r)) = false)
    (hfree : (d.regions (toRegion r)).state = .free)
    (hrec : Records img d (createMetadataRegion d (toRegion r) r) (fun _ => id)
      (CreatedBy (.regionMetadataCreate r))) :
    RegionStep L d (createMetadataRegion d (toRegion r) r) := by
  have hregions := createMetadataRegion_regions (d := d) (r := r)
  have hu : (createMetadataRegion d (toRegion r) r).untrustedRegions = d.untrustedRegions := rfl
  have hcores : (createMetadataRegion d (toRegion r) r).cores = d.cores := rfl
  have hharts : (createMetadataRegion d (toRegion r) r).harts = d.harts := rfl
  generalize hd' : createMetadataRegion d (toRegion r) r = d' at *
  have hc : ChangesRegion L d d' (toRegion r) :=
    ⟨fun j hj => by rw [hregions, Function.update_of_ne hj], hl⟩
  have hown {j : Fin 64} {o' : Word} (ho : Owned d j o') : Owned d' j o' :=
    hc.owned (OwnedOrBlocked.ne_free (.inr ho) hfree) ho
  have hm : Maps d' := by
    refine Maps.of_change hc h.toMaps (h.ne_zero (.inl (by rw [hfree]; nofun))) (fun _ => ?_) (fun j hj => ?_)
      (hrec.enclaves (fun _ _ hn => hn.flag) fun f hf _ j hj => hown (h.enclaves f hf j hj))
    · rw [Owned, hregions, Function.update_self]; exact ⟨rfl, rfl⟩
    · rw [hu] at hj; exact .inr (hown (h.untrusted j hj))
  exact h.step_of_cores hm (fun j hl => hc.locked hl) hcores hharts fun j o' ho _ =>
    hc.ownedOrBlocked (ho.ne_free hfree) ho

/-- The end of `region_free`: no core can access the region any more. -/
theorem freeRegion_step (h : RegionInv d) (hl : L (.region i) = false)
    (hb : (d.regions i).state = .blocked) (hacc : ∀ c, ¬ Accessible d c i)
    (hrec : Records img d (freeRegion d i) (fun _ => id) (fun _ _ => False)) :
    RegionStep L d (freeRegion d i) := by
  have hregions : (freeRegion d i).regions =
      Function.update d.regions i { d.regions i with state := .free } := rfl
  have hu : (freeRegion d i).untrustedRegions = d.untrustedRegions := rfl
  have hcores : (freeRegion d i).cores = d.cores := rfl
  have hharts : (freeRegion d i).harts = d.harts := rfl
  generalize hd' : freeRegion d i = d' at *
  have hc : ChangesRegion L d d' i :=
    ⟨fun j hj => by rw [hregions, Function.update_of_ne hj], hl⟩
  have hown {j : Fin 64} {o' : Word} (ho : Owned d j o') : Owned d' j o' :=
    hc.owned (by rintro rfl; exact absurd (hb.symm.trans ho.1) nofun) ho
  have hm : Maps d' := by
    refine Maps.of_change hc h.toMaps (h.ne_zero (.inl (by rw [hb]; nofun))) (fun ht => ?_)
      (fun j hj => ?_)
      (hrec.enclaves (fun _ _ hn => hn.elim) fun f hf _ j hj => hown (h.enclaves f hf j hj))
    · rw [hregions, Function.update_self] at ht
      exact absurd (hb.symm.trans (h.metadata i ht).1) nofun
    · rw [hu] at hj; exact .inr (hown (h.untrusted j hj))
  refine h.step_of_cores hm (fun j hl => hc.locked hl) hcores hharts fun j o' ho ⟨c, hj⟩ => ?_
  exact hc.ownedOrBlocked (by rintro rfl; exact hacc c hj) ho

end

/-! ## Deletion -/

theorem deleteEnclave_none_same (h : HeapInv img d) (he : ValidMetadata d e .enclave)
    (hn : firstRegion d e = none) : SameRegions d (deleteEnclave d e) := by
  rw [delete_none_eq h he hn]
  exact ⟨rfl, rfl, rfl, rfl⟩

/-- The first region of the enclave is blocked; its other regions stay as they are. -/
theorem deleteEnclave_some_step (hp : HeapInv img d) (h : RegionInv d) (hg : DeleteGuard L d e)
    (hi : firstRegion d e = some i) : RegionStep L d (deleteEnclave d e) := by
  have he := hg.enclave
  have hflag : (d.enclave e).flag i = true := List.find?_some hi
  have howned : Owned d i e := h.enclaves e (.inl he) i hflag
  have hcl := delete_some_clears hp hg hi (h.type_ne he hflag)
  have hregions := deleteEnclave_some_regions he hi
  have hu : (deleteEnclave d e).untrustedRegions = d.untrustedRegions := by
    rw [deleteEnclave_of_some he.aligned he.inRam hi]; rfl
  have hcores : (deleteEnclave d e).cores = d.cores := by
    rw [deleteEnclave_of_some he.aligned he.inRam hi]; rfl
  have hharts : (deleteEnclave d e).harts = d.harts := by
    rw [deleteEnclave_of_some he.aligned he.inRam hi]; rfl
  have hrec : Records img d (deleteEnclave d e) (fun _ => id) (fun _ _ => False) := hcl.records hp
  generalize hd' : deleteEnclave d e = d' at *
  have hc : ChangesRegion L d d' i :=
    ⟨fun j hj => by rw [hregions, Function.update_of_ne hj], hg.unlocked i hflag⟩
  have hgone : ¬ LiveOrRunning d' e := by
    rintro (hv | ⟨-, c, hrun⟩)
    · exact hcl.notEnclave ⟨he.aligned, he.inRam, rfl⟩ hv
    · rw [hcores] at hrun
      exact hg.not_inUse hp (.inl ⟨c, hrun⟩)
  have hm : Maps d' := by
    refine Maps.of_change hc h.toMaps (h.ne_zero (.inr (.inr ?_))) (fun ht => ?_) (fun j hj => ?_)
      (hrec.enclaves (fun _ _ hn => hn.elim) fun f hf hf' j hj => ?_)
    · rw [howned.2]; exact (hp.slot e _ he (by decide)).ne_ownerSm
    · rw [hregions, Function.update_self] at ht
      exact absurd ht (h.type_ne he hflag)
    · rw [hu] at hj
      refine .inl ⟨?_, hj⟩
      rintro rfl
      exact (EnclaveOrDead.ne_untrusted (.inl he)) (howned.2.symm.trans (h.untrusted _ hj).2)
    · have ho := h.enclaves f hf j hj
      refine hc.owned ?_ ho
      rintro rfl
      exact hgone (howned.2.symm.trans ho.2 ▸ hf')
  refine h.step_of_cores hm (fun j hl => hc.locked hl) hcores hharts fun j o' ho _ => ?_
  by_cases hji : j = i
  · rw [hji]; exact .inl (by rw [hregions, Function.update_self])
  · exact hc.ownedOrBlocked hji ho

/-! ## Enter and exit -/

theorem enterEnclave_step (hp : HeapInv img d) (h : RegionInv d) (hg : EnterGuard d e t)
    (hrec : Records img d (enterEnclave img d c e t ctx) (fun _ => id) (CreatedBy (.enclaveEnter e t))) :
    RegionStep L d (enterEnclave img d c e t ctx) := by
  have hsep := (hg.sep hp).header
  have hcores : (enterEnclave img d c e t ctx).cores = _ := enterEnclave_cores hsep
  have hharts : (enterEnclave img d c e t ctx).harts = _ := enterEnclave_harts hsep
  have hregions : (enterEnclave img d c e t ctx).regions = d.regions := by rw [enterEnclave_eq hsep]
  have huntrusted : (enterEnclave img d c e t ctx).untrustedRegions = d.untrustedRegions := by
    rw [enterEnclave_eq hsep]
  generalize enterEnclave img d c e t ctx = d' at *
  have hm : Maps d' := h.toMaps.of_same hregions huntrusted <|
    hrec.enclaves (fun _ _ hn => hn.flag) fun f hf _ i hi => by
      rw [Owned, hregions]; exact h.enclaves f hf i hi
  refine h.step_of_core (c := c) hm hregions (fun c' hc => ?_) (fun c' hc => ?_) ?_ (fun i hi => ?_)
    (fun hu => ?_) ?_
  · rw [hcores, Function.update_of_ne hc]
  · rw [hharts, Function.update_of_ne hc]
  · rw [hcores, Function.update_self]
  · rw [hcores, Function.update_self, regionsToBitmap_accessible] at hi
    rw [hcores, Function.update_self, Owned, hregions]
    exact h.enclaves e (.inl hg.enclave) i hi
  · rw [hcores, Function.update_self] at hu
    exact absurd hu (EnclaveOrDead.ne_untrusted (.inl hg.enclave))
  · rw [hharts, hcores, Function.update_self, Function.update_self]
    exact enterHart_bits

/-- An exit leaves no enclave memory accessible, because the thread was entered by a core
    that had none. -/
theorem exitEnclave_step {aex : Bool} {new : Word → EnclaveMetadata → Prop} (hp : HeapInv img d)
    (h : RegionInv d) (hu : (d.cores c).owner ≠ ownerUntrusted)
    (hrec : Records img d (exitEnclave d c aex) (fun _ => id) new)
    (hnew : ∀ f E, new f E → ∀ i, E.flag i = false) : RegionStep L d (exitEnclave d c aex) := by
  have hzero := (hp.threadOk (hp.running c hu).2).memrbm
  have hcores : (exitEnclave d c aex).cores = _ := exitEnclave_cores
  rw [hzero] at hcores
  obtain ⟨regs, hharts⟩ := exitEnclave_harts (d := d) (c := c) aex
  have hregions : (exitEnclave d c aex).regions = d.regions := by rw [exitEnclave_eq]
  have huntrusted : (exitEnclave d c aex).untrustedRegions = d.untrustedRegions := by
    rw [exitEnclave_eq]
  generalize exitEnclave d c aex = d' at *
  have hm : Maps d' := h.toMaps.of_same hregions huntrusted <|
    hrec.enclaves hnew fun f hf _ i hi => by
      rw [Owned, hregions]; exact h.enclaves f hf i hi
  refine h.step_of_core (c := c) hm hregions (fun c' hc => ?_) (fun c' hc => ?_) ?_ (fun i hi => ?_)
    (fun _ => ?_) ?_
  · rw [hcores, Function.update_of_ne hc]
  · rw [hharts, Function.update_of_ne hc]
  · rw [hcores, Function.update_self]
  · rw [hcores, Function.update_self, regionIsAccessible_zero] at hi
    exact absurd hi nofun
  · rw [hcores, Function.update_self]
  · rw [hharts, hcores, Function.update_self, Function.update_self, exitHart_bits.1, exitHart_bits.2]
    exact ⟨rfl, hzero⟩

/-! ## All calls -/

theorem effect_step (hp : HeapInv img d) (h : RegionInv d) (hcare : CallCareful d k)
    (hE : Effect img L c ctx d k d') : RegionStep L d d' := by
  have hrec := effect_records hp h hcare hE
  have hnew : ∀ f E, CreatedBy k f E → ∀ i, E.flag i = false := fun _ _ hn => hn.flag
  cases k <;> simp only [Effect] at hE
  case enclaveDelete e =>
    obtain ⟨hg, rfl⟩ := hE
    cases hf : firstRegion d e with
    | none => exact h.step_of_same (deleteEnclave_none_same hp hg.enclave hf) hrec hnew fun _ _ _ => rfl
    | some i => exact deleteEnclave_some_step hp h hg hf
  case enclaveEnter e t =>
    obtain ⟨-, hg, rfl⟩ := hE
    exact enterEnclave_step hp h hg hrec
  case enclaveExit =>
    obtain ⟨hu, rfl⟩ := hE
    exact exitEnclave_step hp h hu hrec hnew
  case regionAssign r o =>
    obtain ⟨hg, rfl⟩ := hE
    exact assignRegion_step h hg hrec
  case regionBlock r =>
    obtain ⟨hg, rfl⟩ := hE
    exact blockRegion_step h hg hrec
  case regionUpdate =>
    subst hE
    exact regionUpdate_step h hrec
  case regionMetadataCreate r =>
    obtain ⟨-, hl, hfree, rfl⟩ := hE
    exact createMetadataRegion_step h hl hfree hrec
  all_goals
    refine h.step_of_same ?_ hrec hnew fun f E i => changeRecord_flag (by simp) (by simp)
  case enclaveLoadPageTable e p v l acl =>
    obtain ⟨hg, d₁, h₁, rfl⟩ := hE
    rw [(loadPageTable_frame h₁).rest]
    exact ⟨rfl, rfl, rfl, rfl⟩
  case enclaveLoadPage e p v o acl =>
    obtain ⟨hg, d₁, h₁, rfl⟩ := hE
    rw [(loadPage_frame hg.toLoadGuard h₁).rest]
    exact ⟨rfl, rfl, rfl, rfl⟩
  case mailAccept b o => rw [hE.2, acceptMail_frame.rest]; exact ⟨rfl, rfl, rfl, rfl⟩
  case mailReceive b _ _ => rw [hE.2.2, receiveMail_frame.rest]; exact ⟨rfl, rfl, rfl, rfl⟩
  case mailSend o b msg => rw [hE.2, sendMail_frame.rest]; exact ⟨rfl, rfl, rfl, rfl⟩
  case enclaveCreate | enclaveLoadHandler | regionCachePartitioning => rw [hE.2]; exact ⟨rfl, rfl, rfl, rfl⟩
  case enclaveInit | threadDelete => rw [hE.2.2]; exact ⟨rfl, rfl, rfl, rfl⟩
  case threadLoad => rw [hE.2.2.2]; exact ⟨rfl, rfl, rfl, rfl⟩
  all_goals
    rw [hE]
    exact ⟨rfl, rfl, rfl, rfl⟩

end SecurityMonitor
