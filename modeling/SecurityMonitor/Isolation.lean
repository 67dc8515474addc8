/-
  Isolation of memory: regions, region maps and the bitmaps of the cores.

  Each core caches the regions it may access in two bitmaps, and only the calling
  core is refreshed when a region changes hands.  `RegionInv` relates them to the
  regions:

  * a region in the map of untrusted software, or of an enclave, is owned by it
    (`Maps`);
  * a region in a bitmap of a core is owned by who runs on the core, or is blocked
    (`CoreInv`).

  This module has the definitions and what follows for one core when its bitmaps
  stay as they are, or are computed anew.
-/
import SecurityMonitor.Delete

namespace SecurityMonitor

open ByteMem

variable {N : ℕ} {img : Image N} {d d' : Data N} {a e x : Word} {c : Fin N} {i : Fin 64}

/-! ## The invariant -/

/-- Region `i` is owned by `o`. -/
def Owned (d : Data N) (i : Fin 64) (o : Word) : Prop :=
  (d.regions i).state = .owned ∧ (d.regions i).owner = o

/-- Region `i` may be accessible to `o`. -/
def OwnedOrBlocked (d : Data N) (i : Fin 64) (o : Word) : Prop :=
  (d.regions i).state = .blocked ∨ Owned d i o

/-- An enclave that exists, or that a core runs. -/
def LiveOrRunning (d : Data N) (e : Word) : Prop :=
  ValidMetadata d e .enclave ∨ e ≠ ownerUntrusted ∧ ∃ c, (d.cores c).owner = e

/-- The maps agree with the owners of the regions. -/
structure Maps (d : Data N) : Prop where
  metadata : ∀ i, (d.regions i).type = .metadata → Owned d i ownerSm
  monitor : d.regions 0 = ⟨ownerSm, .sm, .owned⟩
  untrusted : ∀ i, d.untrustedRegions i = true → Owned d i ownerUntrusted
  enclaves : ∀ e, LiveOrRunning d e → ∀ i, (d.enclave e).flag i = true → Owned d i e

/-- The bitmaps of a core give access to what the core may access. -/
structure CoreInv (d : Data N) (c : Fin N) : Prop where
  mmrbm : ∀ i : Fin 64, regionIsAccessible (d.cores c).mmrbm i = true →
    OwnedOrBlocked d i ownerUntrusted
  memrbm : ∀ i : Fin 64, regionIsAccessible (d.cores c).memrbm i = true →
    OwnedOrBlocked d i (d.cores c).owner
  idle : (d.cores c).owner = ownerUntrusted → (d.cores c).memrbm = 0
  hart : (d.harts c).mmrbm = (d.cores c).mmrbm ∧ (d.harts c).memrbm = (d.cores c).memrbm

structure RegionInv (d : Data N) : Prop extends Maps d where
  cores : ∀ c, CoreInv d c

/-! ## Consequences -/

theorem Maps.metadataOwned (h : Maps d) : MetadataOwned d := fun i hi => (h.metadata i hi).2

theorem Maps.monitorRegion (h : Maps d) : MonitorRegion d := by
  rw [MonitorRegion, h.monitor]; nofun

theorem LiveOrRunning.enclaveOrDead (h : HeapInv img d) (he : LiveOrRunning d e) :
    EnclaveOrDead d e := by
  rcases he with hv | ⟨hne, c, rfl⟩
  · exact .inl hv
  · exact (h.running c hne).1

/-- A region of an enclave is no metadata region. -/
theorem Maps.type_ne (h : Maps d) (he : ValidMetadata d e .enclave)
    (hi : (d.enclave e).flag i = true) : (d.regions i).type ≠ .metadata := fun ht => by
  have heq := (h.enclaves e (.inl he) i hi).2.symm.trans (h.metadata i ht).2
  exact absurd he.aligned (by rw [heq]; decide)

/-- What a core may access does not belong to the monitor. -/
theorem RegionInv.accessible_not_sm (h : RegionInv d)
    (hrun : ∀ c, (d.cores c).owner ≠ ownerUntrusted → (d.cores c).owner ≠ ownerSm)
    (hi : regionIsAccessible (d.cores c).mmrbm i = true ∨
      regionIsAccessible (d.cores c).memrbm i = true) : ¬ Owned d i ownerSm := fun ⟨hst, ho⟩ => by
  have hcore := h.cores c
  have hne {o : Word} (ho' : o ≠ ownerSm) : ¬ OwnedOrBlocked d i o := by
    rintro (hb | ⟨-, hown⟩)
    · rw [hst] at hb; exact absurd hb nofun
    · exact ho' (hown.symm.trans ho)
  rcases hi with hm | hm
  · exact hne (by decide) (hcore.mmrbm i hm)
  · refine hne (hrun c fun hu => ?_) (hcore.memrbm i hm)
    rw [hcore.idle hu] at hm
    exact absurd hm (by simp [regionIsAccessible])

/-! ## One core -/

/-- A core whose bitmaps stay, when the regions in them stay accessible. -/
theorem CoreInv.of_same (h : CoreInv d c) (hc : d'.cores c = d.cores c)
    (hh : (d'.harts c).mmrbm = (d.harts c).mmrbm ∧ (d'.harts c).memrbm = (d.harts c).memrbm)
    (hr : ∀ (i : Fin 64) o, OwnedOrBlocked d i o →
      regionIsAccessible (d.cores c).mmrbm i = true ∨ regionIsAccessible (d.cores c).memrbm i = true →
      OwnedOrBlocked d' i o) : CoreInv d' c where
  mmrbm i hi := by rw [hc] at hi; exact hr i _ (h.mmrbm i hi) (.inl hi)
  memrbm i hi := by rw [hc] at hi ⊢; exact hr i _ (h.memrbm i hi) (.inr hi)
  idle ho := by rw [hc] at ho ⊢; exact h.idle ho
  hart := by rw [hh.1, hh.2, hc]; exact h.hart

/-- The bitmaps of the core are computed from the maps. -/
structure Refreshed (d : Data N) (c : Fin N) : Prop where
  mmrbm : (d.cores c).mmrbm = regionsToBitmap d.untrustedRegions
  memrbm : (d.cores c).memrbm = if (d.cores c).owner ≠ ownerUntrusted then
    regionsToBitmap (d.enclave (d.cores c).owner).flag else 0
  hart : (d.harts c).mmrbm = (d.cores c).mmrbm ∧ (d.harts c).memrbm = (d.cores c).memrbm

theorem Refreshed.owned (hf : Refreshed d c) (h : Maps d)
    (hi : regionIsAccessible (d.cores c).mmrbm i = true) : Owned d i ownerUntrusted := by
  rw [hf.mmrbm, regionsToBitmap_accessible] at hi
  exact h.untrusted i hi

theorem Refreshed.ownedEnclave (hf : Refreshed d c) (h : Maps d)
    (hi : regionIsAccessible (d.cores c).memrbm i = true) : Owned d i (d.cores c).owner := by
  rw [hf.memrbm] at hi
  split_ifs at hi with hu
  · rw [regionsToBitmap_accessible] at hi
    exact h.enclaves _ (.inr ⟨hu, c, rfl⟩) i hi
  · rw [regionIsAccessible_zero] at hi
    exact absurd hi nofun

theorem Refreshed.coreInv (hf : Refreshed d c) (h : Maps d) : CoreInv d c where
  mmrbm _ hi := .inr (hf.owned h hi)
  memrbm _ hi := .inr (hf.ownedEnclave h hi)
  idle ho := by rw [hf.memrbm, if_neg (not_not.mpr ho)]
  hart := hf.hart

theorem platformUpdateMemoryProtection_refreshed :
    Refreshed (platformUpdateMemoryProtection d c) c := by
  refine ⟨?_, ?_, ?_⟩ <;>
    simp [platformUpdateMemoryProtection, Data.setCore, Data.setHart, Data.enclave]

/-! ## The region calls -/

/-- What a refresh of the bitmaps of core `c` leaves as it is. -/
structure RefreshFrame (d : Data N) (c : Fin N) (d' : Data N) : Prop where
  keys : d'.keys = d.keys
  owner : (d'.cores c).owner = (d.cores c).owner
  thread : (d'.cores c).thread = (d.cores c).thread
  cores : ∀ c' ≠ c, d'.cores c' = d.cores c'
  harts : ∀ c' ≠ c, d'.harts c' = d.harts c'

theorem RefreshFrame.sameRunning (h : RefreshFrame d c d') : SameRunning d d' := fun c' => by
  by_cases hc : c' = c
  · rw [hc]; exact ⟨h.owner, h.thread⟩
  · rw [h.cores c' hc]; exact ⟨rfl, rfl⟩

theorem platformUpdateMemoryProtection_frame : RefreshFrame d c (platformUpdateMemoryProtection d c) where
  keys := rfl
  owner := by simp [platformUpdateMemoryProtection, Data.setCore, Data.setHart]
  thread := by simp [platformUpdateMemoryProtection, Data.setCore, Data.setHart]
  cores c' h := by simp [platformUpdateMemoryProtection, Data.setCore, Data.setHart, h]
  harts c' h := by simp [platformUpdateMemoryProtection, Data.setCore, Data.setHart, h]

section
variable {o : Word}

theorem assignRegion_frame : RefreshFrame d c (assignRegion d c i o) := by
  unfold assignRegion
  split_ifs <;> exact ⟨rfl, platformUpdateMemoryProtection_frame.owner,
    platformUpdateMemoryProtection_frame.thread, platformUpdateMemoryProtection_frame.cores,
    platformUpdateMemoryProtection_frame.harts⟩

theorem assignRegion_refreshed : Refreshed (assignRegion d c i o) c := by
  unfold assignRegion
  split_ifs <;> exact platformUpdateMemoryProtection_refreshed

theorem assignRegion_regions : (assignRegion d c i o).regions = Function.update d.regions i
    { owner := o, type := if o = ownerUntrusted then .untrusted else .enclave, state := .owned } := by
  unfold assignRegion
  split_ifs <;> rfl

theorem assignRegion_untrustedRegions : (assignRegion d c i o).untrustedRegions =
    if o = ownerUntrusted then Function.update d.untrustedRegions i true else d.untrustedRegions := by
  unfold assignRegion
  split_ifs <;> rfl

theorem assignRegion_mem : (assignRegion d c i o).mem =
    if o = ownerUntrusted then d.mem else Enclave.setRegion d.mem o i true := by
  unfold assignRegion
  split_ifs <;> rfl

end

section
variable (ho : (d.regions i).owner ≠ ownerSm)
include ho

theorem blockRegion_eq : blockRegion d c i =
    let d₁ := d.setRegion i { d.regions i with owner := ownerSm }
    let d₂ := if (d.regions i).owner = ownerUntrusted then platformUpdateUntrustedRegions d₁ c i false
      else platformUpdateEnclaveRegions d₁ c (d.regions i).owner i false
    d₂.setRegion i { d₂.regions i with state := .blocked } := by
  by_cases hu : (d.regions i).owner = ownerUntrusted
  · simp only [blockRegion, hu, ne_eq, not_true_eq_false, false_and, if_false, if_true]
  · simp only [blockRegion, hu, ho, ne_eq, not_false_eq_true, and_self, if_false, if_true]

theorem blockRegion_frame : RefreshFrame d c (blockRegion d c i) := by
  rw [blockRegion_eq ho]
  dsimp only
  split_ifs <;> exact ⟨rfl, platformUpdateMemoryProtection_frame.owner,
    platformUpdateMemoryProtection_frame.thread, platformUpdateMemoryProtection_frame.cores,
    platformUpdateMemoryProtection_frame.harts⟩

theorem blockRegion_refreshed : Refreshed (blockRegion d c i) c := by
  rw [blockRegion_eq ho]
  dsimp only
  split_ifs
  · have h := platformUpdateMemoryProtection_refreshed (c := c) (d :=
      { d.setRegion i { d.regions i with owner := ownerSm } with
        untrustedRegions := Function.update d.untrustedRegions i false })
    exact ⟨h.mmrbm, h.memrbm, h.hart⟩
  · have h := platformUpdateMemoryProtection_refreshed (c := c) (d :=
      { d.setRegion i { d.regions i with owner := ownerSm } with
        mem := Enclave.setRegion d.mem (d.regions i).owner i false })
    exact ⟨h.mmrbm, h.memrbm, h.hart⟩

theorem blockRegion_regions : (blockRegion d c i).regions = Function.update d.regions i
    { owner := ownerSm, type := (d.regions i).type, state := .blocked } := by
  rw [blockRegion_eq ho]
  dsimp only
  split_ifs <;> simp [platformUpdateUntrustedRegions, platformUpdateEnclaveRegions,
    platformUpdateMemoryProtection, Data.setRegion, Data.setCore, Data.setHart]

theorem blockRegion_untrustedRegions : (blockRegion d c i).untrustedRegions =
    if (d.regions i).owner = ownerUntrusted then Function.update d.untrustedRegions i false
    else d.untrustedRegions := by
  rw [blockRegion_eq ho]
  dsimp only
  split_ifs <;> rfl

theorem blockRegion_mem : (blockRegion d c i).mem =
    if (d.regions i).owner = ownerUntrusted then d.mem
    else Enclave.setRegion d.mem (d.regions i).owner i false := by
  rw [blockRegion_eq ho]
  dsimp only
  split_ifs <;> rfl

end

end SecurityMonitor
