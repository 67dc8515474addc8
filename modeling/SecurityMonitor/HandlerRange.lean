/-
  The protected range of an enclave
  (`platform/platform_memory_protection_untrusted.c`,
  `src/api/enclave_load_handler.c`).

  The copy of the handler in the memory of an enclave is to be kept from the
  enclave: translated accesses to an address `a` are blocked if
  `(a & MEPARMASK) == MEPARBASE`.  The mask is computed in signed arithmetic, and
  comes out as zero.

  * `LoadHandlerGuard.not_protected`: no address is in the range;
  * `enter_protection`: `enclave_enter` puts base and mask in the registers;
  * `protection_kept`: no call changes them while the enclave exists;
  * `handler_protection_iff`: the handler is covered only if it is empty.
-/
import SecurityMonitor.Deletion
import SecurityMonitor.Loading
import SecurityMonitor.Lib.Sv39

namespace SecurityMonitor

open ByteMem

variable {N : ℕ} {img : Image N} {boot : Boot N} {s s' s₁ : Config N} {d d' : Data N} {e p t : Word}
  {c : Fin N} {ctx : TrapContext} {r : Reply} {es : List (Event N)} {ev : Event N}

/-- The hardware blocks translated accesses to `a` with the range of `E`. -/
def Protected (E : EnclaveMetadata) (a : Word) : Prop := a &&& E.meparmask = E.meparbase

instance (E : EnclaveMetadata) (a : Word) : Decidable (Protected E a) := inferInstanceAs (Decidable (_ = _))

/-! ## The range -/

theorem handlerMask_eq_zero : handlerMask = 0 := by decide

/-- The handler is copied to RAM. -/
theorem LoadHandlerGuard.base_ne_zero (hg : LoadHandlerGuard img d e p) : off p (N * stackSize) ≠ 0 := by
  intro h
  have hram := (addrToRegionId_lt p).mp hg.owned.1
  have hin := hg.inside
  have hto := congrArg BitVec.toNat h
  rw [off_toNat_of_lt (by omega)] at hto
  simp at hto
  omega

/-- The range of an enclave after `enclave_load_handler` is empty. -/
theorem LoadHandlerGuard.not_protected {E : EnclaveMetadata} (hg : LoadHandlerGuard img d e p) (a : Word) :
    ¬ Protected (loadHandlerRecord img p E) a := by
  show ¬ a &&& handlerMask = off p (N * stackSize)
  rw [handlerMask_eq_zero, show a &&& 0 = 0 from BitVec.and_zero]
  exact fun h => hg.base_ne_zero h.symm

/-! ## The registers -/

/-- `enclave_enter` puts the range of the enclave in the registers of the core. -/
theorem enter_protection (hs : Step img s (.call c (.enclaveEnter e t) ctx, some r) s') (hv : r.value = 0) :
    (s'.data.harts c).meparbase = (s.data.enclave e).meparbase ∧
      (s'.data.harts c).meparmask = (s.data.enclave e).meparmask := by
  obtain ⟨r', hr, -, hE⟩ := (step_call hs).reply
  obtain rfl := Option.some.inj hr
  obtain ⟨-, hg, hd⟩ := hE hv
  have hne : e ≠ t := by
    rintro rfl
    exact absurd (hg.enclave.tag.symm.trans hg.thread.tag) (by decide)
  have ha := (isPageAligned_iff e).mp hg.enclave.aligned
  have ht := (isPageAligned_iff t).mp hg.thread.aligned
  have hsep := Sv39.page_sep ha ht hne
  rw [hd, enterEnclave_eq fun x hx hx' => hsep x (header_subset e hx) (threadBytes_subset t hx')]
  simp only [Function.update_self]
  exact ⟨rfl, rfl⟩

/-- A careful step after which the enclave at `e` still exists. -/
def Alive (img : Image N) (e : Word) (s : Config N) (ev : Event N) (s' : Config N) : Prop :=
  CarefulStep img s ev s' ∧ ValidMetadata s'.data e .enclave

/-- The range and the address of the handler, once it is loaded. -/
structure HasRange (E₀ : EnclaveMetadata) (E : EnclaveMetadata) : Prop where
  base : E.meparbase = E₀.meparbase
  mask : E.meparmask = E₀.meparmask
  pc : E.faultPc = E₀.faultPc
  loaded : E.initState ≠ enclaveStateCreated

theorem HasRange.changeRecord {E₀ E : EnclaveMetadata} {k : Call} (h : HasRange E₀ E)
    (hk : ∀ p, k ≠ .enclaveLoadHandler e p) : HasRange E₀ (changeRecord img d c e k E) := by
  have hid (f : EnclaveMetadata → EnclaveMetadata) (q : Prop) [Decidable q]
      (hf : q → HasRange E₀ (f E)) : HasRange E₀ ((if q then f else id) E) := by
    split_ifs with hq
    · exact hf hq
    · exact h
  cases k with
  | enclaveInit =>
    exact hid _ _ fun _ => ⟨h.base, h.mask, h.pc, (by decide : enclaveStateInitialized ≠ _)⟩
  | enclaveLoadHandler f p => exact hid _ _ fun hf => absurd (by rw [hf]) (hk p)
  | enclaveLoadPageTable =>
    exact hid _ _ fun _ => ⟨h.base, h.mask, h.pc, (by decide : enclaveStatePageTablesLoaded ≠ _)⟩
  | enclaveLoadPage =>
    exact hid _ _ fun _ => ⟨h.base, h.mask, h.pc, (by decide : enclaveStatePageDataLoaded ≠ _)⟩
  | threadLoad => exact hid _ _ fun _ => ⟨h.base, h.mask, h.pc, h.loaded⟩
  | threadDelete => exact hid _ _ fun _ => ⟨h.base, h.mask, h.pc, h.loaded⟩
  | regionAssign => exact hid _ _ fun _ => ⟨h.base, h.mask, h.pc, h.loaded⟩
  | regionBlock => exact hid _ _ fun _ => ⟨h.base, h.mask, h.pc, h.loaded⟩
  | _ => exact h

/-- **The range stays while the enclave exists.** -/
theorem Alive.hasRange {E₀ : EnclaveMetadata} (hs : Alive img e s ev s') (hinv : SystemInv img s)
    (he : ValidMetadata s.data e .enclave) (h : HasRange E₀ (s.data.enclave e)) :
    HasRange E₀ (s'.data.enclave e) := by
  rw [hs.1.record_eq hinv he hs.2]
  obtain ⟨lab, o⟩ := ev
  rcases lab with ⟨c, k, ctx⟩ | _ | _ | _ | _
  case call =>
    obtain ⟨r, rfl, -, hE⟩ := (step_call hs.1.1).reply
    rw [eventChange]
    split_ifs with hv
    · refine h.changeRecord ?_
      rintro p rfl
      exact h.loaded (hE hv).1.state
    · exact h
  all_goals exact h

/-- What `enclave_load_handler` leaves in the record. -/
theorem step_loadHandler (hm : MetadataOwned s.data)
    (hs : Step img s (.call c (.enclaveLoadHandler e p) ctx, some r) s₁) (hv : r.value = 0) :
    LoadHandlerGuard img s.data e p ∧ s₁.data.enclave e = loadHandlerRecord img p (s.data.enclave e) := by
  obtain ⟨r', hr, -, hE⟩ := (step_call hs).reply
  obtain rfl := Option.some.inj hr
  obtain ⟨hg, hd⟩ := hE hv
  rw [hd]
  exact ⟨hg, loadHandler_enclave hg hm⟩

/-- The range that the handler was loaded with is the range of the enclave as long as it exists. -/
theorem protection_kept {es' : List (Event N)} (h : CarefulRun img boot es s)
    (hs : Alive img e s (.call c (.enclaveLoadHandler e p) ctx, some r) s₁) (hv : r.value = 0)
    (hrun : Runs (Alive img e) s₁ es' s') : HasRange (s₁.data.enclave e) (s'.data.enclave e) := by
  obtain ⟨-, hrec⟩ := step_loadHandler h.inv.regions.metadataOwned hs.1.1 hv
  have hstart : HasRange (s₁.data.enclave e) (s₁.data.enclave e) :=
    ⟨rfl, rfl, rfl, by rw [hrec]; exact (by decide : enclaveStateHandlerLoaded ≠ enclaveStateCreated)⟩
  have hall : SystemInv img s' ∧ ValidMetadata s'.data e .enclave ∧
      HasRange (s₁.data.enclave e) (s'.data.enclave e) := by
    refine hrun.invariant (I := fun s => SystemInv img s ∧ ValidMetadata s.data e .enclave ∧
      HasRange (s₁.data.enclave e) (s.data.enclave e)) ?_ ?_
    · exact ⟨(step_inv h.inv hs.1.2 hs.1.1).1, hs.2, hstart⟩
    · rintro s ev s' ⟨hinv, he, hrange⟩ hstep
      exact ⟨(step_inv hinv hstep.1.2 hstep.1.1).1, hstep.2, hstep.hasRange hinv he hrange⟩
  exact hall.2.2

/-! ## The handler -/

/-- **The range covers the copy of the handler only if the handler is empty.**  It is the range
    that `enclave_enter` puts in the registers, as long as the enclave exists. -/
theorem handler_protection_iff (h : Runs (Step img) (smInit img boot) es s)
    (hs : Step img s (.call c (.enclaveLoadHandler e p) ctx, some r) s₁) (hv : r.value = 0) :
    ((∀ k < img.enclaveHandler.length,
        Protected (s₁.data.enclave e) (off (s₁.data.enclave e).faultPc k)) ↔ img.enclaveHandler = []) ∧
    (∀ s₂ c' t ctx' r' s₃, Step img s₂ (.call c' (.enclaveEnter e t) ctx', some r') s₃ → r'.value = 0 →
      (s₃.data.harts c').meparbase = (s₂.data.enclave e).meparbase ∧
        (s₃.data.harts c').meparmask = (s₂.data.enclave e).meparmask) ∧
    ∀ es₂ s₂, CarefulRun img boot es s → Careful s (.call c (.enclaveLoadHandler e p) ctx) →
      ValidMetadata s₁.data e .enclave → Runs (Alive img e) s₁ es₂ s₂ →
      (s₂.data.enclave e).meparbase = (s₁.data.enclave e).meparbase ∧
        (s₂.data.enclave e).meparmask = (s₁.data.enclave e).meparmask := by
  refine ⟨?_, fun _ _ _ _ _ _ hs hv => enter_protection hs hv, fun es₂ s₂ hcareful hc he hrun => ?_⟩
  · obtain ⟨hg, hrec⟩ := step_loadHandler (metadataOwned_run h) hs hv
    constructor
    · intro hall
      by_contra hne
      have hfirst := hall 0 (List.length_pos_iff.mpr hne)
      rw [hrec] at hfirst
      exact hg.not_protected _ hfirst
    · intro hnil k hk
      rw [hnil] at hk
      exact absurd hk (Nat.not_lt_zero k)
  · have hrange := protection_kept hcareful ⟨hs.carefully hc, he⟩ hv hrun
    exact ⟨hrange.base, hrange.mask⟩

set_option maxRecDepth 100000 in
/-- The step that loads the handler of the first enclave. -/
theorem exists_loadHandler : ∃ es s r s₁, Runs (Step smallImage) (smInit smallImage zeroBoot) es s ∧
    Step smallImage s (callOn 0 (.enclaveLoadHandler firstEnclave 0x84000000), some r) s₁ ∧ r.value = 0 ∧
    ¬ Protected (s₁.data.enclave firstEnclave) (s₁.data.enclave firstEnclave).faultPc := by
  obtain ⟨es, s, o, s₁, h, hs, hv, hp⟩ : ∃ es s o s₁,
      Runs (Step smallImage) (smInit smallImage zeroBoot) es s ∧
      Step smallImage s (callOn 0 (.enclaveLoadHandler firstEnclave 0x84000000), o) s₁ ∧
      o.map Reply.value = some 0 ∧
      ¬ Protected (s₁.data.enclave firstEnclave) (s₁.data.enclave firstEnclave).faultPc :=
    Runs.exists_step_of_runsOf (setupLabels ++ (buildLabels firstEnclave firstThread 0).take 2) _
      (by decide +kernel)
  obtain ⟨r, rfl, hr⟩ := Option.map_eq_some_iff.mp hv
  exact ⟨es, s, r, s₁, h, hs, hr, hp⟩

theorem handler_protection_first : ∃ es s r s₁, Runs (Step smallImage) (smInit smallImage zeroBoot) es s ∧
    Step smallImage s (callOn 0 (.enclaveLoadHandler firstEnclave 0x84000000), some r) s₁ ∧ r.value = 0 ∧
    ((∀ k < smallImage.enclaveHandler.length, Protected (s₁.data.enclave firstEnclave)
      (off (s₁.data.enclave firstEnclave).faultPc k)) ↔ smallImage.enclaveHandler = []) := by
  obtain ⟨es, s, r, s₁, h, hs, hv, -⟩ := exists_loadHandler
  exact ⟨es, s, r, s₁, h, hs, hv, (handler_protection_iff h hs hv).1⟩

/-- The handler has one byte, and this byte is not protected. -/
theorem handler_protection_fails : ∃ es s r s₁, Runs (Step smallImage) (smInit smallImage zeroBoot) es s ∧
    Step smallImage s (callOn 0 (.enclaveLoadHandler firstEnclave 0x84000000), some r) s₁ ∧ r.value = 0 ∧
    smallImage.enclaveHandler.length = 1 ∧
    ¬ Protected (s₁.data.enclave firstEnclave) (off (s₁.data.enclave firstEnclave).faultPc 0) := by
  obtain ⟨es, s, r, s₁, h, hs, hv, hp⟩ := exists_loadHandler
  exact ⟨es, s, r, s₁, h, hs, hv, rfl, by rwa [off_zero]⟩

end SecurityMonitor
