/-
  The two helpers that lock the region of a metadata pointer and check its page
  tags (`src/common/lock_region_iff_valid_metadata.c`,
  `src/common/lock_region_iff_free_metadata_pages.c`).

  A helper should be all or nothing: if a check fails after the region was
  locked, the region is to be as before.  The flag that says whether it had been
  locked before is read the wrong way round.

  * `Lists`: the map of a call lists the region locks that it holds;
  * `LockOutcome`: what a helper does, for both of them: how it ends depends on
    whether the pointer is well-formed, the lock is to be had, and the checks
    pass (`wp_validMetadata`, `wp_freeMetadataPages`);
  * `lock_helpers_iff`: a helper is all or nothing unless a check fails under
    the lock.
-/
import SecurityMonitor.MemoryIsolation

namespace SecurityMonitor

open ByteMem Prog

variable {N : ℕ} {s s' : CallState N} {ptr r n : Word} {i : Fin 64} {others : Fin 64 → Bool}

/-! ## Locks and the map -/

/-- The map lists the region locks that the call holds; `others` are held by other calls. -/
structure Lists (others : Fin 64 → Bool) (s : CallState N) : Prop where
  locks : ∀ i, s.locks (.region i) = (s.lockedRegions i || others i)
  own : ∀ i, s.lockedRegions i = true → others i = false

/-- The region `i` is locked and listed. -/
def CallState.hold (s : CallState N) (i : Fin 64) : CallState N :=
  { s.setLock (.region i) true with lockedRegions := Function.update s.lockedRegions i true }

/-- The state when the checks begin. -/
def CallState.holding (s : CallState N) (i : Fin 64) : CallState N :=
  if s.lockedRegions i then s else s.hold i

/-- The state after a check has failed: the source unlocks a region that had been locked before. -/
def CallState.undone (s : CallState N) (i : Fin 64) : CallState N :=
  if s.lockedRegions i then s.setLock (.region i) false else s.hold i

/-- The region can be locked: the call has it, or it is free. -/
def CanHold (s : CallState N) (i : Fin 64) : Prop :=
  s.lockedRegions i = true ∨ s.locks (.region i) = false

@[simp] theorem CallState.holding_data (s : CallState N) (i : Fin 64) : (s.holding i).data = s.data := by
  rw [holding]
  split_ifs <;> rfl

/-! ## What the helpers do -/

/-- How a helper ends on a pointer into region `i`, which is `formed` well or not and passes
    the `checks` or not. -/
inductive LockOutcome (s : CallState N) (i : Fin 64) (formed checks : Prop) :
    ApiResult → CallState N → Prop
  | malformed : ¬ formed → LockOutcome s i formed checks .invalidValue s
  | refused : formed → ¬ CanHold s i → LockOutcome s i formed checks .concurrentCall s
  | failed : formed → CanHold s i → ¬ checks → LockOutcome s i formed checks .invalidState (s.undone i)
  | locked : formed → CanHold s i → checks → LockOutcome s i formed checks .ok (s.holding i)

theorem forall_lockOutcome {formed checks : Prop} {Q : ApiResult → CallState N → Prop} :
    (∀ r s', LockOutcome s i formed checks r s' → Q r s') ↔ (¬ formed → Q .invalidValue s) ∧
      (formed → (¬ CanHold s i → Q .concurrentCall s) ∧ (CanHold s i →
        (¬ checks → Q .invalidState (s.undone i)) ∧ (checks → Q .ok (s.holding i)))) := by
  constructor
  · intro h
    exact ⟨fun hf => h _ _ (.malformed hf), fun hf => ⟨fun hc => h _ _ (.refused hf hc), fun hc =>
      ⟨fun hk => h _ _ (.failed hf hc hk), fun hk => h _ _ (.locked hf hc hk)⟩⟩⟩
  · rintro ⟨h₁, h₂⟩ r s' h
    cases h with
    | malformed hf => exact h₁ hf
    | refused hf hc => exact (h₂ hf).1 hc
    | failed hf hc hk => exact ((h₂ hf).2 hc).1 hk
    | locked hf hc hk => exact ((h₂ hf).2 hc).2 hk

section
variable {E : Empty → CallState N → Prop} {F : Fault → Prop} {Q : ApiResult → CallState N → Prop}

theorem wp_addLockRegion_iff {ρ : Type} {Q : Bool → CallState N → Prop} {R : ρ → CallState N → Prop}
    (hr : r.toNat < 64) : (addLockRegion r).wp Q R F s ↔
      (¬ CanHold s (toRegion r) → Q false s) ∧ (CanHold s (toRegion r) → Q true (s.holding (toRegion r))) := by
  simp only [addLockRegion, wp_bind, wp_regionIndex, wp_getLocked, wp_ite, wp_pure, wp_acquire,
    wp_markLocked]
  cases hflag : s.lockedRegions (toRegion r) with
  | true => simp [hr, hflag, CanHold, CallState.holding]
  | false =>
    cases hlock : s.locks (.region (toRegion r)) with
    | true => simp [hr, hflag, hlock, CanHold, CallState.setLock_eq hlock]
    | false =>
      simp only [hr, hlock, CanHold, CallState.holding, CallState.hold, hflag]
      simp [CallState.setLock]

theorem wp_failUnlocking (hr : r.toNat < 64) :
    (failUnlocking (s.lockedRegions (toRegion r)) r).wp E Q F (s.holding (toRegion r)) ↔
      Q .invalidState (s.undone (toRegion r)) := by
  simp only [failUnlocking, wp_bind, wp_regionIndex, wp_undoLock, wp_ret, CallState.holding,
    CallState.undone]
  cases hflag : s.lockedRegions (toRegion r) with
  | true => simp [hr]
  | false => simp [hr]

/-- Two checks that fail the same way. -/
theorem guards {a b X Y : Prop} :
    (¬ a → X) ∧ (a → (¬ b → X) ∧ (b → Y)) ↔ (¬ (a ∧ b) → X) ∧ (a ∧ b → Y) := by
  by_cases ha : a <;> simp [ha]

/-- **The check of one page.** -/
theorem wp_validMetadata {k : MetadataPage} : (addLockRegionIffValidMetadata ptr k).wp E Q F s ↔
    ∀ r s', LockOutcome s (regionOf ptr)
      (isPageAligned ptr = true ∧ (addrToRegionId ptr).toNat < 64) (ValidMetadata s.data ptr k) r s' → Q r s' := by
  rw [forall_lockOutcome]
  simp only [wp_call, addLockRegionIffValidMetadata, wp_bind, wp_ite, wp_ret, wp_getLocked, wp_getData,
    Bool.not_eq_true', not_not, ← Bool.not_eq_true, isValidRegionId_iff, ne_eq, guards]
  refine and_congr_right fun _ => forall_congr' fun hformed => ?_
  obtain ⟨ha, hr⟩ := hformed
  have hchecks : ValidMetadata s.data ptr k ↔ (s.data.regions (regionOf ptr)).type = .metadata ∧
      (s.data.regions (regionOf ptr)).state = .owned ∧ pageTag s.data ptr = k.code :=
    ⟨fun h => ⟨h.type, h.state, h.tag⟩, fun h => ⟨⟨ha, hr, h.1, h.2.1⟩, h.2.2⟩⟩
  rw [wp_addLockRegion_iff hr]
  simp only [wp_failUnlocking hr, CallState.holding_data, hchecks]
  simp [regionOf, pageTag]

/-- **The check of several pages.** -/
theorem wp_freeMetadataPages : (addLockRegionIffFreeMetadataPages ptr n).wp E Q F s ↔
    ∀ r s', LockOutcome s (regionOf ptr)
      (isPageAligned ptr = true ∧ (addrToRegionId ptr).toNat < 64 ∧
        (addrToRegionPageId ptr + n - 1).toNat < 8192)
      (FreeMetadataPages s.data ptr n) r s' → Q r s' := by
  rw [forall_lockOutcome]
  simp only [wp_call, addLockRegionIffFreeMetadataPages, wp_bind, wp_ite, wp_ret, wp_getLocked, wp_getData,
    Bool.not_eq_true', not_not, ← Bool.not_eq_true, isValidRegionId_iff, isValidPageIdInRegion_iff, ne_eq,
    guards]
  refine and_congr_right fun _ => forall_congr' fun hformed => ?_
  obtain ⟨ha, hr, hp⟩ := hformed
  let free (i : ℕ) : Prop := pageInfo s.data.mem (addrToRegionId ptr)
    (addrToRegionPageId ptr + BitVec.ofNat 64 i) = MetadataPage.free.code
  have hchecks : FreeMetadataPages s.data ptr n ↔ ((s.data.regions (regionOf ptr)).type = .metadata ∧
      (s.data.regions (regionOf ptr)).state = .owned) ∧ ∀ i ∈ List.range n.toNat, free i :=
    ⟨fun h => ⟨⟨h.type, h.state⟩, fun i hi => h.free i (List.mem_range.mp hi)⟩,
      fun h => ⟨⟨ha, hr, h.1.1, h.1.2⟩, hp, fun i hi => h.2 i (List.mem_range.mpr hi)⟩⟩
  rw [wp_addLockRegion_iff hr]
  simp only [wp_failUnlocking hr, CallState.holding_data, hchecks]
  rw [wp_forEach_check (G := free) (P := Q .invalidState (s.undone (regionOf ptr)))
    (s := s.holding (toRegion (addrToRegionId ptr)))]
  · rw [show toRegion (addrToRegionId ptr) = regionOf ptr from rfl, guards]
    simp
  · intro i Q'
    rw [wp_ite, wp_bind, wp_call]
    simp only [wp_ret, wp_pure, wp_failUnlocking hr, not_not]
    rfl

end

/-! ## All or nothing -/

/-- A helper on a pointer into region `i` fails and has no effect, or it locks the region, which
    passes the `checks`.  The map lists the locks in both cases. -/
structure AllOrNothing (others : Fin 64 → Bool) (s : CallState N) (i : Fin 64) (checks : Prop)
    (r : ApiResult) (s' : CallState N) : Prop where
  nothing : r ≠ .ok →
    (∀ j, s'.locks (.region j) = s.locks (.region j)) ∧ s'.lockedRegions = s.lockedRegions
  all : r = .ok → s'.locks (.region i) = true ∧ s'.lockedRegions i = true ∧ checks
  kept : r = .ok → (∀ l, l ≠ .region i → s'.locks l = s.locks l) ∧
    ∀ j, j ≠ i → s'.lockedRegions j = s.lockedRegions j
  lists : Lists others s'

theorem Lists.hold (h : Lists others s) (hi : s.locks (.region i) = false) : Lists others (s.hold i) := by
  have hnone : s.lockedRegions i = false ∧ others i = false := by
    rw [← Bool.or_eq_false_iff, ← h.locks]
    exact hi
  constructor
  · intro j
    show Function.update s.locks _ true _ = (Function.update s.lockedRegions i true j || others j)
    by_cases hj : j = i
    · subst hj
      simp
    · rw [Function.update_of_ne (by simpa using hj), Function.update_of_ne hj, h.locks]
  · intro j (hflag : Function.update s.lockedRegions i true j = true)
    by_cases hj : j = i
    · rw [hj]
      exact hnone.2
    · rw [Function.update_of_ne hj] at hflag
      exact h.own j hflag

theorem AllOrNothing.holding {checks : Prop} (h : Lists others s) (hc : CanHold s i) (hk : checks) :
    AllOrNothing others s i checks .ok (s.holding i) := by
  cases hflag : s.lockedRegions i with
  | true =>
    have hlock : s.locks (.region i) = true := by rw [h.locks, hflag, Bool.true_or]
    rw [CallState.holding, if_pos hflag]
    exact ⟨fun hn => absurd rfl hn, fun _ => ⟨hlock, hflag, hk⟩, fun _ => ⟨fun _ _ => rfl, fun _ _ => rfl⟩, h⟩
  | false =>
    have hfree : s.locks (.region i) = false := hc.resolve_left (by rw [hflag]; simp)
    rw [CallState.holding, if_neg (by rw [hflag]; simp)]
    refine ⟨fun hn => absurd rfl hn, fun _ => ⟨Function.update_self .., Function.update_self .., hk⟩,
      fun _ => ⟨fun l hl => Function.update_of_ne hl .., fun j hj => Function.update_of_ne hj ..⟩, h.hold hfree⟩

/-- After a failed check the lock of the region has changed. -/
theorem undone_locks (h : Lists others s) (hc : CanHold s i) :
    (s.undone i).locks (.region i) ≠ s.locks (.region i) := by
  cases hflag : s.lockedRegions i with
  | true =>
    have hlock : s.locks (.region i) = true := by rw [h.locks, hflag, Bool.true_or]
    rw [CallState.undone, if_pos hflag, CallState.setLock_self, hlock]
    decide
  | false =>
    have hfree : s.locks (.region i) = false := hc.resolve_left (by rw [hflag]; simp)
    rw [CallState.undone, if_neg (by rw [hflag]; simp), hfree]
    show Function.update s.locks _ true _ ≠ false
    rw [Function.update_self]
    decide

/-- A helper is all or nothing unless it gets to the checks and they fail. -/
theorem allOrNothing_iff {formed checks : Prop} (h : Lists others s) :
    (∀ r s', LockOutcome s i formed checks r s' → AllOrNothing others s i checks r s') ↔
      (formed → CanHold s i → checks) := by
  have hfails {r : ApiResult} (hr : r ≠ .ok) : AllOrNothing others s i checks r s :=
    ⟨fun _ => ⟨fun _ => rfl, rfl⟩, fun h => absurd h hr, fun h => absurd h hr, h⟩
  constructor
  · intro hall hf hc
    by_contra hk
    exact undone_locks h hc (((hall _ _ (.failed hf hc hk)).nothing (by decide)).1 i)
  · intro hchecks r s' ho
    cases ho with
    | malformed => exact hfails (by decide)
    | refused => exact hfails (by decide)
    | failed hf hc hk => exact absurd (hchecks hf hc) hk
    | locked hf hc hk => exact .holding h hc hk

/-- **The helpers are all or nothing unless a check fails under the lock.** -/
theorem lock_helpers_iff {E : Empty → CallState N → Prop} (h : Lists others s) :
    (∀ ptr k, (addLockRegionIffValidMetadata ptr k).wp E
        (AllOrNothing others s (regionOf ptr) (ValidMetadata s.data ptr k)) (fun _ => False) s ↔
      (isPageAligned ptr = true ∧ (addrToRegionId ptr).toNat < 64 → CanHold s (regionOf ptr) →
        ValidMetadata s.data ptr k)) ∧
    ∀ ptr n, (addLockRegionIffFreeMetadataPages ptr n).wp E
        (AllOrNothing others s (regionOf ptr) (FreeMetadataPages s.data ptr n)) (fun _ => False) s ↔
      (isPageAligned ptr = true ∧ (addrToRegionId ptr).toNat < 64 ∧
          (addrToRegionPageId ptr + n - 1).toNat < 8192 → CanHold s (regionOf ptr) →
        FreeMetadataPages s.data ptr n) :=
  ⟨fun _ _ => wp_validMetadata.trans (allOrNothing_iff h),
    fun _ _ => wp_freeMetadataPages.trans (allOrNothing_iff h)⟩

set_option maxRecDepth 100000 in
/-- A free page of a metadata region. -/
theorem lock_helpers_free : ∃ es s, CarefulRun smallImage zeroBoot es s ∧
    (addLockRegionIffFreeMetadataPages firstEnclave 1).wp (fun a _ => a.elim)
      (AllOrNothing (fun _ => false) ⟨s.data, s.locks, fun _ => false⟩ 3
        (FreeMetadataPages s.data firstEnclave 1)) (fun _ => False) ⟨s.data, s.locks, fun _ => false⟩ := by
  obtain ⟨es, s, hr, hlocks, hpage, htag⟩ : ∃ es s, CarefulRun smallImage zeroBoot es s ∧
      (∀ i, s.locks (.region i) = false) ∧ MetadataPageAt s.data firstEnclave ∧
      pageTag s.data firstEnclave = MetadataPage.free.code :=
    CarefulRun.exists_of_labels setupLabels (by decide +kernel)
  refine ⟨es, s, hr, ((lock_helpers_iff ⟨hlocks, by simp⟩).2 firstEnclave 1).mpr fun hformed _ => ?_⟩
  refine ⟨hpage, hformed.2.2, fun i hi => ?_⟩
  obtain rfl : i = 0 := by simpa using hi
  simpa [pageTag] using htag

set_option maxRecDepth 100000 in
/-- Region 3 is no metadata region.  A call that has not locked it keeps its lock after the
    failure, and a call that has locked it loses the lock. -/
theorem lock_helpers_fails :
    (Lists (fun _ => false) bootState ∧ ∃ s',
      (addLockRegionIffValidMetadata firstEnclave .enclave).run bootState = .ret .invalidState s' ∧
      bootState.locks (.region 3) = false ∧ s'.locks (.region 3) = true) ∧
    Lists (fun _ => false) (bootState.hold 3) ∧ ∃ s',
      (addLockRegionIffValidMetadata firstEnclave .enclave).run (bootState.hold 3) = .ret .invalidState s' ∧
      s'.lockedRegions 3 = true ∧ s'.locks (.region 3) = false := by
  have hboot : Lists (fun _ => false) bootState := ⟨fun _ => rfl, by simp [bootState]⟩
  exact ⟨⟨hboot, _, rfl, rfl, rfl⟩, hboot.hold rfl, _, rfl, rfl, rfl⟩

end SecurityMonitor
