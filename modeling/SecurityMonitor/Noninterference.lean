/-
  Noninterference: what an enclave keeps in its memory influences nobody else.

  The monitor reads memory all the time: headers of enclaves, threads, mailboxes,
  page tables, the pages it measures.  None of what it reads is in the regions of
  an enclave that is initialized, so two configurations that differ there only
  cannot be told apart by any call, fault or timer.

  * `AgreeCall`, `Blind`: calls that do not look at memory;
  * `<call>_lockstep`: each call, on two states that agree off the regions, ends the
    same way with the same results in states that agree off them again;
  * `tryExec_agree`: the same for every label of the system;
  * `enclave_memory_secret`: the same for whole runs, in which software may store
    what it likes into the regions.

  What an enclave shows by its calls (its mails, the registers at a timer interrupt) is
  part of the labels, so it may depend on the secret only where the labels do.
-/
import SecurityMonitor.MemoryIsolation
import SecurityMonitor.Secrecy

namespace SecurityMonitor

open ByteMem Prog

variable {N : ℕ} {img : Image N} {d d' : Data N} {m m' : Mem} {a e t x : Word} {c : Fin N}
  {A : Set Word} {H : Set (Fin 64)} {ρ α : Type}

/-! ## Calls that do not read memory -/

/-- Two states of a call are the same, but for the memory at the addresses in `A`. -/
structure AgreeCall (A : Set Word) (s t : CallState N) : Prop where
  data : SameBut A s.data t.data
  locks : t.locks = s.locks
  lockedRegions : t.lockedRegions = s.lockedRegions

instance blind_getLocked : Blind (AgreeCall A) (getLocked : M N ρ _) :=
  ⟨fun h => ⟨⟨h.lockedRegions.symm, h⟩⟩⟩

instance blind_acquire (l : LockId N) : Blind (AgreeCall A) (platformLockAcquire l : M N ρ _) :=
  ⟨fun {s t} h => ⟨⟨by show (!s.locks l) = (!t.locks l); rw [h.locks],
    h.data, by show Function.update t.locks l true = Function.update s.locks l true; rw [h.locks],
    h.lockedRegions⟩⟩⟩

instance blind_release (l : LockId N) : Blind (AgreeCall A) (platformLockRelease l : M N ρ _) :=
  ⟨fun {s t} h => ⟨⟨rfl, h.data,
    by show Function.update t.locks l false = Function.update s.locks l false; rw [h.locks],
    h.lockedRegions⟩⟩⟩

instance blind_markLocked (i : Fin 64) : Blind (AgreeCall A) (markLocked i : M N ρ _) :=
  ⟨fun {s t} h => ⟨⟨rfl, h.data, h.locks,
    by show Function.update t.lockedRegions i true = Function.update s.lockedRegions i true
       rw [h.lockedRegions]⟩⟩⟩

instance blind_clearLocked : Blind (AgreeCall A) (clearLocked : M N ρ _) :=
  ⟨fun h => ⟨⟨rfl, h.data, h.locks, rfl⟩⟩⟩

instance blind_undoLock (b : Bool) (i : Fin 64) : Blind (AgreeCall A) (undoLock b i : M N ρ _) where
  lockstep {s t} h := by
    cases b with
    | false => exact ⟨⟨rfl, h⟩⟩
    | true => exact ⟨⟨rfl, ((blind_release (ρ := ρ) (.region i)).lockstep h).alike.2⟩⟩

/-- A statement that reads nothing of the memory. -/
theorem blind_getData {f : Data N → M N ρ α} (hf : ∀ d m, f { d with mem := m } = f d)
    [∀ d, Blind (AgreeCall A) (f d)] : Blind (AgreeCall A) (getData >>= f) where
  lockstep {s t} h := by
    have heq : f t.data = f s.data := by rw [h.data.rest]; exact hf _ _
    have hf := lockstep (p := f s.data) h
    refine ⟨?_⟩
    show Outcome.Alike _ ((f s.data).run s) ((f t.data).run t)
    rw [heq]
    exact hf.alike

instance blind_regionIndex (r : Word) : Blind (AgreeCall A) (regionIndex r : M N ρ _) := by
  unfold regionIndex; infer_instance

instance blind_lockRegion (r : Word) : Blind (AgreeCall A) (lockRegion r : M N ρ _) := by
  unfold lockRegion; infer_instance

instance blind_unlockRegion (r : Word) : Blind (AgreeCall A) (unlockRegion r : M N ρ _) := by
  unfold unlockRegion; infer_instance

instance blind_lockCore (c : Fin N) : Blind (AgreeCall A) (lockCore c : M N ρ _) := blind_acquire _

instance blind_unlockCore (c : Fin N) : Blind (AgreeCall A) (unlockCore c : M N ρ _) := blind_release _

instance blind_lockUntrustedState : Blind (AgreeCall A) (lockUntrustedState : M N ρ _) := blind_acquire _

instance blind_unlockUntrustedState : Blind (AgreeCall A) (unlockUntrustedState : M N ρ _) :=
  blind_release _

instance blind_unlockRegions : Blind (AgreeCall A) (unlockRegions : M N ρ _) := by
  unfold unlockRegions; infer_instance

instance blind_addLockRegion (r : Word) : Blind (AgreeCall A) (addLockRegion r : M N ρ _) := by
  unfold addLockRegion; infer_instance

instance blind_regionOwner (r : Word) : Blind (AgreeCall A) (regionOwner r : M N _ _) := by
  unfold regionOwner
  have h : Blind (AgreeCall A) (do
      let d ← getData
      unlockRegion r
      ret (d.regions (toRegion r)).owner : M N Word Empty) := blind_getData fun _ _ => rfl
  infer_instance

instance blind_regionOwnerLockFree (r : Word) : Blind (AgreeCall A) (regionOwnerLockFree r : M N _ _) := by
  unfold regionOwnerLockFree
  have h : Blind (AgreeCall A) (do
      let d ← getData
      ret (d.regions (toRegion r)).owner : M N Word Empty) := blind_getData fun _ _ => rfl
  infer_instance

instance blind_failUnlocking (b : Bool) (r : Word) :
    Blind (AgreeCall A) (failUnlocking b r : M N _ _) := by
  unfold failUnlocking; infer_instance

instance blind_regionState (r : Word) : Blind (AgreeCall A) (regionState r : M N _ _) := by
  unfold regionState
  have h : Blind (AgreeCall A) (do
      let d ← getData
      unlockRegion r
      ret (d.regions (toRegion r)).state.code : M N Word Empty) := blind_getData fun _ _ => rfl
  infer_instance

instance blind_regionCheckOwned (r : Word) : Blind (AgreeCall A) (regionCheckOwned c r) where
  lockstep h := by
    simp only [regionCheckOwned, ret_bind]
    exact .ite (fun _ => .ret h) fun _ => (blind_getData fun _ _ => rfl).lockstep h

instance blind_regionFlush (r : Word) : Blind (AgreeCall A) (regionFlush r : M N _ _) where
  lockstep h := by
    simp only [regionFlush, flushLlcRegion, ret_bind]
    refine .ite (fun _ => .ret h) fun _ => .seq h fun _ s t h => ?_
    exact .ite (fun _ => .ret h) fun _ => (blind_getData fun _ _ => rfl).lockstep h

instance blind_noEnclavesRunning (c₀ : Fin N) : ∀ cs : List (Fin N),
    Blind (AgreeCall A) (noEnclavesRunning c₀ cs : M N ρ _)
  | [] => by unfold noEnclavesRunning; infer_instance
  | c :: cs => by
    have ih := blind_noEnclavesRunning c₀ cs
    unfold noEnclavesRunning
    refine ⟨fun h => .seq h fun _ s t h => .ite (fun _ => ⟨rfl⟩) fun _ => ?_⟩
    exact (blind_getData fun _ _ => rfl).lockstep h

instance blind_regionFreeBegin (r : Word) : Blind (AgreeCall A) (regionFreeBegin r : M N _ _) where
  lockstep h := by
    simp only [regionFreeBegin, ret_bind]
    refine .ite (fun _ => .ret h) fun _ => .seq h fun _ s t h => ?_
    exact .ite (fun _ => .ret h) fun _ => (blind_getData fun _ _ => rfl).lockstep h

instance blind_regionFreeCheck (r : Word) : Blind (AgreeCall A) (regionFreeCheck r c) where
  lockstep h := by
    simp only [regionFreeCheck, ret_bind]
    refine .seq h fun _ s t h => .ite (fun _ => lockstep h) fun _ => ?_
    exact (blind_getData fun _ _ => rfl).lockstep h

/-! ## Calls that read metadata -/

/-- The data is `d`; nothing is said about the locks. -/
abbrev Holds (d : Data N) (s : CallState N) : Prop := At (fun _ => false) d s

theorem holds_self (s : CallState N) : Holds s.data s := ⟨rfl, nofun, fun _ _ => rfl⟩

section
variable {s t : CallState N} (h : AgreeCall A s t)
include h

theorem lockstep_getData {f g : Data N → M N ρ α} (hs : Holds d s)
    (hk : ∀ m, AgreeOff A d.mem m → Lockstep (AgreeCall A) (f d) (g { d with mem := m }) s t) :
    Lockstep (AgreeCall A) (getData >>= f) (getData >>= g) s t := by
  have heq : t.data = { d with mem := t.data.mem } := by rw [← hs.data]; exact h.data.rest
  have hk := hk _ (by rw [← hs.data]; exact h.data.mem)
  rw [← heq, ← hs.data] at hk
  exact ⟨hk.alike⟩

theorem lockstep_setData {f g : Unit → M N ρ α} {d₁ d₂ : Data N} (hd : SameBut A d₁ d₂)
    (hk : ∀ s t, Holds d₁ s → AgreeCall A s t → Lockstep (AgreeCall A) (f ()) (g ()) s t) :
    Lockstep (AgreeCall A) (setData d₁ >>= f) (setData d₂ >>= g) s t :=
  ⟨(hk { s with data := d₁ } { t with data := d₂ } (holds_self { s with data := d₁ })
    ⟨hd, h.locks, h.lockedRegions⟩).alike⟩

end

/-- The branch after a lock was obtained. -/
theorem lockstep_obtained {s t : CallState N} {p p' q q' : M N ρ α} (h : Lockstep (AgreeCall A) q q' s t) :
    Lockstep (AgreeCall A) (if (!true) = true then p else q) (if (!true) = true then p' else q') s t := ⟨h.alike⟩

/-- The branch after a lock was refused. -/
theorem lockstep_refused {s t : CallState N} {p p' q q' : M N ρ α} (h : Lockstep (AgreeCall A) p p' s t) :
    Lockstep (AgreeCall A) (if (!false) = true then p else q) (if (!false) = true then p' else q') s t := ⟨h.alike⟩

section
variable {s t : CallState N} (hd : Shut img d e H) (hs : Holds d s)
  (h : AgreeCall (bytesOfRegions H) s t)
include hd hs h

theorem addLockRegionIffValidMetadata_lockstep {p : Word} {k : MetadataPage} :
    Lockstep (AgreeCall (bytesOfRegions H)) (addLockRegionIffValidMetadata p k)
      (addLockRegionIffValidMetadata p k) s t := by
  simp only [addLockRegionIffValidMetadata, ret_bind]
  refine .ite (fun _ => .ret h) fun ha => .ite (fun _ => .ret h) fun hr => ?_
  simp only [Bool.not_eq_true', isValidRegionId_eq_false, not_not, Bool.not_eq_false] at ha hr
  refine (lockstep h).bind ?_
  rw [wp_getLocked]
  intro t h
  refine (lockstep h).bind (hs.addLockRegion (fun _ => trivial) (fun s hs _ _ t h =>
    lockstep_obtained ?_) fun s hs t h => lockstep_refused (.ret h))
  refine lockstep_getData h hs fun m hm => .ite (fun _ => lockstep h) fun htype =>
    .ite (fun _ => lockstep h) fun hstate => ?_
  -- the page map of a metadata region can be seen
  have hp : MetadataPageAt d p := ⟨ha, hr, not_not.mp htype, not_not.mp hstate⟩
  have hinfo : pageInfo m (addrToRegionId p) (addrToRegionPageId p) =
      pageInfo d.mem (addrToRegionId p) (addrToRegionPageId p) :=
    (hm _ (hd.visible_region hp (region_pageInfoAddr hp.inRam).2)).symm
  rw [hinfo]
  exact lockstep h

/-- The tags that are read are those of pages of a metadata region. -/
theorem addLockRegionIffFreeMetadataPages_lockstep {p n : Word} (hn : n.toNat < 2 ^ 63) :
    Lockstep (AgreeCall (bytesOfRegions H)) (addLockRegionIffFreeMetadataPages p n)
      (addLockRegionIffFreeMetadataPages p n) s t := by
  simp only [addLockRegionIffFreeMetadataPages, ret_bind]
  refine .ite (fun _ => .ret h) fun ha => .ite (fun _ => .ret h) fun hr =>
    .ite (fun _ => .ret h) fun hfit => ?_
  simp only [Bool.not_eq_true', isValidRegionId_eq_false, isValidPageIdInRegion_eq_false, not_not,
    Bool.not_eq_false] at ha hr hfit
  refine (lockstep h).bind ?_
  rw [wp_getLocked]
  intro t h
  refine (lockstep h).bind (hs.addLockRegion (fun _ => trivial) (fun s hs _ _ t h =>
    lockstep_obtained ?_) fun s hs t h => lockstep_refused (.ret h))
  refine lockstep_getData h hs fun m hm => .ite (fun _ => lockstep h) fun htype =>
    .ite (fun _ => lockstep h) fun hstate => ?_
  have hp : MetadataPageAt d p := ⟨ha, hr, not_not.mp htype, not_not.mp hstate⟩
  have hinfo : ∀ i < n.toNat, pageInfo m (addrToRegionId p) (addrToRegionPageId p + BitVec.ofNat 64 i) =
      pageInfo d.mem (addrToRegionId p) (addrToRegionPageId p + BitVec.ofNat 64 i) := fun i hi => by
    have hpage := pageId_lt p
    have hlt : (addrToRegionPageId p + BitVec.ofNat 64 i).toNat < regionSize := by
      rw [BitVec.toNat_sub, BitVec.toNat_add, show (1 : Word).toNat = 1 from rfl] at hfit
      rw [BitVec.toNat_add, BitVec.toNat_ofNat, show regionSize = 0x2000000 from rfl]
      omega
    have hmem := mem_range_off (a := regionIdToAddr (addrToRegionId p)) hlt (by decide)
    rw [off, BitVec.ofNat_toNat, BitVec.setWidth_eq] at hmem
    exact (hm _ (hd.visible_region hp ((mem_region_iff hr).mp hmem).2)).symm
  refine (Lockstep.forEach h fun i hi s t h => ?_).bind
    (wp_of_forall (fun _ _ _ h => .ret h) (fun _ _ => trivial) fun _ => trivial)
  rw [hinfo i (List.mem_range.mp hi)]
  exact lockstep h

/-! ### Regions -/

omit hd in
theorem regionMetadataCreate_lockstep {r : Word} : Lockstep (AgreeCall (bytesOfRegions H))
    (regionMetadataCreate r) (regionMetadataCreate r) s t := by
  simp only [regionMetadataCreate, ret_bind]
  refine .ite (fun _ => .ret h) fun _ => (lockstep h).bind (hs.lockRegion (fun _ => trivial)
    (fun s hs _ _ t h => lockstep_obtained ?_) fun s hs t h => lockstep_refused (.ret h))
  refine lockstep_getData h hs fun m hm => .ite (fun _ => lockstep h) fun _ => ?_
  exact lockstep_setData h (createMetadataRegion_sameBut hm) fun s t _ h => lockstep h

omit hd in
theorem regionCachePartitioning_lockstep {part : Fin 64 → Byte} : Lockstep (AgreeCall (bytesOfRegions H))
    (regionCachePartitioning c part) (regionCachePartitioning c part) s t := by
  simp only [regionCachePartitioning, ret_bind]
  refine (lockstep h).bind (hs.acquire (fun s hs _ t h => lockstep_obtained ?_) fun s hs t h =>
    lockstep_refused (.ret h))
  refine .ite (fun _ => lockstep h) fun _ => ?_
  refine .ite (fun _ => lockstep h) fun _ => ?_
  refine lockstep_getData h hs fun m hm => ?_
  refine .ite (fun _ => lockstep h) fun _ => ?_
  refine .seq h fun idle s t h => .ite (fun _ => ?_) fun _ => lockstep h
  exact lockstep_setData h (setPartitions_sameBut hm) fun s t _ h => lockstep h

omit hd in
theorem regionFreeEnd_lockstep {r : Word} : Lockstep (AgreeCall (bytesOfRegions H))
    (regionFreeEnd r) (regionFreeEnd r) s t := by
  simp only [regionFreeEnd, flushLlcRegion]
  refine (lockstep h).bind ?_
  simp only [wp_bind, wp_pure, wp_regionIndex]
  refine ⟨fun _ t h => ?_, fun _ => trivial⟩
  exact lockstep_getData h hs fun m hm => lockstep_setData h ⟨rfl, hm⟩ fun s t _ h => lockstep h

theorem regionUpdate_lockstep : Lockstep (AgreeCall (bytesOfRegions H))
    (regionUpdate c) (regionUpdate c) s t := by
  simp only [regionUpdate, ret_bind]
  refine (lockstep h).bind (hs.acquire (fun s hs _ t h => lockstep_obtained ?_) fun s hs t h =>
    lockstep_refused (.ret h))
  refine (lockstep h).bind (hs.acquire (fun s hs _ t h => lockstep_obtained ?_) fun s hs t h =>
    lockstep_refused (lockstep h))
  refine lockstep_getData h hs fun m hm => lockstep_setData h ?_ fun s t _ h => lockstep h
  exact platformUpdateMemoryProtection_sameBut hm.data fun hu =>
    hd.visible_header (hd.heap.running c hu).1.page

theorem regionBlock_lockstep {r : Word} : Lockstep (AgreeCall (bytesOfRegions H))
    (regionBlock c r) (regionBlock c r) s t := by
  simp only [regionBlock, ret_bind]
  refine .ite (fun _ => .ret h) fun _ => lockstep_getData h hs fun m hm => ?_
  refine (lockstep h).bind (hs.addLockRegion (fun _ => trivial) (fun s hs _ _ t h =>
    lockstep_obtained ?_) fun s hs t h => lockstep_refused (.ret h))
  refine .ite (fun _ => lockstep h) fun _ => .ite (fun _ => lockstep h) fun _ =>
    .ite (fun _ => lockstep h) fun _ => ?_
  refine (lockstep h).bind (hs.acquire (fun s hs _ t h => lockstep_obtained ?_) fun s hs t h =>
    lockstep_refused (lockstep h))
  refine (lockstep h).bind (hs.acquire (fun s hs _ t h => lockstep_obtained ?_) fun s hs t h =>
    lockstep_refused (lockstep h))
  refine .ite (fun _ => lockstep h) fun _ => ?_
  have hend : ∀ s t, AgreeCall (bytesOfRegions H) s t → Lockstep (AgreeCall (bytesOfRegions H)) (do
      setData (blockRegion d c (toRegion r))
      unlockCore c
      unlockUntrustedState
      unlockRegions
      ret .ok : M N ApiResult Empty) (do
      setData (blockRegion { d with mem := m } c (toRegion r))
      unlockCore c
      unlockUntrustedState
      unlockRegions
      ret .ok) s t := fun s t h =>
    lockstep_setData h (blockRegion_sameBut hm.data fun hu =>
      hd.visible_header (hd.heap.running c hu).1.page) fun s t _ h => lockstep h
  refine .ite (fun _ => ?_) fun _ => hend s t h
  refine ((addLockRegionIffValidMetadata_lockstep hd hs h).call).bind ?_
  exact wp_of_forall (fun _ s t h => .ite (fun _ => lockstep h) fun _ => hend s t h)
    (fun _ _ => trivial) fun _ => trivial

theorem regionAssign_lockstep {r o : Word} : Lockstep (AgreeCall (bytesOfRegions H))
    (regionAssign c r o) (regionAssign c r o) s t := by
  simp only [regionAssign, ret_bind]
  refine .ite (fun _ => .ret h) fun _ => ?_
  refine (lockstep h).bind (hs.addLockRegion (fun _ => trivial) (fun s hs _ _ t h =>
    lockstep_obtained ?_) fun s hs t h => lockstep_refused (.ret h))
  refine lockstep_getData h hs fun m hm => .ite (fun _ => lockstep h) fun _ => ?_
  refine (lockstep h).bind (hs.acquire (fun s hs _ t h => lockstep_obtained ?_) fun s hs t h =>
    lockstep_refused (lockstep h))
  refine (lockstep h).bind (hs.acquire (fun s hs _ t h => lockstep_obtained ?_) fun s hs t h =>
    lockstep_refused (lockstep h))
  have hend : ∀ s t, AgreeCall (bytesOfRegions H) s t → Lockstep (AgreeCall (bytesOfRegions H)) (do
      setData (assignRegion d c (toRegion r) o)
      unlockCore c
      unlockUntrustedState
      unlockRegions
      ret .ok : M N ApiResult Empty) (do
      setData (assignRegion { d with mem := m } c (toRegion r) o)
      unlockCore c
      unlockUntrustedState
      unlockRegions
      ret .ok) s t := fun s t h =>
    lockstep_setData h (assignRegion_sameBut hm.data fun hu =>
      hd.visible_header (hd.heap.running c hu).1.page) fun s t _ h => lockstep h
  refine .ite (fun _ => ?_) fun _ => hend s t h
  refine ((addLockRegionIffValidMetadata_lockstep hd hs h).call).bind ?_
  exact wp_of_forall (fun _ s t h => .ite (fun _ => lockstep h) fun _ => hend s t h)
    (fun _ _ => trivial) fun _ => trivial

/-! ### Building an enclave -/

theorem enclaveCreate_lockstep {f b k n : Word} {debug : Bool} : Lockstep (AgreeCall (bytesOfRegions H))
    (enclaveCreate f b k n debug) (enclaveCreate f b k n debug) s t := by
  have hn : (enclaveMetadataPages n).toNat < 2 ^ 63 := by
    rw [enclaveMetadataPages, BitVec.toNat_udiv, show (BitVec.ofNat 64 pageSize).toNat = 4096 by decide]
    omega
  simp only [enclaveCreate, ret_bind]
  refine (addLockRegionIffFreeMetadataPages_lockstep hd hs h hn).call.bind ?_
  rw [wp_call]
  refine hs.addLockRegionIffFreeMetadataPages (fun s hs hf _ t h => ?_) fun s r hs hr t h => ?_
  · refine .ite (fun hn => absurd rfl hn) fun _ => lockstep_getData h hs fun m hm => ?_
    exact lockstep_setData h (sameBut_mem (hm.createEnclave (hd.visible_header hf.toMetadataPageAt)))
      fun s t _ h => lockstep h
  · exact .ite (fun _ => .ret h) fun hn => absurd hr hn

/-- A call that goes on if a pointer to metadata is valid. -/
theorem lockstep_valid {f : Word} {k : MetadataPage} {g : ApiResult → ρ} {p q : M N ρ α}
    (hk : ∀ s t, Holds d s → ValidMetadata d f k → AgreeCall (bytesOfRegions H) s t →
      Lockstep (AgreeCall (bytesOfRegions H)) p q s t) :
    Lockstep (AgreeCall (bytesOfRegions H))
      (call (addLockRegionIffValidMetadata f k) >>= fun r => if r ≠ .ok then ret (g r) else p)
      (call (addLockRegionIffValidMetadata f k) >>= fun r => if r ≠ .ok then ret (g r) else q) s t := by
  refine (addLockRegionIffValidMetadata_lockstep hd hs h).call.bind ?_
  rw [wp_call]
  refine hs.addLockRegionIffValidMetadata (fun s hs hv _ t h => ?_) fun s r _ hr t h => ?_
  · exact .ite (fun hn => absurd rfl hn) fun _ => hk s t hs hv h
  · exact .ite (fun _ => .ret h) fun hn => absurd hr hn

theorem enclaveInit_lockstep {f : Word} : Lockstep (AgreeCall (bytesOfRegions H))
    (enclaveInit img f) (enclaveInit img f) s t := by
  simp only [enclaveInit, addLockRegionIffValidEnclave, ret_bind]
  refine lockstep_valid hd hs h fun s t hs hv h => lockstep_getData h hs fun m hm => ?_
  have hf := hd.visible_header hv.toMetadataPageAt
  rw [hm.enclaveOf hf]
  refine .ite (fun _ => lockstep h) fun _ => ?_
  exact lockstep_setData h (sameBut_mem (hm.initEnclave hf)) fun s t _ h => lockstep h

theorem threadLoad_lockstep {f th pc sp l : Word} : Lockstep (AgreeCall (bytesOfRegions H))
    (threadLoad f th pc sp l) (threadLoad f th pc sp l) s t := by
  simp only [threadLoad, addLockRegionIffValidEnclave, ret_bind]
  refine lockstep_valid hd hs h fun s t hs hv h => lockstep_getData h hs fun m hm => ?_
  have hf := hd.visible_header hv.toMetadataPageAt
  rw [hm.enclaveOf hf]
  refine .ite (fun _ => lockstep h) fun _ => ?_
  refine (addLockRegionIffFreeMetadataPages_lockstep hd hs h (by decide)).call.bind ?_
  refine wp_of_forall (fun r s t h => .ite (fun _ => lockstep h) fun _ => ?_) (fun _ _ => trivial)
    fun _ => trivial
  exact lockstep_setData h (sameBut_mem (hm.loadThread hf)) fun s t _ h => lockstep h

theorem enclaveLoadHandler_lockstep {f p : Word} : Lockstep (AgreeCall (bytesOfRegions H))
    (enclaveLoadHandler img f p) (enclaveLoadHandler img f p) s t := by
  simp only [enclaveLoadHandler, addLockRegionIffValidEnclave, ret_bind]
  refine lockstep_valid hd hs h fun s t hs hv h => lockstep_getData h hs fun m hm => ?_
  have hf := hd.visible_header hv.toMetadataPageAt
  rw [hm.enclaveOf hf]
  refine .ite (fun _ => lockstep h) fun _ => .ite (fun _ => lockstep h) fun _ => ?_
  refine .ite (fun _ => lockstep h) fun _ => .ite (fun _ => lockstep h) fun _ => ?_
  refine .seq h fun _ s t h => .ite (fun _ => lockstep h) fun _ => ?_
  refine .seq h fun _ s t h => .ite (fun _ => lockstep h) fun _ => ?_
  exact lockstep_setData h (sameBut_mem (hm.loadHandler hf)) fun s t _ h => lockstep h

/-! ### Page tables -/

end

instance blind_ownsTable (f base : Word) : Blind (AgreeCall A) (ownsTable f base : M N ρ _) := by
  unfold ownsTable; infer_instance

section
variable {s t : CallState N} (hd : Shut img d e H)
include hd

/-- The tables that a walk reads belong to an enclave that is not initialized. -/
theorem loadPageTableEntryFrom_lockstep {f p v acl : Word} {level : ℕ}
    (hf : ValidMetadata d f .enclave) (hi : (d.enclave f).initState ≠ enclaveStateInitialized) :
    ∀ (i : ℕ) (base : Word) {s t : CallState N}, Holds d s → AgreeCall (bytesOfRegions H) s t →
      PtePath d f v i base → Lockstep (AgreeCall (bytesOfRegions H))
        (loadPageTableEntryFrom f p v level acl i base) (loadPageTableEntryFrom f p v level acl i base)
        s t
  | i, base, s, t, hs, h, hp => by
    rw [loadPageTableEntryFrom]
    simp only [ret_bind]
    refine lockstep_getData h hs fun m hm => .ite (fun _ => ?_) fun _ => ?_
    · exact lockstep_setData h (sameBut_mem hm.store64) fun s t _ h => lockstep h
    have hslot : range (pteAddr base v i) 8 ⊆ (bytesOfRegions H)ᶜ := fun x hx =>
      hd.visible_build hi (hp.slot_owned hx)
    rw [hm.load64 hslot]
    refine .ite (fun _ => .ret h) fun hnode => (lockstep h).bind ?_
    refine hs.ownsTable hf.aligned (pteTable_lt _) (fun _ => trivial) (fun s hs ho t h =>
      lockstep_obtained ?_) fun s hs t h => lockstep_refused (.ret h)
    cases i with
    | zero => exact .ret h
    | succ i => exact loadPageTableEntryFrom_lockstep hf hi i _ hs h (.node hp hnode ho)

theorem loadPageTableEntry_lockstep {f p v level acl : Word} (hs : Holds d s)
    (h : AgreeCall (bytesOfRegions H) s t) (hf : ValidMetadata d f .enclave)
    (hi : (d.enclave f).initState ≠ enclaveStateInitialized) : Lockstep (AgreeCall (bytesOfRegions H))
      (loadPageTableEntry f p v level acl) (loadPageTableEntry f p v level acl) s t := by
  simp only [loadPageTableEntry, ret_bind]
  refine lockstep_getData h hs fun m hm => .ite (fun _ => ?_) fun _ => ?_
  · exact lockstep_setData h (sameBut_mem hm.store64) fun s t _ h => lockstep h
  rw [hm.enclaveOf (hd.visible_header hf.toMetadataPageAt)]
  refine (lockstep h).bind (hs.ownsTable hf.aligned (rootTable_lt _) (fun _ => trivial)
    (fun s hs ho t h => lockstep_obtained ?_) fun s hs t h => lockstep_refused (.ret h))
  exact loadPageTableEntryFrom_lockstep hd hf hi 2 _ hs h (.root ho)

variable (hs : Holds d s) (h : AgreeCall (bytesOfRegions H) s t)
include hs h

theorem enclaveLoadPageTable_lockstep {f p v l acl : Word} : Lockstep (AgreeCall (bytesOfRegions H))
    (enclaveLoadPageTable f p v l acl) (enclaveLoadPageTable f p v l acl) s t := by
  simp only [enclaveLoadPageTable, addLockRegionIffValidEnclave, ret_bind]
  refine lockstep_valid hd hs h fun s t hs hv h => lockstep_getData h hs fun m hm => ?_
  have hf := hd.visible_header hv.toMetadataPageAt
  rw [hm.enclaveOf hf]
  refine .ite (fun _ => lockstep h) fun hst => ?_
  -- An enclave that is still being built is not the one at `e`.
  have hi : (d.enclave f).initState ≠ enclaveStateInitialized := fun hi =>
    hst (by rw [hi]; decide)
  refine .ite (fun _ => lockstep h) fun _ => .ite (fun _ => lockstep h) fun _ => ?_
  refine (lockstep h).bind ?_
  rw [wp_call]
  refine hs.regionOwner fun s v' hs _ t h => .ite (fun _ => lockstep h) fun _ => ?_
  refine .ite (fun _ => lockstep h) fun _ => .ite (fun _ => lockstep h) fun _ => ?_
  refine .ite (fun _ => lockstep h) fun _ => .ite (fun _ => lockstep h) fun _ => ?_
  refine (lockstep h).bind (hs.addLockRegion (fun _ => trivial) (fun s hs _ _ t h =>
    lockstep_obtained ?_) fun s hs t h => lockstep_refused (lockstep h))
  refine (loadPageTableEntry_lockstep hd hs h hv hi).call.bind (wp_of_forall (fun r s t h =>
    .ite (fun _ => lockstep h) fun _ => ?_) (fun _ _ => trivial) fun _ => trivial)
  refine lockstep_getData h (holds_self s) fun m hm => ?_
  exact lockstep_setData h (sameBut_mem (hm.finishLoadPageTable hf)) fun s t _ h => lockstep h

theorem enclaveLoadPage_lockstep {f p v o acl : Word} : Lockstep (AgreeCall (bytesOfRegions H))
    (enclaveLoadPage f p v o acl) (enclaveLoadPage f p v o acl) s t := by
  simp only [enclaveLoadPage, addLockRegionIffValidEnclave, ret_bind]
  refine lockstep_valid hd hs h fun s t hs hv h => lockstep_getData h hs fun m hm => ?_
  have hf := hd.visible_header hv.toMetadataPageAt
  rw [hm.enclaveOf hf]
  refine .ite (fun _ => lockstep h) fun hst => ?_
  have hi : (d.enclave f).initState ≠ enclaveStateInitialized := fun hi =>
    hst (by rw [hi]; decide)
  refine .ite (fun _ => lockstep h) fun _ => .ite (fun _ => lockstep h) fun _ => ?_
  refine (lockstep h).bind ?_
  rw [wp_call]
  refine hs.regionOwner fun s _ hs _ t h => .ite (fun _ => lockstep h) fun _ => ?_
  refine .ite (fun _ => lockstep h) fun _ => .ite (fun _ => lockstep h) fun halign => ?_
  refine (lockstep h).bind ?_
  rw [wp_call]
  refine hs.regionOwner fun s w hs hw t h => .ite (fun _ => lockstep h) fun hu => ?_
  refine .ite (fun _ => .ret h) fun _ => ?_
  refine (lockstep h).bind (hs.addLockRegion (fun _ => trivial) (fun s hs _ _ t h =>
    lockstep_obtained ?_) fun s hs t h => lockstep_refused (lockstep h))
  refine (lockstep h).bind (hs.addLockRegion (fun _ => trivial) (fun s hs hr _ t h =>
    lockstep_obtained ?_) fun s hs t h => lockstep_refused (lockstep h))
  -- the OS page belongs to untrusted software
  have hos : OwnedBy d ownerUntrusted o := by
    rcases hw with ⟨hr, hw⟩ | ⟨hn, _⟩ | hw
    · exact ⟨hr, hw.symm.trans (not_not.mp hu)⟩
    · exact absurd hr hn
    · rw [hw] at hu; exact absurd hu (by decide)
  have hne : ownerUntrusted ≠ e := fun heq => absurd (heq ▸ hd.enclave.aligned) (by decide)
  have ho : range o pageSize ⊆ (bytesOfRegions H)ᶜ := fun x hx =>
    hd.visible_of_owned (hos.of_mem (not_not.mp halign) hx) hne
  refine (loadPageTableEntry_lockstep hd hs h hv hi).call.bind (wp_of_forall (fun r s t h =>
    .ite (fun _ => lockstep h) fun _ => ?_) (fun _ _ => trivial) fun _ => trivial)
  refine lockstep_getData h (holds_self s) fun m hm => ?_
  exact lockstep_setData h (sameBut_mem (hm.finishLoadPage hf ho)) fun s t _ h => lockstep h

/-! ### Running an enclave -/

theorem enclaveEnter_lockstep {f th : Word} {ctx : TrapContext} : Lockstep (AgreeCall (bytesOfRegions H))
    (enclaveEnter img c f th ctx) (enclaveEnter img c f th ctx) s t := by
  simp only [enclaveEnter, addLockRegionIffValidEnclave, addLockRegionIffValidThread, ret_bind]
  refine lockstep_valid hd hs h fun s t hs hv h => lockstep_getData h hs fun m hm => ?_
  have hf := hd.visible_header hv.toMetadataPageAt
  rw [hm.enclaveOf hf]
  refine .ite (fun _ => lockstep h) fun _ => lockstep_valid hd hs h fun s t hs hth h => ?_
  have ht := hd.visible_thread hth.toMetadataPageAt
  have hsep := (ThreadSep.of_slots (hd.heap.slot f _ hv (by decide)) (hd.heap.slot th _ hth (by decide))
    (EnclaveOrDead.ne_of_thread (.inl hv) hth)).header
  rw [hm.threadOf ht]
  refine .ite (fun _ => lockstep h) fun _ => .ite (fun _ => lockstep h) fun _ => ?_
  refine .seq h fun _ s t h => .ite (fun _ => lockstep h) fun _ => ?_
  exact lockstep_setData h (enterEnclave_sameBut hm hsep hf ht) fun s t _ h => lockstep h

omit hd in
theorem performEnclaveExit_lockstep {aex : Bool} (ht : range (d.cores c).thread 912 ⊆ (bytesOfRegions H)ᶜ)
    (hsp : range (d.thread (d.cores c).thread).untrustedFaultSp integerContextSize ⊆ (bytesOfRegions H)ᶜ) :
    Lockstep (AgreeCall (bytesOfRegions H)) (performEnclaveExit c aex) (performEnclaveExit c aex) s t := by
  simp only [performEnclaveExit, ret_bind]
  refine (lockstep h).bind (hs.clearLocked fun s hs t h => ?_)
  refine (lockstep h).bind (hs.acquire (fun s hs _ t h => lockstep_obtained ?_) fun s hs t h =>
    lockstep_refused (.ret h))
  refine lockstep_getData h hs fun m hm => .seq h fun _ s t h => .ite (fun _ => lockstep h) fun _ => ?_
  exact lockstep_setData h (exitEnclave_sameBut hm ht hsp) fun s t _ h => lockstep h

theorem enclaveExit_lockstep (hu : (d.cores c).owner ≠ ownerUntrusted) :
    Lockstep (AgreeCall (bytesOfRegions H)) (enclaveExit c) (enclaveExit c) s t :=
  performEnclaveExit_lockstep hs h (hd.visible_thread (hd.heap.running c hu).2.page)
    (hd.visible_stack hu)

theorem enclaveAex_lockstep {regs : Fin 32 → Word} (hu : (d.cores c).owner ≠ ownerUntrusted) :
    Lockstep (AgreeCall (bytesOfRegions H)) (enclaveAex c regs) (enclaveAex c regs) s t := by
  have ht := hd.visible_thread (hd.heap.running c hu).2.page
  simp only [enclaveAex]
  refine lockstep_getData h hs fun m hm => .seq h fun _ s t h => .ite (fun _ => ⟨rfl⟩) fun _ => ?_
  refine lockstep_setData h (sameBut_mem hm.storeWords) fun s t hs h => ?_
  refine (lockstep h).bind (hs.unlockRegions fun s hs t h => ?_)
  refine (performEnclaveExit_lockstep hs h ht ?_).call.bind (wp_of_forall (fun _ s t h => lockstep h)
    (fun _ _ => trivial) fun _ => trivial)
  rw [Data.thread, threadMetadata_setAexState]
  exact hd.visible_stack hu

theorem enclaveDelete_lockstep {f : Word} : Lockstep (AgreeCall (bytesOfRegions H))
    (enclaveDelete c f) (enclaveDelete c f) s t := by
  simp only [enclaveDelete, addLockRegionIffValidEnclave, ret_bind]
  refine lockstep_valid hd hs h fun s t hs hv h => lockstep_getData h hs fun m hm => ?_
  have hf := hd.visible_header hv.toMetadataPageAt
  rw [hm.enclaveOf hf]
  refine .ite (fun _ => lockstep h) fun _ => .seq h fun _ s t h => ?_
  refine .seq h fun _ s t h => .ite (fun _ => lockstep h) fun _ => ?_
  refine .seq h fun _ s t h => .ite (fun _ => lockstep h) fun _ => ?_
  exact lockstep_setData h (deleteEnclave_sameBut hm hv.toMetadataPageAt hf) fun s t _ h => lockstep h

theorem threadDelete_lockstep {th : Word} : Lockstep (AgreeCall (bytesOfRegions H))
    (threadDelete th) (threadDelete th) s t := by
  simp only [threadDelete, addLockRegionIffValidThread, ret_bind]
  refine lockstep_valid hd hs h fun s t hs hth h => lockstep_getData h hs fun m hm => ?_
  have ht := hd.visible_thread hth.toMetadataPageAt
  have hf := hd.visible_header (hd.heap.thread th hth).1.page
  rw [hm.threadOf ht]
  refine .seq h fun _ s t h => .ite (fun _ => lockstep h) fun _ => .ite (fun _ => lockstep h) fun _ => ?_
  exact lockstep_setData h (sameBut_mem (hm.deleteThread ht hf)) fun s t _ h => lockstep h

/-! ### Mail and keys -/

theorem mailAccept_lockstep {id sender : Word} : Lockstep (AgreeCall (bytesOfRegions H))
    (mailAccept c id sender) (mailAccept c id sender) s t := by
  simp only [mailAccept, ret_bind]
  refine lockstep_getData h hs fun m hm => .ite (fun _ => ?_) fun hu => ?_
  · refine .ite (fun _ => .ret h) fun _ => .seq h fun _ s t h => .ite (fun _ => .ret h) fun _ => ?_
    exact lockstep_setData h (acceptMail_sameBut hm) fun s t _ h => lockstep h
  · refine .seq h fun _ s t h => .ite (fun _ => .ret h) fun _ => ?_
    rw [hm.enclaveOf (hd.visible_header (hd.heap.running c hu).1.page)]
    refine .ite (fun _ => .ret h) fun _ => ?_
    exact lockstep_setData h (acceptMail_sameBut hm) fun s t _ h => lockstep h

theorem mailReceive_lockstep {id out outM : Word} : Lockstep (AgreeCall (bytesOfRegions H))
    (mailReceive c id out outM) (mailReceive c id out outM) s t := by
  simp only [mailReceive, ret_bind]
  refine lockstep_getData h hs fun m hm => ?_
  have hlocked : ∀ s t, AgreeCall (bytesOfRegions H) s t → BoxVisible (bytesOfRegions H) (d.cores c).owner id →
      Lockstep (AgreeCall (bytesOfRegions H)) (mailReceiveLocked d (d.cores c).owner id out outM)
        (mailReceiveLocked { d with mem := m } (d.cores c).owner id out outM) s t := fun s t h hb => by
    simp only [mailReceiveLocked, ret_bind, mailboxOf_sameBut hm hb]
    refine .ite (fun _ => lockstep h) fun _ => ?_
    exact lockstep_setData h (receiveMail_sameBut hm) fun s t _ h => lockstep h
  refine .ite (fun hu => ?_) fun hu => ?_
  · refine .ite (fun _ => .ret h) fun _ => .seq h fun _ s t h => .ite (fun _ => .ret h) fun _ => ?_
    exact hlocked s t h fun hn => absurd hu hn
  · have hcaller := (hd.heap.running c hu).1
    refine .seq h fun _ s t h => .ite (fun _ => .ret h) fun _ => ?_
    rw [hm.enclaveOf (hd.visible_header hcaller.page)]
    refine .ite (fun _ => lockstep h) fun hid => hlocked s t h fun _ => ?_
    exact hd.visible_box hcaller (BitVec.not_le.mp hid)

theorem mailSend_lockstep {x id : Word} {msg : Bytes 256} : Lockstep (AgreeCall (bytesOfRegions H))
    (mailSend c x id msg) (mailSend c x id msg) s t := by
  simp only [mailSend, addLockRegionIffValidEnclave, ret_bind]
  refine lockstep_getData h hs fun m hm => ?_
  have hcaller (hu : (d.cores c).owner ≠ ownerUntrusted) :
      range (d.cores c).owner 592 ⊆ (bytesOfRegions H)ᶜ := hd.visible_header (hd.heap.running c hu).1.page
  have hlocked : ∀ b s t, AgreeCall (bytesOfRegions H) s t → BoxVisible (bytesOfRegions H) x id →
      Lockstep (AgreeCall (bytesOfRegions H)) (mailSendLocked d b (d.cores c).owner x id msg)
        (mailSendLocked { d with mem := m } b (d.cores c).owner x id msg) s t := fun b s t h hb => by
    simp only [mailSendLocked, ret_bind, mailboxOf_sameBut hm hb]
    refine .ite (fun _ => lockstep h) fun _ => ?_
    exact lockstep_setData h (sendMail_sameBut hm hcaller) fun s t _ h => lockstep h
  have hfrom : ∀ s t, AgreeCall (bytesOfRegions H) s t → BoxVisible (bytesOfRegions H) x id →
      Lockstep (AgreeCall (bytesOfRegions H)) (mailSendFrom d (d.cores c).owner x id msg)
        (mailSendFrom { d with mem := m } (d.cores c).owner x id msg) s t := fun s t h hb => by
    simp only [mailSendFrom, ret_bind]
    refine .ite (fun _ => .ite (fun _ => ?_) fun _ => ?_) fun _ => hlocked _ s t h hb
    · exact .seq h fun _ s t h => .ite (fun _ => lockstep h) fun _ => hlocked _ s t h hb
    · exact .seq h fun _ s t h => .ite (fun _ => lockstep h) fun _ => hlocked _ s t h hb
  refine .ite (fun hu => ?_) fun hu => ?_
  · refine .ite (fun _ => .ret h) fun _ => .seq h fun _ s t h => .ite (fun _ => .ret h) fun _ => ?_
    exact hfrom s t h fun hn => absurd hu hn
  · refine lockstep_valid hd hs h fun s t hs hv h => ?_
    rw [hm.enclaveOf (hd.visible_header hv.toMetadataPageAt)]
    refine .ite (fun _ => lockstep h) fun hid => .ite (fun _ => lockstep h) fun _ => ?_
    exact hfrom s t h fun _ => hd.visible_box (.inl hv) (BitVec.not_le.mp hid)

theorem enclaveGetKeys_lockstep {a₁ a₂ a₃ a₄ : Word} : Lockstep (AgreeCall (bytesOfRegions H))
    (enclaveGetKeys c a₁ a₂ a₃ a₄) (enclaveGetKeys c a₁ a₂ a₃ a₄) s t := by
  simp only [enclaveGetKeys, addLockRegionIffValidEnclave, ret_bind]
  refine lockstep_getData h hs fun m hm => lockstep_valid hd hs h fun s t hs hv h => ?_
  rw [hm.enclaveOf (hd.visible_header hv.toMetadataPageAt)]
  exact lockstep h

theorem enclaveGetAttest_lockstep {f a₁ a₂ a₃ : Word} : Lockstep (AgreeCall (bytesOfRegions H))
    (enclaveGetAttest f a₁ a₂ a₃) (enclaveGetAttest f a₁ a₂ a₃) s t := by
  simp only [enclaveGetAttest, addLockRegionIffValidEnclave, ret_bind]
  refine lockstep_valid hd hs h fun s t hs hv h => lockstep_getData h hs fun m hm => ?_
  rw [hm.enclaveOf (hd.visible_header hv.toMetadataPageAt)]
  exact lockstep h

/-! ## The dispatch -/

omit hd hs h in
theorem returnResult_lockstep {p : M N ApiResult Empty} (h : Lockstep (AgreeCall A) p p s t) :
    Lockstep (AgreeCall A) (returnResult p) (returnResult p) s t :=
  h.call.bind (wp_of_forall (fun _ _ _ h => lockstep h) (fun _ _ => trivial) fun _ => trivial)

omit hd hs h in
theorem returnOutputs_lockstep {p : M N (ApiResult × Outputs) Empty}
    (h : Lockstep (AgreeCall A) p p s t) :
    Lockstep (AgreeCall A) (returnOutputs p) (returnOutputs p) s t :=
  h.call.bind (wp_of_forall (fun _ _ _ h => lockstep h) (fun _ _ => trivial) fun _ => trivial)

omit hd hs h in
theorem returnValue_lockstep {p : M N Word Empty} (h : Lockstep (AgreeCall A) p p s t) :
    Lockstep (AgreeCall A) (returnValue p) (returnValue p) s t :=
  h.call.bind (wp_of_forall (fun _ _ _ h => lockstep h) (fun _ _ => trivial) fun _ => trivial)

omit hd hs in
theorem getPublicField_lockstep {field out : Word} : Lockstep (AgreeCall (bytesOfRegions H))
    (getPublicField field out) (getPublicField field out) s t := by
  unfold getPublicField
  refine lockstep_getData h (holds_self s) fun m _ => ?_
  dsimp only
  cases publicField s.data.keys field with
  | some bytes => exact .ret h
  | none => exact .ret h

theorem ecallFromUntrusted_lockstep {ctx : TrapContext} (k : Call) : Lockstep (AgreeCall (bytesOfRegions H))
    (ecallFromUntrusted img c ctx k) (ecallFromUntrusted img c ctx k) s t := by
  cases k with
  | enclaveCreate => exact returnResult_lockstep (enclaveCreate_lockstep hd hs h)
  | enclaveDelete => exact returnResult_lockstep (enclaveDelete_lockstep hd hs h)
  | enclaveEnter => exact returnResult_lockstep (enclaveEnter_lockstep hd hs h)
  | enclaveInit => exact returnResult_lockstep (enclaveInit_lockstep hd hs h)
  | enclaveLoadHandler => exact returnResult_lockstep (enclaveLoadHandler_lockstep hd hs h)
  | enclaveLoadPageTable => exact returnResult_lockstep (enclaveLoadPageTable_lockstep hd hs h)
  | enclaveLoadPage => exact returnResult_lockstep (enclaveLoadPage_lockstep hd hs h)
  | enclaveGetAttest => exact returnOutputs_lockstep (enclaveGetAttest_lockstep hd hs h)
  | getPublicField => exact returnOutputs_lockstep (getPublicField_lockstep h)
  | mailAccept => exact returnResult_lockstep (mailAccept_lockstep hd hs h)
  | mailReceive => exact returnOutputs_lockstep (mailReceive_lockstep hd hs h)
  | mailSend => exact returnResult_lockstep (mailSend_lockstep hd hs h)
  | regionAssign => exact returnResult_lockstep (regionAssign_lockstep hd hs h)
  | regionBlock => exact returnResult_lockstep (regionBlock_lockstep hd hs h)
  | regionUpdate => exact returnResult_lockstep (regionUpdate_lockstep hd hs h)
  | regionMetadataCreate => exact returnResult_lockstep (regionMetadataCreate_lockstep hs h)
  | regionOwner => exact returnValue_lockstep (lockstep h)
  | regionState => exact returnValue_lockstep (lockstep h)
  | regionCachePartitioning => exact returnResult_lockstep (regionCachePartitioning_lockstep hs h)
  | regionFlush => exact returnResult_lockstep (lockstep h)
  | threadDelete => exact returnResult_lockstep (threadDelete_lockstep hd hs h)
  | threadLoad => exact returnResult_lockstep (threadLoad_lockstep hd hs h)
  | enclaveMetadataPages => exact .ret h
  | regionMetadataPages => exact .ret h
  | regionMetadataStart => exact .ret h
  | threadMetadataPages => exact .ret h
  | enclaveExit => exact .ret h
  | enclaveGetKeys => exact .ret h
  | regionCheckOwned => exact .ret h

theorem ecallFromEnclave_lockstep (hu : (d.cores c).owner ≠ ownerUntrusted) (k : Call) :
    Lockstep (AgreeCall (bytesOfRegions H)) (ecallFromEnclave c k) (ecallFromEnclave c k) s t := by
  cases k with
  | enclaveExit => exact returnResult_lockstep (enclaveExit_lockstep hd hs h hu)
  | enclaveGetKeys => exact returnOutputs_lockstep (enclaveGetKeys_lockstep hd hs h)
  | getPublicField => exact returnOutputs_lockstep (getPublicField_lockstep h)
  | mailAccept => exact returnResult_lockstep (mailAccept_lockstep hd hs h)
  | mailReceive => exact returnOutputs_lockstep (mailReceive_lockstep hd hs h)
  | mailSend => exact returnResult_lockstep (mailSend_lockstep hd hs h)
  | regionBlock => exact returnResult_lockstep (regionBlock_lockstep hd hs h)
  | regionCheckOwned => exact returnResult_lockstep (lockstep h)
  | _ => exact .ret h

end

/-! ## Steps -/

/-- Two configurations are the same, but for the memory at the addresses in `A`. -/
structure AgreeConfig (A : Set Word) (s t : Config N) : Prop where
  data : SameBut A s.data t.data
  locks : t.locks = s.locks
  pending : t.pending = s.pending

/-- Two results of a label: not enabled, the same fault, or the same reply and
    configurations that agree. -/
def AgreeResult (A : Set Word) :
    Option (Except Fault (Option Reply × Config N)) → Option (Except Fault (Option Reply × Config N)) → Prop
  | none, none => True
  | some (.error x), some (.error y) => x = y
  | some (.ok r), some (.ok q) => r.1 = q.1 ∧ AgreeConfig A r.2 q.2
  | _, _ => False

section
variable {s t : Config N} (h : AgreeConfig A s t)
include h

theorem AgreeConfig.start : AgreeCall A s.start t.start := ⟨h.data, h.locks, rfl⟩

theorem AgreeConfig.after {s' t' : CallState N} (h' : AgreeCall A s' t') :
    AgreeConfig A (s.after s') (t.after t') := ⟨h'.data, h'.locks, h.pending⟩

theorem AgreeConfig.setPending (c : Fin N) (p : Option FreeCall) :
    AgreeConfig A (s.setPending c p) (t.setPending c p) :=
  ⟨h.data, h.locks, by show Function.update _ _ _ = Function.update _ _ _; rw [h.pending]⟩

theorem AgreeConfig.finish {f : ρ → Reply} {p : M N ρ Empty} {s' t' : CallState N}
    (hp : Lockstep (AgreeCall A) p p s' t') :
    AgreeResult A (some (finish s f (p.run s'))) (some (finish t f (p.run t'))) := by
  have halike := hp.alike
  cases hrun : p.run s' with
  | next a _ => exact a.elim
  | ret r u =>
    rw [hrun] at halike
    obtain ⟨v, hv, hR⟩ := halike.of_ret
    rw [hv]
    exact ⟨rfl, h.after hR⟩
  | fault x =>
    rw [hrun] at halike
    rw [halike.of_fault]
    exact rfl

theorem AgreeConfig.cores : t.data.cores = s.data.cores := by rw [h.data.rest]

theorem AgreeConfig.canStore {a : Word} : CanStore t c a ↔ CanStore s c a := by
  rw [CanStore, CanStore, h.data.rest]

end

section
variable {s t : Config N} (hs : SystemInv img s) (hsealed : Sealed s.data e H)
  (h : AgreeConfig (bytesOfRegions H) s t)
include hs hsealed h

omit hs hsealed in
theorem execFreeStep_agree (p : FreeCall) : AgreeResult (bytesOfRegions H)
    (some (execFreeStep s c p)) (some (execFreeStep t c p)) := by
  have hstart : AgreeCall (bytesOfRegions H) ⟨s.data, s.locks, p.lockedRegions⟩
      ⟨t.data, t.locks, p.lockedRegions⟩ := ⟨h.data, h.locks, rfl⟩
  unfold execFreeStep
  by_cases hn : p.next < N
  · simp only [hn, dite_true]
    have halike := (lockstep (p := regionFreeCheck p.regionId ⟨p.next, hn⟩) hstart).alike
    cases hrun : (regionFreeCheck p.regionId ⟨p.next, hn⟩).run
        (⟨s.data, s.locks, p.lockedRegions⟩ : CallState N) with
    | next a u =>
      rw [hrun] at halike
      obtain ⟨v, hv, hR⟩ := halike.of_next
      simp only [hv]
      exact ⟨rfl, (h.after hR).setPending _ _⟩
    | ret r u =>
      rw [hrun] at halike
      obtain ⟨v, hv, hR⟩ := halike.of_ret
      simp only [hv]
      exact ⟨rfl, (h.after hR).setPending _ _⟩
    | fault x =>
      rw [hrun] at halike
      simp only [halike.of_fault]
      exact rfl
  · simp only [hn, dite_false]
    exact (h.setPending c none).finish
      (regionFreeEnd_lockstep (holds_self ⟨s.data, s.locks, p.lockedRegions⟩) hstart)

/-- **No label tells the two configurations apart**: it is enabled in both or in none,
    faults in both or in none, gets the same reply, and they still agree. -/
theorem tryExec_agree (l : Label N) :
    AgreeResult (bytesOfRegions H) (tryExec img s l) (tryExec img t l) := by
  have hd : Shut img s.data e H := ⟨hsealed, hs.heap, hs.regions⟩
  cases l with
  | call c k ctx =>
    simp only [tryExec, h.pending, h.cores]
    split_ifs with hp hu
    · exact trivial
    · exact h.finish (ecallFromUntrusted_lockstep hd (holds_self s.start) h.start k)
    · exact h.finish (ecallFromEnclave_lockstep hd (holds_self s.start) h.start hu k)
  | regionFree c r =>
    simp only [tryExec, h.pending, h.cores]
    split_ifs with hp hu
    · exact trivial
    · exact ⟨rfl, h⟩
    · have halike := (lockstep (p := regionFreeBegin r) h.start).alike
      cases hrun : (regionFreeBegin r).run s.start with
      | next a u =>
        rw [hrun] at halike
        obtain ⟨v, hv, hR⟩ := halike.of_next
        simp only [hv, hR.lockedRegions]
        exact ⟨rfl, (h.after hR).setPending _ _⟩
      | ret x u =>
        rw [hrun] at halike
        obtain ⟨v, hv, hR⟩ := halike.of_ret
        simp only [hv]
        exact ⟨rfl, h.after hR⟩
      | fault x =>
        rw [hrun] at halike
        simp only [halike.of_fault]
        exact rfl
  | regionFreeStep c =>
    simp only [tryExec, h.pending]
    cases s.pending c with
    | none => exact trivial
    | some p => exact execFreeStep_agree h p
  | timer c regs =>
    simp only [tryExec, h.pending, h.cores]
    split_ifs with hp
    · exact trivial
    · exact h.finish (enclaveAex_lockstep hd (holds_self s.start) h.start fun hu => hp (.inr hu))
  | userStore c a v =>
    simp only [tryExec, h.pending, h.canStore]
    split_ifs with hp
    · exact trivial
    · refine ⟨rfl, ⟨?_, h.data.mem.store8⟩, h.locks, rfl⟩
      show _ = _
      rw [h.data.rest]

theorem step_agree {l : Label N} {o : Option Reply} {s' : Config N} (hstep : Step img s (l, o) s') :
    ∃ t', Step img t (l, o) t' ∧ AgreeConfig (bytesOfRegions H) s' t' := by
  have hagree := tryExec_agree hs hsealed h l
  simp only [Step, exec] at hstep ⊢
  cases hx : tryExec img s l with
  | none => simp [hx] at hstep
  | some x =>
    cases x with
    | error f => simp [hx] at hstep
    | ok r =>
      rw [hx] at hstep hagree
      obtain rfl := Option.some.inj hstep
      cases hy : tryExec img t l with
      | none =>
        rw [hy] at hagree
        exact hagree.elim
      | some y =>
        rw [hy] at hagree
        cases y with
        | error f => exact hagree.elim
        | ok q => exact ⟨q.2, by rw [show o = q.1 from hagree.1], hagree.2⟩

end

/-! ## Runs -/

section
variable {H : Finset (Fin 64)} {boot : Boot N} {es es₁ es₂ : List (Event N)} {s t s' t' : Config N}

/-- A store into the regions in `H`. -/
def hiddenStore (H : Finset (Fin 64)) : Label N → Bool
  | .userStore _ a _ => decide ((addrToRegionId a).toNat < 64 ∧ regionOf a ∈ H)
  | _ => false

/-- What is to be seen of a run from outside the regions in `H`. -/
def observed (H : Finset (Fin 64)) (es : List (Event N)) : List (Event N) :=
  es.filter fun ev => !hiddenStore H ev.1

/-- A careful step before which the regions in `H` belong to the initialized enclave at `e`. -/
def SealedStep (img : Image N) (e : Word) (H : Finset (Fin 64)) (s : Config N) (ev : Event N)
    (s' : Config N) : Prop :=
  CarefulStep img s ev s' ∧ Sealed s.data e H

theorem hiddenStore_inv {ev : Event N} (hs : Step img s ev s') (hh : hiddenStore H ev.1 = true) :
    ∃ a v, a ∈ bytesOfRegions H ∧
      s' = { s with data := { s.data with mem := s.data.mem.store8 a v } } := by
  obtain ⟨l, o⟩ := ev
  cases l with
  | userStore c a v =>
    obtain ⟨ha, hH⟩ := of_decide_eq_true hh
    exact ⟨a, v, ⟨ha, hH⟩, (step_store hs).2.2⟩
  | _ => cases hh

/-- **An enclave's memory is its secret.**  Take two runs from a reachable configuration and
    one that differs from it in the memory of an initialized enclave at most.  As long as the
    enclave keeps these regions, if the labels of both runs are the same but for stores into the
    regions, then so are all replies, and the final configurations differ in the memory of the
    regions at most. -/
theorem enclave_memory_secret (h : CarefulRun img boot es s)
    (hagree : AgreeConfig (bytesOfRegions H) s t)
    (hr : Runs (SealedStep img e H) s es₁ s') (hr' : Runs (Step img) t es₂ t')
    (hl : (observed H es₁).map Prod.fst = (observed H es₂).map Prod.fst) :
    observed H es₁ = observed H es₂ ∧ AgreeConfig (bytesOfRegions H) s' t' := by
  refine (Runs.unwind (R := fun s t => SystemInv img s ∧ AgreeConfig (bytesOfRegions H) s t)
    ?_ ?_ ?_ ⟨h.inv, hagree⟩ hr hr' hl).imp_right And.right
  · rintro s t ev s' ⟨hinv, hagree⟩ ⟨hs, -⟩ hh
    obtain ⟨a, v, ha, rfl⟩ := hiddenStore_inv hs.1 hh
    exact ⟨(step_inv hinv hs.2 hs.1).1, ⟨hagree.data.store8_left ha, hagree.locks, hagree.pending⟩⟩
  · rintro s t ev t' ⟨hinv, hagree⟩ hs hh
    obtain ⟨a, v, ha, rfl⟩ := hiddenStore_inv hs hh
    exact ⟨hinv, ⟨hagree.data.store8_right ha, hagree.locks, hagree.pending⟩⟩
  · rintro s t ⟨l, o⟩ ⟨l', o'⟩ s' t' ⟨hinv, hagree⟩ ⟨hs, hsealed⟩ hs' - - hl
    obtain rfl : l = l' := hl
    obtain ⟨t₁, hs₁, hagree₁⟩ := step_agree hinv hsealed hagree hs.1
    obtain ⟨rfl, rfl⟩ : o = o' ∧ t₁ = t' := by simpa using Option.some.inj (hs₁.symm.trans hs')
    exact ⟨rfl, (step_inv hinv hs.2 hs.1).1, hagree₁⟩

end

instance decidableSealed (d : Data N) (e : Word) (H : Finset (Fin 64)) : Decidable (Sealed d e H) :=
  decidable_of_iff (ValidMetadata d e .enclave ∧ (d.enclave e).initState = enclaveStateInitialized ∧
    ∀ i ∈ H, Owned d i e) ⟨fun h => ⟨h.1, h.2.1, h.2.2⟩, fun h => ⟨h.1, h.2, h.3⟩⟩

theorem observed_labels {H : Finset (Fin 64)} {es : List (Event N)} :
    (observed H es).map Prod.fst = (es.map Prod.fst).filter fun l => !hiddenStore H l := by
  rw [List.filter_map]
  rfl

/-- Core 1 runs the first enclave, with a mailbox. -/
def insideLabels : List (Label 2) := setupLabels ++ buildLabels firstEnclave firstThread 1 ++
  [callOn 1 (.enclaveEnter firstEnclave firstThread)]

/-- The enclave stores `v`, opens its mailbox, and is stopped by a timer. -/
def secretLabels (v : Byte) : List (Label 2) :=
  [.userStore 1 0x84004000 v, callOn 1 (.mailAccept 0 ownerUntrusted), .timer 1 fun _ => 0]

set_option maxRecDepth 100000 in
/-- The enclave writes one secret or another. -/
theorem enclave_memory_secret_mailbox : ∃ es s es₁ s' es₂ t', CarefulRun smallImage zeroBoot es s ∧
    Runs (SealedStep smallImage firstEnclave {2}) s es₁ s' ∧ Runs (Step smallImage) s es₂ t' ∧
    s'.data.mem 0x84004000 ≠ t'.data.mem 0x84004000 ∧ observed {2} es₁ = observed {2} es₂ ∧
    AgreeConfig (bytesOfRegions ({2} : Finset (Fin 64))) s' t' := by
  obtain ⟨es, s, h, hany⟩ : ∃ es s, CarefulRun smallImage zeroBoot es s ∧
      (runsOf (restrict (fun s _ => Sealed s.data firstEnclave ({2} : Finset (Fin 64)))
        (carefulExec smallImage)) s (secretLabels 1)).any (fun x =>
      (runsOf (exec smallImage) s (secretLabels 2)).any fun y =>
        decide (x.2.data.mem 0x84004000 ≠ y.2.data.mem 0x84004000)) = true :=
    CarefulRun.exists_of_labels insideLabels (by decide +kernel)
  obtain ⟨⟨es₁, s'⟩, hx, hany⟩ := (Option.any_eq_true _ _).mp hany
  obtain ⟨⟨es₂, t'⟩, hy, hne⟩ := (Option.any_eq_true _ _).mp hany
  have hr : Runs (SealedStep smallImage firstEnclave {2}) s es₁ s' :=
    (Runs.of_runsOf hx).mono fun s e s' hs =>
      have hs := restrict_eq_some.mp hs
      ⟨carefulStep_of_exec hs.2, hs.1⟩
  have hl : (observed {2} es₁).map Prod.fst = (observed {2} es₂).map Prod.fst := by
    rw [observed_labels, observed_labels, runsOf_labels hx, runsOf_labels hy]
    rfl
  exact ⟨es, s, es₁, s', es₂, t', h, hr, .of_runsOf hy, of_decide_eq_true hne,
    enclave_memory_secret h ⟨⟨rfl, fun _ _ => rfl⟩, rfl, rfl⟩ hr (.of_runsOf hy) hl⟩

end SecurityMonitor
