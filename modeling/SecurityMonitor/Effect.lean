/-
  What a step of the system can do.

  * `Effect img L c ctx d k d'`: the call `k` of core `c` returned `MONITOR_OK`,
    with `L` the locks held before it; its guards held in `d` and the new data is
    `d'`.  A call that returns anything else leaves the data as it is;
  * `IndexSafe d c k`: the region indices that `k` uses are in bounds;
  * `step_call`, `step_free`, `step_freeStep`, `step_timer`, `step_store`: the
    steps of the machine by label.  Everything later is derived from these; no
    later proof looks into a call.
-/
import SecurityMonitor.Machine

namespace SecurityMonitor

open ByteMem Prog

variable {N : ℕ}

/-! ## Effects of calls -/

def Effect (img : Image N) (L : LockId N → Bool) (c : Fin N) (ctx : TrapContext) (d : Data N) :
    Call → Data N → Prop
  | .enclaveCreate e b m n debug, d' => FreeMetadataPages d e (enclaveMetadataPages n) ∧
      d' = { d with mem := createEnclave d.mem e b m n debug }
  | .enclaveDelete e, d' => DeleteGuard L d e ∧ d' = deleteEnclave d e
  | .enclaveEnter e t, d' => (d.cores c).owner = ownerUntrusted ∧ EnterGuard d e t ∧
      d' = enterEnclave img d c e t ctx
  | .enclaveExit, d' => (d.cores c).owner ≠ ownerUntrusted ∧ d' = exitEnclave d c false
  | .enclaveInit e, d' => ValidMetadata d e .enclave ∧
      (d.enclave e).initState = enclaveStatePageDataLoaded ∧
      d' = { d with mem := initEnclave img d.keys d.mem e }
  | .enclaveLoadHandler e p, d' => LoadHandlerGuard img d e p ∧
      d' = { d with mem := loadHandler img d.mem e p }
  | .enclaveLoadPageTable e p v l a, d' => LoadPageTableGuard d e p v l a ∧
      ∃ d₁, EntryLoaded d e p v l a d₁ ∧ d' = { d₁ with mem := finishLoadPageTable d₁.mem e p v l a }
  | .enclaveLoadPage e p v o a, d' => LoadPageGuard d e p v o a ∧
      ∃ d₁, EntryLoaded d e p v 0 a d₁ ∧ d' = { d₁ with mem := finishLoadPage d₁.mem e p v o a }
  | .mailAccept id x, d' => MailboxId d (d.cores c).owner id ∧ d' = acceptMail d (d.cores c).owner id x
  | .mailReceive id _ _, d' => MailboxId d (d.cores c).owner id ∧
      (mailboxOf d (d.cores c).owner id).state = mailboxStateFull ∧
      d' = receiveMail d (d.cores c).owner id
  | .mailSend x id msg, d' => SendGuard d (d.cores c).owner x id ∧
      d' = sendMail d (d.cores c).owner x id msg
  | .regionAssign r o, d' => AssignGuard L d r o ∧ d' = assignRegion d c (toRegion r) o
  | .regionBlock r, d' => BlockGuard L d c r ∧ d' = blockRegion d c (toRegion r)
  | .regionUpdate, d' => d' = platformUpdateMemoryProtection d c
  | .regionMetadataCreate r, d' => r.toNat < 64 ∧ L (.region (toRegion r)) = false ∧
      (d.regions (toRegion r)).state = .free ∧ d' = createMetadataRegion d (toRegion r) r
  | .regionCachePartitioning p, d' => PartitionGuard d p ∧ d' = setPartitions d p
  | .threadDelete t, d' => ValidMetadata d t .thread ∧
      (addrToRegionId (d.thread t).owner).toNat < 64 ∧ d' = { d with mem := deleteThread d.mem t }
  | .threadLoad e t pc sp l, d' => ValidMetadata d e .enclave ∧
      (d.enclave e).initState = enclaveStatePageDataLoaded ∧
      FreeMetadataPages d t threadMetadataPages ∧
      d' = { d with mem := loadThread d.mem e t pc sp l }
  | _, d' => d' = d

/-- What a successful call copies to the caller, for the calls that read mail or keys. -/
def Copies (d : Data N) (c : Fin N) : Call → Outputs → Prop
  | .mailReceive id out outM, o => o = receivedMail (mailboxOf d (d.cores c).owner id) out outM
  | .enclaveGetKeys m pk sk a, o => o = keysOf (d.enclave (d.cores c).owner) m pk sk a
  | _, _ => True

/-- What has to hold for the region indices of a call to be in bounds: of the arguments of
    untrusted software that pass the checks of the call, and of the ids that are stored for the
    core and for the thread. -/
def IndexSafe (d : Data N) (c : Fin N) : Call → Prop
  | .regionFlush r => (d.cores c).owner = ownerUntrusted → r.toNat ≠ 64
  | .enclaveLoadPageTable e p v l acl => (d.cores c).owner = ownerUntrusted →
      LoadPageTableGuard d e p v l acl → l ≠ 3 → TablesInRam d e v l.toNat
  | .enclaveLoadPage e p v o acl => (d.cores c).owner = ownerUntrusted →
      LoadPageChecks d e p v o acl → TablesInRam d e v 0 ∧ (addrToRegionId o).toNat < 64
  | .threadDelete t => (d.cores c).owner = ownerUntrusted → ValidMetadata d t .thread →
      (addrToRegionId (d.thread t).owner).toNat < 64
  | .mailAccept _ _ | .mailReceive _ _ _ | .mailSend _ _ _ =>
      (d.cores c).owner ≠ ownerUntrusted → (addrToRegionId (d.cores c).owner).toNat < 64
  | .enclaveExit => (d.cores c).owner ≠ ownerUntrusted → (addrToRegionId (d.cores c).thread).toNat < 64
  | _ => True

/-! ## The dispatch -/

section
variable {E : Empty → CallState N → Prop} {F : Fault → Prop} {L : LockId N → Bool} {d : Data N}
  {s : CallState N} {img : Image N} {c : Fin N} {ctx : TrapContext}

/-- A dispatched call ends: an error leaves the data, `MONITOR_OK` has the effect `T` and
    the outputs `O`. -/
def Replies (L : LockId N → Bool) (d : Data N) (T : Data N → Prop) (O : Outputs → Prop) (r : Reply)
    (s : CallState N) : Prop :=
  ∃ d', At L d' s ∧ (r.value ≠ 0 → d' = d) ∧ (r.value = 0 → T d' ∧ O r.outputs)

theorem ApiResult.code_eq_zero {r : ApiResult} : r.code = 0 ↔ r = .ok := by
  cases r <;> decide

theorem Ends.replies {T : Data N → Prop} {O : Outputs → Prop} {r : ApiResult} {o : Outputs}
    (h : Ends L d (fun d' => T d' ∧ O o) r s) : Replies L d T O ⟨r.code, o⟩ s := by
  obtain ⟨d', hat, ⟨hr, hd⟩ | ⟨hr, hd⟩⟩ := h
  · exact ⟨d', hat, fun _ => hd, fun h => absurd (ApiResult.code_eq_zero.mp h) hr⟩
  · exact ⟨d', hat, fun h => absurd (ApiResult.code_eq_zero.mpr hr) h, fun _ => hd⟩

theorem wp_returnResult {T : Data N → Prop} {p : M N ApiResult Empty}
    (h : p.wp (fun a _ => a.elim) (Ends L d T) F s) :
    (returnResult p).wp E (Replies L d T fun _ => True) F s := by
  simp only [returnResult, wp_bind, wp_call, wp_ret]
  exact wp_mono h (fun _ _ h => h) (fun _ _ h => (h.imp fun _ hd => ⟨hd, trivial⟩).replies)
    fun _ h => h

theorem wp_returnOutputs {T : Data N → Prop} {O : Outputs → Prop} {p : M N (ApiResult × Outputs) Empty}
    (h : p.wp (fun a _ => a.elim) (fun r => Ends L d (fun d' => T d' ∧ O r.2) r.1) F s) :
    (returnOutputs p).wp E (Replies L d T O) F s := by
  simp only [returnOutputs, wp_bind, wp_call, wp_ret]
  exact wp_mono h (fun _ _ h => h) (fun _ _ h => h.replies) fun _ h => h

theorem At.replies {v : Word} {o : Outputs} (h : At L d s) :
    Replies L d (fun d' => d' = d) (fun _ => True) ⟨v, o⟩ s :=
  ⟨d, h, fun _ => rfl, fun _ => ⟨rfl, trivial⟩⟩

theorem At.unsupported {T : Data N → Prop} {O : Outputs → Prop} (h : At L d s) :
    Replies L d T O (.ofResult .unsupported) s :=
  ⟨d, h, fun _ => rfl, fun h => absurd h (by decide)⟩

theorem regionState_spec {r : Word} (h : At L d s) :
    (regionState r).wp (fun a _ => a.elim) (fun _ => At L d) F s := by
  simp only [regionState, wp_bind, wp_ite, wp_ret, Bool.not_eq_true', isValidRegionId_eq_false,
    not_not]
  refine ⟨fun _ => h, fun hr => ?_⟩
  refine h.lockRegion (fun hn => absurd hr hn) (fun s hs _ hl => obtained (hs.getData ?_))
    fun s hs => refused hs
  exact hs.unlockRegion hr hl fun s hs => hs

theorem wp_returnValue {p : M N Word Empty} (h : p.wp (fun a _ => a.elim) (fun _ => At L d) F s) :
    (returnValue p).wp E (Replies L d (fun d' => d' = d) fun _ => True) F s := by
  simp only [returnValue, wp_bind, wp_call, wp_ret]
  exact wp_mono h (fun _ _ h => h) (fun _ _ h => h.replies) fun _ h => h

theorem ecallFromUntrusted_spec (h : At L d s) (hu : (d.cores c).owner = ownerUntrusted)
    (hP : F .panic) (k : Call) (hF : ¬ IndexSafe d c k → F .regionIndex) :
    (ecallFromUntrusted img c ctx k).wp E (Replies L d (Effect img L c ctx d k) (Copies d c k)) F s := by
  cases k with
  | enclaveCreate => exact wp_returnResult (enclaveCreate_spec h)
  | enclaveDelete => exact wp_returnResult (enclaveDelete_spec h)
  | enclaveEnter =>
    exact wp_returnResult (wp_mono (enclaveEnter_spec h) (fun _ _ h => h)
      (fun _ _ h => h.imp fun _ hd => ⟨hu, hd⟩) fun _ h => h)
  | enclaveExit => exact h.unsupported
  | enclaveInit => exact wp_returnResult (enclaveInit_spec h)
  | enclaveLoadHandler => exact wp_returnResult (enclaveLoadHandler_spec h)
  | enclaveLoadPageTable =>
    exact wp_returnResult (enclaveLoadPageTable_spec h fun hg hl hn => hF fun hs => hn (hs hu hg hl))
  | enclaveLoadPage =>
    exact wp_returnResult (enclaveLoadPage_spec h fun hg hn => hF fun hs => hn (hs hu hg))
  | enclaveMetadataPages => exact h.replies
  | enclaveGetAttest =>
    exact wp_returnOutputs (wp_mono (enclaveGetAttest_spec h) (fun _ _ h => h)
      (fun _ _ h => h.imp fun _ hd => ⟨hd, trivial⟩) fun _ h => h)
  | enclaveGetKeys => exact h.unsupported
  | getPublicField =>
    exact wp_returnOutputs (wp_mono (getPublicField_spec h) (fun _ _ h => h)
      (fun _ _ h => h.imp fun _ hd => ⟨hd, trivial⟩) fun _ h => h)
  | mailAccept =>
    exact wp_returnResult (mailAccept_spec h fun hn => absurd hu hn)
  | mailReceive =>
    exact wp_returnOutputs (wp_mono (mailReceive_spec h fun hn => absurd hu hn) (fun _ _ h => h)
      (fun _ _ h => h.imp fun _ hd => ⟨⟨hd.1, hd.2.1, hd.2.2.1⟩, hd.2.2.2⟩) fun _ h => h)
  | mailSend => exact wp_returnResult (mailSend_spec h fun hn => absurd hu hn)
  | regionAssign => exact wp_returnResult (regionAssign_spec h)
  | regionBlock => exact wp_returnResult (regionBlock_spec h)
  | regionCheckOwned => exact h.unsupported
  | regionUpdate => exact wp_returnResult (regionUpdate_spec h)
  | regionMetadataCreate => exact wp_returnResult (regionMetadataCreate_spec h)
  | regionMetadataPages => exact h.replies
  | regionMetadataStart => exact h.replies
  | regionOwner => exact wp_returnValue (h.regionOwner fun _ _ h _ => h)
  | regionState => exact wp_returnValue (regionState_spec h)
  | regionCachePartitioning => exact wp_returnResult (regionCachePartitioning_spec h hP)
  | regionFlush => exact wp_returnResult (regionFlush_spec h fun hr => hF fun hs => hs hu hr)
  | threadDelete =>
    exact wp_returnResult (threadDelete_spec h fun ht hn => hF fun hs => hn (hs hu ht))
  | threadLoad => exact wp_returnResult (threadLoad_spec h)
  | threadMetadataPages => exact h.replies

theorem ecallFromEnclave_spec (h : At L d s) (hu : (d.cores c).owner ≠ ownerUntrusted)
    (k : Call) (hF : ¬ IndexSafe d c k → F .regionIndex) :
    (ecallFromEnclave c k).wp E (Replies L d (Effect img L c ctx d k) (Copies d c k)) F s := by
  cases k with
  | enclaveExit =>
    exact wp_returnResult (wp_mono (performEnclaveExit_spec h fun hn => hF fun hs => hn (hs hu)) (fun _ _ h => h)
      (fun _ _ h => h.imp fun _ hd => ⟨hu, hd⟩) fun _ h => h)
  | enclaveGetKeys =>
    exact wp_returnOutputs (wp_mono (enclaveGetKeys_spec h) (fun _ _ h => h)
      (fun _ _ h => h) fun _ h => h)
  | getPublicField =>
    exact wp_returnOutputs (wp_mono (getPublicField_spec h) (fun _ _ h => h)
      (fun _ _ h => h.imp fun _ hd => ⟨hd, trivial⟩) fun _ h => h)
  | mailAccept =>
    exact wp_returnResult (mailAccept_spec h fun _ hn => hF fun hs => hn (hs hu))
  | mailReceive =>
    exact wp_returnOutputs (wp_mono (mailReceive_spec h fun _ hn => hF fun hs => hn (hs hu))
      (fun _ _ h => h) (fun _ _ h => h.imp fun _ hd => ⟨⟨hd.1, hd.2.1, hd.2.2.1⟩, hd.2.2.2⟩) fun _ h => h)
  | mailSend => exact wp_returnResult (mailSend_spec h fun _ hn => hF fun hs => hn (hs hu))
  | regionBlock => exact wp_returnResult (regionBlock_spec h)
  | regionCheckOwned => exact wp_returnResult (regionCheckOwned_spec h)
  | _ => exact h.unsupported

end

/-! ## Steps by label -/

section
variable {img : Image N} {s s' : Config N} {c : Fin N} {o : Option Reply}

theorem Config.at_start (s : Config N) : At s.locks s.data s.start :=
  ⟨rfl, fun _ h => h, fun _ h => absurd h nofun⟩

theorem finish_eq_ok {ρ : Type} {f : ρ → Reply} {x : Outcome (CallState N) ρ Fault Empty}
    (h : finish s f x = .ok (o, s')) : ∃ r t, x = .ret r t ∧ o = some (f r) ∧ s' = s.after t := by
  cases x with
  | next a => exact a.elim
  | ret r t =>
    simp only [finish, Except.ok.injEq, Prod.mk.injEq] at h
    exact ⟨r, t, rfl, h.1.symm, h.2.symm⟩
  | fault => cases h

/-- The locks held before a step are held after it. -/
def KeepsLocks (s s' : Config N) : Prop := ∀ l, s.locks l = true → s'.locks l = true

/-- What a call can do. -/
structure CallStep (img : Image N) (s : Config N) (c : Fin N) (k : Call) (ctx : TrapContext)
    (o : Option Reply) (s' : Config N) : Prop where
  idle : s.pending c = none
  pending : s'.pending = s.pending
  locks : KeepsLocks s s'
  reply : ∃ r, o = some r ∧ (r.value ≠ 0 → s'.data = s.data) ∧
    (r.value = 0 → Effect img s.locks c ctx s.data k s'.data)
  copies : ∀ r, o = some r → r.value = 0 → Copies s.data c k r.outputs

theorem step_call {k : Call} {ctx : TrapContext} (h : Step img s (.call c k ctx, o) s') :
    CallStep img s c k ctx o s' := by
  simp only [Step, exec, tryExec] at h
  cases hp : s.pending c with
  | some p => simp [hp] at h
  | none =>
    simp only [hp, Option.isSome_none, Bool.false_eq_true, if_false] at h
    split at h
    · rename_i x hx
      simp only [Option.some.injEq] at hx h
      subst h
      obtain ⟨r, t, ht, rfl, rfl⟩ := finish_eq_ok hx
      have hspec : Replies s.locks s.data (Effect img s.locks c ctx s.data k) (Copies s.data c k) r t := by
        by_cases hu : (s.data.cores c).owner = ownerUntrusted
        · rw [if_pos hu] at ht
          exact of_wp_ret (ecallFromUntrusted_spec (E := fun _ _ => True) (F := fun _ => True)
            s.at_start hu trivial k fun _ => trivial) ht
        · rw [if_neg hu] at ht
          exact of_wp_ret (ecallFromEnclave_spec (E := fun _ _ => True) (F := fun _ => True)
            s.at_start hu k fun _ => trivial) ht
      obtain ⟨d', hat, hne, heq⟩ := hspec
      refine ⟨hp, rfl, hat.locks, ⟨r, rfl, fun hv => hat.data.trans (hne hv), fun hv => ?_⟩, ?_⟩
      · show Effect _ _ _ _ _ _ t.data
        rw [hat.data]
        exact (heq hv).1
      · rintro r' hr' hv
        obtain rfl := Option.some.inj hr'
        exact (heq hv).2
    · cases h

/-- A `region_free` has started: its region is blocked, and now locked. -/
structure FreeStarted (s : Config N) (c : Fin N) (r : Word) (s' : Config N) : Prop where
  valid : r.toNat < 64
  state : (s.data.regions (toRegion r)).state = .blocked
  unlocked : s.locks (.region (toRegion r)) = false
  locked : s'.locks (.region (toRegion r)) = true
  pending : s'.pending = Function.update s.pending c
    (some ⟨r, 0, Function.update (fun _ => false) (toRegion r) true⟩)

theorem step_free {r : Word} (h : Step img s (.regionFree c r, o) s') :
    s.pending c = none ∧ s'.data = s.data ∧ KeepsLocks s s' ∧
      (s'.pending = s.pending ∨ FreeStarted s c r s') := by
  simp only [Step, exec, tryExec] at h
  cases hp : s.pending c with
  | some p => simp [hp] at h
  | none =>
    simp only [hp, Option.isSome_none, Bool.false_eq_true, if_false] at h
    by_cases hu : (s.data.cores c).owner = ownerUntrusted
    · rw [if_neg (not_not.mpr hu)] at h
      have hspec := regionFreeBegin_spec (F := fun _ => True) (r := r) s.at_start fun _ => rfl
      cases hx : (regionFreeBegin r).run s.start with
      | next u t =>
        rw [wp, hx] at hspec
        simp only [hx, Option.some.injEq, Prod.mk.injEq] at h
        obtain ⟨hr, hst, hd, hl, hlocks, hown⟩ := hspec
        obtain ⟨-, rfl⟩ := h
        refine ⟨rfl, hd, fun l hl' => ?_, .inr ⟨hr, hst, hl, ?_, ?_⟩⟩
        · show t.locks l = true
          rw [hlocks, Function.update_apply]; split_ifs
          · rfl
          · exact hl'
        · show t.locks _ = true
          rw [hlocks, Function.update_self]
        · show Function.update s.pending c (some ⟨r, 0, t.lockedRegions⟩) = _
          rw [hown]; rfl
      | ret x t =>
        rw [wp, hx] at hspec
        simp only [hx, Option.some.injEq, Prod.mk.injEq] at h
        obtain ⟨-, rfl⟩ := h
        exact ⟨rfl, hspec.2.data, hspec.2.locks, .inl rfl⟩
      | fault f => simp [hx] at h
    · rw [if_pos hu] at h
      simp only [Option.some.injEq, Prod.mk.injEq] at h
      obtain ⟨-, rfl⟩ := h
      exact ⟨rfl, rfl, fun _ h => h, .inl rfl⟩

/-- The locks that a `region_free` in progress does not hold itself. -/
def othersLocks (locks : LockId N → Bool) (own : Fin 64 → Bool) : LockId N → Bool
  | .region i => locks (.region i) && !own i
  | l => locks l

theorem at_resume (s : Config N) (p : FreeCall) :
    At (othersLocks s.locks p.lockedRegions) s.data ⟨s.data, s.locks, p.lockedRegions⟩ := by
  refine ⟨rfl, fun l hl => ?_, fun i hi => ?_⟩
  · cases l with
    | region i => exact (Bool.and_eq_true_iff.mp hl).1
    | core c => exact hl
    | untrustedState => exact hl
  · change p.lockedRegions i = true at hi
    simp [othersLocks, hi]

/-- What a step of a `region_free` in progress can do: the next check passes, the call
    fails, or all checks have passed and the region becomes free. -/
inductive FreeStep (s : Config N) (c : Fin N) (p : FreeCall) (s' : Config N) : Prop
  | passed (h : p.next < N) :
      s'.data = s.data → s'.locks = s.locks →
      s'.pending = Function.update s.pending c (some { p with next := p.next + 1 }) →
      regionIsAccessible (s.data.cores ⟨p.next, h⟩).mmrbm p.regionId.toNat = false →
      regionIsAccessible (s.data.cores ⟨p.next, h⟩).memrbm p.regionId.toNat = false →
      FreeStep s c p s'
  | failed : s'.data = s.data → s'.pending = Function.update s.pending c none →
      (∀ l, othersLocks s.locks p.lockedRegions l = true → s'.locks l = true) → FreeStep s c p s'
  | done : N ≤ p.next → s'.data = freeRegion s.data (toRegion p.regionId) →
      s'.pending = Function.update s.pending c none →
      (∀ l, othersLocks s.locks p.lockedRegions l = true → s'.locks l = true) → FreeStep s c p s'

theorem step_freeStep (h : Step img s (.regionFreeStep c, o) s') :
    ∃ p, s.pending c = some p ∧ FreeStep s c p s' := by
  simp only [Step, exec, tryExec] at h
  cases hp : s.pending c with
  | none => simp [hp] at h
  | some p =>
    refine ⟨p, rfl, ?_⟩
    simp only [hp, Option.map_some, execFreeStep] at h
    split_ifs at h with hn
    · have hspec := regionFreeCheck_spec (F := fun _ => True) (r := p.regionId) (c := ⟨p.next, hn⟩)
        (at_resume s p)
      cases hx : (regionFreeCheck p.regionId ⟨p.next, hn⟩).run
          (⟨s.data, s.locks, p.lockedRegions⟩ : CallState N) with
      | next u t =>
        rw [wp, hx] at hspec
        simp only [hx, Option.some.injEq, Prod.mk.injEq] at h
        obtain ⟨-, rfl⟩ := h
        obtain ⟨hd, hl, -, hm, he⟩ := hspec
        exact .passed hn hd hl rfl hm he
      | ret x t =>
        rw [wp, hx] at hspec
        simp only [hx, Option.some.injEq, Prod.mk.injEq] at h
        obtain ⟨-, rfl⟩ := h
        exact .failed hspec.2.data rfl hspec.2.locks
      | fault f => simp [hx] at h
    · have hspec := regionFreeEnd_spec (E := fun _ _ => True) (F := fun _ => True) (r := p.regionId)
        (at_resume s p) fun _ => trivial
      split at h
      · rename_i x hx
        simp only [Option.some.injEq] at hx h
        subst h
        obtain ⟨r, t, ht, rfl, rfl⟩ := finish_eq_ok hx
        have := of_wp_ret hspec ht
        exact .done (by omega) this.2.2.data rfl this.2.2.locks
      · cases h

theorem step_timer {regs : Fin 32 → Word} (h : Step img s (.timer c regs, o) s') :
    s.pending c = none ∧ (s.data.cores c).owner ≠ ownerUntrusted ∧ s'.pending = s.pending ∧
      KeepsLocks s s' ∧ s'.data = aexEnclave s.data c regs := by
  simp only [Step, exec, tryExec] at h
  split at h
  · rename_i x hx
    simp only [Option.some.injEq] at h
    subst h
    split_ifs at hx with hc
    simp only [Option.some.injEq] at hx
    obtain ⟨r, t, ht, rfl, rfl⟩ := finish_eq_ok hx
    obtain ⟨hp, hu⟩ := not_or.mp hc
    have hspec := of_wp_ret (enclaveAex_spec (E := fun _ _ => True) (F := fun _ => True) s.at_start
      trivial fun _ => trivial) ht
    exact ⟨by simpa using hp, hu, rfl, hspec.2.locks, hspec.2.data⟩
  · cases h

theorem step_store {a : Word} {v : Byte} (h : Step img s (.userStore c a v, o) s') :
    s.pending c = none ∧ CanStore s c a ∧
      s' = { s with data := { s.data with mem := s.data.mem.store8 a v } } := by
  simp only [Step, exec, tryExec] at h
  split at h
  · rename_i x hx
    simp only [Option.some.injEq] at h
    subst h
    split_ifs at hx with hc
    simp only [Option.some.injEq, Except.ok.injEq, Prod.mk.injEq] at hx
    obtain ⟨hp, hs⟩ := not_or.mp hc
    exact ⟨by simpa using hp, not_not.mp hs, hx.2.symm⟩
  · cases h

end

end SecurityMonitor
