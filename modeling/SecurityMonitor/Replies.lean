/-
  What a caller may conclude from a reply.

  * `failed_call_unchanged`: a call that does not reply `MONITOR_OK` leaves the data
    as it is, and copies nothing to the caller;
  * `lookups_iff`: `region_owner` and `region_state` return error codes in the same
    register as their answers, and three of the codes are also answers.
-/
import SecurityMonitor.MemoryIsolation

namespace SecurityMonitor

open ByteMem Prog

variable {N : ℕ}

/-! ## Failed calls -/

/-- The calls of the API; `region_free` is called by its first step. -/
def Label.IsApiCall : Label N → Prop
  | .call _ _ _ | .regionFree _ _ | .regionFreeStep _ => True
  | .timer _ _ | .userStore _ _ _ => False

section
variable {E : Empty → CallState N → Prop} {L : LockId N → Bool} {d : Data N}
  {s : CallState N} {img : Image N} {c : Fin N} {ctx : TrapContext}

/-- Only a call that succeeds copies something out. -/
def Silent (r : ApiResult × Outputs) : Prop := r.1 ≠ .ok → r.2 = []

def Reply.Silent (r : Reply) : Prop := r.value ≠ 0 → r.outputs = []

theorem silent_ofResult (x : ApiResult) : (Reply.ofResult x).Silent := fun _ => rfl

theorem mailReceive_silent {id out outM : Word} (h : At L d s) :
    (mailReceive c id out outM).wp E (fun r _ => Silent r) (fun _ => True) s := by
  have hlocked : ∀ s caller, At L d s → (caller = ownerUntrusted → L .untrustedState = false) →
      (mailReceiveLocked d caller id out outM).wp E (fun r _ => Silent r) (fun _ => True) s := by
    intro s caller hs hl
    simp only [mailReceiveLocked, wp_bind, wp_ite, wp_ret]
    refine ⟨fun _ => hs.unlockUntrusted hl fun s hs => hs.unlockRegions fun s hs _ => rfl,
      fun _ => hs.setData fun s hs => ?_⟩
    exact hs.unlockUntrusted hl fun s hs => hs.unlockRegions fun s hs hne => absurd rfl hne
  simp only [mailReceive, wp_bind, wp_ite, wp_ret, Bool.not_eq_true']
  refine h.getData ⟨fun hu => ⟨fun _ _ => rfl, fun _ => ?_⟩, fun hu => ?_⟩
  · exact h.acquire (fun s hs hl => obtained (hlocked s _ hs fun _ => hl)) fun s hs => refused fun _ => rfl
  · refine h.addLockRegion (fun _ => trivial) (fun s hs _ _ => obtained ⟨fun _ => ?_, fun _ => ?_⟩)
      fun s hs => refused fun _ => rfl
    · exact hs.unlockRegions fun s hs _ => rfl
    · exact hlocked s _ hs fun h => absurd h hu

theorem enclaveGetKeys_silent {m pk sk a : Word} (h : At L d s) :
    (enclaveGetKeys c m pk sk a).wp E (fun r _ => Silent r) (fun _ => True) s := by
  simp only [enclaveGetKeys, wp_bind, wp_ite, wp_ret, wp_call, ne_eq, not_not]
  exact h.getData (h.addLockRegionIffValidMetadata (fun s hs _ _ => ⟨fun hn => absurd rfl hn,
    fun _ => hs.unlockRegions fun s hs hne => absurd rfl hne⟩)
    fun s r hs hr => ⟨fun _ _ => rfl, fun h => absurd h hr⟩)

theorem enclaveGetAttest_silent {e m pk a : Word} (h : At L d s) :
    (enclaveGetAttest e m pk a).wp E (fun r _ => Silent r) (fun _ => True) s := by
  simp only [enclaveGetAttest, wp_bind, wp_ite, wp_ret, wp_call, ne_eq, not_not]
  refine h.addLockRegionIffValidMetadata (fun s hs _ _ => ⟨fun hn => absurd rfl hn, fun _ =>
    hs.getData ⟨fun _ => ?_, fun _ => ?_⟩⟩) fun s r hs hr => ⟨fun _ _ => rfl, fun h => absurd h hr⟩
  · exact hs.unlockRegions fun s hs _ => rfl
  · exact hs.unlockRegions fun s hs hne => absurd rfl hne

theorem getPublicField_silent {field out : Word} (h : At L d s) :
    (getPublicField field out).wp E (fun r _ => Silent r) (fun _ => True) s := by
  simp only [getPublicField, wp_bind]
  refine h.getData ?_
  cases publicField d.keys field with
  | some bytes => exact fun hne => absurd rfl hne
  | none => exact fun _ => rfl

/-- What the dispatch makes of a result that copies nothing out. -/
theorem silent_returnResult {p : M N ApiResult Empty} {s : CallState N} :
    (returnResult p).wp E (fun r _ => r.Silent) (fun _ => True) s := by
  simp only [returnResult, wp_bind, wp_call, wp_ret]
  exact wp_of_forall (fun a _ => a.elim) (fun x _ => silent_ofResult x) fun _ => trivial

theorem silent_returnValue {p : M N Word Empty} {s : CallState N} :
    (returnValue p).wp E (fun r _ => r.Silent) (fun _ => True) s := by
  simp only [returnValue, wp_bind, wp_call, wp_ret]
  exact wp_of_forall (fun a _ => a.elim) (fun _ _ _ => rfl) fun _ => trivial

theorem silent_returnOutputs {p : M N (ApiResult × Outputs) Empty}
    (h : p.wp (fun a _ => a.elim) (fun r _ => Silent r) (fun _ => True) s) :
    (returnOutputs p).wp E (fun r _ => r.Silent) (fun _ => True) s := by
  simp only [returnOutputs, wp_bind, wp_call, wp_ret]
  refine wp_mono h (fun _ _ h => h) (fun r _ hr hv => hr fun hok => ?_) fun _ h => h
  exact hv (ApiResult.code_eq_zero.mpr hok)

theorem ecallFromUntrusted_silent (h : At L d s) (k : Call) :
    (ecallFromUntrusted img c ctx k).wp E (fun r _ => r.Silent) (fun _ => True) s := by
  cases k with
  | enclaveGetAttest => exact silent_returnOutputs (enclaveGetAttest_silent h)
  | getPublicField => exact silent_returnOutputs (getPublicField_silent h)
  | mailReceive => exact silent_returnOutputs (mailReceive_silent h)
  | regionOwner | regionState => exact silent_returnValue
  | enclaveMetadataPages | regionMetadataPages | regionMetadataStart | threadMetadataPages =>
    exact fun _ => rfl
  | enclaveExit | enclaveGetKeys | regionCheckOwned => exact fun _ => rfl
  | _ => exact silent_returnResult

theorem ecallFromEnclave_silent (h : At L d s) (k : Call) :
    (ecallFromEnclave c k).wp E (fun r _ => r.Silent) (fun _ => True) s := by
  cases k with
  | enclaveGetKeys => exact silent_returnOutputs (enclaveGetKeys_silent h)
  | getPublicField => exact silent_returnOutputs (getPublicField_silent h)
  | mailReceive => exact silent_returnOutputs (mailReceive_silent h)
  | enclaveExit | mailAccept | mailSend | regionBlock | regionCheckOwned => exact silent_returnResult
  | _ => exact fun _ => rfl

end

section
variable {img : Image N} {s s' : Config N} {l : Label N} {o : Option Reply} {c : Fin N}

theorem call_silent {k : Call} {ctx : TrapContext} (h : Step img s (.call c k ctx, o) s') :
    ∀ r, o = some r → r.Silent := by
  simp only [Step, exec] at h
  split at h
  · rename_i x hx
    obtain rfl := Option.some.inj h
    simp only [tryExec] at hx
    split_ifs at hx
    all_goals
      obtain ⟨r, t, ht, rfl, -⟩ := finish_eq_ok (Option.some.inj hx)
      intro r' hr'
      obtain rfl := Option.some.inj hr'
    · exact of_wp_ret (ecallFromUntrusted_silent (E := fun _ _ => True) s.at_start k) ht
    · exact of_wp_ret (ecallFromEnclave_silent (E := fun _ _ => True) s.at_start k) ht
  · cases h

theorem free_silent {r : Word} (h : Step img s (.regionFree c r, o) s') :
    ∀ r, o = some r → r.Silent := by
  simp only [Step, exec] at h
  split at h
  · rename_i x hx
    obtain rfl := Option.some.inj h
    simp only [tryExec] at hx
    split_ifs at hx
    · cases hx
      rintro _ ⟨⟩
      exact silent_ofResult _
    · cases hb : (regionFreeBegin r).run s.start with
      | next u t => rw [hb] at hx; cases hx; rintro _ ⟨⟩
      | ret x t => rw [hb] at hx; cases hx; rintro _ ⟨⟩; exact silent_ofResult _
      | fault f => rw [hb] at hx; cases hx
  · cases h

/-- A step of a `region_free` in progress changes data only if the call ends with
    `MONITOR_OK`. -/
theorem freeStep_reply (h : Step img s (.regionFreeStep c, o) s') :
    (∀ r, o = some r → r.Silent) ∧ (s'.data = s.data ∨ ∃ r, o = some r ∧ r.value = 0) := by
  obtain ⟨p, hp, hstep⟩ := step_freeStep h
  simp only [Step, exec, tryExec, hp, Option.map_some, execFreeStep] at h
  by_cases hn : p.next < N
  · have hd : s'.data = s.data := by
      cases hstep with
      | passed _ hd => exact hd
      | failed hd => exact hd
      | done hge => omega
    refine ⟨?_, .inl hd⟩
    rw [dif_pos hn] at h
    cases hx : (regionFreeCheck p.regionId ⟨p.next, hn⟩).run
        (⟨s.data, s.locks, p.lockedRegions⟩ : CallState N) with
    | next u t => rw [hx] at h; cases h; rintro _ ⟨⟩
    | ret x t => rw [hx] at h; cases h; rintro _ ⟨⟩; exact silent_ofResult _
    | fault f => rw [hx] at h; cases h
  · rw [dif_neg hn] at h
    split at h
    · rename_i x hx
      obtain rfl := Option.some.inj h
      obtain ⟨x, t, ht, rfl, -⟩ := finish_eq_ok (Option.some.inj hx)
      have hok := (of_wp_ret (regionFreeEnd_spec (E := fun _ _ => True) (F := fun _ => True)
        (at_resume s p) fun _ => trivial) ht).1
      subst hok
      exact ⟨by rintro _ ⟨⟩; exact silent_ofResult _, .inr ⟨_, rfl, rfl⟩⟩
    · cases h

/-- **A call that does not reply `MONITOR_OK` changes no data** and copies nothing out;
    neither does a `region_free` that has not finished. -/
theorem failed_call_unchanged (h : Step img s (l, o) s') (hl : l.IsApiCall)
    (ho : ∀ r, o = some r → r.value ≠ 0) :
    s'.data = s.data ∧ ∀ r, o = some r → r.outputs = [] := by
  cases l with
  | call c k ctx =>
    obtain ⟨r, hr, hdata, -⟩ := (step_call h).reply
    exact ⟨hdata (ho r hr), fun r hr => call_silent h r hr (ho r hr)⟩
  | regionFree c r => exact ⟨(step_free h).2.1, fun r hr => free_silent h r hr (ho r hr)⟩
  | regionFreeStep c =>
    obtain ⟨hs, hd | ⟨r, hr, hv⟩⟩ := freeStep_reply h
    · exact ⟨hd, fun r hr => hs r hr (ho r hr)⟩
    · exact absurd hv (ho r hr)
  | timer | userStore => exact hl.elim

end

set_option maxRecDepth 100000 in
/-- A page is refused when the walk of its address meets an entry that is not valid. -/
theorem failed_call_unchanged_loadPage : ∃ es s r s',
    Runs (Step smallImage) (smInit smallImage zeroBoot) es s ∧
    Step smallImage s
      (callOn 0 (.enclaveLoadPage firstEnclave 0x84004000 0x40000000 0x82000000 3), some r) s' ∧
    r.value = 2 ∧ s'.data = s.data := by
  obtain ⟨es, s, o, s', h, hs, ho⟩ : ∃ es s o s',
      Runs (Step smallImage) (smInit smallImage zeroBoot) es s ∧
      Step smallImage s
        (callOn 0 (.enclaveLoadPage firstEnclave 0x84004000 0x40000000 0x82000000 3), o) s' ∧
      o.map Reply.value = some 2 :=
    Runs.exists_step_of_runsOf (setupLabels ++ (buildLabels firstEnclave firstThread 0).take 4) _
      (by decide +kernel)
  obtain ⟨r, rfl, hr⟩ := Option.map_eq_some_iff.mp ho
  refine ⟨es, s, r, s', h, hs, hr, (failed_call_unchanged hs trivial fun r' hr' => ?_).1⟩
  rw [← Option.some.inj hr', hr]
  decide

/-! ## Lookups -/

/-- The values that stand for an owner: untrusted software, the monitor, and the ids of
    enclaves, which are page aligned. -/
def IsOwner (v : Word) : Prop := v = ownerUntrusted ∨ v = ownerSm ∨ isPageAligned v = true

/-- `region_owner` returns, and an owner that it returns is the owner of the region. -/
def OwnerLookup (s : CallState N) (r : Word) : Prop :=
  (regionOwner r).wp (fun _ _ => True)
    (fun v _ => IsOwner v → r.toNat < 64 ∧ v = (s.data.regions (toRegion r)).owner) (fun _ => False) s

/-- `sm_internal_region_state` returns, and a state that it returns is the state of the
    region. -/
def StateLookup (s : CallState N) (r : Word) : Prop :=
  (regionState r).wp (fun _ _ => True)
    (fun v _ => ∀ x : RegionState, x ≠ .invalid → v = x.code →
      r.toNat < 64 ∧ (s.data.regions (toRegion r)).state = x) (fun _ => False) s

/-- An address that passes the checks of `enclave_load_page` for `os_addr`, of its alignment and
    of its owner, lies in a region that untrusted software owns. -/
def OsAddrCheck (s : CallState N) (o : Word) : Prop :=
  o.toNat % pageSize = 0 → (regionOwner (addrToRegionId o)).wp (fun _ _ => True)
    (fun v _ => v = ownerUntrusted → (addrToRegionId o).toNat < 64 ∧
      (s.data.regions (toRegion (addrToRegionId o))).owner = ownerUntrusted) (fun _ => False) s

section
variable {s : CallState N} {r o : Word} {P : Word → Prop} {E : Empty → CallState N → Prop}
  {F : Fault → Prop}

/-- The two lookups, which lock the region to read a field of it. -/
def regionLookup (field : Region → Word) (r : Word) : M N Word Empty := do
  if !isValidRegionId r then ret ApiResult.invalidValue.code
  if !(← lockRegion r) then ret ApiResult.concurrentCall.code
  let d ← getData
  unlockRegion r
  ret (field (d.regions (toRegion r)))

/-- What a lookup returns. -/
def lookupValue (field : Region → Word) (s : CallState N) (r : Word) : Word :=
  if r.toNat < 64 then
    if s.locks (.region (toRegion r)) = true then ApiResult.concurrentCall.code
    else field (s.data.regions (toRegion r))
  else ApiResult.invalidValue.code

theorem regionLookup_value (field : Region → Word) :
    (regionLookup field r).wp E (fun v _ => P v) F s ↔ P (lookupValue field s r) := by
  simp only [regionLookup, lockRegion, unlockRegion, wp_bind, wp_ite, wp_ret, wp_regionIndex,
    Bool.not_eq_true', isValidRegionId_eq_false, not_not, lookupValue]
  by_cases hr : r.toNat < 64
  · simp only [hr, not_true_eq_false, false_implies, true_implies, and_true, true_and, if_true]
    show ((!s.locks (.region (toRegion r))) = false → P _) ∧
      (¬ ((!s.locks (.region (toRegion r))) = false) → P _) ↔ _
    cases s.locks (.region (toRegion r)) with
    | true => exact ⟨fun h => h.1 rfl, fun h => ⟨fun _ => h, fun hn => absurd rfl hn⟩⟩
    | false => exact ⟨fun h => h.2 (by simp), fun h => ⟨fun hn => absurd hn (by simp), fun _ => h⟩⟩
  · simp [hr]

theorem regionOwner_value :
    (regionOwner r).wp E (fun v _ => P v) F s ↔ P (lookupValue Region.owner s r) :=
  regionLookup_value Region.owner

theorem regionState_value :
    (regionState r).wp E (fun v _ => P v) F s ↔ P (lookupValue (fun x => x.state.code) s r) :=
  regionLookup_value fun x => x.state.code

theorem RegionState.code_inj {x y : RegionState} (h : x.code = y.code) : x = y := by
  cases x <;> cases y <;> first | rfl | exact absurd h (by decide)

theorem ownerLookup_iff : OwnerLookup s r ↔ r.toNat < 64 := by
  refine regionOwner_value.trans ⟨fun h => ?_, fun hr hv => ⟨hr, ?_⟩⟩
  · by_contra hr
    rw [lookupValue, if_neg hr] at h
    exact hr (h (.inl rfl)).1
  · rw [lookupValue, if_pos hr] at hv ⊢
    split_ifs at hv ⊢
    · exact absurd hv (by unfold IsOwner; decide)
    · rfl

theorem stateLookup_iff : StateLookup s r ↔ r.toNat < 64 ∧ (s.locks (.region (toRegion r)) = true →
    (s.data.regions (toRegion r)).state = .blocked) := by
  refine regionState_value.trans ⟨fun h => ?_, fun ⟨hr, hlock⟩ x hx hv => ⟨hr, ?_⟩⟩
  · have hr : r.toNat < 64 := by
      by_contra hr
      rw [lookupValue, if_neg hr] at h
      exact hr (h .free (by decide) rfl).1
    refine ⟨hr, fun hl => ?_⟩
    rw [lookupValue, if_pos hr, if_pos hl] at h
    exact (h .blocked (by decide) rfl).2
  · rw [lookupValue, if_pos hr] at hv
    split_ifs at hv with hl
    · rw [hlock hl]
      exact RegionState.code_inj hv
    · exact RegionState.code_inj hv

theorem osAddrCheck_iff : OsAddrCheck s o ↔ o.toNat % pageSize ≠ 0 ∨ (addrToRegionId o).toNat < 64 := by
  rw [OsAddrCheck, regionOwner_value]
  constructor
  · intro h
    by_contra hn
    obtain ⟨ha, hr⟩ := not_or.mp hn
    have hpass := h (not_not.mp ha)
    rw [lookupValue, if_neg hr] at hpass
    exact hr (hpass rfl).1
  · rintro (ha | hr) ha' hv
    · exact absurd ha' ha
    rw [lookupValue, if_pos hr] at hv
    split_ifs at hv
    · exact absurd hv (by decide)
    · exact ⟨hr, hv⟩

/-- **The lookups mistake an error for an answer exactly as follows.**  An id that is not
    valid is reported as owned by untrusted software and as free, a locked region as blocked;
    so the checks of `enclave_load_page` let every page outside RAM pass. -/
theorem lookups_iff (s : CallState N) (r o : Word) :
    (OwnerLookup s r ↔ r.toNat < 64) ∧
    (StateLookup s r ↔ r.toNat < 64 ∧ (s.locks (.region (toRegion r)) = true →
      (s.data.regions (toRegion r)).state = .blocked)) ∧
    (OsAddrCheck s o ↔ o.toNat % pageSize ≠ 0 ∨ (addrToRegionId o).toNat < 64) :=
  ⟨ownerLookup_iff, stateLookup_iff, osAddrCheck_iff⟩

end

set_option maxRecDepth 100000 in
/-- After boot, region 64 is owned by untrusted software and free, and the address 0 passes
    the checks for `os_addr`. -/
theorem lookups_fail :
    ¬ OwnerLookup (smInit smallImage zeroBoot).start 64 ∧
    ¬ StateLookup (smInit smallImage zeroBoot).start 64 ∧
    ¬ OsAddrCheck (smInit smallImage zeroBoot).start 0 ∧
    ∃ s s' s'', Step smallImage (smInit smallImage zeroBoot)
        (callOn 0 (.regionOwner 64), some ⟨ownerUntrusted, []⟩) s ∧
      Step smallImage s (callOn 0 (.regionState 64), some ⟨RegionState.free.code, []⟩) s' ∧
      Step smallImage s' (callOn 0 (.regionOwner (addrToRegionId 0)), some ⟨ownerUntrusted, []⟩) s'' := by
  refine ⟨fun h => ?_, fun h => ?_, fun h => ?_, ?_⟩
  · exact absurd (h (.inl rfl)).1 (by decide)
  · exact absurd (h .free (by decide) rfl).1 (by decide)
  · exact absurd (h rfl rfl).1 (by decide)
  · exact ⟨_, _, _, rfl, rfl, rfl⟩

end SecurityMonitor
