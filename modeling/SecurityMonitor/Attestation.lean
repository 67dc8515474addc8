/-
  Attestation (`src/api/enclave_init.c`, `src/api/enclave_get_attest.c`,
  `src/api/enclave_get_keys.c`).

  `enclave_init` derives a key pair from the measurement of the enclave and a secret of
  the monitor, and signs the measurement together with the public key.  Later calls hand
  these values out: `enclave_get_attest` to untrusted software, `enclave_get_keys` with
  the secret key to the enclave itself.

  * `certify`: what follows from a measurement, with the keys of the monitor;
  * `Certified`: an initialised enclave has the identity that follows from its
    measurement; every step keeps this (`Certified.step`), since the keys of the monitor
    never change (`step_keys`);
  * `step_answer`: what the two calls copy out;
  * `attestation_genuine`: the answer is the identity of the logged build;
  * `mail_attested`: so is the measurement that comes with a message.

  `enclave_get_keys` does not check that the enclave is initialised.  That it is follows
  from the invariant of the cores: only initialised enclaves are entered.
-/
import SecurityMonitor.Measurement
import SecurityMonitor.Mailboxes

namespace SecurityMonitor

open ByteMem Prog

variable {N : ℕ} {img : Image N} {boot : Boot N} {s s' : Config N} {d d' : Data N} {c : Fin N}
  {e : Word} {k : Call} {L : LockId N → Bool} {ctx : TrapContext} {ev : Event N}
  {hist : List (Config N × Event N)} {r : Reply}

/-! ## Identities -/

/-- The measurement of an enclave with its keys and their attestation. -/
structure Identity where
  measurement : Bytes 64
  publicKey : Bytes 32
  secretKey : Bytes 64
  attestation : Bytes 64

def EnclaveMetadata.identity (E : EnclaveMetadata) : Identity :=
  ⟨E.measurement, E.publicKey, E.secretKey, E.attestation⟩

/-- What follows from a measurement: the keys, and a signature of the measurement and the
    public key with the key of the monitor. -/
def certify (img : Image N) (keys : Keys) (m : Bytes 64) : Identity :=
  let sk := createSecretSigningKey (hashOf₂ (List.ofFn keys.softwareSecretKey) (List.ofFn m))
  let pk := img.computePublicSigningKey sk
  ⟨m, pk, sk, img.sign (List.ofFn (hashOf₂ (List.ofFn m) (List.ofFn pk)))
    keys.softwarePublicKey keys.softwareSecretKey⟩

/-- The identity of an enclave that is built by `ms` after an `enclave_create` with `p`. -/
def identityOf (img : Image N) (keys : Keys) (p : CreateParams) (ms : List MeasuredCall) : Identity :=
  certify img keys (sha512Digest (measuredStream img.enclaveHandler p ms))

/-- An initialised enclave has the identity that follows from its measurement. -/
def Certified (img : Image N) (keys : Keys) (E : EnclaveMetadata) : Prop :=
  E.initState = enclaveStateInitialized → E.identity = certify img keys E.measurement

theorem Frozen.identity {E E' : EnclaveMetadata} (h : Frozen E E') : E'.identity = E.identity := by
  rw [h]
  rfl

theorem initRecord_certified (keys : Keys) (E : EnclaveMetadata) :
    Certified img keys (initRecord img keys E) :=
  fun _ => rfl

theorem Admits.ne_initialized {st st' : BitVec 32} {m : MeasuredCall} (h : Admits st m st') :
    st' ≠ enclaveStateInitialized := by
  cases h <;> decide

/-- Measured calls alone do not initialise an enclave. -/
theorem building_ne_initialized {st : BitVec 32} {ms : List MeasuredCall}
    (h : Runs Admits enclaveStateCreated ms st) : st ≠ enclaveStateInitialized :=
  Runs.invariant (I := fun st => st ≠ enclaveStateInitialized) h (by decide)
    fun _ _ _ _ hadm => hadm.ne_initialized

/-! ## The keys of the monitor -/

/-- A loop keeps the keys if its body does. -/
theorem foldl_keys {α : Type} {f : Data N → α → Data N} (hf : ∀ d a, (f d a).keys = d.keys) (as : List α)
    (d : Data N) : (as.foldl f d).keys = d.keys := by
  induction as generalizing d with
  | nil => rfl
  | cons a as ih => rw [List.foldl_cons, ih, hf]

theorem deleteEnclave_keys (d : Data N) (e : Word) : (deleteEnclave d e).keys = d.keys := by
  have hbody (d : Data N) (i : Fin 64) : (blockEnclaveRegion e d i).keys = d.keys := by
    rw [blockEnclaveRegion]
    split_ifs <;> rfl
  simp only [deleteEnclave, foldl_keys hbody]

theorem EntryLoaded.keys {p v l acl : Word} (h : EntryLoaded d e p v l acl d') : d'.keys = d.keys := by
  obtain ⟨-, rfl⟩ | ⟨-, base, -, rfl⟩ := h <;> rfl

/-- No call changes the keys of the monitor. -/
theorem effect_keys (hE : Effect img L c ctx d k d') : d'.keys = d.keys := by
  cases k with
  | enclaveDelete f => rw [hE.2, deleteEnclave_keys]
  | enclaveLoadPageTable f p v l acl | enclaveLoadPage f p v o acl =>
    obtain ⟨-, d₁, hload, rfl⟩ := hE
    exact hload.keys
  | mailAccept id x =>
    rw [hE.2, acceptMail]
    split_ifs <;> rfl
  | mailReceive id m o =>
    rw [hE.2.2, receiveMail]
    split_ifs <;> rfl
  | mailSend x id msg =>
    rw [hE.2, sendMail]
    split_ifs <;> rfl
  | enclaveInit f => rw [hE.2.2]
  | threadDelete t => rw [hE.2.2]
  | threadLoad f t pc sp l => rw [hE.2.2.2]
  | regionMetadataCreate r => rw [hE.2.2.2]; rfl
  | enclaveEnter f t => rw [hE.2.2]; rfl
  | enclaveCreate | enclaveLoadHandler => rw [hE.2]
  | enclaveExit | regionCachePartitioning => rw [hE.2]; rfl
  | regionAssign r o =>
    rw [hE.2, assignRegion]
    split_ifs <;> rfl
  | regionBlock r =>
    rw [hE.2, blockRegion]
    split_ifs <;> rfl
  | regionUpdate => rw [show d' = _ from hE]; rfl
  | _ => rw [show d' = d from hE]

theorem step_keys (hs : Step img s ev s') : s'.data.keys = s.data.keys := by
  obtain ⟨l, o⟩ := ev
  cases l with
  | call c k ctx =>
    obtain ⟨r, -, hne, hE⟩ := (step_call hs).reply
    by_cases hv : r.value = 0
    · exact effect_keys (hE hv)
    · rw [hne hv]
  | regionFree c r => rw [(step_free hs).2.1]
  | regionFreeStep c =>
    obtain ⟨p, -, hfree⟩ := step_freeStep hs
    cases hfree with
    | passed _ hd => rw [hd]
    | failed hd => rw [hd]
    | done _ hd => rw [hd]; rfl
  | timer c regs => rw [(step_timer hs).2.2.2.2]; rfl
  | userStore c a v => rw [(step_store hs).2.2]

theorem smInit_keys (img : Image N) (boot : Boot N) : (smInit img boot).data.keys = boot.keys := by
  have hbody (d : Data N) (c : Fin N) : (initCore img d c).keys = d.keys := rfl
  exact foldl_keys hbody (List.finRange N) (initState boot)

theorem CarefulHistory.keys_eq (hr : CarefulHistory img boot hist s) : s.data.keys = boot.keys :=
  Runs.invariant (I := fun s => s.data.keys = boot.keys) hr.run (smInit_keys img boot)
    fun _ _ _ h hs => (step_keys hs.1).trans h

/-! ## Certificates -/

/-- A successful call keeps the certificates. -/
theorem Certified.effect (h : Certified img d.keys (d.enclave e)) (hE : Effect img L c ctx d k d') :
    Certified img d.keys (changeRecord img d c e k (d.enclave e)) := by
  intro hi
  by_cases hstate : (d.enclave e).initState = enclaveStateInitialized
  · have hfrozen := changeRecord_frozen hE hstate
    rw [hfrozen.identity, h hstate]
    rw [Frozen] at hfrozen
    rw [hfrozen]
  · cases hm : measuredCall d e k with
    | some m => exact absurd hi (changeRecord_measured hE hm).1.ne_initialized
    | none =>
      by_cases hk : k = .enclaveInit e
      · subst hk
        simp only [changeRecord, if_true] at hi ⊢
        exact initRecord_certified _ _ hi
      · rw [(changeRecord_unmeasured img c _ hm hk).2] at hi
        exact absurd hi hstate

theorem Certified.step (hs : CarefulStep img s ev s') (hinv : SystemInv img s)
    (he : ValidMetadata s.data e .enclave) (he' : ValidMetadata s'.data e .enclave)
    (h : Certified img s.data.keys (s.data.enclave e)) : Certified img s.data.keys (s'.data.enclave e) := by
  rw [hs.record_eq hinv he he']
  obtain ⟨l, o⟩ := ev
  cases l with
  | call c k ctx =>
    obtain ⟨r, rfl, -, hE⟩ := (step_call hs.1).reply
    simp only [eventChange]
    split_ifs with hv
    · exact h.effect (hE hv)
    · exact h
  | _ => exact h

/-- A new enclave is not initialised. -/
theorem EventCreates.certified {keys : Keys} {E : EnclaveMetadata} (h : EventCreates ev e E) :
    Certified img keys E := by
  intro hi
  obtain ⟨p, -, hbuild⟩ : ∃ p, createdWith e ev = some p ∧ BuildState img.enclaveHandler p [] E :=
    h.buildState
  cases hbuild with
  | building run => exact absurd hi (building_ne_initialized run)
  | initialized _ build => exact absurd build.nil_inv (by decide)

/-- **In every careful run every initialised enclave is certified.** -/
theorem CarefulHistory.certified (hr : CarefulHistory img boot hist s)
    (he : ValidMetadata s.data e .enclave) : Certified img boot.keys (s.data.enclave e) := by
  induction hr with
  | nil => exact absurd he (smInit_booting img boot).not_valid
  | @snoc s s' hist x hr hs ih =>
    obtain ⟨s₀, ev⟩ := x
    obtain ⟨heq, hs⟩ := hs
    obtain rfl : s = s₀ := heq.symm
    have hinv : SystemInv img s := (CarefulHistory.run hr).inv
    have hkeys : s.data.keys = boot.keys := CarefulHistory.keys_eq hr
    obtain ⟨L, hstep⟩ := (step_inv hinv hs.2 hs.1).2
    by_cases hlive : ValidMetadata s.data e .enclave
    · rw [← hkeys] at ih ⊢
      exact (ih hlive).step hs hinv hlive he
    · exact ((hstep.records.live e he).resolve_left hlive).certified

/-- The identity of an initialised enclave is that of its log. -/
theorem CarefulHistory.identity_eq (hr : CarefulHistory img boot hist s)
    (he : ValidMetadata s.data e .enclave) (hi : (s.data.enclave e).initState = enclaveStateInitialized) :
    ∃ p ms, logOf e hist = some (p, ms) ∧ Build ms ∧
      (s.data.enclave e).identity = identityOf img boot.keys p ms := by
  obtain ⟨p, ms, hlog, hbuild⟩ := hr.logged he
  cases hbuild with
  | building run => exact absurd hi (building_ne_initialized run)
  | initialized _ build measurement =>
    refine ⟨p, ms, hlog, build, ?_⟩
    rw [hr.certified he hi, measurement, identityOf]

/-! ## The calls that hand out an identity -/

/-- The call asks for the identity of the enclave at `e`. -/
def AsksFor (d : Data N) (c : Fin N) (e : Word) : Call → Prop
  | .enclaveGetAttest f _ _ _ => f = e
  | .enclaveGetKeys _ _ _ _ => (d.cores c).owner = e
  | _ => False

/-- What the calls copy out for an enclave with identity `i`. -/
def Identity.answer (i : Identity) : Call → Outputs
  | .enclaveGetAttest _ m pk a =>
    [(m, List.ofFn i.measurement), (pk, List.ofFn i.publicKey), (a, List.ofFn i.attestation)]
  | .enclaveGetKeys m pk sk a =>
    [(m, List.ofFn i.measurement), (pk, List.ofFn i.publicKey), (sk, List.ofFn i.secretKey),
      (a, List.ofFn i.attestation)]
  | _ => []

/-- `e` is an enclave, and the outputs are those of its identity. -/
def Answers (d : Data N) (e : Word) (k : Call) (o : Outputs) : Prop :=
  ValidMetadata d e .enclave ∧ o = (d.enclave e).identity.answer k

section
variable {E : Empty → CallState N → Prop} {t : CallState N}

theorem enclaveGetAttest_answers {m pk a : Word} (h : At L d t) :
    (enclaveGetAttest e m pk a).wp E (fun x _ => x.1 = .ok →
      (d.enclave e).initState = enclaveStateInitialized ∧ Answers d e (.enclaveGetAttest e m pk a) x.2)
      (fun _ => True) t := by
  simp only [enclaveGetAttest, wp_bind, wp_ite, wp_ret, wp_call, ne_eq, not_not]
  refine h.addLockRegionIffValidMetadata (fun t ht hv _ => ⟨fun hn => absurd rfl hn, fun _ =>
    ht.getData ⟨fun _ => ?_, fun hi => ?_⟩⟩) fun t x ht hx =>
      ⟨fun _ hok => absurd hok hx, fun hok => absurd hok hx⟩
  · exact ht.unlockRegions fun t _ hok => absurd hok (by decide)
  · exact ht.unlockRegions fun t _ _ => ⟨hi, hv, rfl⟩

theorem enclaveGetKeys_answers {m pk sk a : Word} (h : At L d t) :
    (enclaveGetKeys c m pk sk a).wp E (fun x _ => x.1 = .ok →
      Answers d (d.cores c).owner (.enclaveGetKeys m pk sk a) x.2) (fun _ => True) t := by
  simp only [enclaveGetKeys, wp_bind, wp_ite, wp_ret, wp_call, ne_eq, not_not]
  exact h.getData (h.addLockRegionIffValidMetadata (fun t ht hv _ => ⟨fun hn => absurd rfl hn,
    fun _ => ht.unlockRegions fun t _ _ => ⟨hv, rfl⟩⟩)
    fun t x ht hx => ⟨fun _ hok => absurd hok hx, fun hok => absurd hok hx⟩)

/-- What the dispatch makes of a result with outputs. -/
theorem wp_returnOutputs_ok {p : M N (ApiResult × Outputs) Empty} {Q : Outputs → Prop}
    (h : p.wp (fun a _ => a.elim) (fun x _ => x.1 = .ok → Q x.2) (fun _ => True) t) :
    (returnOutputs p).wp E (fun r _ => r.value = 0 → Q r.outputs) (fun _ => True) t := by
  simp only [returnOutputs, wp_bind, wp_call, wp_ret]
  exact wp_mono h (fun _ _ h => h) (fun x _ hx hv => hx (ApiResult.code_eq_zero.mp hv)) fun _ h => h

end

/-- A call that returns is a run of its dispatcher. -/
theorem step_run (h : Step img s (.call c k ctx, some r) s') :
    ∃ t, (if (s.data.cores c).owner = ownerUntrusted then ecallFromUntrusted img c ctx k
      else ecallFromEnclave c k).run s.start = .ret r t := by
  simp only [Step, exec, tryExec] at h
  cases hp : s.pending c with
  | some p => simp [hp] at h
  | none =>
    simp only [hp, Option.isSome_none, Bool.false_eq_true, if_false] at h
    split at h
    · rename_i x hx
      simp only [Option.some.injEq] at hx h
      subst h
      obtain ⟨r', t, ht, hr, -⟩ := finish_eq_ok hx
      obtain rfl : r = r' := Option.some.inj hr
      exact ⟨t, ht⟩
    · cases h

/-- **What the two calls answer.**  They succeed for initialised enclaves only. -/
theorem step_answer (hinv : SystemInv img s) (hs : Step img s (.call c k ctx, some r) s')
    (hask : AsksFor s.data c e k) (hv : r.value = 0) :
    (s.data.enclave e).initState = enclaveStateInitialized ∧ Answers s.data e k r.outputs := by
  obtain ⟨t, ht⟩ := step_run hs
  cases k with
  | enclaveGetAttest f m pk a =>
    obtain rfl : f = e := hask
    split_ifs at ht with hu
    · exact of_wp_ret (wp_returnOutputs_ok (E := fun _ _ => True)
        (Q := fun o => _ ∧ Answers s.data f (.enclaveGetAttest f m pk a) o)
        (enclaveGetAttest_answers s.at_start)) ht hv
    · cases ht
      exact absurd hv (by decide)
  | enclaveGetKeys m pk sk a =>
    obtain rfl : (s.data.cores c).owner = e := hask
    split_ifs at ht with hu
    · cases ht
      exact absurd hv (by decide)
    · have h : Answers s.data (s.data.cores c).owner (.enclaveGetKeys m pk sk a) r.outputs :=
        of_wp_ret (wp_returnOutputs_ok (E := fun _ _ => True)
          (Q := Answers s.data (s.data.cores c).owner (.enclaveGetKeys m pk sk a))
          (enclaveGetKeys_answers s.at_start)) ht hv
      exact ⟨hinv.heap.initialized c h.1, h⟩
  | _ => exact hask.elim

/-- **What the monitor attests is the log.**  Whatever the cores have done before, if
    `enclave_get_attest` or `enclave_get_keys` succeeds for an enclave, then its log is a complete
    build, and the measurement, the keys and the signature that the call copies out are those that
    follow from the log and the keys with which the monitor was booted. -/
theorem attestation_genuine (hr : CarefulHistory img boot hist s)
    (hs : Step img s (.call c k ctx, some r) s') (hask : AsksFor s.data c e k) (hv : r.value = 0) :
    ∃ p ms, logOf e hist = some (p, ms) ∧ Build ms ∧
      r.outputs = (identityOf img boot.keys p ms).answer k := by
  obtain ⟨hi, he, hout⟩ := step_answer hr.run.inv hs hask hv
  obtain ⟨p, ms, hlog, hbuild, hid⟩ := hr.identity_eq he hi
  exact ⟨p, ms, hlog, hbuild, by rw [hout, hid]⟩

set_option maxRecDepth 100000 in
/-- Untrusted software asks for the attestation of the first enclave. -/
theorem attestation_genuine_first : ∃ hist s r s', CarefulHistory smallImage zeroBoot hist s ∧
    Step smallImage s (callOn 0 (.enclaveGetAttest firstEnclave 0 64 96), some r) s' ∧ r.value = 0 ∧
    ∃ p ms, logOf firstEnclave hist = some (p, ms) ∧ Build ms ∧ r.outputs =
      (identityOf smallImage zeroBoot.keys p ms).answer (.enclaveGetAttest firstEnclave 0 64 96) := by
  obtain ⟨es, s, o, s', h, hs, ho⟩ : ∃ es s o s', CarefulRun smallImage zeroBoot es s ∧
      CarefulStep smallImage s (callOn 0 (.enclaveGetAttest firstEnclave 0 64 96), o) s' ∧
      o.map Reply.value = some 0 :=
    CarefulRun.exists_step_of_labels (setupLabels ++ buildLabels firstEnclave firstThread 0) _
      (by decide +kernel)
  obtain ⟨hist, hh, -⟩ := h.traced
  obtain ⟨r, rfl, hr⟩ := Option.map_eq_some_iff.mp ho
  exact ⟨hist, s, r, s', hh, hs.1, hr, attestation_genuine hh hs.1 rfl hr⟩

/-! ## Messages -/

/-- A message is sent by a core that runs its sender. -/
theorem mailEvent_put_owner {owner id sender : Word} {mail : Mail} {z : Config N × Event N}
    (h : mailEvent owner id z = some (.put sender mail)) : ∃ c, (z.1.data.cores c).owner = sender := by
  obtain ⟨s, l, o⟩ := z
  simp only [mailEvent] at h
  split at h
  · rename_i c k ctx r heq
    obtain ⟨rfl, heq⟩ := Prod.mk.inj heq
    split_ifs at h
    cases k <;> simp only [callMail, reduceCtorEq] at h <;> split_ifs at h <;> cases h
    exact ⟨c, rfl⟩
  · cases h

/-- **A message comes with the log of its sender.**  When `mail_receive` succeeds, its message has been
    sent before.  If the sender is an enclave, then the measurement that is copied out with the message
    is that of a complete build, the one that the log of the enclave showed when it sent the message. -/
theorem mail_attested {id out outM : Word} (hr : SparingHistory img boot hist s)
    (hs : Step img s (.call c (.mailReceive id out outM) ctx, some r) s') (hv : r.value = 0) :
    ∃ h₁ send h₂ sender m message, hist = h₁ ++ send :: h₂ ∧
      mailEvent (s.data.cores c).owner id send = some (.put sender (m, message)) ∧
      r.outputs = [(outM, List.ofFn m), (out, List.ofFn message)] ∧
      (sender ≠ ownerUntrusted → ∃ p ms, logOf sender h₁ = some (p, ms) ∧ Build ms ∧
        m = (identityOf img boot.keys p ms).measurement) := by
  have hinv := hr.careful.run.inv
  have hcall := step_call hs
  obtain ⟨r', hr', -, hE⟩ := hcall.reply
  obtain rfl := Option.some.inj hr'
  obtain ⟨hid, hfull, -⟩ := hE hv
  obtain ⟨st, hrun, hst⟩ := history_slot hr.careful (s.data.cores c).owner id
  have hst := hst (hinv.heap.hasMailbox hid)
  rw [slotOf, if_pos hfull] at hst
  rw [hst] at hrun
  obtain ⟨h₁, accept, h₂, send, h₃, heq, -, hput, -, -⟩ := Slot.full_history hrun
  refine ⟨h₁ ++ accept :: h₂, send, h₃, _, _, _, heq, hput, hcall.copies r rfl hv, fun hne => ?_⟩
  -- the history up to the message is one in which the sender is alive
  rw [heq] at hr
  obtain ⟨s₁, s₂, hpre, ⟨hsend, -⟩, -⟩ := Runs.split_cons hr
  have hpre : SparingHistory img boot (h₁ ++ accept :: h₂) s₁ := hpre
  obtain ⟨c', hc'⟩ := mailEvent_put_owner hput
  have hmeas := mailEvent_put hput
  rw [hsend] at hc' hmeas
  rw [senderMeasurementOf, if_neg hne] at hmeas
  have hrunning : (s₁.data.cores c').owner ≠ ownerUntrusted := by rwa [hc']
  obtain ⟨ctx', x, hentered⟩ := hpre.entered hrunning
  have hvalid := hentered.runs.enclave
  have hi := hpre.careful.run.inv.heap.initialized c' hvalid
  rw [hc'] at hvalid hi
  obtain ⟨p, ms, hlog, hbuild, hidentity⟩ := hpre.careful.identity_eq hvalid hi
  exact ⟨p, ms, hlog, hbuild, hmeas.trans (congrArg Identity.measurement hidentity)⟩

/-- Untrusted software waits for a message of the first enclave, which sends one. -/
def messageLabels : List (Label 2) :=
  setupLabels ++ buildLabels firstEnclave firstThread 0 ++ [callOn 0 (.mailAccept 0 firstEnclave),
    callOn 1 (.enclaveEnter firstEnclave firstThread), callOn 1 (.mailSend ownerUntrusted 0 fun _ => 7)]

set_option maxRecDepth 100000 in
/-- Untrusted software receives the message. -/
theorem mail_attested_enclave : ∃ hist s r s', SparingHistory smallImage zeroBoot hist s ∧
    Step smallImage s (receiveLabel, some r) s' ∧ r.value = 0 ∧ (s.data.cores 1).owner = firstEnclave ∧
    ∃ h₁ send h₂ sender m message, hist = h₁ ++ send :: h₂ ∧
      mailEvent (s.data.cores 0).owner 0 send = some (.put sender (m, message)) ∧
      r.outputs = [(0, List.ofFn m), (0, List.ofFn message)] ∧
      (sender ≠ ownerUntrusted → ∃ p ms, logOf sender h₁ = some (p, ms) ∧ Build ms ∧
        m = (identityOf smallImage zeroBoot.keys p ms).measurement) := by
  obtain ⟨hist, s, h, ho, hany⟩ : ∃ hist s, SparingHistory smallImage zeroBoot hist s ∧
      (s.data.cores 1).owner = firstEnclave ∧
      (exec smallImage s receiveLabel).any (fun y => decide (y.1.map Reply.value = some 0)) = true :=
    SparingHistory.exists_of_labels messageLabels (by decide +kernel)
  obtain ⟨⟨o, s'⟩, hs, hv⟩ := (Option.any_eq_true _ _).mp hany
  obtain ⟨r, rfl, hr⟩ := Option.map_eq_some_iff.mp (of_decide_eq_true hv)
  exact ⟨hist, s, r, s', h, hs, hr, ho, mail_attested h hs hr⟩

end SecurityMonitor
