/-
  The measurement of an enclave is the log of its build.

  The abstract build of an enclave is its `enclave_create` and the list of the calls
  that are measured (`MeasuredCall`), each admitted in the `init_state` that the calls
  before it have led to (`Admits`).  Over a run,

  * `logOf e hist`: the parameters of the last `enclave_create` of `e` in the
    history, and the successful measured calls on `e` since then;
  * `BuildState`: the hash context of an enclave has absorbed the log, until
    `enclave_init` turns it into the measurement;
  * `CarefulHistory.logged`: this is so for every enclave in every careful run;
  * `measurement_log` adds what later calls may change.
-/
import SecurityMonitor.Accounting

namespace SecurityMonitor

open ByteMem

variable {N : ℕ} {img : Image N} {boot : Boot N} {s s' : Config N} {d d' : Data N} {c : Fin N}
  {e : Word} {k : Call} {L : LockId N → Bool} {ctx : TrapContext} {ev : Event N}
  {hist : List (Config N × Event N)}

/-! ## Builds -/

/-- A call that is measured, with what it adds to the measurement. -/
inductive MeasuredCall where
  | handler
  | pageTable (virtualAddr level acl : Word)
  | page (virtualAddr acl : Word) (contents : Bytes pageSize)
  | thread (entryPc entryStack timerLimit : Word)
  deriving DecidableEq

/-- The parameters of `enclave_create`. -/
structure CreateParams where
  evBase : Word
  evMask : Word
  numMailboxes : Word
  debug : Bool
  deriving DecidableEq

/-- The bytes passed to `hash_extend`, with `handler` the image of the handler. -/
def MeasuredCall.bytes (handler : List Byte) : MeasuredCall → List Byte
  | .handler => handler
  | .pageTable v l acl => wordBytes v ++ wordBytes l ++ wordBytes acl
  | .page v acl contents => wordBytes v ++ wordBytes acl ++ List.ofFn contents
  | .thread pc sp l => wordBytes pc ++ wordBytes sp ++ wordBytes l

def CreateParams.bytes (p : CreateParams) : List Byte :=
  wordBytes p.evBase ++ wordBytes p.evMask ++ wordBytes p.numMailboxes ++ [if p.debug then 1 else 0]

/-- Everything that a build passes to `hash_extend`. -/
def measuredStream (handler : List Byte) (p : CreateParams) (ms : List MeasuredCall) : List Byte :=
  p.bytes ++ ms.flatMap (MeasuredCall.bytes handler)

/-- The access control lists that `load_page_table` accepts. -/
def ValidAcl (acl : Word) : Prop := acl &&& pteV ≠ 0 ∧ ¬ (acl &&& pteR = 0 ∧ acl &&& pteW = pteW)

/-- The access control lists that `load_page` accepts. -/
def LeafAcl (acl : Word) : Prop := ValidAcl acl ∧ ¬ (acl &&& pteR = 0 ∧ acl &&& pteX = 0)

/-- A measured call is accepted in one `init_state` and leads to another. -/
inductive Admits : BitVec 32 → MeasuredCall → BitVec 32 → Prop
  | handler : Admits enclaveStateCreated .handler enclaveStateHandlerLoaded
  | pageTable {st : BitVec 32} {v l acl : Word}
      (hs : st = enclaveStateHandlerLoaded ∨ st = enclaveStatePageTablesLoaded) (hl : l.toNat ≤ 3)
      (hv : ValidAcl acl) (hm : (acl &&& pteR ≠ 0 ∨ acl &&& pteX ≠ 0) → l = 0) :
      Admits st (.pageTable v l acl) enclaveStatePageTablesLoaded
  | page {st : BitVec 32} {v acl : Word} {contents : Bytes pageSize}
      (hs : st = enclaveStatePageTablesLoaded ∨ st = enclaveStatePageDataLoaded) (hv : LeafAcl acl) :
      Admits st (.page v acl contents) enclaveStatePageDataLoaded
  | thread {pc sp l : Word} :
      Admits enclaveStatePageDataLoaded (.thread pc sp l) enclaveStatePageDataLoaded

/-- The measured calls from `enclave_create` to `enclave_init`. -/
def Build (ms : List MeasuredCall) : Prop := Runs Admits enclaveStateCreated ms enclaveStatePageDataLoaded

theorem Admits.not_initialized {st' : BitVec 32} {m : MeasuredCall} :
    ¬ Admits enclaveStateInitialized m st' := by
  rintro (_ | ⟨hs | hs⟩ | ⟨hs | hs⟩ | _)
  all_goals exact absurd hs (by decide)

theorem Admits.state_le {st st' : BitVec 32} {m : MeasuredCall} (h : Admits st m st') : st ≤ st' := by
  cases h with
  | handler => decide
  | pageTable hs => rcases hs with rfl | rfl <;> decide
  | page hs => rcases hs with rfl | rfl <;> decide
  | thread => decide

/-! ## The log of a run -/

/-- What the call adds to the measurement of the enclave at `e`. -/
def measuredCall (d : Data N) (e : Word) : Call → Option MeasuredCall
  | .enclaveLoadHandler f _ => if f = e then some .handler else none
  | .enclaveLoadPageTable f _ v l acl => if f = e then some (.pageTable v l acl) else none
  | .enclaveLoadPage f _ v o acl => if f = e then some (.page v acl fun i => d.mem (off o i)) else none
  | .threadLoad f _ pc sp l => if f = e then some (.thread pc sp l) else none
  | _ => none

/-- What an event adds: nothing if the call fails. -/
def measuredEvent (e : Word) : Config N × Event N → Option MeasuredCall
  | (s, (.call _ k _, some r)) => if r.value = 0 then measuredCall s.data e k else none
  | _ => none

/-- The parameters with which the event creates the enclave at `e`. -/
def createdWith (e : Word) : Event N → Option CreateParams
  | (.call _ (.enclaveCreate f b mask n debug) _, some r) =>
    if f = e ∧ r.value = 0 then some ⟨b, mask, n, debug⟩ else none
  | _ => none

/-- The log of the enclave at `e` after a further event: a new enclave starts a new log. -/
def logStep (e : Word) (log : Option (CreateParams × List MeasuredCall)) (x : Config N × Event N) :
    Option (CreateParams × List MeasuredCall) :=
  match createdWith e x.2 with
  | some p => some (p, [])
  | none => log.map fun (p, ms) => (p, ms ++ (measuredEvent e x).toList)

/-- The parameters of the last `enclave_create` of `e` in the history, and the measured calls on
    `e` since then. -/
def logOf (e : Word) (hist : List (Config N × Event N)) : Option (CreateParams × List MeasuredCall) :=
  hist.foldl (logStep e) none

theorem logOf_append (x : Config N × Event N) : logOf e (hist ++ [x]) = logStep e (logOf e hist) x := by
  rw [logOf, List.foldl_append]
  rfl

theorem logOf_create {p : CreateParams} (h : createdWith e ev = some p) :
    logOf e (hist ++ [(s, ev)]) = some (p, []) := by
  rw [logOf_append, logStep, h]

theorem logOf_step {p : CreateParams} {ms : List MeasuredCall} (h : logOf e hist = some (p, ms))
    (hno : createdWith e ev = none) :
    logOf e (hist ++ [(s, ev)]) = some (p, ms ++ (measuredEvent e (s, ev)).toList) := by
  rw [logOf_append, logStep, hno, h]
  rfl

theorem memBytes_eq_ofFn (m : Mem) (a : Word) (n : ℕ) :
    memBytes m a n = List.ofFn fun i : Fin n => m (off a i) :=
  List.ext_getElem (by simp [memBytes]) fun i hi hi' => by simp [memBytes]

/-! ## Calls -/

/-- A measured call extends the hash context by its bytes, and is admitted. -/
theorem changeRecord_measured {m : MeasuredCall} (hE : Effect img L c ctx d k d')
    (hm : measuredCall d e k = some m) :
    Admits (d.enclave e).initState m (changeRecord img d c e k (d.enclave e)).initState ∧
      ∀ bs, Absorbed (d.enclave e).hashContext bs →
        Absorbed (changeRecord img d c e k (d.enclave e)).hashContext (bs ++ m.bytes img.enclaveHandler) := by
  cases k with
  | enclaveLoadHandler f p =>
    simp only [measuredCall] at hm
    split_ifs at hm with hf
    obtain rfl := Option.some.inj hm
    subst hf
    obtain ⟨hg, -⟩ := hE
    simp only [changeRecord, if_true, loadHandlerRecord, hg.state]
    exact ⟨.handler, fun bs ha => ha.update _⟩
  | enclaveLoadPageTable f p v l acl =>
    simp only [measuredCall] at hm
    split_ifs at hm with hf
    obtain rfl := Option.some.inj hm
    subst hf
    obtain ⟨hg, -⟩ := hE
    simp only [changeRecord, if_true, loadPageTableRecord, MeasuredCall.bytes, ← List.append_assoc]
    exact ⟨.pageTable hg.state hg.level_le ⟨hg.valid, hg.readable⟩ hg.noMegapage,
      fun bs ha => ((ha.update _).update _).update _⟩
  | enclaveLoadPage f p v o acl =>
    simp only [measuredCall] at hm
    split_ifs at hm with hf
    obtain rfl := Option.some.inj hm
    subst hf
    obtain ⟨hg, -⟩ := hE
    simp only [changeRecord, if_true, loadPageRecord, MeasuredCall.bytes, ← List.append_assoc,
      ← memBytes_eq_ofFn]
    exact ⟨.page hg.state ⟨⟨hg.valid, hg.readable⟩, hg.leaf⟩, fun bs ha => ((ha.update _).update _).update _⟩
  | threadLoad f t pc sp l =>
    simp only [measuredCall] at hm
    split_ifs at hm with hf
    obtain rfl := Option.some.inj hm
    subst hf
    obtain ⟨-, hst, -⟩ := hE
    simp only [changeRecord, if_true, loadThreadRecord, MeasuredCall.bytes, ← List.append_assoc, hst]
    exact ⟨.thread, fun bs ha => ((ha.update _).update _).update _⟩
  | _ => cases hm

/-- Other calls leave the hash context and the state alone, but for `enclave_init`. -/
theorem changeRecord_unmeasured (img : Image N) (c : Fin N) (E : EnclaveMetadata)
    (hm : measuredCall d e k = none) (hk : k ≠ .enclaveInit e) :
    (changeRecord img d c e k E).hashContext = E.hashContext ∧
      (changeRecord img d c e k E).initState = E.initState := by
  cases k with
  | enclaveLoadHandler f p | enclaveLoadPageTable f p v l acl | enclaveLoadPage f p v o acl
  | threadLoad f t pc sp l =>
    have hf : ¬ e = f := by
      rintro rfl
      simp [measuredCall] at hm
    simp only [changeRecord, if_neg hf, id, and_self]
  | enclaveInit f =>
    have hf : ¬ e = f := fun h => hk (h ▸ rfl)
    simp only [changeRecord, if_neg hf, id, and_self]
  | threadDelete | regionAssign | regionBlock =>
    simp only [changeRecord]
    split_ifs <;> exact ⟨rfl, rfl⟩
  | _ => exact ⟨rfl, rfl⟩

/-! ## The hash context -/

/-- How far the build of an enclave with metadata `E` is. -/
inductive BuildState (handler : List Byte) (p : CreateParams) (ms : List MeasuredCall) (E : EnclaveMetadata) :
    Prop
  | building (run : Runs Admits enclaveStateCreated ms E.initState)
      (absorbed : Absorbed E.hashContext (measuredStream handler p ms))
  | initialized (state : E.initState = enclaveStateInitialized) (build : Build ms)
      (measurement : E.measurement = sha512Digest (measuredStream handler p ms))

theorem measuredStream_append (handler : List Byte) (p : CreateParams) (ms : List MeasuredCall)
    (m : MeasuredCall) :
    measuredStream handler p (ms ++ [m]) = measuredStream handler p ms ++ m.bytes handler := by
  simp [measuredStream]

theorem initRecord_initState (img : Image N) (keys : Keys) (E : EnclaveMetadata) :
    (initRecord img keys E).initState = enclaveStateInitialized := rfl

theorem initRecord_measurement {keys : Keys} {E : EnclaveMetadata} {bs : List Byte}
    (h : Absorbed E.hashContext bs) : (initRecord img keys E).measurement = sha512Digest bs := by
  have hm : (initRecord img keys E).measurement = (sha512Final E.hashContext).2.getD E.measurement := rfl
  rw [hm, h.final, Option.getD_some]

/-- A successful call keeps the log. -/
theorem BuildState.effect {p : CreateParams} {ms : List MeasuredCall}
    (h : BuildState img.enclaveHandler p ms (d.enclave e)) (hE : Effect img L c ctx d k d') :
    BuildState img.enclaveHandler p (ms ++ (measuredCall d e k).toList)
      (changeRecord img d c e k (d.enclave e)) := by
  cases h with
  | building run absorbed =>
    cases hm : measuredCall d e k with
    | some m =>
      obtain ⟨hadm, habs⟩ := changeRecord_measured hE hm
      refine .building (.snoc run hadm) ?_
      rw [Option.toList_some, measuredStream_append]
      exact habs _ absorbed
    | none =>
      rw [Option.toList_none, List.append_nil]
      by_cases hk : k = .enclaveInit e
      · subst hk
        obtain ⟨-, hst, -⟩ := hE
        rw [hst] at run
        simp only [changeRecord, if_true]
        exact .initialized (initRecord_initState ..) run (initRecord_measurement absorbed)
      · obtain ⟨hctx, hstate⟩ := changeRecord_unmeasured img c (d.enclave e) hm hk
        refine .building ?_ ?_
        · rw [hstate]; exact run
        · rw [hctx]; exact absorbed
  | initialized state build measurement =>
    have hnone : measuredCall d e k = none := by
      by_contra hne
      obtain ⟨m, hm⟩ := Option.ne_none_iff_exists'.mp hne
      have hadm := (changeRecord_measured hE hm).1
      rw [state] at hadm
      exact hadm.not_initialized
    have hfrozen := changeRecord_frozen hE state
    rw [Frozen] at hfrozen
    rw [hnone, Option.toList_none, List.append_nil, hfrozen]
    exact .initialized state build measurement

/-- **The log is kept by every step** that leaves the enclave alive. -/
theorem BuildState.step {p : CreateParams} {ms : List MeasuredCall} (hs : CarefulStep img s ev s')
    (hinv : SystemInv img s) (he : ValidMetadata s.data e .enclave) (he' : ValidMetadata s'.data e .enclave)
    (h : BuildState img.enclaveHandler p ms (s.data.enclave e)) :
    BuildState img.enclaveHandler p (ms ++ (measuredEvent e (s, ev)).toList) (s'.data.enclave e) := by
  rw [hs.record_eq hinv he he']
  have hquiet : BuildState img.enclaveHandler p (ms ++ (none : Option MeasuredCall).toList) (s.data.enclave e) := by
    rwa [Option.toList_none, List.append_nil]
  obtain ⟨l, o⟩ := ev
  cases l with
  | call c k ctx =>
    obtain ⟨r, rfl, -, hE⟩ := (step_call hs.1).reply
    simp only [measuredEvent, eventChange]
    split_ifs with hv
    · exact h.effect (hE hv)
    · exact hquiet
  | _ => exact hquiet

/-! ## The log of every enclave -/

/-- A new enclave. -/
theorem EventCreates.buildState {E : EnclaveMetadata} (h : EventCreates ev e E) :
    ∃ p, createdWith e ev = some p ∧ BuildState img.enclaveHandler p [] E := by
  obtain ⟨l, o⟩ := ev
  rcases l with ⟨c, k, ctx⟩ | _ | _ | _ | _
  case call =>
    rcases o with - | r
    · exact h.elim
    obtain ⟨hv, hk⟩ := h
    cases k with
    | enclaveCreate f b mask n debug =>
      obtain ⟨rfl, hnew⟩ := hk
      refine ⟨⟨b, mask, n, debug⟩, if_pos ⟨rfl, hv⟩, .building ?_ ?_⟩
      · rw [hnew.state]
        exact .nil _
      · rw [measuredStream, List.flatMap_nil, List.append_nil]
        exact hnew.absorbed
    | _ => exact hk.elim
  all_goals exact h.elim

/-- There is no enclave yet where one is created. -/
theorem CarefulStep.createdWith_eq_none (hs : CarefulStep img s ev s') (h : SystemInv img s)
    (he : ValidMetadata s.data e .enclave) : createdWith e ev = none := by
  obtain ⟨l, o⟩ := ev
  rcases l with ⟨c, k, ctx⟩ | _ | _ | _ | _
  case call =>
    cases k with
    | enclaveCreate f b mask n debug =>
      obtain ⟨r, rfl, -, hE⟩ := (step_call hs.1).reply
      refine if_neg ?_
      rintro ⟨rfl, hv⟩
      have hf := (hE hv).1.freeSpace_enclave h.heap hs.2
      exact absurd (he.tag_unique (hf.free f ⟨0, hf.pos, by simp⟩)) (by decide)
    | _ => rfl
  all_goals rfl

/-- **In every careful run the hash context of every enclave has absorbed its log.** -/
theorem CarefulHistory.logged (hr : CarefulHistory img boot hist s) (he : ValidMetadata s.data e .enclave) :
    ∃ p ms, logOf e hist = some (p, ms) ∧ BuildState img.enclaveHandler p ms (s.data.enclave e) := by
  induction hr with
  | nil => exact absurd he (smInit_booting img boot).not_valid
  | @snoc s s' hist x hr hs ih =>
    obtain ⟨s₀, ev⟩ := x
    obtain ⟨heq, hs⟩ := hs
    obtain rfl : s = s₀ := heq.symm
    have hinv : SystemInv img s := (CarefulHistory.run hr).inv
    obtain ⟨L, hstep⟩ := (step_inv hinv hs.2 hs.1).2
    by_cases hlive : ValidMetadata s.data e .enclave
    · obtain ⟨p, ms, hlog, hbuild⟩ := ih hlive
      exact ⟨p, _, logOf_step hlog (hs.createdWith_eq_none hinv hlive), hbuild.step hs hinv hlive he⟩
    · obtain ⟨p, hp, hbuild⟩ := ((hstep.records.live e he).resolve_left hlive).buildState
      exact ⟨p, [], logOf_create hp, hbuild⟩

/-- The event is a successful `enclave_init` of the enclave at `e`. -/
def InitsAt (e : Word) (ev : Event N) : Prop :=
  ∃ c ctx r, ev = (.call c (.enclaveInit e) ctx, some r) ∧ r.value = 0

theorem CarefulStep.initState_le (hs : CarefulStep img s ev s') (h : SystemInv img s)
    (he : ValidMetadata s.data e .enclave) (he' : ValidMetadata s'.data e .enclave) :
    (s.data.enclave e).initState ≤ (s'.data.enclave e).initState := by
  rw [hs.record_eq h he he']
  obtain ⟨l, o⟩ := ev
  cases l with
  | call c k ctx =>
    obtain ⟨r, rfl, -, hE⟩ := (step_call hs.1).reply
    simp only [eventChange]
    split_ifs with hv
    · have hE := hE hv
      cases hm : measuredCall s.data e k with
      | some m => exact (changeRecord_measured hE hm).1.state_le
      | none =>
        by_cases hk : k = .enclaveInit e
        · subst hk
          simp only [changeRecord, if_true]
          rw [hE.2.1, initRecord_initState]
          decide
        · rw [(changeRecord_unmeasured img c _ hm hk).2]
          exact BitVec.le_refl _
    · exact BitVec.le_refl _
  | _ => exact BitVec.le_refl _

/-- When `enclave_init` succeeds, the measurement is the digest of the log. -/
theorem CarefulHistory.measured (hr : CarefulHistory img boot hist s) (hs : CarefulStep img s ev s')
    (hi : InitsAt e ev) : ∃ p ms, logOf e hist = some (p, ms) ∧ Build ms ∧
      (s'.data.enclave e).measurement = sha512Digest (measuredStream img.enclaveHandler p ms) := by
  have hinv := (CarefulHistory.run hr).inv
  obtain ⟨c, ctx, r, rfl, hv⟩ := hi
  obtain ⟨r', hr', -, hE⟩ := (step_call hs.1).reply
  obtain rfl := Option.some.inj hr'
  obtain ⟨he, hst, -⟩ := hE hv
  have he' := hs.enclave_kept hinv (by simp [IsEnclaveDelete]) he
  obtain ⟨p, ms, hlog, hbuild⟩ := hr.logged he
  cases hbuild with
  | building run absorbed =>
    rw [hst] at run
    refine ⟨p, ms, hlog, run, ?_⟩
    rw [hs.record_eq hinv he he']
    simp only [eventChange, hv, changeRecord, if_true]
    exact initRecord_measurement absorbed
  | initialized state => exact absurd (hst.symm.trans state) (by decide)

/-- **The measurement is the log.**  When `enclave_init` succeeds, the measurement of the
    enclave is the digest of its log.  Steps other than `enclave_delete` do not take an enclave
    back to an earlier state, and leave one that is initialised as it is. -/
theorem measurement_log (hr : CarefulHistory img boot hist s) (hs : CarefulStep img s ev s') (e : Word) :
    (InitsAt e ev → ∃ p ms, logOf e hist = some (p, ms) ∧ Build ms ∧
      (s'.data.enclave e).measurement = sha512Digest (measuredStream img.enclaveHandler p ms)) ∧
    (ValidMetadata s.data e .enclave → ¬ IsEnclaveDelete ev.1 → ValidMetadata s'.data e .enclave ∧
      (s.data.enclave e).initState ≤ (s'.data.enclave e).initState ∧
      ((s.data.enclave e).initState = enclaveStateInitialized →
        Frozen (s.data.enclave e) (s'.data.enclave e))) := by
  have hinv := (CarefulHistory.run hr).inv
  refine ⟨hr.measured hs, fun he hno => ?_⟩
  have he' := hs.enclave_kept hinv hno he
  exact ⟨he', hs.initState_le hinv he he', fun hi => hs.frozen hinv he he' hi⟩

set_option maxRecDepth 100000 in
/-- The first enclave is initialised. -/
theorem measurement_log_first : ∃ hist s ev s', CarefulHistory smallImage zeroBoot hist s ∧
    CarefulStep smallImage s ev s' ∧ InitsAt firstEnclave ev ∧
    ∃ p ms, logOf firstEnclave hist = some (p, ms) ∧ Build ms ∧ (s'.data.enclave firstEnclave).measurement =
      sha512Digest (measuredStream smallImage.enclaveHandler p ms) := by
  obtain ⟨es, s, o, s', h, hs, ho⟩ : ∃ es s o s', CarefulRun smallImage zeroBoot es s ∧
      CarefulStep smallImage s (callOn 0 (.enclaveInit firstEnclave), o) s' ∧ o.map Reply.value = some 0 :=
    CarefulRun.exists_step_of_labels (setupLabels ++ (buildLabels firstEnclave firstThread 0).take 6) _
      (by decide +kernel)
  obtain ⟨hist, hh, -⟩ := h.traced
  obtain ⟨r, rfl, hr⟩ := Option.map_eq_some_iff.mp ho
  have hi : InitsAt firstEnclave (callOn 0 (.enclaveInit firstEnclave), some r) := ⟨0, zeroContext, r, rfl, hr⟩
  exact ⟨hist, s, _, s', hh, hs, hi, (measurement_log hh hs firstEnclave).1 hi⟩

set_option maxRecDepth 100000 in
/-- After `zombieLabels` core 1 writes over the range of virtual addresses of the second enclave,
    which is initialised. -/
theorem measurement_log_fails : ∃ es s o s', Runs (Step smallImage) (smInit smallImage zeroBoot) es s ∧
    Step smallImage s (callOn 1 (.mailAccept 0xb6db6db6db6db85 4), o) s' ∧ (∀ ev ∈ es, SizeOk ev.1) ∧
    ValidMetadata s.data secondEnclave .enclave ∧
    (s.data.enclave secondEnclave).initState = enclaveStateInitialized ∧
    (s.data.enclave secondEnclave).evMask = 0 ∧ (s'.data.enclave secondEnclave).evMask = 4 :=
  Runs.exists_step_of_runsOf (zombieLabels 0) _ (by decide +kernel)

end SecurityMonitor
