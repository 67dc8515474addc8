/-
  What the measurement tells about a build.

  The bytes of the measured calls follow each other without tags or lengths.  Records
  of page tables and threads have 24 bytes and those of pages 4112, and the state of
  the enclave says which kinds may come next.

  * `measured_stream_iff`: two builds with the same bytes are the same exactly if
    their calls are of the same kinds, call by call;
  * this is so if no page has the access control list 3, which reads as the level of a
    page table, and no thread has a stack pointer that reads as the access control
    list of a page (`Clear`);
  * `measured_stream_fails`: two builds that the monitor accepts with the same bytes.
-/
import SecurityMonitor.Measurement
import SecurityMonitor.EnclaveMemory
import SecurityMonitor.Lib.Parse

namespace SecurityMonitor

open ByteMem Parse

variable {N : ℕ} {img : Image N} {boot : Boot N} {s s' : Config N} {x : Word} {ev : Event N}
  {hist : List (Config N × Event N)} {handler : List Byte} {p p' : CreateParams}
  {ms ms' : List MeasuredCall}

/-! ## Records -/

theorem wordBytes_length (w : Word) : (wordBytes w).length = 8 := by simp [wordBytes]

theorem wordBytes_injective : Function.Injective wordBytes := by
  intro v w h
  have hbyte (i : ℕ) (hi : i < 8) : Mem.leByte v.toNat i = Mem.leByte w.toNat i :=
    List.map_inj_left.mp h i (List.mem_range.mpr hi)
  -- a store of either word leaves the same memory
  have hstore : Mem.store64 (fun _ => 0) 0 v = Mem.store64 (fun _ => 0) 0 w := by
    funext x
    simp only [Mem.store64, Mem.fill]
    split_ifs with hx
    · exact hbyte _ hx
    · rfl
  rw [← Mem.load64_store64 (fun _ => 0) 0 v, hstore, Mem.load64_store64]

/-- The kinds of measured calls. -/
inductive MeasuredKind where
  | handler
  | pageTable
  | page
  | thread
  deriving DecidableEq

def MeasuredCall.kind : MeasuredCall → MeasuredKind
  | .handler => .handler
  | .pageTable .. => .pageTable
  | .page .. => .page
  | .thread .. => .thread

/-- Calls of one kind can be told apart by their bytes. -/
theorem MeasuredCall.separates_of_kind {m m' : MeasuredCall} (h : m.kind = m'.kind) :
    Separates (bytes handler) m m' := by
  have hwords {a b c a' b' c' : Word}
      (h : wordBytes a ++ wordBytes b ++ wordBytes c = wordBytes a' ++ wordBytes b' ++ wordBytes c') :
      a = a' ∧ b = b' ∧ c = c' := by
    obtain ⟨hab, hc⟩ := List.append_inj h (by simp [wordBytes_length])
    obtain ⟨ha, hb⟩ := List.append_inj hab (by simp [wordBytes_length])
    exact ⟨wordBytes_injective ha, wordBytes_injective hb, wordBytes_injective hc⟩
  cases m <;> cases m' <;> simp only [kind, reduceCtorEq] at h
  case handler.handler => exact fun _ _ _ => rfl
  case pageTable.pageTable v l acl v' l' acl' =>
    refine .of_length (by simp [bytes, wordBytes_length]) fun heq => ?_
    obtain ⟨rfl, rfl, rfl⟩ := hwords heq
    rfl
  case page.page v acl C v' acl' C' =>
    refine .of_length (by simp [bytes, wordBytes_length]) fun heq => ?_
    obtain ⟨hva, hC⟩ := List.append_inj heq (by simp [wordBytes_length])
    obtain ⟨hv, ha⟩ := List.append_inj hva (by simp [wordBytes_length])
    rw [wordBytes_injective hv, wordBytes_injective ha, List.ofFn_injective hC]
  case thread.thread pc sp l pc' sp' l' =>
    refine .of_length (by simp [bytes, wordBytes_length]) fun heq => ?_
    obtain ⟨rfl, rfl, rfl⟩ := hwords heq
    rfl

theorem CreateParams.separates : Separates bytes p p' := by
  refine .of_length (by simp [bytes, wordBytes_length]) fun heq => ?_
  obtain ⟨hrest, hd⟩ := List.append_inj heq (by simp [wordBytes_length])
  obtain ⟨hbm, hn⟩ := List.append_inj hrest (by simp [wordBytes_length])
  obtain ⟨hb, hm⟩ := List.append_inj hbm (by simp [wordBytes_length])
  obtain ⟨b, m, n, debug⟩ := p
  obtain ⟨b', m', n', debug'⟩ := p'
  simp only at hb hm hn hd
  rw [wordBytes_injective hb, wordBytes_injective hm, wordBytes_injective hn]
  cases debug <;> cases debug' <;> first | rfl | exact absurd hd (by simp)

/-! ## Calls that are clear -/

instance (acl : Word) : Decidable (ValidAcl acl) := inferInstanceAs (Decidable (_ ∧ _))

instance (acl : Word) : Decidable (LeafAcl acl) := inferInstanceAs (Decidable (_ ∧ _))

/-- The call cannot be taken for one of another kind. -/
def MeasuredCall.Clear : MeasuredCall → Prop
  | .page _ acl _ => acl ≠ 3
  | .thread _ sp _ => ¬ LeafAcl sp
  | _ => True

/-- The only level that is the access control list of a page. -/
theorem LeafAcl.eq_three {acl : Word} (h : LeafAcl acl) (hl : acl.toNat ≤ 3) : acl = 3 := by
  have hcases : acl = 0 ∨ acl = 1 ∨ acl = 2 ∨ acl = 3 := by
    have := acl.isLt
    rcases (by omega : acl.toNat = 0 ∨ acl.toNat = 1 ∨ acl.toNat = 2 ∨ acl.toNat = 3) with hn | hn | hn | hn
    · exact .inl (BitVec.eq_of_toNat_eq hn)
    · exact .inr (.inl (BitVec.eq_of_toNat_eq hn))
    · exact .inr (.inr (.inl (BitVec.eq_of_toNat_eq hn)))
    · exact .inr (.inr (.inr (BitVec.eq_of_toNat_eq hn)))
  rcases hcases with rfl | rfl | rfl | rfl
  · exact absurd h (by decide)
  · exact absurd h (by decide)
  · exact absurd h (by decide)
  · rfl

/-- A clear call other than `load_handler`. -/
def AdmitsClear (st : BitVec 32) (m : MeasuredCall) (st' : BitVec 32) : Prop :=
  Admits st m st' ∧ m ≠ .handler ∧ m.Clear

/-- The second word of a record. -/
theorem second_word_eq {a b a' b' : Word} {u v : List Byte}
    (h : wordBytes a ++ (wordBytes b ++ u) = wordBytes a' ++ (wordBytes b' ++ v)) : b = b' := by
  have hrest := (List.append_inj h (by simp [wordBytes_length])).2
  exact wordBytes_injective (List.append_inj hrest (by simp [wordBytes_length])).1

/-- The clear calls that a state accepts can be told apart. -/
theorem AdmitsClear.separates {st st₁ st₂ : BitVec 32} {m m' : MeasuredCall} (h : AdmitsClear st m st₁)
    (h' : AdmitsClear st m' st₂) : Separates (MeasuredCall.bytes handler) m m' := by
  obtain ⟨hm, hne, hclear⟩ := h
  obtain ⟨hm', hne', hclear'⟩ := h'
  -- a state that accepts page tables accepts no threads
  have hstates {st : BitVec 32} (h : st = enclaveStateHandlerLoaded ∨ st = enclaveStatePageTablesLoaded) :
      st ≠ enclaveStatePageDataLoaded := by
    rcases h with rfl | rfl <;> decide
  cases hm with
  | handler => exact absurd rfl hne
  | pageTable hs hl =>
    cases hm' with
    | handler => exact absurd rfl hne'
    | pageTable => exact MeasuredCall.separates_of_kind rfl
    | page _ hv =>
      intro u v heq
      simp only [MeasuredCall.bytes, List.append_assoc] at heq
      obtain rfl := second_word_eq heq
      exact absurd (hv.eq_three hl) hclear'
    | thread => exact absurd rfl (hstates hs)
  | page hs hv =>
    cases hm' with
    | handler => exact absurd rfl hne'
    | pageTable _ hl =>
      intro u v heq
      simp only [MeasuredCall.bytes, List.append_assoc] at heq
      obtain rfl := second_word_eq heq
      exact absurd (hv.eq_three hl) hclear
    | page => exact MeasuredCall.separates_of_kind rfl
    | thread =>
      intro u v heq
      simp only [MeasuredCall.bytes, List.append_assoc] at heq
      obtain rfl := second_word_eq heq
      exact absurd hv hclear'
  | thread =>
    cases hm' with
    | pageTable hs => exact absurd rfl (hstates hs)
    | page _ hv =>
      intro u v heq
      simp only [MeasuredCall.bytes, List.append_assoc] at heq
      obtain rfl := second_word_eq heq
      exact absurd hv hclear
    | thread => exact MeasuredCall.separates_of_kind rfl

theorem Admits.functional {st st₁ st₂ : BitVec 32} {m : MeasuredCall} (h : Admits st m st₁)
    (h' : Admits st m st₂) : st₁ = st₂ := by
  cases h <;> cases h' <;> rfl

theorem MeasuredCall.bytes_ne_nil {m : MeasuredCall} (h : m ≠ .handler) : m.bytes handler ≠ [] := by
  have hword (w : Word) (l : List Byte) : wordBytes w ++ l ≠ [] := fun hn =>
    absurd (congrArg List.length hn) (by simp [wordBytes_length])
  cases m with
  | handler => exact absurd rfl h
  | pageTable => simp only [bytes, List.append_assoc]; exact hword _ _
  | page => simp only [bytes, List.append_assoc]; exact hword _ _
  | thread => simp only [bytes, List.append_assoc]; exact hword _ _

/-! ## Builds -/

/-- Only the first call of a build loads the handler. -/
theorem run_no_handler {st : BitVec 32} (h : Runs Admits enclaveStateHandlerLoaded ms st) :
    st ≠ enclaveStateCreated ∧ ∀ m ∈ ms, m ≠ .handler := by
  induction h with
  | nil => exact ⟨by decide, by simp⟩
  | snoc _ hstep ih =>
    obtain ⟨hst, hms⟩ := ih
    refine ⟨?_, fun m hm => ?_⟩
    · cases hstep <;> decide
    · rcases List.mem_append.mp hm with hm | hm
      · exact hms m hm
      · rw [List.mem_singleton.mp hm]
        rintro rfl
        cases hstep
        exact hst rfl

theorem Build.eq_cons (h : Build ms) : ∃ rest, ms = .handler :: rest ∧
    Runs Admits enclaveStateHandlerLoaded rest enclaveStatePageDataLoaded := by
  cases ms with
  | nil => exact absurd h.nil_inv (by decide)
  | cons m rest =>
    obtain ⟨st, hm, hrest⟩ := h.cons_inv
    cases hm with
    | handler => exact ⟨rest, rfl, hrest⟩
    | pageTable hs => exact absurd hs (by decide)
    | page hs => exact absurd hs (by decide)

/-- **Clear builds can be read back** from what they pass to `hash_extend`. -/
theorem Build.eq_of_clear (h : Build ms) (h' : Build ms') (hc : ∀ m ∈ ms, m.Clear)
    (hc' : ∀ m ∈ ms', m.Clear)
    (heq : ms.flatMap (MeasuredCall.bytes handler) = ms'.flatMap (MeasuredCall.bytes handler)) :
    ms = ms' := by
  have hclear {rest : List MeasuredCall} (hr : Runs Admits enclaveStateHandlerLoaded rest enclaveStatePageDataLoaded)
      (hc : ∀ m ∈ rest, m.Clear) : Runs AdmitsClear enclaveStateHandlerLoaded rest enclaveStatePageDataLoaded :=
    hr.mono_mem fun _ m _ hm hstep => ⟨hstep, (run_no_handler hr).2 m hm, hc m hm⟩
  have hsep : ∀ st m m' st₁ st₂, AdmitsClear st m st₁ → AdmitsClear st m' st₂ →
      Separates (MeasuredCall.bytes handler) m m' := fun _ _ _ _ _ => AdmitsClear.separates
  obtain ⟨rest, rfl, hr⟩ := h.eq_cons
  obtain ⟨rest', rfl, hr'⟩ := h'.eq_cons
  rw [List.flatMap_cons, List.flatMap_cons] at heq
  rw [flatMap_inj_of_runs (fun _ _ _ _ h h' => h.1.functional h'.1)
    (fun _ _ _ h => MeasuredCall.bytes_ne_nil h.2.1) hsep
    (hclear hr fun m hm => hc m (List.mem_cons_of_mem _ hm))
    (hclear hr' fun m hm => hc' m (List.mem_cons_of_mem _ hm)) (List.append_cancel_left heq)]

/-- **What the measured bytes tell.**  Two builds with the same bytes have the same parameters,
    and they have the same calls exactly if the calls are of the same kinds.  This is so for
    clear builds. -/
theorem measured_stream_iff (h : Build ms) (h' : Build ms')
    (heq : measuredStream handler p ms = measuredStream handler p' ms') :
    p = p' ∧ (ms = ms' ↔ ms.map MeasuredCall.kind = ms'.map MeasuredCall.kind) ∧
      ((∀ m ∈ ms, m.Clear) → (∀ m ∈ ms', m.Clear) → ms = ms') := by
  have hp : p = p' := CreateParams.separates _ _ heq
  subst hp
  have hcalls := List.append_cancel_left heq
  refine ⟨rfl, ⟨fun h => by rw [h], fun hkind => ?_⟩, fun hc hc' => h.eq_of_clear h' hc hc' hcalls⟩
  refine flatMap_inj_of_forall₂ (List.Forall₂.imp (fun _ _ => MeasuredCall.separates_of_kind) ?_) hcalls
  rwa [← List.forall₂_eq_eq_eq, List.forall₂_map_left_iff, List.forall₂_map_right_iff] at hkind

/-! ## Two builds with the same bytes -/

/-- A careful run in which the enclave at `e` is built with `p` and `ms`, and initialised. -/
def BuiltWith (img : Image N) (boot : Boot N) (e : Word) (p : CreateParams) (ms : List MeasuredCall) : Prop :=
  ∃ hist s ev s', CarefulHistory img boot hist s ∧ CarefulStep img s ev s' ∧ InitsAt e ev ∧
    logOf e hist = some (p, ms)

theorem BuiltWith.build {e : Word} (h : BuiltWith img boot e p ms) : Build ms := by
  obtain ⟨hist, s, ev, s', hr, hs, ⟨c, ctx, r, rfl, hv⟩, hlog⟩ := h
  obtain ⟨r', hr', -, hE⟩ := (step_call hs.1).reply
  obtain rfl := Option.some.inj hr'
  obtain ⟨he, hst, -⟩ := hE hv
  obtain ⟨p', ms', hlog', hbuild⟩ := hr.logged he
  obtain ⟨rfl, rfl⟩ := Prod.mk.inj (Option.some.inj (hlog.symm.trans hlog'))
  cases hbuild with
  | building run => rwa [hst] at run
  | initialized state => exact absurd (hst.symm.trans state) (by decide)

/-- The words of a measured call. -/
def MeasuredCall.words : MeasuredCall → List Word
  | .handler => []
  | .pageTable v l acl => [v, l, acl]
  | .page v acl _ => [v, acl]
  | .thread pc sp l => [pc, sp, l]

/-- The page that the event loads into the enclave at `e`. -/
def pageSource (e : Word) : Event N → Option Word
  | (.call _ (.enclaveLoadPage f _ _ o _) _, some r) => if f = e ∧ r.value = 0 then some o else none
  | _ => none

theorem measuredEvent_page {e v acl : Word} {C : Bytes pageSize}
    (h : measuredEvent e (s, ev) = some (.page v acl C)) :
    ∃ o, pageSource e ev = some o ∧ C = fun i : Fin pageSize => s.data.mem (off o i) := by
  obtain ⟨l, o⟩ := ev
  rcases l with ⟨c, k, ctx⟩ | _ | _ | _ | _
  case call =>
    rcases o with - | r
    · cases h
    simp only [measuredEvent] at h
    split_ifs at h with hv
    cases k with
    | enclaveLoadPage f q v' o acl' =>
      simp only [measuredCall] at h
      split_ifs at h with hf
      cases h
      exact ⟨o, if_pos ⟨hf, hv⟩, rfl⟩
    | enclaveLoadHandler | enclaveLoadPageTable | threadLoad =>
      simp only [measuredCall] at h
      split_ifs at h
      cases h
    | _ => cases h
  all_goals cases h

theorem mem_logOf {e : Word} {m : MeasuredCall} (h : logOf e hist = some (p, ms)) (hm : m ∈ ms) :
    ∃ y ∈ hist, measuredEvent e y = some m := by
  induction hist using List.reverseRecOn generalizing p ms with
  | nil => cases h
  | append_singleton hist x ih =>
    rw [logOf_append, logStep] at h
    split at h
    · obtain ⟨-, rfl⟩ := Prod.mk.inj (Option.some.inj h)
      exact absurd hm (by simp)
    · obtain ⟨⟨q, ms'⟩, hlog, heq⟩ := Option.map_eq_some_iff.mp h
      obtain ⟨-, rfl⟩ := Prod.mk.inj heq
      rcases List.mem_append.mp hm with hm | hm
      · obtain ⟨y, hy, hym⟩ := ih hlog hm
        exact ⟨y, List.mem_append_left _ hy, hym⟩
      · exact ⟨x, by simp, Option.mem_toList.mp hm⟩

/-- The event leaves region 1 alone and loads no page into `e` but the one at `o`. -/
def Quiet (e o : Word) (x : Config N × Event N) : Prop :=
  Owned x.1.data 1 ownerUntrusted ∧ (pageSource e x.2 = none ∨ pageSource e x.2 = some o) ∧
    match x.2.1 with
    | .userStore _ a _ => regionOf a ≠ 1
    | _ => True

instance (e o : Word) (x : Config N × Event N) : Decidable (Quiet e o x) := by
  unfold Quiet
  cases x.2.1 <;> infer_instance

/-- The pages that are loaded from region 1 are as at boot. -/
theorem page_contents {e o v acl : Word} {C : Bytes pageSize} (hr : CarefulHistory img boot hist s)
    (hq : ∀ y ∈ hist, Quiet e o y)
    (ho : ∀ i : Fin pageSize, (addrToRegionId (off o i)).toNat < 64 ∧ regionOf (off o i) = 1)
    (hlog : logOf e hist = some (p, ms)) (hm : .page v acl C ∈ ms) :
    C = fun i : Fin pageSize => boot.mem (off o i) := by
  obtain ⟨⟨s₁, ev⟩, hy, hmeas⟩ := mem_logOf hlog hm
  obtain ⟨o', hsrc, rfl⟩ := measuredEvent_page hmeas
  obtain rfl : o' = o := by
    rcases (hq _ hy).2.1 with hnone | hsome
    · exact absurd (hsrc.symm.trans hnone) (by simp)
    · exact Option.some.inj (hsrc.symm.trans hsome)
  obtain ⟨h₁, h₂, rfl⟩ := List.append_of_mem hy
  obtain ⟨s₂, s₃, hr₁, hstep, -⟩ := hr.split_cons
  obtain rfl : s₁ = s₂ := hstep.1
  funext i
  refine untrusted_mem_run hr₁ (ho i).1 fun y hy => ?_
  obtain ⟨hown, -, hstore⟩ := hq y (List.mem_append_left _ hy)
  refine ⟨(ho i).2.symm ▸ hown, fun c v hl => ?_⟩
  rw [hl] at hstore
  exact hstore (ho i).2

/-- The record of a page table and the first words of the record of a page. -/
def recordBytes : List Byte := wordBytes 1 ++ (wordBytes 0x1000 ++ wordBytes 3)

/-- At boot the first page of region 1 starts with `recordBytes`; everything else is zero. -/
def recordBoot : Boot 2 := { zeroBoot with mem := fun a => recordBytes.getD (a - 0x82000000).toNat 0 }

def tableLabels : List (Label 2) := setupLabels ++ (buildLabels firstEnclave firstThread 0).take 4

/-- A page and a thread. -/
def pageThreadLabels : List (Label 2) := tableLabels ++
  [callOn 0 (.enclaveLoadPage firstEnclave 0x84004000 0x1000 0x82000000 3),
    callOn 0 (.threadLoad firstEnclave firstThread 0 0 0)]

/-- A page table and a page. -/
def tablePageLabels : List (Label 2) := tableLabels ++
  [callOn 0 (.enclaveLoadPageTable firstEnclave 0x84003000 0x1000 3 1),
    callOn 0 (.enclaveLoadPage firstEnclave 0x84004000 0x1000 0x82001000 3)]

/-- The calls on the first enclave have the given kinds and words, its pages come from `o`, and it
    can be initialised. -/
def BuildsAs (o : Word) (shape : List (MeasuredKind × List Word)) (hist : List (Config 2 × Event 2))
    (s : Config 2) : Prop :=
  (∀ y ∈ hist, Quiet firstEnclave o y) ∧
    (logOf firstEnclave hist).map (fun l => (l.1, l.2.map fun m => (m.kind, m.words))) =
      some (⟨0, 0, 0, false⟩, shape) ∧
    (carefulExec smallImage s (callOn 0 (.enclaveInit firstEnclave))).any
      (fun y => decide (y.1.map Reply.value = some 0)) = true

instance (o : Word) (shape : List (MeasuredKind × List Word)) (hist : List (Config 2 × Event 2))
    (s : Config 2) : Decidable (BuildsAs o shape hist s) :=
  inferInstanceAs (Decidable (_ ∧ _))

theorem BuildsAs.builtWith {o : Word} {shape : List (MeasuredKind × List Word)}
    {hist : List (Config 2 × Event 2)} {s : Config 2} (hr : CarefulHistory smallImage recordBoot hist s)
    (h : BuildsAs o shape hist s)
    (ho : ∀ i : Fin pageSize, (addrToRegionId (off o i)).toNat < 64 ∧ regionOf (off o i) = 1) :
    ∃ ms, BuiltWith smallImage recordBoot firstEnclave ⟨0, 0, 0, false⟩ ms ∧
      ms.map (fun m => (m.kind, m.words)) = shape ∧
      ∀ v acl C, .page v acl C ∈ ms → C = fun i : Fin pageSize => recordBoot.mem (off o i) := by
  obtain ⟨hq, hlog, hinit⟩ := h
  obtain ⟨⟨p, ms⟩, hlog, heq⟩ := Option.map_eq_some_iff.mp hlog
  obtain ⟨rfl, hshape⟩ := Prod.mk.inj heq
  obtain ⟨⟨r, s'⟩, hexec, hval⟩ := Option.any_eq_true _ _ |>.mp hinit
  obtain ⟨r, rfl, hv⟩ := Option.map_eq_some_iff.mp (of_decide_eq_true hval)
  exact ⟨ms, ⟨hist, s, _, s', hr, carefulStep_of_exec (e := (callOn 0 (.enclaveInit firstEnclave), some r)) hexec,
    ⟨0, zeroContext, r, rfl, hv⟩, hlog⟩, hshape, fun v acl C hm => page_contents hr hq ho hlog hm⟩

/-- A page of region 1. -/
theorem page_in_region_one {o : Word} (hr : addrToRegionId o = 1) (hend : addrToRegionId (off o pageSize) = 1)
    (i : Fin pageSize) : (addrToRegionId (off o i)).toNat < 64 ∧ regionOf (off o i) = 1 := by
  have hlt : (addrToRegionId o).toNat < 64 := by rw [hr]; decide
  have hmem := region_of_mem_range (by decide) hlt (hr.trans hend.symm) (mem_range_off i.isLt (by decide))
  refine ⟨hmem.1, hmem.2.trans ?_⟩
  rw [regionOf, hr]
  decide

set_option maxRecDepth 100000 in
theorem pageThread_built : ∃ ms, BuiltWith smallImage recordBoot firstEnclave ⟨0, 0, 0, false⟩ ms ∧
    ms.map (fun m => (m.kind, m.words)) = [(.handler, []), (.pageTable, [0, 3, 1]), (.page, [0x1000, 3]),
      (.thread, [0, 0, 0])] ∧
    ∀ v acl C, .page v acl C ∈ ms → C = fun i : Fin pageSize => recordBoot.mem (off 0x82000000 i) := by
  obtain ⟨hist, s, hr, h⟩ : ∃ hist s, CarefulHistory smallImage recordBoot hist s ∧
      BuildsAs 0x82000000 [(.handler, []), (.pageTable, [0, 3, 1]), (.page, [0x1000, 3]),
        (.thread, [0, 0, 0])] hist s :=
    CarefulHistory.exists_of_labels pageThreadLabels (by decide +kernel)
  exact h.builtWith hr (page_in_region_one (by decide) (by decide))

set_option maxRecDepth 100000 in
theorem tablePage_built : ∃ ms, BuiltWith smallImage recordBoot firstEnclave ⟨0, 0, 0, false⟩ ms ∧
    ms.map (fun m => (m.kind, m.words)) = [(.handler, []), (.pageTable, [0, 3, 1]),
      (.pageTable, [0x1000, 3, 1]), (.page, [0x1000, 3])] ∧
    ∀ v acl C, .page v acl C ∈ ms → C = fun i : Fin pageSize => recordBoot.mem (off 0x82001000 i) := by
  obtain ⟨hist, s, hr, h⟩ : ∃ hist s, CarefulHistory smallImage recordBoot hist s ∧
      BuildsAs 0x82001000 [(.handler, []), (.pageTable, [0, 3, 1]), (.pageTable, [0x1000, 3, 1]),
        (.page, [0x1000, 3])] hist s :=
    CarefulHistory.exists_of_labels tablePageLabels (by decide +kernel)
  exact h.builtWith hr (page_in_region_one (by decide) (by decide))

theorem recordBoot_mem {j : ℕ} (hj : j < 2 ^ 64) : recordBoot.mem (off 0x82000000 j) = recordBytes.getD j 0 := by
  show recordBytes.getD (off 0x82000000 j - 0x82000000).toNat 0 = _
  rw [off_sub_self _ hj]

theorem ofFn_getD (l : List Byte) {n : ℕ} (h : l.length ≤ n) :
    (List.ofFn fun i : Fin n => l.getD i 0) = l ++ List.replicate (n - l.length) 0 := by
  refine List.ext_getElem (by simp [h]) fun i _ _ => ?_
  rw [List.getElem_ofFn, List.getElem_append]
  show l.getD i 0 = _
  split_ifs with hi
  · rw [List.getD_eq_getElem _ _ hi]
  · rw [List.getD_eq_default _ _ (by omega), List.getElem_replicate]

theorem recordBytes_length : recordBytes.length = 24 := by simp [recordBytes, wordBytes_length]

theorem recordPage_eq : (List.ofFn fun i : Fin pageSize => recordBoot.mem (off 0x82000000 i)) =
    recordBytes ++ List.replicate (pageSize - 24) 0 := by
  rw [← recordBytes_length, ← ofFn_getD recordBytes (by rw [recordBytes_length]; decide)]
  exact congrArg List.ofFn (funext fun i => recordBoot_mem (i.isLt.trans (by decide)))

theorem zeroPage_eq : (List.ofFn fun i : Fin pageSize => recordBoot.mem (off 0x82001000 i)) =
    List.replicate pageSize 0 := by
  rw [← List.ofFn_const]
  refine congrArg List.ofFn (funext fun i => ?_)
  have hi : i.val < 4096 := i.isLt
  have hoff : off 0x82001000 i = off 0x82000000 (4096 + i) := by
    rw [← off_off]
    rfl
  rw [hoff, recordBoot_mem (by omega), List.getD_eq_default _ _ (by rw [recordBytes_length]; omega)]

/-- The bytes of the two builds. -/
theorem record_stream_eq {C C' : Bytes pageSize} (hC : List.ofFn C = recordBytes ++ List.replicate (pageSize - 24) 0)
    (hC' : List.ofFn C' = List.replicate pageSize 0) (p : CreateParams) :
    measuredStream handler p [.handler, .pageTable 0 3 1, .page 0x1000 3 C, .thread 0 0 0] =
      measuredStream handler p [.handler, .pageTable 0 3 1, .pageTable 0x1000 3 1, .page 0x1000 3 C'] := by
  have hzero : wordBytes 0 ++ (wordBytes 0 ++ wordBytes 0) = List.replicate 24 0 := by decide
  have hpage : List.replicate (pageSize - 24) (0 : Byte) ++ List.replicate 24 0 = List.replicate pageSize 0 := by
    rw [List.replicate_append_replicate, Nat.sub_add_cancel (by decide)]
  simp only [measuredStream, List.flatMap_cons, List.flatMap_nil, MeasuredCall.bytes, hC, hC', recordBytes,
    List.append_assoc, List.append_nil, hzero, hpage]

/-- The call with the given kind and words, and the contents `C` if it loads a page. -/
def MeasuredCall.ofShape (C : Bytes pageSize) : MeasuredKind × List Word → Option MeasuredCall
  | (.handler, []) => some .handler
  | (.pageTable, [v, l, acl]) => some (.pageTable v l acl)
  | (.page, [v, acl]) => some (.page v acl C)
  | (.thread, [pc, sp, l]) => some (.thread pc sp l)
  | _ => none

theorem MeasuredCall.ofShape_self {C : Bytes pageSize} {m : MeasuredCall}
    (h : ∀ v acl D, m = .page v acl D → D = C) : ofShape C (m.kind, m.words) = some m := by
  cases m with
  | page v acl D => rw [h v acl D rfl]; rfl
  | _ => rfl

theorem eq_of_shape {C : Bytes pageSize} {shape : List (MeasuredKind × List Word)}
    (hshape : ms.map (fun m => (m.kind, m.words)) = shape) (hC : ∀ v acl D, .page v acl D ∈ ms → D = C) :
    ms = shape.filterMap (MeasuredCall.ofShape C) := by
  subst hshape
  induction ms with
  | nil => rfl
  | cons m ms ih =>
    have hm : MeasuredCall.ofShape C (m.kind, m.words) = some m :=
      MeasuredCall.ofShape_self fun v acl D h => hC v acl D (by simp [h])
    rw [List.map_cons, List.filterMap_cons_some hm, ← ih fun v acl D h => hC v acl D (List.mem_cons_of_mem _ h)]

theorem record_builds : ∃ p ms ms', BuiltWith smallImage recordBoot firstEnclave p ms ∧
    BuiltWith smallImage recordBoot firstEnclave p ms' ∧
    measuredStream smallImage.enclaveHandler p ms = measuredStream smallImage.enclaveHandler p ms' ∧
    ms ≠ ms' := by
  obtain ⟨ms, hb, hshape, hC⟩ := pageThread_built
  obtain ⟨ms', hb', hshape', hC'⟩ := tablePage_built
  obtain rfl := eq_of_shape hshape hC
  obtain rfl := eq_of_shape hshape' hC'
  exact ⟨_, _, _, hb, hb', record_stream_eq recordPage_eq zeroPage_eq _, by simp [MeasuredCall.ofShape]⟩

/-- The kinds of these calls are not the same. -/
theorem measured_stream_iff_record : ∃ p ms ms', Build ms ∧ Build ms' ∧
    measuredStream smallImage.enclaveHandler p ms = measuredStream smallImage.enclaveHandler p ms' ∧
    ms.map MeasuredCall.kind ≠ ms'.map MeasuredCall.kind := by
  obtain ⟨p, ms, ms', hb, hb', heq, hne⟩ := record_builds
  exact ⟨p, ms, ms', hb.build, hb'.build, heq,
    fun hkind => hne ((measured_stream_iff hb.build hb'.build heq).2.1.mpr hkind)⟩

/-- **Two builds with the same measured bytes**, and so with the same measurement: a page and a
    thread, or a page table and a page. -/
theorem measured_stream_fails : ∃ p ms ms', BuiltWith smallImage recordBoot firstEnclave p ms ∧
    BuiltWith smallImage recordBoot firstEnclave p ms' ∧ Build ms ∧ Build ms' ∧
    measuredStream smallImage.enclaveHandler p ms = measuredStream smallImage.enclaveHandler p ms' ∧
    ms ≠ ms' := by
  obtain ⟨p, ms, ms', hb, hb', heq, hne⟩ := record_builds
  exact ⟨p, ms, ms', hb, hb', hb.build, hb'.build, heq, hne⟩

end SecurityMonitor
