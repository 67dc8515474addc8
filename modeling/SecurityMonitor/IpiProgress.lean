/-
  Who waits for whom: remote fences and cache rounds.

  Two kinds of calls wait for other cores: a remote fence, until each recipient has
  taken its interrupt, and a cache round, until all other cores have arrived in
  `handle_llc_changes`.

  * `calls_return`: remote fences alone never block each other, since a core that
    waits takes its own interrupt back;
  * `fence_round_deadlock`: the initiator of a cache round does not do so, and a core
    that waits for it does not arrive.  If both happen, neither returns.

  The first is proved with a measure of how far a core is from the supervisor
  (`IpiPlace.rank`): a core that does not read an `ipi` that is set gets nearer, and
  the core whose `ipi` it is can clear it on its own.
-/
import SecurityMonitor.Ipi

namespace SecurityMonitor

open ByteMem

variable {N : ℕ} {k : IpiCode N} {s s' : IpiState N} {l : IpiLabel N} {c r : Fin N} {h h' : IpiHart}
  {p : IpiPlace} {ev : IpiEvent} {mask : Word}

/-! ## The places of a core -/

/-- The mask names cores that exist. -/
def MaskOk (N : ℕ) (mask : Word) : Prop := ∀ i, mask.getLsbD i = true → i < N

/-- A place of a core and its place in the rendezvous fit together, and its masks are right. -/
def PlaceOk (N : ℕ) (p : IpiPlace) (q : Place) : Prop :=
  match p with
  | .send _ mask _ | .await mask _ _ | .consume mask _ _ => q = .outside ∧ MaskOk N mask
  | .signal _ mask i => q = .outside ∧ MaskOk N mask ∧ mask.getLsbD i = true
  | .notify _ => ∃ f, q = .initiating f .collecting
  | .notifySignal i => (∃ f, q = .initiating f .collecting) ∧ i < N
  | .round => ∃ f ph, q = .initiating f ph
  | .spinning _ => q = .spinning
  | _ => q = .outside

def SyncLabel.core : SyncLabel N → Fin N
  | .arrive c | .spin c | .start c _ | .pollWaiting c | .clear c | .pollLeft c | .release c => c

theorem SyncStep.other {x y : SyncState N} {m : SyncLabel N} (hs : SyncStep x m y) (hc : c ≠ m.core) :
    y.place c = x.place c := by
  cases hs.move with
  | stays => rfl
  | _ => exact move_place_ne hc

/-- The sections of an initiator. -/
theorem roundLabel_step {x : SyncState N} {m : SyncLabel N} {f : Initiator} {ph : Phase}
    (hq : s.llc.place c = .initiating f ph) (hm : roundLabel s c = some m) (hs : SyncStep s.llc m x) :
    (m = .release c ∧ x.place c = .outside) ∨ (m ≠ .release c ∧ ∃ ph', x.place c = .initiating f ph') := by
  cases ph with
  | collecting =>
    obtain rfl : .pollWaiting c = m := by simpa [roundLabel, hq] using hm
    simp only [SyncStep, syncExec, hq, Option.some.injEq] at hs
    refine .inr ⟨by simp, ?_⟩
    split_ifs at hs <;> subst hs
    · exact ⟨_, hq⟩
    · exact ⟨_, move_place_self⟩
  | acting =>
    obtain rfl : .clear c = m := by simpa [roundLabel, hq] using hm
    simp only [SyncStep, syncExec, hq, Option.some.injEq] at hs
    exact .inr ⟨by simp, _, hs ▸ move_place_self⟩
  | draining =>
    obtain rfl : .pollLeft c = m := by simpa [roundLabel, hq] using hm
    simp only [SyncStep, syncExec, hq, Option.some.injEq] at hs
    refine .inr ⟨by simp, ?_⟩
    split_ifs at hs <;> subst hs
    · exact ⟨_, hq⟩
    · exact ⟨_, move_place_self⟩
  | releasing =>
    obtain rfl : .release c = m := by simpa [roundLabel, hq] using hm
    simp only [SyncStep, syncExec, hq, Option.some.injEq] at hs
    exact .inl ⟨rfl, hs ▸ move_place_self⟩

theorem ipiStep_placeOk (hs : ipiStep k s c = some s') (h : PlaceOk N (s.harts c).place (s.llc.place c)) :
    PlaceOk N (s'.harts c).place (s'.llc.place c) := by
  cases hp : (s.harts c).place with
  | supervisor | enclave | monitor | halted => simp [ipiStep, hp] at hs
  | send ev mask i =>
    rw [hp] at h
    simp only [ipiStep, hp] at hs
    split_ifs at hs with hm hev hbit
    · obtain rfl := Option.some.inj hs
      rw [setPlace_place]
      exact h.1
    · obtain rfl := Option.some.inj hs
      rw [setPlace_place]
      exact h
    · obtain ⟨r, hr, rfl⟩ := Option.map_eq_some_iff.mp hs
      rw [setPlace_place]
      exact ⟨h.1, h.2, hbit⟩
    · obtain rfl := Option.some.inj hs
      rw [setPlace_place]
      exact h
  | signal ev mask i =>
    rw [hp] at h
    simp only [ipiStep, hp] at hs
    obtain ⟨r, hr, rfl⟩ := Option.map_eq_some_iff.mp hs
    rw [setPlace_place]
    exact ⟨h.1, h.2.1⟩
  | await mask i incoming =>
    rw [hp] at h
    simp only [ipiStep, hp] at hs
    split_ifs at hs with hm hbit
    · obtain rfl := Option.some.inj hs
      rw [setPlace_place]
      exact h.1
    · obtain ⟨r, -, rfl⟩ := Option.map_eq_some_iff.mp hs
      rw [setPlace_place]
      split_ifs <;> exact h
    · obtain rfl := Option.some.inj hs
      rw [setPlace_place]
      exact h
  | notify i =>
    rw [hp] at h
    simp only [ipiStep, hp] at hs
    split_ifs at hs with hi hc <;> obtain rfl := Option.some.inj hs <;> rw [setPlace_place]
    · exact h
    · exact ⟨h, hi⟩
    · exact ⟨_, _, h.choose_spec⟩
  | notifySignal i =>
    rw [hp] at h
    simp only [ipiStep, hp] at hs
    obtain ⟨r, -, rfl⟩ := Option.map_eq_some_iff.mp hs
    rw [setPlace_place]
    exact h.1
  | round =>
    rw [hp] at h
    obtain ⟨f, ph, hq⟩ := h
    simp only [ipiStep, hp, Option.bind_eq_bind, Option.bind_eq_some_iff, Option.some.injEq] at hs
    obtain ⟨m, hm, x, hx, rfl⟩ := hs
    rcases roundLabel_step hq hm hx with ⟨hrel, hout⟩ | ⟨hrel, ph', hin⟩
    · rw [if_pos hrel, setPlace_place]
      exact hout
    · rw [if_neg hrel, hp]
      exact ⟨f, ph', hin⟩
  | decoded p =>
    have hq : s.llc.place c = .outside := by rwa [hp] at h
    simp only [ipiStep, hp] at hs
    by_cases hsoft : firstEvent p = some .soft
    · simp only [hsoft, if_true, syncExec, hq, Option.bind_eq_bind, Option.bind_some,
        Option.some.injEq] at hs
      split_ifs at hs with hb <;> subst hs
      · rw [setPlace_place]
        exact move_place_self
      · rw [setHart_self]
        exact hq
    · rw [if_neg hsoft] at hs
      obtain rfl := Option.some.inj hs
      rw [setPlace_place]
      exact hq
  | spinning p =>
    have hq : s.llc.place c = .spinning := by rwa [hp] at h
    simp only [ipiStep, hp, syncExec, hq, if_true, Option.bind_eq_bind, Option.bind_some,
      Option.some.injEq] at hs
    split_ifs at hs with hw <;> subst hs
    · rw [hp]
      exact hq
    · rw [setPlace_place]
      exact move_place_self
  | testFenceI | testSfenceVma =>
    rw [hp] at h
    simp only [ipiStep, hp, Option.some.injEq] at hs
    subst hs
    rw [setPlace_place]
    exact h
  | testHalt t =>
    rw [hp] at h
    simp only [ipiStep, hp, Option.some.injEq] at hs
    subst hs
    rw [setPlace_place]
    split_ifs <;> exact h
  | consume | restore | trapped | cleared | testSoft =>
    rw [hp] at h
    simp only [ipiStep, hp, Option.some.injEq] at hs
    subst hs
    rw [setHart_self]
    exact h

theorem roundLabel_core {m : SyncLabel N} (hm : roundLabel s c = some m) : m.core = c := by
  unfold roundLabel at hm
  split at hm <;> first | obtain rfl := Option.some.inj hm; rfl | cases hm

/-- A step changes the rendezvous by a section of its own core. -/
theorem ipiStep_llc (hs : ipiStep k s c = some s') :
    s'.llc = s.llc ∨ ∃ m, SyncStep s.llc m s'.llc ∧ m.core = c := by
  cases hp : (s.harts c).place with
  | round =>
    simp only [ipiStep, hp, Option.bind_eq_bind, Option.bind_eq_some_iff, Option.some.injEq] at hs
    obtain ⟨m, hm, x, hx, rfl⟩ := hs
    refine .inr ⟨m, ?_, roundLabel_core hm⟩
    split_ifs <;> exact hx
  | decoded p =>
    simp only [ipiStep, hp] at hs
    by_cases hsoft : firstEvent p = some .soft
    · simp only [hsoft, if_true, Option.bind_eq_bind, Option.bind_eq_some_iff, Option.some.injEq] at hs
      obtain ⟨x, hx, rfl⟩ := hs
      refine .inr ⟨.arrive c, ?_, rfl⟩
      split_ifs <;> exact hx
    · rw [if_neg hsoft] at hs
      obtain rfl := Option.some.inj hs
      exact .inl rfl
  | spinning p =>
    simp only [ipiStep, hp, Option.bind_eq_bind, Option.bind_eq_some_iff, Option.some.injEq] at hs
    obtain ⟨x, hx, rfl⟩ := hs
    refine .inr ⟨.spin c, ?_, rfl⟩
    split_ifs <;> exact hx
  | send | await =>
    simp only [ipiStep, hp] at hs
    split_ifs at hs
    any_goals
      obtain rfl := Option.some.inj hs
      exact .inl rfl
    obtain ⟨r, -, rfl⟩ := Option.map_eq_some_iff.mp hs
    exact .inl rfl
  | signal | notifySignal =>
    simp only [ipiStep, hp] at hs
    obtain ⟨r, -, rfl⟩ := Option.map_eq_some_iff.mp hs
    exact .inl rfl
  | notify =>
    simp only [ipiStep, hp] at hs
    split_ifs at hs <;> obtain rfl := Option.some.inj hs <;> exact .inl rfl
  | supervisor | enclave | monitor | halted => simp [ipiStep, hp] at hs
  | consume | restore | trapped | cleared | testSoft | testFenceI | testSfenceVma | testHalt =>
    simp only [ipiStep, hp, Option.some.injEq] at hs
    exact .inl (hs ▸ rfl)

theorem IpiStep.llc (hs : IpiStep k s l s') :
    s'.llc = s.llc ∨ ∃ m, SyncStep s.llc m s'.llc ∧ m.core = l.hart := by
  cases l with
  | step c => exact ipiStep_llc hs
  | flush c f =>
    simp only [IpiStep, ipiExec, Option.ite_none_right_eq_some, Option.bind_eq_bind,
      Option.bind_eq_some_iff, Option.some.injEq] at hs
    obtain ⟨-, x, hx, rfl⟩ := hs
    split_ifs
    · exact .inl rfl
    · exact .inr ⟨.start c f, hx, rfl⟩
  | deliver c =>
    simp only [IpiStep, ipiExec, Option.some.injEq] at hs
    exact .inl (hs ▸ rfl)
  | instruction | trap | ecall | call | «return» | enter | leave =>
    simp only [IpiStep, ipiExec, Option.ite_none_right_eq_some, Option.some.injEq] at hs
    exact .inl (hs.2 ▸ rfl)

/-- The places of all cores are right. -/
def PlacesOk (s : IpiState N) : Prop := ∀ c, PlaceOk N (s.harts c).place (s.llc.place c)

theorem maskOk_hartMask (k : IpiCode N) (m : Word) : MaskOk N (k.hartMask &&& m) := by
  intro i hi
  rw [BitVec.getLsbD_and, Bool.and_eq_true] at hi
  exact k.hartMask_lt i hi.1

theorem PlacesOk.own (h : PlacesOk s) (hs : IpiStep k s l s') :
    PlaceOk N (s'.harts l.hart).place (s'.llc.place l.hart) := by
  have hown := h l.hart
  cases l with
  | step c => exact ipiStep_placeOk hs hown
  | instruction c =>
    simp only [IpiStep, ipiExec, Option.ite_none_right_eq_some, Option.some.injEq] at hs
    exact hs.2 ▸ hown
  | deliver c =>
    simp only [IpiStep, ipiExec, Option.some.injEq] at hs
    subst hs
    rw [IpiLabel.hart, setHart_self]
    exact hown
  | flush c f =>
    simp only [IpiStep, ipiExec, Option.ite_none_right_eq_some, Option.bind_eq_bind,
      Option.bind_eq_some_iff, Option.some.injEq] at hs
    obtain ⟨hrun, x, hx, rfl⟩ := hs
    rw [IpiLabel.hart, hrun.1] at hown
    split_ifs with hb
    · rw [IpiLabel.hart, hrun.1]
      exact hown
    · simp only [syncExec, show s.llc.place c = .outside from hown, if_true, hb, Bool.false_eq_true,
        if_false, Option.some.injEq] at hx
      rw [IpiLabel.hart, setPlace_place]
      exact ⟨f, hx ▸ move_place_self⟩
  | ecall c ev pmask =>
    simp only [IpiStep, ipiExec, Option.ite_none_right_eq_some, Option.some.injEq] at hs
    obtain ⟨hrun, rfl⟩ := hs
    rw [IpiLabel.hart, hrun.1] at hown
    rw [IpiLabel.hart, setPlace_place]
    exact ⟨hown, maskOk_hartMask k _⟩
  | trap c | call c =>
    simp only [IpiStep, ipiExec, Option.ite_none_right_eq_some, Option.some.injEq] at hs
    obtain ⟨hrun, rfl⟩ := hs
    rw [IpiLabel.hart, hrun.1] at hown
    rw [IpiLabel.hart, setPlace_place]
    exact hown
  | «return» c | enter c | leave c =>
    simp only [IpiStep, ipiExec, Option.ite_none_right_eq_some, Option.some.injEq] at hs
    obtain ⟨hp, rfl⟩ := hs
    rw [IpiLabel.hart, hp] at hown
    rw [IpiLabel.hart, setPlace_place]
    exact hown

theorem IpiStep.llc_place (hs : IpiStep k s l s') (hc : c ≠ l.hart) : s'.llc.place c = s.llc.place c := by
  rcases hs.llc with heq | ⟨m, hm, hcore⟩
  · rw [heq]
  · exact hm.other (hcore ▸ hc)

/-- What holds in every reachable state of the cores and the rendezvous. -/
structure IpiInv (s : IpiState N) : Prop where
  places : PlacesOk s
  sync : SyncInv s.llc

theorem IpiInv.step (h : IpiInv s) (hs : IpiStep k s l s') : IpiInv s' where
  places c := by
    by_cases hc : c = l.hart
    · exact hc ▸ h.places.own hs
    · rw [hs.llc_place hc, (hs.moved.touched hc).place]
      exact h.places c
  sync := by
    rcases hs.llc with heq | ⟨m, hm, -⟩
    · exact heq ▸ h.sync
    · exact h.sync.step hm

theorem ipi_inv {ls : List (IpiLabel N)} (h : Runs (IpiStep k) ipiInit ls s) : IpiInv s :=
  Runs.invariant h ⟨fun _ => rfl, .idle rfl fun _ => .inl rfl⟩ fun _ _ _ hi hs => hi.step hs

/-! ## A remote fence against a cache round -/

/-- Core `a` collects the other cores for a cache round, with an interrupt on its way, and core `b`
    waits for it to take that interrupt. -/
structure Stuck (mask : Word) (a b : Fin N) (s : IpiState N) : Prop where
  inv : IpiInv s
  round : (s.harts a).place = .round
  collecting : ∃ f, s.llc.place a = .initiating f .collecting
  ipi : (s.harts a).ipi = true
  waits : ∃ incoming, (s.harts b).place = .await mask a incoming ∨ (s.harts b).place = .consume mask a incoming

variable {a b : Fin N}

theorem Stuck.outside (h : Stuck mask a b s) : s.llc.place b = .outside := by
  have hok := h.inv.places b
  obtain ⟨incoming, hw | hw⟩ := h.waits <;> rw [hw] at hok <;> exact hok.1

theorem Stuck.ne (h : Stuck mask a b s) : a ≠ b := by
  rintro rfl
  obtain ⟨incoming, hw | hw⟩ := h.waits <;> exact absurd (h.round.symm.trans hw) nofun

/-- Core `b` is not counted, so the round does not get past its first wait. -/
theorem Stuck.waiting_lt (h : Stuck mask a b s) : asInt s.llc.sync.waiting < N := by
  obtain ⟨f, hq⟩ := h.collecting
  cases h.inv.sync with
  | idle _ ho => rcases ho a with h | h <;> exact absurd (h.symm.trans hq) nofun
  | round hround =>
    obtain ⟨rfl, rfl, rfl⟩ := hround.eq_of_initiating hq
    have hcount := hround.counted rfl
    have hspin : ¬ N ≤ 1 + s.llc.spinners.card := fun hN =>
      absurd (h.outside.symm.trans ((all_spin_iff hround.not_spinning).mp hN b h.ne.symm)) nofun
    have hle := asInt_le s.llc.sync.waiting
    omega

/-- The loops of the two cores lead nowhere, and nobody else can help. -/
theorem Stuck.step (hm : mask.getLsbD a = true) (h : Stuck mask a b s) (hs : IpiStep k s l s') :
    Stuck mask a b s' := by
  have hinv := h.inv.step hs
  obtain ⟨f, hq⟩ := h.collecting
  obtain ⟨incoming, hw⟩ := h.waits
  by_cases ha : a = l.hart
  · have hb := (hs.moved.touched (ha ▸ h.ne.symm : b ≠ l.hart)).place
    subst ha
    rcases hs.next (by rw [h.round]; rfl) with ⟨hstep, -⟩ | rfl
    · simp only [ipiStep, h.round, roundLabel, hq, Option.bind_eq_bind, Option.bind_some, syncExec,
        h.waiting_lt, if_true, reduceCtorEq, if_false, Option.some.injEq] at hstep
      exact ⟨hinv, hstep ▸ h.round, ⟨f, hstep ▸ hq⟩, hstep ▸ h.ipi, incoming, hb ▸ hw⟩
    · exact ⟨hinv, by rw [setHart_self]; exact h.round, ⟨f, hq⟩, by rw [setHart_self]; exact h.ipi,
        incoming, hb ▸ hw⟩
  · have hta := hs.moved.touched ha
    refine ⟨hinv, hta.place.trans h.round, ⟨f, (hs.llc_place ha).trans hq⟩, hta.ipi h.ipi, ?_⟩
    by_cases hb : b = l.hart
    · subst hb
      rcases hs.next (by rcases hw with hw | hw <;> rw [hw] <;> rfl) with ⟨hstep, -⟩ | rfl
      · rcases hw with hw | hw
        · simp only [ipiStep, hw, if_neg (shift_ne_zero hm le_rfl), hm, if_true,
            hartOf_eq_some.mpr rfl, Option.map_some, h.ipi, Option.some.injEq] at hstep
          exact ⟨incoming, .inr (hstep ▸ setPlace_place)⟩
        · simp only [ipiStep, hw, Option.some.injEq] at hstep
          exact ⟨_, .inl (by rw [← hstep, setHart_self])⟩
      · exact ⟨incoming, by rw [setHart_self]; exact hw⟩
    · exact ⟨incoming, (hs.moved.touched hb).place ▸ hw⟩

/-- **A remote fence and a cache round can wait for each other for ever.**  If a core waits in
    `send_ipi_many` for a core that is collecting the others for `region_flush` or
    `region_cache_partitioning`, then neither call ever returns, whatever the other cores do. -/
theorem fence_round_deadlock {ls ls' : List (IpiLabel N)} {f : Initiator} {incoming : Bool}
    (h : Runs (IpiStep k) ipiInit ls s) (ha : (s.harts a).place = .round)
    (hq : s.llc.place a = .initiating f .collecting) (hi : (s.harts a).ipi = true)
    (hm : mask.getLsbD a = true) (hb : (s.harts b).place = .await mask a incoming)
    (h' : Runs (IpiStep k) s ls' s') :
    (s'.harts a).place = .round ∧ ∃ incoming', (s'.harts b).place = .await mask a incoming' ∨
      (s'.harts b).place = .consume mask a incoming' := by
  have hstuck : Stuck mask a b s' :=
    Runs.invariant h' ⟨ipi_inv h, ha, ⟨f, hq⟩, hi, incoming, .inl hb⟩ fun _ _ _ h hs => h.step hm hs
  exact ⟨hstuck.round, hstuck.waits⟩

set_option maxRecDepth 10000 in
/-- Core 0 flushes a region, and core 1 asks for a fence before it has noticed. -/
theorem fence_round_deadlock_two : ∃ ls s, Runs (IpiStep (twoCores fun p _ => p)) ipiInit ls s ∧
    ∀ ls' s', Runs (IpiStep (twoCores fun p _ => p)) s ls' s' →
      (s'.harts 0).place = .round ∧ ∃ incoming, (s'.harts 1).place = .await 1 0 incoming ∨
        (s'.harts 1).place = .consume 1 0 incoming := by
  obtain ⟨s, h, ha, hq, hi, hb⟩ : ∃ s, Runs (IpiStep (twoCores fun p _ => p)) ipiInit
      [.flush 0 .regionFlush, .step 0, .step 0, .step 0, .step 0, .ecall 1 .fenceI (some 1), .step 1, .step 1,
        .step 1] s ∧ (s.harts 0).place = .round ∧ s.llc.place 0 = .initiating .regionFlush .collecting ∧
      (s.harts 0).ipi = true ∧ (s.harts 1).place = .await 1 0 false :=
    Runs.exists_of_foldlM _ (by decide +kernel)
  exact ⟨_, s, h, fun ls' s' h' => fence_round_deadlock h ha hq hi (by decide) hb h'⟩

/-! ## Progress without a cache round -/

/-- The core has no `IPI_HALT`. -/
def Haltless (h : IpiHart) : Prop :=
  hasHalt h.pending = false ∧ match h.place with
    | .decoded p | .spinning p => hasHalt p = false
    | .testSoft t | .testFenceI t | .testSfenceVma t | .testHalt t => hasHalt t = false
    | .halted => False
    | _ => True

/-- The handler does not make up an `IPI_HALT`. -/
def NeverHalts (k : IpiCode N) : Prop := ∀ p w, hasHalt p = false → hasHalt (k.t0 p w) = false

theorem Touched.haltless (ht : Touched h h') (hs : Haltless h) : Haltless h' := by
  cases ht with
  | same => exact hs
  | posted => exact ⟨hasHalt_or.trans hs.1, hs.2⟩
  | raised => exact hs

theorem haltless_of_plain (hp : p.plain = true) (hs : hasHalt h.pending = false) :
    Haltless { h with place := p } := by
  refine ⟨hs, ?_⟩
  cases p <;> trivial

theorem Local.haltless (hk : NeverHalts k) (hl : Local k h h') (hs : Haltless h) : Haltless h' := by
  cases hl with
  | same => exact hs
  | deliver => exact hs
  | trap => exact ⟨hs.1, trivial⟩
  | start _ _ hp' => exact haltless_of_plain hp' hs.1
  | go _ _ hp' => exact haltless_of_plain hp' hs.1
  | wait _ hp' => rcases hp' with ⟨_, _, rfl⟩ | ⟨_, _, rfl⟩ | rfl <;> exact ⟨hs.1, trivial⟩
  | consume => exact ⟨hs.1, trivial⟩
  | restore => exact ⟨hs.1, trivial⟩
  | clear => exact ⟨hs.1, trivial⟩
  | take => exact ⟨hasHalt_zero, hs.1⟩
  | spin hp => exact ⟨hs.1, by simpa [Haltless, hp] using hs.2⟩
  | serve hp => rcases hp with hp | hp <;> exact ⟨hs.1, hk _ _ (by simpa [hp] using hs.2)⟩
  | testSoft hp => exact ⟨hs.1, by simpa [hp] using hs.2⟩
  | testFenceI hp => exact ⟨hs.1, by simpa [hp] using hs.2⟩
  | testSfenceVma hp => exact ⟨hs.1, by simpa [hp] using hs.2⟩
  | testHalt hp =>
    have ht := hs.2
    simp only [hp] at ht
    rw [ht]
    exact ⟨hs.1, trivial⟩

/-- No cache round is going on, and nobody halts. -/
structure Calm (s : IpiState N) : Prop where
  inv : IpiInv s
  haltless : ∀ c, Haltless (s.harts c)
  outside : ∀ c, s.llc.place c = .outside

theorem IpiStep.haltless (hk : NeverHalts k) (hs : IpiStep k s l s') (h : ∀ c, Haltless (s.harts c)) :
    ∀ c, Haltless (s'.harts c) := by
  intro c
  by_cases hc : c = l.hart
  · subst hc
    obtain ⟨h₁, ht, hl⟩ := hs.moved.toLocal
    exact hl.haltless hk (ht.haltless (h _))
  · exact (hs.moved.touched hc).haltless (h c)

theorem Calm.step (hk : NeverHalts k) (h : Calm s) (hs : IpiStep k s l s') (hllc : s'.llc = s.llc) : Calm s' :=
  ⟨h.inv.step hs, hs.haltless hk h.haltless, by rw [hllc]; exact h.outside⟩

theorem Calm.busy (h : Calm s) : s.llc.sync.busy = false := by
  cases h.inv.sync with
  | idle hb => exact hb
  | round hr => exact absurd ((h.outside _).symm.trans hr.initiator) nofun

/-- How far a core is from the supervisor. -/
def IpiPlace.rank : IpiPlace → ℕ
  | .supervisor => 0
  | .enclave => 2
  | .monitor => 1
  | .send _ _ i => 200 + 2 * (64 - i)
  | .signal _ _ i => 199 + 2 * (64 - i)
  | .await _ i _ => 2 + 2 * (64 - i)
  | .consume _ i _ => 3 + 2 * (64 - i)
  | .restore _ => 1
  | .notify _ => 0
  | .notifySignal _ => 0
  | .round => 0
  | .trapped => 7
  | .cleared => 6
  | .decoded _ => 5
  | .spinning _ => 0
  | .testSoft _ => 4
  | .testFenceI _ => 3
  | .testSfenceVma _ => 2
  | .testHalt _ => 1
  | .halted => 0

/-- The core reads an `ipi` that is set. -/
def Blocked (s : IpiState N) (c r : Fin N) : Prop :=
  (s.harts r).ipi = true ∧ ∃ mask incoming, mask.getLsbD r = true ∧ (s.harts c).place = .await mask r incoming

theorem lt_of_shift_ne_zero {i : ℕ} (h : mask >>> i ≠ 0) : i < 64 := by
  by_contra hi
  exact h (BitVec.ushiftRight_eq_zero (by omega))

/-- A core that is not in the supervisor and reads no `ipi` that is set gets nearer to it. -/
theorem Calm.advance (hk : NeverHalts k) (h : Calm s) (hp : (s.harts c).place ≠ .supervisor)
    (hb : ∀ r, ¬ Blocked s c r) : ∃ l s', IpiStep k s l s' ∧ l.hart = c ∧ Calm s' ∧
      (s'.harts c).place.rank < (s.harts c).place.rank := by
  have hok := h.inv.places c
  have hno {P : Prop} {q : Place} (hq : s.llc.place c = q) (hne : q ≠ .outside) : P :=
    absurd (hq.symm.trans (h.outside c)) hne
  have hgo {s' : IpiState N} (hs : ipiStep k s c = some s') (hllc : s'.llc = s.llc)
      (hlt : (s'.harts c).place.rank < (s.harts c).place.rank) : ∃ l s', IpiStep k s l s' ∧ l.hart = c ∧
        Calm s' ∧ (s'.harts c).place.rank < (s.harts c).place.rank :=
    ⟨.step c, s', hs, rfl, h.step (l := .step c) hk hs hllc, hlt⟩
  cases hplace : (s.harts c).place with
  | supervisor => exact absurd hplace hp
  | enclave =>
    have hs : IpiStep k s (.leave c) (s.setPlace c .monitor) := by simp [IpiStep, ipiExec, hplace]
    exact ⟨_, _, hs, rfl, h.step hk hs rfl, by rw [setPlace_place]; decide⟩
  | monitor =>
    have hs : IpiStep k s (.return c) (s.setPlace c .supervisor) := by simp [IpiStep, ipiExec, hplace]
    exact ⟨_, _, hs, rfl, h.step hk hs rfl, by rw [setPlace_place]; decide⟩
  | send ev mask i =>
    rw [hplace] at hok hgo
    by_cases hz : mask >>> i = 0
    · have hs : ipiStep k s c = some (s.setPlace c (if ev = .soft then .supervisor else .await mask 0 false)) := by
        simp only [ipiStep, hplace, if_pos hz]
      refine hgo hs rfl ?_
      rw [setPlace_place]
      split_ifs <;> simp only [IpiPlace.rank] <;> omega
    · have hi := lt_of_shift_ne_zero hz
      by_cases hbit : mask.getLsbD i = true
      · have hs : ipiStep k s c = some ((s.post ⟨i, hok.2 i hbit⟩ ev).setPlace c (.signal ev mask i)) := by
          simp only [ipiStep, hplace, if_neg hz, if_pos hbit, hartOf, dif_pos (hok.2 i hbit), Option.map_some]
        exact hgo hs rfl (by rw [setPlace_place]; simp only [IpiPlace.rank]; omega)
      · have hs : ipiStep k s c = some (s.setPlace c (.send ev mask (i + 1))) := by
          simp only [ipiStep, hplace, if_neg hz, if_neg hbit]
        exact hgo hs rfl (by rw [setPlace_place]; simp only [IpiPlace.rank]; omega)
  | signal ev mask i =>
    rw [hplace] at hok hgo
    have hi := hok.2.1 i hok.2.2
    have hlt := lt_of_shift_ne_zero (shift_ne_zero hok.2.2 le_rfl)
    have hs : ipiStep k s c = some ((s.raise ⟨i, hi⟩).setPlace c (.send ev mask (i + 1))) := by
      simp only [ipiStep, hplace, hartOf, dif_pos hi, Option.map_some]
    exact hgo hs rfl (by rw [setPlace_place]; simp only [IpiPlace.rank]; omega)
  | await mask i incoming =>
    rw [hplace] at hok hgo
    by_cases hz : mask >>> i = 0
    · have hs : ipiStep k s c = some (s.setPlace c (.restore incoming)) := by
        simp only [ipiStep, hplace, if_pos hz]
      exact hgo hs rfl (by rw [setPlace_place]; simp only [IpiPlace.rank]; omega)
    · have hi := lt_of_shift_ne_zero hz
      have hs : ipiStep k s c = some (s.setPlace c (.await mask (i + 1) incoming)) := by
        by_cases hbit : mask.getLsbD i = true
        · have hfree : ¬ (s.harts ⟨i, hok.2 i hbit⟩).ipi = true := fun hipi =>
            hb ⟨i, hok.2 i hbit⟩ ⟨hipi, mask, incoming, hbit, hplace⟩
          simp only [ipiStep, hplace, if_neg hz, if_pos hbit, hartOf, dif_pos (hok.2 i hbit), Option.map_some,
            if_neg hfree]
        · simp only [ipiStep, hplace, if_neg hz, if_neg hbit]
      exact hgo hs rfl (by rw [setPlace_place]; simp only [IpiPlace.rank]; omega)
  | testHalt t =>
    have ht := (h.haltless c).2
    simp only [hplace] at ht
    rw [hplace] at hgo
    have hs : ipiStep k s c = some (s.setPlace c .supervisor) := by simp [ipiStep, hplace, ht]
    exact hgo hs rfl (by rw [setPlace_place]; simp only [IpiPlace.rank]; omega)
  | decoded p =>
    rw [hplace] at hgo
    by_cases hsoft : firstEvent p = some .soft
    · have hs : ipiStep k s c =
          some (s.setHart c { s.harts c with ssip := true, place := .testSoft (k.t0 p false) }) := by
        simp [ipiStep, hplace, hsoft, syncExec, h.outside c, h.busy]
      exact hgo hs rfl (by rw [setHart_self]; simp only [IpiPlace.rank]; omega)
    · have hs : ipiStep k s c = some (s.setPlace c (.testSoft (k.t0 p false))) := by
        simp only [ipiStep, hplace, if_neg hsoft]
      exact hgo hs rfl (by rw [setPlace_place]; simp only [IpiPlace.rank]; omega)
  | testFenceI t =>
    rw [hplace] at hgo
    have hs : ipiStep k s c = some (s.setPlace c (.testSfenceVma t)) := by simp only [ipiStep, hplace]
    exact hgo hs rfl (by rw [setPlace_place]; simp only [IpiPlace.rank]; omega)
  | testSfenceVma t =>
    rw [hplace] at hgo
    have hs : ipiStep k s c = some (s.setPlace c (.testHalt t)) := by simp only [ipiStep, hplace]
    exact hgo hs rfl (by rw [setPlace_place]; simp only [IpiPlace.rank]; omega)
  | notify i =>
    rw [hplace] at hok
    exact hno hok.choose_spec (by simp)
  | notifySignal i =>
    rw [hplace] at hok
    exact hno hok.1.choose_spec (by simp)
  | round =>
    rw [hplace] at hok
    exact hno hok.choose_spec.choose_spec (by simp)
  | spinning p =>
    rw [hplace] at hok
    exact hno hok (by simp)
  | halted =>
    have ht := (h.haltless c).2
    simp only [hplace] at ht
  | consume mask i incoming =>
    rw [hplace] at hgo
    have hs : ipiStep k s c = some (s.setHart c
        { s.harts c with ipi := false, place := .await mask i (incoming || (s.harts c).ipi) }) := by
      simp only [ipiStep, hplace]
    exact hgo hs rfl (by rw [setHart_self]; simp only [IpiPlace.rank]; omega)
  | restore incoming =>
    rw [hplace] at hgo
    have hs : ipiStep k s c = some (s.setHart c { s.harts c with
        ipi := (s.harts c).ipi || incoming, msip := (s.harts c).msip || incoming, place := .supervisor }) := by
      simp only [ipiStep, hplace]
    exact hgo hs rfl (by rw [setHart_self]; simp only [IpiPlace.rank]; omega)
  | trapped =>
    rw [hplace] at hgo
    have hs : ipiStep k s c = some (s.setHart c
        { s.harts c with ipi := false, msip := false, place := .cleared }) := by simp only [ipiStep, hplace]
    exact hgo hs rfl (by rw [setHart_self]; simp only [IpiPlace.rank]; omega)
  | cleared =>
    rw [hplace] at hgo
    have hs : ipiStep k s c = some (s.setHart c
        { s.harts c with pending := 0, place := .decoded (s.harts c).pending }) := by simp only [ipiStep, hplace]
    exact hgo hs rfl (by rw [setHart_self]; simp only [IpiPlace.rank]; omega)
  | testSoft t =>
    rw [hplace] at hgo
    have hs : ipiStep k s c = some (s.setHart c
        { s.harts c with ssip := (s.harts c).ssip || has t .soft, place := .testFenceI t }) := by
      simp only [ipiStep, hplace]
    exact hgo hs rfl (by rw [setHart_self]; simp only [IpiPlace.rank]; omega)

/-- A calm state that the steps of core `r` lead to from `s`. -/
structure Near (s : IpiState N) (r : Fin N) (s' : IpiState N) : Prop where
  calm : Calm s'
  others : ∀ c, c ≠ r → (s'.harts c).place = (s.harts c).place

theorem Near.step {s₁ s₂ : IpiState N} (h : Near s r s₁) (hs : IpiStep k s₁ l s₂)
    (hl : l.hart = r) (hcalm : Calm s₂) : Near s r s₂ :=
  ⟨hcalm, fun c hc => (hs.moved.touched (hl.symm ▸ hc)).place.trans (h.others c hc)⟩

/-- While a core waits it takes its own interrupt back. -/
theorem Blocked.take_back (hk : NeverHalts k) (h : Calm s) (hb : Blocked s c r) :
    ∃ s', Runs (IpiStep k) s [.step c, .step c] s' ∧ Near s c s' ∧ (s'.harts c).ipi = false ∧
      ∃ mask incoming, mask.getLsbD r = true ∧ (s'.harts c).place = .await mask r incoming ∧
        (s'.harts c).place.rank = (s.harts c).place.rank := by
  obtain ⟨hipi, mask, incoming, hm, hp⟩ := hb
  have hs₁ : IpiStep k s (.step c) (s.setPlace c (.consume mask r incoming)) := by
    simp only [IpiStep, ipiExec, ipiStep, hp, if_neg (shift_ne_zero hm le_rfl), if_pos hm,
      hartOf_eq_some.mpr rfl, Option.map_some, if_pos hipi]
  have hp₁ : ((s.setPlace c (.consume mask r incoming)).harts c).place = .consume mask r incoming := setPlace_place
  have h₁ := h.step hk hs₁ rfl
  have hs₂ : IpiStep k (s.setPlace c (.consume mask r incoming)) (.step c)
      ((s.setPlace c (.consume mask r incoming)).setHart c
        { (s.setPlace c (.consume mask r incoming)).harts c with
          ipi := false
          place := .await mask r (incoming || ((s.setPlace c (.consume mask r incoming)).harts c).ipi) }) := by
    simp only [IpiStep, ipiExec, ipiStep, hp₁]
  have h₂ := h₁.step hk hs₂ rfl
  refine ⟨_, (Runs.single hs₁).append (.single hs₂), ((Near.mk h fun _ _ => rfl).step hs₁ rfl h₁).step hs₂ rfl h₂,
    by rw [setHart_self], mask, _, hm, by rw [setHart_self], ?_⟩
  rw [setHart_self, hp]
  simp only [IpiPlace.rank]

theorem Near.trans {s₁ s₂ : IpiState N} (h : Near s r s₁) (h' : Near s₁ r s₂) : Near s r s₂ :=
  ⟨h'.calm, fun c hc => (h'.others c hc).trans (h.others c hc)⟩

/-- A core in the supervisor takes its interrupt. -/
theorem Calm.interrupt (hk : NeverHalts k) (h : Calm s) (hp : (s.harts r).place = .supervisor)
    (hi : (s.harts r).ipi = true) :
    ∃ ls s', Runs (IpiStep k) s ls s' ∧ Near s r s' ∧ (s'.harts r).ipi = false := by
  have hs₁ : IpiStep k s (.deliver r) (s.setHart r { s.harts r with msip := (s.harts r).ipi }) := rfl
  have h₁ := h.step hk hs₁ rfl
  generalize hs : s.setHart r { s.harts r with msip := (s.harts r).ipi } = s₁ at hs₁ h₁
  have hr₁ : s₁.harts r = { s.harts r with msip := (s.harts r).ipi } := by rw [← hs, setHart_self]
  have hs₂ : IpiStep k s₁ (.trap r) (s₁.setPlace r .trapped) := by
    simp only [IpiStep, ipiExec, hr₁, hp, hi, and_self, if_true]
  have h₂ := h₁.step hk hs₂ rfl
  have hp₂ : ((s₁.setPlace r .trapped).harts r).place = .trapped := setPlace_place
  generalize s₁.setPlace r .trapped = s₂ at hs₂ h₂ hp₂
  have hs₃ : IpiStep k s₂ (.step r)
      (s₂.setHart r { s₂.harts r with ipi := false, msip := false, place := .cleared }) := by
    simp only [IpiStep, ipiExec, ipiStep, hp₂]
  have h₃ := h₂.step hk hs₃ rfl
  exact ⟨_, _, ((Runs.single hs₁).append (.single hs₂)).append (.single hs₃),
    (((Near.mk h fun _ _ => rfl).step hs₁ rfl h₁).step hs₂ rfl h₂).step hs₃ rfl h₃, by rw [setHart_self]⟩

/-- On its own a core can always get rid of its `ipi`. -/
theorem Calm.release (hk : NeverHalts k) (h : Calm s) (r : Fin N) :
    ∃ ls s', Runs (IpiStep k) s ls s' ∧ Near s r s' ∧ (s'.harts r).ipi = false := by
  have hstep : ∀ s₁, Near s r s₁ → ((s₁.harts r).ipi = false ∨ (s₁.harts r).place = .supervisor) ∨
      ∃ ls s₂, Runs (IpiStep k) s₁ ls s₂ ∧ Near s r s₂ ∧
        (if (s₂.harts r).ipi then (s₂.harts r).place.rank + 1 else 0) <
          if (s₁.harts r).ipi then (s₁.harts r).place.rank + 1 else 0 := by
    intro s₁ hn
    by_cases hi : (s₁.harts r).ipi = true
    · by_cases hp : (s₁.harts r).place = .supervisor
      · exact .inl (.inr hp)
      · by_cases hb : ∃ r', Blocked s₁ r r'
        · obtain ⟨r', hb⟩ := hb
          obtain ⟨s₂, hr, hn', hi', -⟩ := hb.take_back hk hn.calm
          exact .inr ⟨_, s₂, hr, hn.trans hn', by simp [hi, hi']⟩
        · obtain ⟨l, s₂, hs, hl, hcalm, hlt⟩ := hn.calm.advance hk hp (not_exists.mp hb)
          refine .inr ⟨_, s₂, .single hs, hn.step hs hl hcalm, ?_⟩
          rw [if_pos hi]
          split_ifs <;> omega
    · exact .inl (.inl (Bool.not_eq_true _ ▸ hi))
  obtain ⟨ls, s₁, hr, hn, hG⟩ := Runs.exists_of_measure _ _ _ hstep ⟨h, fun _ _ => rfl⟩
  rcases hG with hi | hp
  · exact ⟨ls, s₁, hr, hn, hi⟩
  · cases hi : (s₁.harts r).ipi with
    | false => exact ⟨ls, s₁, hr, hn, hi⟩
    | true =>
      obtain ⟨ls', s₂, hr', hn', hi'⟩ := hn.calm.interrupt hk hp hi
      exact ⟨_, s₂, hr.append hr', hn.trans hn', hi'⟩

/-- A core that waits for another one gets past it. -/
theorem Blocked.pass (hk : NeverHalts k) (h : Calm s) (hb : Blocked s c r) :
    ∃ ls s', Runs (IpiStep k) s ls s' ∧ Calm s' ∧ (s'.harts c).place.rank < (s.harts c).place.rank := by
  -- First the `ipi` that is waited for goes away.
  obtain ⟨ls, s₁, hr, hcalm, hi, mask, incoming, hm, hp, hrank⟩ : ∃ ls s₁, Runs (IpiStep k) s ls s₁ ∧
      Calm s₁ ∧ (s₁.harts r).ipi = false ∧ ∃ mask incoming, mask.getLsbD r = true ∧
      (s₁.harts c).place = .await mask r incoming ∧ (s₁.harts c).place.rank = (s.harts c).place.rank := by
    by_cases hc : c = r
    · subst hc
      obtain ⟨s₁, hr, hn, hi, hplace⟩ := hb.take_back hk h
      exact ⟨_, s₁, hr, hn.calm, hi, hplace⟩
    · obtain ⟨ls, s₁, hr, hn, hi⟩ := h.release hk r
      obtain ⟨-, mask, incoming, hm, hp⟩ := hb
      exact ⟨ls, s₁, hr, hn.calm, hi, mask, incoming, hm, (hn.others c hc).trans hp, by rw [hn.others c hc]⟩
  -- Then the core does not block on it.
  have hfree : ∀ r', ¬ Blocked s₁ c r' := by
    rintro r' ⟨hi', mask', incoming', -, hp'⟩
    rw [hp] at hp'
    obtain ⟨-, hr', -⟩ := (IpiPlace.await.injEq ..).mp hp'
    rw [← Fin.ext hr', hi] at hi'
    cases hi'
  obtain ⟨l, s₂, hs, -, hcalm', hlt⟩ := hcalm.advance hk (by rw [hp]; nofun) hfree
  exact ⟨_, s₂, hr.append (.single hs), hcalm', hrank ▸ hlt⟩

theorem haltless_run {ls : List (IpiLabel N)} (hk : NeverHalts k) (h : Runs (IpiStep k) ipiInit ls s) :
    ∀ c, Haltless (s.harts c) :=
  Runs.invariant (I := fun s => ∀ c, Haltless (s.harts c)) h (fun _ => ⟨hasHalt_zero, trivial⟩)
    fun _ _ _ hi hs => hs.haltless hk hi

/-- **Without a cache round there is no deadlock.**  From every reachable state in which no core is in
    `region_flush`, `region_cache_partitioning` or `handle_llc_changes`, and for every core, some
    continuation brings the core back to the supervisor, whoever waits for whom. -/
theorem calls_return {ls : List (IpiLabel N)} (hk : NeverHalts k) (h : Runs (IpiStep k) ipiInit ls s)
    (hidle : ∀ c, s.llc.place c = .outside) (c : Fin N) :
    ∃ ls' s', Runs (IpiStep k) s ls' s' ∧ (s'.harts c).place = .supervisor := by
  have hcalm : Calm s := ⟨ipi_inv h, haltless_run hk h, hidle⟩
  have hstep : ∀ s₁ : IpiState N, Calm s₁ → (s₁.harts c).place = .supervisor ∨
      ∃ ls s₂, Runs (IpiStep k) s₁ ls s₂ ∧ Calm s₂ ∧ (s₂.harts c).place.rank < (s₁.harts c).place.rank := by
    intro s₁ h₁
    by_cases hp : (s₁.harts c).place = .supervisor
    · exact .inl hp
    · by_cases hb : ∃ r, Blocked s₁ c r
      · exact .inr (hb.choose_spec.pass hk h₁)
      · obtain ⟨l, s₂, hs, -, hcalm', hlt⟩ := h₁.advance hk hp (not_exists.mp hb)
        exact .inr ⟨_, s₂, .single hs, hcalm', hlt⟩
  obtain ⟨ls', s', hr, -, hp⟩ := Runs.exists_of_measure _ _ _ hstep hcalm
  exact ⟨ls', s', hr, hp⟩

set_option maxRecDepth 10000 in
/-- Two cores that wait for each other. -/
theorem calls_return_two : ∃ ls s, Runs (IpiStep (twoCores fun p _ => p)) ipiInit ls s ∧
    (s.harts 0).place = .await 2 1 false ∧ (s.harts 1).place = .await 1 0 false ∧
    (s.harts 0).ipi = true ∧ (s.harts 1).ipi = true ∧
    ∃ ls' s', Runs (IpiStep (twoCores fun p _ => p)) s ls' s' ∧ (s'.harts 0).place = .supervisor := by
  obtain ⟨s, h, h0, h1, hi0, hi1, hidle⟩ : ∃ s, Runs (IpiStep (twoCores fun p _ => p)) ipiInit
      [.ecall 0 .fenceI (some 2), .ecall 1 .sfenceVma (some 1), .step 0, .step 0, .step 0, .step 0, .step 0,
        .step 1, .step 1, .step 1] s ∧ (s.harts 0).place = .await 2 1 false ∧
      (s.harts 1).place = .await 1 0 false ∧ (s.harts 0).ipi = true ∧ (s.harts 1).ipi = true ∧
      ∀ c, s.llc.place c = .outside := Runs.exists_of_foldlM _ (by decide +kernel)
  exact ⟨_, s, h, h0, h1, hi0, hi1, calls_return (fun _ _ h => h) h hidle 0⟩

end SecurityMonitor
