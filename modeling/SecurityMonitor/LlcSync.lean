/-
  The rendezvous through `llc_sync` (`src/common/handle_llc_changes.c`,
  `src/api/region_flush.c`, `src/api/region_cache_partitionning.c`).

  `region_flush` and `region_cache_partitioning` stop all other cores while they
  change the cache: the initiator sets `wait` and sends an interrupt to every core,
  each core counts itself in `waiting` and spins, and once all are there the
  initiator acts, clears `wait`, and waits until all have counted themselves in
  `left`.  A section under the lock of `llc_sync` is one step here (`syncExec`);
  the sections of different cores interleave freely, and a core may enter
  `handle_llc_changes` at any time that it is not inside one of the three functions.

  * `llc_rendezvous`: for any number of cores, while the initiator acts every other
    core spins, and there is one initiator at most;
  * `llc_arrivals`: a round that collects has counted exactly the cores that spin,
    if no core enters the handler while a round is being left.

  The second fails without the condition (`llc_arrivals_fails`): a core that enters
  then is counted in a round that is over, and spins through the next one.
-/
import SecurityMonitor.Params
import SecurityMonitor.Lib.Run

namespace SecurityMonitor

open ByteMem

variable {N : ℕ}

/-! ## The sections -/

/-- `llc_sync_t`, without its lock. -/
structure LlcSync where
  waiting : Word
  wait : Bool
  left : Word
  busy : Bool
deriving DecidableEq

/-- The functions that start a round; their sections are the same. -/
inductive Initiator where
  | regionFlush
  | regionCachePartitioning
deriving DecidableEq

/-- Where an initiator is: before, between and after its waits. -/
inductive Phase where
  /-- waits for `waiting` -/
  | collecting
  /-- past that loop, `wait` not yet cleared -/
  | acting
  /-- waits for `left` -/
  | draining
  /-- past that loop, `busy` not yet cleared -/
  | releasing
deriving DecidableEq

inductive Place where
  | outside
  /-- in the spin loop of `handle_llc_changes` -/
  | spinning
  | initiating (f : Initiator) (p : Phase)
deriving DecidableEq

@[ext] structure SyncState (N : ℕ) where
  sync : LlcSync
  place : Fin N → Place
deriving DecidableEq

def SyncState.move (s : SyncState N) (sync : LlcSync) (c : Fin N) (p : Place) : SyncState N where
  sync := sync
  place := Function.update s.place c p

/-- The state that `sm_init` leaves. -/
def syncInit : SyncState N where
  sync := { waiting := 0, wait := false, left := 0, busy := false }
  place := fun _ => .outside

inductive SyncLabel (N : ℕ) where
  /-- the first section of `handle_llc_changes` -/
  | arrive (c : Fin N)
  /-- a turn of its spin loop -/
  | spin (c : Fin N)
  | start (c : Fin N) (f : Initiator)
  | pollWaiting (c : Fin N)
  | clear (c : Fin N)
  | pollLeft (c : Fin N)
  | release (c : Fin N)
deriving DecidableEq

/-- A counter as the loops read it, into an `int`. -/
def asInt (w : Word) : ℤ := (w.setWidth 32).toInt

def syncExec (s : SyncState N) : SyncLabel N → Option (SyncState N)
  | .arrive c =>
    if s.place c = .outside then
      some (if s.sync.busy then s.move { s.sync with waiting := s.sync.waiting + 1 } c .spinning else s)
    else none
  | .spin c =>
    if s.place c = .spinning then
      some (if s.sync.wait then s else s.move { s.sync with left := s.sync.left + 1 } c .outside)
    else none
  | .start c f =>
    if s.place c = .outside then
      -- a second initiator returns `MONITOR_CONCURRENT_CALL`
      some (if s.sync.busy then s else
        s.move { waiting := 1, wait := true, left := 0, busy := true } c (.initiating f .collecting))
    else none
  | .pollWaiting c =>
    match s.place c with
    | .initiating f .collecting =>
      some (if asInt s.sync.waiting < N then s else s.move s.sync c (.initiating f .acting))
    | _ => none
  | .clear c =>
    match s.place c with
    | .initiating f .acting =>
      some (s.move { s.sync with waiting := 0, wait := false, left := 1 } c (.initiating f .draining))
    | _ => none
  | .pollLeft c =>
    match s.place c with
    | .initiating f .draining =>
      some (if asInt s.sync.left < N then s else s.move s.sync c (.initiating f .releasing))
    | _ => none
  | .release c =>
    match s.place c with
    | .initiating _ .releasing => some (s.move { s.sync with busy := false } c .outside)
    | _ => none

def SyncStep (s : SyncState N) (l : SyncLabel N) (s' : SyncState N) : Prop := syncExec s l = some s'

/-- What a step can do, beside nothing. -/
inductive SyncMove (s : SyncState N) : SyncLabel N → SyncState N → Prop
  | stays (l) : SyncMove s l s
  | arrives {c} (hc : s.place c = .outside) (hb : s.sync.busy = true) :
      SyncMove s (.arrive c) (s.move { s.sync with waiting := s.sync.waiting + 1 } c .spinning)
  | leaves {c} (hc : s.place c = .spinning) (hw : s.sync.wait = false) :
      SyncMove s (.spin c) (s.move { s.sync with left := s.sync.left + 1 } c .outside)
  | starts {c f} (hc : s.place c = .outside) (hb : s.sync.busy = false) :
      SyncMove s (.start c f)
        (s.move { waiting := 1, wait := true, left := 0, busy := true } c (.initiating f .collecting))
  | collected {c f} (hc : s.place c = .initiating f .collecting) (hn : N ≤ asInt s.sync.waiting) :
      SyncMove s (.pollWaiting c) (s.move s.sync c (.initiating f .acting))
  | clears {c f} (hc : s.place c = .initiating f .acting) :
      SyncMove s (.clear c)
        (s.move { s.sync with waiting := 0, wait := false, left := 1 } c (.initiating f .draining))
  | drained {c f} (hc : s.place c = .initiating f .draining) (hn : N ≤ asInt s.sync.left) :
      SyncMove s (.pollLeft c) (s.move s.sync c (.initiating f .releasing))
  | releases {c f} (hc : s.place c = .initiating f .releasing) :
      SyncMove s (.release c) (s.move { s.sync with busy := false } c .outside)

variable {s s' : SyncState N} {l : SyncLabel N} {c c' : Fin N} {f : Initiator} {es : List (SyncLabel N)}

theorem SyncStep.move (h : SyncStep s l s') : SyncMove s l s' := by
  rw [SyncStep] at h
  cases l with
  | arrive c =>
    simp only [syncExec] at h
    split_ifs at h with hc hb <;> obtain rfl := Option.some.inj h
    · exact .arrives hc hb
    · exact .stays _
  | spin c =>
    simp only [syncExec] at h
    split_ifs at h with hc hw <;> obtain rfl := Option.some.inj h
    · exact .stays _
    · exact .leaves hc (Bool.not_eq_true _ ▸ hw)
  | start c f =>
    simp only [syncExec] at h
    split_ifs at h with hc hb <;> obtain rfl := Option.some.inj h
    · exact .stays _
    · exact .starts hc (Bool.not_eq_true _ ▸ hb)
  | pollWaiting c =>
    simp only [syncExec] at h
    split at h
    · rename_i hc
      split_ifs at h with hn <;> obtain rfl := Option.some.inj h
      · exact .stays _
      · exact .collected hc (not_lt.mp hn)
    · exact absurd h nofun
  | clear c =>
    simp only [syncExec] at h
    split at h
    · obtain rfl := Option.some.inj h
      exact .clears ‹_›
    · exact absurd h nofun
  | pollLeft c =>
    simp only [syncExec] at h
    split at h
    · rename_i hc
      split_ifs at h with hn <;> obtain rfl := Option.some.inj h
      · exact .stays _
      · exact .drained hc (not_lt.mp hn)
    · exact absurd h nofun
  | release c =>
    simp only [syncExec] at h
    split at h
    · obtain rfl := Option.some.inj h
      exact .releases ‹_›
    · exact absurd h nofun

/-! ## Counters -/

theorem asInt_le (w : Word) : asInt w ≤ w.toNat := by
  have hlow : ((w.setWidth 32).toNat : ℤ) ≤ w.toNat := by
    rw [BitVec.toNat_setWidth]
    exact_mod_cast Nat.mod_le _ _
  have hint : asInt w ≤ (w.setWidth 32).toNat := by
    rw [asInt, BitVec.toInt_eq_toNat_cond]
    split <;> omega
  exact hint.trans hlow

theorem asInt_ofNat {n : ℕ} (h : n < 2 ^ 31) : asInt (BitVec.ofNat 64 n) = n := by
  rw [asInt, BitVec.setWidth_ofNat_of_le (by decide), BitVec.toInt_ofNat', Int.bmod_eq_of_le] <;> omega

/-- The cores in the spin loop. -/
def SyncState.spinners (s : SyncState N) : Finset (Fin N) := Finset.univ.filter fun c => s.place c = .spinning

theorem mem_spinners : c ∈ s.spinners ↔ s.place c = .spinning := by
  simp [SyncState.spinners]

variable {y : LlcSync} {p : Place}

@[simp] theorem move_sync : (s.move y c p).sync = y := rfl

@[simp] theorem move_place_self : (s.move y c p).place c = p := Function.update_self ..

theorem move_place_ne (h : c' ≠ c) : (s.move y c p).place c' = s.place c' := Function.update_of_ne h ..

theorem spinners_move (hp : p ≠ .spinning) : (s.move y c p).spinners = s.spinners.erase c := by
  ext c'
  rw [Finset.mem_erase, mem_spinners, mem_spinners]
  by_cases h : c' = c
  · subst h
    simp [hp]
  · simp [h, move_place_ne h]

theorem spinners_initiating {ph : Phase} (hc : s.place c ≠ .spinning) :
    (s.move y c (.initiating f ph)).spinners = s.spinners := by
  rw [spinners_move (p := .initiating f ph) nofun, Finset.erase_eq_of_notMem fun h => hc (mem_spinners.mp h)]

theorem card_spinners_arrives (hc : s.place c ≠ .spinning) :
    (s.move y c .spinning).spinners.card = s.spinners.card + 1 := by
  rw [← Finset.card_insert_of_notMem fun h => hc (mem_spinners.mp h)]
  congr 1
  ext c'
  rw [Finset.mem_insert, mem_spinners, mem_spinners]
  by_cases h : c' = c
  · subst h
    simp
  · simp [h, move_place_ne h]

theorem card_spinners_leaves (hc : s.place c = .spinning) (hp : p ≠ .spinning) :
    (s.move y c p).spinners.card + 1 = s.spinners.card := by
  rw [spinners_move hp, Finset.card_erase_add_one (mem_spinners.mpr hc)]

theorem card_spinners_lt (hc : s.place c ≠ .spinning) : s.spinners.card < N := by
  have hlt := Finset.card_lt_univ_of_notMem fun h => hc (mem_spinners.mp h)
  rwa [Fintype.card_fin] at hlt

/-- A core that does not spin is the only one if `N - 1` cores spin. -/
theorem all_spin_iff (hc : s.place c ≠ .spinning) :
    N ≤ 1 + s.spinners.card ↔ ∀ c', c' ≠ c → s.place c' = .spinning := by
  have hsub : s.spinners ⊆ Finset.univ.erase c := fun c' hc' =>
    Finset.mem_erase.mpr ⟨fun h => hc (h ▸ mem_spinners.mp hc'), Finset.mem_univ _⟩
  have hcard : (Finset.univ.erase c).card + 1 = N := by
    rw [Finset.card_erase_add_one (Finset.mem_univ c), Finset.card_univ, Fintype.card_fin]
  constructor
  · intro hn c' hne
    have heq := Finset.eq_of_subset_of_card_le hsub (by omega)
    exact mem_spinners.mp (heq ▸ Finset.mem_erase.mpr ⟨hne, Finset.mem_univ _⟩)
  · intro h
    have hsup : Finset.univ.erase c ⊆ s.spinners := fun c' hc' =>
      mem_spinners.mpr (h c' (Finset.mem_erase.mp hc').1)
    have hle := Finset.card_le_card hsup
    omega

/-! ## One initiator, and nobody else -/

/-- Whether `wait` is set in a phase. -/
def Phase.waits : Phase → Bool
  | .collecting | .acting => true
  | .draining | .releasing => false

/-- Core `c` is the initiator, in phase `p`. -/
structure Round (s : SyncState N) (c : Fin N) (f : Initiator) (p : Phase) : Prop where
  initiator : s.place c = .initiating f p
  others : ∀ c', c' ≠ c → s.place c' = .outside ∨ s.place c' = .spinning
  busy : s.sync.busy = true
  wait : s.sync.wait = p.waits
  counted : p.waits = true → s.sync.waiting.toNat ≤ 1 + s.spinners.card
  stopped : p = .acting → ∀ c', c' ≠ c → s.place c' = .spinning

inductive SyncInv (s : SyncState N) : Prop
  | idle (hb : s.sync.busy = false) (ho : ∀ c, s.place c = .outside ∨ s.place c = .spinning)
  | round {c : Fin N} {f : Initiator} {p : Phase} (h : Round s c f p)

section
variable {ph ph' : Phase} {f' : Initiator}

theorem Round.eq_of_initiating (h : Round s c f ph) (hc : s.place c' = .initiating f' ph') :
    c' = c ∧ f' = f ∧ ph' = ph := by
  have heq : c' = c := by
    by_contra hne
    rcases h.others c' hne with ho | ho <;> exact absurd (ho.symm.trans hc) nofun
  subst heq
  rw [h.initiator] at hc
  injection hc with hf hp
  exact ⟨rfl, hf.symm, hp.symm⟩

theorem Round.not_spinning (h : Round s c f ph) : s.place c ≠ .spinning := by
  rw [h.initiator]
  nofun

theorem Round.arrives (h : Round s c f ph) (hc : s.place c' = .outside) :
    Round (s.move { s.sync with waiting := s.sync.waiting + 1 } c' .spinning) c f ph := by
  have hne : c ≠ c' := by rintro rfl; exact absurd (hc.symm.trans h.initiator) nofun
  refine ⟨(move_place_ne hne).trans h.initiator, fun c₁ h₁ => ?_, h.busy, h.wait, fun hp => ?_, fun hp => ?_⟩
  · by_cases h' : c₁ = c'
    · subst h'
      exact .inr move_place_self
    · rw [move_place_ne h']
      exact h.others c₁ h₁
  · have hadd : (s.sync.waiting + 1).toNat ≤ s.sync.waiting.toNat + 1 := by
      rw [BitVec.toNat_add]
      exact Nat.mod_le _ _
    have hcount := h.counted hp
    rw [card_spinners_arrives (by rw [hc]; nofun)]
    exact hadd.trans (by omega)
  · exact absurd (hc.symm.trans (h.stopped hp c' hne.symm)) nofun

theorem Round.leaves (h : Round s c f ph) (hc : s.place c' = .spinning) (hw : s.sync.wait = false) :
    Round (s.move { s.sync with left := s.sync.left + 1 } c' .outside) c f ph := by
  have hne : c ≠ c' := by rintro rfl; exact h.not_spinning hc
  have hp : ph.waits = false := h.wait.symm.trans hw
  refine ⟨(move_place_ne hne).trans h.initiator, fun c₁ h₁ => ?_, h.busy, h.wait, ?_, ?_⟩
  · by_cases h' : c₁ = c'
    · subst h'
      exact .inl move_place_self
    · rw [move_place_ne h']
      exact h.others c₁ h₁
  · rw [hp]
    nofun
  · rintro rfl
    exact absurd hp nofun

/-- The initiator moves to its next phase. -/
theorem Round.advance (h : Round s c f ph) (hb : y.busy = true) (hw : y.wait = ph'.waits)
    (hcount : ph'.waits = true → y.waiting.toNat ≤ 1 + s.spinners.card)
    (hstop : ph' = .acting → ∀ c', c' ≠ c → s.place c' = .spinning) :
    Round (s.move y c (.initiating f ph')) c f ph' where
  initiator := move_place_self
  others c' hne := by rw [move_place_ne hne]; exact h.others c' hne
  busy := hb
  wait := hw
  counted := by rw [spinners_initiating h.not_spinning]; exact hcount
  stopped hp c' hne := by rw [move_place_ne hne]; exact hstop hp c' hne

theorem Round.starts (ho : ∀ c, s.place c = .outside ∨ s.place c = .spinning) :
    Round (s.move { waiting := 1, wait := true, left := 0, busy := true } c (.initiating f .collecting))
      c f .collecting where
  initiator := move_place_self
  others c' hne := by rw [move_place_ne hne]; exact ho c'
  busy := rfl
  wait := rfl
  counted _ := Nat.le_add_right 1 _
  stopped := nofun

/-- At most as many cores are counted as spin, so `N` counted means that all others spin. -/
theorem Round.collected (h : Round s c f .collecting) (hn : N ≤ asInt s.sync.waiting) :
    Round (s.move s.sync c (.initiating f .acting)) c f .acting := by
  have hall : N ≤ 1 + s.spinners.card := by
    have hle := asInt_le s.sync.waiting
    have hcount := h.counted rfl
    omega
  exact h.advance h.busy h.wait (fun _ => h.counted rfl) fun _ => (all_spin_iff h.not_spinning).mp hall

/-- A core that is outside again. -/
theorem move_outside (ho : ∀ c', c' ≠ c → s.place c' = .outside ∨ s.place c' = .spinning) (c' : Fin N) :
    (s.move y c .outside).place c' = .outside ∨ (s.move y c .outside).place c' = .spinning := by
  by_cases h : c' = c
  · subst h
    exact .inl move_place_self
  · rw [move_place_ne h]
    exact ho c' h

theorem SyncInv.step (h : SyncInv s) (hs : SyncStep s l s') : SyncInv s' := by
  cases h with
  | idle hb ho =>
    have hno {c : Fin N} {f ph} (hc : s.place c = .initiating f ph) : SyncInv s' := by
      rcases ho c with h | h <;> exact absurd (h.symm.trans hc) nofun
    cases hs.move with
    | stays => exact .idle hb ho
    | arrives _ hb' => exact absurd (hb.symm.trans hb') nofun
    | leaves => exact .idle hb (move_outside fun c' _ => ho c')
    | starts => exact .round (Round.starts ho)
    | collected hc => exact hno hc
    | clears hc => exact hno hc
    | drained hc => exact hno hc
    | releases hc => exact hno hc
  | @round c f ph h =>
    cases hs.move with
    | stays => exact .round h
    | arrives hc _ => exact .round (h.arrives hc)
    | leaves hc hw => exact .round (h.leaves hc hw)
    | starts _ hb => exact absurd (hb.symm.trans h.busy) nofun
    | collected hc hn =>
      obtain ⟨rfl, rfl, rfl⟩ := h.eq_of_initiating hc
      exact .round (h.collected hn)
    | clears hc =>
      obtain ⟨rfl, rfl, rfl⟩ := h.eq_of_initiating hc
      exact .round (h.advance h.busy rfl nofun nofun)
    | drained hc hn =>
      obtain ⟨rfl, rfl, rfl⟩ := h.eq_of_initiating hc
      exact .round (h.advance h.busy h.wait nofun nofun)
    | releases hc =>
      obtain ⟨rfl, rfl, rfl⟩ := h.eq_of_initiating hc
      exact .idle rfl (move_outside h.others)

theorem sync_inv (h : Runs SyncStep syncInit es s) : SyncInv (s : SyncState N) :=
  Runs.invariant h (.idle rfl fun _ => .inl rfl) fun _ _ _ hi hs => hi.step hs

/-- An initiator that acts goes on until it clears `wait`. -/
theorem SyncStep.acting (hs : SyncStep s l s') (hc : s.place c = .initiating f .acting)
    (hl : l ≠ .clear c) : s'.place c = .initiating f .acting := by
  have hother {c' : Fin N} {y p} (hne : s.place c' ≠ .initiating f .acting) :
      (s.move y c' p).place c = .initiating f .acting := by
    rw [move_place_ne, hc]
    rintro rfl
    exact hne hc
  cases hs.move with
  | stays => exact hc
  | arrives hc' => exact hother (by rw [hc']; nofun)
  | leaves hc' => exact hother (by rw [hc']; nofun)
  | starts hc' => exact hother (by rw [hc']; nofun)
  | collected hc' => exact hother (by rw [hc']; nofun)
  | @clears c' f' =>
    rw [move_place_ne, hc]
    rintro rfl
    exact hl rfl
  | drained hc' => exact hother (by rw [hc']; nofun)
  | releases hc' => exact hother (by rw [hc']; nofun)

end

/-- **While an initiator acts all other cores spin**, and they do so until it clears `wait`;
    at any time there is one initiator at most. -/
theorem llc_rendezvous (h : Runs SyncStep (syncInit : SyncState N) es s) :
    (∀ c f, s.place c = .initiating f .acting → ∀ es' s', Runs SyncStep s es' s' → .clear c ∉ es' →
      ∀ c', c' ≠ c → s'.place c' = .spinning) ∧
    ∀ c c' f f' p p', s.place c = .initiating f p → s.place c' = .initiating f' p' → c = c' := by
  constructor
  · intro c f hc es' s' hr hclear c' hne
    have hacting : s'.place c = .initiating f .acting := by
      refine Runs.invariant_events (I := fun es' s' => .clear c ∉ es' → s'.place c = .initiating f .acting)
        hr (fun _ => hc) (fun es' s₁ l s₂ ih hs hl => ?_) hclear
      rw [List.mem_append, not_or, List.mem_singleton] at hl
      exact hs.acting (ih hl.1) (Ne.symm hl.2)
    cases sync_inv (h.append hr) with
    | idle _ ho => rcases ho c with h | h <;> exact absurd (h.symm.trans hacting) nofun
    | round h =>
      obtain ⟨rfl, rfl, rfl⟩ := h.eq_of_initiating hacting
      exact h.stopped rfl c' hne
  · intro c c' f f' p p' hc hc'
    cases sync_inv h with
    | idle _ ho => rcases ho c with h | h <;> exact absurd (h.symm.trans hc) nofun
    | round h => exact (h.eq_of_initiating hc).1.trans (h.eq_of_initiating hc').1.symm

/-- Three cores: core 0 flushes a region once the other two have arrived. -/
theorem llc_rendezvous_three : ∃ es s, Runs SyncStep (syncInit : SyncState 3) es s ∧
    s.place 0 = .initiating .regionFlush .acting ∧ s.place 1 = .spinning ∧ s.place 2 = .spinning := by
  obtain ⟨s, h, hc⟩ : ∃ s, Runs SyncStep (syncInit : SyncState 3)
      [.start 0 .regionFlush, .arrive 2, .arrive 1, .pollWaiting 0] s ∧
      s.place 0 = .initiating .regionFlush .acting := Runs.exists_of_foldlM _ (by decide)
  have hspin := (llc_rendezvous h).1 0 _ hc [] s (.nil s) List.not_mem_nil
  exact ⟨_, s, h, hc, hspin 1 (by decide), hspin 2 (by decide)⟩

/-! ## Arrivals -/

/-- No core enters `handle_llc_changes` while a round is being left. -/
def Timely (s : SyncState N) (l : SyncLabel N) : Prop :=
  ∀ c, l = .arrive c → s.sync.busy = true → s.sync.wait = true

def TimelyStep (s : SyncState N) (l : SyncLabel N) (s' : SyncState N) : Prop :=
  SyncStep s l s' ∧ Timely s l

instance (s : SyncState N) (l : SyncLabel N) : Decidable (Timely s l) :=
  match l with
  | .arrive _ => decidable_of_iff (s.sync.busy = true → s.sync.wait = true)
      ⟨fun h _ _ => h, fun h => h _ rfl⟩
  | .spin _ | .start .. | .pollWaiting _ | .clear _ | .pollLeft _ | .release _ => isTrue nofun

/-- What the counters of a round say. -/
def Phase.Exact (s : SyncState N) : Phase → Prop
  | .collecting => s.sync.waiting = BitVec.ofNat 64 (1 + s.spinners.card)
  | .acting => True
  | .draining => s.sync.left = BitVec.ofNat 64 (N - s.spinners.card)
  | .releasing => s.spinners = ∅

/-- The counters are exact, and nobody spins between the rounds. -/
inductive TimelyInv (s : SyncState N) : Prop
  | idle (hb : s.sync.busy = false) (ho : ∀ c, s.place c = .outside)
  | round {c : Fin N} {f : Initiator} {p : Phase} (h : Round s c f p) (hp : p.Exact s)

theorem TimelyInv.step (h : TimelyInv s) (hs : TimelyStep s l s') : TimelyInv s' := by
  cases h with
  | idle hb ho =>
    have hno {c : Fin N} {p : Place} (hc : s.place c = p) (hp : p ≠ .outside) : TimelyInv s' :=
      absurd (hc.symm.trans (ho c)) hp
    have hempty : s.spinners = ∅ := by
      refine Finset.eq_empty_of_forall_notMem fun c hc => ?_
      exact absurd ((ho c).symm.trans (mem_spinners.mp hc)) nofun
    cases hs.1.move with
    | stays => exact .idle hb ho
    | arrives _ hb' => exact absurd (hb.symm.trans hb') nofun
    | leaves hc => exact hno hc nofun
    | @starts c f hc =>
      refine .round (Round.starts fun c => .inl (ho c)) ?_
      rw [Phase.Exact, spinners_initiating (by rw [hc]; nofun), hempty]
      rfl
    | collected hc => exact hno hc nofun
    | clears hc => exact hno hc nofun
    | drained hc => exact hno hc nofun
    | releases hc => exact hno hc nofun
  | @round c f ph h hp =>
    cases hs.1.move with
    | stays => exact .round h hp
    | @arrives c' hc hb =>
      -- the round collects: in the phases after it `wait` is clear, and nobody arrives
      have hwaits : ph.waits = true := h.wait.symm.trans (hs.2 c' rfl hb)
      refine .round (h.arrives hc) ?_
      cases ph with
      | collecting =>
        rw [Phase.Exact] at hp ⊢
        rw [card_spinners_arrives (by rw [hc]; nofun), ← Nat.add_assoc, ← BitVec.ofNat_add_ofNat, ← hp]
        rfl
      | acting => trivial
      | draining => exact absurd hwaits nofun
      | releasing => exact absurd hwaits nofun
    | @leaves c' hc hw =>
      have hwaits : ph.waits = false := h.wait.symm.trans hw
      have hcard := card_spinners_leaves (p := .outside) (y := { s.sync with left := s.sync.left + 1 }) hc nofun
      refine .round (h.leaves hc hw) ?_
      cases ph with
      | collecting => exact absurd hwaits nofun
      | acting => exact absurd hwaits nofun
      | draining =>
        rw [Phase.Exact] at hp ⊢
        have hle := card_spinners_lt h.not_spinning
        have hsucc : N - s.spinners.card + 1 =
            N - (s.move { s.sync with left := s.sync.left + 1 } c' .outside).spinners.card := by omega
        rw [← hsucc, ← BitVec.ofNat_add_ofNat, ← hp]
        rfl
      | releasing =>
        rw [Phase.Exact] at hp
        exact absurd (mem_spinners.mpr hc) (hp ▸ Finset.notMem_empty c')
    | starts _ hb => exact absurd (hb.symm.trans h.busy) nofun
    | collected hc hn =>
      obtain ⟨rfl, rfl, rfl⟩ := h.eq_of_initiating hc
      exact .round (h.collected hn) trivial
    | clears hc =>
      obtain ⟨rfl, rfl, rfl⟩ := h.eq_of_initiating hc
      refine .round (h.advance h.busy rfl nofun nofun) ?_
      have hle := (all_spin_iff h.not_spinning).mpr (h.stopped rfl)
      have hlt := card_spinners_lt h.not_spinning
      rw [Phase.Exact, spinners_initiating h.not_spinning, show N - s.spinners.card = 1 by omega]
      rfl
    | @drained c f hc hn =>
      obtain ⟨rfl, rfl, rfl⟩ := h.eq_of_initiating hc
      have hround : Round (s.move s.sync c (.initiating f .releasing)) c f .releasing :=
        h.advance h.busy h.wait nofun nofun
      refine .round hround ?_
      rw [Phase.Exact] at hp
      rw [Phase.Exact]
      have hle := asInt_le s.sync.left
      have hmod : (BitVec.ofNat 64 (N - s.spinners.card)).toNat ≤ N - s.spinners.card := Nat.mod_le _ _
      have hlt := card_spinners_lt h.not_spinning
      rw [← hp] at hmod
      rw [spinners_initiating h.not_spinning, ← Finset.card_eq_zero]
      omega
    | releases hc =>
      obtain ⟨rfl, rfl, rfl⟩ := h.eq_of_initiating hc
      refine .idle rfl fun c' => (move_outside h.others c').resolve_right fun hspin => ?_
      have hmem := mem_spinners.mpr hspin
      rw [spinners_move (p := .outside) nofun, show s.spinners = ∅ from hp] at hmem
      exact absurd (Finset.mem_of_mem_erase hmem) (Finset.notMem_empty c')

/-- **A round that collects has counted exactly the cores that spin**, in every run in which
    no core enters the handler while a round is being left; with all other cores in the
    spin loop the initiator goes on. -/
theorem llc_arrivals (h : Runs TimelyStep (syncInit : SyncState N) es s) (hc : s.place c = .initiating f .collecting) :
    s.sync.waiting = BitVec.ofNat 64 (1 + s.spinners.card) ∧
    (N < 2 ^ 31 → (∀ c', c' ≠ c → s.place c' = .spinning) → N ≤ asInt s.sync.waiting) := by
  have hinv : TimelyInv s := Runs.invariant h (.idle rfl fun _ => rfl) fun _ _ _ hi hs => hi.step hs
  cases hinv with
  | idle _ ho => exact absurd ((ho c).symm.trans hc) nofun
  | round h hp =>
    obtain ⟨rfl, rfl, rfl⟩ := h.eq_of_initiating hc
    rw [Phase.Exact] at hp
    refine ⟨hp, fun hN hall => ?_⟩
    have hlt := card_spinners_lt h.not_spinning
    have hle := (all_spin_iff h.not_spinning).mpr hall
    rw [hp, asInt_ofNat (by omega)]
    omega

/-- Core 1 comes in time for a second round. -/
theorem llc_arrivals_two : ∃ es s, Runs TimelyStep (syncInit : SyncState 2) es s ∧
    s.place 0 = .initiating .regionFlush .collecting ∧ s.place 1 = .spinning ∧
    s.sync.waiting = BitVec.ofNat 64 (1 + s.spinners.card) := by
  obtain ⟨s, h, hc, hspin⟩ : ∃ s, Runs (fun s l s' => restrict Timely syncExec s l = some s')
      (syncInit : SyncState 2) [.start 0 .regionFlush, .arrive 1, .pollWaiting 0, .clear 0, .spin 1,
        .pollLeft 0, .release 0, .start 0 .regionFlush, .arrive 1] s ∧
      s.place 0 = .initiating .regionFlush .collecting ∧ s.place 1 = .spinning :=
    Runs.exists_of_foldlM _ (by decide)
  have hr : Runs TimelyStep syncInit _ s := h.mono fun _ _ _ h => (restrict_eq_some.mp h).symm
  exact ⟨_, s, hr, hc, hspin, (llc_arrivals hr hc).1⟩

/-- The initiator collects, and the other core spins but is not counted. -/
def stuckState : SyncState 2 where
  sync := { waiting := 1, wait := true, left := 0, busy := true }
  place := fun c => if c = 0 then .initiating .regionFlush .collecting else .spinning

theorem stuckState_stays (l : SyncLabel 2) : (syncExec stuckState l).all (fun s => s = stuckState) = true := by
  cases l with
  | start c f => revert c; cases f <;> decide
  | _ c => revert c; decide

/-- Core 1 leaves the first round and enters the handler again before the round is over.  In
    the next round it spins and is not counted, and no step changes anything any more. -/
theorem llc_arrivals_fails : ∃ es s, Runs SyncStep (syncInit : SyncState 2) es s ∧
    s.place 0 = .initiating .regionFlush .collecting ∧ s.place 1 = .spinning ∧
    s.sync.waiting ≠ BitVec.ofNat 64 (1 + s.spinners.card) ∧
    ∀ es' s', Runs SyncStep s es' s' → s' = s := by
  obtain ⟨s, h, hsync, hplace⟩ : ∃ s, Runs SyncStep (syncInit : SyncState 2)
      [.start 0 .regionFlush, .arrive 1, .pollWaiting 0, .clear 0, .spin 1, .arrive 1, .pollLeft 0,
        .release 0, .start 0 .regionFlush] s ∧
      s.sync = stuckState.sync ∧ ∀ c, s.place c = stuckState.place c :=
    Runs.exists_of_foldlM _ (by decide)
  obtain rfl : s = stuckState := SyncState.ext hsync (funext hplace)
  refine ⟨_, _, h, rfl, rfl, by decide, fun es' s' hr => ?_⟩
  refine Runs.invariant (I := fun s' => s' = stuckState) hr rfl fun s₁ l s₂ heq hs => ?_
  have hall := stuckState_stays l
  rw [← heq, show syncExec s₁ l = some s₂ from hs] at hall
  exact (of_decide_eq_true hall).trans heq

end SecurityMonitor
