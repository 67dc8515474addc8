/-
  The locks a call holds.

  A call acquires locks with a try-lock and releases them by hand, region locks
  through its map `locked_regions`.  A `LockView` is what it knows about them: the
  locks it holds and the map.  Data can change between any two instructions, and an
  acquire can fail at any time, so the contract of the instructions (`lockContract`)
  lets a read answer anything; it asks one thing of a call, that it only releases
  what it holds.

  The contract comes in three modes, for what the checks of metadata pages do about
  their lock when they fail:

  * `repaired`: they undo what they did;
  * `source`: they act when the region was locked before, and leave it locked
    otherwise.  The first case releases a lock that the caller will release again,
    so nothing is said about the rest of the call;
  * `enter`: as the source, for `enclave_enter`, which returns after that release;
    the lock of the core is never obtained.

  `Owns live xs v`: the call holds the locks `xs` and, if the map is `live`, the
  regions in it.  Each call has one lemma: from nothing held, it keeps the contract,
  and with repaired checks it holds nothing when it returns.
-/
import SecurityMonitor.Machine
import SecurityMonitor.Lib.Contract

namespace SecurityMonitor

open ByteMem Prog

variable {N : ℕ} {ρ : Type}

/-! ## Views -/

/-- What a call knows about locks: those it holds, and its `locked_regions`. -/
@[ext] structure LockView (N : ℕ) where
  held : LockId N → Bool
  flags : Fin 64 → Bool

namespace LockView

/-- A call that starts. -/
def empty : LockView N := ⟨fun _ => false, fun _ => false⟩

def take (v : LockView N) (l : LockId N) : LockView N := { v with held := Function.update v.held l true }

def drop (v : LockView N) (l : LockId N) : LockView N := { v with held := Function.update v.held l false }

def mark (v : LockView N) (i : Fin 64) : LockView N := { v with flags := Function.update v.flags i true }

/-- Lock region `i` and put it into the map. -/
def add (v : LockView N) (i : Fin 64) : LockView N := (v.take (.region i)).mark i

/-- Release region `i` and take it out of the map. -/
def unadd (v : LockView N) (i : Fin 64) : LockView N :=
  { v.drop (.region i) with flags := Function.update v.flags i false }

theorem drop_take {v : LockView N} {l : LockId N} (h : v.held l = false) : (v.take l).drop l = v := by
  ext1
  · show Function.update (Function.update v.held l true) l false = v.held
    rw [Function.update_idem, ← h, Function.update_eq_self]
  · rfl

theorem unadd_add {v : LockView N} {i : Fin 64} (h : v.held (.region i) = false)
    (hi : v.flags i = false) : (v.add i).unadd i = v := by
  ext1
  · show ((v.take (.region i)).drop (.region i)).held = v.held
    rw [drop_take h]
  · show Function.update (Function.update v.flags i true) i false = v.flags
    rw [Function.update_idem, ← hi, Function.update_eq_self]

end LockView

/-! ## The contract -/

/-- What the checks of metadata pages do about their lock when they fail. -/
inductive UndoMode where
  | repaired
  | source
  | enter
  deriving DecidableEq

def LockId.isCore : LockId N → Bool
  | .core _ => true
  | _ => false

def undoPre (μ : UndoMode) (previouslyLocked : Bool) (i : Fin 64) (v : LockView N)
    (Q : LockView N → Prop) : Prop :=
  match μ, previouslyLocked with
  | .repaired, true => Q v
  | .repaired, false => v.held (.region i) = true ∧ Q (v.unadd i)
  | .source, true => v.held (.region i) = true
  | .enter, true => v.held (.region i) = true ∧ Q (v.drop (.region i))
  | _, false => Q v

def lockPre (μ : UndoMode) : (i : Instr N) → LockView N → (i.Answer → LockView N → Prop) → Prop
  | .getData, v, Q => ∀ d, Q d v
  | .setData _, v, Q => Q () v
  | .acquire l, v, Q =>
    Q false v ∧ (v.held l = false → (μ = .enter → l.isCore = false) → Q true (v.take l))
  | .release l, v, Q => v.held l = true ∧ Q () (v.drop l)
  | .getLocked, v, Q => Q v.flags v
  | .markLocked i, v, Q => Q () (v.mark i)
  | .clearLocked, v, Q => Q () { v with flags := fun _ => false }
  | .undo b i, v, Q => undoPre μ b i v (Q ())

theorem undoPre_mono {μ : UndoMode} {b : Bool} {i : Fin 64} {v : LockView N} {Q Q' : LockView N → Prop}
    (h : ∀ v, Q v → Q' v) (hQ : undoPre μ b i v Q) : undoPre μ b i v Q' := by
  cases μ <;> cases b
  case repaired.false | enter.true => exact ⟨hQ.1, h _ hQ.2⟩
  case source.true => exact hQ
  all_goals exact h _ hQ

/-- What a call may rely on, and that it only releases what it holds. -/
def lockContract (μ : UndoMode) : Contract (Instr.Answer (N := N)) (LockView N) where
  pre := lockPre μ
  mono {i v Q Q'} h hQ := by
    cases i with
    | getData => exact fun d => h _ _ (hQ d)
    | acquire l => exact ⟨h _ _ hQ.1, fun hl hc => h _ _ (hQ.2 hl hc)⟩
    | release l => exact ⟨hQ.1, h _ _ hQ.2⟩
    | undo b i => exact undoPre_mono (h ()) hQ
    | setData d => exact h _ _ hQ
    | getLocked => exact h _ _ hQ
    | markLocked i => exact h _ _ hQ
    | clearLocked => exact h _ _ hQ

/-! ## What a call holds -/

/-- The call holds the locks `xs` and, if its map is live, the regions in it. -/
structure Owns (live : Bool) (xs : List (LockId N)) (v : LockView N) : Prop where
  held : ∀ l, v.held l = true ↔ l ∈ xs ∨ live = true ∧ ∃ i, l = .region i ∧ v.flags i = true
  noRegion : ∀ i, LockId.region i ∉ xs
  nodup : xs.Nodup

/-- With repaired checks, a call that returns holds nothing. -/
def Released (μ : UndoMode) (v : LockView N) : Prop := μ = .repaired → ∀ l, v.held l = false

section
variable {α : Type} {μ : UndoMode} {R : ρ → LockView N → Prop} {v : LockView N} {live : Bool}
  {xs : List (LockId N)} {l : LockId N} {r : Word} {i : Fin 64}

theorem owns_empty : Owns live [] (LockView.empty : LockView N) :=
  ⟨fun l => by simp [LockView.empty], by simp, .nil⟩

theorem Released.empty : Released μ (LockView.empty : LockView N) := fun _ _ => rfl

theorem Owns.released (h : Owns false [] v) : Released μ v := by
  intro _ l
  have := h.held l
  simpa using this

theorem Owns.region (h : Owns live xs v) :
    v.held (.region i) = true ↔ live = true ∧ v.flags i = true := by
  rw [h.held]
  refine ⟨?_, fun hi => .inr ⟨hi.1, i, rfl, hi.2⟩⟩
  rintro (hx | ⟨hl, j, hj, hf⟩)
  · exact absurd hx (h.noRegion i)
  · cases hj; exact ⟨hl, hf⟩

theorem Owns.take (h : Owns live xs v) (hl : ∀ i, l ≠ .region i) (hv : v.held l = false) :
    Owns live (l :: xs) (v.take l) := by
  refine ⟨fun l' => ?_, fun i hi => ?_, List.nodup_cons.mpr ⟨fun hx => ?_, h.nodup⟩⟩
  · show Function.update v.held l true l' = true ↔ _
    rw [Function.update_apply, List.mem_cons]
    split_ifs with hll
    · simp [hll]
    · rw [h.held l']; simp [hll]; rfl
  · rcases List.mem_cons.mp hi with hi | hi
    · exact hl i hi.symm
    · exact h.noRegion i hi
  · rw [(h.held l).mpr (.inl hx)] at hv; exact absurd hv (by simp)

theorem Owns.drop (h : Owns live (l :: xs) v) : v.held l = true ∧ Owns live xs (v.drop l) := by
  have hnd := List.nodup_cons.mp h.nodup
  refine ⟨(h.held l).mpr (.inl (by simp)), fun l' => ?_, fun i hi =>
    h.noRegion i (List.mem_cons_of_mem _ hi), hnd.2⟩
  show Function.update v.held l false l' = true ↔ _
  rw [Function.update_apply]
  split_ifs with hll
  · subst hll
    refine iff_of_false (by simp) ?_
    rintro (hx | ⟨-, i, rfl, -⟩)
    · exact hnd.1 hx
    · exact h.noRegion i (by simp)
  · rw [h.held l', List.mem_cons]; simp [hll]; rfl

theorem Owns.add (h : Owns true xs v) : Owns true xs (v.add i) := by
  refine ⟨fun l => ?_, h.noRegion, h.nodup⟩
  show Function.update v.held (.region i) true l = true ↔
    l ∈ xs ∨ true = true ∧ ∃ j, l = .region j ∧ Function.update v.flags i true j = true
  rw [Function.update_apply]
  split_ifs with hl
  · exact iff_of_true rfl (.inr ⟨rfl, i, hl, by simp⟩)
  · rw [h.held l]
    refine or_congr_right (and_congr_right fun _ => exists_congr fun j => and_congr_right fun hj => ?_)
    rw [Function.update_of_ne]
    rintro rfl
    exact hl hj

/-! ## Instructions -/

theorem Owns.acquire {Q : Bool → LockView N → Prop} (h : Owns live xs v) (hl : ∀ i, l ≠ .region i)
    (hok : ∀ v, Owns live (l :: xs) v → (μ = .enter → l.isCore = false) → Q true v)
    (hno : Q false v) : (platformLockAcquire l).meets (lockContract μ) Q R v :=
  ⟨hno, fun hv hc => hok _ (h.take hl hv) hc⟩

theorem Owns.release {Q : Unit → LockView N → Prop} (h : Owns live (l :: xs) v)
    (hQ : ∀ v, Owns live xs v → Q () v) : (platformLockRelease l).meets (lockContract μ) Q R v :=
  ⟨h.drop.1, hQ _ h.drop.2⟩

theorem meets_getData {Q : Data N → LockView N → Prop} (hQ : ∀ d, Q d v) :
    (getData : M N ρ _).meets (lockContract μ) Q R v := hQ

theorem meets_setData {Q : Unit → LockView N → Prop} {d : Data N} (hQ : Q () v) :
    (setData d).meets (lockContract μ) Q R v := hQ

theorem meets_regionIndex {Q : Fin 64 → LockView N → Prop} (hQ : Q (toRegion r) v) :
    (regionIndex r).meets (lockContract μ) Q R v := by
  rw [regionIndex, meets_ite]
  exact ⟨fun _ => hQ, fun _ => trivial⟩

/-- A region that is locked without the map is released with its index. -/
theorem meets_lockRegion {Q : Bool → LockView N → Prop} (hno : Q false v)
    (hok : ∀ v', v'.held (.region (toRegion r)) = true → v'.drop (.region (toRegion r)) = v → Q true v') :
    (lockRegion r).meets (lockContract μ) Q R v := by
  rw [lockRegion, meets_bind]
  refine meets_regionIndex ⟨hno, fun hl _ => hok _ ?_ (LockView.drop_take hl)⟩
  exact Function.update_self ..

theorem meets_unlockRegion {Q : Unit → LockView N → Prop} (hl : v.held (.region (toRegion r)) = true)
    (hQ : Q () (v.drop (.region (toRegion r)))) : (unlockRegion r).meets (lockContract μ) Q R v := by
  rw [unlockRegion, meets_bind]
  exact meets_regionIndex ⟨hl, hQ⟩

theorem Owns.addLockRegion {Q : Bool → LockView N → Prop} (h : Owns true xs v)
    (hok : ∀ v', Owns true xs v' → (v.flags (toRegion r) = true → v' = v) →
      (v.flags (toRegion r) = false → v'.held (.region (toRegion r)) = true ∧
        v'.unadd (toRegion r) = v) → Q true v')
    (hno : Q false v) : (addLockRegion r).meets (lockContract μ) Q R v := by
  rw [SecurityMonitor.addLockRegion, meets_bind]
  refine meets_regionIndex ?_
  rw [meets_bind]
  show Prog.meets _ _ _ (if v.flags (toRegion r) = true then _ else _) v
  rw [meets_ite]
  refine ⟨fun hi => hok v h (fun _ => rfl) fun hf => ?_, fun hi => ?_⟩
  · rw [hi] at hf; exact absurd hf (by simp)
  · rw [meets_bind]
    refine ⟨hno, fun hl _ => ?_⟩
    refine hok _ h.add (fun hf => absurd hf hi) fun hf => ⟨?_, LockView.unadd_add hl hf⟩
    exact Function.update_self ..

theorem Owns.unlockRegions {Q : Unit → LockView N → Prop} (h : Owns true xs v)
    (hQ : ∀ v, Owns false xs v → Q () v) : unlockRegions.meets (lockContract μ) Q R v := by
  refine meets_mono (meets_forEach (List.finRange 64) (fun done w => w.flags = v.flags ∧
    ∀ l, w.held l = true ↔ l ∈ xs ∨ ∃ i, l = .region i ∧ v.flags i = true ∧ i ∉ done)
    ⟨rfl, fun l => by simpa using h.held l⟩ ?_) (fun _ w hw => hQ w ⟨fun l => ?_, h.noRegion, h.nodup⟩)
    fun _ _ h => h
  · -- the regions of the map that are not visited yet are held
    intro done i left hleft w ⟨hf, hheld⟩
    have hi : i ∉ done := fun hi => by
      have hnd := List.nodup_finRange 64
      rw [← hleft] at hnd
      exact (List.disjoint_of_nodup_append hnd) hi (by simp)
    rw [meets_bind]
    show Prog.meets _ _ _ (if w.flags i = true then _ else _) w
    rw [meets_ite, hf]
    refine ⟨fun hfi => ⟨(hheld _).mpr (.inr ⟨i, rfl, hfi, hi⟩), hf, fun l => ?_⟩, fun hfi =>
      ⟨hf, fun l => ?_⟩⟩
    · show Function.update w.held (.region i) false l = true ↔ _
      rw [Function.update_apply]
      split_ifs with hl
      · subst hl
        refine iff_of_false (by simp) ?_
        rintro (hx | ⟨j, hj, -, hd⟩)
        · exact h.noRegion i hx
        · cases hj; exact hd (by simp)
      · rw [hheld l]
        refine or_congr_right (exists_congr fun j => and_congr_right fun hj => ?_)
        have hji : j ≠ i := fun h => hl (by rw [hj, h])
        simp [hji]
    · rw [hheld l]
      refine or_congr_right (exists_congr fun j => and_congr_right fun hj => and_congr_right fun hfj => ?_)
      have hji : j ≠ i := by rintro rfl; exact hfi hfj
      simp [hji]
  · rw [hw.2 l]
    simp

/-! ## Helpers -/

theorem meets_regionOwner {E : Empty → LockView N → Prop} {Q : Word → LockView N → Prop}
    (hQ : ∀ w, Q w v) : (regionOwner r).meets (lockContract μ) E Q v := by
  simp only [regionOwner, meets_bind, meets_ite, meets_ret, Bool.not_eq_true']
  refine ⟨fun _ => hQ _, fun _ => meets_lockRegion (refused (hQ _)) fun v' hl hv => ?_⟩
  exact obtained (meets_getData fun d => meets_unlockRegion hl (hv ▸ hQ _))

theorem meets_ownsTable {Q : Bool → LockView N → Prop} {e base : Word} (hQ : ∀ b, Q b v) :
    (ownsTable e base).meets (lockContract μ) Q R v := by
  simp only [ownsTable, regionOwnerLockFree, meets_bind, meets_ite, meets_call, meets_ret, meets_pure,
    meets_fault]
  refine ⟨fun _ => ⟨fun _ => ⟨fun _ => hQ _, fun _ => meets_getData fun d => hQ _⟩, fun _ =>
    meets_regionOwner fun w => hQ _⟩, fun _ => trivial⟩

theorem meets_loadPageTableEntryFrom {E : Empty → LockView N → Prop} {Q : ApiResult → LockView N → Prop}
    {e p va acl : Word} {level : ℕ} (hQ : ∀ x, Q x v) : ∀ (i : ℕ) (base : Word),
    (loadPageTableEntryFrom e p va level acl i base).meets (lockContract μ) E Q v
  | i, base => by
    rw [loadPageTableEntryFrom]
    simp only [meets_bind, meets_ite, meets_ret, Bool.not_eq_true']
    refine meets_getData fun d => ⟨fun _ => meets_setData (hQ _), fun _ => ⟨fun _ => hQ _, fun _ => ?_⟩⟩
    refine meets_ownsTable fun b => ⟨fun _ => hQ _, fun _ => ?_⟩
    cases i with
    | zero => exact hQ _
    | succ i => exact meets_loadPageTableEntryFrom hQ i _

/-- The walk through the page tables locks the region of a table for a moment only. -/
theorem meets_loadPageTableEntry {E : Empty → LockView N → Prop} {Q : ApiResult → LockView N → Prop}
    {e p va level acl : Word} (hQ : ∀ x, Q x v) :
    (loadPageTableEntry e p va level acl).meets (lockContract μ) E Q v := by
  simp only [loadPageTableEntry, meets_bind, meets_ite, meets_ret, Bool.not_eq_true']
  refine meets_getData fun d => ⟨fun _ => meets_setData (hQ _), fun _ => ?_⟩
  exact meets_ownsTable fun b => ⟨fun _ => hQ _, fun _ => meets_loadPageTableEntryFrom hQ _ _⟩

/-- What a check of metadata pages that fails leaves of the view `v`. -/
structure Undone (μ : UndoMode) (xs : List (LockId N)) (v w : LockView N) : Prop where
  owns : μ ≠ .enter → Owns true xs w
  repaired : μ = .repaired → w = v

theorem Owns.undone (h : Owns true xs v) : Undone μ xs v v := ⟨fun _ => h, fun _ => rfl⟩

theorem Undone.released (h : Undone μ xs .empty v) : Released μ v := by
  intro hμ l
  rw [h.repaired hμ]
  rfl

/-- The failure of a check in the view `v'` after its region was added to `v`. -/
theorem Owns.failUnlocking {E : Empty → LockView N → Prop} {Q : ApiResult → LockView N → Prop}
    {v' : LockView N} (h : Owns true xs v) (h' : Owns true xs v')
    (hold : v.flags (toRegion r) = true → v' = v)
    (hnew : v.flags (toRegion r) = false → v'.held (.region (toRegion r)) = true ∧
      v'.unadd (toRegion r) = v)
    (hQ : ∀ w, Undone μ xs v w → Q .invalidState w) :
    (failUnlocking (v.flags (toRegion r)) r).meets (lockContract μ) E Q v' := by
  simp only [SecurityMonitor.failUnlocking, meets_bind, meets_ret]
  refine meets_regionIndex ?_
  show undoPre μ (v.flags (toRegion r)) (toRegion r) v' (Q .invalidState)
  cases hf : v.flags (toRegion r) with
  | true =>
    have hheld : v.held (.region (toRegion r)) = true := h.region.mpr ⟨rfl, hf⟩
    rw [hold hf]
    cases μ with
    | repaired => exact hQ v h.undone
    | source => exact hheld
    | enter => exact ⟨hheld, hQ _ ⟨fun hn => absurd rfl hn, fun h => absurd h (by decide)⟩⟩
  | false =>
    obtain ⟨hheld, hv⟩ := hnew hf
    cases μ with
    | repaired => exact ⟨hheld, hQ _ (by rw [hv]; exact h.undone)⟩
    | source => exact hQ v' ⟨fun _ => h', fun h => absurd h (by decide)⟩
    | enter => exact hQ v' ⟨fun _ => h', fun h => absurd h (by decide)⟩

theorem Owns.addLockRegionIffValidMetadata {E : Empty → LockView N → Prop}
    {Q : ApiResult → LockView N → Prop} {ptr : Word} {k : MetadataPage} (h : Owns true xs v)
    (hok : ∀ v, Owns true xs v → Q .ok v) (hno : ∀ x w, x ≠ .ok → Undone μ xs v w → Q x w) :
    (addLockRegionIffValidMetadata ptr k).meets (lockContract μ) E Q v := by
  simp only [SecurityMonitor.addLockRegionIffValidMetadata, meets_bind, meets_ite, meets_ret,
    meets_call, Bool.not_eq_true']
  refine ⟨fun _ => hno _ _ (by decide) h.undone, fun _ => ⟨fun _ => hno _ _ (by decide) h.undone, fun _ => ?_⟩⟩
  refine h.addLockRegion (fun v' h' hold hnew => obtained (meets_getData fun d => ?_))
    (refused (hno _ _ (by decide) h.undone))
  have hfail := h.failUnlocking (E := fun a _ => a.elim) h' hold hnew fun w hw =>
    hno .invalidState w (by decide) hw
  exact ⟨fun _ => hfail, fun _ => ⟨fun _ => hfail, fun _ => ⟨fun _ => hfail, fun _ => hok v' h'⟩⟩⟩

theorem Owns.addLockRegionIffFreeMetadataPages {E : Empty → LockView N → Prop}
    {Q : ApiResult → LockView N → Prop} {ptr n : Word} (h : Owns true xs v)
    (hok : ∀ v, Owns true xs v → Q .ok v) (hno : ∀ x w, x ≠ .ok → Undone μ xs v w → Q x w) :
    (addLockRegionIffFreeMetadataPages ptr n).meets (lockContract μ) E Q v := by
  simp only [SecurityMonitor.addLockRegionIffFreeMetadataPages, meets_bind, meets_ite, meets_ret,
    meets_call, Bool.not_eq_true']
  refine ⟨fun _ => hno _ _ (by decide) h.undone, fun _ => ⟨fun _ => hno _ _ (by decide) h.undone, fun _ =>
    ⟨fun _ => hno _ _ (by decide) h.undone, fun _ => ?_⟩⟩⟩
  refine h.addLockRegion (fun v' h' hold hnew => obtained (meets_getData fun d => ?_))
    (refused (hno _ _ (by decide) h.undone))
  have hfail := h.failUnlocking (E := fun a _ => a.elim) h' hold hnew fun w hw =>
    hno .invalidState w (by decide) hw
  refine ⟨fun _ => hfail, fun _ => ⟨fun _ => hfail, fun _ => ?_⟩⟩
  refine meets_mono (meets_forEach _ (fun _ w => w = v') rfl ?_) (fun _ w hw => hw ▸ hok v' h')
    fun _ _ h => h
  rintro done i left - _ rfl
  rw [meets_ite, meets_bind, meets_call]
  exact ⟨fun _ => hfail, fun _ => rfl⟩

end

/-! ## Calls -/

section
variable {μ : UndoMode} {E : Empty → LockView N → Prop} {c : Fin N} {r e t : Word} {img : Image N}

theorem not_region_untrusted (i : Fin 64) : (LockId.untrustedState : LockId N) ≠ .region i := nofun

theorem not_region_core (i : Fin 64) : LockId.core c ≠ .region i := nofun

/-- The end of a call whose only locks are regions of its map. -/
theorem Owns.done {ρ : Type} {R : ρ → LockView N → Prop} {v : LockView N} (h : Owns true [] v) :
    SecurityMonitor.unlockRegions.meets (lockContract μ) (fun _ => Released μ) R v :=
  h.unlockRegions fun _ hv => hv.released

/-- The end of a call that holds the core and the untrusted state. -/
theorem Owns.release_all {ρ : Type} {R : ρ → LockView N → Prop} {v : LockView N}
    (h : Owns true [.core c, .untrustedState] v) :
    (unlockCore c).meets (lockContract μ) (fun _ v => unlockUntrustedState.meets (lockContract μ)
      (fun _ v => SecurityMonitor.unlockRegions.meets (lockContract μ) (fun _ => Released μ) R v) R v) R v :=
  h.release fun _ h => h.release fun _ h => h.done

/-! ### Regions -/

theorem regionCheckOwned_locks :
    (regionCheckOwned c r).meets (lockContract μ) E (fun _ => Released μ) .empty := by
  simp only [regionCheckOwned, meets_bind, meets_ite, meets_ret, Bool.not_eq_true']
  refine ⟨fun _ => .empty, fun _ => meets_getData fun d => ?_⟩
  refine meets_lockRegion (refused .empty) fun v hl hv => obtained ?_
  have hend : (unlockRegion r).meets (lockContract μ) (fun _ => Released μ)
      (fun (_ : ApiResult) => Released μ) v :=
    meets_unlockRegion hl (hv ▸ .empty)
  exact ⟨fun _ => hend, fun _ => ⟨fun _ => hend, fun _ => hend⟩⟩

theorem regionState_locks :
    (regionState r).meets (lockContract μ) E (fun _ => Released μ) (.empty : LockView N) := by
  simp only [regionState, meets_bind, meets_ite, meets_ret, Bool.not_eq_true']
  refine ⟨fun _ => .empty, fun _ => meets_lockRegion (refused .empty) fun v hl hv => ?_⟩
  exact obtained (meets_getData fun d => meets_unlockRegion hl (hv ▸ .empty))

theorem regionFlush_locks :
    (regionFlush r).meets (lockContract μ) E (fun _ => Released μ) (.empty : LockView N) := by
  simp only [regionFlush, flushLlcRegion, meets_bind, meets_ite, meets_ret, meets_pure,
    Bool.not_eq_true']
  refine ⟨fun _ => .empty, fun _ => meets_lockRegion (refused .empty) fun v hl hv => ?_⟩
  refine obtained (meets_getData fun d => ⟨fun _ => meets_unlockRegion hl (hv ▸ .empty),
    fun _ => meets_regionIndex (meets_unlockRegion hl (hv ▸ .empty))⟩)

theorem regionMetadataCreate_locks :
    (regionMetadataCreate r).meets (lockContract μ) E (fun _ => Released μ) (.empty : LockView N) := by
  simp only [regionMetadataCreate, meets_bind, meets_ite, meets_ret, Bool.not_eq_true']
  refine ⟨fun _ => .empty, fun _ => meets_lockRegion (refused .empty) fun v hl hv => ?_⟩
  refine obtained (meets_getData fun d => ⟨fun _ => meets_unlockRegion hl (hv ▸ .empty),
    fun _ => meets_setData (meets_unlockRegion hl (hv ▸ .empty))⟩)

theorem regionUpdate_locks :
    (regionUpdate c).meets (lockContract μ) E (fun _ => Released μ) .empty := by
  simp only [regionUpdate, meets_bind, meets_ite, meets_ret, Bool.not_eq_true']
  refine (owns_empty : Owns false [] .empty).acquire not_region_untrusted (fun v h _ => obtained ?_)
    (refused .empty)
  refine h.acquire not_region_core (fun v h _ => obtained (meets_getData fun d => ?_))
    (refused (h.release fun v h => h.released))
  exact meets_setData (h.release fun v h => h.release fun v h => h.released)

theorem regionBlock_locks (hμ : μ ≠ .enter) :
    (regionBlock c r).meets (lockContract μ) E (fun _ => Released μ) .empty := by
  simp only [regionBlock, meets_bind, meets_ite, meets_ret, meets_call, Bool.not_eq_true']
  refine ⟨fun _ => .empty, fun _ => meets_getData fun d => ?_⟩
  refine owns_empty.addLockRegion (fun v h _ _ => obtained ?_) (refused .empty)
  refine ⟨fun _ => h.done, fun _ => ⟨fun _ => h.done, fun _ => ⟨fun _ => h.done, fun _ => ?_⟩⟩⟩
  refine h.acquire not_region_untrusted (fun v h _ => obtained ?_)
    (refused h.done)
  refine h.acquire not_region_core (fun v h _ => obtained ?_)
    (refused (h.release fun v h => h.done))
  refine ⟨fun _ => h.release_all, fun _ => ⟨fun _ => ?_, fun _ => meets_setData h.release_all⟩⟩
  exact h.addLockRegionIffValidMetadata
    (fun v h => ⟨fun hn => absurd rfl hn, fun _ => meets_setData h.release_all⟩)
    fun x w hx hw => ⟨fun _ => (hw.owns hμ).release_all, fun hn => absurd hx hn⟩

theorem regionAssign_locks {newOwner : Word} :
    (regionAssign c r newOwner).meets (lockContract .source) E (fun _ _ => True) .empty := by
  simp only [regionAssign, meets_bind, meets_ite, meets_ret, meets_call, Bool.not_eq_true']
  refine ⟨fun _ => trivial, fun _ => ?_⟩
  refine owns_empty.addLockRegion (fun v h _ _ => obtained (meets_getData fun d => ?_))
    (refused trivial)
  refine ⟨fun _ => h.unlockRegions fun _ _ => trivial, fun _ => ?_⟩
  refine h.acquire not_region_untrusted (fun v h _ => obtained ?_)
    (refused (h.unlockRegions fun _ _ => trivial))
  refine h.acquire not_region_core (fun v h _ => obtained (⟨fun _ => ?_, fun _ => ?_⟩))
    (refused (h.release fun v h => h.unlockRegions fun _ _ => trivial))
  · refine h.addLockRegionIffValidMetadata (fun v h => ⟨fun hn => absurd rfl hn, fun _ => ?_⟩)
      fun x w hx hw => ⟨fun _ => (hw.owns (by decide)).unlockRegions fun _ _ => trivial, fun hn => absurd hx hn⟩
    exact meets_setData (h.release fun v h => h.release fun v h => h.unlockRegions fun _ _ => trivial)
  · exact meets_setData (h.release fun v h => h.release fun v h => h.unlockRegions fun _ _ => trivial)

theorem regionFree_locks :
    (regionFree r).meets (lockContract μ) E (fun _ => Released μ) (.empty : LockView N) := by
  simp only [regionFree, regionFreeBegin, regionFreeEnd, flushLlcRegion, meets_bind, meets_ite,
    meets_ret, meets_pure, Bool.not_eq_true']
  refine ⟨fun _ => .empty, fun _ => ?_⟩
  refine owns_empty.addLockRegion (fun v h _ _ => obtained (meets_getData fun d =>
    ⟨fun _ => h.done, fun _ => ?_⟩)) (refused .empty)
  -- between two checks only the region is held
  refine meets_mono (meets_forEach (List.finRange N) (fun _ => Owns true []) h ?_)
    (fun _ v h => meets_regionIndex (meets_getData fun d => meets_setData h.done)) fun _ _ h => h
  intro _ c _ _ v h
  simp only [regionFreeCheck, meets_bind, meets_ite, meets_ret, Bool.not_eq_true']
  refine h.acquire not_region_core (fun v h _ => obtained (meets_getData fun d => ?_))
    (refused h.done)
  exact ⟨fun _ => h.release fun v h => h.done, fun _ => h.release fun v h => h⟩

/-- The core at which the loop stops stays locked. -/
theorem meets_noEnclavesRunning {ρ : Type} {R : ρ → LockView N → Prop} {Q : Bool → LockView N → Prop}
    (c₀ : Fin N) {xs : List (LockId N)} (hQ : ∀ v, Owns false xs v → Q true v)
    (hc : ∀ c v, Owns false (.core c :: xs) v → Q false v) :
    ∀ (cs : List (Fin N)) {v : LockView N}, Owns false xs v →
      (noEnclavesRunning c₀ cs).meets (lockContract μ) Q R v
  | [], _, h => hQ _ h
  | c :: cs, v, h => by
    simp only [noEnclavesRunning, meets_bind, meets_ite, meets_fault, meets_pure, Bool.not_eq_true']
    refine h.acquire not_region_core (fun v h _ => obtained (meets_getData fun d =>
      ⟨fun _ => hc c v h, fun _ => ?_⟩)) (refused trivial)
    exact h.release fun v h => meets_noEnclavesRunning c₀ hQ hc cs h

theorem regionCachePartitioning_locks {part : Fin 64 → Byte} :
    (regionCachePartitioning c part).meets (lockContract .source) E (fun _ _ => True) .empty := by
  simp only [regionCachePartitioning, meets_bind, meets_ite, meets_ret, Bool.not_eq_true']
  refine (owns_empty : Owns false [] .empty).acquire not_region_untrusted (fun v h _ => obtained ?_)
    (refused trivial)
  refine ⟨fun _ => h.release fun _ _ => trivial, fun _ => ⟨fun _ => h.release fun _ _ => trivial,
    fun _ => meets_getData fun d => ⟨fun _ => h.release fun _ _ => trivial, fun _ => ?_⟩⟩⟩
  refine meets_noEnclavesRunning _ (fun v h => ?_) (fun c v h => ?_) _ h
  · exact ⟨fun _ => meets_setData (h.release fun _ _ => trivial), fun _ => h.release fun _ _ => trivial⟩
  · have hu : v.held .untrustedState = true := (h.held _).mpr (.inl (by simp))
    exact ⟨fun h => absurd h (by decide), fun _ => ⟨hu, trivial⟩⟩

/-! ### Building an enclave -/

theorem enclaveCreate_locks {evBase evMask n : Word} {debug : Bool} :
    (enclaveCreate e evBase evMask n debug).meets (lockContract μ) E (fun _ => Released μ)
      (.empty : LockView N) := by
  simp only [enclaveCreate, meets_bind, meets_ite, meets_ret, meets_call]
  refine owns_empty.addLockRegionIffFreeMetadataPages (fun v h => ⟨fun hn => absurd rfl hn, fun _ => ?_⟩)
    fun x w hx hw => ⟨fun _ => hw.released, fun hn => absurd hx hn⟩
  exact meets_getData fun d => meets_setData h.done

theorem enclaveLoadHandler_locks {physAddr : Word} :
    (enclaveLoadHandler img e physAddr).meets (lockContract μ) E (fun _ => Released μ) .empty := by
  simp only [enclaveLoadHandler, meets_bind, meets_ite, meets_ret, meets_call, Bool.not_eq_true']
  refine owns_empty.addLockRegionIffValidMetadata (fun v h => ⟨fun hn => absurd rfl hn, fun _ =>
    meets_getData fun d => ?_⟩) fun x w hx hw => ⟨fun _ => hw.released, fun hn => absurd hx hn⟩
  refine ⟨fun _ => h.done, fun _ => ⟨fun _ => h.done, fun _ => ⟨fun _ => h.done, fun _ =>
    ⟨fun _ => h.done, fun _ => meets_regionOwner fun w => ⟨fun _ => h.done, fun _ => ?_⟩⟩⟩⟩⟩
  exact h.addLockRegion (fun v h _ _ => obtained (meets_setData h.done)) (refused h.done)

theorem enclaveLoadPageTable_locks {p va level acl : Word} :
    (enclaveLoadPageTable e p va level acl).meets (lockContract .source) E (fun _ _ => True)
      (.empty : LockView N) := by
  simp only [enclaveLoadPageTable, meets_bind, meets_ite, meets_ret, meets_call, Bool.not_eq_true']
  refine owns_empty.addLockRegionIffValidMetadata (fun v h => ⟨fun hn => absurd rfl hn, fun _ =>
    meets_getData fun d => ?_⟩) fun x w hx hw => ⟨fun _ => trivial, fun hn => absurd hx hn⟩
  have hend (v : LockView N) (h : Owns true [] v) : unlockRegions.meets (lockContract .source)
      (fun _ _ => True) (fun (_ : ApiResult) _ => True) v := h.unlockRegions fun _ _ => trivial
  refine ⟨fun _ => hend v h, fun _ => ⟨fun _ => hend v h, fun _ => ⟨fun _ => hend v h, fun _ =>
    meets_regionOwner fun w => ⟨fun _ => hend v h, fun _ => ?_⟩⟩⟩⟩
  refine ⟨fun _ => hend v h, fun _ => ⟨fun _ => hend v h, fun _ => ⟨fun _ => trivial, fun _ =>
    ⟨fun _ => trivial, fun _ => ?_⟩⟩⟩⟩
  refine h.addLockRegion (fun v h _ _ => obtained ?_) (refused (hend v h))
  exact meets_loadPageTableEntry fun x => ⟨fun _ => hend v h, fun _ =>
    meets_getData fun d => meets_setData (hend v h)⟩

theorem enclaveLoadPage_locks {p va osAddr acl : Word} :
    (enclaveLoadPage e p va osAddr acl).meets (lockContract .source) E (fun _ _ => True)
      (.empty : LockView N) := by
  simp only [enclaveLoadPage, meets_bind, meets_ite, meets_ret, meets_call, Bool.not_eq_true']
  refine owns_empty.addLockRegionIffValidMetadata (fun v h => ⟨fun hn => absurd rfl hn, fun _ =>
    meets_getData fun d => ?_⟩) fun x w hx hw => ⟨fun _ => trivial, fun hn => absurd hx hn⟩
  have hend (v : LockView N) (h : Owns true [] v) : unlockRegions.meets (lockContract .source)
      (fun _ _ => True) (fun (_ : ApiResult) _ => True) v := h.unlockRegions fun _ _ => trivial
  refine ⟨fun _ => hend v h, fun _ => ⟨fun _ => hend v h, fun _ => ⟨fun _ => hend v h, fun _ =>
    meets_regionOwner fun w => ⟨fun _ => hend v h, fun _ => ?_⟩⟩⟩⟩
  refine ⟨fun _ => hend v h, fun _ => ⟨fun _ => hend v h, fun _ => meets_regionOwner fun w =>
    ⟨fun _ => hend v h, fun _ => ⟨fun _ => trivial, fun _ => ?_⟩⟩⟩⟩
  refine h.addLockRegion (fun v h _ _ => obtained ?_) (refused (hend v h))
  refine h.addLockRegion (fun v h _ _ => obtained ?_) (refused (hend v h))
  exact meets_loadPageTableEntry fun x => ⟨fun _ => hend v h, fun _ =>
    meets_getData fun d => meets_setData (hend v h)⟩

theorem threadLoad_locks {pc sp l : Word} (hμ : μ ≠ .enter) :
    (threadLoad e t pc sp l).meets (lockContract μ) E (fun _ => Released μ) (.empty : LockView N) := by
  simp only [threadLoad, meets_bind, meets_ite, meets_ret, meets_call]
  refine owns_empty.addLockRegionIffValidMetadata (fun v h => ⟨fun hn => absurd rfl hn, fun _ =>
    meets_getData fun d => ⟨fun _ => h.done, fun _ => ?_⟩⟩)
    fun x w hx hw => ⟨fun _ => hw.released, fun hn => absurd hx hn⟩
  exact h.addLockRegionIffFreeMetadataPages
    (fun v h => ⟨fun hn => absurd rfl hn, fun _ => meets_setData h.done⟩)
    fun x w hx hw => ⟨fun _ => (hw.owns hμ).done, fun hn => absurd hx hn⟩

theorem enclaveInit_locks :
    (enclaveInit img e).meets (lockContract μ) E (fun _ => Released μ) .empty := by
  simp only [enclaveInit, meets_bind, meets_ite, meets_ret, meets_call]
  exact owns_empty.addLockRegionIffValidMetadata (fun v h => ⟨fun hn => absurd rfl hn, fun _ =>
    meets_getData fun d => ⟨fun _ => h.done, fun _ => meets_setData h.done⟩⟩)
    fun x w hx hw => ⟨fun _ => hw.released, fun hn => absurd hx hn⟩

/-! ### Running and deleting an enclave -/

/-- As long as it does not get the lock of the core, `enclave_enter` releases only what it
    holds. -/
theorem enclaveEnter_locks {ctx : TrapContext} :
    (enclaveEnter img c e t ctx).meets (lockContract .enter) E (fun _ _ => True) .empty := by
  simp only [enclaveEnter, meets_bind, meets_ite, meets_ret, meets_call, Bool.not_eq_true']
  have hend (v : LockView N) (h : Owns true [] v) : unlockRegions.meets (lockContract .enter)
      (fun _ _ => True) (fun (_ : ApiResult) _ => True) v := h.unlockRegions fun _ _ => trivial
  refine owns_empty.addLockRegionIffValidMetadata (fun v h => ⟨fun hn => absurd rfl hn, fun _ =>
    meets_getData fun d => ⟨fun _ => hend v h, fun _ => ?_⟩⟩)
    fun x w hx hw => ⟨fun _ => trivial, fun hn => absurd hx hn⟩
  refine h.addLockRegionIffValidMetadata (fun v h => ⟨fun hn => absurd rfl hn, fun _ =>
    ⟨fun _ => hend v h, fun _ => ⟨fun _ => hend v h, fun _ => ?_⟩⟩⟩)
    fun x w hx hw => ⟨fun _ => trivial, fun hn => absurd hx hn⟩
  exact h.acquire not_region_core (fun v h hc => absurd (hc rfl) (by simp [LockId.isCore]))
    (refused (hend v h))

theorem performEnclaveExit_locks {v : LockView N} {aex : Bool} (h : Owns false [] v) :
    (performEnclaveExit c aex).meets (lockContract μ) E (fun _ => Released μ) v := by
  simp only [performEnclaveExit, meets_bind, meets_ite, meets_ret, Bool.not_eq_true']
  have hclear : Owns true [] { v with flags := fun _ => false } :=
    ⟨fun l => by simpa using h.held l, h.noRegion, h.nodup⟩
  refine hclear.acquire not_region_core (fun v h _ => obtained (meets_getData fun d => ?_))
    (refused (fun hμ => h.released hμ))
  exact h.addLockRegion (fun v h _ _ => obtained (meets_setData
    (h.unlockRegions fun v h => h.release fun v h => h.released)))
    (refused (h.unlockRegions fun v h => h.release fun v h => h.released))

theorem enclaveAex_locks {regs : Fin 32 → Word} :
    (enclaveAex c regs).meets (lockContract μ) E (fun _ => Released μ) .empty := by
  simp only [enclaveAex, meets_bind, meets_ite, meets_ret, meets_call, meets_fault, Bool.not_eq_true']
  refine meets_getData fun d => owns_empty.addLockRegion (fun v h _ _ => obtained ?_)
    (refused trivial)
  refine meets_setData (h.unlockRegions fun v h => meets_mono (performEnclaveExit_locks h)
    (fun _ _ h => h) fun x v hv => ⟨fun _ => trivial, fun _ => hv⟩)

theorem enclaveDelete_locks :
    (enclaveDelete c e).meets (lockContract μ) E (fun _ => Released μ) .empty := by
  simp only [enclaveDelete, meets_bind, meets_ite, meets_ret, meets_call, Bool.not_eq_true']
  refine owns_empty.addLockRegionIffValidMetadata (fun v h => ⟨fun hn => absurd rfl hn, fun _ =>
    meets_getData fun d => ⟨fun _ => h.done, fun _ => ?_⟩⟩)
    fun x w hx hw => ⟨fun _ => hw.released, fun hn => absurd hx hn⟩
  refine meets_mono (meets_forEach (List.finRange 64) (fun _ => Owns true []) h ?_) ?_ fun _ _ h => h
  · -- a region that the loop locks goes into the map
    intro _ i _ _ v h
    simp only [meets_bind, meets_ite, meets_ret, meets_pure]
    refine ⟨fun _ => ⟨refused h.done, fun _ _ => obtained h.add⟩, fun _ => h⟩
  · intro _ v h
    refine h.acquire not_region_untrusted (fun v h _ => obtained ?_)
      (refused h.done)
    exact h.acquire not_region_core (fun v h _ => obtained (meets_setData h.release_all))
      (refused (h.release fun v h => h.done))

theorem threadDelete_locks :
    (threadDelete t).meets (lockContract μ) E (fun _ => Released μ) (.empty : LockView N) := by
  simp only [threadDelete, meets_bind, meets_ite, meets_ret, meets_call, Bool.not_eq_true']
  refine owns_empty.addLockRegionIffValidMetadata (fun v h => ⟨fun hn => absurd rfl hn, fun _ =>
    meets_getData fun d => ?_⟩) fun x w hx hw => ⟨fun _ => hw.released, fun hn => absurd hx hn⟩
  exact h.addLockRegion (fun v h _ _ => obtained (⟨fun _ => h.done, fun _ =>
    meets_setData h.done⟩)) (refused h.done)

/-! ### Mail and attestation -/

/-- The untrusted software always returns its lock; an enclave may not. -/
theorem mailAccept_locks {id sender : Word} :
    (mailAccept c id sender).meets (lockContract .source) E (fun _ _ => True) .empty := by
  simp only [mailAccept, meets_bind, meets_ite, meets_ret, Bool.not_eq_true']
  refine meets_getData fun d => ⟨fun _ => ⟨fun _ => trivial, fun _ => ?_⟩, fun _ => ?_⟩
  · exact (owns_empty : Owns false [] .empty).acquire not_region_untrusted (fun v h _ => obtained (meets_setData (h.release fun _ _ => trivial))) (refused trivial)
  · exact meets_lockRegion (refused trivial) fun v hl hv => obtained (⟨fun _ => trivial,
      fun _ => meets_setData (meets_unlockRegion hl trivial)⟩)

/-- The end of a call that holds the untrusted state if `p`. -/
theorem Owns.unlockUntrusted {ρ : Type} {R : ρ → LockView N → Prop} {v : LockView N} {p : Prop}
    [Decidable p] (h : Owns true (if p then [.untrustedState] else []) v) :
    (p → unlockUntrustedState.meets (lockContract μ) (fun _ v =>
      SecurityMonitor.unlockRegions.meets (lockContract μ) (fun _ => Released μ) R v) R v) ∧
    (¬ p → SecurityMonitor.unlockRegions.meets (lockContract μ) (fun _ => Released μ) R v) := by
  refine ⟨fun hp => ?_, fun hp => ?_⟩
  · rw [if_pos hp] at h
    exact h.release fun v h => h.done
  · rw [if_neg hp] at h
    exact h.done

theorem mailReceiveLocked_locks {d : Data N} {v : LockView N} {caller id out outM : Word}
    (h : Owns true (if caller = ownerUntrusted then [.untrustedState] else []) v) :
    (mailReceiveLocked d caller id out outM).meets (lockContract μ) E (fun _ => Released μ) v := by
  simp only [mailReceiveLocked, meets_bind, meets_ite, meets_ret]
  exact ⟨fun _ => h.unlockUntrusted, fun _ => meets_setData h.unlockUntrusted⟩

theorem mailReceive_locks {id out outM : Word} :
    (mailReceive c id out outM).meets (lockContract μ) E (fun _ => Released μ) .empty := by
  simp only [mailReceive, meets_bind, meets_ite, meets_ret, Bool.not_eq_true']
  refine meets_getData fun d => ⟨fun hu => ⟨fun _ => .empty, fun _ => ?_⟩, fun hu => ?_⟩
  · exact owns_empty.acquire not_region_untrusted (fun v h _ => obtained (mailReceiveLocked_locks (by rwa [if_pos hu]))) (refused .empty)
  · exact owns_empty.addLockRegion (fun v h _ _ => obtained (⟨fun _ => h.done, fun _ =>
      mailReceiveLocked_locks (by rwa [if_neg hu])⟩)) (refused .empty)

theorem mailSendLocked_locks {d : Data N} {v : LockView N} {untrustedLocked : Bool}
    {caller recipient id : Word} {message : Bytes 256}
    (h : Owns true (if untrustedLocked = true then [.untrustedState] else []) v) :
    (mailSendLocked d untrustedLocked caller recipient id message).meets (lockContract μ) E
      (fun _ => Released μ) v := by
  simp only [mailSendLocked, meets_bind, meets_ite, meets_ret]
  exact ⟨fun _ => h.unlockUntrusted, fun _ => meets_setData h.unlockUntrusted⟩

theorem mailSendFrom_locks {d : Data N} {v : LockView N} {caller recipient id : Word}
    {message : Bytes 256}
    (h : Owns true (if decide (recipient = ownerUntrusted) = true then [.untrustedState] else []) v) :
    (mailSendFrom d caller recipient id message).meets (lockContract μ) E (fun _ => Released μ) v := by
  simp only [mailSendFrom, meets_bind, meets_ite, meets_ret, Bool.not_eq_true']
  refine ⟨fun hne => ⟨fun hu => ?_, fun _ => ?_⟩, fun _ => mailSendLocked_locks h⟩
  · -- the recipient is an enclave, and the untrusted state is locked for the caller
    rw [if_neg (by simpa using fun hr => hne.1 (hu.trans hr.symm))] at h
    exact h.acquire not_region_untrusted (fun v h _ => obtained (mailSendLocked_locks h))
      (refused h.done)
  · exact h.addLockRegion (fun v h _ _ => obtained (mailSendLocked_locks h))
      (refused h.unlockUntrusted)

theorem mailSend_locks {recipient id : Word} {message : Bytes 256} :
    (mailSend c recipient id message).meets (lockContract μ) E (fun _ => Released μ) .empty := by
  simp only [mailSend, meets_bind, meets_ite, meets_ret, meets_call, Bool.not_eq_true']
  refine meets_getData fun d => ⟨fun hu => ⟨fun _ => .empty, fun _ => ?_⟩, fun hu => ?_⟩
  · exact owns_empty.acquire not_region_untrusted (fun v h _ => obtained (mailSendFrom_locks (by rwa [if_pos (decide_eq_true hu)]))) (refused .empty)
  · exact owns_empty.addLockRegionIffValidMetadata (fun v h => ⟨fun hn => absurd rfl hn, fun _ =>
      ⟨fun _ => h.done, fun _ => ⟨fun _ => h.done, fun _ =>
        mailSendFrom_locks (by rwa [if_neg (by simpa using hu)])⟩⟩⟩)
      fun x w hx hw => ⟨fun _ => hw.released, fun hn => absurd hx hn⟩

theorem enclaveGetKeys_locks {m pk sk a : Word} :
    (enclaveGetKeys c m pk sk a).meets (lockContract μ) E (fun _ => Released μ) .empty := by
  simp only [enclaveGetKeys, meets_bind, meets_ite, meets_ret, meets_call]
  exact meets_getData fun d => owns_empty.addLockRegionIffValidMetadata
    (fun v h => ⟨fun hn => absurd rfl hn, fun _ => h.done⟩)
    fun x w hx hw => ⟨fun _ => hw.released, fun hn => absurd hx hn⟩

theorem enclaveGetAttest_locks {m pk a : Word} :
    (enclaveGetAttest e m pk a).meets (lockContract μ) E (fun _ => Released μ)
      (.empty : LockView N) := by
  simp only [enclaveGetAttest, meets_bind, meets_ite, meets_ret, meets_call]
  exact owns_empty.addLockRegionIffValidMetadata (fun v h => ⟨fun hn => absurd rfl hn, fun _ =>
    meets_getData fun d => ⟨fun _ => h.done, fun _ => h.done⟩⟩)
    fun x w hx hw => ⟨fun _ => hw.released, fun hn => absurd hx hn⟩

theorem getPublicField_locks {field out : Word} :
    (getPublicField field out).meets (lockContract μ) E (fun _ => Released μ)
      (.empty : LockView N) := by
  simp only [getPublicField, meets_bind]
  refine meets_getData fun d => ?_
  cases publicField d.keys field with
  | some bytes => exact .empty
  | none => exact .empty

/-! ## Requests -/

/-- What brings a core into the monitor. -/
inductive Request where
  | call (k : Call) (ctx : TrapContext)
  | regionFree (r : Word)
  | timer (regs : Fin 32 → Word)

/-- What the monitor executes for a request on core `c`, where `owner` runs. -/
def Request.prog (img : Image N) (c : Fin N) (owner : Word) : Request → M N Reply Empty
  | .call k ctx => if owner = ownerUntrusted then ecallFromUntrusted img c ctx k else ecallFromEnclave c k
  | .regionFree r =>
    if owner = ownerUntrusted then returnResult (SecurityMonitor.regionFree r) else ret (.ofResult .unsupported)
  | .timer regs => returnResult (enclaveAex c regs)

@[simp] theorem meets_returnResult {R : Reply → LockView N → Prop} {v : LockView N}
    (p : M N ApiResult Empty) : (returnResult p).meets (lockContract μ) E R v =
      p.meets (lockContract μ) (fun a _ => a.elim) (fun r => R (.ofResult r)) v := by
  simp only [returnResult, meets_bind, meets_call, meets_ret]

@[simp] theorem meets_returnOutputs {R : Reply → LockView N → Prop} {v : LockView N}
    (p : M N (ApiResult × Outputs) Empty) : (returnOutputs p).meets (lockContract μ) E R v =
      p.meets (lockContract μ) (fun a _ => a.elim) (fun r => R ⟨r.1.code, r.2⟩) v := by
  simp only [returnOutputs, meets_bind, meets_call, meets_ret]

@[simp] theorem meets_returnValue {R : Reply → LockView N → Prop} {v : LockView N}
    (p : M N Word Empty) : (returnValue p).meets (lockContract μ) E R v =
      p.meets (lockContract μ) (fun a _ => a.elim) (fun r => R ⟨r, []⟩) v := by
  simp only [returnValue, meets_bind, meets_call, meets_ret]

/-- The calls that can return with a lock of theirs, or release one twice, even when the
    checks of metadata pages undo what they did. -/
def Call.mayLeak : Call → Bool
  | .enclaveEnter .. | .enclaveLoadPageTable .. | .enclaveLoadPage .. | .regionAssign ..
  | .mailAccept .. | .regionCachePartitioning _ => true
  | _ => false

/-- All other calls keep the contract and hold nothing in the end. -/
theorem Call.locks {owner : Word} {ctx : TrapContext} {k : Call} (hk : k.mayLeak = false)
    (hμ : μ ≠ .enter) :
    (Request.prog img c owner (.call k ctx)).meets (lockContract μ) E (fun _ => Released μ) .empty := by
  rw [Request.prog, meets_ite]
  refine ⟨fun _ => ?_, fun _ => ?_⟩
  · cases k <;> simp only [ecallFromUntrusted, meets_returnResult, meets_returnOutputs,
      meets_returnValue, meets_ret]
    case enclaveCreate => exact enclaveCreate_locks
    case enclaveDelete => exact enclaveDelete_locks
    case enclaveInit => exact enclaveInit_locks
    case enclaveLoadHandler => exact enclaveLoadHandler_locks
    case enclaveGetAttest => exact enclaveGetAttest_locks
    case getPublicField => exact getPublicField_locks
    case mailReceive => exact mailReceive_locks
    case mailSend => exact mailSend_locks
    case regionBlock => exact regionBlock_locks hμ
    case regionUpdate => exact regionUpdate_locks
    case regionMetadataCreate => exact regionMetadataCreate_locks
    case regionOwner => exact meets_regionOwner fun _ => .empty
    case regionState => exact regionState_locks
    case regionFlush => exact regionFlush_locks
    case threadDelete => exact threadDelete_locks
    case threadLoad => exact threadLoad_locks hμ
    case enclaveEnter | enclaveLoadPageTable | enclaveLoadPage | mailAccept | regionAssign |
      regionCachePartitioning => exact absurd hk (by simp [Call.mayLeak])
    all_goals exact .empty
  · cases k <;> simp only [ecallFromEnclave, meets_returnResult, meets_returnOutputs, meets_ret]
    case enclaveExit => exact performEnclaveExit_locks owns_empty
    case enclaveGetKeys => exact enclaveGetKeys_locks
    case getPublicField => exact getPublicField_locks
    case mailReceive => exact mailReceive_locks
    case mailSend => exact mailSend_locks
    case regionBlock => exact regionBlock_locks hμ
    case regionCheckOwned => exact regionCheckOwned_locks
    case mailAccept => exact absurd hk (by simp [Call.mayLeak])
    all_goals exact .empty

end

end SecurityMonitor
