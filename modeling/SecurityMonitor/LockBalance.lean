/-
  The balance of locks: a call returns every lock it took, and no other.

  The checks of metadata pages are taken as repaired: when they fail, they undo what
  they did.  `Audit` runs a call with such checks and keeps book of its locks: which it
  holds, and whether it has released one that it did not hold.  A request is
  `Balanced` if it uses no region index out of bounds and, when it returns, it holds
  nothing, has released nothing else, and all locks are as before.

  Six calls are not balanced in all states.  `Leaks` lists the states:

  * `enclave_enter` returns with the enclave's region when the thread is no thread, and
    otherwise releases the lock of the core twice;
  * `enclave_load_page_table` and `enclave_load_page` return with the enclave's region
    on a bad access control list;
  * `region_assign` returns with the core and the untrusted state on a bad owner;
  * `mail_accept` returns with the enclave's region on a bad mailbox;
  * `region_cache_partitioning` returns with the first core when that runs an enclave.
-/
import SecurityMonitor.Locks
import SecurityMonitor.MemoryIsolation

namespace SecurityMonitor

open ByteMem Prog

variable {N : ℕ} {ρ : Type}

/-! ## Audited runs -/

/-- The state of a call with a record of its locks. -/
structure Audit (N : ℕ) extends CallState N where
  /-- the locks that the call acquired and has not released since -/
  held : LockId N → Bool
  /-- the call released a lock that it did not hold -/
  stray : Bool

namespace Audit

/-- A call starts with the data `d` and the locks `L`. -/
def start (d : Data N) (L : LockId N → Bool) : Audit N :=
  { data := d, locks := L, lockedRegions := fun _ => false, held := fun _ => false, stray := false }

def release (s : Audit N) (l : LockId N) : Audit N :=
  { s with
    locks := Function.update s.locks l false
    held := Function.update s.held l false
    stray := s.stray || !s.held l }

/-- The instructions with repaired checks: a check that fails releases the region if it
    has locked it. -/
def exec : (i : Instr N) → Audit N → i.Answer × Audit N
  | .getData, s => (s.data, s)
  | .setData d, s => ((), { s with data := d })
  | .acquire l, s =>
    (!s.locks l, { s with
      locks := Function.update s.locks l true
      held := if s.locks l then s.held else Function.update s.held l true })
  | .release l, s => ((), s.release l)
  | .getLocked, s => (s.lockedRegions, s)
  | .markLocked i, s => ((), { s with lockedRegions := Function.update s.lockedRegions i true })
  | .clearLocked, s => ((), { s with lockedRegions := fun _ => false })
  | .undo previouslyLocked i, s =>
    ((), if previouslyLocked then s
      else { s.release (.region i) with lockedRegions := Function.update s.lockedRegions i false })

/-- All locks are as in `L` again: each one that the call took was released once, and no
    other was. -/
structure Restored (L : LockId N → Bool) (s : Audit N) : Prop where
  held : ∀ l, s.held l = false
  stray : s.stray = false
  locks : s.locks = L

end Audit

instance auditHandler {N : ℕ} : Handler (Instr.Answer (N := N)) (Audit N) := ⟨Audit.exec⟩

/-- All region indices that `p` uses are in bounds. -/
def IndicesOk (d : Data N) (L : LockId N → Bool) (p : M N ρ Empty) : Prop :=
  p.run (Audit.start d L) ≠ .fault .regionIndex

instance decidableIndicesOk (d : Data N) (L : LockId N → Bool) (p : M N ρ Empty) :
    Decidable (IndicesOk d L p) :=
  match h : p.run (Audit.start d L) with
  | .next a _ => a.elim
  | .ret _ _ => isTrue fun hf => nomatch h.symm.trans hf
  | .fault .panic => isTrue fun hf => nomatch h.symm.trans hf
  | .fault .regionIndex => isFalse fun hn => hn h

/-- The view `v` is what the audit says, for a call that started with the locks `L`. -/
structure Follows (L : LockId N → Bool) (v : LockView N) (s : Audit N) : Prop where
  held : s.held = v.held
  flags : s.lockedRegions = v.flags
  stray : s.stray = false
  locks : ∀ l, s.locks l = (L l || v.held l)
  own : ∀ l, v.held l = true → L l = false

section
variable {L : LockId N → Bool} {d : Data N} {v : LockView N} {s : Audit N} {l : LockId N}
  {xs : List (LockId N)}

theorem Follows.setData (h : Follows L v s) (d : Data N) : Follows L v { s with data := d } :=
  ⟨h.held, h.flags, h.stray, h.locks, h.own⟩

theorem Follows.refused (h : Follows L v s) (hl : s.locks l = true) :
    Follows L v (Audit.exec (.acquire l) s).2 := by
  refine ⟨?_, h.flags, h.stray, fun l' => ?_, h.own⟩
  · show (if s.locks l = true then s.held else _) = v.held
    rw [if_pos hl, h.held]
  · show Function.update s.locks l true l' = _
    rw [← hl, Function.update_eq_self]
    exact h.locks l'

theorem Follows.taken (h : Follows L v s) (hl : s.locks l = false) :
    Follows L (v.take l) (Audit.exec (.acquire l) s).2 := by
  have hLv : L l = false ∧ v.held l = false := by
    have := h.locks l
    rw [hl] at this
    simpa using this.symm
  refine ⟨?_, h.flags, h.stray, fun l' => ?_, fun l' hl' => ?_⟩
  · show (if s.locks l = true then s.held else Function.update s.held l true) = Function.update v.held l true
    rw [if_neg (by rw [hl]; simp), h.held]
  · show Function.update s.locks l true l' = (L l' || Function.update v.held l true l')
    rw [Function.update_apply, Function.update_apply]
    split_ifs
    · simp
    · exact h.locks l'
  · change Function.update v.held l true l' = true at hl'
    rw [Function.update_apply] at hl'
    split_ifs at hl' with hll
    · rw [hll]; exact hLv.1
    · exact h.own l' hl'

theorem Follows.released (h : Follows L v s) (hl : v.held l = true) :
    Follows L (v.drop l) (s.release l) := by
  refine ⟨?_, h.flags, ?_, fun l' => ?_, fun l' hl' => ?_⟩
  · show Function.update s.held l false = Function.update v.held l false
    rw [h.held]
  · show (s.stray || !s.held l) = false
    rw [h.stray, h.held, hl]
    rfl
  · show Function.update s.locks l false l' = (L l' || Function.update v.held l false l')
    rw [Function.update_apply, Function.update_apply]
    split_ifs with hll
    · rw [hll, h.own l hl]; rfl
    · exact h.locks l'
  · change Function.update v.held l false l' = true at hl'
    rw [Function.update_apply] at hl'
    split_ifs at hl'
    exact h.own l' hl'

theorem Follows.unadded {i : Fin 64} (h : Follows L v s) (hl : v.held (.region i) = true) :
    Follows L (v.unadd i) { s.release (.region i) with
      lockedRegions := Function.update s.lockedRegions i false } := by
  have hr := h.released hl
  refine ⟨hr.held, ?_, hr.stray, hr.locks, hr.own⟩
  show Function.update s.lockedRegions i false = Function.update v.flags i false
  rw [h.flags]

theorem Follows.marked {i : Fin 64} (h : Follows L v s) :
    Follows L (v.mark i) { s with lockedRegions := Function.update s.lockedRegions i true } := by
  refine ⟨h.held, ?_, h.stray, h.locks, h.own⟩
  show Function.update s.lockedRegions i true = Function.update v.flags i true
  rw [h.flags]

/-- **An audited run keeps to the contract.** -/
theorem Follows.exec {i : Instr N} {Q : i.Answer → LockView N → Prop} (h : Follows L v s)
    (hQ : (lockContract .repaired).pre i v Q) :
    ∃ v', Follows L v' (handle i s).2 ∧ Q (handle i s).1 v' := by
  cases i with
  | getData => exact ⟨v, h, hQ _⟩
  | setData d => exact ⟨v, h.setData d, hQ⟩
  | acquire l =>
    show ∃ v', Follows L v' (Audit.exec (.acquire l) s).2 ∧ Q (!s.locks l) v'
    cases hl : s.locks l with
    | true => exact ⟨v, h.refused hl, hQ.1⟩
    | false =>
      have hv : v.held l = false := by
        have := h.locks l
        rw [hl] at this
        exact (Bool.or_eq_false_iff.mp this.symm).2
      exact ⟨v.take l, h.taken hl, hQ.2 hv (by simp)⟩
  | release l => exact ⟨v.drop l, h.released hQ.1, hQ.2⟩
  | getLocked =>
    refine ⟨v, h, ?_⟩
    show Q s.lockedRegions v
    rw [h.flags]
    exact hQ
  | markLocked i => exact ⟨v.mark i, h.marked, hQ⟩
  | clearLocked =>
    exact ⟨{ v with flags := fun _ => false }, ⟨h.held, rfl, h.stray, h.locks, h.own⟩, hQ⟩
  | undo b i =>
    cases b with
    | true => exact ⟨v, h, hQ⟩
    | false => exact ⟨v.unadd i, h.unadded hQ.1, hQ.2⟩

theorem Follows.restored (h : Follows L v s) (hv : Released .repaired v) : s.Restored L := by
  refine ⟨fun l => h.held ▸ hv rfl l, h.stray, funext fun l => ?_⟩
  rw [h.locks l, hv rfl l, Bool.or_false]

/-- What a call knows before it changes data. -/
structure Sees (L : LockId N → Bool) (d : Data N) (v : LockView N) (s : Audit N) : Prop extends
    Follows L v s where
  data : s.data = d

variable {α : Type} {Q : α → Audit N → Prop} {R : ρ → Audit N → Prop} {F : Fault → Prop}
  {E : Empty → Audit N → Prop} {r : Word} {i : Fin 64}

/-- A part of a call that keeps the contract. -/
theorem Follows.wp {p : M N ρ α} {Q' : α → LockView N → Prop} {R' : ρ → LockView N → Prop}
    (h : Follows L v s) (hp : p.meets (lockContract .repaired) Q' R' v)
    (hQ : ∀ a v s, Follows L v s → Q' a v → Q a s) (hR : ∀ r v s, Follows L v s → R' r v → R r s)
    (hF : ∀ f, F f) : p.wp Q R F s :=
  wp_mono (wp_of_meets Follows.exec h hp) (fun a s ⟨v, h, hv⟩ => hQ a v s h hv)
    (fun r s ⟨v, h, hv⟩ => hR r v s h hv) fun f _ => hF f

theorem Sees.getData {Q : Data N → Audit N → Prop} (h : Sees L d v s) (hQ : Q d s) :
    (getData : M N ρ _).wp Q R F s := by
  show Q s.data s
  rwa [h.data]

theorem Sees.acquire {Q : Bool → Audit N → Prop} (h : Sees L d v s)
    (hok : L l = false → v.held l = false → ∀ s, Sees L d (v.take l) s → Q true s)
    (hno : L l = true ∨ v.held l = true → ∀ s, Sees L d v s → Q false s) :
    (platformLockAcquire l).wp Q R F s := by
  show Q (!s.locks l) (Audit.exec (.acquire l) s).2
  have hlocks := h.locks l
  cases hl : s.locks l with
  | true => exact hno (by rw [hl] at hlocks; simpa using hlocks.symm) _ ⟨h.refused hl, h.data⟩
  | false =>
    rw [hl] at hlocks
    obtain ⟨hL, hv⟩ := Bool.or_eq_false_iff.mp hlocks.symm
    exact hok hL hv _ ⟨h.taken hl, h.data⟩

theorem Sees.release {Q : Unit → Audit N → Prop} (h : Sees L d v s) (hl : v.held l = true)
    (hQ : ∀ s, Sees L d (v.drop l) s → Q () s) : (platformLockRelease l).wp Q R F s :=
  hQ _ ⟨h.released hl, h.data⟩

theorem Sees.regionIndex {Q : Fin 64 → Audit N → Prop} (hF : ¬ r.toNat < 64 → F .regionIndex)
    (hQ : r.toNat < 64 → Q (toRegion r) s) : (regionIndex r).wp Q R F s := by
  rw [SecurityMonitor.regionIndex, wp_ite]
  exact ⟨hQ, hF⟩

/-- What `region_owner` answers when the regions `locked` are locked. -/
def ownerSeen (d : Data N) (locked : Fin 64 → Bool) (r : Word) : Word :=
  if r.toNat < 64 then
    if locked (toRegion r) then ApiResult.concurrentCall.code else (d.regions (toRegion r)).owner
  else ApiResult.invalidValue.code

theorem Sees.regionOwner {Q : Word → Audit N → Prop} (h : Sees L d v s)
    (hQ : ∀ s, Sees L d v s →
      Q (ownerSeen d (fun i => L (.region i) || v.held (.region i)) r) s) :
    (regionOwner r).wp E Q F s := by
  simp only [SecurityMonitor.regionOwner, lockRegion, unlockRegion, wp_bind, wp_ite, wp_ret,
    Bool.not_eq_true', isValidRegionId_eq_false, not_not]
  refine ⟨fun hr => ?_, fun hr => Sees.regionIndex (fun hn => absurd hr hn) fun _ => ?_⟩
  · have hQ := hQ s h
    rwa [ownerSeen, if_neg hr] at hQ
  · refine h.acquire (fun hL hv s hs => obtained (hs.getData ?_)) fun hl s hs => refused ?_
    · refine Sees.regionIndex (fun hn => absurd hr hn) fun _ => ?_
      refine hs.release (Function.update_self ..) fun s hs => ?_
      rw [LockView.drop_take hv] at hs
      have hQ := hQ s hs
      rwa [ownerSeen, if_pos hr, if_neg (by rw [hL, hv]; simp)] at hQ
    · have hQ := hQ s hs
      rwa [ownerSeen, if_pos hr, if_pos (by simpa using hl)] at hQ

theorem Owns.add_eq (h : Owns true xs v) (hi : v.flags i = true) : v.add i = v := by
  have hheld : v.held (.region i) = true := h.region.mpr ⟨rfl, hi⟩
  ext1
  · show Function.update v.held (.region i) true = v.held
    rw [← hheld, Function.update_eq_self]
  · show Function.update v.flags i true = v.flags
    rw [← hi, Function.update_eq_self]

theorem Sees.addLockRegion {Q : Bool → Audit N → Prop} (h : Sees L d v s) (ho : Owns true xs v)
    (hF : ¬ r.toNat < 64 → F .regionIndex)
    (hok : v.flags (toRegion r) = true ∨ L (.region (toRegion r)) = false → ∀ s,
      Sees L d (v.add (toRegion r)) s → Q true s)
    (hno : ¬ (v.flags (toRegion r) = true ∨ L (.region (toRegion r)) = false) → ∀ s,
      Sees L d v s → Q false s) :
    (addLockRegion r).wp Q R F s := by
  rw [SecurityMonitor.addLockRegion, wp_bind]
  refine Sees.regionIndex hF fun _ => ?_
  rw [wp_bind]
  show Prog.wp (if s.lockedRegions (toRegion r) = true then _ else _) _ _ _ s
  rw [wp_ite, h.flags]
  refine ⟨fun hf => hok (.inl hf) s (by rwa [ho.add_eq hf]), fun hf => ?_⟩
  rw [wp_bind]
  refine h.acquire (fun hL _ s hs => ?_) fun hl s hs => hno ?_ s hs
  · exact hok (.inr hL) _ ⟨hs.marked, hs.data⟩
  · rintro (h' | h')
    · exact hf h'
    · rcases hl with hl | hl
      · rw [hl] at h'; exact absurd h' (by simp)
      · exact hf (ho.region.mp hl).2

/-- The page at `a` passes the check for the tag `k`, and its region can be locked. -/
def CanLock (L : LockId N → Bool) (d : Data N) (v : LockView N) (a : Word) (k : MetadataPage) : Prop :=
  ValidMetadata d a k ∧ (v.flags (regionOf a) = true ∨ L (.region (regionOf a)) = false)

theorem Sees.failUnlocking {Q : ApiResult → Audit N → Prop} (h : Sees L d (v.add (toRegion r)) s)
    (ho : Owns true xs v) (hr : r.toNat < 64) (hQ : ∀ s, Sees L d v s → Q .invalidState s) :
    (failUnlocking (v.flags (toRegion r)) r).wp E Q F s := by
  rw [SecurityMonitor.failUnlocking, wp_bind]
  refine Sees.regionIndex (fun hn => absurd hr hn) fun _ => ?_
  cases hf : v.flags (toRegion r) with
  | true =>
    rw [ho.add_eq hf] at h
    exact hQ s h
  | false =>
    have hheld : v.held (.region (toRegion r)) = false := by
      by_contra hn
      have := (ho.region.mp (Bool.not_eq_false _ ▸ hn)).2
      rw [hf] at this
      exact absurd this (by simp)
    have hun := h.unadded (i := toRegion r) (Function.update_self ..)
    rw [LockView.unadd_add hheld hf] at hun
    exact hQ _ ⟨hun, h.data⟩

theorem Sees.addLockRegionIffValidMetadata {Q : ApiResult → Audit N → Prop} {a : Word}
    {k : MetadataPage} (h : Sees L d v s) (ho : Owns true xs v)
    (hok : CanLock L d v a k → ∀ s, Sees L d (v.add (regionOf a)) s → Q .ok s)
    (hno : ¬ CanLock L d v a k → ∀ x s, x ≠ .ok → Sees L d v s → Q x s) :
    (addLockRegionIffValidMetadata a k).wp E Q F s := by
  simp only [SecurityMonitor.addLockRegionIffValidMetadata, wp_call, wp_bind, wp_ite, wp_ret,
    Bool.not_eq_true', isValidRegionId_eq_false, not_not, Bool.not_eq_false]
  refine ⟨fun ha => hno (fun hc => ?_) _ s (by decide) h, fun ha =>
    ⟨fun hr => hno (fun hc => hr hc.1.inRam) _ s (by decide) h, fun hr => ?_⟩⟩
  · rw [hc.1.aligned] at ha; exact absurd ha (by simp)
  have hflag : (handle (Instr.getLocked (N := N)) s).1 = v.flags := h.flags
  refine h.addLockRegion ho (fun hn => absurd hr hn) (fun hl s hs => ?_) fun hl s hs => ?_
  case refine_2 =>
    exact ⟨fun _ => hno (fun hc => hl hc.2) _ s (by decide) hs, fun h => absurd h (by decide)⟩
  refine ⟨fun h => absurd h (by decide), fun _ => hs.getData ?_⟩
  rw [hflag]
  have hfail (hc : ¬ CanLock L d v a k) : (SecurityMonitor.failUnlocking
      (v.flags (toRegion (addrToRegionId a))) (addrToRegionId a)).wp (fun a _ => a.elim) Q F s :=
    hs.failUnlocking ho hr fun s hs => hno hc _ s (by decide) hs
  exact ⟨fun ht => hfail fun hc => ht hc.1.type, fun ht => ⟨fun hst => hfail fun hc => hst hc.1.state,
    fun hst => ⟨fun htag => hfail fun hc => htag hc.1.tag, fun htag =>
      hok ⟨⟨⟨ha, hr, ht, hst⟩, htag⟩, hl⟩ s hs⟩⟩⟩

/-! ## Verdicts -/

/-- The locks are restored unless `leak`. -/
def Verdict (L : LockId N → Bool) (leak : Prop) (s : Audit N) : Prop := s.Restored L ↔ ¬ leak

variable {leak : Prop} {c : Fin N} {e : Word}

theorem Follows.fine (h : Follows L v s) (hv : Released .repaired v) (hn : ¬ leak) : Verdict L leak s :=
  iff_of_true (h.restored hv) hn

theorem Follows.release {Q : Unit → Audit N → Prop} (h : Follows L v s) (hl : v.held l = true)
    (hQ : ∀ s, Follows L (v.drop l) s → Q () s) : (platformLockRelease l).wp Q R F s :=
  hQ _ (h.released hl)

theorem Follows.read {Q : Data N → Audit N → Prop} (_ : Follows L v s) (hQ : ∀ d, Q d s) :
    (SecurityMonitor.getData : M N ρ _).wp Q R F s := hQ _

theorem Follows.store {Q : Unit → Audit N → Prop} {d' : Data N} (h : Follows L v s)
    (hQ : ∀ s, Follows L v s → Q () s) : (SecurityMonitor.setData d').wp Q R F s :=
  hQ _ (h.setData d')

theorem unlockRegions_safe (s : Audit N) :
    (unlockRegions : M N ρ Unit).wp (fun _ _ => True) (fun _ _ => True) (fun _ => False) s := by
  refine wp_forEach (List.finRange 64) (fun _ _ => True) trivial fun _ i s _ _ => ?_
  rw [wp_bind]
  show Prog.wp (if s.lockedRegions i = true then _ else _) _ _ _ s
  rw [wp_ite]
  exact ⟨fun _ => trivial, fun _ => trivial⟩

theorem Follows.unlockRegions {Q : Unit → Audit N → Prop} (h : Follows L v s) (ho : Owns true xs v)
    (hQ : ∀ v s, Follows L v s → Owns false xs v → Q () s) : unlockRegions.wp Q R F s := by
  have hm : SecurityMonitor.unlockRegions.meets (lockContract .repaired) (fun _ => Owns false xs)
      (fun (_ : ρ) _ => False) v := ho.unlockRegions fun _ h => h
  refine wp_mono (wp_and (wp_of_meets Follows.exec h hm) (unlockRegions_safe s)) ?_ ?_ fun _ hf => hf.2.elim
  · rintro _ s ⟨⟨v, hf, hv⟩, -⟩
    exact hQ v s hf hv
  · rintro _ s ⟨⟨v, -, hv⟩, -⟩
    exact hv.elim

/-- The end of a call whose only locks are regions of its map. -/
theorem Follows.unlock {R : ρ → Audit N → Prop} (h : Follows L v s) (ho : Owns true [] v)
    (hn : ¬ leak) : SecurityMonitor.unlockRegions.wp (fun _ => Verdict L leak) R (fun _ => ¬ leak) s :=
  h.unlockRegions ho fun _ _ h hv => h.fine hv.released hn

/-- The end of a call that holds the core and the untrusted state. -/
theorem Follows.commit {R : ρ → Audit N → Prop} {d' : Data N} (h : Follows L v s)
    (ho : Owns true [.core c, .untrustedState] v) (hn : ¬ leak) :
    (SecurityMonitor.setData d').wp (fun _ s => (unlockCore c).wp (fun _ s => unlockUntrustedState.wp
      (fun _ s => SecurityMonitor.unlockRegions.wp (fun _ => Verdict L leak) R (fun _ => ¬ leak) s)
      R (fun _ => ¬ leak) s) R (fun _ => ¬ leak) s) R (fun _ => ¬ leak) s :=
  h.store fun _ h => h.release ho.drop.1 fun _ h => h.release ho.drop.2.drop.1 fun _ h =>
    h.unlock ho.drop.2.drop.2 hn

theorem Follows.addLockRegion {Q : Bool → Audit N → Prop} (h : Follows L v s) (ho : Owns true xs v)
    (hok : ∀ v s, Follows L v s → Owns true xs v → Q true s) (hno : ∀ s, Follows L v s → Q false s)
    (hF : ∀ f, F f) : (addLockRegion r).wp Q R F s :=
  h.wp (ho.addLockRegion (Q := fun b w => b = true ∧ Owns true xs w ∨ b = false ∧ w = v)
    (R := fun _ _ => False) (fun _ hv _ _ => .inl ⟨rfl, hv⟩) (.inr ⟨rfl, rfl⟩))
    (by
      rintro _ w s hf (⟨rfl, hw⟩ | ⟨rfl, rfl⟩)
      · exact hok w s hf hw
      · exact hno s hf)
    (fun _ _ _ _ hv => hv.elim) hF

theorem Follows.loadPageTableEntry {Q : ApiResult → Audit N → Prop} {p va level acl : Word}
    (h : Follows L v s) (hQ : ∀ x s, Follows L v s → Q x s) (hF : ∀ f, F f) :
    (loadPageTableEntry e p va level acl).wp E Q F s :=
  h.wp (meets_loadPageTableEntry (E := fun a _ => a.elim) (Q := fun _ w => w = v) fun _ => rfl)
    (fun a => a.elim) (fun x _ s hf hw => hQ x s (hw ▸ hf)) hF

/-! ## Region calls -/

/-- When the first core runs no enclave, the loop unlocks every core again. -/
theorem Sees.noEnclavesRunning {Q : Bool → Audit N → Prop} {c₀ : Fin N}
    (hc : (d.cores c₀).owner = ownerUntrusted) (hQ : ∀ s, Sees L d v s → Q true s)
    (hF : F .panic) : ∀ (cs : List (Fin N)) {s : Audit N}, Sees L d v s →
      (noEnclavesRunning c₀ cs).wp Q R F s
  | [], s, h => hQ s h
  | c :: cs, s, h => by
    simp only [SecurityMonitor.noEnclavesRunning, wp_bind, wp_ite, wp_fault, Bool.not_eq_true']
    refine h.acquire (fun hL hv s hs => obtained (hs.getData ⟨fun hn => absurd hc hn, fun _ => ?_⟩))
      fun _ s hs => refused hF
    refine hs.release (Function.update_self ..) fun s hs => ?_
    rw [LockView.drop_take hv] at hs
    exact Sees.noEnclavesRunning hc hQ hF cs hs

end

end SecurityMonitor
