/-
  The monitor at the granularity of single instructions: between any two
  instructions of a call the other cores can run.

  A configuration `Conc` holds the data, the locks, and for each core the request it
  is in: what is left to execute, its map of locked regions, and the locks it has
  acquired and not released since.  The last is only written down, no instruction
  reads it.  A call writes the data back as a whole, where the code writes single
  fields, so a write of another core in between can be lost here; the results are
  about the locks, and hold whatever a read of the data returns.

  * `Sim.run`: every run of the machine with atomic calls is a run of this one;
  * `release_by_holder`: a call only releases what it holds, and a lock has one
    holder, as long as no call takes one of two steps (`Conc.benign`).  One is to
    release a region in a failed check, in the calls that go on to release all their
    regions; the other is to get the lock of the core in `enclave_enter`, which
    `platform_memory_protection_enter_enclave` releases before the call does;
  * `release_by_holder_fails`: `region_free` on another core takes the lock of the
    core in between, and `enclave_enter` releases it.
-/
import SecurityMonitor.LockBalance

namespace SecurityMonitor

open ByteMem Prog

variable {N : ℕ}

/-! ## The machine -/

/-- A request that a core is in. -/
structure Running (N : ℕ) where
  request : Request
  /-- what is left to execute -/
  rest : M N Reply Empty
  /-- the locks it holds, and its `locked_regions` -/
  view : LockView N

structure Conc (N : ℕ) where
  data : Data N
  locks : LockId N → Bool
  running : Fin N → Option (Running N)

inductive Act (N : ℕ) where
  | start (c : Fin N) (q : Request)
  /-- the next instruction of core `c` -/
  | exec (c : Fin N)
  | finish (c : Fin N)
  | userStore (c : Fin N) (a : Word) (v : Byte)

/-- What a call holds after an instruction. -/
def heldAfter (held : LockId N → Bool) : (i : Instr N) → i.Answer → LockId N → Bool
  | .acquire l, obtained => if obtained then Function.update held l true else held
  | .release l, _ => Function.update held l false
  | .undo previouslyLocked i, _ => if previouslyLocked then Function.update held (.region i) false else held
  | _, _ => held

/-- A timer interrupt only goes to the monitor while the core runs an enclave. -/
def Request.enabled (owner : Word) : Request → Bool
  | .timer _ => owner != ownerUntrusted
  | _ => true

namespace Conc

/-- No core is in the monitor. -/
def idle (d : Data N) (L : LockId N → Bool) : Conc N := ⟨d, L, fun _ => none⟩

def set (t : Conc N) (c : Fin N) (a : Option (Running N)) : Conc N :=
  { t with running := Function.update t.running c a }

/-- Core `c` left the call state `s` behind. -/
def put (t : Conc N) (c : Fin N) (s : CallState N) (a : Option (Running N)) : Conc N :=
  ⟨s.data, s.locks, Function.update t.running c a⟩

/-- One instruction of the request `a`. -/
def execInstr (t : Conc N) (c : Fin N) (a : Running N) (i : Instr N) (k : i.Answer → M N Reply Empty) :
    Conc N :=
  let r := CallState.exec i ⟨t.data, t.locks, a.view.flags⟩
  t.put c r.2 (some ⟨a.request, k r.1, ⟨heldAfter a.view.held i r.1, r.2.lockedRegions⟩⟩)

/-- One transition: `none` if the action is not enabled. -/
def act (img : Image N) (t : Conc N) : Act N → Option (Conc N)
  | .start c q =>
    let owner := (t.data.cores c).owner
    if (t.running c).isSome || !q.enabled owner then none
    else some (t.set c (some ⟨q, q.prog img c owner, .empty⟩))
  | .exec c => (t.running c).bind fun a =>
    match a.rest with
    | .op i k => some (t.execInstr c a i k)
    | _ => none
  | .finish c => (t.running c).bind fun a =>
    match a.rest with
    | .ret _ => some (t.set c none)
    | _ => none
  | .userStore c a v =>
    if (t.running c).isSome ∨ ¬ CanStore ⟨t.data, t.locks, fun _ => none⟩ c a then none
    else some { t with data := { t.data with mem := t.data.mem.store8 a v } }

def Step (img : Image N) (t : Conc N) (a : Act N) (t' : Conc N) : Prop := t.act img a = some t'

end Conc

/-- The instruction gives the lock `l` back. -/
def Instr.releases (l : LockId N) : Instr N → Bool
  | .release l' => l' = l
  | .undo previouslyLocked i => previouslyLocked && decide (l = .region i)
  | _ => false

/-- The next instruction. -/
def Running.next (a : Running N) : Option (Instr N) :=
  match a.rest with
  | .op i _ => some i
  | _ => none

namespace Conc

/-- Core `c` holds the lock `l`. -/
def holds (t : Conc N) (c : Fin N) (l : LockId N) : Bool := (t.running c).any fun a => a.view.held l

/-- The next instruction of core `c` gives the lock `l` back. -/
def releases (t : Conc N) (c : Fin N) (l : LockId N) : Bool :=
  (t.running c).any fun a => a.next.any (Instr.releases l)

end Conc

/-! ## Calls that are not interrupted -/

section
variable {img : Image N} {t : Conc N} {c : Fin N} {q : Request} {v : LockView N} {ρ α : Type}

theorem Conc.step_exec {i : Instr N} {k : i.Answer → M N Reply Empty}
    (h : t.running c = some ⟨q, .op i k, v⟩) :
    Conc.Step img t (.exec c) (t.execInstr c ⟨q, .op i k, v⟩ i k) := by
  rw [Conc.Step, Conc.act, h]
  rfl

/-- What is left of a statement that was run in one go, and the state. -/
def leftOf : Outcome (CallState N) ρ Fault α → Option (M N ρ α × CallState N)
  | .next a s => some (.done a, s)
  | .ret r s => some (.ret r, s)
  | .fault _ => none

theorem Conc.put_self {f : Fin 64 → Bool} {a : Option (Running N)} (h : t.running c = a) :
    t.put c ⟨t.data, t.locks, f⟩ a = t := by
  rw [Conc.put, ← h, Function.update_eq_self]

theorem Conc.step_finish {r : Reply} (h : t.running c = some ⟨q, .ret r, v⟩) :
    Conc.Step img t (.finish c) (t.set c none) := by
  rw [Conc.Step, Conc.act, h]
  rfl

/-- **A part of a request in one go.**  `g` is the place of the part in the request. -/
theorem Conc.runs_of_run (g : M N ρ α → M N Reply Empty)
    (hg : ∀ i k, g (.op i k) = .op i fun x => g (k x)) (p : M N ρ α) {p' : M N ρ α} {s : CallState N} :
    ∀ {t : Conc N} {v : LockView N}, t.running c = some ⟨q, g p, v⟩ →
      leftOf (p.run (⟨t.data, t.locks, v.flags⟩ : CallState N)) = some (p', s) →
      ∃ n v', v'.flags = s.lockedRegions ∧
        Runs (Conc.Step img) t (List.replicate n (.exec c)) (t.put c s (some ⟨q, g p', v'⟩)) := by
  induction p with
  | done a =>
    rintro t v ht ⟨⟩
    exact ⟨0, v, rfl, (Conc.put_self ht).symm ▸ .nil t⟩
  | ret r =>
    rintro t v ht ⟨⟩
    exact ⟨0, v, rfl, (Conc.put_self ht).symm ▸ .nil t⟩
  | fault f => rintro t v ht ⟨⟩
  | op i k ih =>
    intro t v ht hrun
    rw [hg] at ht
    have hstep : Runs (Conc.Step img) t [.exec c] (t.execInstr c _ i fun x => g (k x)) :=
      .snoc (.nil t) (Conc.step_exec ht)
    have hrunning : (t.execInstr c ⟨q, .op i fun x => g (k x), v⟩ i fun x => g (k x)).running c = _ :=
      Function.update_self ..
    obtain ⟨n, v', hv, hr⟩ := ih _ hrunning hrun
    refine ⟨n + 1, v', hv, ?_⟩
    have hr := hstep.append hr
    rw [Conc.execInstr, Conc.put, Conc.put, Function.update_idem] at hr
    exact hr

/-- The last part of a request in one go. -/
theorem Conc.runs_ret (g : M N ρ α → M N Reply Empty)
    (hg : ∀ i k, g (.op i k) = .op i fun x => g (k x)) (hret : ∀ r, ∃ r', g (.ret r) = .ret r')
    {p : M N ρ α} {r : ρ} {s : CallState N} (ht : t.running c = some ⟨q, g p, v⟩)
    (hrun : p.run (⟨t.data, t.locks, v.flags⟩ : CallState N) = .ret r s) :
    ∃ acts, Runs (Conc.Step img) t acts ⟨s.data, s.locks, Function.update t.running c none⟩ := by
  obtain ⟨n, v', -, hr⟩ := Conc.runs_of_run g hg p ht (congrArg leftOf hrun)
  obtain ⟨r', hr'⟩ := hret r
  have hfinish : Conc.Step img (t.put c s (some ⟨q, g (.ret r), v'⟩)) (.finish c)
      ((t.put c s (some ⟨q, g (.ret r), v'⟩)).set c none) := by
    rw [hr']
    exact Conc.step_finish (Function.update_self ..)
  have hr := hr.snoc hfinish
  rw [Conc.put, Conc.set, Function.update_idem] at hr
  exact ⟨_, hr⟩

theorem Conc.step_start (ht : t.running c = none) (hq : q.enabled (t.data.cores c).owner = true) :
    Conc.Step img t (.start c q) (t.set c (some ⟨q, q.prog img c (t.data.cores c).owner, .empty⟩)) := by
  rw [Conc.Step, Conc.act, ht, hq]
  rfl

/-- A request in one go. -/
theorem Conc.runs_request (g : M N ρ α → M N Reply Empty)
    (hg : ∀ i k, g (.op i k) = .op i fun x => g (k x)) (hret : ∀ r, ∃ r', g (.ret r) = .ret r')
    {p : M N ρ α} {r : ρ} {s : CallState N} (ht : t.running c = none)
    (hq : q.enabled (t.data.cores c).owner = true)
    (hprog : q.prog img c (t.data.cores c).owner = g p)
    (hrun : p.run (⟨t.data, t.locks, fun _ => false⟩ : CallState N) = .ret r s) :
    ∃ acts, Runs (Conc.Step img) t acts ⟨s.data, s.locks, t.running⟩ := by
  have hstart : Runs (Conc.Step img) t [.start c q] _ := .snoc (.nil t) (Conc.step_start ht hq)
  rw [hprog] at hstart
  have hrunning : (t.set c (some ⟨q, g p, .empty⟩)).running c = _ := Function.update_self ..
  obtain ⟨acts, hr⟩ := Conc.runs_ret g hg hret hrunning hrun
  have hr := hstart.append hr
  rw [Conc.set, Function.update_idem, ← ht, Function.update_eq_self] at hr
  exact ⟨_, hr⟩

/-! ## The atomic machine -/

/-- What is left of `region_free` before the check of core `p.next`. -/
def freeRest (p : FreeCall) : M N ApiResult Empty := do
  forEach ((List.finRange N).drop p.next) (regionFreeCheck p.regionId)
  regionFreeEnd p.regionId

/-- Each core is where it is in the machine with atomic calls. -/
structure Sim (s : Config N) (t : Conc N) : Prop where
  data : t.data = s.data
  locks : t.locks = s.locks
  idle : ∀ c, s.pending c = none → t.running c = none
  free : ∀ c p, s.pending c = some p → ∃ v : LockView N, v.flags = p.lockedRegions ∧
    t.running c = some ⟨.regionFree p.regionId, returnResult (freeRest p), v⟩

variable {s s' : Config N} {e : Event N}

theorem sim_idle (h : ∀ c, s.pending c = none) : Sim s (Conc.idle s.data s.locks) :=
  ⟨rfl, rfl, fun _ _ => rfl, fun c p hp => by rw [h c] at hp; exact absurd hp nofun⟩

theorem Sim.eq_idle (h : Sim s t) (hp : ∀ c, s.pending c = none) : t = Conc.idle s.data s.locks := by
  obtain ⟨d, L, running⟩ := t
  obtain rfl : d = s.data := h.data
  obtain rfl : L = s.locks := h.locks
  obtain rfl : running = fun _ => none := funext fun c => h.idle c (hp c)
  rfl

theorem exec_eq_some {l : Label N} {x : Option Reply × Config N} (h : exec img s l = some x) :
    tryExec img s l = some (.ok x) := by
  unfold exec at h
  split at h
  · rename_i r hr
    rw [hr, Option.some.inj h]
  · exact absurd h nofun

/-- The call state `u` is what the request left, and the core is idle again. -/
theorem Sim.after (h : Sim s t) {u : CallState N} {x : Option FreeCall} {a : Option (Running N)}
    (hnone : x = none → a = none) (hsome : ∀ p, x = some p → ∃ v : LockView N, v.flags = p.lockedRegions ∧
      a = some ⟨.regionFree p.regionId, returnResult (freeRest p), v⟩) :
    Sim ((s.after u).setPending c x) ⟨u.data, u.locks, Function.update t.running c a⟩ := by
  refine ⟨rfl, rfl, fun c' hc' => ?_, fun c' p hc' => ?_⟩
  · change Function.update s.pending c x c' = none at hc'
    show Function.update t.running c a c' = none
    rw [Function.update_apply] at hc' ⊢
    split_ifs at hc' ⊢
    exacts [hnone hc', h.idle c' hc']
  · change Function.update s.pending c x c' = some p at hc'
    show ∃ v : LockView N, v.flags = p.lockedRegions ∧ Function.update t.running c a c' = _
    rw [Function.update_apply] at hc' ⊢
    split_ifs at hc' ⊢
    exacts [hsome p hc', h.free c' p hc']

theorem Sim.after_idle (h : Sim s t) {u : CallState N} (hp : s.pending c = none) :
    Sim (s.after u) ⟨u.data, u.locks, t.running⟩ := by
  have hs := h.after (c := c) (u := u) (x := none) (a := none) (fun _ => rfl) nofun
  rw [← h.idle c hp, Function.update_eq_self] at hs
  have hset : (s.after u).setPending c none = s.after u := by
    rw [Config.setPending, ← hp]
    show ({ s.after u with pending := Function.update (s.after u).pending c ((s.after u).pending c) } :
      Config N) = _
    rw [Function.update_eq_self]
  rwa [hset] at hs

theorem Sim.start (h : Sim s t) :
    (⟨t.data, t.locks, fun _ => false⟩ : CallState N) = s.start := by
  rw [h.data, h.locks]
  rfl

/-- A request that the atomic machine executes in one go. -/
theorem Sim.request (h : Sim s t) (g : M N ρ α → M N Reply Empty)
    (hg : ∀ i k, g (.op i k) = .op i fun x => g (k x)) (hret : ∀ r, ∃ r', g (.ret r) = .ret r')
    {p : M N ρ α} {r : ρ} {u : CallState N} (hp : s.pending c = none)
    (hq : q.enabled (s.data.cores c).owner = true)
    (hprog : q.prog img c (s.data.cores c).owner = g p) (hrun : p.run s.start = .ret r u) :
    ∃ acts t', Runs (Conc.Step img) t acts t' ∧ Sim (s.after u) t' := by
  rw [← h.data] at hq hprog
  rw [← h.start] at hrun
  obtain ⟨acts, hr⟩ := Conc.runs_request g hg hret (h.idle c hp) hq hprog hrun
  exact ⟨acts, _, hr, h.after_idle hp⟩

/-- The start of `region_free`. -/
theorem Sim.freeBegin {r : Word} {o : Option Reply} (h : Sim s t) (hp : s.pending c = none)
    (hu : (s.data.cores c).owner = ownerUntrusted)
    (hx : (match (regionFreeBegin r).run s.start with
      | .next _ u => .ok (none, (s.after u).setPending c (some ⟨r, 0, u.lockedRegions⟩))
      | .ret x u => .ok (some (.ofResult x), s.after u)
      | .fault x => .error x : Except Fault (Option Reply × Config N)) = .ok (o, s')) :
    ∃ acts t', Runs (Conc.Step img) t acts t' ∧ Sim s' t' := by
  let g (p : M N ApiResult Unit) : M N Reply Empty := returnResult (do p; freeRest ⟨r, 0, fun _ => false⟩)
  have hprog : (Request.regionFree r).prog img c (s.data.cores c).owner = g (regionFreeBegin r) := if_pos hu
  cases hrun : (regionFreeBegin r).run s.start with
  | next a u =>
    rw [hrun] at hx
    obtain ⟨-, rfl⟩ := Prod.mk.inj (Except.ok.inj hx)
    have hstart : Conc.Step img t (.start c (.regionFree r)) _ := Conc.step_start (h.idle c hp) rfl
    rw [h.data, hprog] at hstart
    rw [← h.start] at hrun
    have hrunning : (t.set c (some ⟨.regionFree r, g (regionFreeBegin r), .empty⟩)).running c = _ :=
      Function.update_self ..
    obtain ⟨n, v', hv, hr⟩ := Conc.runs_of_run g (fun _ _ => rfl) _ hrunning (congrArg leftOf hrun)
    have hr := (Runs.snoc (.nil t) hstart).append hr
    rw [Conc.put, Conc.set, Function.update_idem] at hr
    exact ⟨_, _, hr, h.after (by simp) fun p hp => by cases hp; exact ⟨v', hv, rfl⟩⟩
  | ret x u =>
    rw [hrun] at hx
    obtain ⟨-, rfl⟩ := Prod.mk.inj (Except.ok.inj hx)
    exact h.request g (fun _ _ => rfl) (fun x => ⟨_, rfl⟩) hp rfl hprog hrun
  | fault f =>
    rw [hrun] at hx
    exact absurd hx (by simp)

/-- A check that passes leaves the map as it is. -/
theorem regionFreeCheck_flags {r : Word} {a : Unit} {u u' : CallState N}
    (h : (regionFreeCheck r c).run u = .next a u') : u'.lockedRegions = u.lockedRegions := by
  have hat : At (fun _ => false) u.data u := ⟨rfl, nofun, fun _ _ => rfl⟩
  have hspec := regionFreeCheck_spec (r := r) (c := c) (F := fun _ => True) hat
  unfold Prog.wp at hspec
  rw [h] at hspec
  exact hspec.2.2.1

/-- A further step of `region_free`. -/
theorem Sim.freeStep {p : FreeCall} {o : Option Reply} (h : Sim s t) (hp : s.pending c = some p)
    (hx : execFreeStep s c p = .ok (o, s')) : ∃ acts t', Runs (Conc.Step img) t acts t' ∧ Sim s' t' := by
  obtain ⟨v, hv, ht⟩ := h.free c p hp
  have hstart : (⟨s.data, s.locks, p.lockedRegions⟩ : CallState N) = ⟨t.data, t.locks, v.flags⟩ := by
    rw [h.data, h.locks, hv]
  rw [execFreeStep, hstart] at hx
  by_cases hN : p.next < N
  · rw [dif_pos hN] at hx
    -- the check of the next core, and what is left after it
    let g (q : M N ApiResult Unit) : M N Reply Empty := returnResult (do
      (do q; forEach ((List.finRange N).drop (p.next + 1)) (regionFreeCheck p.regionId))
      regionFreeEnd p.regionId)
    have hrest : returnResult (freeRest p) = g (regionFreeCheck p.regionId ⟨p.next, hN⟩) := by
      rw [freeRest, List.drop_eq_getElem_cons (by simpa using hN), List.getElem_finRange]
      rfl
    rw [hrest] at ht
    cases hrun : (regionFreeCheck p.regionId ⟨p.next, hN⟩).run
        (⟨t.data, t.locks, v.flags⟩ : CallState N) with
    | next a u =>
      rw [hrun] at hx
      obtain ⟨-, rfl⟩ := Prod.mk.inj (Except.ok.inj hx)
      obtain ⟨n, v', hv', hr⟩ := Conc.runs_of_run g (fun _ _ => rfl) _ ht (congrArg leftOf hrun)
      have hflags : u.lockedRegions = p.lockedRegions := by
        rw [← hv]
        exact regionFreeCheck_flags hrun
      exact ⟨_, _, hr, h.after (by simp) fun p hp => by cases hp; exact ⟨v', hv'.trans hflags, rfl⟩⟩
    | ret x u =>
      rw [hrun] at hx
      obtain ⟨-, rfl⟩ := Prod.mk.inj (Except.ok.inj hx)
      obtain ⟨acts, hr⟩ := Conc.runs_ret g (fun _ _ => rfl) (fun r => ⟨_, rfl⟩) ht hrun
      exact ⟨acts, _, hr, h.after (fun _ => rfl) (by simp)⟩
    | fault f =>
      rw [hrun] at hx
      exact absurd hx (by simp)
  · rw [dif_neg hN] at hx
    obtain ⟨r, u, hrun, -, rfl⟩ := finish_eq_ok hx
    have hrest : returnResult (freeRest p) = returnResult (regionFreeEnd p.regionId : M N _ _) := by
      rw [freeRest, List.drop_eq_nil_of_le (by simpa using not_lt.mp hN)]
      rfl
    rw [hrest] at ht
    obtain ⟨acts, hr⟩ := Conc.runs_ret returnResult (fun _ _ => rfl) (fun r => ⟨_, rfl⟩) ht hrun
    exact ⟨acts, _, hr, h.after (fun _ => rfl) (by simp)⟩

/-- **A step of the atomic machine is a run here.** -/
theorem Sim.step (h : Sim s t) (hs : Step img s e s') :
    ∃ acts t', Runs (Conc.Step img) t acts t' ∧ Sim s' t' := by
  obtain ⟨l, o⟩ := e
  have hx := exec_eq_some hs
  cases l with
  | call c k ctx =>
    cases hp : s.pending c with
    | some p => simp [tryExec, hp] at hx
    | none =>
      rw [tryExec, if_neg (by simp [hp])] at hx
      obtain ⟨r, u, hrun, -, rfl⟩ := finish_eq_ok (Option.some.inj hx)
      exact h.request (q := .call k ctx) id (fun _ _ => rfl) (fun r => ⟨r, rfl⟩) hp rfl rfl hrun
  | regionFree c r =>
    cases hp : s.pending c with
    | some p => simp [tryExec, hp] at hx
    | none =>
      rw [tryExec, if_neg (by simp [hp])] at hx
      by_cases hu : (s.data.cores c).owner = ownerUntrusted
      · rw [if_neg (not_not.mpr hu)] at hx
        exact h.freeBegin hp hu (Option.some.inj hx)
      · rw [if_pos hu] at hx
        obtain ⟨-, rfl⟩ := Prod.mk.inj (Except.ok.inj (Option.some.inj hx))
        exact h.request (q := .regionFree r) (p := (.ret (.ofResult .unsupported) : M N Reply Empty))
          (u := s.start) id (fun _ _ => rfl) (fun r => ⟨r, rfl⟩) hp rfl (if_neg hu) rfl
  | regionFreeStep c =>
    cases hp : s.pending c with
    | none => simp [tryExec, hp] at hx
    | some p =>
      rw [tryExec, hp] at hx
      exact h.freeStep hp (Option.some.inj hx)
  | timer c regs =>
    cases hp : s.pending c with
    | some p => simp [tryExec, hp] at hx
    | none =>
      rw [tryExec] at hx
      split_ifs at hx with hu
      have hu : (s.data.cores c).owner ≠ ownerUntrusted := fun h => hu (.inr h)
      obtain ⟨r, u, hrun, -, rfl⟩ := finish_eq_ok (Option.some.inj hx)
      exact h.request (q := .timer regs) returnResult (fun _ _ => rfl) (fun r => ⟨_, rfl⟩) hp
        (by simpa [Request.enabled] using hu) rfl hrun
  | userStore c a v =>
    cases hp : s.pending c with
    | some p => simp [tryExec, hp] at hx
    | none =>
      rw [tryExec] at hx
      split_ifs at hx with hc
      obtain ⟨-, rfl⟩ := Prod.mk.inj (Except.ok.inj (Option.some.inj hx))
      refine ⟨[.userStore c a v], { t with data := { t.data with mem := t.data.mem.store8 a v } },
        .snoc (.nil t) ?_, ?_⟩
      · rw [Conc.Step, Conc.act, if_neg]
        rw [h.idle c hp, h.data]
        rwa [hp] at hc
      · exact ⟨by rw [h.data], h.locks, h.idle, h.free⟩

/-- **Every run of the atomic machine is a run here.** -/
theorem Sim.run {es : List (Event N)} (h : Sim s t) (hr : Runs (Step img) s es s') :
    ∃ acts t', Runs (Conc.Step img) t acts t' ∧ Sim s' t' := by
  induction hr with
  | nil => exact ⟨[], t, .nil t, h⟩
  | snoc _ hs ih =>
    obtain ⟨acts, t₁, hr₁, h₁⟩ := ih
    obtain ⟨acts', t₂, hr₂, h₂⟩ := h₁.step hs
    exact ⟨acts ++ acts', t₂, hr₁.append hr₂, h₂⟩

end

/-! ## Holders -/

/-- How the checks of metadata pages behave in a request. -/
def Request.mode : Request → UndoMode
  | .call (.enclaveEnter ..) _ => .enter
  | _ => .source

/-- The instruction is not one of the two that lead to a release without the lock. -/
def Instr.benign (μ : UndoMode) (L : LockId N → Bool) : Instr N → Bool
  | .undo previouslyLocked _ => !previouslyLocked || μ == .enter
  | .acquire l => μ != .enter || !l.isCore || L l
  | _ => true

/-- No call other than `enclave_enter` releases a region in a failed check, and
    `enclave_enter` does not get the lock of its core. -/
def Conc.benign (t : Conc N) : Act N → Bool
  | .exec c => (t.running c).all fun a => a.next.all (Instr.benign a.request.mode t.locks)
  | _ => true

def Conc.BenignStep (img : Image N) (t : Conc N) (a : Act N) (t' : Conc N) : Prop :=
  Conc.Step img t a t' ∧ t.benign a = true

section
variable {img : Image N} {t t' : Conc N} {c : Fin N} {q : Request} {v : LockView N}

/-- Every request only releases what it holds, in the mode that belongs to it. -/
theorem Request.locks {owner : Word} : (q.prog img c owner).meets (lockContract q.mode)
    (fun a _ => a.elim) (fun _ _ => True) .empty := by
  cases q with
  | regionFree r =>
    rw [Request.prog, meets_ite, meets_returnResult, meets_ret]
    exact ⟨fun _ => meets_mono regionFree_locks (fun _ _ h => h) fun _ _ _ => trivial, fun _ => trivial⟩
  | timer regs =>
    rw [Request.prog, meets_returnResult]
    exact meets_mono enclaveAex_locks (fun _ _ h => h) fun _ _ _ => trivial
  | call k ctx =>
    cases hk : k.mayLeak with
    | false =>
      have hmode : (Request.call k ctx).mode = .source := by
        cases k <;> first | rfl | exact absurd hk (by simp [Call.mayLeak])
      rw [hmode]
      exact meets_mono (k.locks hk (by decide)) (fun _ _ h => h) fun _ _ _ => trivial
    | true =>
      rw [Request.prog, meets_ite]
      refine ⟨fun _ => ?_, fun _ => ?_⟩
      · cases k
        case enclaveEnter => exact (meets_returnResult _).symm ▸ enclaveEnter_locks
        case enclaveLoadPageTable => exact (meets_returnResult _).symm ▸ enclaveLoadPageTable_locks
        case enclaveLoadPage => exact (meets_returnResult _).symm ▸ enclaveLoadPage_locks
        case mailAccept => exact (meets_returnResult _).symm ▸ mailAccept_locks
        case regionAssign => exact (meets_returnResult _).symm ▸ regionAssign_locks
        case regionCachePartitioning => exact (meets_returnResult _).symm ▸ regionCachePartitioning_locks
        all_goals exact absurd hk (by simp [Call.mayLeak])
      · cases k
        case mailAccept => exact (meets_returnResult _).symm ▸ mailAccept_locks
        case enclaveEnter | enclaveLoadPageTable | enclaveLoadPage | regionAssign |
          regionCachePartitioning => trivial
        all_goals exact absurd hk (by simp [Call.mayLeak])

/-- What one instruction of a call that keeps the contract does to the locks. -/
structure InstrEffect (L L' held held' : LockId N → Bool) : Prop where
  /-- what the call holds is locked -/
  locked : ∀ l, held' l = true → L' l = true
  /-- what it gets was free -/
  gets : ∀ l, held' l = true → held l = true ∨ L l = false
  /-- what it gives back was its own -/
  gives : ∀ l, L l = true → L' l = true ∨ held l = true

theorem Instr.effect {μ : UndoMode} {i : Instr N} {d : Data N} {L : LockId N → Bool}
    {Q : i.Answer → LockView N → Prop} (hμ : μ ≠ .repaired) (hpre : lockPre μ i v Q)
    (hv : ∀ l, v.held l = true → L l = true) (hb : i.benign μ L = true) :
    let r := CallState.exec i ⟨d, L, v.flags⟩
    InstrEffect L r.2.locks v.held (heldAfter v.held i r.1) ∧
      Q r.1 ⟨heldAfter v.held i r.1, r.2.lockedRegions⟩ := by
  have hsame : InstrEffect L L v.held v.held := ⟨hv, fun _ => .inl, fun _ => .inl⟩
  have hdrop (l : LockId N) (hl : v.held l = true) : InstrEffect L (Function.update L l false) v.held
      (Function.update v.held l false) := by
    refine ⟨fun l' hl' => ?_, fun l' hl' => .inl ?_, fun l' hl' => ?_⟩
    · rw [Function.update_apply] at hl' ⊢
      split_ifs at hl' ⊢
      exact hv l' hl'
    · rw [Function.update_apply] at hl'
      split_ifs at hl'
      exact hl'
    · rw [Function.update_apply]
      split_ifs with h
      exacts [.inr (h ▸ hl), .inl hl']
  cases i with
  | getData => exact ⟨hsame, hpre d⟩
  | setData d' => exact ⟨hsame, hpre⟩
  | getLocked => exact ⟨hsame, hpre⟩
  | markLocked i => exact ⟨hsame, hpre⟩
  | clearLocked => exact ⟨hsame, hpre⟩
  | release l => exact ⟨hdrop l hpre.1, hpre.2⟩
  | acquire l =>
    show InstrEffect L (Function.update L l true) v.held (if (!L l) = true then _ else v.held) ∧
      Q (!L l) ⟨if (!L l) = true then _ else v.held, v.flags⟩
    cases hl : L l with
    | true =>
      have hL : Function.update L l true = L := by rw [← hl, Function.update_eq_self]
      rw [hL]
      exact ⟨hsame, hpre.1⟩
    | false =>
      have hheld : v.held l = false := by
        by_contra h
        rw [hv l (Bool.not_eq_false _ ▸ h)] at hl
        exact absurd hl (by simp)
      have hcore : μ = .enter → l.isCore = false := by
        rintro rfl
        simpa [Instr.benign, hl] using hb
      refine ⟨⟨fun l' hl' => ?_, fun l' hl' => ?_, fun l' hl' => .inl ?_⟩, hpre.2 hheld hcore⟩
      · change Function.update v.held l true l' = true at hl'
        rw [Function.update_apply] at hl' ⊢
        split_ifs at hl' ⊢
        exacts [rfl, hv l' hl']
      · change Function.update v.held l true l' = true at hl'
        rw [Function.update_apply] at hl'
        split_ifs at hl' with h
        exacts [.inr (h ▸ hl), .inl hl']
      · rw [Function.update_apply]
        split_ifs
        exacts [rfl, hl']
  | undo b i =>
    cases b with
    | false =>
      refine ⟨hsame, ?_⟩
      cases μ with
      | repaired => exact absurd rfl hμ
      | source => exact hpre
      | enter => exact hpre
    | true =>
      have hμ : μ = .enter := by simpa [Instr.benign] using hb
      subst hμ
      exact ⟨hdrop _ hpre.1, hpre.2⟩

/-- **The invariant**: what every core still has to execute keeps the contract, what it holds
    is locked, and no two cores hold the same. -/
structure Conc.Inv (t : Conc N) : Prop where
  meets : ∀ c a, t.running c = some a → a.rest.meets (lockContract a.request.mode)
    (fun a _ => a.elim) (fun _ _ => True) a.view
  locked : ∀ c a l, t.running c = some a → a.view.held l = true → t.locks l = true
  unique : ∀ c c' a a' l, t.running c = some a → t.running c' = some a' →
    a.view.held l = true → a'.view.held l = true → c = c'

theorem Conc.inv_idle (h : ∀ c, t.running c = none) : t.Inv :=
  ⟨fun c a ha => by rw [h c] at ha; exact absurd ha nofun,
    fun c a l ha => by rw [h c] at ha; exact absurd ha nofun,
    fun c c' a a' l ha => by rw [h c] at ha; exact absurd ha nofun⟩

/-- A core gets another request, or none, with nothing held. -/
theorem Conc.Inv.set (h : t.Inv) {x : Option (Running N)}
    (hx : ∀ a, x = some a → a.view = .empty ∧ a.rest.meets (lockContract a.request.mode)
      (fun a _ => a.elim) (fun _ _ => True) a.view) : (t.set c x).Inv := by
  have hold (c' : Fin N) (a : Running N) (ha : (t.set c x).running c' = some a) :
      (c' = c ∧ x = some a) ∨ t.running c' = some a := by
    change Function.update t.running c x c' = some a at ha
    rw [Function.update_apply] at ha
    split_ifs at ha with hc
    exacts [.inl ⟨hc, ha⟩, .inr ha]
  have hheld (c' : Fin N) (a : Running N) (l : LockId N) (ha : (t.set c x).running c' = some a)
      (hl : a.view.held l = true) : t.running c' = some a := by
    rcases hold c' a ha with ⟨-, hxa⟩ | ha
    · rw [(hx a hxa).1] at hl; exact absurd hl nofun
    · exact ha
  refine ⟨fun c' a ha => ?_, fun c' a l ha hl => h.locked c' a l (hheld c' a l ha hl) hl,
    fun c₁ c₂ a₁ a₂ l h₁ h₂ hl₁ hl₂ => h.unique c₁ c₂ a₁ a₂ l (hheld c₁ a₁ l h₁ hl₁)
      (hheld c₂ a₂ l h₂ hl₂) hl₁ hl₂⟩
  rcases hold c' a ha with ⟨-, hxa⟩ | ha
  exacts [(hx a hxa).2, h.meets c' a ha]

theorem Request.mode_ne (q : Request) : q.mode ≠ .repaired := by
  unfold Request.mode
  split <;> nofun

theorem Conc.running_put {u : CallState N} {b a' : Running N} {c' : Fin N}
    (h : (t.put c u (some b)).running c' = some a') :
    c' = c ∧ a' = b ∨ c' ≠ c ∧ t.running c' = some a' := by
  change Function.update t.running c (some b) c' = some a' at h
  rw [Function.update_apply] at h
  split_ifs at h with hc
  exacts [.inl ⟨hc, (Option.some.inj h).symm⟩, .inr ⟨hc, h⟩]

/-- A core takes a step that only takes free locks and gives its own back. -/
theorem Conc.Inv.put (h : t.Inv) {a b : Running N} {u : CallState N} (ha : t.running c = some a)
    (he : InstrEffect t.locks u.locks a.view.held b.view.held)
    (hm : b.rest.meets (lockContract b.request.mode) (fun a _ => a.elim) (fun _ _ => True) b.view) :
    (t.put c u (some b)).Inv := by
  -- no other core holds what this one gets
  have hother (c' : Fin N) (a' : Running N) (l : LockId N) (hc : c' ≠ c) (ha' : t.running c' = some a')
      (hl' : a'.view.held l = true) : b.view.held l = false := by
    by_contra hl
    rcases he.gets l (Bool.not_eq_false _ ▸ hl) with hl | hl
    · exact hc (h.unique c' c a' a l ha' ha hl' hl)
    · rw [h.locked c' a' l ha' hl'] at hl; exact absurd hl nofun
  refine ⟨fun c' a' ha' => ?_, fun c' a' l ha' hl' => ?_, fun c₁ c₂ a₁ a₂ l ha₁ ha₂ hl₁ hl₂ => ?_⟩
  · obtain ⟨-, rfl⟩ | ⟨-, ha'⟩ := Conc.running_put ha'
    exacts [hm, h.meets c' a' ha']
  · obtain ⟨-, rfl⟩ | ⟨hc, ha'⟩ := Conc.running_put ha'
    · exact he.locked l hl'
    · refine (he.gives l (h.locked c' a' l ha' hl')).resolve_right fun hl => ?_
      exact hc (h.unique c' c a' a l ha' ha hl' hl)
  · obtain ⟨rfl, rfl⟩ | ⟨hc₁, h₁⟩ := Conc.running_put ha₁ <;>
      obtain ⟨rfl, rfl⟩ | ⟨hc₂, h₂⟩ := Conc.running_put ha₂
    · rfl
    · rw [hother c₂ a₂ l hc₂ h₂ hl₂] at hl₁; exact absurd hl₁ nofun
    · rw [hother c₁ a₁ l hc₁ h₁ hl₁] at hl₂; exact absurd hl₂ nofun
    · exact h.unique c₁ c₂ a₁ a₂ l h₁ h₂ hl₁ hl₂

theorem Conc.Inv.step (h : t.Inv) {x : Act N} (hs : Conc.BenignStep img t x t') : t'.Inv := by
  obtain ⟨hs, hb⟩ := hs
  cases x with
  | start c q =>
    rw [Conc.Step, Conc.act] at hs
    split_ifs at hs
    cases hs
    refine h.set fun a ha => ?_
    cases ha
    exact ⟨rfl, Request.locks⟩
  | exec c =>
    rw [Conc.Step, Conc.act, Option.bind_eq_some_iff] at hs
    obtain ⟨a, ha, hs⟩ := hs
    have hb : a.next.all (Instr.benign a.request.mode t.locks) = true := by simpa [Conc.benign, ha] using hb
    have hm := h.meets c a ha
    cases hrest : a.rest with
    | op i k =>
      rw [hrest] at hs
      rw [hrest, meets_op] at hm
      cases hs
      rw [Running.next, hrest] at hb
      obtain ⟨he, hk⟩ := Instr.effect a.request.mode_ne hm (fun l => h.locked c a l ha) hb
      exact h.put ha he hk
    | done x => exact x.elim
    | ret r => rw [hrest] at hs; exact absurd hs nofun
    | fault f => rw [hrest] at hs; exact absurd hs nofun
  | finish c =>
    rw [Conc.Step, Conc.act, Option.bind_eq_some_iff] at hs
    obtain ⟨a, ha, hs⟩ := hs
    cases hrest : a.rest with
    | ret r =>
      rw [hrest] at hs
      cases hs
      exact h.set nofun
    | done x => exact x.elim
    | op i k => rw [hrest] at hs; exact absurd hs nofun
    | fault f => rw [hrest] at hs; exact absurd hs nofun
  | userStore c a v =>
    rw [Conc.Step, Conc.act] at hs
    split_ifs at hs
    cases hs
    exact ⟨h.meets, h.locked, h.unique⟩

theorem lockPre_releases {μ : UndoMode} {i : Instr N} {l : LockId N}
    {Q : i.Answer → LockView N → Prop} (hμ : μ ≠ .repaired) (h : lockPre μ i v Q)
    (hi : i.releases l = true) : v.held l = true := by
  cases i with
  | release l' => rw [← of_decide_eq_true hi]; exact h.1
  | undo b i =>
    obtain ⟨rfl, hl⟩ := Bool.and_eq_true_iff.mp hi
    rw [of_decide_eq_true hl]
    cases μ with
    | repaired => exact absurd rfl hμ
    | source => exact h
    | enter => exact h.1
  | getData | setData | acquire | getLocked | markLocked | clearLocked => exact absurd hi nofun

theorem Conc.Inv.holds_of_releases (h : t.Inv) {l : LockId N} (hr : t.releases c l = true) :
    t.holds c l = true := by
  obtain ⟨a, ha, hr⟩ := (Option.any_eq_true _ _).mp hr
  obtain ⟨i, hi, hr⟩ := (Option.any_eq_true _ _).mp hr
  have hm := h.meets c a ha
  refine (Option.any_eq_true _ _).mpr ⟨a, ha, ?_⟩
  unfold Running.next at hi
  split at hi
  · rename_i j k hrest
    cases hi
    rw [hrest] at hm
    exact lockPre_releases a.request.mode_ne hm hr
  · exact absurd hi nofun

theorem Conc.Inv.holder_unique (h : t.Inv) {c' : Fin N} {l : LockId N} (hc : t.holds c l = true)
    (hc' : t.holds c' l = true) : c = c' := by
  obtain ⟨a, ha, hl⟩ := (Option.any_eq_true _ _).mp hc
  obtain ⟨a', ha', hl'⟩ := (Option.any_eq_true _ _).mp hc'
  exact h.unique c c' a a' l ha ha' hl hl'

/-- **A lock is released only by its holder**, and a lock has one holder: in every run from a
    configuration in which no core is in the monitor, as long as the steps are benign. -/
theorem release_by_holder {t₀ : Conc N} {acts : List (Act N)} (h₀ : ∀ c, t₀.running c = none)
    (hr : Runs (Conc.BenignStep img) t₀ acts t) :
    (∀ c l, t.releases c l = true → t.holds c l = true) ∧
      ∀ c c' l, t.holds c l = true → t.holds c' l = true → c = c' := by
  have hinv : t.Inv := hr.invariant (Conc.inv_idle h₀) fun _ _ _ h hs => h.step hs
  exact ⟨fun c l => hinv.holds_of_releases, fun c c' l => hinv.holder_unique⟩

end

/-! ## A run that is not benign -/

/-- Core 0 blocks region 4 and has released all its locks but the one of the region; core 1 is
    in `region_update` and has locked the untrusted state after it. -/
def blockUpdateActs : List (Act 2) :=
  .start 0 (.call (.regionBlock 4) zeroContext) :: .start 1 (.call .regionUpdate zeroContext) ::
  List.replicate 10 (.exec 0) ++ (List.replicate 4 [.exec 1, .exec 0]).flatten

set_option maxRecDepth 100000 in
/-- Two calls in progress: each core is about to release a lock, which it holds, and the lock
    that core 1 has got is not held by core 0 any more. -/
theorem release_by_holder_update : ∃ t, Runs (Conc.BenignStep smallImage)
    (Conc.idle (smInit smallImage zeroBoot).data (smInit smallImage zeroBoot).locks) blockUpdateActs t ∧
    t.releases 0 (.region 4) = true ∧ t.holds 0 (.region 4) = true ∧
    t.releases 1 (.core 1) = true ∧ t.holds 1 (.core 1) = true ∧
    t.holds 1 .untrustedState = true ∧ t.holds 0 .untrustedState = false := by
  obtain ⟨t, hr, hzero, hone, hu⟩ : ∃ t, Runs (fun t x t' => restrict (fun t x => t.benign x = true)
      (Conc.act smallImage) t x = some t')
      (Conc.idle (smInit smallImage zeroBoot).data (smInit smallImage zeroBoot).locks) blockUpdateActs t ∧
      t.releases 0 (.region 4) = true ∧ t.releases 1 (.core 1) = true ∧
      t.holds 1 .untrustedState = true := Runs.exists_of_foldlM _ (by decide +kernel)
  have hr : Runs (Conc.BenignStep smallImage) _ _ t := hr.mono fun _ _ _ h =>
    ⟨(restrict_eq_some.mp h).2, (restrict_eq_some.mp h).1⟩
  obtain ⟨hrel, hunique⟩ := release_by_holder (fun _ => rfl) hr
  refine ⟨t, hr, hzero, hrel 0 _ hzero, hone, hrel 1 _ hone, hu, ?_⟩
  by_contra hnot
  exact absurd (hunique 0 1 _ (Bool.eq_true_of_not_eq_false hnot) hu) (by decide)

/-- Core 0 enters the enclave and is about to release its lock a second time; core 1 has
    started to free region 4 in between and looks at core 0. -/
def enterActs : List (Act 2) :=
  .start 0 (.call (.enclaveEnter firstEnclave firstThread) zeroContext) :: List.replicate 13 (.exec 0) ++
  .start 1 (.regionFree 4) :: List.replicate 5 (.exec 1) ++ List.replicate 65 (.exec 0)

/-- Core 0 releases the lock and takes it to leave the enclave. -/
def leaveActs : List (Act 2) :=
  [.exec 0, .finish 0, .start 0 (.call .enclaveExit zeroContext), .exec 0, .exec 0]

set_option maxRecDepth 100000 in
/-- When core 0 releases the lock, core 1 holds it, and after `leaveActs` both do. -/
theorem release_by_holder_fails : ∃ acts t acts' t', Runs (Conc.Step smallImage)
      (Conc.idle (smInit smallImage zeroBoot).data (smInit smallImage zeroBoot).locks) acts t ∧
    t.releases 0 (.core 0) = true ∧ t.holds 0 (.core 0) = false ∧ t.holds 1 (.core 0) = true ∧
    Runs (Conc.Step smallImage) t acts' t' ∧ t'.holds 0 (.core 0) = true ∧ t'.holds 1 (.core 0) = true := by
  obtain ⟨es, s, hr, hp, hrun⟩ : ∃ es s, Runs (Step smallImage) (smInit smallImage zeroBoot) es s ∧
      (∀ c, (s.pending c).isNone = true) ∧
      ((enterActs.foldlM (Conc.act smallImage) (Conc.idle s.data s.locks)).any fun t =>
        t.releases 0 (.core 0) && !t.holds 0 (.core 0) && t.holds 1 (.core 0) &&
        ((leaveActs.foldlM (Conc.act smallImage) t).any fun t' =>
          t'.holds 0 (.core 0) && t'.holds 1 (.core 0))) = true :=
    Runs.exists_of_runsOf (setupLabels ++ buildLabels firstEnclave firstThread 0 ++
      [callOn 0 (.regionBlock 4)]) (by decide +kernel)
  -- the run up to here is also one of this machine
  obtain ⟨acts, t₀, hr₀, hsim⟩ := (sim_idle fun _ => rfl).run hr
  have ht₀ : t₀ = Conc.idle s.data s.locks := hsim.eq_idle fun c => Option.isNone_iff_eq_none.mp (hp c)
  rw [ht₀] at hr₀
  obtain ⟨t, ht, hrun⟩ := (Option.any_eq_true _ _).mp hrun
  simp only [Bool.and_eq_true, Bool.not_eq_true'] at hrun
  obtain ⟨⟨⟨hrel, hnot⟩, hone⟩, hleave⟩ := hrun
  obtain ⟨t', ht', hboth⟩ := (Option.any_eq_true _ _).mp hleave
  obtain ⟨hzero', hone'⟩ := Bool.and_eq_true_iff.mp hboth
  exact ⟨_, t, _, t', hr₀.append (.of_foldlM _ ht), hrel, hnot, hone, .of_foldlM _ ht', hzero', hone'⟩

end SecurityMonitor
