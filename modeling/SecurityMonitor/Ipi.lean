/-
  Interrupts between the cores (`src/kernel/mcall.c`, `.handle_m_soft_interrupt` of
  `src/handle_untrusted/entry_from_untrusted.S` and
  `untrusted_software_interrupt_handler`).

  A core asks others to do something by a bit in their `mipi_pending` and a store to
  their `ipi`.  For a remote fence `send_ipi_many` then waits until the `ipi` of each
  recipient is clear again; while it waits it takes its own incoming interrupts back,
  and raises its own `ipi` again before it returns.  The handler clears `ipi`, takes the
  bits and only then does what they ask for.

  Each access to `ipi` or `mipi_pending` is one step here, and the steps of the cores
  interleave freely.  The line `msip` of a core follows its `ipi` with a delay
  (`deliver`), but for the core's own stores, which a fence follows.  A section of the
  cache rendezvous is one step, as in `LlcSync`.

  * `remote_fence`: when a remote fence has returned, no recipient runs another
    instruction of the supervisor before its fence;
  * `pending_signalled`: no bit is ever left behind.

  The handler calls C code between taking the bits into `t0` and testing them there,
  and `t0` is not saved across the call.  `IpiCode.t0` is what the call leaves in it,
  and the first result needs that the fence bits survive.
-/
import SecurityMonitor.LlcSync

namespace SecurityMonitor

open ByteMem

variable {N : ℕ}

/-! ## Events -/

/-- The events that are sent, as bits of `mipi_pending`. -/
inductive IpiEvent where
  | soft
  | fenceI
  | sfenceVma
  deriving DecidableEq

/-- `IPI_SOFT`, `IPI_FENCE_I`, `IPI_SFENCE_VMA`. -/
def IpiEvent.bit : IpiEvent → ℕ
  | .soft => 0
  | .fenceI => 1
  | .sfenceVma => 2

def IpiEvent.code (ev : IpiEvent) : BitVec 32 := BitVec.twoPow 32 ev.bit

/-- `IPI_HALT`, which nobody sends. -/
def ipiHalt : BitVec 32 := BitVec.twoPow 32 3

/-- `p & ev`. -/
def has (p : BitVec 32) (ev : IpiEvent) : Bool := decide (p &&& ev.code ≠ 0)

def hasHalt (p : BitVec 32) : Bool := decide (p &&& ipiHalt ≠ 0)

/-- The fence or interrupt of `untrusted_software_interrupt_handler`: the first event in its chain of
    `else if`.  The branch for `IPI_HALT` is a `wfi`. -/
def firstEvent (p : BitVec 32) : Option IpiEvent :=
  if has p .soft then some .soft
  else if has p .fenceI then some .fenceI
  else if has p .sfenceVma then some .sfenceVma
  else none

theorem and_twoPow_ne_zero {p : BitVec 32} {i : ℕ} (hi : i < 32) :
    decide (p &&& BitVec.twoPow 32 i ≠ 0) = p.getLsbD i := by
  have hne : BitVec.twoPow 32 i ≠ 0#32 := by
    intro h
    have hbit : (BitVec.twoPow 32 i).getLsbD i = true := by simp [hi]
    simp [h] at hbit
  rw [BitVec.and_twoPow]
  cases hp : p.getLsbD i with
  | false => simp
  | true => simp [hne]

theorem has_eq {p : BitVec 32} {ev : IpiEvent} : has p ev = p.getLsbD ev.bit :=
  and_twoPow_ne_zero (by cases ev <;> decide)

theorem hasHalt_eq {p : BitVec 32} : hasHalt p = p.getLsbD 3 := and_twoPow_ne_zero (by decide)

@[simp] theorem has_zero {ev : IpiEvent} : has 0 ev = false := by simp [has]

@[simp] theorem hasHalt_zero : hasHalt 0 = false := by simp [hasHalt]

theorem has_or {p : BitVec 32} {ev ev' : IpiEvent} :
    has (p ||| ev'.code) ev = (has p ev || decide (ev = ev')) := by
  rw [has_eq, has_eq, BitVec.getLsbD_or]
  congr 1
  cases ev <;> cases ev' <;> decide

theorem hasHalt_or {p : BitVec 32} {ev : IpiEvent} : hasHalt (p ||| ev.code) = hasHalt p := by
  rw [hasHalt_eq, hasHalt_eq, BitVec.getLsbD_or, show ev.code.getLsbD 3 = false by cases ev <;> decide,
    Bool.or_false]

theorem has_or_left {p : BitVec 32} {ev ev' : IpiEvent} (h : has p ev = true) :
    has (p ||| ev'.code) ev = true := by rw [has_or, h, Bool.true_or]

theorem has_or_self {p : BitVec 32} {ev : IpiEvent} : has (p ||| ev.code) ev = true := by
  rw [has_or, decide_eq_true rfl, Bool.or_true]

/-! ## Cores -/

/-- Where a core is. -/
inductive IpiPlace where
  | supervisor
  | enclave
  /-- in a call or a handler that has nothing to do with interrupts -/
  | monitor
  /-- at the head of the first loop of `send_ipi_many`; `m` is `mask >> i` -/
  | send (ev : IpiEvent) (mask : Word) (i : ℕ)
  /-- in `send_ipi`, after the `atomic_or` -/
  | signal (ev : IpiEvent) (mask : Word) (i : ℕ)
  /-- at the head of the inner loop of the second loop -/
  | await (mask : Word) (i : ℕ) (incoming : Bool)
  /-- in the inner loop, about to take the own `ipi` back -/
  | consume (mask : Word) (i : ℕ) (incoming : Bool)
  /-- after the second loop -/
  | restore (incoming : Bool)
  /-- at the head of the loop of `region_flush` or `region_cache_partitioning` that calls `send_ipi` -/
  | notify (i : ℕ)
  | notifySignal (i : ℕ)
  /-- past that loop: `LlcSync` says where -/
  | round
  /-- at `.handle_m_soft_interrupt` -/
  | trapped
  /-- `ipi` is clear, `mipi_pending` not yet taken -/
  | cleared
  /-- about to call `untrusted_software_interrupt_handler` -/
  | decoded (p : BitVec 32)
  /-- in the spin loop of `handle_llc_changes` -/
  | spinning (p : BitVec 32)
  /-- back from it: at the test for each of the events -/
  | testSoft (t0 : BitVec 32)
  | testFenceI (t0 : BitVec 32)
  | testSfenceVma (t0 : BitVec 32)
  | testHalt (t0 : BitVec 32)
  | halted
  deriving DecidableEq

/-- A core: `ipi` and `mipi_pending` of its `hls_t`, two bits of its `mip`. -/
structure IpiHart where
  ipi : Bool
  pending : BitVec 32
  msip : Bool
  ssip : Bool
  place : IpiPlace
  deriving DecidableEq

structure IpiState (N : ℕ) where
  harts : Fin N → IpiHart
  llc : SyncState N

/-- What the protocol depends on: the cores that the device tree lists, and what
    `untrusted_software_interrupt_handler` leaves in `t0`, given the pending bits and whether it
    waited for a cache round. -/
structure IpiCode (N : ℕ) where
  hartMask : Word
  hartMask_lt : ∀ i, hartMask.getLsbD i = true → i < N
  t0 : BitVec 32 → Bool → BitVec 32

namespace IpiState

variable (s : IpiState N)

def setHart (c : Fin N) (h : IpiHart) : IpiState N := { s with harts := Function.update s.harts c h }

def setPlace (c : Fin N) (p : IpiPlace) : IpiState N := s.setHart c { s.harts c with place := p }

/-- `atomic_or(&OTHER_HLS(r)->mipi_pending, ev)`. -/
def post (r : Fin N) (ev : IpiEvent) : IpiState N :=
  s.setHart r { s.harts r with pending := (s.harts r).pending ||| ev.code }

/-- `*OTHER_HLS(r)->ipi = 1`. -/
def raise (r : Fin N) : IpiState N := s.setHart r { s.harts r with ipi := true }

end IpiState

/-- The core may run an instruction of the supervisor: no interrupt is to be taken first. -/
def CanRun (s : IpiState N) (c : Fin N) : Prop := (s.harts c).place = .supervisor ∧ (s.harts c).msip = false

instance decidableCanRun (s : IpiState N) (c : Fin N) : Decidable (CanRun s c) :=
  inferInstanceAs (Decidable (_ ∧ _))

def hartOf (N i : ℕ) : Option (Fin N) := if h : i < N then some ⟨i, h⟩ else none

/-- The section of the rendezvous that the initiator `c` executes next. -/
def roundLabel (s : IpiState N) (c : Fin N) : Option (SyncLabel N) :=
  match s.llc.place c with
  | .initiating _ .collecting => some (.pollWaiting c)
  | .initiating _ .acting => some (.clear c)
  | .initiating _ .draining => some (.pollLeft c)
  | .initiating _ .releasing => some (.release c)
  | _ => none

/-- The next step of core `c` in the monitor. -/
def ipiStep (k : IpiCode N) (s : IpiState N) (c : Fin N) : Option (IpiState N) :=
  let h := s.harts c
  match h.place with
  | .supervisor | .enclave | .monitor | .halted => none
  | .send ev mask i =>
    if mask >>> i = 0 then
      some (s.setPlace c (if ev = .soft then .supervisor else .await mask 0 false))
    else if mask.getLsbD i then
      (hartOf N i).map fun r => (s.post r ev).setPlace c (.signal ev mask i)
    else some (s.setPlace c (.send ev mask (i + 1)))
  | .signal ev mask i => (hartOf N i).map fun r => (s.raise r).setPlace c (.send ev mask (i + 1))
  | .await mask i incoming =>
    if mask >>> i = 0 then some (s.setPlace c (.restore incoming))
    else if mask.getLsbD i then
      (hartOf N i).map fun r => s.setPlace c
        (if (s.harts r).ipi then .consume mask i incoming else .await mask (i + 1) incoming)
    else some (s.setPlace c (.await mask (i + 1) incoming))
  | .consume mask i incoming =>
    some (s.setHart c { h with ipi := false, place := .await mask i (incoming || h.ipi) })
  | .restore incoming =>
    some (s.setHart c
      { h with ipi := h.ipi || incoming, msip := h.msip || incoming, place := .supervisor })
  | .notify i =>
    if hi : i < N then
      if i = c then some (s.setPlace c (.notify (i + 1)))
      else some ((s.post ⟨i, hi⟩ .soft).setPlace c (.notifySignal i))
    else some (s.setPlace c .round)
  | .notifySignal i => (hartOf N i).map fun r => (s.raise r).setPlace c (.notify (i + 1))
  | .round => do
    let l ← roundLabel s c
    let y ← syncExec s.llc l
    let s' := { s with llc := y }
    some (if l = .release c then s'.setPlace c .supervisor else s')
  | .trapped => some (s.setHart c { h with ipi := false, msip := false, place := .cleared })
  | .cleared => some (s.setHart c { h with pending := 0, place := .decoded h.pending })
  | .decoded p =>
    if firstEvent p = some .soft then do
      let y ← syncExec s.llc (.arrive c)
      let s' := { s with llc := y }
      some (if s.llc.sync.busy then s'.setPlace c (.spinning p)
        else s'.setHart c { h with ssip := true, place := .testSoft (k.t0 p false) })
    else some (s.setPlace c (.testSoft (k.t0 p false)))
  | .spinning p => do
    let y ← syncExec s.llc (.spin c)
    let s' := { s with llc := y }
    some (if s.llc.sync.wait then s' else s'.setPlace c (.testSoft (k.t0 p true)))
  | .testSoft t => some (s.setHart c { h with ssip := h.ssip || has t .soft, place := .testFenceI t })
  | .testFenceI t => some (s.setPlace c (.testSfenceVma t))
  | .testSfenceVma t => some (s.setPlace c (.testHalt t))
  | .testHalt t => some (s.setPlace c (if hasHalt t then .halted else .supervisor))

inductive IpiLabel (N : ℕ) where
  /-- an instruction of the supervisor -/
  | instruction (c : Fin N)
  /-- the line follows `ipi` -/
  | deliver (c : Fin N)
  | trap (c : Fin N)
  /-- `SBI_SEND_IPI`, `SBI_REMOTE_FENCE_I`, `SBI_REMOTE_SFENCE_VMA`; `pmask` is what the pointer
      leads to, unless it is null -/
  | ecall (c : Fin N) (ev : IpiEvent) (pmask : Option Word)
  | flush (c : Fin N) (f : Initiator)
  | call (c : Fin N)
  | return (c : Fin N)
  | enter (c : Fin N)
  | leave (c : Fin N)
  | step (c : Fin N)
  deriving DecidableEq

def ipiExec (k : IpiCode N) (s : IpiState N) : IpiLabel N → Option (IpiState N)
  | .instruction c => if CanRun s c then some s else none
  | .deliver c => some (s.setHart c { s.harts c with msip := (s.harts c).ipi })
  | .trap c =>
    if (s.harts c).place = .supervisor ∧ (s.harts c).msip = true then some (s.setPlace c .trapped) else none
  | .ecall c ev pmask =>
    if CanRun s c then
      some (s.setPlace c (.send ev (k.hartMask &&& pmask.getD (BitVec.allOnes 64)) 0))
    else none
  | .flush c f =>
    if CanRun s c then do
      let y ← syncExec s.llc (.start c f)
      some (if s.llc.sync.busy then s else { s with llc := y }.setPlace c (.notify 0))
    else none
  | .call c => if CanRun s c then some (s.setPlace c .monitor) else none
  | .return c => if (s.harts c).place = .monitor then some (s.setPlace c .supervisor) else none
  | .enter c => if (s.harts c).place = .monitor then some (s.setPlace c .enclave) else none
  | .leave c => if (s.harts c).place = .enclave then some (s.setPlace c .monitor) else none
  | .step c => ipiStep k s c

def IpiStep (k : IpiCode N) (s : IpiState N) (l : IpiLabel N) (s' : IpiState N) : Prop :=
  ipiExec k s l = some s'

/-- After `hart_plic_init`, all cores in the supervisor. -/
def ipiInit : IpiState N where
  harts := fun _ => { ipi := false, pending := 0, msip := false, ssip := false, place := .supervisor }
  llc := syncInit

/-- The next instruction at the place is the fence for `ev`, in the C code or in the handler. -/
def FenceAt (ev : IpiEvent) : IpiPlace → Prop
  | .decoded p => firstEvent p = some ev
  | .testFenceI t => ev = .fenceI ∧ has t ev = true
  | .testSfenceVma t => ev = .sfenceVma ∧ has t ev = true
  | _ => False

/-- In the step `x` core `r` executes the fence for `ev`. -/
def Fences (r : Fin N) (ev : IpiEvent) (x : IpiState N × IpiLabel N) : Prop :=
  x.2 = .step r ∧ FenceAt ev (x.1.harts r).place

/-! ## What a step does to a core -/

def IpiLabel.hart : IpiLabel N → Fin N
  | .instruction c | .deliver c | .trap c | .ecall c .. | .flush c _ | .call c | .return c | .enter c
  | .leave c | .step c => c

/-- What the step of a core does to the record of another one. -/
inductive Touched (h : IpiHart) : IpiHart → Prop
  | same : Touched h h
  | posted (ev : IpiEvent) : Touched h { h with pending := h.pending ||| ev.code }
  | raised : Touched h { h with ipi := true }

/-- Places in which a core has nothing of its own interrupts in hand. -/
def IpiPlace.plain : IpiPlace → Bool
  | .supervisor | .enclave | .monitor | .send .. | .signal .. | .await _ _ false | .notify _
  | .notifySignal _ | .round => true
  | _ => false

/-- The second loop of `send_ipi_many`, with what it has taken back. -/
def IpiPlace.Waits (p : IpiPlace) (incoming : Bool) : Prop :=
  (∃ mask i, p = .await mask i incoming) ∨ (∃ mask i, p = .consume mask i incoming) ∨ p = .restore incoming

/-- The core takes its pending bits. -/
def IpiHart.take (h : IpiHart) : IpiHart := { h with pending := 0, place := .decoded h.pending }

/-- What the step of a core does to its own record, unless it sends. -/
inductive Local (k : IpiCode N) (h : IpiHart) : IpiHart → Prop
  | same : Local k h h
  | deliver : Local k h { h with msip := h.ipi }
  | trap (hp : h.place = .supervisor) (hm : h.msip = true) : Local k h { h with place := .trapped }
  | start {p : IpiPlace} (hp : h.place = .supervisor) (hm : h.msip = false) (hp' : p.plain = true) :
      Local k h { h with place := p }
  | go {p : IpiPlace} (hp : h.place.plain = true) (hs : h.place ≠ .supervisor) (hp' : p.plain = true) :
      Local k h { h with place := p }
  | wait {p : IpiPlace} {incoming : Bool} (hp : h.place.Waits incoming) (hp' : p.Waits incoming) :
      Local k h { h with place := p }
  | consume {mask : Word} {i : ℕ} {incoming : Bool} (hp : h.place = .consume mask i incoming) :
      Local k h { h with ipi := false, place := .await mask i (incoming || h.ipi) }
  | restore {incoming : Bool} (hp : h.place = .restore incoming) : Local k h
      { h with ipi := h.ipi || incoming, msip := h.msip || incoming, place := .supervisor }
  | clear (hp : h.place = .trapped) : Local k h { h with ipi := false, msip := false, place := .cleared }
  | take (hp : h.place = .cleared) : Local k h h.take
  | spin {p : BitVec 32} (hp : h.place = .decoded p) (hs : firstEvent p = some .soft) :
      Local k h { h with place := .spinning p }
  | serve {p : BitVec 32} {b w : Bool} (hp : h.place = .decoded p ∨ h.place = .spinning p) :
      Local k h { h with ssip := b, place := .testSoft (k.t0 p w) }
  | testSoft {t : BitVec 32} {b : Bool} (hp : h.place = .testSoft t) :
      Local k h { h with ssip := b, place := .testFenceI t }
  | testFenceI {t : BitVec 32} (hp : h.place = .testFenceI t) : Local k h { h with place := .testSfenceVma t }
  | testSfenceVma {t : BitVec 32} (hp : h.place = .testSfenceVma t) : Local k h { h with place := .testHalt t }
  | testHalt {t : BitVec 32} (hp : h.place = .testHalt t) :
      Local k h { h with place := if hasHalt t then .halted else .supervisor }

section
variable {k : IpiCode N} {s s' : IpiState N} {l : IpiLabel N} {c r : Fin N} {h : IpiHart} {p : IpiPlace}
  {ev : IpiEvent}

@[simp] theorem setHart_self : (s.setHart c h).harts c = h := Function.update_self ..

theorem setHart_ne (hr : r ≠ c) : (s.setHart c h).harts r = s.harts r := Function.update_of_ne hr ..

@[simp] theorem setPlace_self : (s.setPlace c p).harts c = { s.harts c with place := p } := setHart_self

theorem setPlace_ne (hr : r ≠ c) : (s.setPlace c p).harts r = s.harts r := setHart_ne hr

theorem setPlace_place : ((s.setPlace c p).harts c).place = p := by rw [setPlace_self]

theorem setPlace_pending : ((s.setPlace c p).harts r).pending = (s.harts r).pending := by
  by_cases hr : r = c
  · subst hr
    rw [setPlace_self]
  · rw [setPlace_ne hr]

theorem setPlace_ipi : ((s.setPlace c p).harts r).ipi = (s.harts r).ipi := by
  by_cases hr : r = c
  · subst hr
    rw [setPlace_self]
  · rw [setPlace_ne hr]

/-- The core that a `send_ipi` is about, between its `atomic_or` and its store. -/
def IpiPlace.signals : IpiPlace → Option ℕ
  | .signal _ _ i | .notifySignal i => some i
  | _ => none

/-- What a step of core `c` does to the cores. -/
inductive Moved (k : IpiCode N) (s : IpiState N) (c : Fin N) : (Fin N → IpiHart) → Prop
  | same : Moved k s c s.harts
  | own {h : IpiHart} (hn : (s.harts c).place.signals = none ∨ h.place = (s.harts c).place)
      (hl : Local k (s.harts c) h) : Moved k s c (Function.update s.harts c h)
  | post {r : Fin N} {ev : IpiEvent} {p : IpiPlace} (hp : (s.harts c).place.plain = true)
      (hn : (s.harts c).place.signals = none) (hs : (s.harts c).place ≠ .supervisor)
      (hp' : p.plain = true) (hr : p.signals = some r.val) : Moved k s c ((s.post r ev).setPlace c p).harts
  | raise {r : Fin N} {p : IpiPlace} (hr : (s.harts c).place.signals = some r.val) (hp' : p.plain = true) :
      Moved k s c ((s.raise r).setPlace c p).harts

theorem hartOf_eq_some {i : ℕ} : hartOf N i = some r ↔ r.val = i := by
  rw [hartOf]
  split_ifs with hi
  · rw [Option.some.injEq, Fin.ext_iff]
    exact eq_comm
  · refine iff_of_false nofun fun h => hi (h ▸ r.isLt)

theorem ipiStep_moved (hs : ipiStep k s c = some s') : Moved k s c s'.harts := by
  cases hp : (s.harts c).place with
  | supervisor => simp [ipiStep, hp] at hs
  | enclave => simp [ipiStep, hp] at hs
  | monitor => simp [ipiStep, hp] at hs
  | halted => simp [ipiStep, hp] at hs
  | send ev mask i =>
    simp only [ipiStep, hp] at hs
    split_ifs at hs with hm hev hbit
    · obtain rfl := Option.some.inj hs
      exact .own (.inl (hp ▸ rfl)) (.go (hp ▸ rfl) (hp ▸ nofun) rfl)
    · obtain rfl := Option.some.inj hs
      exact .own (.inl (hp ▸ rfl)) (.go (hp ▸ rfl) (hp ▸ nofun) rfl)
    · obtain ⟨r, hr, rfl⟩ := Option.map_eq_some_iff.mp hs
      exact .post (hp ▸ rfl) (hp ▸ rfl) (hp ▸ nofun) rfl (hartOf_eq_some.mp hr ▸ rfl)
    · obtain rfl := Option.some.inj hs
      exact .own (.inl (hp ▸ rfl)) (.go (hp ▸ rfl) (hp ▸ nofun) rfl)
  | signal ev mask i =>
    simp only [ipiStep, hp] at hs
    obtain ⟨r, hr, rfl⟩ := Option.map_eq_some_iff.mp hs
    exact .raise (by rw [hp, hartOf_eq_some.mp hr]; rfl) rfl
  | await mask i incoming =>
    have hw : (s.harts c).place.Waits incoming := by rw [hp]; exact .inl ⟨_, _, rfl⟩
    simp only [ipiStep, hp] at hs
    split_ifs at hs with hm hbit
    · obtain rfl := Option.some.inj hs
      exact .own (.inl (hp ▸ rfl)) (.wait hw (.inr (.inr rfl)))
    · obtain ⟨r, -, rfl⟩ := Option.map_eq_some_iff.mp hs
      split_ifs
      · exact .own (.inl (hp ▸ rfl)) (.wait hw (.inr (.inl ⟨_, _, rfl⟩)))
      · exact .own (.inl (hp ▸ rfl)) (.wait hw (.inl ⟨_, _, rfl⟩))
    · obtain rfl := Option.some.inj hs
      exact .own (.inl (hp ▸ rfl)) (.wait hw (.inl ⟨_, _, rfl⟩))
  | consume mask i incoming =>
    simp only [ipiStep, hp, Option.some.injEq] at hs
    subst hs
    exact .own (.inl (hp ▸ rfl)) (.consume hp)
  | restore incoming =>
    simp only [ipiStep, hp, Option.some.injEq] at hs
    subst hs
    exact .own (.inl (hp ▸ rfl)) (.restore hp)
  | notify i =>
    simp only [ipiStep, hp] at hs
    split_ifs at hs with hi hc <;> obtain rfl := Option.some.inj hs
    · exact .own (.inl (hp ▸ rfl)) (.go (hp ▸ rfl) (hp ▸ nofun) rfl)
    · exact .post (r := ⟨i, hi⟩) (hp ▸ rfl) (hp ▸ rfl) (hp ▸ nofun) rfl rfl
    · exact .own (.inl (hp ▸ rfl)) (.go (hp ▸ rfl) (hp ▸ nofun) rfl)
  | notifySignal i =>
    simp only [ipiStep, hp] at hs
    obtain ⟨r, hr, rfl⟩ := Option.map_eq_some_iff.mp hs
    exact .raise (by rw [hp, hartOf_eq_some.mp hr]; rfl) rfl
  | round =>
    simp only [ipiStep, hp, Option.bind_eq_bind, Option.bind_eq_some_iff, Option.some.injEq] at hs
    obtain ⟨l, -, y, -, rfl⟩ := hs
    split_ifs
    · exact .own (.inl (hp ▸ rfl)) (.go (hp ▸ rfl) (hp ▸ nofun) rfl)
    · exact .same
  | trapped =>
    simp only [ipiStep, hp, Option.some.injEq] at hs
    subst hs
    exact .own (.inl (hp ▸ rfl)) (.clear hp)
  | cleared =>
    simp only [ipiStep, hp, Option.some.injEq] at hs
    subst hs
    exact .own (.inl (hp ▸ rfl)) (.take hp)
  | decoded p =>
    simp only [ipiStep, hp] at hs
    by_cases hsoft : firstEvent p = some .soft
    · simp only [hsoft, if_true, Option.bind_eq_bind, Option.bind_eq_some_iff, Option.some.injEq] at hs
      obtain ⟨y, -, rfl⟩ := hs
      split_ifs
      · exact .own (.inl (hp ▸ rfl)) (.spin hp hsoft)
      · exact .own (.inl (hp ▸ rfl)) (.serve (.inl hp))
    · rw [if_neg hsoft] at hs
      obtain rfl := Option.some.inj hs
      exact .own (.inl (hp ▸ rfl)) (.serve (.inl hp))
  | spinning p =>
    simp only [ipiStep, hp, Option.bind_eq_bind, Option.bind_eq_some_iff, Option.some.injEq] at hs
    obtain ⟨y, -, rfl⟩ := hs
    split_ifs
    · exact .same
    · exact .own (.inl (hp ▸ rfl)) (.serve (.inr hp))
  | testSoft t =>
    simp only [ipiStep, hp, Option.some.injEq] at hs
    subst hs
    exact .own (.inl (hp ▸ rfl)) (.testSoft hp)
  | testFenceI t =>
    simp only [ipiStep, hp, Option.some.injEq] at hs
    subst hs
    exact .own (.inl (hp ▸ rfl)) (.testFenceI hp)
  | testSfenceVma t =>
    simp only [ipiStep, hp, Option.some.injEq] at hs
    subst hs
    exact .own (.inl (hp ▸ rfl)) (.testSfenceVma hp)
  | testHalt t =>
    simp only [ipiStep, hp, Option.some.injEq] at hs
    subst hs
    exact .own (.inl (hp ▸ rfl)) (.testHalt hp)

theorem IpiStep.moved (hs : IpiStep k s l s') : Moved k s l.hart s'.harts := by
  cases l with
  | instruction c =>
    simp only [IpiStep, ipiExec, Option.ite_none_right_eq_some, Option.some.injEq] at hs
    obtain ⟨hc, rfl⟩ := hs
    exact .same
  | deliver c =>
    simp only [IpiStep, ipiExec, Option.some.injEq] at hs
    subst hs
    exact .own (.inr rfl) .deliver
  | trap c =>
    simp only [IpiStep, ipiExec, Option.ite_none_right_eq_some, Option.some.injEq] at hs
    obtain ⟨hc, rfl⟩ := hs
    exact .own (.inl (hc.1 ▸ rfl)) (.trap hc.1 hc.2)
  | ecall c ev pmask =>
    simp only [IpiStep, ipiExec, Option.ite_none_right_eq_some, Option.some.injEq] at hs
    obtain ⟨hc, rfl⟩ := hs
    exact .own (.inl (hc.1 ▸ rfl)) (.start hc.1 hc.2 rfl)
  | flush c f =>
    simp only [IpiStep, ipiExec, Option.ite_none_right_eq_some, Option.bind_eq_bind,
      Option.bind_eq_some_iff, Option.some.injEq] at hs
    obtain ⟨hrun, y, -, rfl⟩ := hs
    split_ifs
    · exact .same
    · exact .own (.inl (hrun.1 ▸ rfl)) (.start hrun.1 hrun.2 rfl)
  | call c =>
    simp only [IpiStep, ipiExec, Option.ite_none_right_eq_some, Option.some.injEq] at hs
    obtain ⟨hc, rfl⟩ := hs
    exact .own (.inl (hc.1 ▸ rfl)) (.start hc.1 hc.2 rfl)
  | «return» c =>
    simp only [IpiStep, ipiExec, Option.ite_none_right_eq_some, Option.some.injEq] at hs
    obtain ⟨hc, rfl⟩ := hs
    exact .own (.inl (hc ▸ rfl)) (.go (hc ▸ rfl) (hc ▸ nofun) rfl)
  | enter c =>
    simp only [IpiStep, ipiExec, Option.ite_none_right_eq_some, Option.some.injEq] at hs
    obtain ⟨hc, rfl⟩ := hs
    exact .own (.inl (hc ▸ rfl)) (.go (hc ▸ rfl) (hc ▸ nofun) rfl)
  | leave c =>
    simp only [IpiStep, ipiExec, Option.ite_none_right_eq_some, Option.some.injEq] at hs
    obtain ⟨hc, rfl⟩ := hs
    exact .own (.inl (hc ▸ rfl)) (.go (hc ▸ rfl) (hc ▸ nofun) rfl)
  | step c => exact ipiStep_moved hs

variable {h' : IpiHart}

theorem Touched.place (ht : Touched h h') : h'.place = h.place := by cases ht <;> rfl

theorem Touched.pending (ht : Touched h h') (hp : has h.pending ev = true) : has h'.pending ev = true := by
  cases ht with
  | same => exact hp
  | posted => exact has_or_left hp
  | raised => exact hp

theorem Touched.ipi (ht : Touched h h') (hi : h.ipi = true) : h'.ipi = true := by
  cases ht with
  | same => exact hi
  | posted => exact hi
  | raised => rfl

theorem Touched.msip (ht : Touched h h') : h'.msip = h.msip := by cases ht <;> rfl

theorem plain_of_signals {i : ℕ} (hp : p.signals = some i) : p.plain = true ∧ p ≠ .supervisor := by
  cases p with
  | signal => exact ⟨rfl, nofun⟩
  | notifySignal => exact ⟨rfl, nofun⟩
  | _ => cases hp

theorem touched_post (r' : Fin N) : Touched (s.harts r) ((s.post r' ev).harts r) := by
  by_cases hr : r = r'
  · subst hr
    rw [IpiState.post, setHart_self]
    exact .posted ev
  · rw [IpiState.post, setHart_ne hr]
    exact .same

theorem touched_raise (r' : Fin N) : Touched (s.harts r) ((s.raise r').harts r) := by
  by_cases hr : r = r'
  · subst hr
    rw [IpiState.raise, setHart_self]
    exact .raised
  · rw [IpiState.raise, setHart_ne hr]
    exact .same

/-- A core may send to itself in a step of its own. -/
theorem Moved.toLocal {harts : Fin N → IpiHart} (hm : Moved k s c harts) :
    ∃ h, Touched (s.harts c) h ∧ Local k h (harts c) := by
  cases hm with
  | same => exact ⟨_, .same, .same⟩
  | own _ hl => exact ⟨_, .same, by rwa [Function.update_self]⟩
  | @post r ev p hp _ hs hp' =>
    have ht : Touched (s.harts c) ((s.post r ev).harts c) := touched_post r
    exact ⟨_, ht, by rw [setPlace_self]; exact .go (ht.place ▸ hp) (ht.place ▸ hs) hp'⟩
  | @raise r p hr hp' =>
    obtain ⟨hp, hs⟩ := plain_of_signals hr
    have ht : Touched (s.harts c) ((s.raise r).harts c) := touched_raise r
    exact ⟨_, ht, by rw [setPlace_self]; exact .go (ht.place ▸ hp) (ht.place ▸ hs) hp'⟩

theorem Moved.touched {harts : Fin N → IpiHart} (hm : Moved k s c harts) (hr : r ≠ c) :
    Touched (s.harts r) (harts r) := by
  cases hm with
  | same => exact .same
  | own hl => rw [Function.update_of_ne hr]; exact .same
  | post => rw [setPlace_ne hr]; exact touched_post _
  | raise => rw [setPlace_ne hr]; exact touched_raise _

/-! ## Remote fences -/

/-- The core has taken its interrupt back: it will serve it, or raise it again. -/
def IpiPlace.pulled : IpiPlace → Bool
  | .cleared => true
  | .await _ _ incoming | .consume _ _ incoming | .restore incoming => incoming
  | _ => false

/-- An interrupt is on its way, or the core has it in hand. -/
def Signalled (h : IpiHart) : Prop := h.ipi = true ∨ h.place.pulled = true

/-- The core cannot go on in the supervisor without an interrupt. -/
def Caught (h : IpiHart) : Prop := (h.ipi = true ∧ h.msip = true) ∨ h.place.pulled = true

/-- The core has taken `ev`, and its fence is still to come. -/
def Owed (ev : IpiEvent) (h : IpiHart) : Prop :=
  match h.place with
  | .decoded p => has p ev = true
  | .spinning p => has p ev = true ∧ firstEvent p ≠ some ev
  | .testSoft t | .testFenceI t => has t ev = true
  | .testSfenceVma t => ev = .sfenceVma ∧ has t ev = true
  | _ => False

/-- The bit of a fence is in `t0` when the C code returns, unless the C code has served it. -/
def KeepsFences (k : IpiCode N) : Prop :=
  ∀ p w ev, ev = .fenceI ∨ ev = .sfenceVma → has p ev = true → firstEvent p ≠ some ev → has (k.t0 p w) ev = true

theorem Touched.signalled (ht : Touched h h') (hs : Signalled h) : Signalled h' := by
  rw [Signalled, ht.place]
  exact hs.imp_left ht.ipi

theorem Touched.caught (ht : Touched h h') (hs : Caught h) : Caught h' := by
  rw [Caught, ht.place, ht.msip]
  exact hs.imp_left fun h => ⟨ht.ipi h.1, h.2⟩

theorem Touched.owed (ht : Touched h h') (ho : Owed ev h) : Owed ev h' := by
  rw [Owed, ht.place]
  exact ho

theorem IpiPlace.Waits.pulled {b : Bool} (hp : p.Waits b) : p.pulled = b := by
  rcases hp with ⟨_, _, rfl⟩ | ⟨_, _, rfl⟩ | rfl <;> rfl

theorem pulled_of_plain (hp : p.plain = true) : p.pulled = false := by
  cases p with
  | await _ _ incoming => cases incoming <;> trivial
  | _ => first | rfl | cases hp

/-- The pending bits stay, until the core takes them all. -/
theorem Local.pending (hl : Local k h h') (hp : has h.pending ev = true) :
    has h'.pending ev = true ∨ h' = h.take := by
  cases hl with
  | take => exact .inr rfl
  | _ => exact .inl hp

theorem Local.signalled (hl : Local k h h') (hs : Signalled h) :
    Signalled h' ∨ h' = h.take := by
  cases hl with
  | same => exact .inl hs
  | deliver => exact .inl hs
  | trap hp => exact .inl (by simpa [Signalled, hp, IpiPlace.pulled] using hs)
  | start hp => exact .inl (.inl (by simpa [Signalled, hp, IpiPlace.pulled] using hs))
  | go hp => exact .inl (.inl (by simpa [Signalled, pulled_of_plain hp] using hs))
  | wait hp hp' => exact .inl (by rwa [Signalled, hp'.pulled, ← hp.pulled])
  | consume hp => exact .inl (by simpa [Signalled, hp, IpiPlace.pulled, or_comm] using hs)
  | restore hp => exact .inl (by simpa [Signalled, hp, IpiPlace.pulled] using hs)
  | clear => exact .inl (.inr rfl)
  | take => exact .inr rfl
  | spin hp => exact .inl (by simpa [Signalled, hp, IpiPlace.pulled] using hs)
  | serve hp => rcases hp with hp | hp <;> exact .inl (by simpa [Signalled, hp, IpiPlace.pulled] using hs)
  | testSoft hp => exact .inl (by simpa [Signalled, hp, IpiPlace.pulled] using hs)
  | testFenceI hp => exact .inl (by simpa [Signalled, hp, IpiPlace.pulled] using hs)
  | testSfenceVma hp => exact .inl (by simpa [Signalled, hp, IpiPlace.pulled] using hs)
  | testHalt hp => exact .inl (.inl (by simpa [Signalled, hp, IpiPlace.pulled] using hs))

theorem Local.caught (hl : Local k h h') (hs : Caught h) :
    Caught h' ∨ h' = h.take := by
  cases hl with
  | same => exact .inl hs
  | deliver => exact .inl (hs.imp_left fun h => ⟨h.1, h.1⟩)
  | trap hp => exact .inl (by simpa [Caught, hp, IpiPlace.pulled] using hs)
  | start hp hm => simp [Caught, hp, hm, IpiPlace.pulled] at hs
  | go hp => exact .inl (.inl (by simpa [Caught, pulled_of_plain hp] using hs))
  | wait hp hp' => exact .inl (by rwa [Caught, hp'.pulled, ← hp.pulled])
  | consume hp =>
    refine .inl (.inr ?_)
    rcases hs with hs | hs
    · simp [IpiPlace.pulled, hs.1]
    · simp only [hp, IpiPlace.pulled] at hs
      simp [IpiPlace.pulled, hs]
  | restore hp =>
    refine .inl (.inl ?_)
    rcases hs with hs | hs
    · simp [hs.1, hs.2]
    · simp only [hp, IpiPlace.pulled] at hs
      simp [hs]
  | clear => exact .inl (.inr rfl)
  | take => exact .inr rfl
  | spin hp => exact .inl (by simpa [Caught, hp, IpiPlace.pulled] using hs)
  | serve hp => rcases hp with hp | hp <;> exact .inl (by simpa [Caught, hp, IpiPlace.pulled] using hs)
  | testSoft hp => exact .inl (by simpa [Caught, hp, IpiPlace.pulled] using hs)
  | testFenceI hp => exact .inl (by simpa [Caught, hp, IpiPlace.pulled] using hs)
  | testSfenceVma hp => exact .inl (by simpa [Caught, hp, IpiPlace.pulled] using hs)
  | testHalt hp => exact .inl (.inl (by simpa [Caught, hp, IpiPlace.pulled] using hs))

/-- What is owed stays so until the fence. -/
theorem Local.owed (hk : KeepsFences k) (hev : ev = .fenceI ∨ ev = .sfenceVma) (hl : Local k h h')
    (ho : Owed ev h) : Owed ev h' ∨ (FenceAt ev h.place ∧ h'.place ≠ h.place) := by
  cases hl with
  | same => exact .inl ho
  | deliver => exact .inl ho
  | spin hp hs =>
    refine .inl ?_
    simp only [Owed, hp] at ho ⊢
    refine ⟨ho, ?_⟩
    rcases hev with rfl | rfl <;> simp [hs]
  | @serve q b w hp =>
    by_cases hfirst : firstEvent q = some ev
    · rcases hp with hp | hp
      · exact .inr ⟨by simpa [hp, FenceAt] using hfirst, by simp [hp]⟩
      · exact absurd hfirst (by simpa [Owed, hp] using ho : _ ∧ _).2
    · refine .inl ?_
      rcases hp with hp | hp
      · exact hk q w ev hev (by simpa [Owed, hp] using ho) hfirst
      · exact hk q w ev hev (by simpa [Owed, hp] using ho : _ ∧ _).1 hfirst
  | testSoft hp => exact .inl (by simpa [Owed, hp] using ho)
  | testFenceI hp =>
    have ht := (by simpa [Owed, hp] using ho : has _ ev = true)
    rcases hev with rfl | rfl
    · exact .inr ⟨by simpa [hp, FenceAt] using ht, by simp [hp]⟩
    · exact .inl ⟨rfl, ht⟩
  | testSfenceVma hp => exact .inr ⟨by simpa [Owed, FenceAt, hp] using ho, by simp [hp]⟩
  | trap hp => simp [Owed, hp] at ho
  | start hp => simp [Owed, hp] at ho
  | go hp =>
    unfold Owed at ho
    split at ho <;> simp_all [IpiPlace.plain]
  | wait hp => rcases hp with ⟨_, _, hp⟩ | ⟨_, _, hp⟩ | hp <;> simp [Owed, hp] at ho
  | consume hp => simp [Owed, hp] at ho
  | restore hp => simp [Owed, hp] at ho
  | clear hp => simp [Owed, hp] at ho
  | take hp => simp [Owed, hp] at ho
  | testHalt hp => simp [Owed, hp] at ho

/-- Places that a core leaves by other labels than its next step. -/
def IpiPlace.idle : IpiPlace → Bool
  | .supervisor | .enclave | .monitor => true
  | _ => false

theorem IpiStep.next (hs : IpiStep k s l s') (hp : (s.harts l.hart).place.idle = false) :
    ipiStep k s l.hart = some s' ∧ l = .step l.hart ∨
      s' = s.setHart l.hart { s.harts l.hart with msip := (s.harts l.hart).ipi } := by
  have hno {q : IpiPlace} {P : Prop} (hq : (s.harts l.hart).place = q) (hi : q.idle = true) : P := by
    rw [hq, hi] at hp
    cases hp
  cases l with
  | step c => exact .inl ⟨hs, rfl⟩
  | deliver c =>
    simp only [IpiStep, ipiExec, Option.some.injEq] at hs
    exact .inr hs.symm
  | instruction c =>
    simp only [IpiStep, ipiExec, Option.ite_none_right_eq_some] at hs
    exact hno hs.1.1 rfl
  | trap c =>
    simp only [IpiStep, ipiExec, Option.ite_none_right_eq_some] at hs
    exact hno hs.1.1 rfl
  | ecall c ev pmask =>
    simp only [IpiStep, ipiExec, Option.ite_none_right_eq_some] at hs
    exact hno hs.1.1 rfl
  | flush c f =>
    simp only [IpiStep, ipiExec, Option.ite_none_right_eq_some] at hs
    exact hno hs.1.1 rfl
  | call c =>
    simp only [IpiStep, ipiExec, Option.ite_none_right_eq_some] at hs
    exact hno hs.1.1 rfl
  | «return» c =>
    simp only [IpiStep, ipiExec, Option.ite_none_right_eq_some] at hs
    exact hno hs.1 rfl
  | enter c =>
    simp only [IpiStep, ipiExec, Option.ite_none_right_eq_some] at hs
    exact hno hs.1 rfl
  | leave c =>
    simp only [IpiStep, ipiExec, Option.ite_none_right_eq_some] at hs
    exact hno hs.1 rfl

theorem FenceAt.not_idle (hf : FenceAt ev p) : p.idle = false := by
  cases p <;> first | rfl | exact hf.elim

/-- The event is owed, or it is pending and the core is as `X` says. -/
def Due (X : IpiHart → Prop) (ev : IpiEvent) (h : IpiHart) : Prop :=
  Owed ev h ∨ (has h.pending ev = true ∧ X h)

/-- What keeps an event due: `X` holds until the core takes its pending bits. -/
structure Lasts (k : IpiCode N) (X : IpiHart → Prop) : Prop where
  own : ∀ {h h'}, Local k h h' → X h → X h' ∨ h' = h.take
  other : ∀ {h h'}, Touched h h' → X h → X h'

theorem lasts_true : Lasts k fun _ => True := ⟨fun _ _ => .inl trivial, fun _ _ => trivial⟩

theorem lasts_signalled : Lasts k Signalled := ⟨Local.signalled, Touched.signalled⟩

theorem lasts_caught : Lasts k Caught := ⟨Local.caught, Touched.caught⟩

theorem Due.touched {X : IpiHart → Prop} (hX : Lasts k X) (ht : Touched h h') (hd : Due X ev h) : Due X ev h' :=
  hd.imp ht.owed fun h => ⟨ht.pending h.1, hX.other ht h.2⟩

theorem Due.own {X : IpiHart → Prop} (hX : Lasts k X) (hk : KeepsFences k)
    (hev : ev = .fenceI ∨ ev = .sfenceVma) (hl : Local k h h') (hd : Due X ev h) :
    Due X ev h' ∨ (FenceAt ev h.place ∧ h'.place ≠ h.place) := by
  rcases hd with ho | ⟨hpend, hx⟩
  · exact (hl.owed hk hev ho).imp_left .inl
  · have htaken (heq : h' = h.take) : Due X ev h' := .inl (by rw [heq]; exact hpend)
    rcases hl.pending hpend with hpend' | heq
    · rcases hX.own hl hx with hx' | heq
      · exact .inl (.inr ⟨hpend', hx'⟩)
      · exact .inl (htaken heq)
    · exact .inl (htaken heq)

theorem IpiStep.due {X : IpiHart → Prop} (hX : Lasts k X) (hk : KeepsFences k)
    (hev : ev = .fenceI ∨ ev = .sfenceVma) (hs : IpiStep k s l s') (hd : Due X ev (s.harts r)) :
    Due X ev (s'.harts r) ∨ Fences r ev (s, l) := by
  by_cases hr : r = l.hart
  · subst hr
    obtain ⟨h, ht, hl⟩ := hs.moved.toLocal
    refine (Due.own hX hk hev hl (hd.touched hX ht)).imp_right fun ⟨hf, hne⟩ => ?_
    rw [ht.place] at hf hne
    rcases hs.next hf.not_idle with ⟨-, hl⟩ | heq
    · exact ⟨hl, hf⟩
    · exact absurd (by rw [heq, setHart_self]) hne
  · exact .inl (hd.touched hX (hs.moved.touched hr))

/-- Where `send_ipi_many` is once it has sent to core `i` and not yet seen its `ipi` clear. -/
def IpiPlace.Awaits (ev : IpiEvent) (mask : Word) (i : ℕ) (p : IpiPlace) : Prop :=
  (∃ j, i < j ∧ (p = .send ev mask j ∨ p = .signal ev mask j)) ∨
    ∃ j incoming, j ≤ i ∧ (p = .await mask j incoming ∨ p = .consume mask j incoming)

/-- A remote fence of core `c`, from its `atomic_or` on core `r` on. -/
inductive Remote (ev : IpiEvent) (mask : Word) (c r : Fin N) (s : IpiState N) : Prop
  | posted (hp : (s.harts c).place = .signal ev mask r) (hd : Due (fun _ => True) ev (s.harts r))
  | sent (hp : (s.harts c).place.Awaits ev mask r) (hd : Due Signalled ev (s.harts r))
  | seen (hd : Due Caught ev (s.harts r))

theorem IpiPlace.Awaits.not_idle {mask : Word} {i : ℕ} (hp : p.Awaits ev mask i) : p.idle = false := by
  rcases hp with ⟨_, _, rfl | rfl⟩ | ⟨_, _, _, rfl | rfl⟩ <;> rfl

theorem shift_ne_zero {mask : Word} {i j : ℕ} (hm : mask.getLsbD i = true) (hj : j ≤ i) : mask >>> j ≠ 0 := by
  intro h
  have hbit : (mask >>> j).getLsbD (i - j) = true := by
    rw [BitVec.getLsbD_ushiftRight, Nat.add_sub_cancel' hj, hm]
  simp [h] at hbit

theorem Due.seen (hd : Due Signalled ev h) (hi : h.ipi = false) : Due Caught ev h :=
  hd.imp_right fun hs => ⟨hs.1, .inr (hs.2.resolve_left (by simp [hi]))⟩

theorem Remote.sent_step {mask : Word} (hev : ev ≠ .soft) (hm : mask.getLsbD r = true)
    (hs : ipiStep k s c = some s') (hp : (s.harts c).place.Awaits ev mask r)
    (hd : Due Signalled ev (s'.harts r)) : Remote ev mask c r s' := by
  rcases hp with ⟨j, hj, hp | hp⟩ | ⟨j, incoming, hj, hp | hp⟩
  · simp only [ipiStep, hp, if_neg hev] at hs
    split_ifs at hs with hz hbit
    · obtain rfl := Option.some.inj hs
      exact .sent (.inr ⟨0, false, Nat.zero_le _, .inl setPlace_place⟩) hd
    · obtain ⟨r', -, rfl⟩ := Option.map_eq_some_iff.mp hs
      exact .sent (.inl ⟨j, hj, .inr setPlace_place⟩) hd
    · obtain rfl := Option.some.inj hs
      exact .sent (.inl ⟨j + 1, by omega, .inl setPlace_place⟩) hd
  · simp only [ipiStep, hp] at hs
    obtain ⟨r', -, rfl⟩ := Option.map_eq_some_iff.mp hs
    exact .sent (.inl ⟨j + 1, by omega, .inl setPlace_place⟩) hd
  · simp only [ipiStep, hp, if_neg (shift_ne_zero hm hj)] at hs
    split_ifs at hs with hbit
    · obtain ⟨r', hr', rfl⟩ := Option.map_eq_some_iff.mp hs
      by_cases hi : (s.harts r').ipi = true
      · exact .sent (.inr ⟨j, incoming, hj, .inr (setPlace_place.trans (if_pos hi))⟩) hd
      · rcases Nat.lt_or_eq_of_le hj with hlt | rfl
        · exact .sent (.inr ⟨j + 1, incoming, hlt, .inl (setPlace_place.trans (if_neg hi))⟩) hd
        · obtain rfl := Fin.ext (hartOf_eq_some.mp hr')
          exact .seen (hd.seen (setPlace_ipi.trans (Bool.not_eq_true _ ▸ hi)))
    · obtain rfl := Option.some.inj hs
      have hne : j ≠ r := fun h => hbit (h ▸ hm)
      exact .sent (.inr ⟨j + 1, incoming, by omega, .inl setPlace_place⟩) hd
  · simp only [ipiStep, hp, Option.some.injEq] at hs
    subst hs
    exact .sent (.inr ⟨j, _, hj, .inl (by rw [setHart_self])⟩) hd

/-- Until the fence, a remote fence goes through its stages. -/
theorem Remote.step {mask : Word} (hk : KeepsFences k) (hev : ev = .fenceI ∨ ev = .sfenceVma)
    (hm : mask.getLsbD r = true) (hR : Remote ev mask c r s) (hs : IpiStep k s l s') :
    Remote ev mask c r s' ∨ Fences r ev (s, l) := by
  have hsoft : ev ≠ .soft := by rcases hev with rfl | rfl <;> nofun
  -- A step that leaves the sender where it is.
  have hkeep (hp : (s'.harts c).place = (s.harts c).place) : Remote ev mask c r s' ∨ Fences r ev (s, l) := by
    cases hR with
    | posted hp' hd => exact (hs.due lasts_true hk hev hd).imp_left (.posted (hp.trans hp'))
    | sent hp' hd => exact (hs.due lasts_signalled hk hev hd).imp_left (.sent (hp ▸ hp'))
    | seen hd => exact (hs.due lasts_caught hk hev hd).imp_left .seen
  by_cases hc : c = l.hart
  · subst hc
    cases hR with
    | posted hp hd =>
      refine (hs.due lasts_true hk hev hd).elim (fun hd' => ?_) .inr
      rcases hs.next (by rw [hp]; rfl) with ⟨hs, -⟩ | heq
      · simp only [ipiStep, hp] at hs
        obtain ⟨r', hr', rfl⟩ := Option.map_eq_some_iff.mp hs
        obtain rfl := Fin.ext (hartOf_eq_some.mp hr')
        refine .inl (.sent (.inl ⟨r' + 1, Nat.lt_succ_self _, .inl setPlace_place⟩) ?_)
        refine hd'.imp_right fun h => ⟨h.1, .inl ?_⟩
        rw [setPlace_ipi, IpiState.raise, setHart_self]
      · exact hkeep (by rw [heq, setHart_self])
    | sent hp hd =>
      refine (hs.due lasts_signalled hk hev hd).elim (fun hd' => ?_) .inr
      rcases hs.next hp.not_idle with ⟨hs, -⟩ | heq
      · exact .inl (sent_step hsoft hm hs hp hd')
      · exact hkeep (by rw [heq, setHart_self])
    | seen hd => exact (hs.due lasts_caught hk hev hd).imp_left .seen
  · exact hkeep (hs.moved.touched hc).place

/-- What is kept until the fence by each step is kept until the fence by a run. -/
theorem until_fence {I : IpiState N → Prop} {hist : List (IpiState N × IpiLabel N)}
    (hI : ∀ s l s', I s → IpiStep k s l s' → I s' ∨ Fences r ev (s, l)) (h : I s)
    (hr : Runs (Traced (IpiStep k)) s hist s') : I s' ∨ ∃ x ∈ hist, Fences r ev x := by
  refine hr.invariant_events (I := fun hist s' => I s' ∨ ∃ x ∈ hist, Fences r ev x) (.inl h)
    fun hist s₁ x s₂ ih hs => ?_
  rcases ih with ih | ⟨y, hy, hf⟩
  · obtain ⟨rfl, hs⟩ := hs
    exact (hI _ _ _ ih hs).imp_right fun hf => ⟨x, by simp, hf⟩
  · exact .inr ⟨y, List.mem_append_left _ hy, hf⟩

theorem Remote.returned {mask : Word} {incoming : Bool} (hR : Remote ev mask c r s)
    (hp : (s.harts c).place = .restore incoming) : Due Caught ev (s.harts r) := by
  cases hR with
  | posted hp' => simp [hp] at hp'
  | sent hp' => rw [hp] at hp'; rcases hp' with ⟨_, _, h | h⟩ | ⟨_, _, _, h | h⟩ <;> cases h
  | seen hd => exact hd

theorem Due.not_canRun (hd : Due Caught ev (s.harts r)) : ¬ CanRun s r := by
  rintro ⟨hp, hm⟩
  rcases hd with ho | ⟨-, ⟨-, hm'⟩ | hpull⟩
  · simp [Owed, hp] at ho
  · exact absurd (hm.symm.trans hm') nofun
  · simp [hp, IpiPlace.pulled] at hpull

/-- **A remote fence is complete when it returns.**  From the time core `c` has sent `ev` to core
    `r`, consider any run in which the call gets to its end, and any continuation of it.  If after
    that core `r` can run an instruction of the supervisor, then it has executed the fence. -/
theorem remote_fence {mask : Word} {incoming : Bool} {s₁ s₂ : IpiState N}
    {hist₁ hist₂ : List (IpiState N × IpiLabel N)} (hk : KeepsFences k)
    (hev : ev = .fenceI ∨ ev = .sfenceVma) (hm : mask.getLsbD r = true)
    (hp : (s.harts c).place = .send ev mask r)
    (h₁ : Runs (Traced (IpiStep k)) s ((s, .step c) :: hist₁) s₁)
    (hret : (s₁.harts c).place = .restore incoming)
    (h₂ : Runs (Traced (IpiStep k)) s₁ hist₂ s₂) (hrun : CanRun s₂ r) :
    ∃ x ∈ hist₁ ++ hist₂, Fences r ev x := by
  obtain ⟨s', ⟨-, hs⟩, h₁⟩ := h₁.cons_inv
  have hposted : Remote ev mask c r s' := by
    simp only [IpiStep, ipiExec, ipiStep, hp, if_neg (shift_ne_zero hm le_rfl), hm, if_true] at hs
    obtain ⟨r', hr', rfl⟩ := Option.map_eq_some_iff.mp hs
    obtain rfl := Fin.ext (hartOf_eq_some.mp hr')
    refine .posted setPlace_place (.inr ⟨?_, trivial⟩)
    rw [setPlace_pending, IpiState.post, setHart_self]
    exact has_or_self
  rcases until_fence (fun _ _ _ hR => hR.step hk hev hm) hposted h₁ with hR | ⟨x, hx, hf⟩
  · rcases until_fence (fun _ _ _ hd hs => hs.due lasts_caught hk hev hd) (hR.returned hret) h₂ with
      hd | ⟨x, hx, hf⟩
    · exact absurd hrun hd.not_canRun
    · exact ⟨x, List.mem_append_right _ hx, hf⟩
  · exact ⟨x, List.mem_append_left _ hx, hf⟩

instance decidableFenceAt (ev : IpiEvent) : (p : IpiPlace) → Decidable (FenceAt ev p)
  | .decoded p => inferInstanceAs (Decidable (firstEvent p = some ev))
  | .testFenceI t => inferInstanceAs (Decidable (ev = .fenceI ∧ has t ev = true))
  | .testSfenceVma t => inferInstanceAs (Decidable (ev = .sfenceVma ∧ has t ev = true))
  | .supervisor | .enclave | .monitor | .send .. | .signal .. | .await .. | .consume .. | .restore _
  | .notify _ | .notifySignal _ | .round | .trapped | .cleared | .spinning _ | .testSoft _ | .testHalt _
  | .halted => isFalse fun h => h

instance decidableFences (r : Fin N) (ev : IpiEvent) (x : IpiState N × IpiLabel N) :
    Decidable (Fences r ev x) := inferInstanceAs (Decidable (_ ∧ _))

end

/-- Two cores, with what the handler leaves in `t0`. -/
def twoCores (t0 : BitVec 32 → Bool → BitVec 32) : IpiCode 2 where
  hartMask := 3
  hartMask_lt i h := by
    rcases Nat.lt_or_ge i 64 with hi | hi
    · have hall : ∀ i < 64, (3#64).getLsbD i = true → i < 2 := by decide
      exact hall i hi h
    · rw [BitVec.getLsbD_of_ge _ _ hi] at h
      cases h
  t0 := t0

/-- Core 0 sends the fence to core 1, which takes the interrupt when core 0 has begun to wait. -/
def fenceLabels : List (IpiLabel 2) :=
  [.step 0, .step 0, .step 0, .step 0, .step 0, .step 0, .deliver 1, .trap 1, .step 1, .step 0, .step 0]

/-- Core 0 returns, and core 1 finishes its handler. -/
def handleLabels : List (IpiLabel 2) :=
  [.step 0, .step 1, .step 1, .step 1, .step 1, .step 1, .step 1]

set_option maxRecDepth 10000 in
/-- A remote fence of core 0 on core 1. -/
theorem remote_fence_two : ∃ s hist₁ s₁ hist₂ s₂, Runs (IpiStep (twoCores fun p _ => p)) ipiInit
      [.ecall 0 .fenceI (some 2), .step 0] s ∧
    Runs (Traced (IpiStep (twoCores fun p _ => p))) s ((s, .step 0) :: hist₁) s₁ ∧
    Runs (Traced (IpiStep (twoCores fun p _ => p))) s₁ hist₂ s₂ ∧ CanRun s₂ 1 ∧
    ∃ x ∈ hist₁ ++ hist₂, Fences 1 .fenceI x := by
  obtain ⟨s, h, hp, hany⟩ : ∃ s, Runs (IpiStep (twoCores fun p _ => p)) ipiInit
      [.ecall 0 .fenceI (some 2), .step 0] s ∧ (s.harts 0).place = .send .fenceI 2 1 ∧
      (fenceLabels.foldlM (ipiExec (twoCores fun p _ => p)) s).any (fun s₁ =>
        decide ((s₁.harts 0).place = .restore false) &&
        (handleLabels.foldlM (ipiExec (twoCores fun p _ => p)) s₁).any fun s₂ => decide (CanRun s₂ 1)) = true :=
    Runs.exists_of_foldlM _ (by decide +kernel)
  obtain ⟨s₁, h₁, hany⟩ := (Option.any_eq_true _ _).mp hany
  obtain ⟨hret, hany⟩ := Bool.and_eq_true_iff.mp hany
  obtain ⟨s₂, h₂, hrun⟩ := (Option.any_eq_true _ _).mp hany
  obtain ⟨hist₁, h₁⟩ := (Runs.of_foldlM _ h₁).traced_cons
  obtain ⟨hist₂, h₂, -⟩ := (Runs.of_foldlM _ h₂).traced
  exact ⟨s, hist₁, s₁, hist₂, s₂, h, h₁, h₂, of_decide_eq_true hrun,
    remote_fence (fun _ _ _ _ h _ => h) (.inl rfl) (by decide) hp h₁ (of_decide_eq_true hret) h₂
      (of_decide_eq_true hrun)⟩

/-- A step in which core `r` does not execute the fence. -/
def Fenceless (k : IpiCode N) (r : Fin N) (ev : IpiEvent) (s : IpiState N) (l : IpiLabel N)
    (s' : IpiState N) : Prop :=
  IpiStep k s l s' ∧ ¬ Fences r ev (s, l)

set_option maxRecDepth 10000 in
/-- If nothing is left in `t0`, a fence that comes together with an `IPI_SOFT` is lost: the C code
    serves the latter only. -/
theorem remote_fence_lost : ∃ s s₁ s₂, Runs (IpiStep (twoCores fun _ _ => 0)) ipiInit
      [.ecall 0 .soft (some 2), .step 0, .step 0, .step 0, .step 0, .ecall 0 .fenceI (some 2), .step 0] s ∧
    (s.harts 0).place = .send .fenceI 2 1 ∧
    Runs (Fenceless (twoCores fun _ _ => 0) 1 .fenceI) s fenceLabels s₁ ∧
    (s₁.harts 0).place = .restore false ∧
    Runs (Fenceless (twoCores fun _ _ => 0) 1 .fenceI) s₁ handleLabels s₂ ∧ CanRun s₂ 1 := by
  obtain ⟨s, h, hp, hany⟩ : ∃ s, Runs (IpiStep (twoCores fun _ _ => 0)) ipiInit
      [.ecall 0 .soft (some 2), .step 0, .step 0, .step 0, .step 0, .ecall 0 .fenceI (some 2), .step 0] s ∧
      (s.harts 0).place = .send .fenceI 2 1 ∧
      (fenceLabels.foldlM (restrict (fun s l => ¬ Fences 1 .fenceI (s, l)) (ipiExec (twoCores fun _ _ => 0)))
          s).any (fun s₁ => decide ((s₁.harts 0).place = .restore false) &&
        (handleLabels.foldlM (restrict (fun s l => ¬ Fences 1 .fenceI (s, l))
          (ipiExec (twoCores fun _ _ => 0))) s₁).any fun s₂ => decide (CanRun s₂ 1)) = true :=
    Runs.exists_of_foldlM _ (by decide +kernel)
  obtain ⟨s₁, h₁, hany⟩ := (Option.any_eq_true _ _).mp hany
  obtain ⟨hret, hany⟩ := Bool.and_eq_true_iff.mp hany
  obtain ⟨s₂, h₂, hrun⟩ := (Option.any_eq_true _ _).mp hany
  have hquiet {s s' : IpiState 2} {l : IpiLabel 2}
      (hs : restrict (fun s l => ¬ Fences 1 .fenceI (s, l)) (ipiExec (twoCores fun _ _ => 0)) s l = some s') :
      Fenceless (twoCores fun _ _ => 0) 1 .fenceI s l s' := (restrict_eq_some.mp hs).symm
  exact ⟨s, s₁, s₂, h, hp, (Runs.of_foldlM _ h₁).mono fun _ _ _ => hquiet, of_decide_eq_true hret,
    (Runs.of_foldlM _ h₂).mono fun _ _ _ => hquiet, of_decide_eq_true hrun⟩

/-! ## No event is left behind -/

section
variable {k : IpiCode N} {s s' : IpiState N} {l : IpiLabel N} {c r : Fin N} {h h' : IpiHart} {p : IpiPlace}
  {ev : IpiEvent}

/-- Pending bits are signalled, or their sender is about to do so. -/
def Noticed (harts : Fin N → IpiHart) : Prop :=
  ∀ r : Fin N, (harts r).pending ≠ 0 → Signalled (harts r) ∨ ∃ c, (harts c).place.signals = some r.val

theorem Local.pending_ne (hl : Local k h h') (hp : h'.pending ≠ 0) : h.pending ≠ 0 := by
  cases hl with
  | take => exact absurd rfl hp
  | _ => exact hp

variable {harts : Fin N → IpiHart}

theorem Moved.signalled (hm : Moved k s c harts) (hp : (harts r).pending ≠ 0) (hs : Signalled (s.harts r)) :
    Signalled (harts r) := by
  by_cases hr : r = c
  · subst hr
    obtain ⟨h, ht, hl⟩ := hm.toLocal
    refine (hl.signalled (ht.signalled hs)).resolve_right fun heq => hp ?_
    rw [heq]
    rfl
  · exact (hm.touched hr).signalled hs

/-- A core that signals goes on doing so, unless it is the one that moves. -/
theorem Moved.signals (hm : Moved k s c harts) {d : Fin N} {i : ℕ}
    (hc : d = c → (harts c).place = (s.harts c).place) (h : (s.harts d).place.signals = some i) :
    ∃ c', (harts c').place.signals = some i := by
  refine ⟨d, ?_⟩
  by_cases hr : d = c
  · subst hr
    rwa [hc rfl]
  · rwa [(hm.touched hr).place]

theorem Moved.noticed (hm : Moved k s c harts) (hn : Noticed s.harts) : Noticed harts := by
  intro r hp
  have hkeep := hm.signalled hp
  have hsig {d : Fin N} := hm.signals (d := d) (i := r)
  cases hm with
  | same => exact hn r hp
  | @own h hplace hl =>
    have hp₀ : (s.harts r).pending ≠ 0 := by
      by_cases hr : r = c
      · subst hr
        rw [Function.update_self] at hp
        exact hl.pending_ne hp
      · rwa [Function.update_of_ne hr] at hp
    refine (hn r hp₀).imp hkeep fun ⟨c', hc'⟩ => hsig (fun heq => ?_) hc'
    subst heq
    rw [Function.update_self]
    exact hplace.resolve_left (by rw [hc']; nofun)
  | @post r₀ ev p _ hnone _ _ hr₀ =>
    by_cases hr : r = r₀
    · subst hr
      exact .inr ⟨c, by rwa [setPlace_place]⟩
    · rw [setPlace_pending, IpiState.post, setHart_ne hr] at hp
      refine (hn r hp).imp hkeep fun ⟨c', hc'⟩ => hsig (fun heq => ?_) hc'
      subst heq
      exact absurd (hnone.symm.trans hc') nofun
  | @raise r₀ p hr₀ =>
    by_cases hr : r = r₀
    · subst hr
      exact .inl (.inl (by rw [setPlace_ipi, IpiState.raise, setHart_self]))
    · rw [setPlace_pending, IpiState.raise, setHart_ne hr] at hp
      refine (hn r hp).imp hkeep fun ⟨c', hc'⟩ => hsig (fun heq => ?_) hc'
      subst heq
      exact absurd (Fin.ext (Option.some.inj (hc'.symm.trans hr₀))) hr

/-- **No event is left behind**: in every reachable state, a core with pending bits has an interrupt
    on its way or in hand, or the core that sent them is about to raise one. -/
theorem pending_signalled {ls : List (IpiLabel N)} (hr : Runs (IpiStep k) ipiInit ls s)
    (hp : (s.harts r).pending ≠ 0) :
    Signalled (s.harts r) ∨ ∃ c, (s.harts c).place.signals = some r.val :=
  Runs.invariant (I := fun s => Noticed s.harts) hr (fun _ h => absurd rfl h)
    (fun _ _ _ hn hs => hs.moved.noticed hn) r hp

set_option maxRecDepth 10000 in
/-- Core 0 has posted a fence for core 1, and has not raised the interrupt yet. -/
theorem pending_signalled_posted : ∃ ls s, Runs (IpiStep (twoCores fun p _ => p)) ipiInit ls s ∧
    (s.harts 1).pending ≠ 0 ∧ (s.harts 1).ipi = false ∧
    (Signalled (s.harts 1) ∨ ∃ c, (s.harts c).place.signals = some 1) := by
  obtain ⟨s, h, hp, hi⟩ : ∃ s, Runs (IpiStep (twoCores fun p _ => p)) ipiInit
      [.ecall 0 .fenceI (some 2), .step 0, .step 0] s ∧ (s.harts 1).pending ≠ 0 ∧ (s.harts 1).ipi = false :=
    Runs.exists_of_foldlM _ (by decide +kernel)
  exact ⟨_, s, h, hp, hi, pending_signalled h hp⟩

end

end SecurityMonitor
