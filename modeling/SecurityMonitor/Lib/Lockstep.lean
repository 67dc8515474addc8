/-
  Two runs of statements side by side.

  `Lockstep R p q s t` says that `p` from `s` and `q` from `t` end alike: both
  fall through, both return or both fault, with the same value, and in states
  that `R` relates.  The rules follow the statements; the rule for sequences
  (`Lockstep.bind`) may use what is known of the first run.

  `Blind R p` says that `p` cannot tell states apart that `R` relates.  It is a
  class, so that the statements of which this is known compose by themselves.

  `Runs.unwind` is the rule for whole runs of a transition system: two runs with
  the same labels, but for hidden events, have the same visible events.
-/
import SecurityMonitor.Lib.Prog
import SecurityMonitor.Lib.Run

/-- Two runs end the same way, with the same value, in related states. -/
def Outcome.Alike {σ ρ φ α : Type} (R : σ → σ → Prop) :
    Outcome σ ρ φ α → Outcome σ ρ φ α → Prop
  | .next a s, .next b t => a = b ∧ R s t
  | .ret r s, .ret q t => r = q ∧ R s t
  | .fault f, .fault g => f = g
  | _, _ => False

namespace Outcome.Alike

variable {σ ρ φ α : Type} {R : σ → σ → Prop} {o : Outcome σ ρ φ α} {s : σ}

theorem of_next {a : α} (h : Alike R (.next a s) o) : ∃ t, o = .next a t ∧ R s t := by
  cases o with
  | next b t => obtain ⟨rfl, hR⟩ := h; exact ⟨t, rfl, hR⟩
  | ret r t => exact h.elim
  | fault f => exact h.elim

theorem of_ret {r : ρ} (h : Alike R (.ret r s) o) : ∃ t, o = .ret r t ∧ R s t := by
  cases o with
  | next b t => exact h.elim
  | ret q t => obtain ⟨rfl, hR⟩ := h; exact ⟨t, rfl, hR⟩
  | fault f => exact h.elim

theorem of_fault {f : φ} (h : Alike R (.fault f) o) : o = .fault f := by
  cases o with
  | next b t => exact h.elim
  | ret q t => exact h.elim
  | fault g => rw [show f = g from h]

end Outcome.Alike

namespace Prog

variable {I : Type} {A : I → Type} {σ ρ ρ' φ α β ι : Type} [Handler A σ] {R : σ → σ → Prop}

/-- A structure, so that nothing runs the statements while it looks for the form of a goal. -/
structure Lockstep (R : σ → σ → Prop) (p q : Prog A ρ φ α) (s t : σ) : Prop where
  alike : (p.run s).Alike R (q.run t)

theorem run_bind (p : Prog A ρ φ β) (f : β → Prog A ρ φ α) (s : σ) :
    (p >>= f).run s = match p.run s with
      | .next b s' => (f b).run s'
      | .ret r s' => .ret r s'
      | .fault e => .fault e := by
  induction p generalizing s with
  | done b => rfl
  | ret r => rfl
  | fault e => rfl
  | op i k ih => exact ih _ _

theorem run_call (p : Fn A ρ φ) (s : σ) : (call p : Prog A ρ' φ ρ).run s = match p.run s with
    | .next a _ => a.elim
    | .ret r s' => .next r s'
    | .fault e => .fault e := by
  induction p generalizing s with
  | done a => exact a.elim
  | ret r => rfl
  | fault e => rfl
  | op i k ih => exact ih _ _

/-- A return ends the function, whatever follows. -/
@[simp] theorem ret_bind (r : ρ) (f : β → Prog A ρ φ α) : (ret r >>= f) = ret r := rfl

@[simp] theorem done_bind (b : β) (f : β → Prog A ρ φ α) : (pure b >>= f) = f b := rfl

namespace Lockstep

variable {p q : Prog A ρ φ α} {s t : σ}

theorem bind {p q : Prog A ρ φ β} {f g : β → Prog A ρ φ α} (h : Lockstep R p q s t)
    (hk : p.wp (fun b s' => ∀ t', R s' t' → Lockstep R (f b) (g b) s' t') (fun _ _ => True)
      (fun _ => True) s) : Lockstep R (p >>= f) (q >>= g) s t := by
  have h := h.alike
  unfold wp at hk
  constructor
  rw [run_bind, run_bind]
  cases hp : p.run s with
  | next b s' =>
    rw [hp] at h hk
    obtain ⟨t', hq, hR⟩ := h.of_next
    rw [hq]
    exact (hk t' hR).alike
  | ret r s' =>
    rw [hp] at h
    obtain ⟨t', hq, hR⟩ := h.of_ret
    rw [hq]
    exact ⟨rfl, hR⟩
  | fault e =>
    rw [hp] at h
    rw [h.of_fault]
    exact rfl

theorem call {p q : Fn A ρ φ} (h : Lockstep R p q s t) :
    Lockstep R (call p : Prog A ρ' φ ρ) (call q) s t := by
  have h := h.alike
  constructor
  rw [run_call, run_call]
  cases hp : p.run s with
  | next a s' => exact a.elim
  | ret r s' =>
    rw [hp] at h
    obtain ⟨t', hq, hR⟩ := h.of_ret
    rw [hq]
    exact ⟨rfl, hR⟩
  | fault e =>
    rw [hp] at h
    rw [h.of_fault]
    exact rfl

theorem ite {c : Prop} {_ : Decidable c} {p' q' : Prog A ρ φ α} (h : c → Lockstep R p q s t)
    (h' : ¬ c → Lockstep R p' q' s t) :
    Lockstep R (if c then p else p') (if c then q else q') s t := by
  split_ifs with hc
  · exact h hc
  · exact h' hc

theorem ret {r : ρ} (h : R s t) : Lockstep R (.ret r : Prog A ρ φ α) (.ret r) s t := ⟨⟨rfl, h⟩⟩

/-- The loop rule. -/
theorem forEach {f g : ι → Prog A ρ φ Unit} : ∀ {is : List ι} {s t : σ}, R s t →
    (∀ i ∈ is, ∀ s t, R s t → Lockstep R (f i) (g i) s t) →
    Lockstep R (forEach is f) (Prog.forEach is g) s t
  | [], _, _, h, _ => ⟨⟨rfl, h⟩⟩
  | i :: is, s, t, h, hbody => by
    rw [Prog.forEach, Prog.forEach]
    refine (hbody i (by simp) s t h).bind (wp_of_forall ?_ (fun _ _ => trivial) fun _ => trivial)
    exact fun _ s' t' h' => forEach h' fun j hj => hbody j (by simp [hj])

/-- How the second run ends when the first returns. -/
theorem of_ret {r : ρ} {s' : σ} (h : Lockstep R p q s t) (hp : p.run s = .ret r s') :
    ∃ t', q.run t = .ret r t' ∧ R s' t' := by
  have h := h.alike
  rw [hp] at h
  exact h.of_ret

/-- How the second run ends when the first falls through. -/
theorem of_next {a : α} {s' : σ} (h : Lockstep R p q s t) (hp : p.run s = .next a s') :
    ∃ t', q.run t = .next a t' ∧ R s' t' := by
  have h := h.alike
  rw [hp] at h
  exact h.of_next

end Lockstep

/-! ## Statements that cannot tell related states apart -/

class Blind (R : σ → σ → Prop) (p : Prog A ρ φ α) : Prop where
  lockstep : ∀ {s t : σ}, R s t → Lockstep R p p s t

export Blind (lockstep)

section
variable {p q : Prog A ρ φ α}

instance blind_pure (a : α) : Blind R (pure a : Prog A ρ φ α) := ⟨fun h => ⟨⟨rfl, h⟩⟩⟩

instance blind_ret (r : ρ) : Blind R (ret r : Prog A ρ φ α) := ⟨fun h => ⟨⟨rfl, h⟩⟩⟩

instance blind_fault (f : φ) : Blind R (fault f : Prog A ρ φ α) := ⟨fun _ => ⟨rfl⟩⟩

instance blind_bind (p : Prog A ρ φ β) (f : β → Prog A ρ φ α) [Blind R p] [∀ b, Blind R (f b)] :
    Blind R (p >>= f) :=
  ⟨fun h => (lockstep h).bind (wp_of_forall (fun _ _ _ h => lockstep h) (fun _ _ => trivial)
    fun _ => trivial)⟩

instance blind_ite {c : Prop} {_ : Decidable c} [Blind R p] [Blind R q] : Blind R (if c then p else q) :=
  ⟨fun h => .ite (fun _ => lockstep h) fun _ => lockstep h⟩

instance blind_call (p : Fn A ρ φ) [Blind R p] : Blind R (call p : Prog A ρ' φ ρ) :=
  ⟨fun h => (lockstep h).call⟩

instance blind_forEach (is : List ι) (f : ι → Prog A ρ φ Unit) [∀ i, Blind R (f i)] :
    Blind R (forEach is f) :=
  ⟨fun h => .forEach h fun _ _ _ _ h => lockstep h⟩

/-- After a statement that cannot tell the states apart, the two runs may differ. -/
theorem Lockstep.seq {p : Prog A ρ φ β} [Blind R p] {f g : β → Prog A ρ φ α} {s t : σ} (h : R s t)
    (hk : ∀ b s t, R s t → Lockstep R (f b) (g b) s t) : Lockstep R (p >>= f) (p >>= g) s t :=
  (lockstep h).bind (wp_of_forall (fun b s t => hk b s t) (fun _ _ => trivial) fun _ => trivial)

end

end Prog

/-! ## Whole runs -/

/-- **The unwinding rule.**  A hidden event keeps the relation on whichever side it
    happens, and two visible events with the same label are the same event and keep it.
    Then two runs whose visible events have the same labels have the same visible
    events, and end in related states. -/
theorem Runs.unwind {σ ε ℓ : Type} {R : σ → σ → Prop} {step step' : σ → ε → σ → Prop}
    {hidden : ε → Bool} {label : ε → ℓ}
    (hleft : ∀ s t e s', R s t → step s e s' → hidden e = true → R s' t)
    (hright : ∀ s t e t', R s t → step' t e t' → hidden e = true → R s t')
    (hboth : ∀ s t e e' s' t', R s t → step s e s' → step' t e' t' → hidden e = false →
      hidden e' = false → label e = label e' → e = e' ∧ R s' t')
    {s t s' t' : σ} {es es' : List ε} (h : R s t) (hr : Runs step s es s') (hr' : Runs step' t es' t')
    (hl : (es.filter fun e => !hidden e).map label = (es'.filter fun e => !hidden e).map label) :
    es.filter (fun e => !hidden e) = es'.filter (fun e => !hidden e) ∧ R s' t' := by
  induction es generalizing s t es' with
  | nil =>
    obtain rfl := hr.nil_inv
    clear hr
    induction es' generalizing t with
    | nil => obtain rfl := hr'.nil_inv; exact ⟨rfl, h⟩
    | cons e' es' ih =>
      obtain ⟨t₁, hs', hrest⟩ := hr'.cons_inv
      cases he' : hidden e' with
      | true =>
        simp only [List.filter_cons, he', Bool.not_true, Bool.false_eq_true, if_false] at hl ⊢
        exact ih hrest hl (hright _ _ _ _ h hs' he')
      | false => simp [he'] at hl
  | cons e es ih =>
    obtain ⟨s₁, hs, hr⟩ := hr.cons_inv
    cases he : hidden e with
    | true =>
      simp only [List.filter_cons, he, Bool.not_true, Bool.false_eq_true, if_false] at hl ⊢
      exact ih (hleft _ _ _ _ h hs he) hr hr' hl
    | false =>
      -- The other run catches up to its next visible event.
      induction es' generalizing t with
      | nil => simp [he] at hl
      | cons e' es' ih' =>
        obtain ⟨t₁, hs', hrest⟩ := hr'.cons_inv
        cases he' : hidden e' with
        | true =>
          have hskip : (e' :: es').filter (fun e => !hidden e) = es'.filter fun e => !hidden e :=
            List.filter_cons_of_neg (by simp [he'])
          rw [hskip] at hl ⊢
          exact ih' (hright _ _ _ _ h hs' he') hrest hl
        | false =>
          simp only [List.filter_cons, he, he', Bool.not_false, if_true, List.map_cons,
            List.cons.injEq] at hl ⊢
          obtain ⟨rfl, h₁⟩ := hboth _ _ _ _ _ _ h hs hs' he he' hl.1
          obtain ⟨heq, hR⟩ := ih h₁ hr hrest hl.2
          exact ⟨⟨rfl, heq⟩, hR⟩
