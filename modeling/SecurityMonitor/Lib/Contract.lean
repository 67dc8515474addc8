/-
  Statements against a contract of their instructions.

  A handler answers every instruction in one way.  A `Contract` only says what
  the program may rely on and what it must respect: `C.pre i v Q` holds if the
  program may execute `i` in the view `v`, and every answer it can get, with the
  view after it, satisfies `Q`.

  `p.meets C Q R v` says that `p` respects the contract from the view `v` on, falls
  through in `Q` and returns in `R`; nothing is said about faults.  The `meets_`
  lemmas compute it statement by statement.

  * `wp_of_meets`: a handler that keeps to the contract, up to a relation between
    its states and the views, runs a program that meets it as the program says;
  * `meets_op` is the rule for executing a program instruction by instruction, with
    other programs in between.
-/
import SecurityMonitor.Lib.Prog

/-- What a program may rely on, and what it must respect. -/
structure Contract {I : Type} (A : I → Type) (V : Type) where
  pre : (i : I) → V → (A i → V → Prop) → Prop
  mono : ∀ {i : I} {v : V} {Q Q' : A i → V → Prop}, (∀ a v', Q a v' → Q' a v') → pre i v Q → pre i v Q'

namespace Prog

variable {I : Type} {A : I → Type} {V σ ρ ρ' φ α β ι : Type} {C : Contract A V}

def meets (C : Contract A V) (Q : α → V → Prop) (R : ρ → V → Prop) : Prog A ρ φ α → V → Prop
  | done a, v => Q a v
  | ret r, v => R r v
  | fault _, _ => True
  | op i k, v => C.pre i v fun a v' => (k a).meets C Q R v'

variable {Q Q' : α → V → Prop} {R R' : ρ → V → Prop} {v : V}

@[simp] theorem meets_pure (a : α) : (pure a : Prog A ρ φ α).meets C Q R v = Q a v := rfl

@[simp] theorem meets_ret (r : ρ) : (ret r : Prog A ρ φ α).meets C Q R v = R r v := rfl

@[simp] theorem meets_fault (f : φ) : (fault f : Prog A ρ φ α).meets C Q R v = True := rfl

theorem meets_op (i : I) (k : A i → Prog A ρ φ α) :
    (op i k).meets C Q R v = C.pre i v fun a v' => (k a).meets C Q R v' := rfl

@[simp] theorem meets_instr (i : I) {Q : A i → V → Prop} :
    (instr i : Prog A ρ φ (A i)).meets C Q R v = C.pre i v Q := rfl

@[simp] theorem meets_bind (p : Prog A ρ φ β) (f : β → Prog A ρ φ α) :
    (p >>= f).meets C Q R v = p.meets C (fun b v' => (f b).meets C Q R v') R v := by
  induction p generalizing v with
  | done b => rfl
  | ret r => rfl
  | fault e => rfl
  | op i k ih => exact congrArg (C.pre i v) (funext fun a => funext fun v' => ih a)

@[simp] theorem meets_call {Q : ρ → V → Prop} {R : ρ' → V → Prop} (p : Fn A ρ φ) :
    (call p : Prog A ρ' φ ρ).meets C Q R v = p.meets C (fun a _ => a.elim) Q v := by
  induction p generalizing v with
  | done a => exact a.elim
  | ret r => rfl
  | fault e => rfl
  | op i k ih => exact congrArg (C.pre i v) (funext fun a => funext fun v' => ih a)

theorem meets_ite {c : Prop} [Decidable c] (p q : Prog A ρ φ α) :
    (if c then p else q).meets C Q R v ↔ (c → p.meets C Q R v) ∧ (¬c → q.meets C Q R v) := by
  split_ifs with h <;> simp [h]

theorem meets_mono {p : Prog A ρ φ α} (h : p.meets C Q R v) (hQ : ∀ a v', Q a v' → Q' a v')
    (hR : ∀ r v', R r v' → R' r v') : p.meets C Q' R' v := by
  induction p generalizing v with
  | done a => exact hQ a v h
  | ret r => exact hR r v h
  | fault f => trivial
  | op i k ih => exact C.mono (fun a _ hk => ih a hk) h

/-- **The invariant rule** for loops.  The invariant may speak of the entries already
    visited, and the body knows those that are left. -/
theorem meets_forEach {body : ι → Prog A ρ φ Unit} : ∀ (is : List ι) (I : List ι → V → Prop) {v : V},
    I [] v → (∀ done i left, done ++ i :: left = is → ∀ v, I done v →
      (body i).meets C (fun _ => I (done ++ [i])) R v) →
    (forEach is body).meets C (fun _ => I is) R v
  | [], _, _, hv, _ => hv
  | i :: is, I, v, hv, h => by
    rw [forEach, meets_bind]
    refine meets_mono (h [] i is rfl v hv) (fun _ v' hv' => ?_) fun _ _ h => h
    refine meets_forEach is (fun done => I (i :: done)) hv' fun done j left hj w hw => ?_
    exact h (i :: done) j left (by rw [← hj]; rfl) w hw

/-- **Handlers that keep to the contract.** -/
theorem wp_of_meets [Handler A σ] {Rel : V → σ → Prop}
    (hC : ∀ {i : I} {s : σ} {v : V} {Q : A i → V → Prop}, Rel v s → C.pre i v Q →
      ∃ v', Rel v' (handle i s).2 ∧ Q (handle i s).1 v')
    {p : Prog A ρ φ α} {s : σ} (hs : Rel v s) (h : p.meets C Q R v) :
    p.wp (fun a s => ∃ v, Rel v s ∧ Q a v) (fun r s => ∃ v, Rel v s ∧ R r v) (fun _ => True) s := by
  induction p generalizing s v with
  | done a => exact ⟨v, hs, h⟩
  | ret r => exact ⟨v, hs, h⟩
  | fault f => trivial
  | op i k ih =>
    obtain ⟨v', hs', hk⟩ := hC hs h
    exact ih _ hs' hk

end Prog
