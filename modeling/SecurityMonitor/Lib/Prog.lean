/-
  Imperative functions with early returns, and rules of pre- and
  postconditions for them.

  A statement `p : Prog A ρ φ α` is a tree of instructions; an instruction `i`
  has an answer in `A i`.  A statement falls through with a value, it returns
  from the enclosing function with a result `ρ`, or it faults with `φ`.  A
  function body never falls through (`Fn`), and `call` runs one inside another
  function.

  A `Handler` says what the instructions do to a state `σ`, and `run` executes a
  statement with it in one go; a return keeps the state as it is at that point.

  `p.wp Q R F s` holds if the run of `p` from `s` ends in `Q` when it falls
  through, in `R` when it returns, and in `F` when it faults.  The `wp_`
  lemmas compute it statement by statement; `wp_forEach` is the invariant rule
  for loops, and `wp_forEach_check` computes a loop of checks.
-/
import Mathlib

/-- The end of a run: it falls through, returns, or faults. -/
inductive Outcome (σ ρ φ α : Type) where
  | next (a : α) (s : σ)
  | ret (r : ρ) (s : σ)
  | fault (f : φ)

/-- A statement. -/
inductive Prog {I : Type} (A : I → Type) (ρ φ α : Type) : Type
  | done (a : α)
  /-- `return r;` -/
  | ret (r : ρ)
  | fault (f : φ)
  /-- Execute `i` and go on with its answer. -/
  | op (i : I) (k : A i → Prog A ρ φ α)

/-- A function body: it never falls through. -/
abbrev Fn {I : Type} (A : I → Type) (ρ φ : Type) := Prog A ρ φ Empty

/-- What the instructions do to a state. -/
class Handler {I : outParam Type} (A : outParam (I → Type)) (σ : Type) where
  handle : (i : I) → σ → A i × σ

export Handler (handle)

namespace Prog

variable {I : Type} {A : I → Type} {σ ρ ρ' φ α β ι : Type}

protected def bind : Prog A ρ φ α → (α → Prog A ρ φ β) → Prog A ρ φ β
  | done a, f => f a
  | ret r, _ => ret r
  | fault e, _ => fault e
  | op i k, f => op i fun x => (k x).bind f

instance : Monad (Prog A ρ φ) where
  pure := done
  bind := Prog.bind

/-- A single instruction. -/
def instr (i : I) : Prog A ρ φ (A i) := op i done

/-- Run a function body and continue with its result. -/
def call : Fn A ρ φ → Prog A ρ' φ ρ
  | done a => a.elim
  | ret r => done r
  | fault f => fault f
  | op i k => op i fun x => (k x).call

/-- A loop over a list. -/
def forEach : List ι → (ι → Prog A ρ φ Unit) → Prog A ρ φ Unit
  | [], _ => pure ()
  | i :: is, body => body i >>= fun _ => forEach is body

def run [Handler A σ] : Prog A ρ φ α → σ → Outcome σ ρ φ α
  | done a, s => .next a s
  | ret r, s => .ret r s
  | fault f, _ => .fault f
  | op i k, s => (k (handle i s).1).run (handle i s).2

/-! ## Weakest preconditions -/

variable [Handler A σ]

def wp (p : Prog A ρ φ α) (Q : α → σ → Prop) (R : ρ → σ → Prop) (F : φ → Prop) (s : σ) : Prop :=
  match p.run s with
  | .next a s' => Q a s'
  | .ret r s' => R r s'
  | .fault f => F f

variable {Q Q' : α → σ → Prop} {R R' : ρ → σ → Prop} {F F' : φ → Prop} {s : σ}

@[simp] theorem wp_pure (a : α) : wp (pure a : Prog A ρ φ α) Q R F s = Q a s := rfl

@[simp] theorem wp_instr (i : I) {Q : A i → σ → Prop} :
    (instr i : Prog A ρ φ (A i)).wp Q R F s = Q (handle i s).1 (handle i s).2 := rfl

@[simp] theorem wp_ret (r : ρ) : (ret r : Prog A ρ φ α).wp Q R F s = R r s := rfl

@[simp] theorem wp_fault (f : φ) : (fault f : Prog A ρ φ α).wp Q R F s = F f := rfl

@[simp] theorem wp_bind (p : Prog A ρ φ β) (f : β → Prog A ρ φ α) :
    (p >>= f).wp Q R F s = p.wp (fun b s' => (f b).wp Q R F s') R F s := by
  induction p generalizing s with
  | done b => rfl
  | ret r => rfl
  | fault e => rfl
  | op i k ih => exact ih _

theorem wp_ite {c : Prop} [Decidable c] (p q : Prog A ρ φ α) :
    (if c then p else q).wp Q R F s ↔ (c → p.wp Q R F s) ∧ (¬c → q.wp Q R F s) := by
  split_ifs with h <;> simp [h]

theorem wp_mono {p : Prog A ρ φ α} (h : p.wp Q R F s) (hQ : ∀ a s', Q a s' → Q' a s')
    (hR : ∀ r s', R r s' → R' r s') (hF : ∀ f, F f → F' f) : p.wp Q' R' F' s := by
  unfold wp at *
  cases hp : p.run s with
  | next a s' => rw [hp] at h; exact hQ a s' h
  | ret r s' => rw [hp] at h; exact hR r s' h
  | fault f => rw [hp] at h; exact hF f h

theorem wp_of_forall {p : Prog A ρ φ α} (hQ : ∀ a s', Q a s') (hR : ∀ r s', R r s')
    (hF : ∀ f, F f) : p.wp Q R F s := by
  unfold wp
  cases p.run s with
  | next a s' => exact hQ a s'
  | ret r s' => exact hR r s'
  | fault f => exact hF f

theorem wp_and {p : Prog A ρ φ α} (h : p.wp Q R F s) (h' : p.wp Q' R' F' s) :
    p.wp (fun a s' => Q a s' ∧ Q' a s') (fun r s' => R r s' ∧ R' r s') (fun f => F f ∧ F' f) s := by
  unfold wp at *
  cases hp : p.run s with
  | next a s' => rw [hp] at h h'; exact ⟨h, h'⟩
  | ret r s' => rw [hp] at h h'; exact ⟨h, h'⟩
  | fault f => rw [hp] at h h'; exact ⟨h, h'⟩

@[simp] theorem wp_call {Q : ρ → σ → Prop} {R : ρ' → σ → Prop} (p : Fn A ρ φ) :
    (call p : Prog A ρ' φ ρ).wp Q R F s = p.wp (fun a _ => a.elim) Q F s := by
  induction p generalizing s with
  | done a => exact a.elim
  | ret r => rfl
  | fault e => rfl
  | op i k ih => exact ih _

/-- **The invariant rule.**  The invariant may speak of the entries already visited. -/
theorem wp_forEach {body : ι → Prog A ρ φ Unit} : ∀ (is : List ι) (I : List ι → σ → Prop) {s : σ},
    I [] s → (∀ done i, ∀ s, I done s → i ∈ is →
      (body i).wp (fun _ => I (done ++ [i])) R F s) →
    (forEach is body).wp (fun _ => I is) R F s
  | [], _, _, hs, _ => hs
  | i :: is, I, s, hs, h => by
    rw [forEach, wp_bind]
    refine wp_mono (h [] i s hs (by simp)) (fun _ s' hs' => ?_) (fun _ _ h => h) fun _ h => h
    refine wp_forEach is (fun done => I (i :: done)) hs' fun done j t ht hj => ?_
    exact h (i :: done) j t ht (by simp [hj])

/-- A loop of checks that all fail the same way. -/
theorem wp_forEach_check {body : ι → Prog A ρ φ Unit} {G : ι → Prop} {P : Prop} {Q : Unit → σ → Prop}
    (hbody : ∀ i (Q' : Unit → σ → Prop), (body i).wp Q' R F s ↔ (¬ G i → P) ∧ (G i → Q' () s)) :
    ∀ is : List ι, (forEach is body).wp Q R F s ↔
      ((¬ ∀ i ∈ is, G i) → P) ∧ ((∀ i ∈ is, G i) → Q () s)
  | [] => by simp [forEach]
  | i :: is => by
    rw [forEach, wp_bind, hbody, wp_forEach_check hbody is, List.forall_mem_cons]
    by_cases hi : G i <;> simp [hi]

/-- What a run that returns ends in. -/
theorem of_wp_ret {p : Prog A ρ φ α} {r : ρ} {s' : σ} (h : p.wp Q R F s) (hp : p.run s = .ret r s') :
    R r s' := by
  unfold wp at h; rwa [hp] at h

end Prog
