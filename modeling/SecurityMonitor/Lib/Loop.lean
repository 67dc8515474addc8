/-
  While loops that may not end.

  `Loop.run c b n s` runs `while (c) b` from `s` with at most `n` tests; it gives
  no state if the loop has not ended by then.

  * `run_mono`: more tests do not change the end;
  * `exists_run`: a loop with a variant ends, and keeps its invariant;
  * `run_eq_none`: a loop whose test holds for ever never ends.
-/
import Mathlib

namespace Loop

variable {σ : Type}

def run (c : σ → Bool) (b : σ → σ) : ℕ → σ → Option σ
  | 0, _ => none
  | n + 1, s => if c s then run c b n (b s) else some s

variable {c : σ → Bool} {b : σ → σ} {I : σ → Prop}

theorem run_succ_of_false {s : σ} (h : c s = false) (n : ℕ) : run c b (n + 1) s = some s := by
  rw [run, if_neg (by simp [h])]

theorem run_succ_of_true {s : σ} (h : c s = true) (n : ℕ) : run c b (n + 1) s = run c b n (b s) := by
  rw [run, if_pos h]

theorem run_mono : ∀ {n k : ℕ} {s s' : σ}, run c b n s = some s' → n ≤ k → run c b k s = some s'
  | 0, _, _, _, h, _ => by cases h
  | n + 1, 0, _, _, _, hle => absurd hle (by omega)
  | n + 1, k + 1, s, s', h, hle => by
    cases hc : c s with
    | false => rwa [run_succ_of_false hc] at h ⊢
    | true =>
      rw [run_succ_of_true hc] at h ⊢
      exact run_mono h (by omega)

/-- **A loop with a variant ends.** -/
theorem exists_run (μ : σ → ℕ) (hstep : ∀ s, I s → c s = true → I (b s) ∧ μ (b s) < μ s) {s : σ} (hs : I s) :
    ∃ n s', run c b n s = some s' ∧ I s' ∧ c s' = false := by
  induction hμ : μ s using Nat.strong_induction_on generalizing s with
  | _ k ih =>
    cases hc : c s with
    | false => exact ⟨1, s, run_succ_of_false hc 0, hs, hc⟩
    | true =>
      obtain ⟨hI, hlt⟩ := hstep s hs hc
      obtain ⟨n, s', hrun, hend⟩ := ih _ (hμ ▸ hlt) hI rfl
      exact ⟨n + 1, s', (run_succ_of_true hc n).trans hrun, hend⟩

/-- **A loop whose test always holds does not end.** -/
theorem run_eq_none (hstep : ∀ s, I s → c s = true ∧ I (b s)) : ∀ (n : ℕ) {s : σ}, I s → run c b n s = none
  | 0, _, _ => rfl
  | n + 1, s, hs => by
    obtain ⟨hc, hI⟩ := hstep s hs
    rw [run_succ_of_true hc]
    exact run_eq_none hstep n hI

end Loop
