/-
  When a list can be read back from the concatenation of the codes of its items.

  * `Separates enc x y`: what follows them aside, the codes of `x` and `y` are
    different, unless `x = y`;
  * `flatMap_inj_of_forall₂`: two lists whose items are separated one by one;
  * `flatMap_inj_of_runs`: two words of an automaton, when the items that a state
    accepts are separated.
-/
import SecurityMonitor.Lib.Run

namespace Parse

variable {α β σ : Type} {enc : α → List β} {x y : α} {l l' : List α}

def Separates (enc : α → List β) (x y : α) : Prop := ∀ u v, enc x ++ u = enc y ++ v → x = y

theorem Separates.of_length (hlen : (enc x).length = (enc y).length) (hinj : enc x = enc y → x = y) :
    Separates enc x y := fun _ _ h => hinj (List.append_inj_left h hlen)

theorem flatMap_inj_of_forall₂ (h : List.Forall₂ (Separates enc) l l')
    (heq : l.flatMap enc = l'.flatMap enc) : l = l' := by
  induction h with
  | nil => rfl
  | @cons x y l l' hxy _ ih =>
    rw [List.flatMap_cons, List.flatMap_cons] at heq
    obtain rfl := hxy _ _ heq
    rw [ih (List.append_cancel_left heq)]

theorem flatMap_inj_of_runs {step : σ → α → σ → Prop} {s t t' : σ}
    (hdet : ∀ s x t t', step s x t → step s x t' → t = t')
    (hpos : ∀ s x t, step s x t → enc x ≠ [])
    (hsep : ∀ s x y t t', step s x t → step s y t' → Separates enc x y)
    (h : Runs step s l t) (h' : Runs step s l' t') (heq : l.flatMap enc = l'.flatMap enc) : l = l' := by
  induction l generalizing s l' with
  | nil =>
    cases l' with
    | nil => rfl
    | cons y l' =>
      obtain ⟨s₁, hy, -⟩ := h'.cons_inv
      rw [List.flatMap_nil, List.flatMap_cons] at heq
      exact absurd (List.append_eq_nil_iff.mp heq.symm).1 (hpos _ _ _ hy)
  | cons x l ih =>
    obtain ⟨s₁, hx, hl⟩ := h.cons_inv
    cases l' with
    | nil =>
      rw [List.flatMap_nil, List.flatMap_cons] at heq
      exact absurd (List.append_eq_nil_iff.mp heq).1 (hpos _ _ _ hx)
    | cons y l' =>
      obtain ⟨s₂, hy, hl'⟩ := h'.cons_inv
      rw [List.flatMap_cons, List.flatMap_cons] at heq
      obtain rfl := hsep _ _ _ _ _ hx hy _ _ heq
      obtain rfl := hdet _ _ _ _ hx hy
      rw [ih hl hl' (List.append_cancel_left heq)]

end Parse
