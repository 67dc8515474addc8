/-
  Runs of a labelled transition system, with the rules to prove something about
  every state of every run.

  * `Runs step s es s'`: from `s` the events `es` lead to `s'`;
  * `Runs.invariant`: what holds at the start and is kept by each step holds at
    the end; `Runs.invariant_events` also speaks of the events so far;
  * `Runs.exists_of_measure`: what a decreasing measure leads to;
  * `Traced step`: the steps with the states before them as events, so that the
    events of a run are its history;
  * `Runs.exists_of_foldlM`: a run of an executable step function;
  * `runsOf`: the same with a reply to each label;
    `Runs.exists_of_runsOf` and `Runs.exists_step_of_runsOf` take a run from it,
    and `Runs.exists_of_historyOf` a history.
-/
import Mathlib

variable {σ ε ℓ : Type}

inductive Runs (step : σ → ε → σ → Prop) : σ → List ε → σ → Prop
  | nil (s : σ) : Runs step s [] s
  | snoc {s s' s'' : σ} {es : List ε} {e : ε} :
      Runs step s es s' → step s' e s'' → Runs step s (es ++ [e]) s''

namespace Runs

variable {step step' : σ → ε → σ → Prop} {s s' s'' : σ} {es es' : List ε}

/-- **The invariant rule**, for an invariant of the state and of the events so far. -/
theorem invariant_events {I : List ε → σ → Prop} (h : Runs step s es s') (h0 : I [] s)
    (hstep : ∀ es s e s', I es s → step s e s' → I (es ++ [e]) s') : I es s' := by
  induction h with
  | nil => exact h0
  | snoc _ hs ih => exact hstep _ _ _ _ ih hs

theorem invariant {I : σ → Prop} (h : Runs step s es s') (h0 : I s)
    (hstep : ∀ s e s', I s → step s e s' → I s') : I s' :=
  h.invariant_events (I := fun _ => I) h0 fun _ s e s' => hstep s e s'

theorem mono_mem (h : Runs step s es s') (hstep : ∀ s e s', e ∈ es → step s e s' → step' s e s') :
    Runs step' s es s' := by
  induction h with
  | nil => exact .nil _
  | snoc _ hs ih =>
    exact .snoc (ih fun s e s' he => hstep s e s' (List.mem_append_left _ he)) (hstep _ _ _ (by simp) hs)

theorem mono (h : Runs step s es s') (hstep : ∀ s e s', step s e s' → step' s e s') :
    Runs step' s es s' :=
  h.mono_mem fun s e s' _ => hstep s e s'

theorem append (h : Runs step s es s') (h' : Runs step s' es' s'') : Runs step s (es ++ es') s'' := by
  induction h' with
  | nil => rwa [List.append_nil]
  | snoc _ hs ih => rw [← List.append_assoc]; exact .snoc ih hs

theorem nil_inv (h : Runs step s [] s') : s' = s := by
  generalize hl : [] = l at h
  cases h with
  | nil => rfl
  | snoc => simp at hl

theorem snoc_inv {e : ε} (h : Runs step s (es ++ [e]) s'') : ∃ s', Runs step s es s' ∧ step s' e s'' := by
  generalize hl : es ++ [e] = l at h
  cases h with
  | nil => simp at hl
  | snoc h hs =>
    obtain ⟨rfl, heq⟩ := List.append_inj' hl rfl
    obtain rfl := (List.cons.inj heq).1
    exact ⟨_, h, hs⟩

theorem split (h : Runs step s (es ++ es') s'') : ∃ s', Runs step s es s' ∧ Runs step s' es' s'' := by
  induction es' using List.reverseRecOn generalizing s'' with
  | nil => rw [List.append_nil] at h; exact ⟨s'', h, .nil _⟩
  | append_singleton es' e ih =>
    rw [← List.append_assoc] at h
    obtain ⟨s₁, h₁, hs⟩ := h.snoc_inv
    obtain ⟨s', h, h'⟩ := ih h₁
    exact ⟨s', h, .snoc h' hs⟩

theorem split_cons {e : ε} (h : Runs step s (es ++ e :: es') s'') :
    ∃ s₁ s₂, Runs step s es s₁ ∧ step s₁ e s₂ ∧ Runs step s₂ es' s'' := by
  obtain ⟨s₁, h₁, h⟩ := h.split
  rw [← List.singleton_append] at h
  obtain ⟨s₂, h₂, h'⟩ := h.split
  obtain ⟨s₁', hnil, hs⟩ := (List.nil_append [e] ▸ h₂ : Runs step s₁ ([] ++ [e]) s₂).snoc_inv
  rw [hnil.nil_inv] at hs
  exact ⟨s₁, s₂, h₁, hs, h'⟩

theorem cons_inv {e : ε} (h : Runs step s (e :: es) s'') : ∃ s', step s e s' ∧ Runs step s' es s'' := by
  obtain ⟨s₁, s', hnil, hs, h'⟩ := (List.nil_append (e :: es) ▸ h : Runs step s ([] ++ e :: es) s'').split_cons
  rw [hnil.nil_inv] at hs
  exact ⟨s', hs, h'⟩

/-- What holds at first and not at the end is broken by a step in between. -/
theorem exists_break {I : σ → Prop} (h : Runs step s es s') (h0 : I s) (hn : ¬ I s') :
    ∃ es₁ e es₂ s₁ s₂, es = es₁ ++ e :: es₂ ∧ Runs step s es₁ s₁ ∧ step s₁ e s₂ ∧ I s₁ ∧ ¬ I s₂ := by
  induction h with
  | nil => exact absurd h0 hn
  | @snoc s₁ s₂ es e h hs ih =>
    by_cases hmid : I s₁
    · exact ⟨es, e, [], s₁, s₂, rfl, h, hs, hmid, hn⟩
    · obtain ⟨es₁, e', es₂, s₁, s₂, rfl, hrest⟩ := ih hmid
      exact ⟨es₁, e', es₂ ++ [e], s₁, s₂, by simp, hrest⟩

theorem single {e : ε} (h : step s e s') : Runs step s [e] s' := .snoc (.nil s) h

/-- **The progress rule.**  If every state with `I` has `G`, or leads to one with `I` and a smaller `μ`,
    then it leads to one with `G`. -/
theorem exists_of_measure (I G : σ → Prop) (μ : σ → ℕ)
    (h : ∀ s, I s → G s ∨ ∃ es s', Runs step s es s' ∧ I s' ∧ μ s' < μ s) (hs : I s) :
    ∃ es s', Runs step s es s' ∧ I s' ∧ G s' := by
  induction hn : μ s using Nat.strong_induction_on generalizing s with
  | _ n ih =>
    rcases h s hs with hG | ⟨es₁, s₁, hr₁, hI, hlt⟩
    · exact ⟨[], s, .nil s, hs, hG⟩
    · obtain ⟨es, s', hr, hI', hG⟩ := ih _ (hn ▸ hlt) hI rfl
      exact ⟨es₁ ++ es, s', hr₁.append hr, hI', hG⟩

end Runs

/-! ## Histories -/

/-- A step that records the state before it: the events of a run are then its history. -/
def Traced (step : σ → ε → σ → Prop) (s : σ) (x : σ × ε) (s' : σ) : Prop := x.1 = s ∧ step s x.2 s'

theorem Runs.of_traced {step : σ → ε → σ → Prop} {s s' : σ} {h : List (σ × ε)}
    (hr : Runs (Traced step) s h s') : Runs step s (h.map Prod.snd) s' := by
  induction hr with
  | nil => exact .nil _
  | snoc _ hs ih => rw [List.map_append]; exact .snoc ih hs.2

theorem Runs.traced {step : σ → ε → σ → Prop} {s s' : σ} {es : List ε} (hr : Runs step s es s') :
    ∃ h, Runs (Traced step) s h s' ∧ h.map Prod.snd = es := by
  induction hr with
  | nil => exact ⟨[], .nil _, rfl⟩
  | @snoc s₁ _ es e _ hs ih =>
    obtain ⟨h, hr, rfl⟩ := ih
    exact ⟨h ++ [(s₁, e)], .snoc hr ⟨rfl, hs⟩, by rw [List.map_append]; rfl⟩

theorem Runs.traced_cons {step : σ → ε → σ → Prop} {s s' : σ} {e : ε} {es : List ε}
    (hr : Runs step s (e :: es) s') : ∃ h, Runs (Traced step) s ((s, e) :: h) s' := by
  obtain ⟨s₁, hs, hr⟩ := hr.cons_inv
  obtain ⟨h, hr, -⟩ := hr.traced
  exact ⟨h, (Runs.single ⟨rfl, hs⟩).append hr⟩

/-! ## Executable systems -/

/-- Execute labels with the property `P` only. -/
def restrict {τ : Type} (P : σ → ℓ → Prop) [∀ s l, Decidable (P s l)] (exec : σ → ℓ → Option τ)
    (s : σ) (l : ℓ) : Option τ :=
  if P s l then exec s l else none

theorem restrict_eq_some {τ : Type} {P : σ → ℓ → Prop} [∀ s l, Decidable (P s l)]
    {exec : σ → ℓ → Option τ} {s : σ} {l : ℓ} {x : τ} :
    restrict P exec s l = some x ↔ P s l ∧ exec s l = some x := by
  rw [restrict]
  split_ifs with h
  · exact (and_iff_right h).symm
  · exact iff_of_false nofun fun hx => h hx.1

theorem Runs.of_foldlM {exec : σ → ℓ → Option σ} {s : σ} (ls : List ℓ) :
    ∀ {s' : σ}, ls.foldlM exec s = some s' → Runs (fun s l s' => exec s l = some s') s ls s' := by
  induction ls using List.reverseRecOn with
  | nil => rintro _ ⟨⟩; exact .nil s
  | append_singleton ls l ih =>
    intro s' h
    rw [List.foldlM_append, Option.bind_eq_bind, Option.bind_eq_some_iff] at h
    obtain ⟨s₁, h₁, hl⟩ := h
    rw [List.foldlM_cons, Option.bind_eq_bind, Option.bind_eq_some_iff] at hl
    obtain ⟨s₂, h₂, ⟨⟩⟩ := hl
    exact .snoc (ih h₁) h₂

/-- The run on a list of labels, with a property that can be checked by running it. -/
theorem Runs.exists_of_foldlM {exec : σ → ℓ → Option σ} {s : σ} (ls : List ℓ) {P : σ → Prop}
    [DecidablePred P] (h : (ls.foldlM exec s).any (fun s' => decide (P s')) = true) :
    ∃ s', Runs (fun s l s' => exec s l = some s') s ls s' ∧ P s' := by
  obtain ⟨s', hs, hP⟩ := (Option.any_eq_true _ _).mp h
  exact ⟨s', .of_foldlM ls hs, of_decide_eq_true hP⟩

/-- Run a list of labels; `exec` gives the reply to a label and the next state. -/
def runsOf {ρ : Type} (exec : σ → ℓ → Option (ρ × σ)) (s : σ) : List ℓ → Option (List (ℓ × ρ) × σ)
  | [] => some ([], s)
  | l :: ls => do
    let (r, s') ← exec s l
    let (es, s'') ← runsOf exec s' ls
    pure ((l, r) :: es, s'')

theorem Runs.of_runsOf {ρ : Type} {exec : σ → ℓ → Option (ρ × σ)} : ∀ {ls : List ℓ} {s s' : σ}
    {es : List (ℓ × ρ)}, runsOf exec s ls = some (es, s') →
    Runs (fun s e s' => exec s e.1 = some (e.2, s')) s es s'
  | [], s, s', es, h => by
    obtain ⟨rfl, rfl⟩ : [] = es ∧ s = s' := by simpa [runsOf] using h
    exact .nil _
  | l :: ls, s, s', es, h => by
    simp only [runsOf, Option.bind_eq_bind, Option.bind_eq_some_iff, Prod.exists] at h
    obtain ⟨r, s₁, h₁, es₁, s₂, h₂, h₃⟩ := h
    obtain ⟨rfl, rfl⟩ : (l, r) :: es₁ = es ∧ s₂ = s' := by simpa using h₃
    exact (Runs.snoc (Runs.nil s) h₁ : Runs _ s [(l, r)] s₁).append (Runs.of_runsOf h₂)

theorem runsOf_labels {ρ : Type} {exec : σ → ℓ → Option (ρ × σ)} : ∀ {ls : List ℓ} {s s' : σ}
    {es : List (ℓ × ρ)}, runsOf exec s ls = some (es, s') → es.map Prod.fst = ls
  | [], s, s', es, h => by
    obtain ⟨rfl, rfl⟩ : [] = es ∧ s = s' := by simpa [runsOf] using h
    rfl
  | l :: ls, s, s', es, h => by
    simp only [runsOf, Option.bind_eq_bind, Option.bind_eq_some_iff, Prod.exists] at h
    obtain ⟨r, s₁, -, es₁, s₂, h₂, h₃⟩ := h
    obtain ⟨rfl, rfl⟩ : (l, r) :: es₁ = es ∧ s₂ = s' := by simpa using h₃
    rw [List.map_cons, runsOf_labels h₂]

/-- A run with a property that can be checked by running it. -/
theorem Runs.exists_of_runsOf {ρ : Type} {exec : σ → ℓ → Option (ρ × σ)} {s : σ} (ls : List ℓ)
    {P : List (ℓ × ρ) → σ → Prop} [∀ es s, Decidable (P es s)]
    (h : (runsOf exec s ls).any (fun r => decide (P r.1 r.2)) = true) :
    ∃ es s', Runs (fun s e s' => exec s e.1 = some (e.2, s')) s es s' ∧ P es s' := by
  cases hr : runsOf exec s ls with
  | none => simp [hr] at h
  | some r =>
    rw [hr, Option.any_some] at h
    exact ⟨r.1, r.2, .of_runsOf hr, of_decide_eq_true h⟩

/-- A run and a further step, with a property that can be checked by running them. -/
theorem Runs.exists_step_of_runsOf {ρ : Type} {exec : σ → ℓ → Option (ρ × σ)} {s : σ} (ls : List ℓ)
    (l : ℓ) {P : List (ℓ × ρ) → σ → ρ → σ → Prop} [∀ es s r s', Decidable (P es s r s')]
    (h : (runsOf exec s ls).any (fun x =>
      (exec x.2 l).any fun y => decide (P x.1 x.2 y.1 y.2)) = true) :
    ∃ es s' r s'', Runs (fun s e s' => exec s e.1 = some (e.2, s')) s es s' ∧
      exec s' l = some (r, s'') ∧ P es s' r s'' := by
  cases hr : runsOf exec s ls with
  | none => simp [hr] at h
  | some x =>
    rw [hr, Option.any_some] at h
    cases he : exec x.2 l with
    | none => simp [he] at h
    | some y =>
      rw [he, Option.any_some] at h
      exact ⟨x.1, x.2, y.1, y.2, .of_runsOf hr, he, of_decide_eq_true h⟩

/-- The history that a list of labels makes. -/
def historyOf {ρ : Type} (exec : σ → ℓ → Option (ρ × σ)) (s : σ) :
    List ℓ → Option (List (σ × ℓ × ρ) × σ)
  | [] => some ([], s)
  | l :: ls => do
    let (r, s') ← exec s l
    let (hist, s'') ← historyOf exec s' ls
    pure ((s, l, r) :: hist, s'')

theorem Runs.of_historyOf {ρ : Type} {exec : σ → ℓ → Option (ρ × σ)} : ∀ {ls : List ℓ} {s s' : σ}
    {hist : List (σ × ℓ × ρ)}, historyOf exec s ls = some (hist, s') →
    Runs (Traced fun s e s' => exec s e.1 = some (e.2, s')) s hist s'
  | [], s, s', hist, h => by
    obtain ⟨rfl, rfl⟩ : [] = hist ∧ s = s' := by simpa [historyOf] using h
    exact .nil _
  | l :: ls, s, s', hist, h => by
    simp only [historyOf, Option.bind_eq_bind, Option.bind_eq_some_iff, Prod.exists] at h
    obtain ⟨r, s₁, h₁, hist₁, s₂, h₂, h₃⟩ := h
    obtain ⟨rfl, rfl⟩ : (s, l, r) :: hist₁ = hist ∧ s₂ = s' := by simpa using h₃
    exact (Runs.snoc (Runs.nil s) ⟨rfl, h₁⟩ : Runs _ s [(s, l, r)] s₁).append (Runs.of_historyOf h₂)

/-- A history with a property that can be checked by running it. -/
theorem Runs.exists_of_historyOf {ρ : Type} {exec : σ → ℓ → Option (ρ × σ)} {s : σ} (ls : List ℓ)
    {P : List (σ × ℓ × ρ) → σ → Prop} [∀ hist s, Decidable (P hist s)]
    (h : (historyOf exec s ls).any (fun r => decide (P r.1 r.2)) = true) :
    ∃ hist s', Runs (Traced fun s e s' => exec s e.1 = some (e.2, s')) s hist s' ∧ P hist s' := by
  cases hr : historyOf exec s ls with
  | none => simp [hr] at h
  | some r =>
    rw [hr, Option.any_some] at h
    exact ⟨r.1, r.2, .of_historyOf hr, of_decide_eq_true h⟩
