/-
  A slot for one message from an announced sender.

  The receiver arms the slot for a sender, the sender puts one message, the
  receiver takes it.  Taking does not empty the slot, it can be taken again, and
  it can be armed again at any time.

  * `Slot.Step`: the transitions, by an event, or by no event at all;
  * `Slot.full_history`: a full slot holds the last message that was put, from the
    sender for whom the slot was last armed;
  * `Slot.armed_history`: an armed slot was armed last;
  * `Slot.full_iff`: without a new message a full slot stays full until it is
    renewed, that is, reset or armed again;
  * `Slot.put_iff_arm`: between two takes a message was put if and only if the
    slot was armed.

  The events of a slot are read off the items of a longer history by a function
  `ev`, which gives `none` for an item that is not about the slot.
-/
import SecurityMonitor.Lib.Run

namespace Slot

variable {α β ι : Type}

inductive State (α β : Type) where
  | unused
  | armed (a : α)
  | full (a : α) (b : β)

inductive Event (α β : Type) where
  | reset
  | arm (a : α)
  | put (a : α) (b : β)
  | take
  deriving DecidableEq

inductive Step : State α β → Option (Event α β) → State α β → Prop
  | skip (s : State α β) : Step s none s
  | reset (s : State α β) : Step s (some .reset) .unused
  | arm (s : State α β) (a : α) : Step s (some (.arm a)) (.armed a)
  | put (a : α) (b : β) : Step (.armed a) (some (.put a b)) (.full a b)
  | take (a : α) (b : β) : Step (.full a b) (some .take) (.full a b)

/-- The runs of the slot over a history. -/
abbrev Run (ev : ι → Option (Event α β)) : State α β → List ι → State α β → Prop :=
  Runs fun s x s' => Step s (ev x) s'

variable {ev : ι → Option (Event α β)} {s s' : State α β} {h : List ι} {a a' : α} {b b' : β}

/-- An armed slot was armed last. -/
theorem armed_history (hr : Run ev .unused h (.armed a)) :
    ∃ h₁ x h₂, h = h₁ ++ x :: h₂ ∧ ev x = some (.arm a) ∧ ∀ y ∈ h₂, ev y = none := by
  refine Runs.invariant_events (I := fun h s => ∀ a, s = State.armed a →
    ∃ h₁ x h₂, h = h₁ ++ x :: h₂ ∧ ev x = some (.arm a) ∧ ∀ y ∈ h₂, ev y = none) hr nofun ?_ a rfl
  rintro h s x s' ih hs a rfl
  generalize hev : ev x = e at hs
  cases hs with
  | skip =>
    obtain ⟨h₁, y, h₂, rfl, hy, hq⟩ := ih a rfl
    refine ⟨h₁, y, h₂ ++ [x], by rw [List.append_assoc]; rfl, hy, fun z hz => ?_⟩
    rcases List.mem_append.mp hz with hz | hz
    · exact hq z hz
    · rw [List.mem_singleton.mp hz, hev]
  | arm => exact ⟨h, x, [], rfl, hev, nofun⟩

/-- A full slot holds what was put last, after the slot was armed last. -/
theorem full_history (hr : Run ev .unused h (.full a b)) :
    ∃ h₁ x h₂ y h₃, h = h₁ ++ x :: h₂ ++ y :: h₃ ∧ ev x = some (.arm a) ∧ ev y = some (.put a b) ∧
      (∀ z ∈ h₂, ev z = none) ∧ ∀ z ∈ h₃, ev z = none ∨ ev z = some .take := by
  refine (Runs.invariant_events (I := fun h s => Run ev .unused h s ∧ ∀ a b, s = State.full a b →
    ∃ h₁ x h₂ y h₃, h = h₁ ++ x :: h₂ ++ y :: h₃ ∧ ev x = some (.arm a) ∧ ev y = some (.put a b) ∧
      (∀ z ∈ h₂, ev z = none) ∧ ∀ z ∈ h₃, ev z = none ∨ ev z = some .take) hr ⟨.nil _, nofun⟩ ?_).2 a b rfl
  rintro h s x s' ⟨hrun, ih⟩ hs
  refine ⟨hrun.snoc hs, ?_⟩
  rintro a b rfl
  -- a step after which the slot still holds the message
  have hquiet (hs' : s = .full a b) (hx : ev x = none ∨ ev x = some .take) :
      ∃ h₁ x' h₂ y h₃, h ++ [x] = h₁ ++ x' :: h₂ ++ y :: h₃ ∧ ev x' = some (.arm a) ∧
        ev y = some (.put a b) ∧ (∀ z ∈ h₂, ev z = none) ∧ ∀ z ∈ h₃, ev z = none ∨ ev z = some .take := by
    obtain ⟨h₁, x', h₂, y, h₃, rfl, hx', hy, hq₂, hq₃⟩ := ih a b hs'
    refine ⟨h₁, x', h₂, y, h₃ ++ [x], by rw [List.append_assoc]; rfl, hx', hy, hq₂, fun z hz => ?_⟩
    rcases List.mem_append.mp hz with hz | hz
    · exact hq₃ z hz
    · rw [List.mem_singleton.mp hz]; exact hx
  generalize hev : ev x = e at hs
  cases hs with
  | skip => exact hquiet rfl (.inl hev)
  | put =>
    obtain ⟨h₁, y, h₂, rfl, hy, hq⟩ := armed_history hrun
    exact ⟨h₁, y, h₂, x, [], rfl, hy, hev, hq, nofun⟩
  | take => exact hquiet rfl (.inr hev)

/-- Without being armed, a full slot gets no new message. -/
theorem not_put_of_not_arm (hr : Run ev (.full a b) h s) (hn : ∀ x ∈ h, ∀ a, ev x ≠ some (.arm a)) :
    (∀ x ∈ h, ∀ a b, ev x ≠ some (.put a b)) ∧ ∀ a, s ≠ .armed a := by
  refine Runs.invariant_events (I := fun h s => (∀ x ∈ h, ∀ a, ev x ≠ some (.arm a)) →
    (∀ x ∈ h, ∀ a b, ev x ≠ some (.put a b)) ∧ ∀ a, s ≠ State.armed a) hr (fun _ => ⟨nofun, nofun⟩) ?_ hn
  intro h s x s' ih hs hn
  obtain ⟨hput, hs'⟩ := ih fun y hy => hn y (List.mem_append_left _ hy)
  have hx := hn x (List.mem_append_right _ (List.mem_singleton_self x))
  have hlast (hne : ∀ a b, ev x ≠ some (.put a b)) : ∀ y ∈ h ++ [x], ∀ a b, ev y ≠ some (.put a b) := by
    intro y hy
    rcases List.mem_append.mp hy with hy | hy
    · exact hput y hy
    · rw [List.mem_singleton.mp hy]; exact hne
  generalize hev : ev x = e at hs hx hlast
  cases hs with
  | skip => exact ⟨hlast nofun, hs'⟩
  | reset => exact ⟨hlast nofun, nofun⟩
  | arm => exact absurd rfl (hx _)
  | put a => exact absurd rfl (hs' a)
  | take => exact ⟨hlast nofun, nofun⟩

/-- The event frees the slot for a new message. -/
def Renews (e : Option (Event α β)) : Prop := e = some .reset ∨ ∃ a, e = some (.arm a)

/-- **Without a new message a full slot stays full until it is renewed.** -/
theorem full_iff (hr : Run ev (.full a b) h s) (hn : ∀ x ∈ h, ∀ a b, ev x ≠ some (.put a b)) :
    (∃ a b, s = .full a b) ↔ ∀ x ∈ h, ¬ Renews (ev x) := by
  refine Runs.invariant_events (I := fun h s => (∀ x ∈ h, ∀ a b, ev x ≠ some (.put a b)) →
    ((∃ a b, s = State.full a b) ↔ ∀ x ∈ h, ¬ Renews (ev x))) hr (fun _ => ⟨nofun, fun _ => ⟨a, b, rfl⟩⟩)
    ?_ hn
  intro h s x s' ih hs hn
  have ih := ih fun y hy => hn y (List.mem_append_left _ hy)
  have hx := hn x (List.mem_append_right _ (List.mem_singleton_self x))
  simp only [List.forall_mem_append, List.forall_mem_singleton]
  generalize hev : ev x = e at hs hx
  cases hs with
  | skip => simpa [Renews] using ih
  | reset => simp [Renews]
  | arm => simp [Renews]
  | put a b => exact absurd rfl (hx a b)
  | take => simpa [Renews] using ih

/-- **A message is put between two takes if and only if the slot is armed between them.** -/
theorem put_iff_arm (hr : Run ev (.full a b) h (.full a' b')) :
    (∃ x ∈ h, ∃ a b, ev x = some (.put a b)) ↔ ∃ x ∈ h, ∃ a, ev x = some (.arm a) := by
  constructor
  · rintro ⟨x, hx, a, b, hev⟩
    by_contra hn
    push Not at hn
    exact (not_put_of_not_arm hr hn).1 x hx a b hev
  · intro harm
    by_contra hn
    push Not at hn
    obtain ⟨x, hx, a, hev⟩ := harm
    exact (full_iff hr hn).mp ⟨_, _, rfl⟩ x hx (.inr ⟨a, hev⟩)

end Slot
