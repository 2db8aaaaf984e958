import MiniLisp.Machine

/-!
# Actions: their parts, and what they leave

An action whose first part has a result goes on from there, and one whose first part fails ends with that failure. Whichever way an
action ends, it leaves a machine (`Action.after`).
-/

namespace MiniLisp.Action

variable {α β : Type}

/-- If the first part of an action has a result, the second part goes on from there. -/
theorem bind_of_ok {a : Action α} {m m' : Machine} {v : α} (f : α → Action β) (h : a m = .ok v m') :
    (a >>= f) m = f v m' := by
  show EStateM.bind a f m = f v m'
  simp [EStateM.bind, h]

/-- If the first part of an action has no result, the action ends with it. -/
theorem bind_of_error {a : Action α} {m m' : Machine} {e : Abort} (f : α → Action β) (h : a m = .error e m') :
    (a >>= f) m = .error e m' := by
  show EStateM.bind a f m = .error e m'
  simp [EStateM.bind, h]

/-- An action has a result only if both of its parts have one. -/
theorem bind_eq_ok {a : Action α} {f : α → Action β} {m m'' : Machine} {w : β} (h : (a >>= f) m = .ok w m'') :
    ∃ v m', a m = .ok v m' ∧ f v m' = .ok w m'' := by
  have hb : EStateM.bind a f m = .ok w m'' := h
  unfold EStateM.bind at hb
  split at hb
  · rename_i v m' ha
    exact ⟨v, m', ha, hb⟩
  · cases hb

/-- An action fails in its first part, or in what follows it. -/
theorem bind_eq_error {a : Action α} {f : α → Action β} {m m' : Machine} {e : Abort} (h : (a >>= f) m = .error e m') :
    a m = .error e m' ∨ ∃ v m₁, a m = .ok v m₁ ∧ f v m₁ = .error e m' := by
  cases ha : a m with
  | ok v m₁ =>
    rw [bind_of_ok f ha] at h
    exact .inr ⟨v, m₁, rfl, h⟩
  | error e' m₁ =>
    rw [bind_of_error f ha] at h
    cases h
    exact .inl rfl

/-- Two actions with the same first part are the same if they go on in the same way from whatever it gives. -/
theorem bind_congr_of_ok {a : Action α} {f g : α → Action β} (h : ∀ v m m', a m = .ok v m' → f v = g v) :
    (a >>= f) = (a >>= g) := by
  funext m
  show EStateM.bind a f m = EStateM.bind a g m
  unfold EStateM.bind
  cases ha : a m with
  | ok v m' => simp only [h v m m' ha]
  | error e m' => rfl

/-- First parts that end in the same way are followed by the same. -/
theorem bind_congr_of_eq {a b : Action α} {m : Machine} (f : α → Action β) (h : a m = b m) :
    (a >>= f) m = (b >>= f) m := by
  show EStateM.bind a f m = EStateM.bind b f m
  simp only [EStateM.bind, h]

/-- A nested action that has a result had it one level deeper. -/
theorem of_nested_eq_ok {a : Action α} {v : α} {m m' : Machine} (h : nested a m = .ok v m') :
    ∃ m₁, a { m with depth := m.depth + 1 } = .ok v m₁ ∧ m' = { m₁ with depth := m₁.depth - 1 } := by
  unfold nested at h
  split at h
  · cases h
  · split at h
    · rename_i w m₁ ha
      cases h
      exact ⟨m₁, ha, rfl⟩
    · cases h

/-- A nested action that fails was nested too deep, or it failed one level deeper. -/
theorem of_nested_eq_error {a : Action α} {e : Abort} {m m' : Machine} (h : nested a m = .error e m') :
    (m.limits.maxDepth ≤ m.depth ∧ m' = m) ∨
      m.depth < m.limits.maxDepth ∧
        ∃ m₁, a { m with depth := m.depth + 1 } = .error e m₁ ∧ m' = { m₁ with depth := m₁.depth - 1 } := by
  unfold nested at h
  split at h
  · rename_i hd
    cases h
    exact .inl ⟨hd, rfl⟩
  · rename_i hd
    split at h
    · cases h
    · rename_i e' m₁ ha
      cases h
      exact .inr ⟨by omega, m₁, ha, rfl⟩

/-- Two actions that do the same one level deeper do the same when nested. -/
theorem nested_congr {a b : Action α} {m : Machine}
    (h : a { m with depth := m.depth + 1 } = b { m with depth := m.depth + 1 }) : nested a m = nested b m := by
  simp only [nested, h]

/-- An action that leaves the machine alone one level deeper leaves it alone when nested. -/
theorem nested_of_ok {a : Action α} {v : α} {m : Machine} (hd : m.depth < m.limits.maxDepth)
    (h : a { m with depth := m.depth + 1 } = .ok v { m with depth := m.depth + 1 }) : nested a m = .ok v m := by
  have hn : ¬m.limits.maxDepth ≤ m.depth := by omega
  simp [nested, hn, h]

/-- An action that fails one level deeper fails when nested, back on its level. -/
theorem nested_of_error {a : Action α} {e : Abort} {m m' : Machine} (hd : m.depth < m.limits.maxDepth)
    (h : a { m with depth := m.depth + 1 } = .error e m') : nested a m = .error e { m' with depth := m'.depth - 1 } := by
  have hn : ¬m.limits.maxDepth ≤ m.depth := by omega
  simp [nested, hn, h]

/-! ## The machine that is left -/

/-- The machine that an action leaves, however it ends. -/
def after (a : Action α) (m : Machine) : Machine :=
  match a m with
  | .ok _ m' => m'
  | .error _ m' => m'

/-- Where an action has a result, the machine of the result is left. -/
theorem after_eq_of_ok {a : Action α} {m m' : Machine} {v : α} (h : a m = .ok v m') : after a m = m' := by
  simp [after, h]

/-- Where an action fails, the machine of the failure is left. -/
theorem after_eq_of_error {a : Action α} {m m' : Machine} {e : Abort} (h : a m = .error e m') : after a m = m' := by
  simp [after, h]

/-- If the first part of an action has a result, the action leaves what the second part leaves. -/
theorem after_bind_of_ok {a : Action α} {m m' : Machine} {v : α} (f : α → Action β) (h : a m = .ok v m') :
    after (a >>= f) m = after (f v) m' := by
  simp [after, bind_of_ok f h]

/-- If the first part of an action has no result, the action leaves what the first part leaves. -/
theorem after_bind_of_error {a : Action α} {m m' : Machine} {e : Abort} (f : α → Action β) (h : a m = .error e m') :
    after (a >>= f) m = m' :=
  after_eq_of_error (bind_of_error f h)

/-- An action that is nested too deep is not begun. -/
theorem after_nested_of_le (a : Action α) {m : Machine} (h : m.limits.maxDepth ≤ m.depth) : after (nested a) m = m := by
  simp [after, nested, h]

/-- A nested action works one level deeper, and leaves the level however it ends. -/
theorem after_nested (a : Action α) {m : Machine} (h : m.depth < m.limits.maxDepth) :
    after (nested a) m =
      let m' := after a { m with depth := m.depth + 1 }
      { m' with depth := m'.depth - 1 } := by
  have hn : ¬m.limits.maxDepth ≤ m.depth := by omega
  simp only [after, nested, hn, if_false]
  cases a { m with depth := m.depth + 1 } <;> rfl

end MiniLisp.Action
