import ElektronNet.Lib.Outcome

/-!
# Loops that stop at the first failure

`for (a : as) if (!f(a)) return false; return true;` over a state that `f` changes, also when it
fails.  A step may end the program, so the result is in `Except`.

* `forEach_total`   the loop ends if every step does
* `forEach_cases`   an invariant of the steps holds at the end, or the loop was left at an element
                    that failed, and up to there the invariant held
-/

namespace Loop

variable {ε α σ : Type}

def forEach (f : α → σ → Except ε (Bool × σ)) : List α → σ → Except ε (Bool × σ)
  | [], s => .ok (true, s)
  | a :: as, s => do
    let r ← f a s
    if r.1 then forEach f as r.2 else pure (false, r.2)

variable {f : α → σ → Except ε (Bool × σ)}

theorem forEach_total (h : ∀ a s, ∃ r, f a s = .ok r) (as : List α) (s : σ) :
    ∃ r, forEach f as s = .ok r := by
  induction as generalizing s with
  | nil => exact ⟨_, rfl⟩
  | cons a as ih =>
    obtain ⟨⟨b, s'⟩, hr⟩ := h a s
    cases b with
    | true =>
      obtain ⟨r, hrest⟩ := ih s'
      exact ⟨r, Outcome.bind_eq_ok.mpr ⟨_, hr, hrest⟩⟩
    | false => exact ⟨_, Outcome.bind_eq_ok.mpr ⟨_, hr, rfl⟩⟩

/-- **the result of a loop whose steps keep an invariant** -/
theorem forEach_cases {I : List α → σ → Prop}
    (hstep : ∀ done a s s', I done s → f a s = .ok (true, s') → I (done ++ [a]) s')
    {as done : List α} {s s' : σ} {b : Bool} (hI : I done s) (h : forEach f as s = .ok (b, s')) :
    (b = true ∧ I (done ++ as) s') ∨
      (b = false ∧ ∃ as₁ a as₂ s₁, as = as₁ ++ a :: as₂ ∧ I (done ++ as₁) s₁ ∧
        f a s₁ = .ok (false, s')) := by
  induction as generalizing done s with
  | nil =>
    cases h
    rw [List.append_nil]
    exact .inl ⟨rfl, hI⟩
  | cons a as ih =>
    obtain ⟨⟨ok, s₁⟩, hfirst, hrest⟩ := Outcome.bind_eq_ok.mp h
    cases ok with
    | false =>
      cases hrest
      refine .inr ⟨rfl, [], a, as, s, rfl, ?_, hfirst⟩
      rwa [List.append_nil]
    | true =>
      rcases ih (hstep done a s s₁ hI hfirst) hrest with ⟨hb, hend⟩ |
        ⟨hb, as₁, a', as₂, s₂, hsplit, hI₂, hfail⟩
      · rw [List.append_assoc] at hend
        exact .inl ⟨hb, hend⟩
      · rw [List.append_assoc] at hI₂
        exact .inr ⟨hb, a :: as₁, a', as₂, s₂, by rw [hsplit]; rfl, hI₂, hfail⟩

end Loop
