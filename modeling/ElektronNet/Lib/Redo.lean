import ElektronNet.Lib.FMap

/-!
# Doing an interrupted change again

A change of a finite map `Overwrites` if it treats each key blindly: it keeps it, or sets it to a
value that does not depend on the map.  Such a change may be stopped after some of its keys were
written and then be done again from the start (`redo`), or be followed by one that takes it back
(`meet`).
-/

set_option linter.unusedSectionVars false

namespace Redo

variable {K V : Type} [DecidableEq K]

def Overwrites (f : FMap K V → FMap K V) : Prop :=
  ∀ k, (∀ m, (f m).get k = m.get k) ∨ ∃ v, ∀ m, (f m).get k = v

theorem overwrites_id : Overwrites (id : FMap K V → FMap K V) := fun _ => .inl fun _ => rfl

theorem overwrites_insert (k : K) (v : V) : Overwrites (FMap.insert k v) := by
  intro j
  by_cases h : j = k
  · exact .inr ⟨some v, fun m => by rw [FMap.insert_get, if_pos h]⟩
  · exact .inl fun m => by rw [FMap.insert_get, if_neg h]

theorem overwrites_erase (k : K) : Overwrites (FMap.erase k : FMap K V → FMap K V) := by
  intro j
  by_cases h : j = k
  · exact .inr ⟨none, fun m => by rw [FMap.erase_get, if_pos h]⟩
  · exact .inl fun m => by rw [FMap.erase_get, if_neg h]

theorem Overwrites.comp {f g : FMap K V → FMap K V} (hg : Overwrites g) (hf : Overwrites f) :
    Overwrites (g ∘ f) := by
  intro k
  rcases hg k with hkeep | ⟨v, hset⟩
  · rcases hf k with hkeep' | ⟨v, hset⟩
    · exact .inl fun m => (hkeep (f m)).trans (hkeep' m)
    · exact .inr ⟨v, fun m => (hkeep (f m)).trans (hset m)⟩
  · exact .inr ⟨v, fun m => hset (f m)⟩

/-- **a change that was stopped half way, done again from the start** -/
theorem Overwrites.redo {f : FMap K V → FMap K V} (hf : Overwrites f) {m m₀ : FMap K V}
    (h : ∀ k, m.get k = m₀.get k ∨ m.get k = (f m₀).get k) : f m = f m₀ := by
  refine FMap.ext_get fun k => ?_
  rcases hf k with hkeep | ⟨v, hset⟩
  · rw [hkeep, hkeep]
    rcases h k with hk | hk
    · exact hk
    · rw [hk, hkeep]
  · rw [hset, hset]

theorem Overwrites.meet {f : FMap K V → FMap K V} (hf : Overwrites f) {m old new fork : FMap K V}
    (hfork : f old = fork) (h : ∀ k, m.get k = old.get k ∨ m.get k = new.get k) (k : K) :
    (f m).get k = fork.get k ∨ (f m).get k = new.get k := by
  rcases hf k with hkeep | ⟨v, hset⟩
  · rw [hkeep, ← hfork, hkeep]
    exact h k
  · rw [hset, ← hfork, hset]
    exact Or.inl rfl

end Redo
