import Mathlib.Logic.Function.Basic

/-!
# Records in files

A record occupies a half-open range of one file.  A family of records is apart when no two of them
meet, and it stays so when a record is added behind the others of its file (`Apart.append`) or when
records go (`Apart.mono`).
-/

namespace Extents

structure Extent (F : Type) where
  file : F
  start : Nat
  stop : Nat
deriving DecidableEq

variable {K F : Type}

/-- no byte in common -/
def Extent.Clear (x y : Extent F) : Prop := x.file = y.file → x.stop ≤ y.start ∨ y.stop ≤ x.start

theorem Extent.Clear.symm {x y : Extent F} (h : x.Clear y) : y.Clear x := fun hf => (h hf.symm).symm

def Apart (r : K → Option (Extent F)) : Prop :=
  ∀ j k x y, j ≠ k → r j = some x → r k = some y → x.Clear y

theorem Apart.mono {r r' : K → Option (Extent F)} (h : Apart r)
    (hr : ∀ k x, r' k = some x → r k = some x) : Apart r' :=
  fun j k x y hjk hj hk => h j k x y hjk (hr j x hj) (hr k y hk)

/-- every record of the file of `x` ends before it -/
def Behind (r : K → Option (Extent F)) (k : K) (x : Extent F) : Prop :=
  ∀ j y, j ≠ k → r j = some y → y.file = x.file → y.stop ≤ x.start

theorem Apart.append {r r' : K → Option (Extent F)} (h : Apart r) {k : K} {x : Extent F}
    (hx : Behind r k x) (hk : r' k = some x) (hr : ∀ j, j ≠ k → r' j = r j) : Apart r' := by
  -- the new record against an old one, in one order
  have hnew : ∀ j y, j ≠ k → r' j = some y → y.Clear x := by
    intro j y hj hy hf
    rw [hr j hj] at hy
    exact Or.inl (hx j y hj hy hf)
  intro i j y z hij hi hj
  by_cases hik : i = k
  · subst hik
    rw [hk] at hi
    cases hi
    exact (hnew j z hij.symm hj).symm
  · by_cases hjk : j = k
    · subst hjk
      rw [hk] at hj
      cases hj
      exact hnew i y hik hi
    · rw [hr i hik] at hi
      rw [hr j hjk] at hj
      exact h i j y z hij hi hj

end Extents
