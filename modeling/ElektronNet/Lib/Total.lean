import Mathlib.Algebra.BigOperators.Finprod
import ElektronNet.Lib.FMap

/-!
# Totals of finite holdings

Every key holds an integer, and all but finitely many hold nothing.  The total is the sum over all
keys, so that a holding may change its support without a word about the summation range.

* `FMap.total w m`      the weights of the entries of a finite map, and `total_eq_finsum`
* `finsum_le_add`       one key gains at most `d`, no other key gains: the total gains at most `d`
-/

namespace FMap

section
variable {K V : Type}

section
variable (w : V → ℤ) (m : FMap K V)

def weight (k : K) : ℤ := (m.get k).elim 0 w

def total : ℤ := ∑ k ∈ m.dom, weight w m k

theorem support_weight : (weight w m).support ⊆ m.dom := by
  intro k hk
  by_contra hmem
  have hnone : m.get k = none := (get_eq_none_iff m k).mpr hmem
  exact hk (by rw [weight, hnone]; rfl)

theorem total_eq_finsum : total w m = ∑ᶠ k, weight w m k :=
  (finsum_eq_sum_of_support_subset _ (support_weight w m)).symm

end

end

end FMap

namespace Holdings

variable {K : Type} {f g : K → ℤ}

theorem finsum_le_add (hf : f.support.Finite) (hg : g.support.Finite) {k : K} {d : ℤ}
    (hk : g k ≤ f k + d) (hne : ∀ j, j ≠ k → g j ≤ f j) : ∑ᶠ j, g j ≤ ∑ᶠ j, f j + d := by
  classical
  -- the gain is a holding of its own, with `d` at `k`
  have hgain : (fun j => if j = k then d else 0).support.Finite :=
    (Set.finite_singleton k).subset fun j hj => by
      by_contra hjk
      exact hj (if_neg hjk)
  have hle : g ≤ fun j => f j + if j = k then d else 0 := by
    intro j
    by_cases hjk : j = k
    · subst hjk
      simpa using hk
    · simpa [hjk] using hne j hjk
  calc ∑ᶠ j, g j ≤ ∑ᶠ j, (f j + if j = k then d else 0) :=
        finsum_le_finsum' hg ((hf.union hgain).subset (Function.support_add f _)) hle
    _ = ∑ᶠ j, f j + ∑ᶠ j, (if j = k then d else 0) := finsum_add_distrib hf hgain
    _ = ∑ᶠ j, f j + d := by
        rw [finsum_eq_single _ k fun j hj => if_neg hj, if_pos rfl]

end Holdings
