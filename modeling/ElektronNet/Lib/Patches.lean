import Mathlib.Order.Lattice
import Mathlib.Order.Basic
import Mathlib.Data.List.Basic

/-!
# A list put together from patches

A patch is a list that is written at an offset.  What is left of an older list shows where no patch
was written.

* `overwrite fill l offset data`   `l` with `data` at `offset`, filled up to there if it is shorter
* `Covered`, `Written`     a position that some patch has, and one that shows what some patch wrote
* `Assembled held size ps l`   `l` began with `held` elements and has taken the patches `ps`, all
                           within `size`
* `Assembled.exact_iff`    once the patches cover `size`, the list is exactly what they wrote if and
                           only if it did not begin longer
-/

namespace Patches

variable {α : Type}

section
variable (fill : α) (l : List α) (offset : Nat)

def overwrite (data : List α) : List α :=
  l.take offset ++ List.replicate (offset - l.length) fill ++ data ++ l.drop (offset + data.length)

theorem length_filled : (l.take offset ++ List.replicate (offset - l.length) fill).length = offset := by
  rw [List.length_append, List.length_take, List.length_replicate]
  omega

theorem length_overwrite (data : List α) :
    (overwrite fill l offset data).length = max l.length (offset + data.length) := by
  rw [overwrite, List.length_append, List.length_append, length_filled, List.length_drop]
  omega

end

variable {offset : Nat} {data l : List α} {ps : List (Nat × List α)}

theorem overwrite_inside (fill : α) (l : List α) {i : Nat} (hlow : offset ≤ i)
    (hhigh : i < offset + data.length) :
    (overwrite fill l offset data)[i]? = data[i - offset]? := by
  have hlen := length_filled fill l offset
  rw [overwrite, List.getElem?_append_left, List.getElem?_append_right, hlen]
  · omega
  · rw [List.length_append, hlen]
    exact hhigh

theorem overwrite_outside (fill : α) {i : Nat} (hi : i < l.length)
    (hout : i < offset ∨ offset + data.length ≤ i) :
    (overwrite fill l offset data)[i]? = l[i]? := by
  have hlen := length_filled fill l offset
  rcases hout with hlow | hhigh
  · have htake : i < (l.take offset).length := by
      rw [List.length_take]
      omega
    rw [overwrite, List.append_assoc, List.append_assoc, List.getElem?_append_left htake,
      List.getElem?_take_of_lt hlow]
  · have hfront : (l.take offset ++ List.replicate (offset - l.length) fill ++ data).length =
        offset + data.length := by
      rw [List.length_append, hlen]
    rw [overwrite, List.getElem?_append_right (hfront ▸ hhigh), hfront, List.getElem?_drop,
      Nat.add_sub_cancel' hhigh]

def Covered (ps : List (Nat × List α)) (i : Nat) : Prop :=
  ∃ p ∈ ps, p.1 ≤ i ∧ i < p.1 + p.2.length

/-- the list shows at the position what a patch wrote there -/
def Written (ps : List (Nat × List α)) (l : List α) (i : Nat) : Prop :=
  ∃ p ∈ ps, p.1 ≤ i ∧ i < p.1 + p.2.length ∧ l[i]? = p.2[i - p.1]?

theorem Covered.cons {i : Nat} (h : Covered ps i) (p : Nat × List α) : Covered (p :: ps) i := by
  obtain ⟨q, hq, hin⟩ := h
  exact ⟨q, List.mem_cons_of_mem p hq, hin⟩

theorem Written.lt_length {i : Nat} (h : Written ps l i) : i < l.length := by
  obtain ⟨p, -, hlow, hhigh, heq⟩ := h
  by_contra hi
  rw [List.getElem?_eq_none (Nat.le_of_not_lt hi)] at heq
  have := List.getElem?_eq_none_iff.mp heq.symm
  omega

structure Assembled (held size : Nat) (ps : List (Nat × List α)) (l : List α) : Prop where
  held_le : held ≤ l.length
  length_le : l.length ≤ max held size
  written : ∀ i, Covered ps i → Written ps l i

theorem Assembled.begin (l : List α) (size : Nat) : Assembled l.length size [] l where
  held_le := le_rfl
  length_le := le_max_left _ _
  written := by
    rintro i ⟨p, hp, -⟩
    exact absurd hp List.not_mem_nil

theorem Assembled.overwrite {held size : Nat} (h : Assembled held size ps l) (fill : α)
    (hfits : offset + data.length ≤ size) :
    Assembled held size ((offset, data) :: ps) (overwrite fill l offset data) := by
  have hlow := h.held_le
  have hhigh := h.length_le
  refine ⟨?_, ?_, fun i hcov => ?_⟩
  · rw [length_overwrite]
    omega
  · rw [length_overwrite]
    omega
  · by_cases hin : offset ≤ i ∧ i < offset + data.length
    · exact ⟨(offset, data), List.mem_cons_self, hin.1, hin.2, overwrite_inside fill l hin.1 hin.2⟩
    · -- an older patch covers the position, and the new one leaves it as it was
      obtain ⟨q, hq, hlow', hhigh'⟩ := hcov
      rcases List.mem_cons.mp hq with rfl | hq
      · exact absurd ⟨hlow', hhigh'⟩ hin
      · have hold : Written ps l i := h.written i ⟨q, hq, hlow', hhigh'⟩
        have hout : i < offset ∨ offset + data.length ≤ i := by omega
        have hsame := overwrite_outside fill hold.lt_length hout
        obtain ⟨p, hp, hp₁, hp₂, heq⟩ := hold
        exact ⟨p, List.mem_cons_of_mem _ hp, hp₁, hp₂, hsame.trans heq⟩

/-- **the list is what the patches wrote, and nothing else, unless it began longer** -/
theorem Assembled.exact_iff {held size : Nat} (h : Assembled held size ps l) (hsize : 0 < size)
    (hcov : ∀ i, i < size → Covered ps i) :
    (l.length = size ∧ ∀ i, i < l.length → Written ps l i) ↔ held ≤ size := by
  have hlow := h.held_le
  have hhigh := h.length_le
  constructor
  · rintro ⟨hlen, -⟩
    omega
  · intro hheld
    have hlast : size - 1 < l.length := (h.written _ (hcov (size - 1) (by omega))).lt_length
    have hlen : l.length = size := by omega
    refine ⟨hlen, fun i hi => h.written i (hcov i ?_)⟩
    omega

end Patches
