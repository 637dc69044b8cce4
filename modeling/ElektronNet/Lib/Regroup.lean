import Mathlib.Data.Nat.Bitwise
import Mathlib.Data.List.Induction
import Mathlib.Tactic.Ring

/-!
# Regrouped bits

Digits of `f` bits, the most significant first, are shifted into an accumulator, and a digit of `w` bits is
put out whenever there are enough bits.

* `number k l`      the number that the digits of `k` bits stand for
* `regroup`         the loop; the bits that are left over make one more digit if `pad` is set
* `readAll_spec`    the digits that were put out stand for the number without the bits that are left
* `regroup_regroup`   there and back, if no bits are left over
-/

namespace Regroup

def number (k : Nat) (l : List Nat) : Nat := l.foldl (fun n d => n * 2 ^ k + d) 0

theorem number_append_singleton (k : Nat) (l : List Nat) (d : Nat) :
    number k (l ++ [d]) = number k l * 2 ^ k + d := by
  rw [number, List.foldl_append]
  rfl

theorem number_injective {k : Nat} {l l' : List Nat} (hlen : l.length = l'.length)
    (hl : ∀ d ∈ l, d < 2 ^ k) (hl' : ∀ d ∈ l', d < 2 ^ k) (h : number k l = number k l') : l = l' := by
  induction l using List.reverseRecOn generalizing l' with
  | nil => exact (List.length_eq_zero_iff.mp hlen.symm).symm
  | append_singleton l d ih =>
    rcases List.eq_nil_or_concat l' with rfl | ⟨m, d', rfl⟩
    · simp at hlen
    · have hd : d < 2 ^ k := hl d (by simp)
      have hd' : d' < 2 ^ k := hl' d' (by simp)
      have hsame : l.length = m.length := by simpa using hlen
      rw [number_append_singleton, List.concat_eq_append, number_append_singleton] at h
      have hlow : d = d' := by
        have hmod := congrArg (· % 2 ^ k) h
        simpa [Nat.mod_eq_of_lt hd, Nat.mod_eq_of_lt hd'] using hmod
      have hhigh : number k l = number k m := by
        rw [hlow] at h
        exact Nat.eq_of_mul_eq_mul_right (Nat.two_pow_pos k) (Nat.add_right_cancel h)
      rw [hlow, List.concat_eq_append, ih hsame (fun x hx => hl x (by simp [hx]))
        (fun x hx => hl' x (by simp [hx])) hhigh]

/-! ## the loop -/

/-- the digits that `bits` bits of the accumulator make, and the number of bits that are left -/
def drain (w acc : Nat) : Nat → Nat → List Nat × Nat
  | 0, bits => ([], bits)
  | n + 1, bits =>
    if w ≤ bits then
      let r := drain w acc n (bits - w)
      (((acc >>> (bits - w)) &&& (2 ^ w - 1)) :: r.1, r.2)
    else ([], bits)

structure State where
  acc : Nat
  bits : Nat
  out : List Nat

def read (f w : Nat) (st : State) (value : Nat) : State :=
  let acc := ((st.acc <<< f) ||| value) &&& (2 ^ (f + w - 1) - 1)
  let r := drain w acc (st.bits + f) (st.bits + f)
  ⟨acc, r.2, st.out ++ r.1⟩

def readAll (f w : Nat) (l : List Nat) : State := l.foldl (read f w) ⟨0, 0, []⟩

def regroup (f w : Nat) (pad : Bool) (l : List Nat) : List Nat :=
  let st := readAll f w l
  if pad = true ∧ st.bits ≠ 0 then st.out ++ [(st.acc <<< (w - st.bits)) &&& (2 ^ w - 1)] else st.out

/-- what is known after the digits `l` -/
structure Read (f w : Nat) (l : List Nat) (st : State) : Prop where
  acc : st.acc = number f l % 2 ^ (f + w - 1)
  bits : st.bits < w
  length : f * l.length = w * st.out.length + st.bits
  value : number w st.out = number f l / 2 ^ st.bits
  small : ∀ d ∈ st.out, d < 2 ^ w

theorem and_mask_lt (n w : Nat) : n &&& (2 ^ w - 1) < 2 ^ w := by
  rw [Nat.and_two_pow_sub_one_eq_mod]
  exact Nat.mod_lt _ (Nat.two_pow_pos w)

/-- every digit that is put out is the next one of the number `N`, of which the accumulator has the last
bits -/
theorem drain_spec {w m N acc : Nat} (hw : 0 < w) (hacc : acc = N % 2 ^ m) {n bits : Nat} (hn : bits ≤ n)
    (hbits : bits ≤ m) :
    (drain w acc n bits).2 < w ∧
      bits = w * (drain w acc n bits).1.length + (drain w acc n bits).2 ∧
      (∀ d ∈ (drain w acc n bits).1, d < 2 ^ w) ∧
      ∀ out, number w out = N / 2 ^ bits →
        number w (out ++ (drain w acc n bits).1) = N / 2 ^ (drain w acc n bits).2 := by
  induction n generalizing bits with
  | zero =>
    obtain rfl : bits = 0 := by omega
    refine ⟨hw, rfl, (fun d hd => by cases hd), fun out hout => ?_⟩
    show number w (out ++ []) = N / 2 ^ 0
    rw [List.append_nil]
    exact hout
  | succ n ih =>
    unfold drain
    split
    · rename_i hle
      obtain ⟨hleft, hlen, hsmall, hvalue⟩ := @ih (bits - w) (by omega) (by omega)
      -- the digit is the low one of the number above the bits that are left
      have hdigit : (acc >>> (bits - w)) &&& (2 ^ w - 1) = N / 2 ^ (bits - w) % 2 ^ w := by
        rw [Nat.and_two_pow_sub_one_eq_mod, Nat.shiftRight_eq_div_pow, hacc,
          show m = (bits - w) + (m - (bits - w)) by omega, pow_add, Nat.mod_mul_right_div_self,
          Nat.mod_mod_of_dvd _ (pow_dvd_pow 2 (by omega : w ≤ m - (bits - w)))]
      refine ⟨hleft, ?_, ?_, fun out hout => ?_⟩
      · simp only [List.length_cons, Nat.mul_add, Nat.mul_one]
        omega
      · intro d hd
        rcases List.mem_cons.mp hd with rfl | hd
        · exact and_mask_lt _ w
        · exact hsmall d hd
      · have hnext : number w (out ++ [(acc >>> (bits - w)) &&& (2 ^ w - 1)]) = N / 2 ^ (bits - w) := by
          have hsplit : N / 2 ^ bits = N / 2 ^ (bits - w) / 2 ^ w := by
            rw [Nat.div_div_eq_div_mul, ← pow_add, Nat.sub_add_cancel hle]
          rw [number_append_singleton, hout, hdigit, hsplit, Nat.mul_comm]
          exact Nat.div_add_mod _ _
        have happ := hvalue _ hnext
        rw [List.append_assoc] at happ
        exact happ
    · rename_i hlt
      refine ⟨by omega, by simp, (fun d hd => by cases hd), fun out hout => ?_⟩
      rw [List.append_nil]
      exact hout

theorem read_spec {f w v : Nat} (hw : 0 < w) {l : List Nat} {st : State} (h : Read f w l st)
    (hv : v < 2 ^ f) : Read f w (l ++ [v]) (read f w st v) := by
  have hacc : ((st.acc <<< f) ||| v) &&& (2 ^ (f + w - 1) - 1) = number f (l ++ [v]) % 2 ^ (f + w - 1) := by
    rw [Nat.and_two_pow_sub_one_eq_mod, ← Nat.shiftLeft_add_eq_or_of_lt hv, Nat.shiftLeft_eq, h.acc,
      number_append_singleton, Nat.add_mod, Nat.mul_mod, Nat.mod_mod, ← Nat.mul_mod, ← Nat.add_mod]
  have hbits := h.bits
  obtain ⟨hleft, hlen, hsmall, hvalue⟩ := drain_spec hw hacc (le_refl (st.bits + f))
    (by omega)
  have hbefore : number w st.out = number f (l ++ [v]) / 2 ^ (st.bits + f) := by
    rw [h.value, number_append_singleton, Nat.add_comm st.bits, pow_add, ← Nat.div_div_eq_div_mul,
      Nat.mul_comm, Nat.mul_add_div (Nat.two_pow_pos f), Nat.div_eq_of_lt hv, Nat.add_zero]
  unfold read
  refine ⟨hacc, hleft, ?_, hvalue _ hbefore, ?_⟩
  · have hlength := h.length
    dsimp only
    rw [List.length_append, List.length_append, List.length_singleton, Nat.mul_add, Nat.mul_add]
    omega
  · intro d hd
    rcases List.mem_append.mp hd with hd | hd
    · exact h.small d hd
    · exact hsmall d hd

theorem readAll_spec {f w : Nat} (hw : 0 < w) {l : List Nat} (hl : ∀ d ∈ l, d < 2 ^ f) :
    Read f w l (readAll f w l) := by
  induction l using List.reverseRecOn with
  | nil => exact ⟨(Nat.zero_mod _).symm, hw, rfl, (Nat.zero_div _).symm, fun d hd => by cases hd⟩
  | append_singleton l v ih =>
    have hstep := read_spec hw (ih fun d hd => hl d (by simp [hd])) (hl v (by simp))
    rw [readAll, List.foldl_append]
    exact hstep

/-! ## results -/

section
variable {f w : Nat} {l : List Nat}

theorem regroup_lt (hw : 0 < w) (hl : ∀ d ∈ l, d < 2 ^ f) (pad : Bool) :
    ∀ d ∈ regroup f w pad l, d < 2 ^ w := by
  have hread := readAll_spec hw hl
  intro d hd
  unfold regroup at hd
  dsimp only at hd
  split at hd
  · rcases List.mem_append.mp hd with hd | hd
    · exact hread.small d hd
    · rw [List.mem_singleton.mp hd]
      exact and_mask_lt _ w
  · exact hread.small d hd

theorem length_regroup (hw : 0 < w) (hl : ∀ d ∈ l, d < 2 ^ f) :
    (regroup f w true l).length = (f * l.length + (w - 1)) / w := by
  have hread := readAll_spec hw hl
  have hlength := hread.length
  have hbits := hread.bits
  unfold regroup
  dsimp only
  split
  · rename_i hpad
    rw [hlength, List.length_append, List.length_singleton, Nat.add_assoc, Nat.mul_add_div hw,
      show (readAll f w l).bits + (w - 1) = w + ((readAll f w l).bits - 1) by omega,
      Nat.add_div_left _ hw, Nat.div_eq_of_lt (by omega)]
  · rename_i hpad
    have hzero : (readAll f w l).bits = 0 := by
      by_contra hne
      exact hpad ⟨rfl, hne⟩
    rw [hlength, Nat.add_assoc, Nat.mul_add_div hw, Nat.div_eq_of_lt (by omega), Nat.add_zero]

theorem regroup_exact (hw : 0 < w) (hl : ∀ d ∈ l, d < 2 ^ f) (hdvd : w ∣ f * l.length) (pad : Bool) :
    number w (regroup f w pad l) = number f l ∧ w * (regroup f w pad l).length = f * l.length := by
  have hread := readAll_spec hw hl
  have hlength := hread.length
  have hzero : (readAll f w l).bits = 0 := by
    rw [hlength, Nat.dvd_add_right (Nat.dvd_mul_right w _)] at hdvd
    exact Nat.eq_zero_of_dvd_of_lt hdvd hread.bits
  have hout : regroup f w pad l = (readAll f w l).out := by
    unfold regroup
    rw [if_neg fun hpad => hpad.2 hzero]
  have hvalue := hread.value
  rw [hzero, pow_zero, Nat.div_one] at hvalue
  rw [hout]
  exact ⟨hvalue, by omega⟩

theorem regroup_regroup (hf : 0 < f) (hw : 0 < w) (hl : ∀ d ∈ l, d < 2 ^ f) (hdvd : w ∣ f * l.length)
    (pad pad' : Bool) : regroup w f pad' (regroup f w pad l) = l := by
  obtain ⟨hvalue, hlen⟩ := regroup_exact hw hl hdvd pad
  have hsmall := regroup_lt hw hl pad
  obtain ⟨hvalue', hlen'⟩ := regroup_exact hf hsmall (by rw [hlen]; exact Nat.dvd_mul_right f _) pad'
  refine number_injective ?_ (regroup_lt hf hsmall pad') hl (hvalue'.trans hvalue)
  exact Nat.eq_of_mul_eq_mul_left hf (hlen'.trans hlen)

end

end Regroup
