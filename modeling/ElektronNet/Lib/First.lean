import Mathlib.Data.List.Forall2

/-!
# The first element that satisfies a test

`List.find?` looks it up, `First.replace` puts another one in its place.  Two lists that agree
entry by entry (`List.Forall₂`) have corresponding first hits, if the test does not tell the
entries apart (`find?_forall₂`).  `First.leader` is the first of the heaviest admitted elements, where
one element has to be beaten (`leader_eq_iff`).
-/

namespace First

variable {α : Type}

def replace (p : α → Bool) (a : α) : List α → List α
  | [] => []
  | x :: l => if p x then a :: l else x :: replace p a l

variable {R : α → α → Prop} {p : α → Bool} {a b : α} {l l' : List α}

theorem find?_forall₂ (hp : ∀ a b, R a b → p b = p a) (h : List.Forall₂ R l l') :
    (l.find? p = none ∧ l'.find? p = none) ∨
      ∃ a b, l.find? p = some a ∧ l'.find? p = some b ∧ R a b := by
  induction h with
  | nil => exact .inl ⟨rfl, rfl⟩
  | @cons a b l l' hab _ ih =>
    rw [List.find?_cons, List.find?_cons, hp a b hab]
    cases p a with
    | true => exact .inr ⟨a, b, rfl, rfl, hab⟩
    | false => exact ih

theorem exists_forall₂ (h : List.Forall₂ R l l') :
    (∀ a ∈ l, ∃ b ∈ l', R a b) ∧ ∀ b ∈ l', ∃ a ∈ l, R a b := by
  induction h with
  | nil => exact ⟨fun a ha => (by cases ha), fun b hb => (by cases hb)⟩
  | @cons a b l l' hab _ ih =>
    constructor
    · intro x hx
      rcases List.mem_cons.mp hx with rfl | hx
      · exact ⟨b, List.mem_cons_self .., hab⟩
      · obtain ⟨y, hy, hxy⟩ := ih.1 x hx
        exact ⟨y, List.mem_cons_of_mem _ hy, hxy⟩
    · intro y hy
      rcases List.mem_cons.mp hy with rfl | hy
      · exact ⟨a, List.mem_cons_self .., hab⟩
      · obtain ⟨x, hx, hxy⟩ := ih.2 y hy
        exact ⟨x, List.mem_cons_of_mem _ hx, hxy⟩

theorem forall₂_trans (ht : ∀ a b c, R a b → R b c → R a c) {l'' : List α}
    (h : List.Forall₂ R l l') (h' : List.Forall₂ R l' l'') : List.Forall₂ R l l'' := by
  induction h generalizing l'' with
  | nil => exact h'
  | cons hab _ ih =>
    cases h' with
    | cons hbc htail => exact .cons (ht _ _ _ hab hbc) (ih htail)

theorem forall₂_replace (hr : ∀ a, R a a) (hab : R a b) (h : l.find? p = some a) :
    List.Forall₂ R l (replace p b l) := by
  induction l with
  | nil => cases h
  | cons x l ih =>
    rw [List.find?_cons] at h
    unfold replace
    split at h
    · rename_i hx
      cases h
      rw [if_pos hx]
      exact .cons hab (List.forall₂_same.mpr fun y _ => hr y)
    · rename_i hx
      rw [if_neg (by simp [hx])]
      exact .cons (hr x) (ih h)

theorem find?_replace_none (hab : p b = p a)
    (h : (replace p a l).find? p = none) : (replace p b l).find? p = none := by
  induction l with
  | nil => rfl
  | cons x l ih =>
    unfold replace at h ⊢
    cases hx : p x with
    | true =>
      rw [hx, if_pos rfl, List.find?_cons] at h
      rw [if_pos rfl, List.find?_cons, hab]
      cases ha : p a with
      | true =>
        rw [ha] at h
        cases h
      | false =>
        rw [ha] at h
        exact h
    | false =>
      rw [hx, if_neg (by simp), List.find?_cons, hx] at h
      rw [if_neg (by simp), List.find?_cons, hx]
      exact ih h

theorem find?_replace (hb : p b = true) (h : l.find? p = some a) : (replace p b l).find? p = some b := by
  induction l with
  | nil => cases h
  | cons x l ih =>
    rw [List.find?_cons] at h
    unfold replace
    split at h
    · rename_i hx
      rw [if_pos hx, List.find?_cons, hb]
    · rename_i hx
      rw [if_neg (by simp [hx]), List.find?_cons, hx]
      exact ih h

theorem eraseP_replace (q : α → Bool) (hq : q b = true)
    (hother : ∀ x ∈ l, q x = true → p x = true) (h : l.find? p = some a) :
    (replace p b l).eraseP q = l.eraseP p := by
  induction l with
  | nil => cases h
  | cons x l ih =>
    rw [List.find?_cons] at h
    unfold replace
    split at h
    · rename_i hx
      rw [if_pos hx, List.eraseP_cons_of_pos hq, List.eraseP_cons_of_pos hx]
    · rename_i hx
      have hqx : ¬ q x = true := by
        intro hqx
        rw [hother x List.mem_cons_self hqx] at hx
        cases hx
      rw [if_neg (by simp [hx]), List.eraseP_cons_of_neg hqx, List.eraseP_cons_of_neg (by simp [hx]),
        ih (fun y hy => hother y (List.mem_cons_of_mem _ hy)) h]

theorem map_eq_of_forall₂ {β : Type} {f : α → β}
    (h : List.Forall₂ (fun a b => f b = f a) l l') : l'.map f = l.map f := by
  induction h with
  | nil => rfl
  | cons hab _ ih => rw [List.map_cons, List.map_cons, hab, ih]

theorem map_replace {β : Type} {f : α → β} (hab : f b = f a)
    (h : l.find? p = some a) : (replace p b l).map f = l.map f :=
  map_eq_of_forall₂ (forall₂_replace (R := fun x y => f y = f x) (fun _ => rfl) hab h)

theorem replace_append (h : ∀ x ∈ l, p x = false) : replace p b (l ++ l') = l ++ replace p b l' := by
  induction l with
  | nil => rfl
  | cons x l ih =>
    rw [List.cons_append, replace, if_neg (by simp [h x List.mem_cons_self]),
      ih fun y hy => h y (List.mem_cons_of_mem _ hy), List.cons_append]

/-! ## the first of the heaviest -/

section
variable (p : α → Bool) (w : α → Nat)

/-- `a`, unless an admitted element of the list is heavier -/
def leader (a : α) (l : List α) : α :=
  l.foldl (fun b x => if p x = true ∧ w b < w x then x else b) a

/-- nothing admitted in the list is heavier than `a`; or `x` is the first of the heaviest -/
def Leads (a : α) (l : List α) (x : α) : Prop :=
  (x = a ∧ ∀ y ∈ l, p y = true → w y ≤ w a) ∨
    ∃ l₁ l₂, l = l₁ ++ x :: l₂ ∧ p x = true ∧ w a < w x ∧ (∀ y ∈ l₁, p y = true → w y < w x) ∧
      ∀ y ∈ l₂, p y = true → w y ≤ w x

variable {p w}

theorem leads_cons_of_beats {a y : α} (hy : p y = true) (hw : w a < w y) (x : α) :
    Leads p w a (y :: l) x ↔ Leads p w y l x := by
  constructor
  · rintro (⟨rfl, hall⟩ | ⟨l₁, l₂, hl, hp, hax, hbefore, hafter⟩)
    · exact absurd (hall y List.mem_cons_self hy) (by omega)
    · cases l₁ with
      | nil =>
        obtain ⟨rfl, rfl⟩ := List.cons.inj hl
        exact .inl ⟨rfl, hafter⟩
      | cons z l₁ =>
        obtain ⟨rfl, rfl⟩ := List.cons.inj hl
        exact .inr ⟨l₁, l₂, rfl, hp, hbefore y List.mem_cons_self hy,
          fun u hu => hbefore u (List.mem_cons_of_mem _ hu), hafter⟩
  · rintro (⟨rfl, hall⟩ | ⟨l₁, l₂, rfl, hp, hyx, hbefore, hafter⟩)
    · exact .inr ⟨[], l, rfl, hy, hw, (fun u hu => by cases hu), hall⟩
    · refine .inr ⟨y :: l₁, l₂, rfl, hp, by omega, fun u hu hpu => ?_, hafter⟩
      rcases List.mem_cons.mp hu with rfl | hu
      · exact hyx
      · exact hbefore u hu hpu

theorem leads_cons_of_not {a y : α} (h : ¬ (p y = true ∧ w a < w y)) (x : α) :
    Leads p w a (y :: l) x ↔ Leads p w a l x := by
  have hle : p y = true → w y ≤ w a := fun hy => by
    by_contra hlt
    exact h ⟨hy, by omega⟩
  constructor
  · rintro (⟨rfl, hall⟩ | ⟨l₁, l₂, hl, hp, hax, hbefore, hafter⟩)
    · exact .inl ⟨rfl, fun u hu => hall u (List.mem_cons_of_mem _ hu)⟩
    · cases l₁ with
      | nil =>
        obtain ⟨rfl, rfl⟩ := List.cons.inj hl
        exact absurd ⟨hp, hax⟩ h
      | cons z l₁ =>
        obtain ⟨rfl, rfl⟩ := List.cons.inj hl
        exact .inr ⟨l₁, l₂, rfl, hp, hax, fun u hu => hbefore u (List.mem_cons_of_mem _ hu), hafter⟩
  · rintro (⟨rfl, hall⟩ | ⟨l₁, l₂, rfl, hp, hax, hbefore, hafter⟩)
    · refine .inl ⟨rfl, fun u hu hpu => ?_⟩
      rcases List.mem_cons.mp hu with rfl | hu
      · exact hle hpu
      · exact hall u hu hpu
    · refine .inr ⟨y :: l₁, l₂, rfl, hp, hax, fun u hu hpu => ?_, hafter⟩
      rcases List.mem_cons.mp hu with rfl | hu
      · exact Nat.lt_of_le_of_lt (hle hpu) hax
      · exact hbefore u hu hpu

theorem leader_eq_iff (a : α) (l : List α) (x : α) : leader p w a l = x ↔ Leads p w a l x := by
  induction l generalizing a with
  | nil =>
    constructor
    · rintro rfl
      exact .inl ⟨rfl, fun y hy => by cases hy⟩
    · rintro (⟨rfl, -⟩ | ⟨l₁, l₂, hl, -⟩)
      · rfl
      · exact absurd hl (by simp)
  | cons y l ih =>
    by_cases h : p y = true ∧ w a < w y
    · rw [leads_cons_of_beats h.1 h.2, ← ih, leader, List.foldl_cons, if_pos h]
      rfl
    · rw [leads_cons_of_not h, ← ih, leader, List.foldl_cons, if_neg h]
      rfl

end

theorem eraseP_append_last (ha : p a = false) (l : List α) :
    (l ++ [a]).eraseP p = l.eraseP p ++ [a] := by
  rw [List.eraseP_append]
  split
  · rfl
  · rename_i hl
    rw [List.eraseP_of_forall_not (l := l) (by simpa using hl),
      List.eraseP_cons_of_neg (by simp [ha]), List.eraseP_nil]

end First
