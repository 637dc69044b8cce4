import ElektronNet.Lib.Forest

/-!
# Searches down the paths of a forest

A depth-first search that keeps, for the node it stands at, the oldest node on the way there that
fails a test.  At a marked node it starts afresh for everything below.

* `oldest ok mark k`   what the search holds at `k`
* `since mark k`       the nodes it still answers for: those of the path of `k` below the mark
* `oldest_eq_none`, `mem_since`   the two characterised

`F.Under a k` reads: `a` lies on the path of `k` and is not `k`.
-/

set_option linter.unusedSectionVars false

namespace Forest

variable {K : Type} [DecidableEq K]

/-- what the search takes along from the head of a path to its children -/
def carried (ok : K → Bool) (mark : Option K) : List K → Option K
  | [] => none
  | k :: l =>
    if some k = mark then none else (carried ok mark l).or (if ok k then none else some k)

variable (F : Forest K)

def oldest (ok : K → Bool) (mark : Option K) (k : K) : Option K :=
  (carried ok mark (F.path k).tail).or (if ok k then none else some k)

def since (mark : Option K) (k : K) : List K :=
  k :: (F.path k).tail.takeWhile fun a => decide (some a ≠ mark)

/-- `a` is a proper ancestor of `k` -/
def Under (a k : K) : Prop := a ∈ F.path k ∧ a ≠ k

instance (a k : K) : Decidable (F.Under a k) := inferInstanceAs (Decidable (_ ∧ _))

variable {mark : Option K} {ok : K → Bool}

theorem carried_eq_none {l : List K} :
    carried ok mark l = none ↔
      ∀ a ∈ l.takeWhile fun a => decide (some a ≠ mark), ok a = true := by
  induction l with
  | nil => simp [carried]
  | cons k l ih =>
    rw [carried]
    by_cases hk : some k = mark
    · simp [hk]
    · rw [if_neg hk, Option.or_eq_none_iff, ih,
        List.takeWhile_cons_of_pos (by simpa using hk)]
      by_cases hok : ok k = true <;> simp [hok]

/-- **the search holds nothing exactly if all it answers for passes** -/
theorem oldest_eq_none {k : K} : F.oldest ok mark k = none ↔ ∀ a ∈ F.since mark k, ok a = true := by
  rw [oldest, Option.or_eq_none_iff, carried_eq_none, since]
  by_cases hok : ok k = true <;> simp [hok]

theorem carried_congr {ok' : K → Bool} {l : List K}
    (h : ∀ a ∈ l, ok' a = ok a) : carried ok' mark l = carried ok mark l := by
  induction l with
  | nil => rfl
  | cons k l ih =>
    rw [carried, carried, ih fun a ha => h a (List.mem_cons_of_mem _ ha),
      h k List.mem_cons_self]

theorem oldest_congr {ok' : K → Bool} {k : K} (h : ∀ a ∈ F.path k, ok' a = ok a)
    (mark : Option K) : F.oldest ok' mark k = F.oldest ok mark k := by
  rw [oldest, oldest, carried_congr fun a ha => h a (List.mem_of_mem_tail ha),
    h k (F.self_mem_path k)]

/-! ## what the search answers for -/

variable {F} {a b k m p : K}

theorem Under.mem (h : F.Under a k) : a ∈ F.path k := h.1

theorem Under.height_lt (h : F.Under a k) : F.height a < F.height k := by
  rcases Nat.lt_or_ge (F.height a) (F.height k) with hlt | hge
  · exact hlt
  · exact absurd (F.eq_of_mem_of_height h.1 hge) h.2

theorem Under.trans_mem (h : F.Under a b) (hb : b ∈ F.path k) : F.Under a k := by
  refine ⟨F.mem_trans h.1 hb, ?_⟩
  rintro rfl
  have := h.height_lt
  have := F.height_le_of_mem hb
  omega

theorem Under.of_mem (h : a ∈ F.path b) (hb : F.Under b k) : F.Under a k := by
  refine ⟨F.mem_trans h hb.1, ?_⟩
  rintro rfl
  have := hb.height_lt
  have := F.height_le_of_mem h
  omega

theorem under_parent (h : F.parent k = some p) : F.Under p k := by
  refine ⟨F.mem_path_of_parent h (F.self_mem_path p), ?_⟩
  rintro rfl
  have := F.height_parent _ _ h
  omega

theorem not_under_self : ¬ F.Under a a := fun h => h.2 rfl

theorem mem_takeWhile_path :
    a ∈ (F.path p).takeWhile (fun b => decide (some b ≠ some m)) ↔
      a ∈ F.path p ∧ (m ∈ F.path p → F.Under m a) := by
  induction p using F.path_induction with
  | root p hp =>
    rw [F.path_root hp, List.takeWhile_cons]
    by_cases hpm : p = m
    · subst hpm
      simp only [ne_eq, not_true_eq_false, decide_false, Bool.false_eq_true, if_false,
        List.not_mem_nil, List.mem_singleton, false_iff, not_and]
      rintro rfl hall
      exact not_under_self (hall trivial)
    · have hmp : m ≠ p := fun h => hpm h.symm
      simp [hpm, hmp]
  | child p q hp ih =>
    rw [F.path_parent hp, List.takeWhile_cons]
    by_cases hpm : p = m
    · subst hpm
      simp only [ne_eq, not_true_eq_false, decide_false, Bool.false_eq_true, if_false,
        List.not_mem_nil, false_iff, not_and]
      intro ha hall
      have hpa := hall List.mem_cons_self
      rw [← F.path_parent hp] at ha
      exact hpa.2 (F.eq_of_mem_of_mem hpa.1 ha)
    · have hmp : m ≠ p := fun h => hpm h.symm
      rw [if_pos (by simpa using hpm), List.mem_cons, List.mem_cons, ih, List.mem_cons]
      constructor
      · rintro (rfl | ⟨ha, hall⟩)
        · refine ⟨.inl rfl, ?_⟩
          rintro (h | hm)
          · exact absurd h hmp
          · exact ⟨F.mem_path_of_parent hp hm, hmp⟩
        · refine ⟨.inr ha, ?_⟩
          rintro (h | hm)
          · exact absurd h hmp
          · exact hall hm
      · rintro ⟨rfl | ha, hall⟩
        · exact .inl rfl
        · exact .inr ⟨ha, fun hm => hall (.inr hm)⟩

theorem under_iff_of_parent (h : F.parent k = some p) : F.Under m k ↔ m ∈ F.path p := by
  constructor
  · intro hm
    rcases (F.mem_path_iff m k).mp hm.1 with rfl | ⟨q, hq, hmem⟩
    · exact absurd rfl hm.2
    · obtain rfl := Option.some.inj (h.symm.trans hq)
      exact hmem
  · intro hm
    exact Under.of_mem hm (under_parent h)

/-- **what is answered for**: the path, down to the mark if the mark is a proper ancestor -/
theorem mem_since : a ∈ F.since (some m) k ↔ a ∈ F.path k ∧ (F.Under m k → F.Under m a) := by
  rw [since, List.mem_cons]
  cases hp : F.parent k with
  | none =>
    rw [F.path_root hp]
    constructor
    · rintro (rfl | ha)
      · exact ⟨List.mem_singleton_self _, id⟩
      · cases ha
    · rintro ⟨ha, -⟩
      exact .inl (List.mem_singleton.mp ha)
  | some p =>
    rw [F.path_parent hp, List.tail_cons, mem_takeWhile_path, under_iff_of_parent hp, List.mem_cons]
    constructor
    · rintro (rfl | ⟨ha, hall⟩)
      · exact ⟨.inl rfl, (under_iff_of_parent hp).mpr⟩
      · exact ⟨.inr ha, hall⟩
    · rintro ⟨rfl | ha, hall⟩
      · exact .inl rfl
      · exact .inr ⟨ha, hall⟩

theorem self_mem_since (mark : Option K) : k ∈ F.since mark k := List.mem_cons_self ..

theorem mem_path_of_since (h : a ∈ F.since mark k) : a ∈ F.path k := by
  cases List.mem_cons.mp h with
  | inl h =>
    rw [h]
    exact F.self_mem_path k
  | inr h => exact List.mem_of_mem_tail ((List.takeWhile_sublist _).subset h)

theorem mem_since_of_not_under (h : ¬ F.Under m k) : a ∈ F.since (some m) k ↔ a ∈ F.path k := by
  rw [mem_since]
  exact ⟨fun ha => ha.1, fun ha => ⟨ha, fun hm => absurd hm h⟩⟩

theorem mem_since_of_under (h : F.Under m k) : a ∈ F.since (some m) k ↔ a ∈ F.path k ∧ F.Under m a := by
  rw [mem_since]
  exact ⟨fun ha => ⟨ha.1, ha.2 h⟩, fun ha => ⟨ha.1, fun _ => ha.2⟩⟩

theorem Under.exists_child (h : F.Under m k) :
    ∃ c, F.parent c = some m ∧ c ∈ F.path k ∧ c ∈ F.since (some m) k := by
  obtain ⟨c, hc, hck⟩ := F.exists_child_of_mem h.1 h.2
  exact ⟨c, hc, hck, (mem_since_of_under h).mpr ⟨hck, under_parent hc⟩⟩

end Forest
