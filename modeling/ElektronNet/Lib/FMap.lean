import Mathlib.Algebra.BigOperators.Group.Finset.Basic
import Mathlib.Data.Finset.Sort

/-!
# Finite maps given by a lookup function and its domain

`FMap K V` is a lookup function `K → Option V` with the finite set of the keys it is defined at.
Two maps are equal as soon as their lookups are (`FMap.ext_get`), and a map is built pointwise
from any lookup restricted to a finite set of candidate keys (`FMap.build`).  A program that
walks over a map and treats every key on its own is then the pointwise map, whatever the order
of the walk.

* `insert`, `erase`, `patch w new old`   the usual updates; `patch` takes the keys of `w` from `new`
* `map f m`     the entries changed in place
* `prod g m`    the product of `g k v` over the entries, in a commutative monoid
* `sum w m`     the sum of the weights of the entries
* `card m`      the number of entries
* `toList m`    the entries in the order of their keys
* `insertAll l m`   the entries of a list, inserted one after the other

The product and the size follow an insertion of a new key and an erasure of a present one
(`prod_insert`, `prod_erase`, `card_insert`).
-/

/-- a partial function together with its finite domain -/
structure FMap (K : Type) (V : Type) where
  get : K → Option V
  dom : Finset K
  mem_dom : ∀ k, k ∈ dom ↔ (get k).isSome = true

set_option linter.unusedVariables false

namespace FMap

section
variable {K V W : Type}

theorem get_eq_none_iff (m : FMap K V) (k : K) : m.get k = none ↔ k ∉ m.dom := by
  rw [m.mem_dom]
  cases m.get k <;> simp

variable {m : FMap K V} {k : K} {v : V}

theorem mem_dom_of_get (h : m.get k = some v) : k ∈ m.dom := by
  rw [m.mem_dom, h]; rfl

theorem exists_get_of_mem (h : k ∈ m.dom) : ∃ v, m.get k = some v :=
  Option.isSome_iff_exists.mp ((m.mem_dom k).mp h)

theorem ext_get {n : FMap K V} (h : ∀ k, m.get k = n.get k) : m = n := by
  have hdom : m.dom = n.dom := by
    ext k
    rw [m.mem_dom, n.mem_dom, h k]
  cases m; cases n
  obtain rfl := funext h
  obtain rfl := hdom
  rfl

theorem eq_iff {n : FMap K V} : m = n ↔ m.dom = n.dom ∧ ∀ k ∈ m.dom, m.get k = n.get k := by
  constructor
  · rintro rfl
    exact ⟨rfl, fun _ _ => rfl⟩
  · rintro ⟨hdom, hget⟩
    refine ext_get fun k => ?_
    by_cases hk : k ∈ m.dom
    · exact hget k hk
    · rw [(get_eq_none_iff m k).mpr hk, (get_eq_none_iff n k).mpr (hdom ▸ hk)]

def map (f : K → V → W) (m : FMap K V) : FMap K W where
  get k := (m.get k).map (f k)
  dom := m.dom
  mem_dom k := by rw [m.mem_dom, Option.isSome_map]

theorem map_get (f : K → V → W) (m : FMap K V) (k : K) :
    (m.map f).get k = (m.get k).map (f k) := rfl

variable [DecidableEq K]

instance [DecidableEq V] : DecidableEq (FMap K V) := fun _ _ => decidable_of_iff _ eq_iff.symm

/-! ## building a map -/

/-- the lookup `f` on the keys of `s` -/
def build (s : Finset K) (f : K → Option V) : FMap K V where
  get k := if k ∈ s then f k else none
  dom := s.filter fun k => (f k).isSome = true
  mem_dom k := by
    by_cases h : k ∈ s <;> simp [h]

theorem build_get (s : Finset K) (f : K → Option V) (k : K) :
    (build s f).get k = if k ∈ s then f k else none := rfl

theorem build_get_of_cover {s : Finset K} {f : K → Option V} (h : ∀ k, k ∉ s → f k = none)
    (k : K) : (build s f).get k = f k := by
  rw [build_get]
  by_cases hk : k ∈ s
  · rw [if_pos hk]
  · rw [if_neg hk, h k hk]

def empty : FMap K V := build ∅ fun _ => none

@[simp] theorem empty_get (k : K) : (empty : FMap K V).get k = none := by
  simp [empty, build_get]

@[simp] theorem empty_dom : (empty : FMap K V).dom = ∅ := rfl

def insert (k : K) (v : V) (m : FMap K V) : FMap K V :=
  build (Insert.insert k m.dom) fun j => if j = k then some v else m.get j

theorem insert_get (k : K) (v : V) (m : FMap K V) (j : K) :
    (m.insert k v).get j = if j = k then some v else m.get j := by
  refine build_get_of_cover (fun i hi => ?_) j
  rw [Finset.mem_insert, not_or] at hi
  rw [if_neg hi.1, (get_eq_none_iff m i).mpr hi.2]

@[simp] theorem insert_get_self (k : K) (v : V) (m : FMap K V) :
    (m.insert k v).get k = some v := by rw [insert_get, if_pos rfl]

theorem insert_get_ne {j : K} (h : j ≠ k) (v : V) (m : FMap K V) :
    (m.insert k v).get j = m.get j := by rw [insert_get, if_neg h]

theorem insert_dom (k : K) (v : V) (m : FMap K V) : (m.insert k v).dom = Insert.insert k m.dom := by
  ext j
  rw [mem_dom, insert_get, Finset.mem_insert, mem_dom]
  by_cases h : j = k <;> simp [h]

def erase (k : K) (m : FMap K V) : FMap K V :=
  build (m.dom.erase k) fun j => if j = k then none else m.get j

theorem erase_get (k : K) (m : FMap K V) (j : K) :
    (m.erase k).get j = if j = k then none else m.get j := by
  refine build_get_of_cover (fun i hi => ?_) j
  by_cases h : i = k
  · rw [if_pos h]
  · rw [if_neg h, (get_eq_none_iff m i).mpr fun hm => hi (Finset.mem_erase.mpr ⟨h, hm⟩)]

@[simp] theorem erase_get_self (k : K) (m : FMap K V) : (m.erase k).get k = none := by
  rw [erase_get, if_pos rfl]

theorem erase_get_ne {j : K} (h : j ≠ k) (m : FMap K V) : (m.erase k).get j = m.get j := by
  rw [erase_get, if_neg h]

theorem erase_of_get_none (h : m.get k = none) : m.erase k = m := by
  refine ext_get fun j => ?_
  rw [erase_get]
  by_cases hj : j = k
  · rw [if_pos hj, hj, h]
  · rw [if_neg hj]

theorem erase_insert (h : m.get k = none) (v : V) : (m.insert k v).erase k = m := by
  refine ext_get fun j => ?_
  rw [erase_get]
  by_cases hj : j = k
  · rw [if_pos hj, hj, h]
  · rw [if_neg hj, insert_get_ne hj]

theorem insert_erase (h : m.get k = some v) : (m.erase k).insert k v = m := by
  refine ext_get fun j => ?_
  rw [insert_get]
  by_cases hj : j = k
  · rw [if_pos hj, hj, h]
  · rw [if_neg hj, erase_get_ne hj]

/-- every entry has the property -/
def All (Q : K → V → Prop) (m : FMap K V) : Prop := ∀ k v, m.get k = some v → Q k v

theorem all_empty (Q : K → V → Prop) : All Q empty := by
  intro k v h
  cases h

theorem All.insert {Q : K → V → Prop} (hm : All Q m) (hv : Q k v) : All Q (m.insert k v) := by
  intro j w hj
  rw [insert_get] at hj
  split at hj
  · rename_i hjk
    cases hj
    exact hjk ▸ hv
  · exact hm j w hj

theorem All.erase {Q : K → V → Prop} (hm : All Q m) (k : K) : All Q (m.erase k) := by
  intro j w hj
  rw [erase_get] at hj
  split at hj
  · cases hj
  · exact hm j w hj

def insertAll (l : List (K × V)) (m : FMap K V) : FMap K V :=
  l.foldl (fun m e => m.insert e.1 e.2) m

theorem insertAll_get_of_not_mem {l : List (K × V)} (h : ∀ v, (k, v) ∉ l) :
    (insertAll l m).get k = m.get k := by
  induction l generalizing m with
  | nil => rfl
  | cons e l ih =>
    obtain ⟨j, w⟩ := e
    have hne : k ≠ j := by
      rintro rfl
      exact h w List.mem_cons_self
    exact (ih fun v hv => h v (List.mem_cons_of_mem _ hv)).trans (insert_get_ne hne w m)

theorem insertAll_get {l : List (K × V)} (hnodup : (l.map Prod.fst).Nodup) (h : (k, v) ∈ l) :
    (insertAll l m).get k = some v := by
  induction l generalizing m with
  | nil => cases h
  | cons e l ih =>
    obtain ⟨hnot, hnodup⟩ := List.nodup_cons.mp hnodup
    rcases List.mem_cons.mp h with rfl | hmem
    · have hrest : ∀ w, (k, w) ∉ l := fun w hw => hnot (List.mem_map.mpr ⟨_, hw, rfl⟩)
      have hget : (insertAll l (m.insert k v)).get k = (m.insert k v).get k :=
        insertAll_get_of_not_mem hrest
      exact hget.trans (insert_get_self k v m)
    · exact ih hnodup hmem

/-- the keys of `w` are taken from `new`, all others from `old` -/
def patch (w : Finset K) (new old : FMap K V) : FMap K V :=
  build (new.dom ∪ old.dom) fun k => if k ∈ w then new.get k else old.get k

theorem patch_get (w : Finset K) (new old : FMap K V) (k : K) :
    (patch w new old).get k = if k ∈ w then new.get k else old.get k := by
  refine build_get_of_cover (fun i hi => ?_) k
  rw [Finset.mem_union, not_or, ← get_eq_none_iff, ← get_eq_none_iff] at hi
  split
  · exact hi.1
  · exact hi.2

/-! ## the size and the product over the entries -/

def card (m : FMap K V) : Nat := m.dom.card

theorem card_insert (h : m.get k = none) (v : V) : (m.insert k v).card = m.card + 1 := by
  rw [card, insert_dom, Finset.card_insert_of_notMem ((get_eq_none_iff m k).mp h), card]

section
variable {G : Type} [CommMonoid G]

/-- the factor of a key: `g k v` where the map is defined, `1` elsewhere -/
def factor (g : K → V → G) (m : FMap K V) (k : K) : G := (m.get k).elim 1 (g k)

def prod (g : K → V → G) (m : FMap K V) : G := ∏ k ∈ m.dom, factor g m k

theorem prod_insert (g : K → V → G) (h : m.get k = none) (v : V) :
    prod g (m.insert k v) = g k v * prod g m := by
  have hk : k ∉ m.dom := (get_eq_none_iff m k).mp h
  rw [prod, insert_dom, Finset.prod_insert hk]
  congr 1
  · simp [factor]
  · refine Finset.prod_congr rfl fun j hj => ?_
    have hjk : j ≠ k := fun e => hk (e ▸ hj)
    rw [factor, insert_get_ne hjk, factor]

theorem prod_erase (g : K → V → G) (h : m.get k = some v) : g k v * prod g (m.erase k) = prod g m := by
  have he := prod_insert g (erase_get_self k m) v
  rw [insert_erase h] at he
  exact he.symm

end

/-! ### sums -/

def sum (w : V → Nat) (m : FMap K V) : Nat :=
  Multiplicative.toAdd (prod (fun _ v => Multiplicative.ofAdd (w v)) m)

theorem sum_insert (w : V → Nat) (h : m.get k = none) (v : V) :
    sum w (m.insert k v) = w v + sum w m := congrArg Multiplicative.toAdd (prod_insert _ h v)

theorem sum_erase (w : V → Nat) (h : m.get k = some v) : w v + sum w (m.erase k) = sum w m :=
  congrArg Multiplicative.toAdd (prod_erase (fun _ v => Multiplicative.ofAdd (w v)) h)

theorem erase_then_insert (k : K) (v : V) (m : FMap K V) : (m.erase k).insert k v = m.insert k v := by
  refine ext_get fun j => ?_
  rw [insert_get, insert_get, erase_get]
  split <;> rfl

theorem sum_drop (w : V → Nat) (k : K) (m : FMap K V) :
    sum w (m.erase k) + (m.get k).elim 0 w = sum w m := by
  cases hg : m.get k with
  | none =>
    rw [erase_of_get_none hg]
    rfl
  | some v =>
    rw [← sum_erase w hg, Nat.add_comm]
    rfl

theorem sum_put (w : V → Nat) (k : K) (v : V) (m : FMap K V) :
    sum w (m.insert k v) + (m.get k).elim 0 w = sum w m + w v := by
  have hinsert := sum_insert w (erase_get_self k m) v
  have hdrop := sum_drop w k m
  rw [erase_then_insert] at hinsert
  omega

end

/-! ## the entries in order -/

section
variable {K V : Type} [LinearOrder K]

/-- the elements in order; `Finset.sort`, with a sort that evaluates -/
def sorted (s : Finset K) : List K :=
  Quot.liftOn s.val (List.insertionSort (· ≤ ·)) fun a b h =>
    (((List.perm_insertionSort _ a).trans h).trans (List.perm_insertionSort _ b).symm).eq_of_pairwise'
      (List.pairwise_insertionSort (· ≤ ·) a) (List.pairwise_insertionSort (· ≤ ·) b)

theorem sorted_eq (s : Finset K) : sorted s = s.sort (· ≤ ·) := by
  obtain ⟨l, hl⟩ := s
  induction l using Quot.ind with
  | mk l => exact (List.mergeSort_eq_insertionSort (· ≤ ·) l).symm

def toList (m : FMap K V) : List (K × V) :=
  (sorted m.dom).filterMap fun k => (m.get k).map fun v => (k, v)

theorem mem_toList (m : FMap K V) (k : K) (v : V) : (k, v) ∈ m.toList ↔ m.get k = some v := by
  rw [toList, sorted_eq, List.mem_filterMap]
  constructor
  · rintro ⟨j, -, hj⟩
    obtain ⟨v', hv', he⟩ := Option.map_eq_some_iff.mp hj
    obtain ⟨rfl, rfl⟩ := Prod.mk.inj he
    exact hv'
  · intro h
    exact ⟨k, (Finset.mem_sort _).mpr (mem_dom_of_get h), by rw [h]; rfl⟩

theorem toList_pairwise (m : FMap K V) : m.toList.Pairwise fun a b => a.1 < b.1 := by
  rw [toList, sorted_eq, List.pairwise_filterMap]
  refine (Finset.sortedLT_sort m.dom).pairwise.imp fun {j k} hjk a ha b hb => ?_
  obtain ⟨v, -, rfl⟩ := Option.map_eq_some_iff.mp ha
  obtain ⟨w, -, rfl⟩ := Option.map_eq_some_iff.mp hb
  exact hjk

theorem nodup_toList (m : FMap K V) : m.toList.Nodup :=
  (toList_pairwise m).imp fun {a b} hlt he => absurd hlt (by rw [he]; exact lt_irrefl _)

variable {m : FMap K V}

theorem toList_insert [DecidableEq K] {k : K} (h : m.get k = none) (v : V) :
    (m.insert k v).toList.Perm ((k, v) :: m.toList) := by
  have hnew : (k, v) ∉ m.toList := by
    rw [mem_toList, h]
    simp
  refine (List.perm_ext_iff_of_nodup (nodup_toList _)
    (List.nodup_cons.mpr ⟨hnew, nodup_toList m⟩)).mpr ?_
  rintro ⟨j, w⟩
  rw [mem_toList, List.mem_cons, mem_toList, insert_get]
  by_cases hjk : j = k
  · subst hjk
    simp [h, eq_comm]
  · simp [hjk]

theorem eq_toList {l : List (K × V)} (hperm : l.Perm m.toList)
    (hsorted : l.Pairwise fun a b => a.1 < b.1) : l = m.toList :=
  List.Perm.eq_of_pairwise (fun a b _ _ hab hba => absurd (hab.trans hba) (lt_irrefl _)) hsorted
    (toList_pairwise m) hperm

theorem insertAll_of_perm [DecidableEq K] {l : List (K × V)} (h : l.Perm m.toList) :
    insertAll l empty = m := by
  have hnodup : (l.map Prod.fst).Nodup := by
    refine (h.map Prod.fst).nodup_iff.mpr ?_
    rw [List.Nodup, List.pairwise_map]
    exact (toList_pairwise m).imp fun {a b} hlt => ne_of_lt hlt
  refine ext_get fun k => ?_
  cases hk : m.get k with
  | none =>
    rw [insertAll_get_of_not_mem fun v hv => ?_, empty_get]
    rw [h.mem_iff, mem_toList, hk] at hv
    cases hv
  | some v => exact insertAll_get hnodup (h.mem_iff.mpr ((mem_toList m k v).mpr hk))

theorem toList_eq_nil (h : ∀ k, m.get k = none) : m.toList = [] := by
  rw [List.eq_nil_iff_forall_not_mem]
  rintro ⟨k, v⟩ hmem
  rw [mem_toList, h] at hmem
  cases hmem

theorem length_toList (m : FMap K V) : m.toList.length = m.card := by
  have hlen : ∀ l : List K, (∀ k ∈ l, k ∈ m.dom) →
      (l.filterMap fun k => (m.get k).map fun v => (k, v)).length = l.length := by
    intro l hl
    induction l with
    | nil => rfl
    | cons k l ih =>
      obtain ⟨v, hv⟩ := exists_get_of_mem (hl k List.mem_cons_self)
      rw [List.filterMap_cons, hv]
      simp only [Option.map_some, List.length_cons]
      rw [ih fun j hj => hl j (List.mem_cons_of_mem _ hj)]
  rw [toList, sorted_eq, hlen _ fun k hk => (Finset.mem_sort _).mp hk, Finset.length_sort, card]

theorem prod_toList {G : Type} [CommMonoid G] (g : K → V → G) (m : FMap K V) :
    (m.toList.map fun e => g e.1 e.2).prod = prod g m := by
  have hprod : ∀ l : List K,
      ((l.filterMap fun k => (m.get k).map fun v => (k, v)).map fun e => g e.1 e.2).prod =
        (l.map (factor g m)).prod := by
    intro l
    induction l with
    | nil => rfl
    | cons k l ih =>
      rw [List.filterMap_cons, List.map_cons, List.prod_cons, ← ih, factor]
      cases m.get k with
      | none => simp
      | some v => simp
  rw [toList, sorted_eq, hprod, prod, Finset.prod_eq_multiset_prod, ← Finset.sort_eq m.dom (· ≤ ·),
    Multiset.map_coe, Multiset.prod_coe]

end

end FMap
