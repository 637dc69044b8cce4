import Mathlib.Data.List.Basic
import Mathlib.Data.List.Chain
import Mathlib.Data.List.Infix

/-!
# Forests given by parent pointers

A `Forest K` is a parent function with a height that drops by one along it.

* `path k`      the nodes from `k` up to its root
* `mem_trans`, `path_suffix`, `mem_total`   the order that lying on a path is
* `fork k t`    the first node of the path of `k` that lies on the path of `t`; every common node
                lies above it (`mem_path_fork`)
-/

structure Forest (K : Type) where
  parent : K → Option K
  height : K → Nat
  height_parent : ∀ k p, parent k = some p → height k = height p + 1

namespace Forest

variable {K : Type} (F : Forest K)

def walk : Nat → K → List K
  | 0, k => [k]
  | n + 1, k =>
    k :: match F.parent k with
      | none => []
      | some p => walk n p

def path (k : K) : List K := F.walk (F.height k) k

variable {a b k p t : K}

theorem path_root (h : F.parent k = none) : F.path k = [k] := by
  rw [path]
  cases F.height k with
  | zero => rfl
  | succ n => rw [walk, h]

theorem path_parent (h : F.parent k = some p) : F.path k = k :: F.path p := by
  rw [path, F.height_parent k p h, walk, h]
  rfl

theorem path_cons (k : K) : ∃ rest, F.path k = k :: rest := by
  cases hp : F.parent k with
  | none => exact ⟨[], F.path_root hp⟩
  | some p => exact ⟨F.path p, F.path_parent hp⟩

theorem path_induction {motive : K → Prop} (root : ∀ k, F.parent k = none → motive k)
    (child : ∀ k p, F.parent k = some p → motive p → motive k) (k : K) : motive k := by
  induction hn : F.height k generalizing k with
  | zero =>
    cases hp : F.parent k with
    | none => exact root k hp
    | some p =>
      have := F.height_parent k p hp
      omega
  | succ n ih =>
    cases hp : F.parent k with
    | none => exact root k hp
    | some p =>
      have := F.height_parent k p hp
      exact child k p hp (ih p (by omega))

theorem path_isChain (k : K) : (F.path k).IsChain fun x y => F.parent x = some y := by
  induction k using F.path_induction with
  | root k hp => rw [F.path_root hp]; exact List.isChain_singleton k
  | child k p hp ih =>
    obtain ⟨rest, hrest⟩ := F.path_cons p
    rw [F.path_parent hp]
    rw [hrest] at ih ⊢
    exact List.isChain_cons_cons.mpr ⟨hp, ih⟩

theorem self_mem_path (k : K) : k ∈ F.path k := by
  cases hp : F.parent k with
  | none => rw [F.path_root hp]; exact List.mem_singleton_self k
  | some p => rw [F.path_parent hp]; exact List.mem_cons_self ..

theorem mem_path_iff (a k : K) : a ∈ F.path k ↔ a = k ∨ ∃ p, F.parent k = some p ∧ a ∈ F.path p := by
  cases hp : F.parent k with
  | none => rw [F.path_root hp]; simp
  | some p => rw [F.path_parent hp]; simp

theorem height_le_of_mem (h : a ∈ F.path k) : F.height a ≤ F.height k := by
  induction k using F.path_induction with
  | root k hp =>
    rw [F.path_root hp, List.mem_singleton] at h
    rw [h]
  | child k p hp ih =>
    rw [F.path_parent hp, List.mem_cons] at h
    rcases h with rfl | h
    · exact Nat.le_refl _
    · have := ih h
      have := F.height_parent k p hp
      omega

theorem eq_of_mem_of_height (h : a ∈ F.path k) (hh : F.height k ≤ F.height a) : a = k := by
  rcases (F.mem_path_iff a k).mp h with rfl | ⟨p, hp, hmem⟩
  · rfl
  · have := F.height_le_of_mem hmem
    have := F.height_parent k p hp
    omega

theorem path_suffix (h : a ∈ F.path k) : F.path a <:+ F.path k := by
  induction k using F.path_induction with
  | root k hp =>
    rw [F.path_root hp, List.mem_singleton] at h
    rw [h]
  | child k p hp ih =>
    rcases (F.mem_path_iff a k).mp h with rfl | ⟨p', hp', hmem⟩
    · exact List.suffix_refl _
    · obtain rfl := Option.some.inj (hp.symm.trans hp')
      rw [F.path_parent hp]
      exact (ih hmem).trans (List.suffix_cons k _)

theorem mem_trans {c : K} (hab : a ∈ F.path b) (hbc : b ∈ F.path c) : a ∈ F.path c :=
  (F.path_suffix hbc).subset hab

theorem exists_child_of_mem (h : a ∈ F.path k) (hne : a ≠ k) :
    ∃ b, F.parent b = some a ∧ b ∈ F.path k := by
  induction k using F.path_induction with
  | root k hp =>
    rw [F.path_root hp, List.mem_singleton] at h
    exact absurd h hne
  | child k p hp ih =>
    rcases (F.mem_path_iff a k).mp h with rfl | ⟨p', hp', hmem⟩
    · exact absurd rfl hne
    · obtain rfl := Option.some.inj (hp.symm.trans hp')
      by_cases hap : a = p
      · exact ⟨k, hap ▸ hp, F.self_mem_path k⟩
      · obtain ⟨b, hb, hbp⟩ := ih hmem hap
        exact ⟨b, hb, (F.mem_path_iff b k).mpr (.inr ⟨p, hp, hbp⟩)⟩

theorem exists_root (k : K) : ∃ r ∈ F.path k, F.parent r = none := by
  induction k using F.path_induction with
  | root k hp => exact ⟨k, F.self_mem_path k, hp⟩
  | child k p hp ih =>
    obtain ⟨r, hr, hroot⟩ := ih
    exact ⟨r, (F.mem_path_iff r k).mpr (.inr ⟨p, hp, hr⟩), hroot⟩

theorem mem_path_of_parent (hp : F.parent k = some p) (h : a ∈ F.path p) :
    a ∈ F.path k := (F.mem_path_iff a k).mpr (.inr ⟨p, hp, h⟩)

theorem mem_total (ha : a ∈ F.path k) (hb : b ∈ F.path k) : a ∈ F.path b ∨ b ∈ F.path a := by
  induction k using F.path_induction with
  | root k hp =>
    rw [F.path_root hp, List.mem_singleton] at ha hb
    rw [ha, hb]
    exact .inl (F.self_mem_path k)
  | child k p hp ih =>
    rcases (F.mem_path_iff a k).mp ha with rfl | ⟨p', hp', hap⟩
    · exact .inr hb
    · rcases (F.mem_path_iff b k).mp hb with rfl | ⟨p'', hp'', hbp⟩
      · exact .inl ha
      · obtain rfl := Option.some.inj (hp.symm.trans hp')
        obtain rfl := Option.some.inj (hp.symm.trans hp'')
        exact ih hap hbp

theorem eq_of_mem_of_mem (hab : a ∈ F.path b) (hba : b ∈ F.path a) : a = b :=
  F.eq_of_mem_of_height hab (F.height_le_of_mem hba)

theorem mem_path_of_height_le (ha : a ∈ F.path k) (hb : b ∈ F.path k)
    (hh : F.height a ≤ F.height b) : a ∈ F.path b := by
  rcases F.mem_total ha hb with hab | hba
  · exact hab
  · rw [F.eq_of_mem_of_height hba hh]
    exact F.self_mem_path a

theorem eq_of_height_eq (ha : a ∈ F.path k) (hb : b ∈ F.path k) (hh : F.height a = F.height b) : a = b :=
  F.eq_of_mem_of_height (F.mem_path_of_height_le ha hb hh.le) hh.ge

section
variable [DecidableEq K]

def fork (k t : K) : Option K := (F.path k).find? fun a => decide (a ∈ F.path t)

theorem fork_mem {f : K} (h : F.fork k t = some f) : f ∈ F.path k ∧ f ∈ F.path t :=
  ⟨List.mem_of_find?_eq_some h, by simpa using List.find?_some h⟩

theorem fork_parent (hp : F.parent k = some p) (hk : k ∉ F.path t) : F.fork k t = F.fork p t := by
  rw [fork, F.path_parent hp, List.find?_cons_of_neg (by simpa using hk)]
  rfl

/-- **every common node lies above the fork** -/
theorem mem_path_fork (hk : a ∈ F.path k) (ht : a ∈ F.path t) :
    ∃ f, F.fork k t = some f ∧ a ∈ F.path f := by
  induction k using F.path_induction with
  | root k hp =>
    rw [F.path_root hp, List.mem_singleton] at hk
    subst hk
    exact ⟨a, by rw [fork, F.path_root hp, List.find?_cons_of_pos (by simpa using ht)],
      F.self_mem_path a⟩
  | child k p hp ih =>
    by_cases hkt : k ∈ F.path t
    · exact ⟨k, by rw [fork, F.path_parent hp, List.find?_cons_of_pos (by simpa using hkt)], hk⟩
    · rcases (F.mem_path_iff a k).mp hk with rfl | ⟨p', hp', hmem⟩
      · exact absurd ht hkt
      · obtain rfl := Option.some.inj (hp.symm.trans hp')
        rw [F.fork_parent hp hkt]
        exact ih hmem

end

end Forest
