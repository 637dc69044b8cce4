import ElektronNet.SnapshotTransfer

/-!
# The ranges of a download

`AddRange`, `IsComplete` and `GetNextMissingOffset` of `SnapshotDownload` in `net_processing.cpp`: what
has arrived of a file, as ranges in the order of their starts.

* `Canonical`         no range is empty, and between two of them a byte is missing
* `mergeRanges_spec`  the loop that takes in the ranges behind the new one
* `addRange_spec`     a call keeps the ranges canonical and adds the bytes that have arrived
* `ranges_exact`      what the three functions say after any calls
-/

namespace ElektronNet

open List

structure Canonical (ranges : List (Nat × Nat)) : Prop where
  nonempty : ∀ r ∈ ranges, r.1 < r.2
  apart : ranges.Pairwise fun r q => r.2 < q.1

/-- the value that `AddRange` returns -/
def addRangeReturns (file_size : Nat) (ranges : List (Nat × Nat)) (offset length : Nat) : Bool :=
  rangesComplete file_size (addRange ranges offset length)

/-- `received_ranges` after calls with these offsets and lengths -/
def receivedRanges (calls : List (Nat × Nat)) : List (Nat × Nat) :=
  calls.foldl (fun ranges call => addRange ranges call.1 call.2) []

variable {ranges front later : List (Nat × Nat)} {r q : Nat × Nat}
  {start stop offset length file_size : Nat}

theorem canonical_cons : Canonical (r :: ranges) ↔
    r.1 < r.2 ∧ (∀ q ∈ ranges, r.2 < q.1) ∧ Canonical ranges := by
  constructor
  · rintro ⟨hne, hapart⟩
    obtain ⟨hhead, htail⟩ := pairwise_cons.mp hapart
    exact ⟨hne r mem_cons_self, hhead, fun q hq => hne q (mem_cons_of_mem r hq), htail⟩
  · rintro ⟨hne, hhead, htail⟩
    exact ⟨forall_mem_cons.mpr ⟨hne, htail.nonempty⟩, pairwise_cons.mpr ⟨hhead, htail.apart⟩⟩

theorem canonical_append : Canonical (front ++ later) ↔
    Canonical front ∧ Canonical later ∧ ∀ r ∈ front, ∀ q ∈ later, r.2 < q.1 := by
  induction front with
  | nil => simp [show Canonical [] from ⟨by simp, Pairwise.nil⟩]
  | cons p front ih =>
    rw [cons_append, canonical_cons, canonical_cons]
    simp only [mem_append, or_imp, forall_and, forall_mem_cons]
    tauto

/-- the first range is the only one that starts before its end -/
theorem Canonical.eq_head (h : Canonical (r :: ranges)) (hq : q ∈ r :: ranges) (hle : q.1 ≤ r.2) :
    q = r := by
  rcases mem_cons.mp hq with rfl | hq
  · rfl
  · exact absurd ((canonical_cons.mp h).2.1 q hq) (Nat.not_lt.mpr hle)

theorem Canonical.head_le (h : Canonical (r :: ranges)) (hq : q ∈ r :: ranges) : r.1 ≤ q.1 := by
  by_cases hle : q.1 ≤ r.2
  · rw [h.eq_head hq hle]
  · have hne := (canonical_cons.mp h).1
    omega

theorem inRanges_cons (r : Nat × Nat) (ranges : List (Nat × Nat)) (i : Nat) :
    InRanges (r :: ranges) i ↔ (r.1 ≤ i ∧ i < r.2) ∨ InRanges ranges i := by
  simp [InRanges]

theorem inRanges_append (front later : List (Nat × Nat)) (i : Nat) :
    InRanges (front ++ later) i ↔ InRanges front i ∨ InRanges later i := by
  simp only [InRanges, mem_append, or_and_right, exists_or]

theorem not_inRanges_nil (i : Nat) : ¬ InRanges [] i := by
  simp [InRanges]

/-! ## a call -/

theorem mergeRanges_spec (h : Canonical later) (hne : start < stop) (hafter : ∀ r ∈ later, start ≤ r.1) :
    Canonical (mergeRanges start stop later) ∧ (∀ r ∈ mergeRanges start stop later, start ≤ r.1) ∧
      ∀ i, InRanges (mergeRanges start stop later) i ↔ InRanges later i ∨ (start ≤ i ∧ i < stop) := by
  induction later generalizing stop with
  | nil =>
    refine ⟨canonical_cons.mpr ⟨hne, by simp, h⟩, by simp [mergeRanges], fun i => ?_⟩
    rw [mergeRanges, inRanges_cons, or_comm]
  | cons r later ih =>
    obtain ⟨hr, hgap, hlater⟩ := canonical_cons.mp h
    have hstart := hafter r mem_cons_self
    rw [mergeRanges]
    split
    · rename_i htouch
      obtain ⟨hcan, hfirst, hin⟩ := ih hlater (hne.trans_le (le_max_left stop r.2))
        fun q hq => hafter q (mem_cons_of_mem r hq)
      refine ⟨hcan, hfirst, fun i => ?_⟩
      have hmerge : start ≤ i ∧ i < max stop r.2 ↔ (r.1 ≤ i ∧ i < r.2) ∨ (start ≤ i ∧ i < stop) := by
        omega
      rw [hin, hmerge, inRanges_cons, ← or_assoc, or_comm (a := InRanges later i)]
    · rename_i hbehind
      refine ⟨canonical_cons.mpr ⟨hne, fun q hq => ?_, h⟩, ?_, fun i => ?_⟩
      · exact (Nat.lt_of_not_le hbehind).trans_le (h.head_le hq)
      · exact forall_mem_cons.mpr ⟨Nat.le_refl start, hafter⟩
      · rw [inRanges_cons, or_comm]

theorem insert_spec (hfront : Canonical front) (hbefore : ∀ r ∈ front, r.2 < start)
    (hlater : Canonical later) (hafter : ∀ r ∈ later, start ≤ r.1) (hne : start < stop) :
    Canonical (front ++ mergeRanges start stop later) ∧
      ∀ i, InRanges (front ++ mergeRanges start stop later) i ↔
        InRanges (front ++ later) i ∨ (start ≤ i ∧ i < stop) := by
  obtain ⟨hcan, hfirst, hin⟩ := mergeRanges_spec hlater hne hafter
  refine ⟨canonical_append.mpr ⟨hfront, hcan, fun r hr q hq => ?_⟩, fun i => ?_⟩
  · exact (hbefore r hr).trans_le (hfirst q hq)
  · rw [inRanges_append, inRanges_append, hin, or_assoc]

theorem le_of_mem_dropWhile (h : Canonical ranges)
    (hq : q ∈ ranges.dropWhile fun r => r.1 < offset) : offset ≤ q.1 := by
  induction ranges with
  | nil => cases hq
  | cons r ranges ih =>
    rw [dropWhile_cons] at hq
    split at hq
    · exact ih (canonical_cons.mp h).2.2 hq
    · rename_i hstart
      have hle : offset ≤ r.1 := by simpa using hstart
      exact hle.trans (h.head_le hq)

/-- **a call adds exactly the bytes that have arrived** -/
theorem addRange_spec (h : Canonical ranges) (offset length : Nat) :
    Canonical (addRange ranges offset length) ∧
      ∀ i, InRanges (addRange ranges offset length) i ↔
        InRanges ranges i ∨ (offset ≤ i ∧ i < offset + length) := by
  unfold addRange
  by_cases hzero : length = 0
  · rw [if_pos hzero]
    exact ⟨h, fun i => ⟨.inl, fun hi => hi.resolve_right (by omega)⟩⟩
  have hne : offset < offset + length := by omega
  rw [if_neg hzero]
  dsimp only
  have hafter : ∀ q ∈ ranges.dropWhile (fun r => r.1 < offset), offset ≤ q.1 :=
    fun q hq => le_of_mem_dropWhile h hq
  have hstart : ∀ q ∈ ranges.takeWhile (fun r => r.1 < offset), q.1 < offset := by
    intro q hq
    simpa using mem_takeWhile_imp hq
  have hsplit := takeWhile_append_dropWhile (p := fun r : Nat × Nat => decide (r.1 < offset)) (l := ranges)
  generalize ranges.takeWhile (fun r => decide (r.1 < offset)) = front at hsplit hstart ⊢
  generalize ranges.dropWhile (fun r => decide (r.1 < offset)) = later at hsplit hafter ⊢
  subst hsplit
  obtain ⟨hfront, hlater, hcross⟩ := canonical_append.mp h
  split
  · rename_i hnone
    obtain rfl := getLast?_eq_none_iff.mp hnone
    exact insert_spec hfront (by simp) hlater hafter hne
  · rename_i prev hprev
    obtain ⟨earlier, rfl⟩ : ∃ earlier, front = earlier ++ [prev] :=
      ⟨_, (dropLast_append_getLast? prev hprev).symm⟩
    obtain ⟨hearlier, hone, hapart⟩ := canonical_append.mp hfront
    have hprevne := (canonical_cons.mp hone).1
    have hprevlt := hstart prev (by simp)
    have hbefore : ∀ r ∈ earlier, r.2 < prev.1 := fun r hr => hapart r hr prev mem_cons_self
    split
    · -- the range before the offset reaches up to it, and is merged too
      rw [dropLast_concat]
      obtain ⟨hcan, hin⟩ := insert_spec hearlier hbefore hlater
        (fun q hq => hprevne.le.trans (hcross prev (by simp) q hq).le)
        (hprevne.trans_le (le_max_right (offset + length) prev.2))
      refine ⟨hcan, fun i => (hin i).trans ?_⟩
      have hmerge : prev.1 ≤ i ∧ i < max (offset + length) prev.2 ↔
          (prev.1 ≤ i ∧ i < prev.2) ∨ (offset ≤ i ∧ i < offset + length) := by omega
      simp only [inRanges_append, inRanges_cons, not_inRanges_nil, or_false, hmerge]
      tauto
    · rename_i hgap
      refine insert_spec hfront (fun r hr => ?_) hlater hafter hne
      rcases mem_append.mp hr with hr | hr
      · have := hbefore r hr
        omega
      · rw [mem_singleton.mp hr]
        omega

/-! ## what the ranges tell -/

theorem Canonical.not_inRanges (h : Canonical (r :: ranges)) : ¬ InRanges (r :: ranges) r.2 := by
  rintro ⟨q, hq, hle, hlt⟩
  rw [h.eq_head hq hle] at hlt
  exact Nat.lt_irrefl _ hlt

theorem rangesComplete_iff (h : Canonical ranges) (hle : ∀ i, InRanges ranges i → i < file_size) :
    rangesComplete file_size ranges = true ↔
      0 < file_size ∧ ∀ i, InRanges ranges i ↔ i < file_size := by
  constructor
  · intro hcomplete
    obtain ⟨hpos, hall⟩ := rangesComplete_covers hcomplete
    exact ⟨hpos, fun i => ⟨hle i, hall i⟩⟩
  · rintro ⟨hpos, hall⟩
    obtain ⟨q, hq, hzero, -⟩ := (hall 0).mpr hpos
    cases ranges with
    | nil => cases hq
    | cons r ranges =>
      -- the first byte is in the first range, and the byte behind that range is behind the file
      have hfirst := (h.head_le hq).trans hzero
      have hend := h.not_inRanges
      rw [hall, Nat.not_lt] at hend
      simp [rangesComplete, Nat.le_zero.mp hfirst, hpos.ne', hend]

theorem getNextMissingOffset_least (h : Canonical ranges) (hpos : 0 < file_size) :
    (∀ i < getNextMissingOffset file_size ranges, InRanges ranges i) ∧
      ¬ InRanges ranges (getNextMissingOffset file_size ranges) := by
  unfold getNextMissingOffset
  rw [if_neg hpos.ne']
  cases ranges with
  | nil => exact ⟨by simp, not_inRanges_nil 0⟩
  | cons r ranges =>
    dsimp only
    split
    · rename_i hfirst
      refine ⟨by simp, fun ⟨q, hq, hzero, _⟩ => ?_⟩
      have := h.head_le hq
      omega
    · exact ⟨fun i hi => ⟨r, mem_cons_self, by omega, hi⟩, h.not_inRanges⟩

/-! ## calls -/

theorem receivedRanges_spec (calls : List (Nat × Nat)) :
    Canonical (receivedRanges calls) ∧ ∀ i, InRanges (receivedRanges calls) i ↔
      ∃ call ∈ calls, call.1 ≤ i ∧ i < call.1 + call.2 := by
  induction calls using reverseRecOn with
  | nil => exact ⟨⟨by simp [receivedRanges], Pairwise.nil⟩, by simp [receivedRanges, InRanges]⟩
  | append_singleton calls call ih =>
    obtain ⟨hcan, hin⟩ := ih
    have hstep : receivedRanges (calls ++ [call]) = addRange (receivedRanges calls) call.1 call.2 := by
      rw [receivedRanges, foldl_concat, receivedRanges]
    obtain ⟨hcan', hin'⟩ := addRange_spec hcan call.1 call.2
    rw [hstep]
    refine ⟨hcan', fun i => ?_⟩
    rw [hin', hin]
    simp only [mem_append, mem_singleton, or_and_right, exists_or, exists_eq_left]

/-- **The ranges are canonical and hold what has arrived; the download is complete when that is the
whole file, and asks for the first byte that is missing.** -/
theorem ranges_exact {calls : List (Nat × Nat)} (h : ∀ call ∈ calls, call.1 + call.2 ≤ file_size) :
    Canonical (receivedRanges calls) ∧
    (∀ i, InRanges (receivedRanges calls) i ↔ ∃ call ∈ calls, call.1 ≤ i ∧ i < call.1 + call.2) ∧
    (rangesComplete file_size (receivedRanges calls) = true ↔
      0 < file_size ∧ ∀ i, InRanges (receivedRanges calls) i ↔ i < file_size) ∧
    (∀ offset length, offset + length ≤ file_size →
      (addRangeReturns file_size (receivedRanges calls) offset length = true ↔ 0 < file_size ∧
        ∀ i, InRanges (receivedRanges (calls ++ [(offset, length)])) i ↔ i < file_size)) ∧
    (0 < file_size →
      (∀ i < getNextMissingOffset file_size (receivedRanges calls), InRanges (receivedRanges calls) i) ∧
      ¬ InRanges (receivedRanges calls) (getNextMissingOffset file_size (receivedRanges calls))) := by
  have hcomplete : ∀ calls : List (Nat × Nat), (∀ call ∈ calls, call.1 + call.2 ≤ file_size) →
      (rangesComplete file_size (receivedRanges calls) = true ↔
        0 < file_size ∧ ∀ i, InRanges (receivedRanges calls) i ↔ i < file_size) := by
    intro calls hcalls
    obtain ⟨hcan, hin⟩ := receivedRanges_spec calls
    refine rangesComplete_iff hcan fun i hi => ?_
    obtain ⟨call, hmem, -, hlt⟩ := (hin i).mp hi
    exact hlt.trans_le (hcalls call hmem)
  obtain ⟨hcan, hin⟩ := receivedRanges_spec calls
  refine ⟨hcan, hin, hcomplete calls h, fun offset length hle => ?_, getNextMissingOffset_least hcan⟩
  have hnext : addRange (receivedRanges calls) offset length =
      receivedRanges (calls ++ [(offset, length)]) := by
    rw [receivedRanges, receivedRanges, foldl_concat]
  rw [addRangeReturns, hnext]
  refine hcomplete _ fun call hcall => ?_
  rcases mem_append.mp hcall with hcall | hcall
  · exact h call hcall
  · obtain rfl := mem_singleton.mp hcall
    exact hle

/-- the second call closes the gap that the first has left -/
theorem ranges_exact_gap :
    receivedRanges [(4, 2), (0, 4)] = [(0, 6)] ∧ Canonical (receivedRanges [(4, 2), (0, 4)]) :=
  ⟨rfl, (@ranges_exact 6 [(4, 2), (0, 4)] (by decide)).1⟩

/-! ## the order of the calls -/

/-- canonical ranges are determined by the bytes in them -/
theorem Canonical.eq_of_inRanges {ranges' : List (Nat × Nat)} (h : Canonical ranges) (h' : Canonical ranges')
    (hin : ∀ i, InRanges ranges i ↔ InRanges ranges' i) : ranges = ranges' := by
  induction ranges generalizing ranges' with
  | nil =>
    cases ranges' with
    | nil => rfl
    | cons q ranges' =>
      have hq := (canonical_cons.mp h').1
      exact absurd ((hin q.1).mpr ⟨q, mem_cons_self, le_rfl, hq⟩) (not_inRanges_nil _)
  | cons r ranges ih =>
    obtain ⟨hr, hrest, htail⟩ := canonical_cons.mp h
    cases ranges' with
    | nil => exact absurd ((hin r.1).mp ⟨r, mem_cons_self, le_rfl, hr⟩) (not_inRanges_nil _)
    | cons q ranges' =>
      obtain ⟨hq, hrest', htail'⟩ := canonical_cons.mp h'
      -- the first byte of the one is in the other, and the byte behind the first range is in neither
      obtain ⟨a, ha, hle, -⟩ := (hin r.1).mp ⟨r, mem_cons_self, le_rfl, hr⟩
      obtain ⟨b, hb, hle', -⟩ := (hin q.1).mpr ⟨q, mem_cons_self, le_rfl, hq⟩
      have hstart := (h'.head_le ha).trans hle
      have hstart' := (h.head_le hb).trans hle'
      have hend := mt (hin r.2).mpr h.not_inRanges
      have hend' := mt (hin q.2).mp h'.not_inRanges
      simp only [inRanges_cons, not_or] at hend hend'
      obtain rfl : r = q := Prod.ext (by omega) (by omega)
      refine congrArg _ (ih htail htail' fun i => ?_)
      have hfar : ∀ l, (∀ c ∈ l, r.2 < c.1) → InRanges l i → ¬ (r.1 ≤ i ∧ i < r.2) := by
        rintro l hl ⟨c, hc, hci⟩
        have := hl c hc
        omega
      have := hin i
      rw [inRanges_cons, inRanges_cons] at this
      have := hfar _ hrest
      have := hfar _ hrest'
      tauto

/-- **the order, the overlaps and the repetitions of the chunks leave no trace** -/
theorem ranges_of_bytes {calls calls' : List (Nat × Nat)}
    (h : ∀ i, (∃ call ∈ calls, call.1 ≤ i ∧ i < call.1 + call.2) ↔
      ∃ call ∈ calls', call.1 ≤ i ∧ i < call.1 + call.2) :
    receivedRanges calls = receivedRanges calls' := by
  obtain ⟨hcan, hin⟩ := receivedRanges_spec calls
  obtain ⟨hcan', hin'⟩ := receivedRanges_spec calls'
  exact hcan.eq_of_inRanges hcan' fun i => (hin i).trans ((h i).trans (hin' i).symm)

theorem ranges_of_bytes_overlap : receivedRanges [(4, 2), (0, 5)] = receivedRanges [(0, 6)] :=
  ranges_of_bytes fun i => by simp; omega

end ElektronNet
