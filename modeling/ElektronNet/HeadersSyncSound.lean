import ElektronNet.HeadersSync

/-!
# What the second download releases

The buffer of compressed headers and the hash in front of it stand for a list of headers
(`fullHeaders`), which continues what was released.  The queue of bits knows no heights: what is left
of it is what the first pass stored above the headers that came again.

* `Continues`                     headers linked by their hashes, with permitted difficulties
* `commitmentsFrom`               the bits of a chain of headers, in the order of the heights
* `Presyncing`, `Redownloading`   the invariants of the two passes, one header at a time
* `SyncLog.Inv`                   the invariant of a run, one message at a time

`presync_sound` says what holds in every run: what is released is a chain from the start; as long as
the work is not reached, every header that is released has `redownload_buffer_size` more after it, and
all of them agree with the first pass; and neither queue grows beyond its bound.
-/

namespace ElektronNet

open List Outcome ArithUint256 Loop

section
variable (H : Hashes) (x : HeadersSyncSetup)

/-! ## chains of headers -/

/-- the headers follow each other from a block of this hash, height and difficulty -/
def Continues (params : PowParams) : Uint256 → Nat → Nat → List CBlockHeader → Prop
  | _, _, _, [] => True
  | hash, height, nBits, header :: headers =>
    header.hashPrevBlock = hash ∧
      permittedDifficultyTransition params (height + 1) nBits header.nBits = .ok true ∧
      Continues params (H.blockHash header) (height + 1) header.nBits headers

def lastHash (hash : Uint256) (headers : List CBlockHeader) : Uint256 :=
  headers.foldl (fun _ h => H.blockHash h) hash

def lastBits (nBits : Nat) (headers : List CBlockHeader) : Nat :=
  headers.foldl (fun _ h => h.nBits) nBits

theorem continues_append {params : PowParams} {hash : Uint256} {height nBits : Nat}
    {l m : List CBlockHeader} :
    Continues H params hash height nBits (l ++ m) ↔ Continues H params hash height nBits l ∧
      Continues H params (lastHash H hash l) (height + l.length) (lastBits nBits l) m := by
  induction l generalizing hash height nBits with
  | nil => exact ⟨fun h => ⟨trivial, h⟩, fun h => h.2⟩
  | cons h l ih =>
    have hlen : height + (h :: l).length = height + 1 + l.length := by
      rw [length_cons]
      omega
    rw [hlen]
    show (_ ∧ _ ∧ Continues H params _ _ _ (l ++ m)) ↔ (_ ∧ _ ∧ _) ∧ _
    rw [ih, and_assoc, and_assoc]
    rfl

def fullHeaders (prev : Uint256) : List CompressedHeader → List CBlockHeader
  | [] => []
  | c :: cs => c.getFullHeader prev :: fullHeaders (H.blockHash (c.getFullHeader prev)) cs

theorem fullHeaders_length (prev : Uint256) (cs : List CompressedHeader) :
    (fullHeaders H prev cs).length = cs.length := by
  induction cs generalizing prev with
  | nil => rfl
  | cons c cs ih => rw [fullHeaders, length_cons, length_cons, ih]

theorem fullHeaders_store {prev : Uint256} {cs : List CompressedHeader} {header : CBlockHeader}
    (h : header.hashPrevBlock = lastHash H prev (fullHeaders H prev cs)) :
    fullHeaders H prev (cs ++ [CompressedHeader.ofHeader header]) =
      fullHeaders H prev cs ++ [header] := by
  induction cs generalizing prev with
  | nil =>
    have hprev : header.hashPrevBlock = prev := h
    rw [← hprev]
    rfl
  | cons c cs ih =>
    exact congrArg _ (ih h)

theorem lastBits_fullHeaders (nBits : Nat) (prev : Uint256) (cs : List CompressedHeader) :
    lastBits nBits (fullHeaders H prev cs) = (cs.getLast?.map (·.nBits)).getD nBits := by
  induction cs generalizing prev nBits with
  | nil => rfl
  | cons c cs ih =>
    show lastBits c.nBits (fullHeaders H _ cs) = _
    rw [ih, getLast?_cons]
    cases cs.getLast? <;> rfl

theorem lastHash_append (hash : Uint256) (l m : List CBlockHeader) :
    lastHash H hash (l ++ m) = lastHash H (lastHash H hash l) m := foldl_append

theorem lastBits_append (nBits : Nat) (l m : List CBlockHeader) :
    lastBits nBits (l ++ m) = lastBits (lastBits nBits l) m := foldl_append

/-! ## the bits -/

def commitmentsFrom : Nat → List CBlockHeader → List Bool
  | _, [] => []
  | height, h :: hs =>
    (if x.commits (height + 1) then [commitment H x h] else []) ++ commitmentsFrom (height + 1) hs

theorem commitmentsFrom_append (height : Nat) (l m : List CBlockHeader) :
    commitmentsFrom H x height (l ++ m) =
      commitmentsFrom H x height l ++ commitmentsFrom H x (height + l.length) m := by
  induction l generalizing height with
  | nil => rfl
  | cons h l ih =>
    rw [cons_append, commitmentsFrom, commitmentsFrom, ih, append_assoc, length_cons,
      show height + 1 + l.length = height + (l.length + 1) by omega]

theorem commitmentsFrom_singleton (height : Nat) (header : CBlockHeader) :
    commitmentsFrom H x height [header] =
      if x.commits (height + 1) then [commitment H x header] else [] := append_nil _

/-- every header of `again` at a commitment height has the bit that was stored for `first` at this
height -/
def Matches (first again : List CBlockHeader) : Prop :=
  ∀ i header, again[i]? = some header → x.commits (x.m_chain_start.nHeight + i + 1) = true →
    ∃ before, first[i]? = some before ∧ commitment H x header = commitment H x before

/-- queues that agree as far as the second goes belong to headers that agree height by height -/
theorem matches_of_commitments {height : Nat} {first again : List CBlockHeader} {left : List Bool}
    (h : commitmentsFrom H x height first = commitmentsFrom H x height again ++ left) :
    ∀ i header, again[i]? = some header → x.commits (height + i + 1) = true →
      ∃ before, first[i]? = some before ∧ commitment H x header = commitment H x before := by
  induction again generalizing height first with
  | nil => exact fun i header hi => (by cases hi)
  | cons a again ih =>
    intro i header hi hcommits
    cases first with
    | nil =>
      -- no bit was stored, so `again` has none
      exfalso
      have hnil := (List.append_eq_nil_iff.mp h.symm).1
      have hmem : commitment H x header ∈ commitmentsFrom H x height (a :: again) := by
        obtain ⟨hlt, hget⟩ := List.getElem?_eq_some_iff.mp hi
        rw [← List.take_append_drop i (a :: again), commitmentsFrom_append,
          List.length_take_of_le hlt.le, List.drop_eq_getElem_cons hlt, hget, commitmentsFrom,
          if_pos hcommits]
        simp
      rw [hnil] at hmem
      cases hmem
    | cons f first =>
      rw [commitmentsFrom, commitmentsFrom] at h
      have htail : commitmentsFrom H x (height + 1) first =
          commitmentsFrom H x (height + 1) again ++ left := by
        cases hc : x.commits (height + 1) with
        | true =>
          rw [hc] at h
          exact (List.cons.inj h).2
        | false =>
          rw [hc] at h
          exact h
      cases i with
      | zero =>
        cases hi
        rw [hcommits] at h
        exact ⟨f, rfl, (List.cons.inj h).1.symm⟩
      | succ i =>
        have hheight : height + (i + 1) + 1 = height + 1 + i + 1 := by omega
        rw [hheight] at hcommits
        exact ih htail i header hi hcommits

/-! ## the work -/

/-- the work of a chain of headers on the start, an `arith_uint256` -/
def chainWork (headers : List CBlockHeader) : Nat :=
  (x.m_chain_start.nChainWork.val + (headers.map fun h => bitsProof h.nBits).sum) % 2 ^ 256

/-- at some header the chain had the required work -/
def Reached (headers : List CBlockHeader) : Prop :=
  ∃ k < headers.length, x.m_minimum_required_work.val ≤ chainWork x (headers.take (k + 1))

theorem chainWork_snoc (headers : List CBlockHeader) (header : CBlockHeader) :
    chainWork x (headers ++ [header]) =
      (chainWork x headers + bitsProof header.nBits) % 2 ^ 256 := by
  rw [chainWork, chainWork, map_append, sum_append, map_singleton,
    sum_singleton]
  omega

theorem Reached.append {headers : List CBlockHeader} (h : Reached x headers)
    (more : List CBlockHeader) : Reached x (headers ++ more) := by
  obtain ⟨k, hk, hwork⟩ := h
  refine ⟨k, ?_, ?_⟩
  · rw [length_append]
    omega
  · rwa [take_append_of_le_length hk]

theorem reached_snoc (headers : List CBlockHeader) (header : CBlockHeader) :
    Reached x (headers ++ [header]) ↔
      Reached x headers ∨ x.m_minimum_required_work.val ≤ chainWork x (headers ++ [header]) := by
  constructor
  · rintro ⟨k, hk, hwork⟩
    by_cases hlt : k < headers.length
    · rw [take_append_of_le_length hlt] at hwork
      exact .inl ⟨k, hlt, hwork⟩
    · rw [take_of_length_le (by simp; omega)] at hwork
      exact .inr hwork
  · rintro (hreached | hwork)
    · exact hreached.append x [header]
    · refine ⟨headers.length, ?_, ?_⟩
      · rw [length_append, length_singleton]
        omega
      · rwa [take_of_length_le (by simp)]

end

/-! ## the first pass -/

section
variable {H : Hashes} {x : HeadersSyncSetup} {s s' : HeadersSyncState} {b : Bool}
  {presynced redownloaded released headers : List CBlockHeader} {header : CBlockHeader}

/-- `presynced` was taken and the work is not reached -/
structure Presyncing (H : Hashes) (x : HeadersSyncSetup) (presynced : List CBlockHeader)
    (s : HeadersSyncState) : Prop where
  state : s.m_download_state = .PRESYNC
  height : s.m_current_height = x.m_chain_start.nHeight + presynced.length
  commitments : s.m_header_commitments = commitmentsFrom H x x.m_chain_start.nHeight presynced
  bounded : s.m_header_commitments.length ≤ x.m_max_commitments
  buffer : s.m_redownloaded_headers = []
  flag : s.m_process_all_remaining_headers = false

theorem validateAndProcessSingleHeader_cases (h : validateAndProcessSingleHeader H x header s = .ok (b, s')) :
    (b = false ∧ (s' = s ∨ s' = { s with
        m_header_commitments := s.m_header_commitments ++ [commitment H x header] })) ∨
    (b = true ∧ ∃ work, s' = { s with
      m_header_commitments := s.m_header_commitments ++
        (if x.commits (s.m_current_height + 1) then [commitment H x header] else [])
      m_current_chain_work := work
      m_last_header_received := header
      m_current_height := s.m_current_height + 1 } ∧
      (x.commits (s.m_current_height + 1) = true →
        s'.m_header_commitments.length ≤ x.m_max_commitments)) := by
  unfold validateAndProcessSingleHeader at h
  split at h
  · cases h
    exact .inl ⟨rfl, .inl rfl⟩
  obtain ⟨permitted, -, h⟩ := bind_eq_ok.mp h
  split at h
  · cases h
    exact .inl ⟨rfl, .inl rfl⟩
  split at h
  · rename_i hcommits
    dsimp only at h
    split at h
    · cases h
      exact .inl ⟨rfl, .inr rfl⟩
    · rename_i hle
      obtain ⟨proof, -, h⟩ := bind_eq_ok.mp h
      cases h
      refine .inr ⟨rfl, s.m_current_chain_work.add proof, ?_, fun _ => Nat.not_lt.mp hle⟩
      rw [if_pos hcommits]
  · rename_i hcommits
    obtain ⟨proof, -, h⟩ := bind_eq_ok.mp h
    cases h
    refine .inr ⟨rfl, s.m_current_chain_work.add proof, ?_, fun hc => absurd hc hcommits⟩
    rw [if_neg hcommits, append_nil]

theorem Presyncing.step (hs : Presyncing H x presynced s)
    (h : validateAndProcessSingleHeader H x header s = .ok (true, s')) :
    Presyncing H x (presynced ++ [header]) s' := by
  rcases validateAndProcessSingleHeader_cases h with ⟨hb, -⟩ | ⟨-, work, hs', hbound⟩
  · cases hb
  rw [hs.height] at hs' hbound
  subst hs'
  refine ⟨hs.state, ?_, ?_, ?_, hs.buffer, hs.flag⟩
  · rw [length_append, length_singleton, Nat.add_assoc]
  · show s.m_header_commitments ++ _ = _
    rw [commitmentsFrom_append, commitmentsFrom_singleton, hs.commitments]
  · by_cases hc : x.commits (x.m_chain_start.nHeight + presynced.length + 1) = true
    · exact hbound hc
    · show (s.m_header_commitments ++ _).length ≤ _
      rw [if_neg hc, append_nil]
      exact hs.bounded

theorem Presyncing.during (hs : Presyncing H x presynced s)
    (h : forEach (validateAndProcessSingleHeader H x) headers s = .ok (b, s')) :
    s'.m_header_commitments.length ≤ x.m_max_commitments + 1 ∧ s'.m_redownloaded_headers = [] := by
  rcases forEach_cases (fun _ _ _ _ => Presyncing.step) hs h with
    ⟨-, hend⟩ | ⟨-, _, a, _, s₁, -, hs₁, hfail⟩
  · exact ⟨Nat.le_succ_of_le hend.bounded, hend.buffer⟩
  have hbound := hs₁.bounded
  rcases validateAndProcessSingleHeader_cases hfail with ⟨-, rfl | rfl⟩ | ⟨hb, -⟩
  · exact ⟨Nat.le_succ_of_le hbound, hs₁.buffer⟩
  · refine ⟨?_, hs₁.buffer⟩
    rw [length_append, length_singleton]
    omega
  · cases hb

/-! ## the second pass -/

/-- after `redownloaded`, of which `released` was returned -/
structure Redownloading (H : Hashes) (x : HeadersSyncSetup)
    (presynced redownloaded released : List CBlockHeader) (s : HeadersSyncState) : Prop where
  state : s.m_download_state = .REDOWNLOAD
  split : redownloaded = released ++
    fullHeaders H s.m_redownload_buffer_first_prev_hash s.m_redownloaded_headers
  first : s.m_redownload_buffer_first_prev_hash = lastHash H x.m_chain_start.hash released
  last : s.m_redownload_buffer_last_hash = lastHash H x.m_chain_start.hash redownloaded
  height : s.m_redownload_buffer_last_height = x.m_chain_start.nHeight + redownloaded.length
  linked : Continues H x.m_consensus_params x.m_chain_start.hash x.m_chain_start.nHeight
    x.m_chain_start.header.nBits redownloaded
  /-- a buffer that is empty never held anything -/
  unreleased : s.m_redownloaded_headers = [] → released = []
  work : s.m_redownload_chain_work.val = chainWork x redownloaded
  flag : s.m_process_all_remaining_headers = true ↔ Reached x redownloaded
  matched : ¬ Reached x redownloaded →
    commitmentsFrom H x x.m_chain_start.nHeight presynced =
      commitmentsFrom H x x.m_chain_start.nHeight redownloaded ++ s.m_header_commitments
  bounded : s.m_header_commitments.length ≤ x.m_max_commitments

theorem validateAndStoreRedownloadedHeader_cases
    (h : validateAndStoreRedownloadedHeader H x header s = .ok (b, s')) :
    (b = false ∧ s'.m_header_commitments.length ≤ s.m_header_commitments.length ∧
      s'.m_redownloaded_headers = s.m_redownloaded_headers) ∨
    (b = true ∧ header.hashPrevBlock = s.m_redownload_buffer_last_hash ∧
      permittedDifficultyTransition x.m_consensus_params (s.m_redownload_buffer_last_height + 1)
        (previousBits x s) header.nBits = .ok true ∧
      ∃ proof left, getBlockProof header = .ok proof ∧
        s' = storeRedownloaded H header { countWork x proof s with m_header_commitments := left } ∧
        s.m_header_commitments = (if !(countWork x proof s).m_process_all_remaining_headers &&
          x.commits (s.m_redownload_buffer_last_height + 1) then [commitment H x header] else []) ++
            left) := by
  unfold validateAndStoreRedownloadedHeader at h
  split at h
  · cases h
    exact .inl ⟨rfl, le_rfl, rfl⟩
  dsimp only at h
  split at h
  · cases h
    exact .inl ⟨rfl, le_rfl, rfl⟩
  rename_i hprev
  obtain ⟨permitted, hpermitted, h⟩ := bind_eq_ok.mp h
  cases permitted with
  | false =>
    cases h
    exact .inl ⟨rfl, le_rfl, rfl⟩
  | true =>
    obtain ⟨proof, hproof, h⟩ := bind_eq_ok.mp h
    split at h
    · rename_i hcheck
      split at h
      · rename_i hempty
        cases h
        exact .inl ⟨rfl, le_rfl, rfl⟩
      · rename_i expected rest hqueue
        have hqueue' : s.m_header_commitments = expected :: rest := hqueue
        split at h
        · cases h
          refine .inl ⟨rfl, ?_, rfl⟩
          rw [hqueue']
          exact Nat.le_succ _
        · rename_i heq
          cases h
          refine .inr ⟨rfl, not_not.mp hprev, hpermitted, proof, rest, hproof, rfl, ?_⟩
          rw [if_pos hcheck, hqueue', not_not.mp heq]
          rfl
    · rename_i hcheck
      cases h
      refine .inr ⟨rfl, not_not.mp hprev, hpermitted, proof, s.m_header_commitments, hproof, rfl, ?_⟩
      rw [if_neg hcheck]
      rfl

section
variable (hs : Redownloading H x presynced redownloaded released s)
include hs

theorem Redownloading.previousBits :
    previousBits x s = lastBits x.m_chain_start.header.nBits redownloaded := by
  rw [hs.split, lastBits_append, lastBits_fullHeaders, ElektronNet.previousBits]
  cases hlast : s.m_redownloaded_headers.getLast? with
  | some back => rfl
  | none =>
    rw [hs.unreleased (getLast?_eq_none_iff.mp hlast)]
    rfl

theorem Redownloading.counted {proof : ArithUint256} (hproof : getBlockProof header = .ok proof) :
    (countWork x proof s).m_redownload_chain_work.val = chainWork x (redownloaded ++ [header]) ∧
      ((countWork x proof s).m_process_all_remaining_headers = true ↔
        Reached x (redownloaded ++ [header])) := by
  have hwork : (countWork x proof s).m_redownload_chain_work.val =
      chainWork x (redownloaded ++ [header]) := by
    obtain ⟨proof', hproof', hval⟩ := getBitsProof_ok header.nBits
    obtain rfl : proof = proof' := Except.ok.inj (hproof.symm.trans hproof')
    show (s.m_redownload_chain_work.add proof).val = _
    rw [add_val, hs.work, hval, chainWork_snoc]
  refine ⟨hwork, ?_⟩
  rw [reached_snoc, ← hwork, ← hs.flag]
  show (_ || ArithUint256.ge (countWork x proof s).m_redownload_chain_work _) = true ↔ _
  rw [Bool.or_eq_true, ge_eq, decide_eq_true_iff]

theorem Redownloading.step (h : validateAndStoreRedownloadedHeader H x header s = .ok (true, s')) :
    Redownloading H x presynced (redownloaded ++ [header]) released s' := by
  rcases validateAndStoreRedownloadedHeader_cases h with
    ⟨hb, -⟩ | ⟨-, hprev, hpermitted, proof, left, hproof, rfl, hqueue⟩
  · cases hb
  obtain ⟨hwork, hflag⟩ := hs.counted hproof
  have hstored : fullHeaders H s.m_redownload_buffer_first_prev_hash
      (s.m_redownloaded_headers ++ [CompressedHeader.ofHeader header]) =
        fullHeaders H s.m_redownload_buffer_first_prev_hash s.m_redownloaded_headers ++ [header] := by
    apply fullHeaders_store
    rw [hprev, hs.last, hs.split, lastHash_append, ← hs.first]
  refine ⟨hs.state, ?_, hs.first, ?_, ?_, ?_, ?_, hwork, hflag, ?_, ?_⟩
  · show _ = released ++ fullHeaders H s.m_redownload_buffer_first_prev_hash
      (s.m_redownloaded_headers ++ [CompressedHeader.ofHeader header])
    rw [hstored, ← append_assoc, ← hs.split]
  · rw [lastHash_append]
    rfl
  · show s.m_redownload_buffer_last_height + 1 = _
    rw [hs.height, length_append, length_singleton, Nat.add_assoc]
  · rw [continues_append]
    refine ⟨hs.linked, hprev.trans hs.last, ?_, trivial⟩
    rw [← hs.height, ← hs.previousBits]
    exact hpermitted
  · intro hempty
    exact absurd hempty (by simp [storeRedownloaded])
  · intro hnot
    have hbefore : ¬ Reached x redownloaded := fun hr => hnot ((reached_snoc x _ _).mpr (.inl hr))
    have hfalse : (countWork x proof s).m_process_all_remaining_headers = false := by
      rw [← Bool.not_eq_true, hflag]
      exact hnot
    rw [hfalse, hs.height] at hqueue
    rw [commitmentsFrom_append, commitmentsFrom_singleton, hs.matched hbefore, hqueue,
      append_assoc]
    rfl
  · have hlen := congrArg List.length hqueue
    have hbound := hs.bounded
    rw [length_append] at hlen
    show left.length ≤ _
    omega

theorem Redownloading.length :
    redownloaded.length = released.length + s.m_redownloaded_headers.length := by
  have hlen := congrArg List.length hs.split
  rwa [length_append, fullHeaders_length] at hlen

theorem Redownloading.steps
    (h : forEach (validateAndStoreRedownloadedHeader H x) headers s = .ok (true, s')) :
    Redownloading H x presynced (redownloaded ++ headers) released s' := by
  rcases @forEach_cases _ _ _ _ (fun done s => Redownloading H x presynced done released s)
    (fun _ _ _ _ => Redownloading.step) _ _ _ _ _ hs h with ⟨-, hend⟩ | ⟨hb, -⟩
  · exact hend
  · cases hb

theorem Redownloading.during
    (h : forEach (validateAndStoreRedownloadedHeader H x) headers s = .ok (b, s')) :
    s'.m_header_commitments.length ≤ x.m_max_commitments ∧
      s'.m_redownloaded_headers.length ≤ s.m_redownloaded_headers.length + headers.length := by
  have hlen := hs.length
  rcases @forEach_cases _ _ _ _ (fun done s => Redownloading H x presynced done released s)
    (fun _ _ _ _ => Redownloading.step) _ _ _ _ _ hs h with
      ⟨-, hend⟩ | ⟨-, done, a, rest, s₁, rfl, hs₁, hfail⟩
  · have hlen' := hend.length
    rw [length_append] at hlen'
    exact ⟨hend.bounded, by omega⟩
  · have hlen₁ := hs₁.length
    rw [length_append] at hlen₁
    rcases validateAndStoreRedownloadedHeader_cases hfail with ⟨-, hqueue, hbuffer⟩ | ⟨hb, -⟩
    · refine ⟨hqueue.trans hs₁.bounded, ?_⟩
      rw [hbuffer, length_append]
      omega
    · cases hb

end

/-! ## releasing -/

theorem popHeaders_spec (all : Bool) (cs : List CompressedHeader) (prev : Uint256) :
    let r := popHeaders H x all cs prev
    fullHeaders H prev cs = r.1 ++ fullHeaders H r.2.2 r.2.1 ∧ r.2.2 = lastHash H prev r.1 ∧
      r.2.1.length ≤ x.m_params.redownload_buffer_size ∧ (all = true → r.2.1 = []) ∧
      (all = false → r.1 ≠ [] → r.2.1.length = x.m_params.redownload_buffer_size) := by
  induction cs generalizing prev with
  | nil => exact ⟨rfl, rfl, Nat.zero_le _, fun _ => rfl, fun _ h => absurd rfl h⟩
  | cons c cs ih =>
    obtain ⟨hfull, hprev, hle, hall, hsome⟩ := ih (H.blockHash (c.getFullHeader prev))
    rw [popHeaders]
    split
    · rename_i hpop
      refine ⟨congrArg _ hfull, hprev, hle, hall, fun hnot _ => ?_⟩
      dsimp only
      -- the buffer was longer than it may be, or it was not and nothing more is released
      by_cases hnone : (popHeaders H x all cs (H.blockHash (c.getFullHeader prev))).1 = []
      · have hlen := congrArg List.length hfull
        rw [hnone, nil_append, fullHeaders_length, fullHeaders_length] at hlen
        rw [hnot, Bool.or_false, decide_eq_true_iff] at hpop
        omega
      · exact hsome hnot hnone
    · rename_i hkeep
      rw [Bool.or_eq_true, not_or, decide_eq_true_iff, Nat.not_lt] at hkeep
      exact ⟨rfl, rfl, hkeep.1, fun h => absurd h hkeep.2, fun _ h => absurd rfl h⟩

theorem Redownloading.release (hs : Redownloading H x presynced redownloaded released s)
    (hsize : 1 ≤ x.m_params.redownload_buffer_size) :
    let r := popHeadersReadyForAcceptance H x s
    (∃ left, redownloaded = released ++ r.1 ++ left ∧
      r.2.m_redownloaded_headers.length = left.length) ∧
    r.2.m_redownloaded_headers.length ≤ x.m_params.redownload_buffer_size ∧
    (Reached x redownloaded → r.2.m_redownloaded_headers = [] ∧
      r.2.m_process_all_remaining_headers = true) ∧
    (¬ Reached x redownloaded → r.1 ≠ [] →
      r.2.m_redownloaded_headers.length = x.m_params.redownload_buffer_size) ∧
    (¬ Reached x redownloaded → Redownloading H x presynced redownloaded (released ++ r.1) r.2) := by
  obtain ⟨hfull, hprev, hle, hall, hsome⟩ := popHeaders_spec (H := H) (x := x)
    s.m_process_all_remaining_headers s.m_redownloaded_headers s.m_redownload_buffer_first_prev_hash
  rw [popHeadersReadyForAcceptance, if_neg (not_not.mpr hs.state)]
  generalize popHeaders H x s.m_process_all_remaining_headers s.m_redownloaded_headers
    s.m_redownload_buffer_first_prev_hash = r at hfull hprev hle hall hsome
  have hsplit := hs.split
  rw [hfull, ← append_assoc] at hsplit
  refine ⟨⟨_, hsplit, (fullHeaders_length H _ _).symm⟩, hle, fun hr => ?_, fun hnot => ?_, fun hnot => ?_⟩
  · have hflag := hs.flag.mpr hr
    exact ⟨hall hflag, hflag⟩
  · exact hsome (by rw [← Bool.not_eq_true, hs.flag]; exact hnot)
  · have hfalse : s.m_process_all_remaining_headers = false := by
      rw [← Bool.not_eq_true, hs.flag]
      exact hnot
    refine ⟨hs.state, hsplit, ?_, hs.last, hs.height, hs.linked, fun hempty => ?_, hs.work, hs.flag,
      hs.matched, hs.bounded⟩
    · show r.2.2 = _
      rw [lastHash_append, ← hs.first]
      exact hprev
    · have hempty' : r.2.1 = [] := hempty
      by_cases hnone : r.1 = []
      · rw [hnone, append_nil]
        apply hs.unreleased
        rw [hnone, hempty'] at hfull
        have hlen := congrArg List.length hfull
        rw [fullHeaders_length] at hlen
        exact length_eq_zero_iff.mp hlen
      · have hlen := hsome hfalse hnone
        rw [hempty', length_nil] at hlen
        omega

/-! ## messages keep the invariant -/

/-- what was released so far is a chain; as long as the work is not reached, enough came after it, and
all that came agrees with the first pass -/
structure SyncLog.Sound (H : Hashes) (x : HeadersSyncSetup) (log : SyncLog) : Prop where
  linked : Continues H x.m_consensus_params x.m_chain_start.hash x.m_chain_start.nHeight
    x.m_chain_start.header.nBits log.released
  followed : ∃ later, log.redownloaded = log.released ++ later ∧
    (¬ Reached x log.redownloaded → log.released ≠ [] →
      x.m_params.redownload_buffer_size ≤ later.length)
  agrees : ¬ Reached x log.redownloaded → Matches H x log.presynced log.redownloaded

/-- the state between two messages -/
def SyncLog.Phase (H : Hashes) (x : HeadersSyncSetup) (log : SyncLog) : Prop :=
  match log.state.m_download_state with
  | .PRESYNC => Presyncing H x log.presynced log.state ∧ log.redownloaded = [] ∧ log.released = []
  | .REDOWNLOAD =>
    Redownloading H x log.presynced log.redownloaded log.released log.state ∧
      ¬ Reached x log.redownloaded ∧
      log.state.m_redownloaded_headers.length ≤ x.m_params.redownload_buffer_size
  | .FINAL => log.state.m_header_commitments = [] ∧ log.state.m_redownloaded_headers = []

structure SyncLog.Inv (H : Hashes) (x : HeadersSyncSetup) (log : SyncLog) : Prop where
  sound : log.Sound H x
  phase : log.Phase H x

theorem phase_finalize (s : HeadersSyncState) (presynced redownloaded released : List CBlockHeader) :
    SyncLog.Phase H x ⟨s.finalize, presynced, redownloaded, released⟩ := ⟨rfl, rfl⟩

theorem sound_presync (s : HeadersSyncState) (presynced : List CBlockHeader) :
    SyncLog.Sound H x ⟨s, presynced, [], []⟩ :=
  ⟨trivial, ⟨[], rfl, fun _ h => absurd rfl h⟩, fun _ i header hi => (by cases hi)⟩

theorem validateAndStoreHeadersCommitments_ok (hne : headers ≠ [])
    (h : validateAndStoreHeadersCommitments H x headers s = .ok (true, s')) :
    ∃ s₁, forEach (validateAndProcessSingleHeader H x) headers s = .ok (true, s₁) ∧
      (s' = s₁ ∨ s' = startRedownload x s₁) := by
  cases headers with
  | nil => exact absurd rfl hne
  | cons first rest =>
    unfold validateAndStoreHeadersCommitments at h
    dsimp only at h
    split at h
    · cases h
    split at h
    · cases h
    obtain ⟨⟨b, s₁⟩, hloop, h⟩ := bind_eq_ok.mp h
    cases b with
    | false => cases h
    | true =>
      refine ⟨s₁, hloop, ?_⟩
      split at h
      · rename_i hb
        cases hb
      split at h
      · cases h
        exact .inr rfl
      · cases h
        exact .inl rfl

theorem Presyncing.startRedownload (hs : Presyncing H x presynced s) :
    Redownloading H x presynced [] [] (startRedownload x s) := by
  have hnot : ¬ Reached x [] := fun ⟨k, hk, _⟩ => absurd hk (Nat.not_lt_zero k)
  refine ⟨rfl, rfl, rfl, rfl, rfl, trivial, fun _ => rfl, ?_, ?_, fun _ => hs.commitments.symm,
    hs.bounded⟩
  · show x.m_chain_start.nChainWork.val = _
    rw [chainWork, map_nil, sum_nil, Nat.add_zero, Nat.mod_eq_of_lt (val_lt _)]
  · show s.m_process_all_remaining_headers = true ↔ _
    rw [hs.flag]
    exact ⟨fun h => (by cases h), fun h => absurd h hnot⟩

theorem processNextHeaders_cases {full : Bool} {ret : ProcessingResult}
    (h : processNextHeaders H x headers full s = .ok (ret, s')) :
    (ret.success = false ∧ ret.pow_validated_headers = [] ∧
      (s' = s ∨ ∃ s₁ : HeadersSyncState, s' = s₁.finalize)) ∨
    (ret.success = true ∧ s.m_download_state = .PRESYNC ∧ ret.pow_validated_headers = [] ∧
      ∃ s₁, forEach (validateAndProcessSingleHeader H x) headers s = .ok (true, s₁) ∧
        (s' = s₁ ∨ s' = startRedownload x s₁ ∨ ∃ s₂ : HeadersSyncState, s' = s₂.finalize)) ∨
    (ret.success = true ∧ s.m_download_state = .REDOWNLOAD ∧
      ∃ s₁, forEach (validateAndStoreRedownloadedHeader H x) headers s = .ok (true, s₁) ∧
        ret.pow_validated_headers = (popHeadersReadyForAcceptance H x s₁).1 ∧
        ((s' = (popHeadersReadyForAcceptance H x s₁).2 ∧
            ¬ (s'.m_redownloaded_headers = [] ∧ s'.m_process_all_remaining_headers = true)) ∨
          ∃ s₂ : HeadersSyncState, s' = s₂.finalize)) := by
  unfold processNextHeaders at h
  split at h
  · cases h
    exact .inl ⟨rfl, rfl, .inl rfl⟩
  rename_i hne
  cases hstate : s.m_download_state with
  | FINAL =>
    rw [hstate] at h
    cases h
    exact .inl ⟨rfl, rfl, .inl rfl⟩
  | PRESYNC =>
    rw [hstate] at h
    obtain ⟨⟨b, s₁⟩, hvalidate, h⟩ := bind_eq_ok.mp h
    cases b with
    | false =>
      cases h
      exact .inl ⟨rfl, rfl, .inr ⟨s₁, rfl⟩⟩
    | true =>
      obtain ⟨s₂, hloop, hs₁⟩ := validateAndStoreHeadersCommitments_ok hne hvalidate
      obtain ⟨rfl, hs'⟩ := Prod.mk.inj (Except.ok.inj h)
      refine .inr (.inl ⟨rfl, rfl, rfl, s₂, hloop, ?_⟩)
      split at hs'
      · rcases hs₁ with rfl | rfl
        · exact .inl hs'.symm
        · exact .inr (.inl hs'.symm)
      · exact .inr (.inr ⟨s₁, hs'.symm⟩)
  | REDOWNLOAD =>
    rw [hstate] at h
    obtain ⟨⟨b, s₁⟩, hloop, h⟩ := bind_eq_ok.mp h
    cases b with
    | false =>
      cases h
      exact .inl ⟨rfl, rfl, .inr ⟨s₁, rfl⟩⟩
    | true =>
      obtain ⟨rfl, hs'⟩ := Prod.mk.inj (Except.ok.inj h)
      refine .inr (.inr ⟨rfl, rfl, s₁, hloop, rfl, ?_⟩)
      split at hs'
      · rename_i hmore
        refine .inl ⟨hs'.symm, ?_⟩
        rintro ⟨hempty, hflag⟩
        rw [← hs'] at hempty hflag
        rw [hempty, hflag] at hmore
        cases hmore
      · exact .inr ⟨_, hs'.symm⟩

theorem SyncLog.receive_eq_ok {log log' : SyncLog} {msg : HeadersMessage} :
    log.receive H x msg = .ok log' ↔ ∃ ret s',
      processNextHeaders H x msg.headers msg.full log.state = .ok (ret, s') ∧
      log' = {
        state := s'
        presynced :=
          if log.state.m_download_state = .PRESYNC ∧ ret.success then log.presynced ++ msg.headers
          else log.presynced
        redownloaded :=
          if log.state.m_download_state = .REDOWNLOAD ∧ ret.success then
            log.redownloaded ++ msg.headers
          else log.redownloaded
        released := log.released ++ ret.pow_validated_headers } := by
  constructor
  · intro h
    obtain ⟨⟨ret, s'⟩, hmsg, hlog⟩ := bind_eq_ok.mp h
    exact ⟨ret, s', hmsg, (Except.ok.inj hlog).symm⟩
  · rintro ⟨ret, s', hmsg, rfl⟩
    exact bind_eq_ok.mpr ⟨_, hmsg, rfl⟩

theorem SyncLog.Inv.redownload {s s₁ : HeadersSyncState}
 (hsize : 1 ≤ x.m_params.redownload_buffer_size)
    (h : SyncLog.Inv H x ⟨s, presynced, redownloaded, released⟩)
    (hstate : s.m_download_state = .REDOWNLOAD)
    (hloop : forEach (validateAndStoreRedownloadedHeader H x) headers s = .ok (true, s₁)) :
    let r := popHeadersReadyForAcceptance H x s₁
    (∀ s', SyncLog.Sound H x ⟨s', presynced, redownloaded ++ headers, released ++ r.1⟩) ∧
    (¬ (r.2.m_redownloaded_headers = [] ∧ r.2.m_process_all_remaining_headers = true) →
      SyncLog.Phase H x ⟨r.2, presynced, redownloaded ++ headers, released ++ r.1⟩) := by
  have hphase := h.phase
  unfold SyncLog.Phase at hphase
  rw [hstate] at hphase
  obtain ⟨hs, hnot, hle⟩ := hphase
  have hs₁ := hs.steps hloop
  obtain ⟨⟨left, hsplit, hleft⟩, hle', hall, hfull, hnext⟩ := hs₁.release hsize
  generalize popHeadersReadyForAcceptance H x s₁ = r at hsplit hleft hle' hall hfull hnext
  refine ⟨fun s' => ⟨?_, ⟨left, hsplit, fun hnot' hne => ?_⟩, fun hnot' => ?_⟩, fun hmore => ?_⟩
  · have hlinked := hs₁.linked
    rw [hsplit, continues_append] at hlinked
    exact hlinked.1
  · by_cases hnone : r.1 = []
    · -- nothing is released now, so more came after what was released before
      obtain ⟨later, hlater, hbefore⟩ := h.sound.followed
      rw [hnone, append_nil] at hne hsplit
      have hsame : left = later ++ headers := by
        rw [hlater, append_assoc] at hsplit
        exact (append_cancel_left hsplit).symm
      have hlong := hbefore hnot hne
      rw [hsame, length_append]
      omega
    · rw [← hleft, hfull hnot' hnone]
  · exact matches_of_commitments H x (hs₁.matched hnot')
  · have hnot' : ¬ Reached x (redownloaded ++ headers) := fun hr => hmore (hall hr)
    have hs' := hnext hnot'
    unfold SyncLog.Phase
    rw [hs'.state]
    exact ⟨hs', hnot', hle'⟩

theorem SyncLog.Inv.receive {log log' : SyncLog} {msg : HeadersMessage}
    (hsize : 1 ≤ x.m_params.redownload_buffer_size) (h : log.Inv H x)
    (hreceive : log.receive H x msg = .ok log') : log'.Inv H x := by
  obtain ⟨ret, s', hmsg, rfl⟩ := SyncLog.receive_eq_ok.mp hreceive
  obtain ⟨s, P, R, Q⟩ := log
  rcases processNextHeaders_cases hmsg with ⟨hsuccess, hpow, hs'⟩ |
    ⟨hsuccess, hstate, hpow, s₁, hloop, hs'⟩ | ⟨hsuccess, hstate, s₁, hloop, hpow, hs'⟩
  · rw [hsuccess, hpow]
    simp only [Bool.false_eq_true, and_false, if_false, append_nil]
    rcases hs' with rfl | ⟨s₁, rfl⟩
    · exact h
    · exact ⟨⟨h.sound.linked, h.sound.followed, h.sound.agrees⟩, phase_finalize _ _ _ _⟩
  · have hphase := h.phase
    unfold SyncLog.Phase at hphase
    dsimp only at hstate hphase
    rw [hstate] at hphase
    obtain ⟨hs, rfl, rfl⟩ := hphase
    rw [hsuccess, hpow]
    simp only [hstate, and_self, if_true, reduceCtorEq, false_and, if_false, append_nil]
    rcases forEach_cases (fun _ _ _ _ => Presyncing.step) hs hloop with ⟨-, hs₁⟩ | ⟨hb, -⟩
    · refine ⟨sound_presync _ _, ?_⟩
      rcases hs' with rfl | rfl | ⟨s₂, rfl⟩
      · unfold SyncLog.Phase
        rw [hs₁.state]
        exact ⟨hs₁, rfl, rfl⟩
      · exact ⟨hs₁.startRedownload, fun ⟨k, hk, _⟩ => absurd hk (Nat.not_lt_zero k), Nat.zero_le _⟩
      · exact phase_finalize _ _ _ _
    · cases hb
  · dsimp only at hstate
    rw [hsuccess, hpow]
    simp only [hstate, and_self, if_true, reduceCtorEq, false_and, if_false]
    obtain ⟨hsound, hphase⟩ := h.redownload hsize hstate hloop
    refine ⟨hsound _, ?_⟩
    rcases hs' with ⟨rfl, hmore⟩ | ⟨s₂, rfl⟩
    · exact hphase hmore
    · exact phase_finalize _ _ _ _

/-! ## runs -/

theorem SyncLog.Inv.run (hsize : 1 ≤ x.m_params.redownload_buffer_size) {msgs : List HeadersMessage}
    {log log' : SyncLog} (h : log.Inv H x)
    (hrun : msgs.foldlM (SyncLog.receive H x) log = .ok log') : log'.Inv H x := by
  induction msgs generalizing log with
  | nil =>
    cases hrun
    exact h
  | cons msg msgs ih =>
    obtain ⟨log₁, hreceive, hrun⟩ := bind_eq_ok.mp hrun
    exact ih (h.receive hsize hreceive) hrun

theorem SyncLog.Inv.during {log : SyncLog} (h : log.Inv H x)
    (hduring : log.state.during H x headers = .ok (b, s')) :
    s'.m_header_commitments.length ≤ x.m_max_commitments + 1 ∧
      s'.m_redownloaded_headers.length ≤ x.m_params.redownload_buffer_size + headers.length := by
  have hphase := h.phase
  unfold SyncLog.Phase at hphase
  unfold HeadersSyncState.during at hduring
  cases hstate : log.state.m_download_state with
  | PRESYNC =>
    rw [hstate] at hphase hduring
    obtain ⟨hcommitments, hbuffer⟩ := hphase.1.during hduring
    refine ⟨hcommitments, ?_⟩
    rw [hbuffer]
    exact Nat.zero_le _
  | REDOWNLOAD =>
    rw [hstate] at hphase hduring
    obtain ⟨hs, -, hle⟩ := hphase
    obtain ⟨hcommitments, hbuffer⟩ := hs.during hduring
    exact ⟨Nat.le_succ_of_le hcommitments, by omega⟩
  | FINAL =>
    rw [hstate] at hphase hduring
    cases hduring
    rw [hphase.1, hphase.2]
    exact ⟨Nat.zero_le _, Nat.zero_le _⟩

/-! ## no fault -/

section
variable (htotal : ∀ height old_nbits new_nbits, ∃ b,
  permittedDifficultyTransition x.m_consensus_params height old_nbits new_nbits = .ok b)
include htotal

theorem validateAndProcessSingleHeader_total (current : CBlockHeader) (s : HeadersSyncState) :
    ∃ r, validateAndProcessSingleHeader H x current s = .ok r := by
  have hadvance : ∀ s, ∃ r, advance current s = .ok r := by
    intro s
    obtain ⟨proof, hproof, -⟩ := getBitsProof_ok current.nBits
    exact bind_total ⟨proof, hproof⟩ fun _ => ⟨_, rfl⟩
  unfold validateAndProcessSingleHeader
  split
  · exact ⟨_, rfl⟩
  refine bind_total (htotal _ _ _) fun permitted => ?_
  split
  · exact ⟨_, rfl⟩
  split
  · dsimp only
    split
    · exact ⟨_, rfl⟩
    · exact hadvance _
  · exact hadvance _

theorem validateAndStoreRedownloadedHeader_total (header : CBlockHeader) (s : HeadersSyncState) :
    ∃ r, validateAndStoreRedownloadedHeader H x header s = .ok r := by
  obtain ⟨proof, hproof, -⟩ := getBitsProof_ok header.nBits
  unfold validateAndStoreRedownloadedHeader
  split
  · exact ⟨_, rfl⟩
  dsimp only
  split
  · exact ⟨_, rfl⟩
  refine bind_total (htotal _ _ _) fun permitted => ?_
  split
  · exact ⟨_, rfl⟩
  refine bind_total ⟨proof, hproof⟩ fun proof => ?_
  split
  · split
    · exact ⟨_, rfl⟩
    · split
      · exact ⟨_, rfl⟩
      · exact ⟨_, rfl⟩
  · exact ⟨_, rfl⟩

theorem processNextHeaders_total (headers : List CBlockHeader) (full : Bool) (s : HeadersSyncState) :
    ∃ r, processNextHeaders H x headers full s = .ok r := by
  have hpresync : ∃ r, validateAndStoreHeadersCommitments H x headers s = .ok r := by
    unfold validateAndStoreHeadersCommitments
    split
    · exact ⟨_, rfl⟩
    split
    · exact ⟨_, rfl⟩
    split
    · exact ⟨_, rfl⟩
    refine bind_total (forEach_total (validateAndProcessSingleHeader_total htotal) _ _)
      fun r => ?_
    split
    · exact ⟨_, rfl⟩
    split
    · exact ⟨_, rfl⟩
    · exact ⟨_, rfl⟩
  unfold processNextHeaders
  split
  · exact ⟨_, rfl⟩
  split
  · exact ⟨_, rfl⟩
  · exact bind_total hpresync fun r => ⟨_, rfl⟩
  · refine bind_total (forEach_total (validateAndStoreRedownloadedHeader_total htotal) _ _)
      fun r => ?_
    split
    · exact ⟨_, rfl⟩
    · exact ⟨_, rfl⟩

theorem SyncLog.run_total (msgs : List HeadersMessage) (log : SyncLog) :
    ∃ log', msgs.foldlM (SyncLog.receive H x) log = .ok log' := by
  induction msgs generalizing log with
  | nil => exact ⟨log, rfl⟩
  | cons msg msgs ih =>
    obtain ⟨⟨ret, s'⟩, hmsg⟩ := processNextHeaders_total htotal (H := H) msg.headers msg.full log.state
    obtain ⟨log', hrun⟩ := ih _
    exact ⟨log', bind_eq_ok.mpr ⟨_, SyncLog.receive_eq_ok.mpr ⟨ret, s', hmsg, rfl⟩, hrun⟩⟩

end

end

theorem permittedDifficultyTransition_total (net : ChainType) (height old_nbits new_nbits : Nat) :
    ∃ b, permittedDifficultyTransition net.pow height old_nbits new_nbits = .ok b := by
  have hspan := net.pow_timespan
  by_cases hallow : net.pow.allowMinDifficulty height = true
  · unfold permittedDifficultyTransition
    rw [if_pos hallow]
    exact ⟨_, rfl⟩
  by_cases hboundary : height % net.pow.difficultyAdjustmentInterval = 0
  · exact ⟨_, permittedDifficultyTransition_boundary (by omega) (by omega)
      (Bool.not_eq_true _ ▸ hallow) hboundary old_nbits new_nbits⟩
  · unfold permittedDifficultyTransition
    rw [if_neg hallow]
    rw [if_neg hboundary]
    split
    · exact ⟨_, rfl⟩
    · exact ⟨_, rfl⟩

/-- **What is released is a chain from the start.  A header that is released before the required work
is reached has `redownload_buffer_size` more after it, all of which agree with the first pass.  The
commitments and the buffer stay within their bounds, also within a message.** -/
theorem presync_sound (net : ChainType) (H : Hashes) (params : HeadersSyncParams)
    (hperiod : 1 ≤ params.commitment_period) (hsize : 1 ≤ params.redownload_buffer_size)
    (chain_start : ChainStart) (minimum_required_work : ArithUint256) (m_hasher : Uint256 → Nat)
    (randrange : Nat → Nat) (now : Int) (msgs : List HeadersMessage) :
    ∃ x s log, headersSyncState net.pow params chain_start minimum_required_work m_hasher randrange
        now = .ok (x, s) ∧
      SyncLog.run H x msgs s = .ok log ∧
      Continues H net.pow chain_start.hash chain_start.nHeight chain_start.header.nBits
        log.released ∧
      (¬ Reached x log.redownloaded → ∀ before header after,
        log.released = before ++ header :: after →
          (∃ later, log.redownloaded = before ++ header :: later ∧
            params.redownload_buffer_size ≤ later.length) ∧
          Matches H x log.presynced log.redownloaded) ∧
      ∀ done rest b s', log.state.during H x done = .ok (b, s') →
        s'.m_header_commitments.length ≤ x.m_max_commitments + 1 ∧
        s'.m_redownloaded_headers.length ≤
          params.redownload_buffer_size + (done ++ rest).length := by
  obtain ⟨x, s, hnew, hinit, hx⟩ : ∃ x s, headersSyncState net.pow params chain_start
      minimum_required_work m_hasher randrange now = .ok (x, s) ∧
      SyncLog.Inv H x ⟨s, [], [], []⟩ ∧ x.m_consensus_params = net.pow ∧ x.m_params = params ∧
        x.m_chain_start = chain_start := by
    refine ⟨_, _, if_neg (not_not.mpr hperiod), ⟨sound_presync _ _, ?_⟩, rfl, rfl, rfl⟩
    exact ⟨⟨rfl, rfl, rfl, Nat.zero_le _, rfl, rfl⟩, rfl, rfl⟩
  obtain ⟨hpow, rfl, rfl⟩ := hx
  have htotal := permittedDifficultyTransition_total net
  rw [← hpow] at htotal ⊢
  obtain ⟨log, hrun⟩ := SyncLog.run_total htotal (H := H) msgs ⟨s, [], [], []⟩
  have hinv := hinit.run hsize hrun
  refine ⟨x, s, log, hpow ▸ hnew, hrun, hinv.sound.linked, fun hnot before header after hsplit => ?_,
    fun done rest b s' hduring => ?_⟩
  · obtain ⟨later, hlater, hlong⟩ := hinv.sound.followed
    refine ⟨⟨after ++ later, ?_, ?_⟩, hinv.sound.agrees hnot⟩
    · rw [hlater, hsplit, append_assoc, cons_append]
    · have hle := hlong hnot (by rw [hsplit]; simp)
      rw [length_append]
      omega
  · obtain ⟨hcommitments, hbuffer⟩ := hinv.during hduring
    rw [length_append]
    omega

/-! ## a sync on regtest -/

def sampleStart : ChainStart where
  header := { CBlockHeader.null with nBits := 0x207fffff }
  hash := Uint256.zero
  nHeight := 0
  nChainWork := ofUint64 0
  medianTimePast := 0

def sampleHeader (n : Nat) : CBlockHeader :=
  { sampleStart.header with hashPrevBlock := Uint256.ofByte (UInt8.ofNat (n - 1)), nNonce := n }

/-- three headers reach the work in the first pass; of the second one two have come back, which
releases the first of them and keeps the other -/
theorem presync_sound_regtest :
    ∃ x s log, headersSyncState regTestPow ⟨1, 1⟩ sampleStart (ofUint64 6)
        (fun hash => if hash = Uint256.ofByte 2 then 0 else 1) (fun _ => 0) 0 = .ok (x, s) ∧
      SyncLog.run sampleHashes x [⟨[sampleHeader 1, sampleHeader 2, sampleHeader 3], true⟩,
        ⟨[sampleHeader 1, sampleHeader 2], true⟩] s = .ok log ∧
      log.released = [sampleHeader 1] ∧ log.redownloaded = [sampleHeader 1, sampleHeader 2] ∧
      ¬ Reached x log.redownloaded ∧ Matches sampleHashes x log.presynced log.redownloaded := by
  obtain ⟨x, s, log, hnew, hrun, hlinked, hearly, -⟩ := presync_sound .REGTEST sampleHashes ⟨1, 1⟩
    (by decide) (by decide) sampleStart (ofUint64 6)
    (fun hash => if hash = Uint256.ofByte 2 then 0 else 1) (fun _ => 0) 0
    [⟨[sampleHeader 1, sampleHeader 2, sampleHeader 3], true⟩,
      ⟨[sampleHeader 1, sampleHeader 2], true⟩]
  cases hnew
  have hlog : Except.map (fun log => (log.released, log.redownloaded))
      (Except.ok log : Except Fault SyncLog) =
      .ok ([sampleHeader 1], [sampleHeader 1, sampleHeader 2]) := by
    rw [← hrun]
    decide +kernel
  obtain ⟨hreleased, hagain⟩ := Prod.mk.inj (Except.ok.inj hlog)
  refine ⟨_, _, log, rfl, hrun, hreleased, hagain, ?short, (hearly ?short [] _ [] hreleased).2⟩
  rw [hagain, Reached]
  decide +kernel

end ElektronNet
