import Mathlib.Logic.Relation
import ElektronNet.ChainSelection

/-!
# When a snapshot base stays connected

After the activation of an automatic snapshot the active chain starts at the base of the snapshot:
the blocks up to the base have no data and no undo data.  Nothing in chain selection knows about
that; what keeps the base connected is that every candidate lies above it.

* `Shrinks s s'`       no block moves, no candidate is added
* `BaseKept base r`    the tip, the candidates and the tip worked towards all lie above the base
* `ArrivesBehind`      a received block outside the tree of the base has less work than the tip,
                       and so have the blocks that wait for a parent
* `snapshot_base_kept` in a run of such arrivals `DisconnectTip` is never called on the base or on
                       one of its ancestors
-/

namespace ElektronNet

open List BlockMap Forest

/-! ## the tree under a new header -/

namespace BlockMap

variable {m : BlockMap}

theorem addToBlockIndex_pprev {hash hashPrevBlock h p : Uint256} {proof address : Nat}
    (hp : m.pprev h = some p) :
    (m.addToBlockIndex hash hashPrevBlock proof address).pprev h = some p := by
  by_cases hnew : m.entries.get hash = none
  · obtain ⟨e, he, hep⟩ := pprev_eq_some.mp hp
    refine pprev_eq_some.mpr ⟨e, ?_, hep⟩
    rw [addToBlockIndex_get hnew, if_neg, he]
    rintro rfl
    rw [hnew] at he
    cases he
  · rwa [addToBlockIndex, dif_neg hnew]

theorem mem_path_addToBlockIndex {a h : Uint256} (ha : a ∈ m.forest.path h)
    (hash hashPrevBlock : Uint256) (proof address : Nat) :
    a ∈ (m.addToBlockIndex hash hashPrevBlock proof address).forest.path h := by
  induction h using m.forest.path_induction with
  | root h hp =>
    rw [m.forest.path_root hp, mem_singleton] at ha
    rw [ha]
    exact self_mem_path _ h
  | child h p hp ih =>
    rw [m.forest.path_parent hp, mem_cons] at ha
    rcases ha with rfl | ha
    · exact self_mem_path _ a
    · exact mem_path_of_parent _ (addToBlockIndex_pprev hp) (ih ha)

theorem update_nChainWork (m : BlockMap) (f : Uint256 → CBlockIndex → BlockIndexState)
    (h : Uint256) : (m.update f).nChainWork h = m.nChainWork h := by
  rw [nChainWork, nChainWork, update_get]
  cases m.entries.get h <;> rfl

def Behind (m : BlockMap) (x t : Uint256) : Prop :=
  (m.entries.get x).isSome = true ∧ (m.entries.get t).isSome = true ∧
    m.nChainWork x < m.nChainWork t

instance (m : BlockMap) (x t : Uint256) : Decidable (m.Behind x t) := by
  unfold Behind
  infer_instance

theorem before_of_behind {x t : Uint256} (h : m.Behind x t) : m.before x t = true := by
  obtain ⟨hx, ht, hlt⟩ := h
  obtain ⟨ex, hex⟩ := Option.isSome_iff_exists.mp hx
  obtain ⟨et, het⟩ := Option.isSome_iff_exists.mp ht
  rw [nChainWork, nChainWork, hex, het] at hlt
  rw [before, hex, het]
  exact comparator_of_work_lt hlt

theorem behind_update {x t : Uint256} (h : m.Behind x t)
    (f : Uint256 → CBlockIndex → BlockIndexState) : (m.update f).Behind x t := by
  obtain ⟨hx, ht, hlt⟩ := h
  refine ⟨?_, ?_, ?_⟩
  · rw [update_get, Option.isSome_map]
    exact hx
  · rw [update_get, Option.isSome_map]
    exact ht
  · rw [update_nChainWork, update_nChainWork]
    exact hlt

end BlockMap

/-! ## functions that add no candidate -/

namespace ChainSelection

structure Shrinks (s s' : ChainSelection) : Prop where
  forest : s'.m_block_index.forest = s.m_block_index.forest
  tip : s'.chainstate.tip = s.chainstate.tip
  candidates : ∀ c ∈ s'.chainstate.setBlockIndexCandidates, c ∈ s.chainstate.setBlockIndexCandidates

namespace Shrinks

theorem refl (s : ChainSelection) : Shrinks s s := ⟨rfl, rfl, fun _ h => h⟩

theorem trans {s s' s'' : ChainSelection} (h : Shrinks s s') (h' : Shrinks s' s'') : Shrinks s s'' :=
  ⟨h'.forest.trans h.forest, h'.tip.trans h.tip, fun c hc => h.candidates c (h'.candidates c hc)⟩

end Shrinks

theorem markInvalid_frame (s : ChainSelection) (h : Uint256) :
    (s.markInvalid h).m_block_index = s.m_block_index ∧ (s.markInvalid h).chainstate = s.chainstate := by
  unfold markInvalid
  split
  · exact ⟨rfl, rfl⟩
  · split <;> exact ⟨rfl, rfl⟩

variable {s s' : ChainSelection} {h base x : Uint256} {m : BlockMap} {env : SelectionEnv}

theorem invalidChainFound_cases (hs : s.invalidChainFound h = .ok s') :
    s'.m_block_index = (s.setBlockFailureFlags h).m_block_index ∧ s'.chainstate = s.chainstate ∧
      s'.m_best_invalid = (s.markInvalid h).m_best_invalid := by
  obtain ⟨hindex, hcs⟩ := markInvalid_frame s h
  have hleave : ∀ t : ChainSelection, (t.leaveBestHeader h).m_block_index = t.m_block_index ∧
      (t.leaveBestHeader h).chainstate = t.chainstate ∧
      (t.leaveBestHeader h).m_best_invalid = t.m_best_invalid := by
    intro t
    unfold leaveBestHeader
    split
    · exact ⟨rfl, rfl, rfl⟩
    · split <;> exact ⟨rfl, rfl, rfl⟩
  unfold invalidChainFound at hs
  simp only at hs
  split at hs
  · cases hs
  · cases hs
    obtain ⟨h₁, h₂, h₃⟩ := hleave ((s.markInvalid h).setBlockFailureFlags h)
    refine ⟨?_, h₂.trans hcs, h₃⟩
    rw [h₁, setBlockFailureFlags, setBlockFailureFlags, hindex]

theorem shrinks_invalidChainFound (hs : s.invalidChainFound h = .ok s') : Shrinks s s' := by
  obtain ⟨hindex, hcs, -⟩ := invalidChainFound_cases hs
  refine ⟨?_, by rw [hcs], fun c hc => by rwa [hcs] at hc⟩
  rw [hindex]
  exact update_forest _ _

theorem shrinks_erase (s : ChainSelection) (h : Uint256) :
    Shrinks s { s with chainstate := s.chainstate.eraseCandidate h } :=
  ⟨rfl, rfl, fun _ hc => mem_of_mem_filter hc⟩

theorem shrinks_invalidBlockFound {mutated : Bool} (hs : s.invalidBlockFound h mutated = .ok s') :
    Shrinks s s' := by
  unfold invalidBlockFound at hs
  split at hs
  · cases hs
    exact Shrinks.refl s
  · refine Shrinks.trans ?_ (shrinks_invalidChainFound hs)
    exact ⟨modify_forest _ _ _, rfl, (shrinks_erase s h).candidates⟩

theorem foldl_eraseCandidate (l : List Uint256) (cs : ChainstateCore) :
    (l.foldl ChainstateCore.eraseCandidate cs).tip = cs.tip ∧
      ∀ c ∈ (l.foldl ChainstateCore.eraseCandidate cs).setBlockIndexCandidates,
        c ∈ cs.setBlockIndexCandidates := by
  induction l generalizing cs with
  | nil => exact ⟨rfl, fun _ hc => hc⟩
  | cons h l ih =>
    obtain ⟨htip, hc⟩ := ih (cs.eraseCandidate h)
    exact ⟨htip, fun c hmem => mem_of_mem_filter (hc c hmem)⟩

theorem dropBranch_spec (s : ChainSelection) (new : Uint256) (branch : List Uint256) (test : Uint256)
    (failed : Bool) : (s.dropBranch new branch test failed).m_block_index = s.m_block_index ∧
      Shrinks s (s.dropBranch new branch test failed) := by
  have hframe : (if failed then s.markInvalid new else s).m_block_index = s.m_block_index ∧
      (if failed then s.markInvalid new else s).chainstate = s.chainstate := by
    split
    · exact markInvalid_frame s new
    · exact ⟨rfl, rfl⟩
  obtain ⟨htip, hc⟩ := foldl_eraseCandidate (branch.takeWhile (· ≠ test) ++ [test])
    (if failed then s.markInvalid new else s).chainstate
  exact ⟨hframe.1, congrArg BlockMap.forest hframe.1, hframe.2 ▸ htip, hframe.2 ▸ hc⟩

/-! ## choosing -/

theorem lastCandidate_mem {l : List Uint256} (hl : lastCandidate m l = some h) : h ∈ l := by
  induction l generalizing h with
  | nil => cases hl
  | cons c l ih =>
    rw [lastCandidate] at hl
    cases hb : lastCandidate m l with
    | none =>
      rw [hb] at hl
      cases hl
      exact mem_cons_self
    | some b =>
      rw [hb] at hl
      cases hl
      split
      · exact mem_cons_self
      · exact mem_cons_of_mem _ (ih hb)

theorem findMostWorkChainFrom_spec {n : Nat} {most : Option Uint256}
    (h : findMostWorkChainFrom n s = .ok (most, s')) :
    Shrinks s s' ∧ ∀ b, most = some b → b ∈ s.chainstate.setBlockIndexCandidates := by
  induction n generalizing s with
  | zero =>
    cases h
    exact ⟨Shrinks.refl _, fun b hb => by cases hb⟩
  | succ n ih =>
    rw [findMostWorkChainFrom] at h
    split at h
    · cases h
      exact ⟨Shrinks.refl _, fun b hb => by cases hb⟩
    · rename_i new hnew
      split at h
      · cases h
      · cases h
        exact ⟨Shrinks.refl _, fun b hb => by cases hb; exact lastCandidate_mem hnew⟩
      · rename_i test failed _
        have hdrop := (dropBranch_spec s new (s.branchOf new) test failed).2
        obtain ⟨hs, hmem⟩ := ih h
        exact ⟨hdrop.trans hs, fun b hb => hdrop.candidates b (hmem b hb)⟩

/-! ## everything lies above the base -/

structure BaseKept (base : Uint256) (s : ChainSelection) : Prop where
  tip : ∃ t, s.chainstate.tip = some t ∧ base ∈ s.m_block_index.forest.path t
  candidates : ∀ c ∈ s.chainstate.setBlockIndexCandidates, base ∈ s.m_block_index.forest.path c

theorem BaseKept.shrinks (h : BaseKept base s) (hs : Shrinks s s') : BaseKept base s' := by
  refine ⟨?_, fun c hc => ?_⟩
  · rw [hs.forest, hs.tip]
    exact h.tip
  · rw [hs.forest]
    exact h.candidates c (hs.candidates c hc)

theorem BaseKept.setTip {t : Uint256} (h : BaseKept base s)
    (ht : base ∈ s.m_block_index.forest.path t) : BaseKept base (s.setTip t) :=
  ⟨⟨t, rfl, ht⟩, h.candidates⟩

theorem disconnectTip_spec {ok : Bool} (h : s.disconnectTip env = .ok (ok, s')) :
    (ok = false ∧ s' = s) ∨
      (ok = true ∧ ∃ t p, s.chainstate.tip = some t ∧ s.m_block_index.pprev t = some p ∧
        s' = s.setTip p) := by
  unfold disconnectTip at h
  split at h
  · cases h
  · rename_i t ht
    split at h
    · cases h
    · rename_i e he
      split at h
      · cases h
      · rename_i p hp
        split at h
        · cases h
          exact .inr ⟨rfl, t, p, ht, pprev_eq_some.mpr ⟨e, he, hp⟩, rfl⟩
        · cases h
          exact .inl ⟨rfl, rfl⟩

theorem disconnectTo_spec {f t : Uint256} {n : Nat} {ok : Bool} {log : List Uint256}
    (h : disconnectTo env (some f) n s = .ok (ok, log, s')) (ht : s.chainstate.tip = some t)
    (hft : f ∈ s.m_block_index.forest.path t) (hbase : base ∈ s.m_block_index.forest.path f) :
    (∃ t', s' = s.setTip t' ∧ base ∈ s.m_block_index.forest.path t') ∧
      ∀ d ∈ log, base ∈ s.m_block_index.forest.path d ∧ d ≠ base := by
  have hbt : base ∈ s.m_block_index.forest.path t := mem_trans _ hbase hft
  have hself : s = s.setTip t := by rw [setTip, ← ht]
  induction n generalizing s t log with
  | zero =>
    cases h
    exact ⟨⟨t, hself, hbt⟩, by simp⟩
  | succ n ih =>
    rw [disconnectTo, ht] at h
    simp only at h
    split at h
    · cases h
      exact ⟨⟨t, hself, hbt⟩, by simp⟩
    · rename_i htf
      -- the tip is not the fork, so it is not the base either
      have htb : t ≠ base := by
        rintro rfl
        exact htf (congrArg some (eq_of_mem_of_mem _ hbase hft))
      split at h
      · cases h
      · rename_i s₁ hd
        cases h
        obtain ⟨-, rfl⟩ | ⟨hok, -⟩ := disconnectTip_spec hd
        · exact ⟨⟨t, hself, hbt⟩, by simp [hbt, htb]⟩
        · cases hok
      · rename_i s₁ hd
        obtain ⟨hok, -⟩ | ⟨-, t₁, p, ht₁, hp, rfl⟩ := disconnectTip_spec hd
        · cases hok
        · obtain rfl := Option.some.inj (ht.symm.trans ht₁)
          have hfp : f ∈ s.m_block_index.forest.path p := by
            obtain rfl | ⟨p', hp', hmem⟩ := (mem_path_iff _ f t).mp hft
            · exact absurd rfl htf
            · obtain rfl := Option.some.inj (hp.symm.trans hp')
              exact hmem
          split at h
          · cases h
          · rename_i ok₁ log₁ s₂ hrest
            cases h
            obtain ⟨⟨t', hs', ht'⟩, hlog⟩ := ih hrest rfl hfp hbase
              (mem_trans _ hbase hfp) rfl
            refine ⟨⟨t', hs', ht'⟩, fun d hd => ?_⟩
            rcases mem_cons.mp hd with rfl | hd
            · exact ⟨hbt, htb⟩
            · exact hlog d hd

theorem pruneBlockIndexCandidates_spec {cs cs' : ChainstateCore}
    (h : cs.pruneBlockIndexCandidates m = .ok cs') :
    cs'.tip = cs.tip ∧ ∀ c ∈ cs'.setBlockIndexCandidates, c ∈ cs.setBlockIndexCandidates := by
  unfold ChainstateCore.pruneBlockIndexCandidates at h
  simp only at h
  split at h
  · cases h
  · cases h
    exact ⟨rfl, fun c hc => mem_of_mem_filter hc⟩

def Climbs (m : BlockMap) (blocks : List Uint256) : Prop :=
  blocks.IsChain fun a b => m.pprev b = some a

theorem mem_path_getLast {b : Uint256} {rest : List Uint256}
    (h : Climbs m (b :: rest)) : b ∈ m.forest.path ((b :: rest).getLast (by simp)) := by
  induction rest generalizing b with
  | nil => exact self_mem_path _ b
  | cons c rest ih =>
    obtain ⟨hbc, hrest⟩ := isChain_cons_cons.mp h
    exact mem_trans _ (mem_path_of_parent _ hbc (self_mem_path _ b)) (ih hrest)

/-- one block of the connecting loop: it is rejected, with the blocks above it up to `front`, or it becomes
the tip -/
inductive ConnectStep (env : SelectionEnv) (s : ChainSelection) : ChainSelection → Prop
  | rejected {b front : Uint256} {s₁ s₂ : ChainSelection}
    (hprev : s.m_block_index.pprev b = s.chainstate.tip) (hfront : b ∈ s.m_block_index.forest.path front)
    (hinvalid : env.connectTip b = .invalid false) (h₁ : s.invalidBlockFound b false = .ok s₁)
    (h₂ : s₁.invalidChainFound front = .ok s₂) : ConnectStep env s s₂
  | connected {b : Uint256} {cs : ChainstateCore} (hprev : s.m_block_index.pprev b = s.chainstate.tip)
    (hprune : (s.setTip b).chainstate.pruneBlockIndexCandidates (s.m_block_index.modify b connectedEntry) =
      .ok cs) :
    ConnectStep env s
      { s with m_block_index := s.m_block_index.modify b connectedEntry, chainstate := cs }

theorem ConnectStep.forest (h : ConnectStep env s s') :
    s'.m_block_index.forest = s.m_block_index.forest := by
  cases h with
  | rejected _ _ _ h₁ h₂ =>
    exact ((shrinks_invalidBlockFound h₁).trans (shrinks_invalidChainFound h₂)).forest
  | connected _ _ => exact modify_forest _ _ _

theorem climbs_congr {m' : BlockMap} (hf : m'.forest = m.forest) {blocks : List Uint256}
    (h : Climbs m blocks) : Climbs m' blocks :=
  h.imp fun _ c hac => (congrFun (congrArg Forest.parent hf) c).trans hac

theorem connectBlocks_steps {w : Option Nat} {front : Uint256} {blocks : List Uint256} {r : Connecting}
    (hclimbs : Climbs s.m_block_index blocks) (hfront : ∀ hne : blocks ≠ [], blocks.getLast hne = front)
    (h : connectBlocks env w front blocks s = .ok (r, s')) :
    Relation.ReflTransGen (ConnectStep env) s s' := by
  induction blocks generalizing s with
  | nil =>
    cases h
    exact .refl
  | cons b rest ih =>
    rw [connectBlocks] at h
    split at h
    · cases h
    rename_i hprev
    have hprev := not_not.mp hprev
    split at h
    · cases h
      exact .refl
    · rename_i mutated hinvalid
      split at h
      · cases h
      rename_i s₁ h₁
      cases mutated with
      | true =>
        cases h₁
        cases h
        exact .refl
      | false =>
        rw [if_neg (by simp)] at h
        split at h
        · cases h
        rename_i s₂ h₂
        cases h
        refine .single (.rejected hprev ?_ hinvalid h₁ h₂)
        rw [← hfront (by simp)]
        exact mem_path_getLast hclimbs
    · simp only at h
      split at h
      · cases h
      rename_i cs hprune
      have hstep : ConnectStep env s _ := .connected hprev hprune
      split at h
      · cases h
        exact .single hstep
      · refine .head hstep (ih (climbs_congr hstep.forest (List.IsChain.tail hclimbs)) (fun hne => ?_) h)
        rw [← hfront (by simp), getLast_cons hne]

theorem connectSteps_forest (h : Relation.ReflTransGen (ConnectStep env) s s') :
    s'.m_block_index.forest = s.m_block_index.forest := by
  induction h with
  | refl => rfl
  | tail _ hstep ih => exact hstep.forest.trans ih

theorem connectLists_steps {w : Option Nat} {lists : List (List Uint256)} {r : Connecting}
    (hclimbs : ∀ blocks ∈ lists, Climbs s.m_block_index blocks)
    (h : connectLists env w lists s = .ok (r, s')) : Relation.ReflTransGen (ConnectStep env) s s' := by
  induction lists generalizing s with
  | nil =>
    cases h
    exact .refl
  | cons blocks lists ih =>
    have hfront : ∀ hne : blocks ≠ [], blocks.getLast hne = blocks.getLast?.getD Uint256.zero := by
      intro hne
      rw [getLast?_eq_some_getLast hne]
      rfl
    rw [connectLists] at h
    split at h
    · cases h
    · rename_i s₁ h₁
      have hsteps := connectBlocks_steps (hclimbs blocks mem_cons_self) hfront h₁
      exact hsteps.trans (ih (fun l hl =>
        climbs_congr (connectSteps_forest hsteps) (hclimbs l (mem_cons_of_mem _ hl))) h)
    · rename_i s₁ _ h₁
      cases h
      exact connectBlocks_steps (hclimbs blocks mem_cons_self) hfront h₁

theorem flatten_toChunks_go {α : Type} (n : Nat) (xs : List α) (a : Array α) (b : Array (List α)) :
    (List.toChunks.go n xs a b).flatten = b.toList.flatten ++ (a.toList ++ xs) := by
  induction xs generalizing a b with
  | nil => simp [List.toChunks.go]
  | cons x xs ih =>
    rw [List.toChunks.go]
    split
    · rw [ih]
      simp
    · rw [ih]
      simp

theorem infix_of_mem_toChunks {α : Type} {n : Nat} {xs l : List α} (h : l ∈ xs.toChunks (n + 1)) :
    l <:+: xs := by
  have hflat : (xs.toChunks (n + 1)).flatten = xs := by
    cases xs with
    | nil => rfl
    | cons x xs =>
      rw [List.toChunks, flatten_toChunks_go]
      simp
      simp
  rw [← hflat]
  exact infix_of_mem_flatten h

/-- **a round** disconnects blocks and then connects some, one after the other -/
theorem activateBestChainStep_cases {most : Uint256} {report : StepReport}
    (h : s.activateBestChainStep env most = .ok (report, s')) :
    ∃ n ok s₁, disconnectTo env (s.m_block_index.findFork s.chainstate.tip most) n s =
        .ok (ok, report.disconnected, s₁) ∧ Relation.ReflTransGen (ConnectStep env) s₁ s' := by
  unfold activateBestChainStep at h
  simp only at h
  split at h
  · cases h
  · rename_i h₁
    cases h
    exact ⟨_, _, _, h₁, .refl⟩
  · rename_i log s₁ h₁
    split at h
    · cases h
    rename_i r s₂ h₂
    cases h
    refine ⟨_, _, _, h₁, connectLists_steps (fun blocks hb => ?_) h₂⟩
    refine List.IsChain.infix ?_ (infix_of_mem_toChunks hb)
    rw [isChain_reverse]
    exact List.IsChain.prefix (s₁.m_block_index.forest.path_isChain most) ⟨_, takeWhile_append_dropWhile⟩

theorem BaseKept.connectStep (hk : BaseKept base s) (h : ConnectStep env s s') : BaseKept base s' := by
  cases h with
  | rejected _ _ _ h₁ h₂ =>
    exact hk.shrinks ((shrinks_invalidBlockFound h₁).trans (shrinks_invalidChainFound h₂))
  | @connected b _ hprev hprune =>
    obtain ⟨t, ht, hbt⟩ := hk.tip
    obtain ⟨htip, hsub⟩ := pruneBlockIndexCandidates_spec hprune
    have hf : (s.m_block_index.modify b connectedEntry).forest = s.m_block_index.forest :=
      modify_forest _ _ _
    refine ⟨⟨b, htip, ?_⟩, fun c hc => ?_⟩
    · show base ∈ (s.m_block_index.modify b connectedEntry).forest.path b
      rw [hf]
      exact mem_path_of_parent _ (hprev.trans ht) hbt
    · show base ∈ (s.m_block_index.modify b connectedEntry).forest.path c
      rw [hf]
      exact hk.candidates c (hsub c hc)

theorem BaseKept.connectSteps (hk : BaseKept base s) (h : Relation.ReflTransGen (ConnectStep env) s s') :
    BaseKept base s' := by
  induction h with
  | refl => exact hk
  | tail _ hstep ih => exact ih.connectStep hstep

/-- **a round towards a block above the base disconnects blocks above the base only** -/
theorem activateBestChainStep_spec {most : Uint256} {report : StepReport}
    (h : s.activateBestChainStep env most = .ok (report, s')) (hk : BaseKept base s)
    (hmost : base ∈ s.m_block_index.forest.path most) :
    BaseKept base s' ∧ s'.m_block_index.forest = s.m_block_index.forest ∧
      ∀ d ∈ report.disconnected, base ∈ s.m_block_index.forest.path d ∧ d ≠ base := by
  obtain ⟨t, ht, hbt⟩ := hk.tip
  obtain ⟨f, hf, hbf⟩ := mem_path_fork _ hmost hbt
  have hfork : s.m_block_index.findFork s.chainstate.tip most = some f := by rw [ht]; exact hf
  have hft := (fork_mem _ hf).2
  obtain ⟨n, ok, s₁, h₁, hsteps⟩ := activateBestChainStep_cases h
  rw [hfork] at h₁
  obtain ⟨⟨t', rfl, ht'⟩, hlog⟩ := disconnectTo_spec h₁ ht hft hbf
  have hf := connectSteps_forest hsteps
  exact ⟨(hk.setTip ht').connectSteps hsteps, hf, hlog⟩

/-! ## arrivals -/

/-- the block lies above the base, or it has less work than the tip -/
def Harmless (base : Uint256) (s : ChainSelection) (x : Uint256) : Prop :=
  base ∈ s.m_block_index.forest.path x ∨ ∀ t, s.chainstate.tip = some t → s.m_block_index.Behind x t

theorem tryAddBlockIndexCandidate_spec (cs : ChainstateCore) (m : BlockMap) (pindex : Uint256) :
    cs.tryAddBlockIndexCandidate m pindex = cs ∨
      (cs.worseThanTip m pindex = false ∧
        cs.tryAddBlockIndexCandidate m pindex = cs.addCandidate pindex) := by
  unfold ChainstateCore.tryAddBlockIndexCandidate
  split
  · exact .inl rfl
  · split
    · exact .inl rfl
    · rename_i hw
      have hw : cs.worseThanTip m pindex = false := by simpa using hw
      split
      · exact .inr ⟨hw, rfl⟩
      · split
        · exact .inr ⟨hw, rfl⟩
        · exact .inl rfl

theorem mem_tryAddBlockIndexCandidate {cs : ChainstateCore} {pindex c : Uint256}
    (hc : c ∈ (cs.tryAddBlockIndexCandidate m pindex).setBlockIndexCandidates) :
    c ∈ cs.setBlockIndexCandidates ∨ (c = pindex ∧ cs.worseThanTip m pindex = false) := by
  obtain h | ⟨hw, h⟩ := tryAddBlockIndexCandidate_spec cs m pindex
  · rw [h] at hc
    exact .inl hc
  · rw [h] at hc
    rcases mem_insert_iff.mp hc with rfl | hc
    · exact .inr ⟨rfl, hw⟩
    · exact .inl hc

@[simp] theorem tryAddBlockIndexCandidate_tip (cs : ChainstateCore) (m : BlockMap)
    (pindex : Uint256) : (cs.tryAddBlockIndexCandidate m pindex).tip = cs.tip := by
  obtain h | ⟨-, h⟩ := tryAddBlockIndexCandidate_spec cs m pindex <;> rw [h]
  rfl

theorem mem_path_of_harmless (hx : Harmless base s x) (htip : s.chainstate.tip ≠ none)
    (hw : s.chainstate.worseThanTip s.m_block_index x = false) :
    base ∈ s.m_block_index.forest.path x := by
  rcases hx with hx | hx
  · exact hx
  · obtain ⟨t, ht⟩ := Option.ne_none_iff_exists'.mp htip
    rw [ChainstateCore.worseThanTip, ht] at hw
    exact absurd ((before_of_behind (hx t ht)).symm.trans hw) (by simp)

/-- only the changing parts of the entries differ, and the tip is the same -/
structure SameBlocks (s s' : ChainSelection) : Prop where
  index : ∃ f, s'.m_block_index = s.m_block_index.update f
  tip : s'.chainstate.tip = s.chainstate.tip

theorem SameBlocks.forest (h : SameBlocks s s') : s'.m_block_index.forest = s.m_block_index.forest := by
  obtain ⟨f, hf⟩ := h.index
  rw [hf, update_forest]

theorem SameBlocks.harmless (h : SameBlocks s s') (hx : Harmless base s x) : Harmless base s' x := by
  rcases hx with hx | hx
  · exact .inl (by rw [h.forest]; exact hx)
  · right
    intro t ht
    obtain ⟨f, hf⟩ := h.index
    rw [hf]
    exact behind_update (hx t (h.tip ▸ ht)) f

theorem sameBlocks_link (s : ChainSelection) (x : Uint256) : SameBlocks s (s.link x) :=
  ⟨⟨_, rfl⟩, tryAddBlockIndexCandidate_tip _ _ _⟩

theorem baseKept_link (hk : BaseKept base s) (hx : Harmless base s x) : BaseKept base (s.link x) := by
  have hsame := sameBlocks_link s x
  obtain ⟨t, ht, hbt⟩ := hk.tip
  refine ⟨⟨t, hsame.tip.trans ht, by rw [hsame.forest]; exact hbt⟩, fun c hc => ?_⟩
  rw [hsame.forest]
  rcases mem_tryAddBlockIndexCandidate hc with hc | ⟨rfl, hw⟩
  · exact hk.candidates c hc
  · have hx' := hsame.harmless hx
    have htip : (s.link c).chainstate.tip ≠ none := by
      rw [hsame.tip, ht]
      simp
    have := mem_path_of_harmless hx' htip (by
      rw [ChainstateCore.worseThanTip, hsame.tip]
      exact hw)
    rwa [hsame.forest] at this

theorem baseKept_linkQueue {n : Nat} {queue : List Uint256} (hk : BaseKept base s)
    (hq : ∀ x ∈ queue, Harmless base s x) (hu : ∀ e ∈ s.m_blocks_unlinked, Harmless base s e.2) :
    BaseKept base (linkQueue n queue s) ∧
      (linkQueue n queue s).m_block_index.forest = s.m_block_index.forest := by
  induction n generalizing queue s with
  | zero => exact ⟨hk, rfl⟩
  | succ n ih =>
    cases queue with
    | nil => exact ⟨hk, rfl⟩
    | cons x queue =>
      have hsame := sameBlocks_link s x
      have hk' := baseKept_link hk (hq x mem_cons_self)
      have hu' : ∀ e ∈ (s.link x).m_blocks_unlinked, Harmless base (s.link x) e.2 :=
        fun e he => hsame.harmless (hu e he)
      obtain ⟨hk'', hf⟩ := @ih
        { s.link x with
          m_blocks_unlinked := (s.link x).m_blocks_unlinked.filter fun e => e.1 ≠ x }
        (queue ++ ((s.link x).m_blocks_unlinked.filter fun e => e.1 = x).map Prod.snd)
        ⟨hk'.tip, hk'.candidates⟩
        (by
          intro y hy
          rcases mem_append.mp hy with hy | hy
          · exact hsame.harmless (hq y (mem_cons_of_mem _ hy))
          · obtain ⟨e, he, rfl⟩ := mem_map.mp hy
            exact hu' e (mem_of_mem_filter he))
        (fun e he => hu' e (mem_of_mem_filter he))
      exact ⟨hk'', hf.trans hsame.forest⟩

theorem baseKept_receivedBlockTransactions (nTx : Nat) (segwit : Bool) (hk : BaseKept base s)
    (hx : Harmless base s x) (hu : ∀ e ∈ s.m_blocks_unlinked, Harmless base s e.2) :
    BaseKept base (s.receivedBlockTransactions x nTx segwit) ∧
      (s.receivedBlockTransactions x nTx segwit).m_block_index.forest = s.m_block_index.forest := by
  have hforest : (s.received x nTx segwit).forest = s.m_block_index.forest := by
    rw [received, modify_forest, modify_forest]
  have hharmless : ∀ y, Harmless base s y →
      Harmless base { s with m_block_index := s.received x nTx segwit } y := by
    rintro y (hy | hy)
    · left
      show base ∈ (s.received x nTx segwit).forest.path y
      rw [hforest]
      exact hy
    · exact .inr fun t ht => behind_update (behind_update (hy t ht) _) _
  have hk' : BaseKept base { s with m_block_index := s.received x nTx segwit } := by
    obtain ⟨t, ht, hbt⟩ := hk.tip
    refine ⟨⟨t, ht, ?_⟩, fun c hc => ?_⟩
    · show base ∈ (s.received x nTx segwit).forest.path t
      rw [hforest]
      exact hbt
    · show base ∈ (s.received x nTx segwit).forest.path c
      rw [hforest]
      exact hk.candidates c hc
  have hlink : ∀ n, BaseKept base
      (linkQueue n [x] { s with m_block_index := s.received x nTx segwit }) ∧
      (linkQueue n [x] { s with m_block_index := s.received x nTx segwit }).m_block_index.forest =
        s.m_block_index.forest := by
    intro n
    obtain ⟨h₁, h₂⟩ := baseKept_linkQueue (n := n) hk'
      (fun y hy => by rw [mem_singleton.mp hy]; exact hharmless x hx)
      (fun e he => hharmless e.2 (hu e he))
    exact ⟨h₁, h₂.trans hforest⟩
  unfold receivedBlockTransactions
  simp only
  split
  · exact hlink _
  · split
    · exact ⟨hk', hforest⟩
    · split
      · exact hlink _
      · split
        · exact ⟨⟨hk'.tip, hk'.candidates⟩, hforest⟩
        · exact ⟨hk', hforest⟩

theorem acceptBlockHeader_spec (s : ChainSelection) (g : Uint256) (header : HeaderMessage) :
    (s.acceptBlockHeader g header).2.chainstate = s.chainstate ∧
      ∀ a h, a ∈ s.m_block_index.forest.path h →
        a ∈ (s.acceptBlockHeader g header).2.m_block_index.forest.path h := by
  have hadd : (s.addHeader header).chainstate = s.chainstate ∧
      ∀ a h, a ∈ s.m_block_index.forest.path h →
        a ∈ (s.addHeader header).m_block_index.forest.path h := by
    unfold addHeader
    split
    · exact ⟨rfl, fun a h ha => ha⟩
    · exact ⟨rfl, fun a h ha => mem_path_addToBlockIndex ha _ _ _ _⟩
  unfold acceptBlockHeader
  simp only
  split
  · exact ⟨rfl, fun a h ha => ha⟩
  · exact ⟨rfl, fun a h ha => ha⟩
  · split
    · exact hadd
    · exact ⟨rfl, fun a h ha => ha⟩

theorem baseKept_acceptBlockHeader (hk : BaseKept base s) (g : Uint256) (header : HeaderMessage) :
    BaseKept base (s.acceptBlockHeader g header).2 := by
  obtain ⟨hcs, hpath⟩ := acceptBlockHeader_spec s g header
  obtain ⟨t, ht, hbt⟩ := hk.tip
  refine ⟨⟨t, by rw [hcs]; exact ht, hpath _ _ hbt⟩, fun c hc => ?_⟩
  rw [hcs] at hc
  exact hpath _ _ (hk.candidates c hc)

/-- what is asked of a received block: neither it nor a block that waits for a parent has as much
work as the tip, unless it lies above the base -/
def ArrivesBehind (base : Uint256) (P : SelectionParams) (s : ChainSelection)
    (block : BlockMessage) : Prop :=
  let s' := (s.acceptBlockHeader P.hashGenesisBlock block.toHeaderMessage).2
  Harmless base s' block.hash ∧ ∀ e ∈ s'.m_blocks_unlinked, Harmless base s' e.2

theorem baseKept_acceptBlock {P : SelectionParams} {block : BlockMessage}
    {res : Except Invalid Unit} (h : s.acceptBlock P block = .ok (res, s')) (hk : BaseKept base s)
    (hb : ArrivesBehind base P s block) :
    BaseKept base s' ∧ ∀ a x, a ∈ s.m_block_index.forest.path x →
      a ∈ s'.m_block_index.forest.path x := by
  have hk₁ := baseKept_acceptBlockHeader hk P.hashGenesisBlock block.toHeaderMessage
  have hpath₁ := (acceptBlockHeader_spec s P.hashGenesisBlock block.toHeaderMessage).2
  obtain ⟨hx, hu⟩ := hb
  unfold acceptBlock at h
  generalize hacc : s.acceptBlockHeader P.hashGenesisBlock block.toHeaderMessage = r at *
  split at h
  · rename_i heq
    cases heq
    cases h
    exact ⟨hk₁, hpath₁⟩
  · rename_i heq
    cases heq
    split at h
    · cases h
    · split at h
      · cases h
        exact ⟨hk₁, hpath₁⟩
      · split at h
        · split at h
          · cases h
          · rename_i s₂ h₂
            cases h
            have hs := shrinks_invalidBlockFound h₂
            exact ⟨hk₁.shrinks hs, fun a x ha => by rw [hs.forest]; exact hpath₁ a x ha⟩
        · cases h
          obtain ⟨hk₂, hf₂⟩ :=
            baseKept_receivedBlockTransactions block.nTx block.segwit hk₁ hx hu
          exact ⟨hk₂, fun a x ha => by rw [hf₂]; exact hpath₁ a x ha⟩

end ChainSelection

/-! ## runs -/

/-- what can happen to a node: a header, a block that meets `ok`, a round of `ActivateBestChain`,
or the end of that loop -/
inductive SelectionStep (P : SelectionParams) (ok : ChainSelection → BlockMessage → Prop) :
    SelectionRun → SelectionRun → Prop
  | header (r : SelectionRun) (header : HeaderMessage) :
    SelectionStep P ok r
      ⟨(r.state.acceptBlockHeader P.hashGenesisBlock header).2, r.pindexMostWork⟩
  | block {r : SelectionRun} {block : BlockMessage} {res : Except Invalid Unit} {s : ChainSelection}
    (hok : ok r.state block) (h : r.state.acceptBlock P block = .ok (res, s)) :
    SelectionStep P ok r ⟨s, r.pindexMostWork⟩
  | select {r r' : SelectionRun} {env : SelectionEnv} {report : ChainSelection.StepReport}
    (h : r.selectStep env = .ok (report, r')) : SelectionStep P ok r r'
  | finish (r : SelectionRun) : SelectionStep P ok r ⟨r.state, none⟩

/-- the node right after the activation of an automatic snapshot with this base: the old
chainstate is deleted, the new one is marked as validated and its tip is the base -/
structure Activated (base : Uint256) (r : SelectionRun) : Prop where
  from_snapshot : r.state.chainstate.m_from_snapshot_blockhash = some base
  validated : r.state.chainstate.m_assumeutxo = .VALIDATED
  no_target : r.state.chainstate.m_target_blockhash = none
  tip : r.state.chainstate.tip = some base
  candidates : r.state.chainstate =
    ({ r.state.chainstate with setBlockIndexCandidates := [] } :
      ChainstateCore).populateBlockIndexCandidates r.state.m_block_index
  most_work : r.pindexMostWork = none

/-- what is asked of the block tree at the activation: no block outside the tree of the base that
could be connected has as much work as the base -/
def StartsBehind (base : Uint256) (s : ChainSelection) : Prop :=
  ∀ h e, s.m_block_index.entries.get h = some e → s.chainstate.offered h e = true →
    ChainSelection.Harmless base s h

/-- the base is kept, also by the tip that is worked towards -/
structure RunKept (base : Uint256) (r : SelectionRun) : Prop where
  state : ChainSelection.BaseKept base r.state
  most_work : ∀ h, r.pindexMostWork = some h → base ∈ r.state.m_block_index.forest.path h

namespace ChainstateCore

variable {cs : ChainstateCore} {m : BlockMap}

section
variable (hassume : cs.m_assumeutxo ≠ .INVALID) (htarget : cs.m_target_blockhash = none)
include hassume htarget

theorem offer_eq (x : Uint256 × CBlockIndex) :
    (if cs.offered x.1 x.2 then cs.tryAddBlockIndexCandidate m x.1 else cs) =
      if cs.offered x.1 x.2 = true ∧ cs.worseThanTip m x.1 = false then cs.addCandidate x.1
      else cs := by
  rw [tryAddBlockIndexCandidate, if_neg hassume, htarget]
  by_cases hworse : cs.worseThanTip m x.1 = true <;> simp [hworse]

theorem foldl_offer (l : List (Uint256 × CBlockIndex)) (b : Uint256) :
    let cs' := l.foldl
      (fun cs e => if cs.offered e.1 e.2 then cs.tryAddBlockIndexCandidate m e.1 else cs) cs
    cs'.tip = cs.tip ∧ (b ∈ cs'.setBlockIndexCandidates ↔ b ∈ cs.setBlockIndexCandidates ∨
      ∃ e, (b, e) ∈ l ∧ cs.offered b e = true ∧ cs.worseThanTip m b = false) := by
  induction l generalizing cs with
  | nil => simp
  | cons x l ih =>
    rw [foldl_cons, offer_eq hassume htarget]
    -- what is offered next, and whether it is worse than the tip, does not depend on the candidates
    split
    · rename_i hnew
      obtain ⟨htip, hiff⟩ := @ih (cs.addCandidate x.1) hassume htarget
      refine ⟨htip, hiff.trans ?_⟩
      show (b ∈ cs.setBlockIndexCandidates.insert x.1 ∨
        ∃ e, (b, e) ∈ l ∧ cs.offered b e = true ∧ cs.worseThanTip m b = false) ↔ _
      rw [mem_insert_iff]
      constructor
      · rintro ((rfl | h) | ⟨e, he, h⟩)
        · exact .inr ⟨x.2, mem_cons_self, hnew⟩
        · exact .inl h
        · exact .inr ⟨e, mem_cons_of_mem _ he, h⟩
      · rintro (h | ⟨e, he, h⟩)
        · exact .inl (.inr h)
        · rcases mem_cons.mp he with rfl | he
          · exact .inl (.inl rfl)
          · exact .inr ⟨e, he, h⟩
    · rename_i hnot
      obtain ⟨htip, hiff⟩ := ih hassume htarget
      refine ⟨htip, hiff.trans (or_congr_right ⟨fun ⟨e, he, h⟩ => ⟨e, mem_cons_of_mem _ he, h⟩, ?_⟩)⟩
      rintro ⟨e, he, h⟩
      rcases mem_cons.mp he with rfl | he
      · exact absurd h hnot
      · exact ⟨e, he, h⟩

/-- **what `PopulateBlockIndexCandidates` chooses** -/
theorem mem_populateBlockIndexCandidates (b : Uint256) :
    b ∈ (cs.populateBlockIndexCandidates m).setBlockIndexCandidates ↔
      b ∈ cs.setBlockIndexCandidates ∨
        ∃ e, m.entries.get b = some e ∧ cs.offered b e = true ∧ cs.worseThanTip m b = false := by
  rw [populateBlockIndexCandidates, (foldl_offer hassume htarget _ b).2]
  simp only [FMap.mem_toList]

end

end ChainstateCore

variable {r r' : SelectionRun} {base : Uint256}

theorem Activated.kept (h : Activated base r) (hstart : StartsBehind base r.state) : RunKept base r := by
  refine ⟨⟨⟨base, h.tip, self_mem_path _ base⟩, fun c hc => ?_⟩, fun b hb => ?_⟩
  · rw [h.candidates, ChainstateCore.mem_populateBlockIndexCandidates (by simp [h.validated])
      (by exact h.no_target)] at hc
    obtain hc | ⟨e, hget, ho, hw⟩ := hc
    · cases hc
    · refine ChainSelection.mem_path_of_harmless (hstart c e hget ho) ?_ hw
      rw [h.tip]
      simp
  · rw [h.most_work] at hb
    cases hb

namespace SelectionRun

theorem mostWork_spec {most : Option Uint256}
    {s : ChainSelection} (h : r.mostWork = .ok (most, s)) (hk : RunKept base r) :
    ChainSelection.BaseKept base s ∧ s.m_block_index.forest = r.state.m_block_index.forest ∧
      ∀ b, most = some b → base ∈ r.state.m_block_index.forest.path b := by
  unfold mostWork at h
  split at h
  · rename_i b hb
    cases h
    exact ⟨hk.state, rfl, fun b' hb' => by cases hb'; exact hk.most_work b hb⟩
  · obtain ⟨hs, hmem⟩ := ChainSelection.findMostWorkChainFrom_spec h
    exact ⟨hk.state.shrinks hs, hs.forest, fun b hb => hk.state.candidates b (hmem b hb)⟩

/-- **a round keeps the base and disconnects blocks above it only** -/
theorem selectStep_spec {env : SelectionEnv}
    {report : ChainSelection.StepReport} (h : r.selectStep env = .ok (report, r'))
    (hk : RunKept base r) :
    RunKept base r' ∧ ∀ d ∈ report.disconnected,
      base ∈ r.state.m_block_index.forest.path d ∧ d ≠ base := by
  unfold selectStep at h
  split at h
  · cases h
  · rename_i s hm
    cases h
    obtain ⟨hs, hf, -⟩ := mostWork_spec hm hk
    exact ⟨⟨hs, fun b hb => by cases hb⟩, by simp⟩
  · rename_i most s hm
    obtain ⟨hs, hf, hmost⟩ := mostWork_spec hm hk
    split at h
    · cases h
      exact ⟨⟨hs, fun b hb => by cases hb⟩, by simp⟩
    · split at h
      · cases h
      · rename_i report' s' hstep
        cases h
        have hmost' : base ∈ s.m_block_index.forest.path most := by
          rw [hf]
          exact hmost most rfl
        obtain ⟨hs', hf', hlog⟩ := ChainSelection.activateBestChainStep_spec hstep hs hmost'
        refine ⟨⟨hs', fun b hb => ?_⟩, fun d hd => ?_⟩
        · show base ∈ s'.m_block_index.forest.path b
          rw [hf']
          split at hb
          · cases hb
            exact hmost'
          · cases hb
        · rw [← hf]
          exact hlog d hd

end SelectionRun

variable {P : SelectionParams}

theorem RunKept.step (hk : RunKept base r)
    (h : SelectionStep P (ChainSelection.ArrivesBehind base P) r r') : RunKept base r' := by
  cases h with
  | header header =>
    exact ⟨ChainSelection.baseKept_acceptBlockHeader hk.state _ _, fun b hb =>
      (ChainSelection.acceptBlockHeader_spec _ _ _).2 _ _ (hk.most_work b hb)⟩
  | block hok h =>
    obtain ⟨hs, hpath⟩ := ChainSelection.baseKept_acceptBlock h hk.state hok
    exact ⟨hs, fun b hb => hpath _ _ (hk.most_work b hb)⟩
  | select h => exact (SelectionRun.selectStep_spec h hk).1
  | finish => exact ⟨hk.state, fun b hb => by cases hb⟩

/-- **in every run of a node after the activation of a snapshot, in which no block outside the tree
of the base comes to have as much work as the tip, `DisconnectTip` is never called on the base or
on one of its ancestors** -/
theorem snapshot_base_kept (P : SelectionParams) {base : Uint256} {r₀ r r' : SelectionRun}
    {env : SelectionEnv} {report : ChainSelection.StepReport} (h₀ : Activated base r₀)
    (hstart : StartsBehind base r₀.state) (hrun : Relation.ReflTransGen
      (SelectionStep P (ChainSelection.ArrivesBehind base P)) r₀ r)
    (hsel : r.selectStep env = .ok (report, r')) :
    ∀ d ∈ report.disconnected, d ∉ r.state.m_block_index.forest.path base := by
  have hk : RunKept base r := by
    clear hsel
    induction hrun with
    | refl => exact h₀.kept hstart
    | tail _ hstep ih => exact ih.step hstep
  intro d hd hmem
  obtain ⟨hbase, hne⟩ := (SelectionRun.selectStep_spec hsel hk).2 d hd
  exact hne (eq_of_mem_of_mem _ hmem hbase)

/-! ## a fork from below the base -/

def sampleArrival (hash prev proof : Nat) : BlockMessage :=
  ⟨⟨sampleId hash, sampleId prev, proof, hash, .ok (), true⟩, 1, true, .ok (), true⟩

def sampleActivated : SelectionRun where
  state :=
    { m_block_index := sampleForkIndex
      m_blocks_unlinked := []
      nBlockSequenceId := 4
      m_best_header := some (sampleId 3)
      m_best_invalid := none
      chainstate := (⟨some (sampleId 3), .VALIDATED, none, none, some (sampleId 3), []⟩ :
        ChainstateCore).populateBlockIndexCandidates sampleForkIndex }
  pindexMostWork := none

def sampleSelectionParams : SelectionParams := ⟨sampleId 1, 0⟩

def sampleSelectionEnv : SelectionEnv := ⟨fun _ => .connected, fun _ => true⟩

theorem sampleActivated_activated : Activated (sampleId 3) sampleActivated :=
  ⟨rfl, rfl, rfl, rfl, rfl, rfl⟩

def SelectionRun.receive (r : SelectionRun) (P : SelectionParams) (block : BlockMessage) :
    SelectionRun :=
  match r.state.acceptBlock P block with
  | .ok (_, s) => ⟨s, r.pindexMostWork⟩
  | .error _ => r

theorem SelectionRun.step_receive {ok : ChainSelection → BlockMessage → Prop} (r : SelectionRun)
    (b : BlockMessage) (hok : ok r.state b) (h : (r.state.acceptBlock P b).isOk = true) :
    SelectionStep P ok r (r.receive P b) := by
  unfold receive
  cases hb : r.state.acceptBlock P b with
  | error f =>
    rw [hb] at h
    cases h
  | ok x => exact .block hok hb

def SelectionRun.select (r : SelectionRun) (env : SelectionEnv) : SelectionRun :=
  match r.selectStep env with
  | .ok (_, r) => r
  | .error _ => r

theorem SelectionRun.step_select {ok : ChainSelection → BlockMessage → Prop} (r : SelectionRun)
    (env : SelectionEnv) (h : (r.selectStep env).isOk = true) :
    SelectionStep P ok r (r.select env) := by
  unfold select
  cases hs : r.selectStep env with
  | error f =>
    rw [hs] at h
    cases h
  | ok x => exact .select hs

def sampleForked : SelectionRun :=
  (sampleActivated.receive sampleSelectionParams (sampleArrival 4 2 1)).receive
    sampleSelectionParams (sampleArrival 5 4 1)

theorem snapshot_base_disconnected :
    Activated (sampleId 3) sampleActivated ∧
      Relation.ReflTransGen (SelectionStep sampleSelectionParams fun _ _ => True)
        sampleActivated sampleForked ∧
      ∃ report r', sampleForked.selectStep sampleSelectionEnv = .ok (report, r') ∧
        report.disconnected = [sampleId 3] := by
  refine ⟨sampleActivated_activated, ?_, _, _, rfl, rfl⟩
  refine Relation.ReflTransGen.tail (Relation.ReflTransGen.single ?_)
    (SelectionRun.step_receive _ _ trivial rfl)
  exact SelectionRun.step_receive _ _ trivial rfl

/-- a block arrives on top of the base and is connected -/
def sampleExtended : SelectionRun :=
  (sampleActivated.receive sampleSelectionParams (sampleArrival 4 3 1)).select sampleSelectionEnv

def sampleSibling : SelectionRun :=
  { sampleExtended with pindexMostWork := none }.receive sampleSelectionParams (sampleArrival 5 3 2)

theorem sampleActivated_startsBehind : StartsBehind (sampleId 3) sampleActivated.state := by
  have hall : ∀ h ∈ sampleForkIndex.entries.dom,
      sampleId 3 ∈ sampleForkIndex.forest.path h ∨ sampleForkIndex.Behind h (sampleId 3) := by
    decide
  intro h e he _
  rcases hall h (FMap.mem_dom_of_get he) with hb | hb
  · exact .inl hb
  · refine .inr fun t ht => ?_
    obtain rfl : sampleId 3 = t := Option.some.inj ht
    exact hb

theorem snapshot_base_kept_sibling :
    Relation.ReflTransGen (SelectionStep sampleSelectionParams
        (ChainSelection.ArrivesBehind (sampleId 3) sampleSelectionParams))
      sampleActivated sampleSibling ∧
    ∃ report r', sampleSibling.selectStep sampleSelectionEnv = .ok (report, r') ∧
      report.disconnected = [sampleId 4] ∧
      ∀ d ∈ report.disconnected, d ∉ sampleSibling.state.m_block_index.forest.path (sampleId 3) := by
  have hrun : Relation.ReflTransGen (SelectionStep sampleSelectionParams
      (ChainSelection.ArrivesBehind (sampleId 3) sampleSelectionParams))
      sampleActivated sampleSibling := by
    refine Relation.ReflTransGen.tail ?_
      (SelectionRun.step_receive _ _ ⟨.inl (by decide), fun e he => by cases he⟩ rfl)
    refine Relation.ReflTransGen.tail ?_ (SelectionStep.finish sampleExtended)
    refine Relation.ReflTransGen.tail ?_ (SelectionRun.step_select _ _ rfl)
    exact Relation.ReflTransGen.single
      (SelectionRun.step_receive _ _ ⟨.inl (by decide), fun e he => by cases he⟩ rfl)
  obtain ⟨report, r', hsel, hd⟩ : ∃ report r',
      sampleSibling.selectStep sampleSelectionEnv = .ok (report, r') ∧
        report.disconnected = [sampleId 4] := ⟨_, _, rfl, rfl⟩
  exact ⟨hrun, report, r', hsel, hd, snapshot_base_kept sampleSelectionParams
    sampleActivated_activated sampleActivated_startsBehind hrun hsel⟩

end ElektronNet
