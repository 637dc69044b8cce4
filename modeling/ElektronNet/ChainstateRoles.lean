import Mathlib.Logic.Relation
import ElektronNet.ChainstateLife
import ElektronNet.SnapshotActivation

/-!
# The roles of the chainstates over whole histories

A node activates snapshots, restarts, and runs on in between.  Two claims on the list of
chainstates are to hold after every such step: its roles are clear, and the next
`AddChainstate` finds what it asserts (`RolesKept`).

* `NodeStep`      one step: an activation that succeeds, a restart that succeeds, anything that
                  leaves the roles alone
* `Benign`        the steps that keep the roles: no snapshot is replaced, the old chainstate can be
                  deleted, and a snapshot that is loaded has no entry in the parameters
* `roles_kept`    along benign steps the roles are kept in every state
* `replacement_unvalidated`   a replacement leaves no validated chainstate

Along benign steps there is one chainstate at a time, and it counts as validated (`Healthy`): the
one that is added takes the place of the one before within the step.
-/

set_option linter.unusedSectionVars false

namespace ElektronNet

open List Outcome Option

/-! ## what decides a role -/

/-- the members that decide the role -/
def ChainstateCore.role (cs : ChainstateCore) :
    Option Uint256 × Assumeutxo × Option Uint256 × Option Uint256 :=
  (cs.m_from_snapshot_blockhash, cs.m_assumeutxo, cs.m_target_blockhash, cs.m_target_utxohash)

theorem ChainstateCore.role_eq {cs cs' : ChainstateCore} (h : cs'.role = cs.role) :
    cs'.m_from_snapshot_blockhash = cs.m_from_snapshot_blockhash ∧
      cs'.m_assumeutxo = cs.m_assumeutxo ∧ cs'.m_target_blockhash = cs.m_target_blockhash ∧
      cs'.m_target_utxohash = cs.m_target_utxohash := by
  simpa [role] using h

theorem ChainstateCore.tryAddBlockIndexCandidate_role (cs : ChainstateCore) (m : BlockMap)
    (pindex : Uint256) : (cs.tryAddBlockIndexCandidate m pindex).role = cs.role := by
  unfold tryAddBlockIndexCandidate
  split
  · rfl
  · split
    · rfl
    · split
      · rfl
      · split <;> rfl

theorem ChainstateCore.foldl_role {α : Type} {f : ChainstateCore → α → ChainstateCore}
    (hf : ∀ cs a, (f cs a).role = cs.role) (l : List α) (cs : ChainstateCore) :
    (l.foldl f cs).role = cs.role := by
  induction l generalizing cs with
  | nil => rfl
  | cons a l ih => rw [foldl_cons, ih, hf]

theorem ChainstateCore.populateBlockIndexCandidates_role (cs : ChainstateCore) (m : BlockMap) :
    (cs.populateBlockIndexCandidates m).role = cs.role := by
  apply foldl_role
  intro cs e
  split
  · exact tryAddBlockIndexCandidate_role cs m e.1
  · rfl

theorem ChainSelection.resetBlockFailureFlags_role (s : ChainSelection) (pindex : Uint256) :
    (s.resetBlockFailureFlags pindex).chainstate.role = s.chainstate.role := by
  apply ChainstateCore.foldl_role
  intro cs e
  split <;> rfl

section
variable {G : Type} [CommGroup G]

namespace Chainstate

/-- the same object in the same role -/
structure SameRole (cs cs' : Chainstate G) : Prop where
  id : cs'.id = cs.id
  role : cs'.role = cs.role
  mempool : cs'.m_mempool.isSome = cs.m_mempool.isSome

variable {cs cs' : Chainstate G}

theorem SameRole.trans {cs'' : Chainstate G} (h : SameRole cs cs') (h' : SameRole cs' cs'') :
    SameRole cs cs'' :=
  ⟨h'.id.trans h.id, h'.role.trans h.role, h'.mempool.trans h.mempool⟩

theorem Resized.sameRole (h : Resized cs cs') : SameRole cs cs' :=
  ⟨h.id, congrArg ChainstateCore.role h.core, by rw [h.mempool]⟩

/-- a validated chainstate that follows the network and holds the mempool -/
structure Leads (cs : Chainstate G) : Prop where
  validated : cs.m_assumeutxo = .VALIDATED
  no_target : cs.m_target_blockhash = none
  no_utxohash : cs.m_target_utxohash = none
  mempool : cs.m_mempool.isSome = true

theorem Leads.sameRole (h : Leads cs) (hs : SameRole cs cs') : Leads cs' := by
  obtain ⟨-, h₂, h₃, h₄⟩ := ChainstateCore.role_eq hs.role
  exact ⟨h₂.trans h.validated, h₃.trans h.no_target, h₄.trans h.no_utxohash,
    hs.mempool.trans h.mempool⟩

theorem Leads.isCurrent (h : Leads cs) : cs.isCurrent = true := by
  simp [Chainstate.isCurrent, h.validated, h.no_target]

/-- a chainstate that waits behind a snapshot -/
structure Behind (cs : Chainstate G) : Prop where
  validated : cs.m_assumeutxo = .VALIDATED
  target : cs.m_target_blockhash.isSome = true
  no_utxohash : cs.m_target_utxohash = none
  no_mempool : cs.m_mempool = none

/-- a snapshot that was just added -/
structure Ahead (cs : Chainstate G) : Prop where
  unvalidated : cs.m_assumeutxo = .UNVALIDATED
  no_target : cs.m_target_blockhash = none
  no_utxohash : cs.m_target_utxohash = none
  mempool : cs.m_mempool.isSome = true

theorem Behind.sameRole (h : Behind cs) (hs : SameRole cs cs') : Behind cs' := by
  obtain ⟨-, h₂, h₃, h₄⟩ := ChainstateCore.role_eq hs.role
  refine ⟨h₂.trans h.validated, ?_, h₄.trans h.no_utxohash, ?_⟩
  · rw [h₃]
    exact h.target
  · have := hs.mempool
    rw [h.no_mempool] at this
    simpa using this

theorem Ahead.sameRole (h : Ahead cs) (hs : SameRole cs cs') : Ahead cs' := by
  obtain ⟨-, h₂, h₃, h₄⟩ := ChainstateCore.role_eq hs.role
  exact ⟨h₂.trans h.unvalidated, h₃.trans h.no_target, h₄.trans h.no_utxohash,
    hs.mempool.trans h.mempool⟩

theorem Behind.isHistorical (h : Behind cs) : cs.isHistorical = true := by
  simp [Chainstate.isHistorical, h.validated, h.target, h.no_utxohash]

theorem Ahead.isCurrent (h : Ahead cs) : cs.isCurrent = true := by
  simp [Chainstate.isCurrent, h.unvalidated, h.no_target]

theorem Ahead.validate (h : Ahead cs) : Leads { cs with m_assumeutxo := .VALIDATED } :=
  ⟨rfl, h.no_target, h.no_utxohash, h.mempool⟩

end Chainstate

namespace ChainstateManager

def Healthy (s : ChainstateManager G) : Prop :=
  ∃ cs, s.m_chainstates = [cs] ∧ cs.Leads ∧ cs.id < s.nextId

/-- a snapshot ahead of the chainstate `validated` -/
structure Paired (s : ChainstateManager G) (validated assumeutxo : Nat) (base_blockhash : Uint256) :
    Prop where
  chainstates : ∃ v a, s.m_chainstates = [v, a] ∧ v.Behind ∧ a.Ahead ∧
    a.m_from_snapshot_blockhash = some base_blockhash ∧ v.id = validated ∧ a.id = assumeutxo
  ne : validated ≠ assumeutxo
  validated_lt : validated < s.nextId
  assumeutxo_lt : assumeutxo < s.nextId

/-- the roles are clear, and a further chainstate could be added while the mempool is empty -/
structure RolesKept (s : ChainstateManager G) : Prop where
  current : ∃ cs, (s.m_chainstates.filter fun cs => cs.m_target_blockhash.isNone) = [cs] ∧
    s.currentChainstate = some cs ∧
    (s.m_chainstates.filter fun cs => cs.m_mempool.isSome) = [cs]
  validated : (∃ cs, s.currentChainstate = some cs ∧ cs.m_assumeutxo = .VALIDATED) ∨
    ∃ cs, s.historicalChainstate = some cs ∧ cs.m_assumeutxo = .VALIDATED
  no_abort : s.validatedChainstate.isSome = true
  next : ∀ base_blockhash, (∀ cs, s.currentChainstate = some cs → mempoolNotEmpty cs = false) →
    ∃ s', s.addChainstate (Chainstate.new s.nextId none (some base_blockhash)) = .ok s'

variable {s s' : ChainstateManager G} {cs : Chainstate G}

theorem current_singleton (hs : s.m_chainstates = [cs]) (hcs : cs.isCurrent = true) :
    s.currentChainstate = some cs := by
  rw [currentChainstate, hs, find?_cons, hcs]

theorem setCurrent_singleton {cs' : Chainstate G} (hs : s.m_chainstates = [cs])
    (hcs : cs.isCurrent = true) : (s.setCurrent cs').m_chainstates = [cs'] := by
  show First.replace _ _ s.m_chainstates = _
  rw [hs, First.replace, if_pos hcs]

theorem addChainstate_leads {new : Chainstate G} (hs : s.m_chainstates = [cs]) (hcs : cs.Leads)
    (hbase : new.m_from_snapshot_blockhash.isSome) (hnew : new.isCurrent = true)
    (hnone : new.m_mempool = none) (hempty : mempoolNotEmpty cs = false) :
    s.addChainstate new = .ok { s with
      m_chainstates :=
        [{ cs with m_target_blockhash := new.m_from_snapshot_blockhash, m_mempool := none },
          { new with m_mempool := cs.m_mempool }] } := by
  have hcur := current_singleton hs hcs.isCurrent
  have hleft : ∀ cs' : Chainstate G, (s.setCurrent cs').m_chainstates = [cs'] :=
    fun cs' => setCurrent_singleton hs hcs.isCurrent
  have hbehind : ({ cs with m_target_blockhash := new.m_from_snapshot_blockhash } :
      Chainstate G).isCurrent = false := by
    cases hb : new.m_from_snapshot_blockhash with
    | none =>
      rw [hb] at hbase
      cases hbase
    | some _ => simp [Chainstate.isCurrent]
  have hmem : (cs.m_mempool.any fun mempool => decide (mempool.size ≠ 0)) = false := by
    rw [← hempty]
    congr 1
    funext mempool
    simp [Nat.pos_iff_ne_zero]
  have hback : ((s.setCurrent { cs with
      m_target_blockhash := new.m_from_snapshot_blockhash }).m_chainstates ++ [new]).find?
        Chainstate.isCurrent = some new := by
    rw [hleft, cons_append, nil_append, find?_cons, hbehind, find?_cons, hnew]
  unfold addChainstate
  rw [hcur]
  simp only [hback]
  rw [if_neg (by simp [hcs.validated]), if_neg (by simp [hcs.no_target]), if_neg (by simp),
    if_neg (by simpa using hmem), if_neg (by simp [hnone]), hleft]
  rfl

theorem Healthy.rolesKept (h : s.Healthy) : s.RolesKept := by
  obtain ⟨cs, hs, hcs, -⟩ := h
  have hcur := current_singleton hs hcs.isCurrent
  refine ⟨⟨cs, ?_, hcur, ?_⟩, .inl ⟨cs, hcur, hcs.validated⟩, ?_, fun base hempty => ?_⟩
  · simp [hs, hcs.no_target]
  · simp [hs, hcs.mempool]
  · simp [validatedChainstate, hcur, Chainstate.isValidated, hcs.validated]
  · exact ⟨_, addChainstate_leads hs hcs rfl rfl rfl (hempty cs hcur)⟩

/-! ## steps -/

theorem forall₂_singleton {R : Chainstate G → Chainstate G → Prop} {l : List (Chainstate G)}
    (h : List.Forall₂ R [cs] l) : ∃ cs', l = [cs'] ∧ R cs cs' := by
  cases h with
  | cons hab htail =>
    cases htail
    exact ⟨_, rfl, hab⟩

theorem forall₂_pair {R : Chainstate G → Chainstate G → Prop} {a b : Chainstate G}
    {l : List (Chainstate G)} (h : List.Forall₂ R [a, b] l) :
    ∃ a' b', l = [a', b'] ∧ R a a' ∧ R b b' := by
  cases h with
  | cons hab htail =>
    obtain ⟨b', rfl, hb⟩ := forall₂_singleton htail
    exact ⟨_, b', rfl, hab, hb⟩

/-- everything but the roles may have changed -/
structure SameRoles (s s' : ChainstateManager G) : Prop where
  chainstates : List.Forall₂ Chainstate.SameRole s.m_chainstates s'.m_chainstates
  nextId : s'.nextId = s.nextId

theorem Resized.sameRoles (h : Resized s s') : SameRoles s s' :=
  ⟨h.chainstates.imp fun _ _ hr => hr.sameRole, h.nextId⟩

theorem Healthy.sameRoles (h : s.Healthy) (hs : SameRoles s s') : s'.Healthy := by
  obtain ⟨cs, hl, hcs, hid⟩ := h
  obtain ⟨cs', hl', hr⟩ := forall₂_singleton (hl ▸ hs.chainstates)
  exact ⟨cs', hl', hcs.sameRole hr, by rw [hr.id, hs.nextId]; exact hid⟩

variable {validated assumeutxo : Nat} {base_blockhash : Uint256}

theorem Paired.sameRoles (h : s.Paired validated assumeutxo base_blockhash) (hs : SameRoles s s') :
    s'.Paired validated assumeutxo base_blockhash := by
  obtain ⟨⟨v, a, hl, hv, ha, hfrom, hidv, hida⟩, hne, hltv, hlta⟩ := h
  obtain ⟨v', a', hl', hrv, hra⟩ := forall₂_pair (hl ▸ hs.chainstates)
  rw [← hs.nextId] at hltv hlta
  exact ⟨⟨v', a', hl', hv.sameRole hrv, ha.sameRole hra,
    (ChainstateCore.role_eq hra.role).1.trans hfrom, hrv.id.trans hidv, hra.id.trans hida⟩, hne,
    hltv, hlta⟩

theorem SameRoles.refl (s : ChainstateManager G) : SameRoles s s :=
  ⟨List.forall₂_same.mpr fun _ _ => ⟨rfl, rfl, rfl⟩, rfl⟩

theorem SameRoles.trans {s'' : ChainstateManager G} (h : SameRoles s s') (h' : SameRoles s' s'') :
    SameRoles s s'' :=
  ⟨First.forall₂_trans (fun _ _ _ hab hbc => hab.trans hbc) h.chainstates h'.chainstates,
    h'.nextId.trans h.nextId⟩

theorem setCurrent_sameRoles {cs' : Chainstate G} (hcur : s.currentChainstate = some cs)
    (h : Chainstate.SameRole cs cs') : SameRoles s (s.setCurrent cs') :=
  ⟨First.forall₂_replace (fun _ => ⟨rfl, rfl, rfl⟩) h hcur, rfl⟩

theorem populateCurrent_sameRoles (s : ChainstateManager G) : SameRoles s s.populateCurrent := by
  unfold populateCurrent
  split
  · exact SameRoles.refl s
  · rename_i cs hcs
    exact setCurrent_sameRoles hcs
      ⟨rfl, ChainstateCore.populateBlockIndexCandidates_role _ _, rfl⟩

theorem unstick_sameRoles (s : ChainstateManager G) (base_blockhash : Uint256) :
    SameRoles s (s.unstick base_blockhash) := by
  unfold unstick
  split
  · exact SameRoles.refl s
  · unfold currentSelection
    split
    · exact SameRoles.refl s
    · rename_i cs hcs
      exact ⟨First.forall₂_replace (a := cs) (fun _ => ⟨rfl, rfl, rfl⟩)
        ⟨rfl, ChainSelection.resetBlockFailureFlags_role _ _, rfl⟩ hcs, rfl⟩

/-! ## activation -/

section
variable {M : MuHash G} {codec : CoinCodec} {P : CChainParams} {env : ActivationEnv G}

/-- a chainstate that only lacks the mempool to be ahead -/
structure Added (cs : Chainstate G) (id : Nat) (base_blockhash : Uint256) : Prop where
  id : cs.id = id
  role : cs.role = (some base_blockhash, .UNVALIDATED, none, none)
  no_mempool : cs.m_mempool = none

variable {cs : Chainstate G} {s s' : ChainstateManager G} {r : Uint256}

theorem Added.isCurrent {id : Nat} (h : Added cs id base_blockhash) : cs.isCurrent = true := by
  have hr := h.role
  simp only [ChainstateCore.role, Prod.mk.injEq] at hr
  simp [Chainstate.isCurrent, hr]

theorem cleanupBadSnapshot_ne_ok {reason : String} :
    s.cleanupBadSnapshot env reason ≠ .ok (.ok r, s') := by
  intro h
  obtain ⟨s₁, -, h₂⟩ := bind_eq_ok.mp h
  cases h₂

theorem finishActivation_ok {dir : SnapshotDir G} {in_memory : Bool} {old : Option Nat}
    (h : finishActivation env s cs dir base_blockhash in_memory old = .ok (.ok r, s')) :
    ∃ s₂ : ChainstateManager G, s₂.m_chainstates = s.m_chainstates ∧ s₂.nextId = s.nextId ∧
      s₂.registerSnapshot env cs base_blockhash old = .ok (.ok r, s') ∧
      s₂.toBlockTree = s.toBlockTree := by
  unfold finishActivation at h
  by_cases hwork : (!s.activeTip.any fun t => s.m_block_index.before t base_blockhash) = true
  · rw [if_pos hwork] at h
    exact absurd h cleanupBadSnapshot_ne_ok
  · rw [if_neg hwork] at h
    by_cases hwrite : (!in_memory && !env.writeBaseBlockhash) = true
    · rw [if_pos hwrite] at h
      exact absurd h cleanupBadSnapshot_ne_ok
    · rw [if_neg hwrite] at h
      refine ⟨_, ?_, ?_, h, ?_⟩ <;> rfl

theorem populateSnapshot_ok {current : Chainstate G} {coins_file : Bytes}
    {metadata : SnapshotMetadata} {in_memory verify : Bool} {expected_utxo_hash : Option Uint256}
    (h : populateSnapshot M codec P env s current coins_file metadata in_memory verify
      expected_utxo_hash = .ok (.ok r, s')) :
    ∃ (s₂ : ChainstateManager G) (new : Chainstate G) (populated : Populated),
      s₂.m_chainstates = s.m_chainstates ∧ s₂.nextId = s.nextId ∧
      Added new s.nextId metadata.m_base_blockhash ∧
      populateAndValidateSnapshot M codec P env.load s.m_block_index s.activeTip
        (openViews (s.openedDir in_memory current.m_from_snapshot_blockhash.isSome)).coinsTip coins_file
        metadata verify expected_utxo_hash = .ok populated ∧
      new.m_coins_views =
        some ((openViews (s.openedDir in_memory current.m_from_snapshot_blockhash.isSome)).withCoinsTip
          populated.coins_cache.toView) ∧
      s₂.registerSnapshot env new metadata.m_base_blockhash
        (if current.m_from_snapshot_blockhash.isSome then some current.id else none) =
          .ok (.ok r, s') ∧
      s₂.toBlockTree = { s.toBlockTree with m_block_index := populated.m_block_index } ∧
      new.tip = some metadata.m_base_blockhash ∧ new.setBlockIndexCandidates = [] := by
  unfold populateSnapshot at h
  simp only at h
  split at h
  · cases h
  · exact absurd h cleanupBadSnapshot_ne_ok
  · rename_i populated hpopulate
    obtain ⟨s₂, hl, hid, hreg, htree⟩ := finishActivation_ok h
    exact ⟨s₂, _, populated, hl, hid, ⟨rfl, rfl, rfl⟩, hpopulate, rfl, hreg, htree, rfl, rfl⟩

/-- **an activation over a chainstate that is not a snapshot** leaves it behind the new one -/
theorem activateSnapshot_paired {coins_file : Bytes} {metadata : SnapshotMetadata}
    {expected_utxo_hash : Option Uint256} (hs : s.m_chainstates = [cs]) (hcs : cs.Leads)
    (hid : cs.id < s.nextId) (hfrom : cs.m_from_snapshot_blockhash = none)
    (h : activateSnapshot M codec P env s coins_file metadata false false expected_utxo_hash =
      .ok (.ok r, s')) : s'.Paired cs.id s.nextId metadata.m_base_blockhash := by
  have hcur := current_singleton hs hcs.isCurrent
  unfold activateSnapshot at h
  simp only [hcur] at h
  split at h
  · cases h
  · rename_i haccepted
    obtain ⟨start, -, -, -, hempty⟩ := activationError_eq_none_iff.mp haccepted
    obtain ⟨s₁, hresize, hpop⟩ := bind_eq_ok.mp h
    have hres := resizeCurrent_spec hresize
    obtain ⟨cs₁, hcs₁, hr⟩ := forall₂_singleton (hs ▸ hres.chainstates)
    have hlead := hcs.sameRole hr.sameRole
    have hfrom₁ : cs₁.m_from_snapshot_blockhash = none := by rw [hr.core, hfrom]
    have hempty₁ : mempoolNotEmpty cs₁ = false := by rw [mempoolNotEmpty, hr.mempool]; exact hempty
    rw [closeOldSnapshot_eq (current_singleton hcs₁ hlead.isCurrent) hfrom₁] at hpop
    obtain ⟨s₂, new, -, hl₂, hid₂, hnew, -, -, hreg, -⟩ := populateSnapshot_ok hpop
    rw [hfrom] at hreg
    have hrole := hnew.role
    simp only [ChainstateCore.role, Prod.mk.injEq] at hrole
    obtain ⟨hbase, hassume, htarget, hhash⟩ := hrole
    obtain ⟨s₃, hadd, hrest⟩ := bind_eq_ok.mp hreg
    rw [addChainstate_leads (hl₂.trans hcs₁) hlead (by rw [hbase]; rfl) hnew.isCurrent
      hnew.no_mempool hempty₁] at hadd
    cases hadd
    obtain ⟨s₄, hreb, hdone⟩ := bind_eq_ok.mp hrest
    cases hdone
    refine Paired.sameRoles ?_ ((populateCurrent_sameRoles _).trans
      (maybeRebalanceCaches_spec hreb).sameRoles)
    refine ⟨⟨_, _, rfl, ⟨hlead.validated, ?_, hlead.no_utxohash, rfl⟩,
      ⟨hassume, htarget, hhash, hlead.mempool⟩, hbase, hr.id, ?_⟩, Nat.ne_of_lt hid, ?_, ?_⟩
    · show new.m_from_snapshot_blockhash.isSome = true
      rw [hbase]
      rfl
    · show new.id = s.nextId
      rw [hnew.id, hres.nextId]
    · show cs.id < s₂.nextId + 1
      rw [hid₂, hres.nextId]
      omega
    · show s.nextId < s₂.nextId + 1
      rw [hid₂, hres.nextId]
      omega

end

theorem deleteChainstate_behind {v a : Chainstate G} {ok removed : Bool}
    {dirLeft : Option (SnapshotDir G)} (hs : s.m_chainstates = [v, a]) (hv : v.m_mempool = none)
    (h : s.deleteChainstate v.id removed dirLeft = .ok (ok, s')) :
    ok = removed ∧ (ok = true → s'.m_chainstates = [a] ∧ s'.nextId = s.nextId) := by
  have hfind : s.find v.id = some v := by
    rw [find, hs, find?_cons, beq_self_eq_true]
  unfold deleteChainstate at h
  simp only [hfind] at h
  split at h
  · cases h
  · cases removed with
    | false =>
      cases h
      exact ⟨rfl, fun hf => by cases hf⟩
    | true =>
      obtain ⟨s₁, hhand, hdone⟩ := bind_eq_ok.mp h
      rw [hv] at hhand
      cases hhand
      cases hdone
      refine ⟨rfl, fun _ => ⟨?_, rfl⟩⟩
      show s.m_chainstates.eraseP _ = _
      rw [hs, eraseP_cons_of_pos (by simp)]

theorem discardHistorical_healthy
    (hp : s.Paired validated assumeutxo base_blockhash) (h : s.discardHistorical true = .ok s') :
    s'.Healthy := by
  obtain ⟨⟨v, a, hl, hv, ha, -, hidv, hida⟩, -, -, hid⟩ := hp
  have hhist : s.historicalChainstate = some v := by
    rw [historicalChainstate, hl, find?_cons, hv.isHistorical]
  have hset : (s.setHistorical { v with m_coins_views := none }).m_chainstates =
      [{ v with m_coins_views := none }, a] := by
    show First.replace _ _ s.m_chainstates = _
    rw [hl, First.replace, if_pos hv.isHistorical]
  unfold discardHistorical at h
  simp only [hhist] at h
  split at h
  · cases h
  · rename_i s₁ hdel
    cases (deleteChainstate_behind hset hv.no_mempool hdel).1
  · rename_i s₁ hdel
    obtain ⟨hl₁, hid₁⟩ := (deleteChainstate_behind hset hv.no_mempool hdel).2 rfl
    have hcur := current_singleton hl₁ ha.isCurrent
    simp only [hcur] at h
    cases h
    refine ⟨{ a with m_assumeutxo := .VALIDATED }, setCurrent_singleton hl₁ ha.isCurrent,
      ha.validate, ?_⟩
    show a.id < s₁.nextId
    rw [hid₁, hida]
    exact hid

/-! ## restart -/

section
variable {M : MuHash G} {P : CChainParams} {env : RestartEnv G}

variable {s s' : ChainstateManager G} {validated : Nat} {v a : Chainstate G}

theorem initChainstate_sameRole {cs cs' : Chainstate G} (h : s.initChainstate env cs = some cs') :
    Chainstate.SameRole cs cs' := by
  obtain ⟨loaded, -, rfl⟩ := map_eq_some_iff.mp h
  exact ⟨rfl, ChainstateCore.populateBlockIndexCandidates_role _ _, rfl⟩

theorem mapM_sameRole {l l' : List (Chainstate G)} (h : l.mapM (s.initChainstate env) = some l') :
    List.Forall₂ Chainstate.SameRole l l' := by
  induction l generalizing l' with
  | nil =>
    cases h
    exact .nil
  | cons cs l ih =>
    rw [mapM_cons] at h
    obtain ⟨cs', hcs', h⟩ := bind_eq_some_iff.mp h
    obtain ⟨l'', hl'', h⟩ := bind_eq_some_iff.mp h
    cases h
    exact .cons (initChainstate_sameRole hcs') (ih hl'')

theorem completeChainstateInitialization_spec
    (h : s.completeChainstateInitialization env = .ok (some s')) :
    SameRoles s s' ∧ s'.toBlockTree = env.tree := by
  unfold completeChainstateInitialization at h
  split at h
  · cases h
  · rename_i l hl
    obtain ⟨s₁, hreb, hdone⟩ := bind_eq_ok.mp h
    cases hdone
    have hres := maybeRebalanceCaches_spec hreb
    have hloaded : SameRoles s { s with toBlockTree := env.tree, m_chainstates := l } :=
      ⟨mapM_sameRole hl, rfl⟩
    exact ⟨hloaded.trans hres.sameRoles, hres.tree⟩

theorem finishLoad_none (hs : s.Healthy)
    (h : s.finishLoad M P env validated none = .ok (.SUCCESS, s')) : s'.Healthy := by
  unfold finishLoad at h
  split at h
  · cases h
  · cases h
  · rename_i s₁ hinit
    have hs₁ := hs.sameRoles (completeChainstateInitialization_spec hinit).1
    split at h
    · rename_i hsome
      cases hsome
    · cases h
      exact hs₁

theorem find_fst (hs : s.m_chainstates = [v, a]) : s.find v.id = some v := by
  rw [find, hs, find?_cons, beq_self_eq_true]

theorem find_snd (hs : s.m_chainstates = [v, a]) (hne : v.id ≠ a.id) : s.find a.id = some a := by
  rw [find, hs, find?_cons, beq_eq_false_iff_ne.mpr hne, find?_cons, beq_self_eq_true]

theorem modify_fst (hs : s.m_chainstates = [v, a]) (hne : v.id ≠ a.id)
    (f : Chainstate G → Chainstate G) : (s.modify v.id f).m_chainstates = [f v, a] := by
  show s.m_chainstates.map _ = _
  rw [hs, map_cons, if_pos rfl, map_cons, if_neg hne.symm, map_nil]

/-- the entry of a base that the parameters do not know -/
def Unlisted (P : CChainParams) (m : BlockMap) (base_blockhash : Uint256) : Prop :=
  ∃ e, m.entries.get base_blockhash = some e ∧ P.assumeutxoForHeight e.nHeight = none

theorem discardValidated_healthy (hl : s.m_chainstates = [v, a]) (hv : v.Behind) (ha : a.Ahead)
    (hne : v.id ≠ a.id) (hid : a.id < s.nextId)
    (h : s.discardValidated env v.id a.id = .ok (.SUCCESS, s')) : s'.Healthy := by
  have hmod := modify_fst hl hne fun cs => { cs with m_coins_views := none }
  unfold discardValidated at h
  split at h
  · cases h
  · cases h
  · rename_i s₁ hdel
    obtain ⟨hl₁, hid₁⟩ := (deleteChainstate_behind hmod hv.no_mempool hdel).2 rfl
    cases h
    refine ⟨{ a with m_assumeutxo := .VALIDATED }, ?_, ha.validate, ?_⟩
    · show s₁.m_chainstates.map _ = _
      rw [hl₁, map_cons, if_pos rfl, map_nil]
    · show a.id < s₁.nextId
      rw [hid₁]
      exact hid

theorem finishLoad_unlisted (hp : s.Paired validated assumeutxo base_blockhash)
    (hun : Unlisted P env.tree.m_block_index base_blockhash)
    (h : s.finishLoad M P env validated (some assumeutxo) = .ok (.SUCCESS, s')) : s'.Healthy := by
  unfold finishLoad at h
  split at h
  · cases h
  · cases h
  · rename_i s₁ hinit
    obtain ⟨hroles, htree⟩ := completeChainstateInitialization_spec hinit
    obtain ⟨⟨v, a, hl, hv, ha, hfrom, rfl, rfl⟩, hne, -, hid⟩ := hp.sameRoles hroles
    obtain ⟨e, he, hno⟩ := hun
    rw [find_fst hl, bind_some, find_snd hl hne] at h
    simp only at h
    unfold settleSnapshot at h
    rw [hfrom] at h
    simp only [BlockMap.lookupBlockIndex, htree, he, hno, isNone_none, if_true] at h
    exact discardValidated_healthy hl hv ha hne hid h

theorem deleteChainstate_ahead {removed : Bool} {dirLeft : Option (SnapshotDir G)}
    (hs : s.m_chainstates = [v, a]) (hne : v.id ≠ a.id) (hv : v.isCurrent = true)
    (ha : a.m_mempool.isSome = true) (h : s.deleteChainstate a.id removed dirLeft = .ok (true, s')) :
    s'.m_chainstates = [{ v with m_mempool := a.m_mempool }] ∧ s'.nextId = s.nextId := by
  unfold deleteChainstate at h
  rw [find_snd hs hne] at h
  simp only at h
  split at h
  · cases h
  · cases removed with
    | false =>
      cases h
    | true =>
      obtain ⟨s₁, hhand, hdone⟩ := bind_eq_ok.mp h
      cases hdone
      obtain ⟨mempool, hmem⟩ := isSome_iff_exists.mp ha
      have hleft : ∀ dir, (({ s with snapshotDir := dir } : ChainstateManager G).removeChainstate
          a.id).m_chainstates = [v] := by
        intro dir
        show s.m_chainstates.eraseP _ = _
        rw [hs, eraseP_cons_of_neg (by simpa using hne), eraseP_cons_of_pos (by simp)]
      rw [hmem, handOver, current_singleton (hleft _) hv] at hhand
      simp only at hhand
      split at hhand
      · cases hhand
      · split at hhand
        · cases hhand
        · cases hhand
          rw [hmem]
          exact ⟨setCurrent_singleton (hleft _) hv, rfl⟩

/-- the parameters know no snapshot that a restart finds, or the restart wipes it -/
def RestartKeeps (P : CChainParams) (s : ChainstateManager G) (env : RestartEnv G) : Prop :=
  ∀ base_blockhash, s.snapshotDir.bind (·.base_blockhash) = some base_blockhash →
    env.wipe_chainstate_db = true ∨ Unlisted P env.tree.m_block_index base_blockhash

theorem new_leads (id : Nat) (mempool : CTxMemPool) :
    (Chainstate.new id (some mempool) none : Chainstate G).Leads := ⟨rfl, rfl, rfl, rfl⟩

theorem loadAssumeutxoChainstate_spec {assumeutxo : Option Nat}
    (hs : s.m_chainstates = [Chainstate.new validated (some ⟨0⟩) none]) (hid : validated < s.nextId)
    (h : s.loadAssumeutxoChainstate = .ok (assumeutxo, s')) :
    (assumeutxo = none ∧ s'.Healthy) ∨
    ∃ base_blockhash, s.snapshotDir.bind (·.base_blockhash) = some base_blockhash ∧
      assumeutxo = some s.nextId ∧ s'.Paired validated s.nextId base_blockhash := by
  have hlead := new_leads (G := G) validated ⟨0⟩
  unfold loadAssumeutxoChainstate at h
  rw [current_singleton hs hlead.isCurrent] at h
  simp only at h
  rw [if_neg (by simp [Chainstate.new])] at h
  split at h
  · cases h
    exact .inl ⟨rfl, _, hs, hlead, hid⟩
  · rename_i base_blockhash hbase
    rw [addChainstate_leads hs hlead rfl rfl rfl rfl] at h
    cases h
    exact .inr ⟨base_blockhash, hbase, rfl, ⟨_, _, rfl, ⟨rfl, rfl, rfl, rfl⟩, ⟨rfl, rfl, rfl, rfl⟩,
      rfl, rfl, rfl⟩, Nat.ne_of_lt hid, Nat.lt_succ_of_lt hid, Nat.lt_succ_self _⟩

theorem loadSnapshotChainstate_wiped
    (hp : s.Paired validated assumeutxo base_blockhash) (hw : env.wipe_chainstate_db = true)
    (h : s.loadSnapshotChainstate M P env validated (some assumeutxo) = .ok (.SUCCESS, s')) :
    s'.Healthy := by
  obtain ⟨⟨v, a, hl, hv, ha, -, rfl, rfl⟩, hne, hid, -⟩ := hp
  unfold loadSnapshotChainstate at h
  rw [hw] at h
  simp only at h
  split at h
  · cases h
  · cases h
  · rename_i s₁ hdel
    have hmod := modify_fst hl hne fun cs => { cs with m_target_blockhash := none }
    have hcur : ({ v with m_target_blockhash := none } : Chainstate G).isCurrent = true := by
      simp [Chainstate.isCurrent, hv.validated]
    obtain ⟨hl₁, hid₁⟩ := deleteChainstate_ahead hmod hne hcur ha.mempool hdel
    refine finishLoad_none ⟨_, hl₁, ⟨hv.validated, rfl, hv.no_utxohash, ha.mempool⟩, ?_⟩ h
    rw [hid₁]
    exact hid

theorem loadChainstate_healthy (hk : RestartKeeps P s env)
    (h : s.loadChainstate M P env = .ok (.SUCCESS, s')) : s'.Healthy := by
  obtain ⟨⟨assumeutxo, s₁⟩, hload, hrest⟩ := bind_eq_ok.mp h
  obtain ⟨rfl, hs₁⟩ | ⟨base_blockhash, hbase, rfl, hp⟩ :=
    loadAssumeutxoChainstate_spec rfl (Nat.lt_succ_self _) hload
  · exact finishLoad_none hs₁ hrest
  · rcases hk base_blockhash hbase with hw | hun
    · exact loadSnapshotChainstate_wiped hp hw hrest
    · cases hw : env.wipe_chainstate_db with
      | true => exact loadSnapshotChainstate_wiped hp hw hrest
      | false =>
        unfold loadSnapshotChainstate at hrest
        rw [hw] at hrest
        exact finishLoad_unlisted hp hun hrest

end

/-! ## histories -/

/-- what a node may do -/
inductive NodeAction (G : Type) where
  | activate (snapshot : AutomaticSnapshot G)
  | restart (env : RestartEnv G)
  | quiet

section
variable (M : MuHash G) (codec : CoinCodec) (P : CChainParams)

inductive NodeStep : ChainstateManager G → NodeAction G → ChainstateManager G → Prop where
  | activate {s s' : ChainstateManager G} {snapshot : AutomaticSnapshot G}
      (h : s.maybeActivateAutomaticSnapshot M codec P snapshot = .ok (true, s')) :
      NodeStep s (.activate snapshot) s'
  | restart {s s' : ChainstateManager G} {env : RestartEnv G}
      (h : s.loadChainstate M P env = .ok (.SUCCESS, s')) : NodeStep s (.restart env) s'
  | quiet {s s' : ChainstateManager G} (h : SameRoles s s') : NodeStep s .quiet s'

/-- an activation replaces no snapshot and can delete the old chainstate; a restart finds no
snapshot that the parameters know -/
def Benign (s : ChainstateManager G) : NodeAction G → Prop
  | .activate snapshot =>
    (∀ cs, s.currentChainstate = some cs → cs.m_from_snapshot_blockhash = none) ∧
      snapshot.historicalRemoved = true
  | .restart env => RestartKeeps P s env
  | .quiet => True

def Fresh (s : ChainstateManager G) : Prop :=
  ∃ cs, s.m_chainstates = [cs] ∧ cs.Leads ∧ cs.m_from_snapshot_blockhash = none ∧ cs.id < s.nextId

variable {M codec P}

theorem activate_healthy {snapshot : AutomaticSnapshot G}
    (hs : s.Healthy) (hb : s.Benign P (.activate snapshot))
    (h : s.maybeActivateAutomaticSnapshot M codec P snapshot = .ok (true, s')) : s'.Healthy := by
  obtain ⟨hfrom, hremoved⟩ := hb
  unfold maybeActivateAutomaticSnapshot at h
  split at h
  · cases h
  · split at h
    · cases h
    · rename_i expected_hash hexpected
      simp only at h
      have hroles : SameRoles s (if snapshot.stuck_on_invalid_chain
          then s.unstick snapshot.metadata.m_base_blockhash else s) := by
        split
        · exact unstick_sameRoles s _
        · exact SameRoles.refl s
      obtain ⟨cs, hl, hcs, hid⟩ := hs
      obtain ⟨cs₁, hl₁, hr⟩ := forall₂_singleton (hl ▸ hroles.chainstates)
      rw [← hr.id, ← hroles.nextId] at hid
      have hfrom₁ : cs₁.m_from_snapshot_blockhash = none :=
        (ChainstateCore.role_eq hr.role).1.trans (hfrom cs (current_singleton hl hcs.isCurrent))
      split at h
      · cases h
      · cases h
      · rename_i r s₁ hact
        obtain ⟨s₂, hdiscard, hdone⟩ := bind_eq_ok.mp h
        cases hdone
        rw [hremoved] at hdiscard
        exact discardHistorical_healthy
          (activateSnapshot_paired hl₁ (hcs.sameRole hr) hid hfrom₁ hact) hdiscard

theorem NodeStep.healthy {a : NodeAction G}
    (h : NodeStep M codec P s a s') (hs : s.Healthy) (hb : s.Benign P a) : s'.Healthy := by
  cases h with
  | activate h => exact activate_healthy hs hb h
  | restart h => exact loadChainstate_healthy hb h
  | quiet h => exact hs.sameRoles h

theorem roles_kept {s s' : ChainstateManager G} (hs : s.Fresh)
    (hrun : Relation.ReflTransGen (fun s s' => ∃ a, s.Benign P a ∧ NodeStep M codec P s a s') s s') :
    s'.RolesKept := by
  have hhealthy : s'.Healthy := by
    induction hrun with
    | refl =>
      obtain ⟨cs, hl, hcs, -, hid⟩ := hs
      exact ⟨cs, hl, hcs, hid⟩
    | tail _ hstep ih =>
      obtain ⟨a, hb, h⟩ := hstep
      exact h.healthy ih hb
  exact hhealthy.rolesKept

end

end ChainstateManager

end

/-! ## a replacement -/

namespace ChainstateManager

def sampleFresh : ChainstateManager (Multiplicative ℤ) :=
  { sampleManager none with
    m_chainstates := [{ sampleCurrent none with
      tip := some (sampleId 1)
      m_coins_views := some (openViews ⟨none, { CCoinsViewDB.empty with bestBlock := sampleId 1 }, none⟩) }] }

def sampleSnapshot (base : Nat) : AutomaticSnapshot (Multiplicative ℤ) where
  coins_file := []
  metadata := ⟨sampleId base, 0⟩
  expected_hash := some (sampleId 1)
  stuck_on_invalid_chain := false
  activation := sampleActivationEnv
  historicalRemoved := true

def sampleCountHash : MuHash (Multiplicative ℤ) :=
  { sampleMuHash with hashWriter := fun l => sampleId (l.length + 1) }

theorem sampleFresh_fresh : sampleFresh.Fresh := ⟨_, rfl, ⟨rfl, rfl, rfl, rfl⟩, rfl, by decide⟩

theorem replacement_unvalidated :
    sampleFresh.Fresh ∧ ∃ s₁ s₂,
      NodeStep sampleCountHash sampleCodec ⟨mainParams, []⟩ sampleFresh
        (.activate (sampleSnapshot 2)) s₁ ∧
      NodeStep sampleCountHash sampleCodec ⟨mainParams, []⟩ s₁ (.activate (sampleSnapshot 3)) s₂ ∧
      s₂.validatedChainstate = none ∧ ¬ s₂.RolesKept := by
  refine ⟨sampleFresh_fresh, _, _, .activate rfl, .activate rfl, rfl, fun h => ?_⟩
  cases h.no_abort

def sampleRestartEnv : RestartEnv (Multiplicative ℤ) where
  wipe_chainstate_db := false
  tree := sampleFresh.toBlockTree
  loadViews _ := some (sampleViews, some (sampleId 2))
  rebalance := ⟨true, sampleFlushEnv, sampleFlushEnv⟩
  snapshotRemoved := true
  historicalRemoved := true
  dirLeft := none
  flush := sampleFlushEnv
  hashInterrupt := false

/-- one activation and a restart -/
theorem roles_kept_restart :
    ∃ s₁ s₂,
      NodeStep sampleCountHash sampleCodec ⟨mainParams, []⟩ sampleFresh
        (.activate (sampleSnapshot 2)) s₁ ∧
      NodeStep sampleCountHash sampleCodec ⟨mainParams, []⟩ s₁ (.restart sampleRestartEnv) s₂ ∧
      s₂.RolesKept := by
  obtain ⟨s₁, s₂, hact, hre, hdir⟩ : ∃ s₁ s₂,
      NodeStep sampleCountHash sampleCodec ⟨mainParams, []⟩ sampleFresh
        (.activate (sampleSnapshot 2)) s₁ ∧
      NodeStep sampleCountHash sampleCodec ⟨mainParams, []⟩ s₁ (.restart sampleRestartEnv) s₂ ∧
      s₁.snapshotDir.bind (·.base_blockhash) = some (sampleId 2) :=
    ⟨_, _, .activate rfl, .restart rfl, rfl⟩
  have hfirst : sampleFresh.Benign ⟨mainParams, []⟩ (.activate (sampleSnapshot 2)) := by
    refine ⟨fun cs hcs => ?_, rfl⟩
    cases hcs
    rfl
  have hkeeps : s₁.Benign ⟨mainParams, []⟩ (.restart sampleRestartEnv) := by
    intro base_blockhash hbase
    obtain rfl : sampleId 2 = base_blockhash := Option.some.inj (hdir.symm.trans hbase)
    exact .inr ⟨_, rfl, rfl⟩
  exact ⟨s₁, s₂, hact, hre, roles_kept sampleFresh_fresh
    ((Relation.ReflTransGen.single ⟨_, hfirst, hact⟩).tail ⟨_, hkeeps, hre⟩)⟩

end ChainstateManager

end ElektronNet
