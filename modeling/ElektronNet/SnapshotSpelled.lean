import ElektronNet.SnapshotSound

/-!
# The set that a snapshot spells

The database that a successful activation leaves, as a function of the bytes that were read.

* `Registered`            the chainstate of an activation holds a set, through the registration, the
                          rebalancing and the removal of the old chainstate
* `activated_spelled`     the coins that `MaybeActivateAutomaticSnapshot` activates are the ones that the
                          file spells
-/

set_option linter.unusedSectionVars false

namespace ElektronNet

open List Outcome CCoinsViewCache

theorem toView_database {c : CCoinsViewCache} {d : CCoinsViewDB} (h : c.base = .db d) :
    c.toView.database = d := by
  obtain ⟨layer, view⟩ := c
  obtain rfl : view = .db d := h
  rfl

/-! ## the chainstate of an activation -/

namespace ChainstateManager

section
variable {G : Type} [CommGroup G]

/-- a chainstate of a snapshot whose coins are the set `S` -/
structure Holds (base : Uint256) (S : Utxos) (cs : Chainstate G) : Prop where
  base : cs.m_from_snapshot_blockhash = some base
  target : cs.m_target_blockhash = none
  views : ∃ c, cs.m_coins_views = some c ∧ c.coinsTip.Ok ∧ c.coinsTip.utxos = S ∧ c.coinsDB.coins = S

structure Registered (s : ChainstateManager G) (id : Nat) (base : Uint256) (S : Utxos) : Prop where
  present : ∃ cs ∈ s.m_chainstates, cs.id = id
  holds : ∀ cs ∈ s.m_chainstates, cs.id = id → Holds base S cs

def FreshIds (s : ChainstateManager G) : Prop := ∀ cs ∈ s.m_chainstates, cs.id < s.nextId

def SameId (cs cs' : Chainstate G) : Prop := cs'.id = cs.id

/-- the same object, which holds what it held -/
def Keeps (cs cs' : Chainstate G) : Prop :=
  cs'.id = cs.id ∧ ∀ base S, Holds base S cs → Holds base S cs'

theorem Keeps.refl (cs : Chainstate G) : Keeps cs cs := ⟨rfl, fun _ _ h => h⟩

theorem keeps_of_resized {cs cs' : Chainstate G} (h : Chainstate.Resized cs cs') : Keeps cs cs' := by
  refine ⟨h.id, fun base S hs => ⟨by rw [h.core]; exact hs.base, by rw [h.core]; exact hs.target, ?_⟩⟩
  obtain ⟨c, hc, hok, hutxos, hdb⟩ := hs.views
  obtain ⟨c', hc', hf⟩ := h.views c hc hok
  refine ⟨c', hc', hf.ok, hf.utxos.trans hutxos, ?_⟩
  rcases hf.database with ⟨hsame, -⟩ | ⟨hcoins, -⟩
  · rw [hsame, hdb]
  · rw [hcoins, hutxos]

theorem keeps_of_role {cs cs' : Chainstate G} (hid : cs'.id = cs.id)
    (hbase : cs'.m_from_snapshot_blockhash = cs.m_from_snapshot_blockhash)
    (htarget : cs'.m_target_blockhash = cs.m_target_blockhash)
    (hviews : cs'.m_coins_views = cs.m_coins_views) : Keeps cs cs' :=
  ⟨hid, fun _ _ h => ⟨hbase.trans h.base, htarget.trans h.target, by rw [hviews]; exact h.views⟩⟩

section
variable {s s' : ChainstateManager G} {id : Nat} {base : Uint256} {S : Utxos}

section
variable (h : s.Registered id base S)
include h

theorem Registered.congr (hl : s'.m_chainstates = s.m_chainstates) :
    s'.Registered id base S := ⟨by rw [hl]; exact h.present, by rw [hl]; exact h.holds⟩

theorem Registered.keeps
    (hl : List.Forall₂ Keeps s.m_chainstates s'.m_chainstates) : s'.Registered id base S := by
  obtain ⟨hto, hfrom⟩ := First.exists_forall₂ hl
  constructor
  · obtain ⟨cs, hcs, hid⟩ := h.present
    obtain ⟨cs', hcs', hk⟩ := hto cs hcs
    exact ⟨cs', hcs', hk.1.trans hid⟩
  · intro cs' hcs' hid
    obtain ⟨cs, hcs, hk⟩ := hfrom cs' hcs'
    exact hk.2 _ _ (h.holds cs hcs (hk.1.symm.trans hid))

theorem Registered.setCurrent {cs cs' : Chainstate G}
    (hcur : s.currentChainstate = some cs) (hk : Keeps cs cs') :
    (s.setCurrent cs').Registered id base S :=
  h.keeps (First.forall₂_replace Keeps.refl hk hcur)

theorem Registered.remove {other : Nat} (hne : other ≠ id) :
    (s.removeChainstate other).Registered id base S := by
  constructor
  · obtain ⟨cs, hcs, hid⟩ := h.present
    refine ⟨cs, ?_, hid⟩
    show cs ∈ s.m_chainstates.eraseP _
    rw [mem_eraseP_of_neg]
    · exact hcs
    · rw [hid]
      simpa using hne.symm
  · intro cs hcs hid
    exact h.holds cs (mem_of_mem_eraseP hcs) hid

theorem Registered.resized (hr : Resized s s') : s'.Registered id base S :=
  h.keeps (hr.chainstates.imp fun _ _ => keeps_of_resized)

theorem Registered.populateCurrent : s.populateCurrent.Registered id base S := by
  unfold ChainstateManager.populateCurrent
  split
  · exact h
  · rename_i cs hcs
    have hrole := ChainstateCore.role_eq
      (ChainstateCore.populateBlockIndexCandidates_role cs.toChainstateCore s.m_block_index)
    exact h.setCurrent hcs (keeps_of_role rfl hrole.1 hrole.2.2.1 rfl)

end

theorem addChainstate_registered {new : Chainstate G} (hfresh : ∀ cs ∈ s.m_chainstates, cs.id < new.id)
    (hnew : Holds base S new) (h : s.addChainstate new = .ok s') :
    s'.Registered new.id base S ∧ s'.nextId = s.nextId := by
  unfold addChainstate at h
  split at h
  · cases h
  rename_i prev hprev
  split at h
  · cases h
  split at h
  · cases h
  dsimp only at h
  split at h
  · cases h
  split at h
  · cases h
  split at h
  · cases h
  split at h
  · cases h
  cases h
  refine ⟨⟨⟨_, mem_append_right _ (mem_singleton_self _), rfl⟩, fun cs hcs hid => ?_⟩, rfl⟩
  rcases mem_append.mp hcs with hcs | hcs
  · -- the chainstates before have smaller numbers
    have hone : SameId prev
        { prev with m_target_blockhash := new.m_from_snapshot_blockhash, m_mempool := none } := rfl
    have hids := First.forall₂_replace (R := SameId) (fun _ => rfl) hone hprev
    obtain ⟨old, hold, holdid⟩ := (First.exists_forall₂ hids).2 cs hcs
    have hlt := hfresh old hold
    rw [← holdid, hid] at hlt
    exact absurd hlt (Nat.lt_irrefl _)
  · rw [mem_singleton] at hcs
    subst hcs
    exact ⟨hnew.base, hnew.target, hnew.views⟩

theorem registerSnapshot_registered {env : ActivationEnv G} {new : Chainstate G} {old : Option Nat}
    {r : Uint256} (hfresh : ∀ cs ∈ s.m_chainstates, cs.id < new.id) (hold : ∀ i, old = some i → i < new.id)
    (hnew : Holds base S new) (h : s.registerSnapshot env new base old = .ok (.ok r, s')) :
    s'.Registered new.id base S := by
  obtain ⟨s₁, hadd, hrest⟩ := bind_eq_ok.mp h
  obtain ⟨s₂, hreb, hdone⟩ := bind_eq_ok.mp hrest
  cases hdone
  have hreg := (addChainstate_registered hfresh hnew hadd).1
  refine Registered.resized (Registered.populateCurrent ?_) (maybeRebalanceCaches_spec hreb)
  cases old with
  | none => exact hreg.congr rfl
  | some i => exact (hreg.remove (Nat.ne_of_lt (hold i rfl))).congr rfl

end

/-! ## an activation -/

theorem freshIds_of_forall₂ {s s' : ChainstateManager G} (h : s.FreshIds)
    (hl : List.Forall₂ SameId s.m_chainstates s'.m_chainstates) (hid : s'.nextId = s.nextId) :
    s'.FreshIds := by
  intro cs hcs
  obtain ⟨old, hold, holdid⟩ := (First.exists_forall₂ hl).2 cs hcs
  rw [hid, holdid]
  exact h old hold

theorem closeOldSnapshot_frame (s : ChainstateManager G) :
    List.Forall₂ SameId s.m_chainstates s.closeOldSnapshot.m_chainstates ∧
      s.closeOldSnapshot.nextId = s.nextId ∧ s.closeOldSnapshot.snapshotDir = s.snapshotDir ∧
      s.closeOldSnapshot.m_block_index.forest = s.m_block_index.forest := by
  unfold closeOldSnapshot
  split
  · exact ⟨List.forall₂_same.mpr fun _ _ => rfl, rfl, rfl, rfl⟩
  · rename_i old hold
    have hone : SameId old { old with m_coins_views := none } := rfl
    split
    · exact ⟨List.forall₂_same.mpr fun _ _ => rfl, rfl, rfl, rfl⟩
    · exact ⟨First.forall₂_replace (R := SameId) (fun _ => rfl) hone hold, rfl, rfl,
        BlockMap.modify_forest _ _ _⟩

section
variable {M : MuHash G} {codec : CoinCodec} {P : CChainParams}

/-- the set that is in the database when the load begins -/
def openedCoins (s : ChainstateManager G) : Utxos :=
  (s.openedDir false (s.currentChainstate.bind (·.m_from_snapshot_blockhash)).isSome).coinsDB.coins

variable {s s' : ChainstateManager G}

/-- the hash of a set for the sidecar of a snapshot of the block -/
def snapshotHashOf (M : MuHash G) (P : CChainParams) (m : BlockMap) (base_blockhash : Uint256)
    (S : Utxos) : Uint256 :=
  hashUTXOs M (if isMuhashAttestationActive (m.nHeight base_blockhash) P.consensus then .MUHASH
    else .HASH_SERIALIZED) S

/-- **the new chainstate holds the set that the file spells, and that set has the expected hash** -/
theorem activateSnapshot_registered {env : ActivationEnv G} {coins_file : Bytes}
    {metadata : SnapshotMetadata} {expected_utxo_hash : Option Uint256} {r : Uint256}
    (hfresh : s.FreshIds)
    (h : activateSnapshot M codec P env s coins_file metadata false false expected_utxo_hash =
      .ok (.ok r, s')) :
    ∃ coins, snapshotRecords codec metadata coins_file = some (coins, []) ∧
      s'.Registered s.nextId metadata.m_base_blockhash
        (spelledSet env.load.critical s.openedCoins coins) ∧
      ∀ e, expected_utxo_hash = some e → snapshotHashOf M P s.m_block_index metadata.m_base_blockhash
        (spelledSet env.load.critical s.openedCoins coins) = e := by
  unfold activateSnapshot at h
  split at h
  · cases h
  rename_i current hcurrent
  split at h
  · cases h
  obtain ⟨s₁, hresize, hpop⟩ := bind_eq_ok.mp h
  have hres := resizeCurrent_spec hresize
  obtain ⟨hclose, hcloseid, hclosedir, hforest⟩ := closeOldSnapshot_frame s₁
  have hfresh₁ : s₁.FreshIds :=
    freshIds_of_forall₂ hfresh (hres.chainstates.imp fun _ _ hr => hr.id) hres.nextId
  have hfresh₂ : s₁.closeOldSnapshot.FreshIds := freshIds_of_forall₂ hfresh₁ hclose hcloseid
  obtain ⟨s₂, new, populated, hl, hid, hadded, hpopulate, hviews, hreg, -⟩ := populateSnapshot_ok hpop
  obtain ⟨start, hstart, hload, hcontent, -, -⟩ := populate_cases M codec P _ _ hpopulate
  have hdir : s₁.closeOldSnapshot.openedDir false current.m_from_snapshot_blockhash.isSome =
      s.openedDir false current.m_from_snapshot_blockhash.isSome :=
    openedDir_congr (hclosedir.trans hres.snapshotDir) _ _
  rw [hdir] at hload hviews
  obtain ⟨coins, d, hread, -, hbase, -, hok, hutxos, hcoins⟩ := loadSnapshot_spelled hload
  have hopened : s.openedCoins =
      (s.openedDir false current.m_from_snapshot_blockhash.isSome).coinsDB.coins := by
    rw [openedCoins, hcurrent]
    rfl
  have hnewid : new.id = s.nextId := by rw [hadded.id, hcloseid, hres.nextId]
  rw [hopened]
  refine ⟨coins, hread, ?_, ?_⟩
  swap
  · rintro e rfl
    have hheight : start.nHeight = s.m_block_index.nHeight metadata.m_base_blockhash := by
      rw [← BlockMap.nHeight_of_get (checkStart_ok P _ hstart).1]
      exact congrFun (congrArg Forest.height
        (hforest.trans (congrArg (fun t : BlockTree => t.m_block_index.forest) hres.tree))) _
    rw [hbase, hheight] at hcontent
    rw [← checkContent_hash hcontent, hcoins]
    rfl
  rw [← hnewid]
  refine registerSnapshot_registered (fun cs hcs => ?_) (fun i hi => ?_) ⟨?_, ?_, _, hviews, ?_, ?_, ?_⟩ hreg
  · rw [hl] at hcs
    have := hfresh₂ cs hcs
    rw [hadded.id]
    exact this
  · split at hi
    · cases hi
      rw [hnewid]
      exact hfresh current (mem_of_find?_eq_some hcurrent)
    · cases hi
  · exact congrArg Prod.fst hadded.role
  · exact congrArg (fun p => p.2.2.1) hadded.role
  · rw [CoinsState.withCoinsTip_coinsTip hbase]
    exact hok
  · rw [CoinsState.withCoinsTip_coinsTip hbase]
    exact hutxos
  · show populated.coins_cache.toView.database.coins = _
    rw [toView_database hbase]
    exact hcoins

theorem Registered.handOver {id : Nat} {base : Uint256} {S : Utxos}
    (h : s.Registered id base S) {mempool : Option CTxMemPool} (hh : s.handOver mempool = .ok s') :
    s'.Registered id base S := by
  unfold ChainstateManager.handOver at hh
  split at hh
  · cases hh
    exact h
  split at hh
  · cases hh
  rename_i curr hcurr
  split at hh
  · cases hh
  split at hh
  · cases hh
  · cases hh
    exact h.setCurrent hcurr (keeps_of_role rfl rfl rfl rfl)

theorem Registered.discardHistorical {id : Nat} {base : Uint256} {S : Utxos}
    (h : s.Registered id base S) {removed : Bool} (hd : s.discardHistorical removed = .ok s') :
    s'.Registered id base S := by
  unfold ChainstateManager.discardHistorical at hd
  split at hd
  · cases hd
    exact h
  rename_i historical hhist
  -- a chainstate with a target is not the one of the snapshot
  have htarget : ∀ base S, ¬ Holds base S historical := by
    intro base S hs
    have hp := find?_some hhist
    simp [Chainstate.isHistorical, hs.target] at hp
  have hne : historical.id ≠ id := fun he =>
    htarget _ _ (h.holds historical (mem_of_find?_eq_some hhist) he)
  have hclosed : Keeps historical { historical with m_coins_views := none } :=
    ⟨rfl, fun base S hs => absurd hs (htarget base S)⟩
  have hset : (s.setHistorical { historical with m_coins_views := none }).Registered id base S :=
    h.keeps (First.forall₂_replace Keeps.refl hclosed hhist)
  have hdelete : ∀ ok s₁, (s.setHistorical { historical with m_coins_views := none }).deleteChainstate
      historical.id removed none = .ok (ok, s₁) → s₁.Registered id base S := by
    intro ok s₁ hdel
    unfold deleteChainstate at hdel
    split at hdel
    · cases hdel
    dsimp only at hdel
    split at hdel
    · cases hdel
    split at hdel
    · cases hdel
      exact hset.congr rfl
    · obtain ⟨s₂, hhand, hdone⟩ := bind_eq_ok.mp hdel
      cases hdone
      refine Registered.handOver ?_ hhand
      exact (hset.remove hne).congr rfl
  split at hd
  · cases hd
  · rename_i s₁ hdel
    cases hd
    exact hdelete _ _ hdel
  · rename_i s₁ hdel
    split at hd
    · cases hd
    · rename_i cs hcs
      cases hd
      exact (hdelete _ _ hdel).setCurrent hcs (keeps_of_role rfl rfl rfl rfl)

theorem openedCoins_sameRoles (h : SameRoles s s') (hdir : s'.snapshotDir = s.snapshotDir) :
    s'.openedCoins = s.openedCoins := by
  have hbase : (s'.currentChainstate.bind (·.m_from_snapshot_blockhash)).isSome =
      (s.currentChainstate.bind (·.m_from_snapshot_blockhash)).isSome := by
    have hcurrent : ∀ a b : Chainstate G, Chainstate.SameRole a b → b.isCurrent = a.isCurrent := by
      intro a b hab
      have hrole := ChainstateCore.role_eq hab.role
      rw [Chainstate.isCurrent, Chainstate.isCurrent, hrole.2.1, hrole.2.2.1]
    obtain ⟨hn, hn'⟩ | ⟨a, b, ha, hb, hab⟩ := First.find?_forall₂ hcurrent h.chainstates
    · rw [currentChainstate, currentChainstate, hn, hn']
    · rw [currentChainstate, currentChainstate, ha, hb, Option.bind_some, Option.bind_some,
        (ChainstateCore.role_eq hab.role).1]
  rw [openedCoins, openedCoins, hbase, openedDir_congr hdir]

theorem unstick_snapshotDir (s : ChainstateManager G) (base_blockhash : Uint256) :
    (s.unstick base_blockhash).snapshotDir = s.snapshotDir := by
  unfold unstick currentSelection
  split
  · rfl
  · split <;> rfl

theorem unstick_forest (s : ChainstateManager G) (base_blockhash : Uint256) :
    (s.unstick base_blockhash).m_block_index.forest = s.m_block_index.forest := by
  unfold unstick
  split
  · rfl
  · unfold currentSelection
    split
    · rfl
    · exact BlockMap.update_forest _ _

theorem activated_spelled {snapshot : AutomaticSnapshot G} (hfresh : s.FreshIds)
    (h : s.maybeActivateAutomaticSnapshot M codec P snapshot = .ok (true, s')) :
    ∃ coins, snapshotRecords codec snapshot.metadata snapshot.coins_file = some (coins, []) ∧
      s'.Registered s.nextId snapshot.metadata.m_base_blockhash
        (spelledSet snapshot.activation.load.critical s.openedCoins coins) ∧
      ∀ e, snapshot.expected_hash = some e →
        snapshotHashOf M P s.m_block_index snapshot.metadata.m_base_blockhash
          (spelledSet snapshot.activation.load.critical s.openedCoins coins) = e := by
  unfold maybeActivateAutomaticSnapshot at h
  split at h
  · cases h
  split at h
  · cases h
  rename_i expected_hash hexpected
  dsimp only at h
  have hroles : SameRoles s (if snapshot.stuck_on_invalid_chain = true
      then s.unstick snapshot.metadata.m_base_blockhash else s) := by
    split
    · exact unstick_sameRoles s _
    · exact SameRoles.refl s
  have hdir : (if snapshot.stuck_on_invalid_chain = true
      then s.unstick snapshot.metadata.m_base_blockhash else s).snapshotDir = s.snapshotDir := by
    split
    · exact unstick_snapshotDir s _
    · rfl
  have hfresh₁ := freshIds_of_forall₂ hfresh (hroles.chainstates.imp fun _ _ hr => hr.id) hroles.nextId
  split at h
  · cases h
  · cases h
  · rename_i r s₁ hact
    obtain ⟨s₂, hdiscard, hdone⟩ := bind_eq_ok.mp h
    cases hdone
    obtain ⟨coins, hread, hreg, hhash⟩ := activateSnapshot_registered hfresh₁ hact
    rw [openedCoins_sameRoles hroles hdir, hroles.nextId] at hreg
    refine ⟨coins, hread, hreg.discardHistorical hdiscard, fun e he => ?_⟩
    have hforest : (if snapshot.stuck_on_invalid_chain = true
        then s.unstick snapshot.metadata.m_base_blockhash else s).m_block_index.forest =
          s.m_block_index.forest := by
      split
      · exact unstick_forest s _
      · rfl
    have hheight := congrFun (congrArg Forest.height hforest) snapshot.metadata.m_base_blockhash
    have hgot := hhash e (hexpected.symm.trans he)
    rw [openedCoins_sameRoles hroles hdir, snapshotHashOf] at hgot
    rw [← hgot]
    exact congrArg (fun n => hashUTXOs M (if isMuhashAttestationActive n P.consensus then .MUHASH
      else .HASH_SERIALIZED) _) hheight.symm

end

end

end ChainstateManager

end ElektronNet
