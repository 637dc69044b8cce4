import ElektronNet.Reconnect
import ElektronNet.Crash

/-!
# VerifyDB

`CVerifyDB::VerifyDB` of `validation.cpp`: the last blocks of the chain are read, checked and taken
back on a cache over `coinsview`, and at level 4 connected again on that cache.

* `verifyBack`, `verifyForward`   the two loops
* `verifyBack_spec`     over intact data the first one takes every block back
* `verifyDB_level4_iff`   what then decides is whether every block attests the coins of the tip:
                        `ValidateUTXOCheckpoint` looks at what lies under the cache, which stands at
                        the tip and not at the parent of the block

`coinsview` is `CoinsDB` at a start and `CoinsTip` for `verifychain`.  Left out are the progress
reports and the count of transactions, which are only shown.
-/

namespace ElektronNet

open List Outcome CCoinsViewCache

/-! ## the code -/

inductive VerifyDBResult where
  | SUCCESS
  | CORRUPTED_BLOCK_DB
  | INTERRUPTED
  | SKIPPED_L3_CHECKS
  | SKIPPED_MISSING_BLOCKS
deriving DecidableEq

structure VerifyEnv where
  nCheckLevel : Int
  nCheckDepth : Int
  pruneMode : Bool
  /-- `m_from_snapshot_blockhash` is set -/
  is_snapshot_cs : Bool
  /-- the coins in memory fit when the block is to be taken back -/
  cacheFits : Uint256 → Bool
  /-- `m_interrupt` is set after the block, in the first and in the second loop -/
  interruptBack : Uint256 → Bool
  interruptForward : Uint256 → Bool
  undoWritable : Bool

def verifyLevel (nCheckLevel : Int) : Int := max 0 (min 4 nCheckLevel)

def verifyDepth (nCheckDepth : Int) (height : Nat) : Int :=
  if nCheckDepth ≤ 0 ∨ nCheckDepth > height then height else nCheckDepth

section
variable {G : Type} [CommGroup G] (M : MuHash G) (H : Hashes) (rules : BlockRules) (m : BlockMap)
  (blocks : BlockData) (undo : UndoStore) (env : VerifyEnv) (height : Nat)

def blockPlace (b : Uint256) : BlockPlace := ⟨b, m.pprev b, m.nHeight b⟩

/-- the first loop ends at this block; the flag says `skipped_no_block_data` -/
def verifyStop (b : Uint256) : Option Bool :=
  if m.pprev b = none then some false
  else if (m.nHeight b : Int) ≤ height - verifyDepth env.nCheckDepth height then some false
  else if (env.pruneMode || env.is_snapshot_cs) &&
      !((m.lookupBlockIndex b).elim false (·.nStatus.haveData)) then some true
  else none

/-- levels 0, 1 and 2; `none`: `CORRUPTED_BLOCK_DB` -/
def verifyRead (b : Uint256) : Option CBlock :=
  match blocks b with
  | none => none
  | some block =>
    if 1 ≤ verifyLevel env.nCheckLevel ∧ (checkBlock H rules block true true).isOk = false then none
    else if 2 ≤ verifyLevel env.nCheckLevel ∧
        (m.lookupBlockIndex b).elim false (·.nStatus.haveUndo) = true ∧ undo.get b = none then none
    else some block

structure VerifyState (G : Type) where
  chainstate : CoinsState G
  /-- the scratch cache -/
  coins : CCoinsViewCache
  pindexFailure : Option Uint256
  skipped_no_block_data : Bool
  skipped_l3_checks : Bool

/-- level 3; `none`: `CORRUPTED_BLOCK_DB` -/
def verifyDisconnect (b : Uint256) (block : CBlock) (st : VerifyState G) :
    Except Fault (Option (VerifyState G)) :=
  if ¬ 3 ≤ verifyLevel env.nCheckLevel then pure (some st)
  else if env.cacheFits b = false then pure (some { st with skipped_l3_checks := true })
  else if st.coins.getBestBlock ≠ b then
    throw (.assertion "coins.GetBestBlock() == pindex->GetBlockHash()")
  else do
    let out ← disconnectBlock M H st.chainstate undo block (blockPlace m b) st.coins.loadBestBlock
      false
    let st := { st with chainstate := out.coins, coins := out.view }
    match out.result with
    | .DISCONNECT_FAILED => pure none
    | .DISCONNECT_UNCLEAN => pure (some { st with pindexFailure := some b })
    | .DISCONNECT_OK => pure (some st)

def verifyBack : List Uint256 → VerifyState G →
    Except Fault (Except VerifyDBResult (Uint256 × VerifyState G))
  | [], _ => throw (.assertion "pindex")
  | b :: path, st =>
    match verifyStop m env height b with
    | some skipped => pure (.ok (b, { st with skipped_no_block_data := skipped }))
    | none =>
      match verifyRead H rules m blocks undo env b with
      | none => pure (.error .CORRUPTED_BLOCK_DB)
      | some block => do
        let r ← verifyDisconnect M H m undo env b block st
        match r with
        | none => pure (.error .CORRUPTED_BLOCK_DB)
        | some st =>
          if env.interruptBack b then pure (.error .INTERRUPTED) else verifyBack path st

def verifyForward : List Uint256 → UndoStore → CoinsState G → CCoinsViewCache →
    Except Fault (Except VerifyDBResult (CoinsState G × CCoinsViewCache))
  | [], _, chainstate, coins => pure (.ok (chainstate, coins))
  | b :: path, undo, chainstate, coins =>
    match blocks b with
    | none => pure (.error .CORRUPTED_BLOCK_DB)
    | some block => do
      let out ← connectBlock M H rules chainstate undo m block (blockPlace m b) coins
        env.undoWritable false false
      if out.verdict ≠ .valid then pure (.error .CORRUPTED_BLOCK_DB)
      else if env.interruptForward b then pure (.error .INTERRUPTED)
      else verifyForward path out.undo out.coins out.view

def verifyEnd (tip pindex : Uint256) (st : VerifyState G) : Except Fault VerifyDBResult :=
  let result := if st.skipped_l3_checks then .SKIPPED_L3_CHECKS
    else if st.skipped_no_block_data then .SKIPPED_MISSING_BLOCKS else .SUCCESS
  if st.pindexFailure.isSome then pure .CORRUPTED_BLOCK_DB
  else if 4 ≤ verifyLevel env.nCheckLevel ∧ st.skipped_l3_checks = false then do
    let r ← verifyForward M H rules m blocks env
      ((m.forest.path tip).takeWhile fun b => decide (b ≠ pindex)).reverse undo st.chainstate st.coins
    match r with
    | .error e => pure e
    | .ok _ => pure result
  else pure result

def verifyDB (s : CoinsState G) (tip : Option Uint256) (coinsview : CCoinsView) :
    Except Fault VerifyDBResult :=
  match tip with
  | none => pure .SUCCESS
  | some tip =>
    if m.pprev tip = none then pure .SUCCESS
    else do
      let r ← verifyBack M H rules m blocks undo env (m.nHeight tip) (m.forest.path tip)
        ⟨s, CCoinsViewCache.new coinsview, none, false, false⟩
      match r with
      | .error e => pure e
      | .ok (pindex, st) => verifyEnd M H rules m blocks undo env tip pindex st

/-! ## intact data -/

/-- the blocks that the first loop goes through from `b` on -/
def verified (b : Uint256) : List Uint256 :=
  (m.forest.path b).takeWhile fun b => decide (verifyStop m env height b = none)

/-- the block was connected by `ConnectTip` to the set of its parent, and the block, the undo record and
the set it left are still there -/
structure KeptBlock (S : Uint256 → Utxos) (b p : Uint256) (block : CBlock) : Prop where
  parent : m.pprev b = some p
  named : b.isNull = false ∧ p.isNull = false
  read : blocks b = some block
  undone : undo.get b = some (blockUndo H (m.nHeight b) block (S p))
  set : S b = applyTxs H (m.nHeight b) block.vtx (S p)
  regular : Regular (S p)
  ordinary : b ≠ rules.hashGenesisBlock
  bip30 : enforceBIP30 rules m (blockPlace m b) p = true
  connected : ∃ (conn : ConnectEnv) (index : BlockMap) (s s' : ChainCoins G),
    s.coins.coinsTip.Ok ∧ s.coins.coinsTip.utxos = S p ∧
      enforceBIP30 rules index (blockPlace m b) p = true ∧
      connectTip M H rules conn index s (blockPlace m b) block = .ok (true, s')

/-- it attests what it makes of the coins and the accumulator of the tip -/
def AttestsTip (s : CoinsState G) (coinsview : CCoinsView) (b : Uint256) : Prop :=
  ∃ block, blocks b = some block ∧
    AttestsOver M H rules.params (fun h => (m.lookupBlockIndex h).isSome) (s.utxoMuHash M) coinsview
      block (m.nHeight b)

end

section
variable {G : Type} [CommGroup G] {M : MuHash G} {H : Hashes} {rules : BlockRules} {m : BlockMap}
  {blocks : BlockData} {undo : UndoStore} {env : VerifyEnv} {height : Nat}
  {S : Uint256 → Utxos} {b p : Uint256} {block : CBlock}

section
variable (h : KeptBlock M H rules m blocks undo S b p block)
include h

theorem KeptBlock.accepted : Accepted H rules (blockPlace m b) p block (S p) := by
  obtain ⟨conn, index, s, s', hok, hut, hbip, hconnect⟩ := h.connected
  have := accepted_of_connectTip hbip hok h.parent h.ordinary hconnect
  rwa [hut] at this

theorem KeptBlock.stored : Stored (S p) := by
  obtain ⟨conn, index, s, s', hok, hut, -, -⟩ := h.connected
  refine ⟨h.regular, fun o coin hcoin => ?_⟩
  rw [← hut, utxos_get] at hcoin
  exact peekCoin_unspent hcoin

theorem KeptBlock.nHeight : m.nHeight b ≠ 0 := by
  have : m.nHeight b = m.nHeight p + 1 := m.forest.height_parent b p h.parent
  omega

theorem KeptBlock.verifyRead : verifyRead H rules m blocks undo env b = some block := by
  have hok : (checkBlock H rules block true true).isOk = true := by
    rw [h.accepted.checked]
    rfl
  rw [ElektronNet.verifyRead, h.read]
  simp [hok, h.undone]

/-- the scratch cache shows the set of the block -/
structure Scratch (S : Uint256 → Utxos) (coinsview : CCoinsView) (b : Uint256)
    (c : CCoinsViewCache) : Prop where
  ok : c.Ok
  utxos : c.utxos = S b
  best : c.getBestBlock = b
  base : SameStack coinsview c.base

variable {coinsview : CCoinsView} {path : List Uint256} {c : CCoinsViewCache}

theorem KeptBlock.verifyDisconnect {st : VerifyState G} (hlevel : 3 ≤ verifyLevel env.nCheckLevel)
    (hfits : env.cacheFits b = true) (hst : Scratch S coinsview b st.coins) :
    ∃ c, verifyDisconnect M H m undo env b block st = .ok (some { st with coins := c }) ∧
      Scratch S coinsview p c := by
  obtain ⟨hok, hut, -⟩ := ElektronNet.loadBestBlock_spec hst.ok
  obtain ⟨c, hc, hcok, hcut, hchash, hcbase⟩ := disconnectBlock_clean M H hok
    (s := st.chainstate) h.nHeight h.parent h.stored h.accepted.applies h.undone
    (by rw [hut, hst.utxos]; exact h.set)
  refine ⟨c, ?_, hcok, hcut, ?_, ?_⟩
  · unfold ElektronNet.verifyDisconnect
    rw [if_neg (not_not.mpr hlevel), hfits, if_neg (not_not.mpr hst.best)]
    exact bind_eq_ok.mpr ⟨_, hc, rfl⟩
  · rw [CoinsState.getBestBlock_of_block_hash (hchash ▸ h.named.2), hchash]
  · exact (hst.base.trans (loadBestBlock_base st.coins)).trans hcbase

end

theorem verified_stop {skipped : Bool}
    (h : verifyStop m env height b = some skipped) : verified m env height b = [] := by
  obtain ⟨rest, hrest⟩ := m.forest.path_cons b
  rw [verified, hrest, takeWhile_cons_of_neg (by simp [h])]

theorem verified_child (hp : m.pprev b = some p) (h : verifyStop m env height b = none) :
    verified m env height b = b :: verified m env height p := by
  rw [verified, m.forest.path_parent hp, takeWhile_cons_of_pos (by simp [h])]
  rfl

theorem verifyBack_spec (st : VerifyState G)
    (hlevel : 3 ≤ verifyLevel env.nCheckLevel) (hfits : ∀ b, env.cacheFits b = true)
    (hrun : ∀ b, env.interruptBack b = false)
    (hkept : ∀ x ∈ verified m env height b, ∃ p block, KeptBlock M H rules m blocks undo S x p block)
    (hst : Scratch S coinsview b st.coins) :
    ∃ pindex c skipped, verifyBack M H rules m blocks undo env height (m.forest.path b) st =
        .ok (.ok (pindex, { st with coins := c, skipped_no_block_data := skipped })) ∧
      verifyStop m env height pindex = some skipped ∧ Scratch S coinsview pindex c ∧
      ∃ rest, m.forest.path b = verified m env height b ++ pindex :: rest := by
  induction b using m.forest.path_induction generalizing st with
  | root b hp =>
    have hroot : m.pprev b = none := hp
    have hstop : verifyStop m env height b = some false := by
      rw [verifyStop, if_pos hroot]
    have hpath : m.forest.path b = [b] := m.forest.path_root hp
    refine ⟨b, st.coins, false, ?_, hstop, hst, [], ?_⟩
    · rw [hpath, verifyBack, hstop]
      rfl
    · rw [verified_stop hstop, hpath]
      rfl
  | child b p hp ih =>
    have hpath := m.forest.path_parent hp
    cases hstop : verifyStop m env height b with
    | some skipped =>
      refine ⟨b, st.coins, skipped, ?_, hstop, hst, m.forest.path p, ?_⟩
      · rw [hpath, verifyBack, hstop]
        rfl
      · rw [verified_stop hstop, hpath]
        rfl
    | none =>
      have hverified := verified_child hp hstop
      obtain ⟨p', block, hb⟩ := hkept b (by rw [hverified]; exact mem_cons_self ..)
      obtain rfl : p = p' := Option.some.inj (Eq.trans (Eq.symm hp) hb.parent)
      obtain ⟨c, hc, hscratch⟩ := hb.verifyDisconnect hlevel (hfits b) hst
      have hst₁ : Scratch S coinsview p { st with coins := c }.coins := hscratch
      obtain ⟨pindex, c', skipped, hback, hstop', hst', rest, hrest⟩ :=
        ih _ (fun x hx => hkept x (by rw [hverified]; exact mem_cons_of_mem _ hx)) hst₁
      refine ⟨pindex, c', skipped, ?_, hstop', hst', rest, ?_⟩
      · rw [hpath, verifyBack, hstop, hb.verifyRead]
        refine bind_eq_ok.mpr ⟨_, hc, ?_⟩
        simp only [hrun, Bool.false_eq_true, if_false]
        exact hback
      · rw [hverified, hpath, hrest]
        rfl

/-! ## the second loop -/

theorem utxoMuHash_ensure (s : CoinsState G) :
    (s.ensureUTXOMuHashLoaded M).utxoMuHash M = s.utxoMuHash M := by
  rw [CoinsState.utxoMuHash,
    ensureUTXOMuHashLoaded_of_loaded (CoinsState.ensureUTXOMuHashLoaded_loaded M s)]
  rfl

theorem verifyForward_valid {s : CoinsState G} {out : Connected G} (hread : blocks b = some block)
    (hrun : env.interruptForward b = false)
    (h : connectBlock M H rules s undo m block (blockPlace m b) c env.undoWritable false false =
      .ok out) (hvalid : out.verdict = .valid) :
    verifyForward M H rules m blocks env (b :: path) undo s c =
      verifyForward M H rules m blocks env path out.undo out.coins out.view := by
  rw [verifyForward, hread]
  simp only [h, Bind.bind, Except.bind, hvalid, hrun, ne_eq, not_true, if_false, Bool.false_eq_true]

theorem verifyForward_error {s : CoinsState G} {e : VerifyDBResult}
    (h : verifyForward M H rules m blocks env path undo s c = .ok (.error e)) :
    e = .CORRUPTED_BLOCK_DB ∨ e = .INTERRUPTED := by
  induction path generalizing undo s c with
  | nil => cases h
  | cons b path ih =>
    rw [verifyForward] at h
    split at h
    · cases h
      exact .inl rfl
    · obtain ⟨out, -, h⟩ := bind_eq_ok.mp h
      split at h
      · cases h
        exact .inl rfl
      · split at h
        · cases h
          exact .inr rfl
        · exact ih h

/-- **the second loop comes to its end exactly if every block attests the tip** -/
theorem verifyForward_iff {s₀ : CoinsState G} (s : CoinsState G) {a : Uint256}
    (hrun : ∀ b, env.interruptForward b = false)
    (hchain : (a :: path).IsChain fun x y => m.pprev y = some x)
    (hkept : ∀ x ∈ path, ∃ p block, KeptBlock M H rules m blocks undo S x p block)
    (hs : s.utxoMuHash M = s₀.utxoMuHash M) (hst : Scratch S coinsview a c) :
    (∃ r, verifyForward M H rules m blocks env path undo s c = .ok (.ok r)) ↔
      ∀ x ∈ path, AttestsTip M H rules m blocks s₀ coinsview x := by
  induction path generalizing a s c with
  | nil => exact ⟨fun _ x hx => absurd hx (by simp), fun _ => ⟨_, rfl⟩⟩
  | cons b path ih =>
    obtain ⟨hp, hchain⟩ := isChain_cons_cons.mp hchain
    obtain ⟨p, block, hb⟩ := hkept b mem_cons_self
    obtain rfl : a = p := Option.some.inj (hp.symm.trans hb.parent)
    have hundo : (undo.get (blockPlace m b).hash).isSome = true :=
      Option.isSome_iff_exists.mpr ⟨_, hb.undone⟩
    -- the rest of the loop, once the block is connected
    have hrest : AttestsTip M H rules m blocks s₀ coinsview b → ∃ s₁ c₁,
        verifyForward M H rules m blocks env (b :: path) undo s c =
          verifyForward M H rules m blocks env path undo s₁ c₁ ∧
        ((∃ r, verifyForward M H rules m blocks env path undo s₁ c₁ = .ok (.ok r)) ↔
          ∀ x ∈ path, AttestsTip M H rules m blocks s₀ coinsview x) := by
      rintro ⟨block', hread, hattest⟩
      obtain rfl : block = block' := Option.some.inj (hb.read.symm.trans hread)
      rw [← hs] at hattest
      obtain ⟨c₁, hc₁, hok₁, hut₁, hhash₁, hbase₁⟩ := connectBlock_again
        hb.accepted hb.bip30 hst.ok hst.utxos hst.best hundo env.undoWritable hb.nHeight
        (hattest.same hst.base.toSameView)
      have hst₁ : Scratch S coinsview b c₁ := by
        refine ⟨hok₁, hut₁.trans hb.set.symm, ?_, hst.base.trans hbase₁⟩
        rw [CoinsState.getBestBlock_of_block_hash (by rw [hhash₁]; exact hb.named.1), hhash₁]
        rfl
      refine ⟨_, c₁, ?_, ih _ hchain (fun x hx => hkept x (mem_cons_of_mem _ hx))
        ((utxoMuHash_ensure s).trans hs) hst₁⟩
      exact verifyForward_valid hb.read (hrun b) hc₁ rfl
    constructor
    · rintro ⟨r, hr⟩
      have hattest : AttestsTip M H rules m blocks s₀ coinsview b := by
        rw [verifyForward, hb.read] at hr
        obtain ⟨out, hout, hr⟩ := bind_eq_ok.mp hr
        split at hr
        · cases hr
        · rename_i hvalid
          have := attestsOver_of_connectBlock hb.accepted hb.bip30 hst.ok hst.utxos hst.best
            hundo hb.nHeight hout (not_not.mp hvalid)
          rw [hs] at this
          exact ⟨block, hb.read, this.same hst.base.toSameView.symm⟩
      obtain ⟨s₁, c₁, heq, hiff⟩ := hrest hattest
      rw [heq] at hr
      intro x hx
      rcases mem_cons.mp hx with rfl | hx
      · exact hattest
      · exact hiff.mp ⟨r, hr⟩ x hx
    · intro hall
      obtain ⟨s₁, c₁, heq, hiff⟩ := hrest (hall b mem_cons_self)
      rw [heq]
      exact hiff.mpr fun x hx => hall x (mem_cons_of_mem _ hx)

theorem verified_forward {b pindex : Uint256} {skipped : Bool} {rest : List Uint256}
    (hstop : verifyStop m env height pindex = some skipped)
    (hpath : m.forest.path b = verified m env height b ++ pindex :: rest) :
    ((m.forest.path b).takeWhile fun x => decide (x ≠ pindex)) = verified m env height b ∧
      (pindex :: (verified m env height b).reverse).IsChain fun x y => m.pprev y = some x := by
  constructor
  · have hne : ∀ x ∈ verified m env height b, decide (x ≠ pindex) = true := by
      intro x hx
      have hx' : verifyStop m env height x = none := by
        simpa using all_takeWhile (p := fun b => decide (verifyStop m env height b = none))
          (l := m.forest.path b) |> all_eq_true.mp |> fun h => h x hx
      simp only [decide_eq_true_eq]
      rintro rfl
      rw [hstop] at hx'
      cases hx'
    rw [hpath, takeWhile_append_of_pos hne, takeWhile_cons_of_neg (by simp),
      append_nil]
  · have hchain := m.forest.path_isChain b
    rw [hpath, append_cons] at hchain
    have hpre := hchain.left_of_append
    rw [← reverse_reverse (_ ++ [pindex]), isChain_reverse, reverse_append] at hpre
    exact hpre

/-- **at level 4 `VerifyDB` accepts the blocks that `ConnectTip` has connected exactly if each of them
attests what it makes of the coins and the accumulator of the tip** -/
theorem verifyDB_level4_iff (M : MuHash G) (H : Hashes) (rules : BlockRules) (m : BlockMap)
    (blocks : BlockData) (undo : UndoStore) (env : VerifyEnv)
    (S : Uint256 → Utxos) (s : CoinsState G) (tip : Uint256) (coinsview : CCoinsView)
    (hlevel : 4 ≤ env.nCheckLevel) (hfits : ∀ b, env.cacheFits b = true)
    (hback : ∀ b, env.interruptBack b = false) (hforward : ∀ b, env.interruptForward b = false)
    (hview : coinsview.Ok) (hset : coinsview.fetchEffectiveUTXOs = S tip)
    (hbest : coinsview.getBestBlock = tip) (hkept : ∀ b ∈ verified m env (m.nHeight tip) tip,
      ∃ p block, KeptBlock M H rules m blocks undo S b p block) :
    (verifyDB M H rules m blocks undo env s (some tip) coinsview = .ok .SUCCESS ∨
      verifyDB M H rules m blocks undo env s (some tip) coinsview = .ok .SKIPPED_MISSING_BLOCKS ∧
        ∃ b ∈ m.forest.path tip, verifyStop m env (m.nHeight tip) b = some true) ↔
      ∀ b ∈ verified m env (m.nHeight tip) tip, AttestsTip M H rules m blocks s coinsview b := by
  have hlevel4 : verifyLevel env.nCheckLevel = 4 := by
    rw [verifyLevel]
    omega
  have hscratch : Scratch S coinsview tip (CCoinsViewCache.new coinsview) :=
    ⟨new_ok hview, (new_utxos coinsview).trans hset, hbest, SameStack.refl _⟩
  by_cases hroot : m.pprev tip = none
  · -- the genesis block alone
    have hstop : verifyStop m env (m.nHeight tip) tip = some false := by
      rw [verifyStop, if_pos hroot]
    rw [verifyDB, if_pos hroot, verified_stop hstop]
    exact ⟨fun _ b hb => absurd hb (by simp), fun _ => .inl rfl⟩
  · obtain ⟨pindex, c, skipped, hloop, hstop, hst, rest, hpath⟩ := verifyBack_spec
      ⟨s, CCoinsViewCache.new coinsview, none, false, false⟩ (by omega) hfits hback hkept hscratch
    obtain ⟨hpre, hchain⟩ := verified_forward hstop hpath
    have hkept' : ∀ x ∈ (verified m env (m.nHeight tip) tip).reverse,
        ∃ p block, KeptBlock M H rules m blocks undo S x p block :=
      fun x hx => hkept x (mem_reverse.mp hx)
    have hiff := verifyForward_iff s hforward hchain hkept' rfl hst
    simp only [mem_reverse] at hiff
    rw [← hiff]
    have heq : verifyDB M H rules m blocks undo env s (some tip) coinsview =
        verifyEnd M H rules m blocks undo env tip pindex ⟨s, c, none, skipped, false⟩ := by
      rw [verifyDB, if_neg hroot, hloop]
      rfl
    rw [heq, verifyEnd, hlevel4, hpre]
    constructor
    · intro h
      generalize hr : verifyForward M H rules m blocks env
        (verified m env (m.nHeight tip) tip).reverse undo s c = r at h ⊢
      cases r with
      | error f => rcases h with h | ⟨h, -⟩ <;> cases h
      | ok r =>
        cases r with
        | ok r => exact ⟨r, rfl⟩
        | error e =>
          rcases verifyForward_error hr with rfl | rfl <;> rcases h with h | ⟨h, -⟩ <;> cases h
    · rintro ⟨r, hr⟩
      rw [hr]
      cases skipped with
      | false => exact .inl rfl
      | true =>
        refine .inr ⟨rfl, pindex, ?_, hstop⟩
        rw [hpath]
        simp

end

/-! ## one block -/

def sampleVerify : VerifyEnv where
  nCheckLevel := 4
  nCheckDepth := 1
  pruneMode := false
  is_snapshot_cs := false
  cacheFits _ := true
  interruptBack _ := false
  interruptForward _ := false
  undoWritable := true

def sampleBarren : CBlock :=
  { sampleMined 1 with
    vtx := [{ sampleTx COutPoint.null 5 1 with vout := [attestationOutput 1 (Uint256.ofByte 0)] }] }

def sampleBarrenBlocks (h : Uint256) : Option CBlock :=
  if h = sampleId 1 then some sampleBarren else none

/-- hash functions under which a coinbase and the coinbase without its attestation differ -/
def sampleTxids : Hashes :=
  { sampleHashes with
    txid := fun tx => Uint256.ofByte (UInt8.ofNat (16 * tx.vout.length + tx.nLockTime)) }

/-- a block without a coin leaves the set of its parent, and level 4 accepts it -/
theorem verifyDB_level4_iff_barren :
    ∃ s : ChainCoins (Multiplicative ℤ),
      connectTip sampleMuHash sampleTxids sampleRules sampleConnectEnv sampleFork
        (sampleAtGenesis none) (samplePlace 1) sampleBarren = .ok (true, s) ∧
      verifyDB sampleMuHash sampleTxids sampleRules sampleFork sampleBarrenBlocks s.undo sampleVerify
        s.coins (some (sampleId 1)) s.coins.coinsTip.toView = .ok .SUCCESS := by
  refine Exists.imp (fun s hs => ⟨hs, ?_⟩) ⟨_, rfl⟩
  have hconnected := hs
  obtain rfl := (Prod.mk.inj (Except.ok.inj hs)).2
  have hverified : verified sampleFork sampleVerify (sampleFork.nHeight (sampleId 1)) (sampleId 1) =
      [sampleId 1] := rfl
  refine ((verifyDB_level4_iff sampleMuHash sampleTxids sampleRules sampleFork
    sampleBarrenBlocks _ sampleVerify (fun _ => FMap.empty) _ (sampleId 1) _ (by decide)
    (fun _ => rfl) (fun _ => rfl) (fun _ => rfl) ?_ rfl rfl ?_).mpr ?_).resolve_right ?_
  · exact ⟨trivial, fun o e he => (by cases he)⟩
  · rw [hverified]
    intro b hb
    obtain rfl := mem_singleton.mp hb
    exact ⟨sampleId 100, sampleBarren,
      { parent := rfl
        named := ⟨rfl, rfl⟩
        read := rfl
        undone := rfl
        set := rfl
        regular := regular_empty
        ordinary := by decide
        bip30 := rfl
        connected := ⟨sampleConnectEnv, sampleFork, sampleAtGenesis none, _,
          ⟨trivial, fun o e he => (by cases he)⟩, rfl, rfl, hconnected⟩ }⟩
  · rw [hverified]
    intro b hb
    obtain rfl := mem_singleton.mp hb
    exact ⟨sampleBarren, rfl, _, [], Uint256.ofByte 0, _, rfl, rfl, rfl⟩
  · have hpath : ∀ b ∈ sampleFork.forest.path (sampleId 1),
        verifyStop sampleFork sampleVerify (sampleFork.nHeight (sampleId 1)) b ≠ some true := by
      decide
    rintro ⟨-, b, hmem, hb⟩
    exact hpath b hmem hb

/-- **level 4 rejects a chain that was just validated**: block 1 pays its coinbase, and connecting it
again over the coins of the tip counts that coin twice -/
theorem verifyDB_rejects_connected :
    ∃ s : ChainCoins (Multiplicative ℤ),
      connectTip sampleMuHash sampleTxids sampleRules sampleConnectEnv sampleFork
        (sampleAtGenesis none) (samplePlace 1) (sampleMined 1) = .ok (true, s) ∧
      verifyDB sampleMuHash sampleTxids sampleRules sampleFork sampleBlocks s.undo sampleVerify
        s.coins (some (sampleId 1)) s.coins.coinsTip.toView = .ok .CORRUPTED_BLOCK_DB :=
  ⟨_, rfl, rfl⟩

end ElektronNet
