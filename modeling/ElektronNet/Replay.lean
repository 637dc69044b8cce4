import ElektronNet.Lib.Redo
import ElektronNet.Accumulator

/-!
# Replaying blocks after an interrupted flush

`RollforwardBlock` and `ReplayBlocks` of `validation.cpp`.  A flush that stops between two of its
batches leaves the names of the block it moved to and of the block it came from, and some of the
coins written.  The replay takes the old branch back and applies the new one, on a cache over the
database.

* `rollBack`        through `DisconnectBlock`, which loads and moves the accumulator
* `rollForward`     spends and adds without looking at what is there; the accumulator is not told
* `rollForward_spec`  on the shown map a roll forward is a change that `Overwrites`
* `replayBlocks_forward`  where nothing is rolled back, the replay ends with the set of the new tip
-/

namespace ElektronNet

open List Outcome CCoinsViewCache Redo

/-! ## the code -/

def spendAny : List CTxIn → CCoinsViewCache → CCoinsViewCache
  | [], inputs => inputs
  | txin :: vin, inputs => spendAny vin (inputs.spendCoin txin.prevout).2

section
variable (H : Hashes)

def rollforwardTx (nHeight : Nat) (tx : CTransaction) (inputs : CCoinsViewCache) :
    Except Fault CCoinsViewCache :=
  addCoins H (if tx.isCoinBase then inputs else spendAny tx.vin inputs) tx nHeight true

def rollforwardTxs (nHeight : Nat) : List CTransaction → CCoinsViewCache →
    Except Fault CCoinsViewCache
  | [], inputs => pure inputs
  | tx :: txs, inputs => do
    let inputs ← rollforwardTx H nHeight tx inputs
    rollforwardTxs nHeight txs inputs

/-- the blocks that `ReadBlock` finds -/
abbrev BlockData := Uint256 → Option CBlock

variable (m : BlockMap) (blocks : BlockData)

/-- `none`: the block cannot be read -/
def rollforwardBlock (pindex : Uint256) (inputs : CCoinsViewCache) :
    Except Fault (Option CCoinsViewCache) :=
  match blocks pindex with
  | none => pure none
  | some block => do
    let inputs ← rollforwardTxs H (m.nHeight pindex) block.vtx inputs
    pure (some inputs)

/-- the ancestors of the new tip at the given heights -/
def rollForward (pindexNew : Uint256) : List Nat → CCoinsViewCache →
    Except Fault (Option CCoinsViewCache)
  | [], cache => pure (some cache)
  | nHeight :: heights, cache =>
    match m.getAncestor pindexNew nHeight with
    | none => throw (.assertion "pindexNew->GetAncestor(nHeight)")
    | some pindex => do
      let r ← rollforwardBlock H m blocks pindex cache
      match r with
      | none => pure none
      | some cache => rollForward pindexNew heights cache

/-- `LastCommonAncestor` of the two heads, if there is an old one; `none`: the old head is unknown -/
def replayFork (hashNew hashOld : Uint256) : Except Fault (Option (Option Uint256)) :=
  if hashOld.isNull then pure (some none)
  else if (m.lookupBlockIndex hashOld).isNone then pure none
  else
    match m.forest.fork hashOld hashNew with
    | none => throw (.assertion "pindexFork != nullptr")
    | some pindexFork => pure (some (some pindexFork))

def oldBranch (hashOld : Uint256) (pindexFork : Option Uint256) : List Uint256 :=
  match pindexFork with
  | none => []
  | some fork => (m.forest.path hashOld).takeWhile fun b => decide (b ≠ fork)

def newHeights (hashNew : Uint256) (pindexFork : Option Uint256) : List Nat :=
  let nForkHeight := pindexFork.elim 0 m.nHeight
  List.range' (nForkHeight + 1) (m.nHeight hashNew - nForkHeight)

variable {G : Type} [CommGroup G] (M : MuHash G)

/-- only a failed disconnection ends the roll back, an unclean one does not -/
def rollBack (undo : UndoStore) : List Uint256 → CoinsState G → CCoinsViewCache →
    Except Fault (Option (CoinsState G × CCoinsViewCache))
  | [], s, cache => pure (some (s, cache))
  | pindexOld :: branch, s, cache =>
    if m.nHeight pindexOld = 0 then rollBack undo branch s cache
    else
      match blocks pindexOld with
      | none => pure none
      | some block => do
        let out ← disconnectBlock M H s undo block
          ⟨pindexOld, m.pprev pindexOld, m.nHeight pindexOld⟩ cache true
        if out.result = .DISCONNECT_FAILED then pure none
        else rollBack undo branch out.coins out.view

/-- `ReplayBlocks` up to its flush; `none`: returns false -/
def replayCache (s : CoinsState G) (undo : UndoStore) (hashNew hashOld : Uint256) :
    Except Fault (Option (CoinsState G × CCoinsViewCache)) :=
  if (m.lookupBlockIndex hashNew).isNone then pure none
  else do
    let fork ← replayFork m hashNew hashOld
    match fork with
    | none => pure none
    | some pindexFork => do
      let r ← rollBack H m blocks M undo (oldBranch m hashOld pindexFork) s
        (CCoinsViewCache.new (.db s.coinsDB))
      match r with
      | none => pure none
      | some (s, cache) => do
        let r ← rollForward H m blocks hashNew (newHeights m hashNew pindexFork) cache
        pure (r.map fun cache => (s, cache.setBestBlock hashNew))

def replayBlocks (s : CoinsState G) (undo : UndoStore) : Except Fault (Bool × CoinsState G) :=
  match s.coinsDB.headBlocks with
  | [] => pure (true, s)
  | [hashNew, hashOld] => do
    let r ← replayCache H m blocks M s undo hashNew hashOld
    match r with
    | none => pure (false, s)
    | some (s, cache) => do
      let cache ← cache.flush
      pure (true, { s with coinsDB := cache.base.database })
  | _ => pure (false, s)

end

/-! ## on the shown map -/

variable {c : CCoinsViewCache}

theorem steps_spendCoin (hc : c.Ok) (o : COutPoint) : Steps c (c.spendCoin o).2 (c.utxos.erase o) := by
  obtain ⟨hok, hut, hh, hb, -, -⟩ := spendCoin_spec (r := (c.spendCoin o).1) hc rfl
  exact ⟨hok, hut, hh, hb⟩

theorem spendAny_spec {vin : List CTxIn} (hc : c.Ok) :
    Steps c (spendAny vin c) (spendAll vin c.utxos) := by
  induction vin generalizing c with
  | nil => exact Steps.refl hc
  | cons txin vin ih =>
    have hs := steps_spendCoin hc txin.prevout
    have hrest := ih hs.ok
    rw [hs.utxos] at hrest
    exact hs.trans hrest

theorem spent_spec (tx : CTransaction) (hc : c.Ok) :
    Steps c (if tx.isCoinBase then c else spendAny tx.vin c)
      (if tx.isCoinBase then c.utxos else spendAll tx.vin c.utxos) := by
  cases tx.isCoinBase with
  | true => exact Steps.refl hc
  | false => exact spendAny_spec hc

theorem addCoinsFrom_checked_ok (txid : Uint256) (nHeight : Nat) (cb : Bool) (i : Nat)
    {outs : List CTxOut} (c : CCoinsViewCache) (hnull : ∀ out ∈ outs, out.isNull = false) :
    ∃ c', addCoinsFrom txid nHeight cb true i outs c = .ok c' := by
  induction outs generalizing i c with
  | nil => exact ⟨c, rfl⟩
  | cons out outs ih =>
    obtain ⟨c₁, h₁⟩ : ∃ c₁, (c.fetchCoin ⟨txid, i⟩).addCoin ⟨txid, i⟩ ⟨out, cb, nHeight⟩
        (c.haveCoin ⟨txid, i⟩) = .ok c₁ := by
      refine addCoin_ok _ (hnull out mem_cons_self) fun how _ => ?_
      rw [haveCoin_eq] at how
      simpa using how
    obtain ⟨c', h'⟩ := ih (i + 1) c₁ fun o ho => hnull o (mem_cons_of_mem _ ho)
    exact ⟨c', bind_eq_ok.mpr ⟨c₁, h₁, h'⟩⟩

section
variable {H : Hashes}

theorem rollforwardTx_spec {nHeight : Nat} {tx : CTransaction} {c c' : CCoinsViewCache} (hc : c.Ok)
    (h : rollforwardTx H nHeight tx c = .ok c') : Steps c c' (applyTx H nHeight c.utxos tx) := by
  have hs := spent_spec tx hc
  have ha := addCoinsFrom_spec hs.ok h fun hf => by cases hf
  rw [hs.utxos] at ha
  exact hs.trans ha

theorem rollforwardTxs_spec {nHeight : Nat} {txs : List CTransaction} {c c' : CCoinsViewCache}
    (hc : c.Ok) (h : rollforwardTxs H nHeight txs c = .ok c') :
    Steps c c' (applyTxs H nHeight txs c.utxos) := by
  induction txs generalizing c with
  | nil =>
    cases h
    exact Steps.refl hc
  | cons tx txs ih =>
    obtain ⟨c₁, h₁, h⟩ := bind_eq_ok.mp h
    have hs := rollforwardTx_spec hc h₁
    have hrest := ih hs.ok h
    rw [hs.utxos] at hrest
    exact hs.trans hrest

theorem rollforwardTxs_ok (nHeight : Nat) {txs : List CTransaction} (c : CCoinsViewCache)
    (hnull : ∀ tx ∈ txs, ∀ out ∈ tx.vout, out.isNull = false) :
    ∃ c', rollforwardTxs H nHeight txs c = .ok c' := by
  induction txs generalizing c with
  | nil => exact ⟨c, rfl⟩
  | cons tx txs ih =>
    obtain ⟨c₁, h₁⟩ := addCoinsFrom_checked_ok (H.txid tx) nHeight tx.isCoinBase 0
      (if tx.isCoinBase then c else spendAny tx.vin c) (hnull tx mem_cons_self)
    obtain ⟨c', h'⟩ := ih c₁ fun t ht => hnull t (mem_cons_of_mem _ ht)
    exact ⟨c', bind_eq_ok.mpr ⟨c₁, h₁, h'⟩⟩

/-! ## blind writes -/

theorem overwrites_spendAll (vin : List CTxIn) : Overwrites (spendAll vin) := by
  induction vin with
  | nil => exact overwrites_id
  | cons txin vin ih => exact ih.comp (overwrites_erase _)

theorem overwrites_createFrom (txid : Uint256) (nHeight : Nat) (cb : Bool) (i : Nat)
    (outs : List CTxOut) : Overwrites (createFrom txid nHeight cb i outs) := by
  induction outs generalizing i with
  | nil => exact overwrites_id
  | cons out outs ih =>
    refine (ih (i + 1)).comp ?_
    cases isUnspendable out.scriptPubKey with
    | true => exact overwrites_id
    | false => exact overwrites_insert _ _

theorem overwrites_applyTx (nHeight : Nat) (tx : CTransaction) :
    Overwrites fun m => applyTx H nHeight m tx := by
  refine (overwrites_createFrom (H.txid tx) nHeight tx.isCoinBase 0 tx.vout).comp ?_
  cases tx.isCoinBase with
  | true => exact overwrites_id
  | false => exact overwrites_spendAll _

theorem overwrites_applyTxs (nHeight : Nat) (txs : List CTransaction) :
    Overwrites (applyTxs H nHeight txs) := by
  induction txs with
  | nil => exact overwrites_id
  | cons tx txs ih => exact ih.comp (overwrites_applyTx nHeight tx)

end

/-! ## the set of a block -/

/-- `S` gives every block of the index the set that the chain up to it leaves.  Entries without a
parent are genesis blocks, and the genesis block leaves nothing. -/
structure Ledger (H : Hashes) (rules : BlockRules) (m : BlockMap) (blocks : BlockData)
    (S : Uint256 → Utxos) : Prop where
  known : ∀ b, (m.lookupBlockIndex b).isSome = true → b.isNull = false
  root : ∀ b, (m.lookupBlockIndex b).isSome = true → m.pprev b = none →
    m.nHeight b = 0 ∧ S b = FMap.empty
  genesis : m.pprev rules.hashGenesisBlock = none
  child : ∀ b p block, m.pprev b = some p → blocks b = some block →
    S b = applyTxs H (m.nHeight b) block.vtx (S p)
  regular : ∀ b, Regular (S b)

/-- the set at a best block, which is null before the genesis block is connected -/
def setAt (S : Uint256 → Utxos) (best : Uint256) : Utxos :=
  if best.isNull then FMap.empty else S best

theorem setAt_of_not_null {S : Uint256 → Utxos} {best : Uint256}
    (h : best.isNull = false) : setAt S best = S best := by
  rw [setAt, h]
  rfl

/-- the block can be read, and rolled forward -/
def Replayable (blocks : BlockData) (b : Uint256) : Prop :=
  ∃ block, blocks b = some block ∧ ∀ tx ∈ block.vtx, ∀ out ∈ tx.vout, out.isNull = false

section
variable {H : Hashes} {rules : BlockRules} {m : BlockMap} {blocks : BlockData}
  {S : Uint256 → Utxos}

theorem rollforwardBlock_spec {b p : Uint256} (hS : Ledger H rules m blocks S)
    (hp : m.pprev b = some p) (hb : Replayable blocks b) (hc : c.Ok) :
    ∃ c', rollforwardBlock H m blocks b c = .ok (some c') ∧ ∃ f, Overwrites f ∧ S b = f (S p) ∧
      Steps c c' (f c.utxos) := by
  obtain ⟨block, hblock, hnull⟩ := hb
  obtain ⟨c', hc'⟩ := rollforwardTxs_ok (H := H) (m.nHeight b) c hnull
  refine ⟨c', ?_, applyTxs H (m.nHeight b) block.vtx, overwrites_applyTxs _ _,
    hS.child b p block hp hblock, rollforwardTxs_spec hc hc'⟩
  rw [rollforwardBlock, hblock]
  exact bind_eq_ok.mpr ⟨c', hc', rfl⟩

variable {new old : Uint256}

theorem rollForward_spec (hS : Ledger H rules m blocks S) (n : Nat) {a : Uint256}
    (ha : a ∈ m.forest.path new) (hn : m.nHeight a + n = m.nHeight new)
    (habove : ∀ b ∈ m.forest.path new, m.nHeight a < m.nHeight b → Replayable blocks b) (hc : c.Ok) :
    ∃ c', rollForward H m blocks new (List.range' (m.nHeight a + 1) n) c = .ok (some c') ∧
      ∃ f, Overwrites f ∧ S new = f (S a) ∧ Steps c c' (f c.utxos) := by
  induction n generalizing a c with
  | zero =>
    obtain rfl : a = new := m.forest.eq_of_mem_of_height ha (by rw [Nat.add_zero] at hn; exact hn.ge)
    exact ⟨c, rfl, id, overwrites_id, rfl, Steps.refl hc⟩
  | succ n ih =>
    have hne : a ≠ new := by
      rintro rfl
      omega
    obtain ⟨b, hb, hbn⟩ := m.forest.exists_child_of_mem ha hne
    have hh : m.nHeight b = m.nHeight a + 1 := m.forest.height_parent b a hb
    obtain ⟨c₁, h₁, f, hf, hSf, hs₁⟩ :=
      rollforwardBlock_spec hS hb (habove b hbn (by omega)) hc
    obtain ⟨c', h', g, hg, hSg, hs'⟩ := ih hbn (by omega)
      (fun x hx hlt => habove x hx (by omega)) hs₁.ok
    refine ⟨c', ?_, g ∘ f, hg.comp hf, by rw [hSg, hSf]; rfl, ?_⟩
    · rw [List.range'_succ, ← hh, rollForward, BlockMap.getAncestor_of_mem hbn]
      exact bind_eq_ok.mpr ⟨some c₁, h₁, h'⟩
    · rw [hs₁.utxos] at hs'
      exact hs₁.trans hs'

/-! ## an interrupted flush -/

theorem known_of_mem {a : Uint256} (hnew : (m.lookupBlockIndex new).isSome = true)
    (h : a ∈ m.forest.path new) : (m.lookupBlockIndex a).isSome = true := by
  induction new using m.forest.path_induction with
  | root k hp =>
    rw [m.forest.path_root hp, mem_singleton] at h
    rwa [h]
  | child k p hp ih =>
    rcases (m.forest.mem_path_iff a k).mp h with rfl | ⟨p', hp', hmem⟩
    · exact hnew
    · obtain rfl := Option.some.inj (hp.symm.trans hp')
      obtain ⟨e, he, hep⟩ := BlockMap.pprev_eq_some.mp hp
      obtain ⟨e', he', -⟩ := m.height_pprev k e p he hep
      exact ih (Option.isSome_iff_exists.mpr ⟨e', he'⟩) hmem

theorem Ledger.height_zero (hS : Ledger H rules m blocks S) {b : Uint256}
    (hb : (m.lookupBlockIndex b).isSome = true) (hh : 0 < m.nHeight b) : m.pprev b ≠ none := by
  intro hp
  have := (hS.root b hb hp).1
  omega

/-- the blocks of the chain of `new` can be rolled forward, except for those of the chain of `old` -/
def ReplayableFrom (m : BlockMap) (blocks : BlockData) (old new : Uint256) : Prop :=
  ∀ b ∈ m.forest.path new, m.pprev b ≠ none →
    Replayable blocks b ∨ old.isNull = false ∧ b ∈ m.forest.path old

/-- the database stopped on its way from the set of `old` to the set of `new` -/
structure Torn (m : BlockMap) (blocks : BlockData) (S : Uint256 → Utxos)
    (d : CCoinsViewDB) (new old : Uint256) : Prop where
  heads : d.headBlocks = [new, old]
  best : d.bestBlock.isNull = true
  new_known : (m.lookupBlockIndex new).isSome = true
  old_known : old.isNull = false → (m.lookupBlockIndex old).isSome = true
  coins : ∀ o, d.coins.get o = (setAt S old).get o ∨ d.coins.get o = (S new).get o
  above : ReplayableFrom m blocks old new

theorem Torn.start {d : CCoinsViewDB} (hS : Ledger H rules m blocks S)
    (h : Torn m blocks S d new old) (hforward : old.isNull = true ∨ old ∈ m.forest.path new) :
    ∃ fork a, replayFork m new old = .ok (some fork) ∧ oldBranch m old fork = [] ∧
      fork.elim 0 m.nHeight = m.nHeight a ∧ a ∈ m.forest.path new ∧ S a = setAt S old ∧
      ∀ b ∈ m.forest.path new, m.nHeight a < m.nHeight b → Replayable blocks b := by
  have hpprev : ∀ b ∈ m.forest.path new, ∀ n, n < m.nHeight b → m.pprev b ≠ none := by
    intro b hb n hlt
    exact hS.height_zero (known_of_mem h.new_known hb) (by omega)
  cases hnull : old.isNull with
  | true =>
    -- the first flush: the genesis block has left nothing
    obtain ⟨r, hr, hroot⟩ := m.forest.exists_root new
    obtain ⟨hr0, hrS⟩ := hS.root r (known_of_mem h.new_known hr) hroot
    refine ⟨none, r, by rw [replayFork, hnull]; rfl, rfl, hr0.symm, hr, ?_, fun b hb hlt => ?_⟩
    · rw [hrS, setAt, hnull]
      rfl
    · rcases h.above b hb (hpprev b hb _ hlt) with hrep | ⟨hold, -⟩
      · exact hrep
      · rw [hnull] at hold
        cases hold
  | false =>
    have hmem : old ∈ m.forest.path new := hforward.resolve_left (by rw [hnull]; simp)
    obtain ⟨rest, hrest⟩ := m.forest.path_cons old
    have hfork : m.forest.fork old new = some old := by
      rw [Forest.fork, hrest, find?_cons_of_pos (by simpa using hmem)]
    have hknown : (m.lookupBlockIndex old).isNone = false := by
      rw [← Option.not_isSome, h.old_known hnull]
      rfl
    refine ⟨some old, old, ?_, ?_, rfl, hmem, (setAt_of_not_null hnull).symm, fun b hb hlt => ?_⟩
    · rw [replayFork, hnull, hknown, hfork]
      rfl
    · rw [oldBranch, hrest, takeWhile_cons_of_neg (by simp)]
    · rcases h.above b hb (hpprev b hb _ hlt) with hrep | ⟨-, hbo⟩
      · exact hrep
      · have hle : m.nHeight b ≤ m.nHeight old := m.forest.height_le_of_mem hbo
        omega

variable {G : Type} [CommGroup G] {M : MuHash G}

/-- **a replay that rolls nothing back finds the set of the new tip** -/
theorem replayCache_forward {s : CoinsState G} (undo : UndoStore) (hS : Ledger H rules m blocks S)
    (h : Torn m blocks S s.coinsDB new old) (hforward : old.isNull = true ∨ old ∈ m.forest.path new) :
    ∃ cache, replayCache H m blocks M s undo new old = .ok (some (s, cache)) ∧ cache.Ok ∧
      cache.utxos = S new ∧ cache.m_block_hash = new ∧ cache.base = .db s.coinsDB := by
  obtain ⟨fork, a, hfork, hbranch, hheight, ha, hSa, habove⟩ := h.start hS hforward
  have hok : (CCoinsViewCache.new (.db s.coinsDB)).Ok := new_ok trivial
  have hle : m.nHeight a ≤ m.nHeight new := m.forest.height_le_of_mem ha
  obtain ⟨c, hc, f, hf, hSf, hsteps⟩ :=
    rollForward_spec hS (m.nHeight new - m.nHeight a) ha (by omega) habove hok
  have hnew : (m.lookupBlockIndex new).isNone = false := by
    rw [← Option.not_isSome, h.new_known]
    rfl
  obtain ⟨hok', hut'⟩ := setBestBlock_spec hsteps.ok new
  refine ⟨c.setBestBlock new, ?_, hok', ?_, rfl, ?_⟩
  · rw [replayCache, hnew]
    refine bind_eq_ok.mpr ⟨some fork, hfork, ?_⟩
    refine bind_eq_ok.mpr ⟨some (s, CCoinsViewCache.new (.db s.coinsDB)), ?_, ?_⟩
    · rw [hbranch]
      rfl
    · refine bind_eq_ok.mpr ⟨some c, ?_, rfl⟩
      rw [newHeights, hheight]
      exact hc
  · rw [hut', hsteps.utxos, new_utxos, hSf]
    refine hf.redo fun o => ?_
    rw [← hSf, hSa]
    exact h.coins o
  · obtain ⟨-, halike, -⟩ := hsteps.base
    show c.base = _
    generalize c.base = v at halike
    cases v with
    | db d => exact congrArg _ (Eq.symm halike)
    | cache l b => exact halike.elim

theorem replayBlocks_of_cache {s s' : CoinsState G} {undo : UndoStore} {cache : CCoinsViewCache}
    (hS : Ledger H rules m blocks S) (h : Torn m blocks S s.coinsDB new old)
    (hcache : replayCache H m blocks M s undo new old = .ok (some (s', cache))) (hok : cache.Ok)
    (hut : cache.utxos = S new) (hhash : cache.m_block_hash = new) (hbase : cache.base = .db s.coinsDB) :
    ∃ d, replayBlocks H m blocks M s undo = .ok (true, { s' with coinsDB := d }) ∧
      d.coins = S new ∧ d.bestBlock = new ∧ d.headBlocks = [] := by
  have hold : s.coinsDB.oldTip new = .ok old := by
    rw [CCoinsViewDB.oldTip, h.best, h.heads]
    simp only [if_true]
  obtain ⟨cache', hflush⟩ : ∃ cache', cache.flush = .ok cache' := by
    unfold flush
    rw [hbase, CCoinsView.batchWrite, CCoinsViewDB.batchWrite, hhash, hS.known new h.new_known, hold]
    exact ⟨_, rfl⟩
  obtain ⟨-, -, -, -, d, hd, hcoins, hbest, hheads⟩ := CoinsState.written_flush hok hbase hflush
  refine ⟨d, ?_, hcoins.trans hut, hbest.trans hhash, hheads⟩
  rw [replayBlocks, h.heads]
  refine bind_eq_ok.mpr ⟨some (s', cache), hcache, ?_⟩
  refine bind_eq_ok.mpr ⟨cache', hflush, ?_⟩
  rw [hd]
  rfl

theorem replayBlocks_forward {s : CoinsState G} (undo : UndoStore) (hS : Ledger H rules m blocks S)
    (h : Torn m blocks S s.coinsDB new old) (hforward : old.isNull = true ∨ old ∈ m.forest.path new) :
    ∃ d, replayBlocks H m blocks M s undo = .ok (true, { s with coinsDB := d }) ∧
      d.coins = S new ∧ d.bestBlock = new ∧ d.headBlocks = [] := by
  obtain ⟨cache, hcache, hok, hut, hhash, hbase⟩ :=
    replayCache_forward (M := M) undo hS h hforward
  exact replayBlocks_of_cache hS h hcache hok hut hhash hbase

end

end ElektronNet
