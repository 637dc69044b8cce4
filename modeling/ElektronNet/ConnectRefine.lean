import ElektronNet.Coins.Undo
import ElektronNet.Connect

/-!
# What connecting and disconnecting do to the set

On the map that the view shows, a block that `ConnectBlock` finds valid is `applyTxs`, and one that
`DisconnectBlock` takes back cleanly is `unapplyTxs`; the accumulator stays the one of the shown
map in both.

* `connectBlock_base`    whatever the verdict, `CoinsTip` under the view shows the same
* `connectBlock_valid`   a valid block is applied, its undo record holds the coins it spent
* `disconnectBlock_ok`   a clean disconnection takes the block back

Nothing stands where a block creates outputs: the BIP30 lookups ask the view before the first
transaction, so `CoinsTip` has no such coin, and `AddCoin` refuses to overwrite one that the block
itself has created.
-/

namespace ElektronNet

open List Outcome CCoinsViewCache

/-! ## lookups -/

theorem haveOutputs_spec (txid : Uint256) (o : Nat) (outs : List CTxOut) (c : CCoinsViewCache) :
    Lookups c (haveOutputs txid o outs c).2 ∧ ((haveOutputs txid o outs c).1 = false →
      ∀ j, j < outs.length → c.peek ⟨txid, o + j⟩ = none) := by
  induction outs generalizing o c with
  | nil => exact ⟨.refl, fun _ j hj => absurd hj (by simp)⟩
  | cons out outs ih =>
    obtain ⟨hlook, hnone⟩ := ih (o + 1) (c.fetchCoin ⟨txid, o⟩)
    refine ⟨(lookups_fetchCoin c _).trans hlook, fun hfalse j hj => ?_⟩
    obtain ⟨hhave, hrest⟩ := Bool.or_eq_false_iff.mp hfalse
    cases j with
    | zero =>
      rw [haveCoin_eq] at hhave
      simpa using hhave
    | succ j =>
      have := hnone hrest j (by simpa using hj)
      rwa [fetchCoin_peek, Nat.add_right_comm, Nat.add_assoc] at this

theorem haveAnyOutput_spec (H : Hashes) (txs : List CTransaction) (c : CCoinsViewCache) :
    Lookups c (haveAnyOutput H txs c).2 ∧ ((haveAnyOutput H txs c).1 = false →
      ∀ tx ∈ txs, ∀ j, j < tx.vout.length → c.peek ⟨H.txid tx, j⟩ = none) := by
  induction txs generalizing c with
  | nil => exact ⟨.refl, fun _ tx htx => absurd htx (by simp)⟩
  | cons tx txs ih =>
    obtain ⟨hf, hhead⟩ := haveOutputs_spec (H.txid tx) 0 tx.vout c
    obtain ⟨hlook, htail⟩ := ih (haveOutputs (H.txid tx) 0 tx.vout c).2
    refine ⟨hf.trans hlook, fun hfalse t ht j hj => ?_⟩
    obtain ⟨hfirst, hrest⟩ := Bool.or_eq_false_iff.mp hfalse
    rcases mem_cons.mp ht with rfl | hmem
    · have := hhead hfirst j hj
      rwa [Nat.zero_add] at this
    · rw [← hf.peek]
      exact htail hrest t hmem j hj

variable {c : CCoinsViewCache}

section
variable {H : Hashes} {rules : BlockRules} {pos : BlockPlace}

variable {tx : CTransaction} {st : BlockProgress} {r : Option Invalid × BlockProgress}

theorem checkSpends_spec (h : checkSpends H rules pos tx st = .ok r) :
    Lookups st.view r.2.view ∧ r.2.vtxundo = st.vtxundo ∧
      ∃ txfee, moneyRange txfee = true ∧ r.2.nFees = st.nFees + txfee ∧
        (r.1 = none → (tx.isCoinBase = true → txfee = 0) ∧
          (tx.isCoinBase = false → moneyRange r.2.nFees = true ∧
            txfee = inputsValue tx.vin st.view - outputsValue tx.vout ∧
            InputsSpendable pos.nHeight tx.vin st.view.utxos)) := by
  unfold checkSpends at h
  cases hcb : tx.isCoinBase with
  | true =>
    rw [hcb] at h
    cases h
    exact ⟨.refl, rfl, 0, rfl, (Int.add_zero _).symm, fun _ => ⟨fun _ => rfl, fun hf => (by cases hf)⟩⟩
  | false =>
    rw [hcb] at h
    obtain ⟨⟨e, c⟩, hcheck, h⟩ := bind_eq_ok.mp h
    obtain ⟨hlook, hfee⟩ := checkTxInputs_spec hcheck
    cases e with
    | error e =>
      cases h
      exact ⟨hlook, rfl, 0, rfl, (Int.add_zero _).symm, fun hn => (by cases hn)⟩
    | ok txfee =>
      obtain ⟨hvalue, hmoney, hspend⟩ := hfee txfee rfl
      simp only at h
      split at h
      · cases h
        exact ⟨hlook, rfl, txfee, hmoney, rfl, fun hn => (by cases hn)⟩
      rename_i hfees
      split at h
      · cases h
        exact ⟨hlook, rfl, txfee, hmoney, rfl, fun hn => (by cases hn)⟩
      · cases h
        exact ⟨hlook, rfl, txfee, hmoney, rfl, fun _ => ⟨fun hf => (by cases hf),
          fun _ => ⟨by simpa using hfees, hvalue, hspend⟩⟩⟩

theorem checkScripts_view (rules : BlockRules) (pos : BlockPlace) (tx : CTransaction)
    (st : BlockProgress) :
    (checkScripts rules pos tx st).2.view = st.view ∧
      (checkScripts rules pos tx st).2.vtxundo = st.vtxundo ∧
      (checkScripts rules pos tx st).2.nFees = st.nFees := by
  unfold checkScripts
  simp only
  split
  · exact ⟨rfl, rfl, rfl⟩
  · split <;> exact ⟨rfl, rfl, rfl⟩

theorem connectTx_cases {i : Nat} (h : connectTx H rules pos i tx st = .ok r) :
    ∃ c, checkSpends H rules pos tx st = .ok c ∧ r.2.nFees = c.2.nFees ∧
      ((r.1.isSome = true ∧ r.2.view = c.2.view) ∨
        (c.1 = none ∧ r.1 = none ∧ ∃ u, updateCoins H tx c.2.view pos.nHeight = .ok u ∧
          r.2.view = u.2 ∧
          r.2.vtxundo = if i = 0 then c.2.vtxundo else c.2.vtxundo ++ [u.1])) := by
  obtain ⟨⟨e, st₁⟩, hspends, h⟩ := bind_eq_ok.mp h
  refine ⟨_, hspends, ?_⟩
  cases e with
  | some e =>
    cases h
    exact ⟨rfl, .inl ⟨rfl, rfl⟩⟩
  | none =>
    have hview := checkScripts_view rules pos tx st₁
    simp only at h
    cases hs : checkScripts rules pos tx st₁ with
    | mk e st₂ =>
      rw [hs] at h hview
      obtain ⟨hv, hu, hfees⟩ : st₂.view = st₁.view ∧ st₂.vtxundo = st₁.vtxundo ∧
        st₂.nFees = st₁.nFees := hview
      cases e with
      | some e =>
        cases h
        exact ⟨hfees, .inl ⟨rfl, hv⟩⟩
      | none =>
        obtain ⟨u, hupdate, h⟩ := bind_eq_ok.mp h
        cases h
        rw [hv] at hupdate
        exact ⟨hfees, .inr ⟨rfl, rfl, u, hupdate, rfl, by rw [hu]⟩⟩

theorem connectTx_base {i : Nat} (h : connectTx H rules pos i tx st = .ok r) :
    SameStack st.view.base r.2.view.base := by
  obtain ⟨c, hspends, -, ⟨-, hv⟩ | ⟨-, -, u, hupdate, hv, -⟩⟩ := connectTx_cases h
  · rw [hv]
    exact (checkSpends_spec hspends).1.sameStack
  · rw [hv]
    exact (checkSpends_spec hspends).1.sameStack.trans (updateCoins_same (SameTop.refl _) hupdate).2

variable {txs : List CTransaction} {view : CCoinsViewCache}

theorem connectTxs_base {i : Nat}
    (h : connectTxs H rules pos i txs st = .ok r) : SameStack st.view.base r.2.view.base := by
  induction txs generalizing i st with
  | nil =>
    cases h
    exact SameStack.refl _
  | cons tx txs ih =>
    obtain ⟨⟨e, st₁⟩, h₁, h⟩ := bind_eq_ok.mp h
    have hb := connectTx_base h₁
    cases e with
    | some e =>
      cases h
      exact hb
    | none => exact hb.trans (ih h)

theorem connectTransactions_base {m : BlockMap} {pprev : Uint256} {block : CBlock}
    (h : connectTransactions H rules m pos pprev block view = .ok r) :
    SameStack view.base r.2.view.base := by
  have hb := (haveAnyOutput_spec H block.vtx view).1.sameStack
  unfold connectTransactions at h
  split at h
  · cases hhave : haveAnyOutput H block.vtx view with
    | mk found view₁ =>
      rw [hhave] at h hb
      cases found with
      | true =>
        cases h
        exact hb
      | false => exact hb.trans (connectTxs_base h)
  · exact connectTxs_base h

theorem checkReward_spec {block : CBlock} {r' : Option Invalid × BlockProgress}
    (h : checkReward rules pos block r = .ok r') : r'.2 = r.2 ∧ (r'.1 = none → r.1 = none) := by
  unfold checkReward at h
  split at h
  · cases h
  · obtain ⟨value_out, -, h⟩ := bind_eq_ok.mp h
    cases he : r.1 with
    | some e =>
      rw [he] at h
      cases h
      exact ⟨rfl, fun hn => hn⟩
    | none =>
      rw [he] at h
      simp only at h
      split at h <;> cases h <;> exact ⟨rfl, fun _ => rfl⟩

end

/-! ## a valid transaction is applied -/

def NoneBelow (H : Hashes) (txs : List CTransaction) (v : CCoinsView) : Prop :=
  ∀ tx ∈ txs, ∀ j, j < tx.vout.length → v.peekCoin ⟨H.txid tx, j⟩ = none

theorem NoneBelow.mono {H : Hashes} {txs' : List CTransaction} {v v' : CCoinsView}
    (h : NoneBelow H txs v) (hsub : ∀ tx ∈ txs', tx ∈ txs) (hv : SameStack v v') :
    NoneBelow H txs' v' := by
  intro tx htx j hj
  rw [← hv.peek]
  exact h tx (hsub tx htx) j hj

theorem outputsFresh_of_added {txid : Uint256} {nHeight : Nat} {i : Nat} {outs : List CTxOut}
    {c' : CCoinsViewCache} (h : addCoinsFrom txid nHeight false false i outs c = .ok c')
    (hbase : ∀ j, j < outs.length → c.base.peekCoin ⟨txid, i + j⟩ = none) :
    OutputsFresh c.utxos txid i outs := by
  induction outs generalizing i c with
  | nil => simp [OutputsFresh]
  | cons out outs ih =>
    obtain ⟨c₁, h₁, h₂⟩ := bind_eq_ok.mp h
    simp only [Bool.false_eq_true, if_false] at h₁
    have hb₁ : c₁.base = c.base := addCoin_base h₁
    have hrest := ih h₂ fun j hj => by
      rw [hb₁]
      have := hbase (j + 1) (by simpa using hj)
      rwa [← Nat.add_assoc, Nat.add_right_comm] at this
    obtain ⟨-, ⟨hu, rfl⟩ | ⟨hu, it, hit, hspent, hc₁⟩⟩ := addCoin_eq_ok h₁
    · intro j out' hj hu'
      cases j with
      | zero =>
        obtain rfl : out = out' := by simpa using hj
        rw [hu] at hu'
        cases hu'
      | succ j =>
        have := hrest j out' (by simpa using hj) hu'
        rwa [Nat.add_right_comm, Nat.add_assoc] at this
    · intro j out' hj hu'
      rw [utxos_get]
      cases j with
      | zero =>
        -- an entry of the cache is spent, and without one the base answers
        cases hg : c.cacheCoins.get ⟨txid, i⟩ with
        | none =>
          rw [Nat.add_zero, peek_of_no_entry hg]
          exact hbase 0 (by simp)
        | some e =>
          rw [hg] at hit
          obtain rfl : it = e := hit
          rw [Nat.add_zero, peek_of_entry hg, CCoinsView.entryCoin, hspent rfl]
          rfl
      | succ j =>
        have hj' := hrest j out' (by simpa using hj) hu'
        have hne : (⟨txid, i + 1 + j⟩ : COutPoint) ≠ ⟨txid, i⟩ := by
          intro e
          injection e with _ e
          omega
        rw [utxos_get, hc₁, peek_insert, if_neg hne] at hj'
        rwa [Nat.add_right_comm, Nat.add_assoc] at hj'

section
variable {H : Hashes} {rules : BlockRules} {pos : BlockPlace}

variable {tx : CTransaction} {st st' : BlockProgress}

theorem updateCoins_fresh {u : CTxUndo × CCoinsViewCache} {nHeight : Nat}
    (hc : c.Ok) (h : updateCoins H tx c nHeight = .ok u) (hcb : tx.isCoinBase = false)
    (hin : InputsPresent tx.vin c.utxos)
    (hbase : ∀ j, j < tx.vout.length → c.base.peekCoin ⟨H.txid tx, j⟩ = none) :
    OutputsFresh (spendAll tx.vin c.utxos) (H.txid tx) 0 tx.vout := by
  obtain ⟨⟨coins, c₁⟩, h₁, h₂⟩ := bind_eq_ok.mp h
  obtain ⟨c₂, h₃, -⟩ := bind_eq_ok.mp h₂
  obtain ⟨c₃, hs, hstep⟩ := spendInputs_spec hc hin
  rw [spendTxInputs, hcb, hs] at h₁
  obtain ⟨-, rfl⟩ := Prod.mk.inj (Except.ok.inj h₁)
  rw [addCoins, hcb] at h₃
  rw [← hstep.utxos]
  refine outputsFresh_of_added h₃ fun j hj => ?_
  rw [← hstep.base.peek, Nat.zero_add]
  exact hbase j hj

theorem connectTx_spec {i : Nat} (hv : st.view.Ok) (hcheck : checkTransaction tx = .ok ())
    (hbase : NoneBelow H [tx] st.view.base)
    (hcoinbase : tx.isCoinBase = true → OutputsFresh st.view.utxos (H.txid tx) 0 tx.vout)
    (h : connectTx H rules pos i tx st = .ok (none, st')) :
    Steps st.view st'.view (applyTx H pos.nHeight st.view.utxos tx) ∧
      (tx.isCoinBase = false → InputsPresent tx.vin st.view.utxos) ∧
      OutputsFresh (if tx.isCoinBase then st.view.utxos else spendAll tx.vin st.view.utxos)
        (H.txid tx) 0 tx.vout ∧
      st'.vtxundo = if i = 0 then st.vtxundo
        else st.vtxundo ++ [⟨if tx.isCoinBase then [] else spentCoins tx.vin st.view.utxos⟩] := by
  obtain ⟨⟨e, st₁⟩, hspends, -, ⟨hsome, -⟩ | ⟨he, -, u, hupdate, hview, hundo⟩⟩ := connectTx_cases h
  · cases hsome
  obtain rfl : e = none := he
  obtain ⟨hlook, hundo₁, txfee, -, -, hnone⟩ := checkSpends_spec hspends
  have hsteps := hlook.steps hv
  have hin : tx.isCoinBase = false → InputsPresent tx.vin st.view.utxos := by
    intro hcb
    refine inputsPresent_of_checked (checkTransaction_ok hcheck).1 fun txin htxin => ?_
    obtain ⟨coin, hcoin, -⟩ := ((hnone rfl).2 hcb).2.2 txin htxin
    exact ⟨coin, hcoin⟩
  have hin₁ : tx.isCoinBase = false → InputsPresent tx.vin st₁.view.utxos := by
    rw [hsteps.utxos]
    exact hin
  have hfresh : tx.isCoinBase = false →
      OutputsFresh (spendAll tx.vin st₁.view.utxos) (H.txid tx) 0 tx.vout := by
    intro hcb
    refine updateCoins_fresh hsteps.ok hupdate hcb (hin₁ hcb) fun j hj => ?_
    rw [← hsteps.base.peek]
    exact hbase tx (mem_singleton_self tx) j hj
  obtain ⟨hstep, hu⟩ := updateCoins_spec H hsteps.ok hupdate hin₁ hfresh
  rw [hsteps.utxos] at hstep hu hfresh
  refine ⟨hview ▸ hsteps.trans hstep, hin, ?_, ?_⟩
  · cases hcb : tx.isCoinBase with
    | true => exact hcoinbase hcb
    | false => exact hfresh hcb
  · rw [hundo, hundo₁, hu]

theorem connectTxs_spec {i : Nat} (hi : i ≠ 0) (hv : st.view.Ok)
    (hcheck : ∀ tx ∈ txs, checkTransaction tx = .ok ()) (hcb : ∀ tx ∈ txs, tx.isCoinBase = false)
    (hbase : NoneBelow H txs st.view.base) (h : connectTxs H rules pos i txs st = .ok (none, st')) :
    Steps st.view st'.view (applyTxs H pos.nHeight txs st.view.utxos) ∧
      BlockSpends H pos.nHeight txs st.view.utxos ∧ BlockFresh H pos.nHeight txs st.view.utxos ∧
      st'.vtxundo = st.vtxundo ++ undoRecords H pos.nHeight txs st.view.utxos := by
  induction txs generalizing i st with
  | nil =>
    cases h
    exact ⟨Steps.refl hv, trivial, trivial, by simp [undoRecords]⟩
  | cons tx txs ih =>
    obtain ⟨⟨e, st₁⟩, h₁, h⟩ := bind_eq_ok.mp h
    cases e with
    | some e => cases h
    | none =>
      have htx := hcb tx mem_cons_self
      obtain ⟨hstep, hin, hfresh, hundo⟩ := connectTx_spec hv (hcheck tx mem_cons_self)
        (hbase.mono (by simp) (SameStack.refl _)) (fun hf => absurd (hf.symm.trans htx) (by simp)) h₁
      obtain ⟨hsteps, hspends, hfreshs, hundos⟩ := ih (Nat.succ_ne_zero i) hstep.ok
        (fun t ht => hcheck t (mem_cons_of_mem _ ht))
        (fun t ht => hcb t (mem_cons_of_mem _ ht))
        (hbase.mono (fun t ht => mem_cons_of_mem _ ht) hstep.base) h
      rw [hstep.utxos] at hsteps hspends hfreshs hundos
      refine ⟨hstep.trans hsteps, ⟨hin, ?_, hspends⟩, ⟨hfresh, hfreshs⟩, ?_⟩
      · exact (checkTransaction_ok (hcheck tx mem_cons_self)).2
      · rw [hundos, hundo, if_neg hi, append_assoc]
        rfl

end

/-! ## a valid block is applied -/

/-- a block that may be applied to the set `m`: one coinbase, inputs that are there, outputs that
are not -/
structure Applies (H : Hashes) (nHeight : Nat) (block : CBlock) (m : Utxos) : Prop where
  coinbase : ∃ coinbase txs, block.vtx = coinbase :: txs ∧ coinbase.isCoinBase = true ∧
    ∀ tx ∈ txs, tx.isCoinBase = false
  spends : BlockSpends H nHeight block.vtx m
  fresh : BlockFresh H nHeight block.vtx m

/-- the undo record of a block that was applied to `m` -/
def blockUndo (H : Hashes) (nHeight : Nat) (block : CBlock) (m : Utxos) : CBlockUndo :=
  ⟨(undoRecords H nHeight block.vtx m).tail⟩

theorem checkTransactions_ok {H : Hashes}
    (h : checkTransactions H txs = .ok ()) : ∀ tx ∈ txs, checkTransaction tx = .ok () := by
  induction txs with
  | nil => simp
  | cons tx txs ih =>
    rw [checkTransactions] at h
    split at h
    · cases h
    · rename_i hok
      intro t ht
      rcases mem_cons.mp ht with rfl | hmem
      · exact hok
      · exact ih h t hmem

section
variable {H : Hashes} {rules : BlockRules} {pos : BlockPlace}

variable {block : CBlock}

theorem checkContents_ok (h : checkContents H rules block = .ok ()) :
    (∃ coinbase txs, block.vtx = coinbase :: txs ∧ coinbase.isCoinBase = true ∧
      ∀ tx ∈ txs, tx.isCoinBase = false) ∧ ∀ tx ∈ block.vtx, checkTransaction tx = .ok () := by
  unfold checkContents at h
  split at h
  · cases h
  · rename_i coinbase txs hvtx
    split at h
    · cases h
    split at h
    · cases h
    rename_i hfirst
    split at h
    · cases h
    rename_i hothers
    cases hcheck : checkTransactions H block.vtx with
    | error e =>
      rw [hcheck] at h
      cases h
    | ok u =>
      refine ⟨⟨coinbase, txs, hvtx, by simpa using hfirst, fun tx htx => ?_⟩,
        checkTransactions_ok hcheck⟩
      have : ∀ tx ∈ txs, ¬ tx.isCoinBase = true := by simpa using hothers
      simpa using this tx htx

theorem checkBlock_ok {fCheckPOW fCheckMerkleRoot : Bool}
    (h : checkBlock H rules block fCheckPOW fCheckMerkleRoot = .ok ()) :
    checkContents H rules block = .ok () := by
  unfold checkBlock at h
  split at h
  · cases h
  split at h
  · cases h
  cases hc : checkContents H rules block with
  | error e =>
    rw [hc] at h
    cases h
  | ok u => rfl

theorem connectTransactions_spec {m : BlockMap} {pprev : Uint256}
    {st : BlockProgress} (hv : view.Ok) (hempty : view.cacheCoins = FMap.empty)
    (hbip : enforceBIP30 rules m pos pprev = true) (hcheck : checkContents H rules block = .ok ())
    (h : connectTransactions H rules m pos pprev block view = .ok (none, st)) :
    Steps view st.view (applyTxs H pos.nHeight block.vtx view.utxos) ∧
      Applies H pos.nHeight block view.utxos ∧
      ⟨st.vtxundo⟩ = blockUndo H pos.nHeight block view.utxos := by
  obtain ⟨⟨coinbase, txs, hvtx, hcoinbase, hcb⟩, hchecks⟩ := checkContents_ok hcheck
  rw [connectTransactions, if_pos hbip] at h
  obtain ⟨hlookups, hnone⟩ := haveAnyOutput_spec H block.vtx view
  have hlook := hlookups.steps hv
  cases hhave : haveAnyOutput H block.vtx view with
  | mk found view₁ =>
    rw [hhave] at h hlook hnone
    cases found with
    | true => cases h
    | false =>
      have hout := hnone rfl
      have hbase : NoneBelow H block.vtx view₁.base := by
        intro tx htx j hj
        rw [← hlook.base.peek, ← peek_of_no_entry (by rw [hempty, FMap.empty_get])]
        exact hout tx htx j hj
      rw [hvtx] at h hchecks hbase hout ⊢
      -- the coinbase may overwrite, so that nothing is there is what the lookups have shown
      obtain ⟨⟨e, st₁⟩, h₁, h⟩ := bind_eq_ok.mp h
      cases e with
      | some e => cases h
      | none =>
        obtain ⟨hstep, hin, hfresh, hundo⟩ := connectTx_spec hlook.ok
          (hchecks coinbase mem_cons_self) (hbase.mono (by simp) (SameStack.refl _))
          (fun _ j out hj _ => by
            rw [hlook.utxos, utxos_get, Nat.zero_add]
            refine hout coinbase List.mem_cons_self j ?_
            exact (List.getElem?_eq_some_iff.mp hj).1) h₁
        obtain ⟨hsteps, hspends, hfreshs, hundos⟩ := connectTxs_spec Nat.one_ne_zero hstep.ok
          (fun t ht => hchecks t (List.mem_cons_of_mem _ ht)) hcb
          (hbase.mono (fun t ht => mem_cons_of_mem _ ht) hstep.base) h
        rw [hlook.utxos] at hstep hin hfresh
        rw [hstep.utxos] at hsteps hspends hfreshs hundos
        refine ⟨hlook.trans (hstep.trans hsteps), ⟨⟨coinbase, txs, hvtx, hcoinbase, hcb⟩, ?_, ?_⟩, ?_⟩
        · rw [hvtx]
          exact ⟨hin, (checkTransaction_ok (hchecks coinbase mem_cons_self)).2, hspends⟩
        · rw [hvtx]
          exact ⟨hfresh, hfreshs⟩
        · rw [hundos, hundo, blockUndo, hvtx]
          rfl

end

theorem steps_withBase (hc : c.Ok) {base : CCoinsView} (hb : SameStack c.base base) :
    Steps c { c with base := base } c.utxos := by
  refine ⟨⟨hb.ok hc.1, fun o e he => ?_⟩, utxos_congr fun o => ?_, rfl, hb⟩
  · rw [← hb.peek]
    exact hc.2 o e he
  · show shown _ (base.peekCoin o) = shown _ (c.base.peekCoin o)
    rw [hb.peek]

theorem loadBestBlock_base (c : CCoinsViewCache) : SameStack c.base c.loadBestBlock.base := by
  unfold loadBestBlock
  split
  · exact sameStack_loadBestBlock _
  · exact SameStack.refl _

theorem loadBestBlock_spec (hc : c.Ok) :
    c.loadBestBlock.Ok ∧ c.loadBestBlock.utxos = c.utxos ∧
      c.loadBestBlock.cacheCoins = c.cacheCoins := by
  have hsame := sameView_loadBestBlock c.toView
  rw [← loadBestBlock_toView] at hsame
  refine ⟨?_, utxos_congr fun o => (hsame.peek o).symm, ?_⟩
  · rw [Ok, loadBestBlock_toView]
    exact loadBestBlock_ok hc
  · unfold loadBestBlock
    split <;> rfl

theorem setBestBlock_spec (hc : c.Ok) (h : Uint256) :
    (c.setBestBlock h).Ok ∧ (c.setBestBlock h).utxos = c.utxos := ⟨hc, utxos_congr fun _ => rfl⟩

section
variable {G : Type} [CommGroup G] {M : MuHash G} {H : Hashes} {rules : BlockRules} {pos : BlockPlace}

variable {block : CBlock} {nHeight : Nat} {undo : UndoStore} {writable just update : Bool}
  {s : CoinsState G} {view : CCoinsViewCache} {out : Connected G} {m : BlockMap}

theorem validateUTXOCheckpoint_base {known : Uint256 → Bool}
    {params : ConsensusParams} {tip_muhash : Option (UTXOMuHashState G)}
    {r : Except Invalid Unit × CCoinsView}
    (h : validateUTXOCheckpoint M H block nHeight c.toView known params tip_muhash = .ok r) :
    SameStack c.base (backend r.2) := by
  unfold validateUTXOCheckpoint at h
  split at h
  · cases h
    exact SameStack.refl _
  · split at h
    · cases h
    · split at h
      · cases h
        exact SameStack.refl _
      · obtain ⟨⟨hash, v⟩, hcompute, h⟩ := bind_eq_ok.mp h
        have hb : SameStack c.base v := computeBlockUTXOAttestationHash_base hcompute
        cases hash with
        | none =>
          cases h
          exact hb
        | some hash =>
          simp only at h
          split at h <;> cases h <;> exact hb

theorem commitTxs_undoRecords {m : Utxos}
    {acc : UTXOMuHashState G} (hcb : ∀ tx ∈ txs, tx.isCoinBase = false) :
    commitTxs M H nHeight txs (undoRecords H nHeight txs m) acc = accTxs H M nHeight txs m acc := by
  induction txs generalizing m acc with
  | nil => rfl
  | cons tx txs ih =>
    have htx := hcb tx mem_cons_self
    rw [undoRecords, commitTxs]
    rw [ih fun t ht => hcb t (mem_cons_of_mem _ ht), accTxs, accTx, htx]
    rfl

theorem commitTxs_coinBase {tx : CTransaction} (hcb : tx.isCoinBase = true)
    (txs : List CTransaction) (us : List CTxUndo) (acc : UTXOMuHashState G) :
    commitTxs M H nHeight (tx :: txs) us acc =
      commitTxs M H nHeight txs us (addAllFrom M (H.txid tx) nHeight true 0 tx.vout acc) := by
  cases us <;> rw [commitTxs, if_pos hcb]

/-- **the commit of a block moves the accumulator with the set** -/
theorem commitTxs_ofSet {m : Utxos} (h : Applies H nHeight block m) :
    commitTxs M H nHeight block.vtx (blockUndo H nHeight block m).vtxundo
        (UTXOMuHashState.ofSet M m) =
      UTXOMuHashState.ofSet M (applyTxs H nHeight block.vtx m) := by
  obtain ⟨coinbase, txs, hvtx, hcoinbase, hcb⟩ := h.coinbase
  rw [ofSet_applyTxs H M h.spends h.fresh, blockUndo, hvtx, undoRecords, tail_cons,
    commitTxs_coinBase hcoinbase, commitTxs_undoRecords hcb, accTxs, accTx, hcoinbase]
  rfl

/-- the undo file after a block was connected: a record that was there stays -/
def UndoStore.record (undo : UndoStore) (hash : Uint256) (u : CBlockUndo) : UndoStore :=
  if (undo.get hash).isSome then undo else undo.insert hash u

theorem writeBlockUndo_eq_some {undo' : UndoStore} {hash : Uint256} {u : CBlockUndo}
    (h : writeBlockUndo undo hash u writable = some undo') : undo' = undo.record hash u := by
  unfold writeBlockUndo at h
  unfold UndoStore.record
  cases hg : undo.get hash with
  | some v =>
    rw [hg] at h
    cases h
    rfl
  | none =>
    rw [hg] at h
    simp only at h
    split at h
    · cases h
      rfl
    · cases h

/-- the end of `ConnectBlock` keeps the base; what it leaves of a block that is not connected is
only the loaded accumulator -/
theorem commitBlock_spec {vtxundo : List CTxUndo}
    (h : commitBlock M H s undo block pos view vtxundo writable just update = out) :
    out.view.base = view.base ∧
      (out.verdict ≠ .valid ∨ just = true → out.coins = s ∧ out.undo = undo) ∧
      (out.verdict = .valid → just = false → out.view = view.setBestBlock pos.hash ∧
        out.coins = (if update then { s with
          m_utxo_muhash := commitTxs M H pos.nHeight block.vtx vtxundo s.m_utxo_muhash } else s) ∧
        out.undo = undo.record pos.hash ⟨vtxundo⟩) := by
  unfold commitBlock at h
  split at h
  · rename_i hjust
    subst h
    exact ⟨rfl, fun _ => ⟨rfl, rfl⟩, fun _ hf => absurd (hf.symm.trans hjust) (by simp)⟩
  · rename_i hjust
    split at h
    · subst h
      exact ⟨rfl, fun _ => ⟨rfl, rfl⟩, fun hv => by cases hv⟩
    · rename_i undo' hundo
      subst h
      refine ⟨rfl, ?_, fun _ _ => ⟨rfl, rfl, writeBlockUndo_eq_some hundo⟩⟩
      rintro (hv | hj)
      · exact absurd rfl hv
      · exact absurd hj hjust

theorem connectContents_cases {pprev : Uint256}
    (h : connectContents M H rules s undo m block pos pprev view writable just update = .ok out) :
    ∃ r, connectTransactions H rules m pos pprev block view = .ok r ∧
      ((out.verdict ≠ .valid ∧ out.coins = s ∧ out.undo = undo ∧
          SameStack r.2.view.base out.view.base) ∨
        (r.1 = none ∧ checkReward rules pos block r = .ok (none, r.2) ∧
          ∃ base, SameStack r.2.view.base base ∧
          commitBlock M H s undo block pos { r.2.view with base := base } r.2.vtxundo writable just
            update = out)) := by
  obtain ⟨r, htxs, h⟩ := bind_eq_ok.mp h
  obtain ⟨⟨e, st⟩, hreward, h⟩ := bind_eq_ok.mp h
  refine ⟨r, htxs, ?_⟩
  obtain ⟨hst, hnone⟩ := checkReward_spec hreward
  obtain rfl : st = r.2 := hst
  cases e with
  | some e =>
    cases h
    exact .inl ⟨by simp, rfl, rfl, SameStack.refl _⟩
  | none =>
    obtain ⟨⟨v, base⟩, hvalidate, h⟩ := bind_eq_ok.mp h
    have hb := validateUTXOCheckpoint_base hvalidate
    cases v with
    | error e =>
      cases h
      exact .inl ⟨by simp, rfl, rfl, hb⟩
    | ok u =>
      exact .inr ⟨hnone rfl, hreward, backend base, hb, pure_eq_ok.mp h⟩

section
variable (h : connectBlock M H rules s undo m block pos view writable just update = .ok out)
include h

theorem connectBlock_cases :
    (out.verdict ≠ .valid ∧ out.coins = s.ensureUTXOMuHashLoaded M ∧ out.undo = undo ∧
        out.view = view) ∨
      (pos.hash = H.blockHash block.toCBlockHeader ∧
        checkBlock H rules block (!just) (!just) = .ok () ∧
        pos.pprev.getD Uint256.zero = view.getBestBlock ∧
        ((pos.hash = rules.hashGenesisBlock ∧
            out = ⟨.valid, s.ensureUTXOMuHashLoaded M,
              if just then view.loadBestBlock else view.loadBestBlock.setBestBlock pos.hash, undo⟩) ∨
          (pos.hash ≠ rules.hashGenesisBlock ∧ ∃ pprev, pos.pprev = some pprev ∧
            connectContents M H rules (s.ensureUTXOMuHashLoaded M) undo m block pos pprev
              view.loadBestBlock writable just update = .ok out))) := by
  unfold connectBlock at h
  rw [ite_throw_eq_ok] at h
  obtain ⟨hhash, h⟩ := h
  split at h
  · cases h
    exact .inl ⟨by simp, rfl, rfl, rfl⟩
  · cases h
    exact .inl ⟨by simp, rfl, rfl, rfl⟩
  · rename_i hcheck
    rw [ite_throw_eq_ok] at h
    obtain ⟨hprev, h⟩ := h
    refine .inr ⟨not_not.mp hhash, hcheck, not_not.mp hprev, ?_⟩
    split at h
    · rename_i hgenesis
      exact .inl ⟨hgenesis, (pure_eq_ok.mp h).symm⟩
    · rename_i hgenesis
      split at h
      · cases h
      · rename_i pprev hpprev
        exact .inr ⟨hgenesis, pprev, hpprev, h⟩

theorem connectBlock_base : SameStack view.base out.view.base := by
  have hload := loadBestBlock_base view
  obtain ⟨-, -, -, hview⟩ | ⟨-, -, -, ⟨-, hout⟩ | ⟨-, pprev, -, hcontents⟩⟩ := connectBlock_cases h
  · rw [hview]
    exact SameStack.refl _
  · rw [hout]
    cases just <;> exact hload
  · obtain ⟨r, htxs, ⟨-, -, -, hb⟩ | ⟨-, -, base, hb, hcommit⟩⟩ := connectContents_cases hcontents
    · exact hload.trans ((connectTransactions_base htxs).trans hb)
    · rw [(commitBlock_spec hcommit).1]
      exact hload.trans ((connectTransactions_base htxs).trans hb)

theorem connectBlock_idle (hidle : out.verdict ≠ .valid ∨ just = true) :
    out.coins = s.ensureUTXOMuHashLoaded M ∧ out.undo = undo := by
  obtain ⟨-, hcoins, hundo, -⟩ | ⟨-, -, -, ⟨-, hout⟩ | ⟨-, pprev, -, hcontents⟩⟩ :=
    connectBlock_cases h
  · exact ⟨hcoins, hundo⟩
  · rw [hout]
    exact ⟨rfl, rfl⟩
  · obtain ⟨r, -, ⟨-, hcoins, hundo, -⟩ | ⟨-, -, base, -, hcommit⟩⟩ := connectContents_cases hcontents
    · exact ⟨hcoins, hundo⟩
    · exact (commitBlock_spec hcommit).2.1 hidle

end

/-- what a valid block leaves of the view, the accumulator and the undo file -/
structure ConnectedTo (M : MuHash G) (H : Hashes) (rules : BlockRules) (s : CoinsState G)
    (undo : UndoStore) (block : CBlock) (pos : BlockPlace) (m : Utxos) (out : Connected G) : Prop where
  ok : out.view.Ok
  block_hash : out.view.m_block_hash = pos.hash
  effect : (pos.hash = rules.hashGenesisBlock ∧ out.view.utxos = m ∧
      out.coins = s.ensureUTXOMuHashLoaded M ∧ out.undo = undo) ∨
    (pos.hash ≠ rules.hashGenesisBlock ∧ (∃ pprev, pos.pprev = some pprev) ∧
      Applies H pos.nHeight block m ∧ out.view.utxos = applyTxs H pos.nHeight block.vtx m ∧
      out.coins = { s.ensureUTXOMuHashLoaded M with
        m_utxo_muhash := commitTxs M H pos.nHeight block.vtx (blockUndo H pos.nHeight block m).vtxundo
          (s.ensureUTXOMuHashLoaded M).m_utxo_muhash } ∧
      out.undo = undo.record pos.hash (blockUndo H pos.nHeight block m))

theorem connectBlock_valid (hv : view.Ok) (hempty : view.cacheCoins = FMap.empty)
    (hbip : ∀ pprev, pos.pprev = some pprev → enforceBIP30 rules m pos pprev = true)
    (h : connectBlock M H rules s undo m block pos view writable false true = .ok out)
    (hvalid : out.verdict = .valid) : ConnectedTo M H rules s undo block pos view.utxos out := by
  obtain ⟨hok, hut, hcache⟩ := loadBestBlock_spec hv
  obtain ⟨hnot, -⟩ | ⟨-, hcheck, -, ⟨hgenesis, hout⟩ | ⟨hgenesis, pprev, hpprev, hcontents⟩⟩ :=
    connectBlock_cases h
  · exact absurd hvalid hnot
  · obtain ⟨hok', hut'⟩ := setBestBlock_spec hok pos.hash
    subst hout
    exact ⟨hok', rfl, .inl ⟨hgenesis, hut'.trans hut, rfl, rfl⟩⟩
  · obtain ⟨⟨e, st⟩, htxs, ⟨hnot, -⟩ | ⟨he, -, base, hb, hcommit⟩⟩ := connectContents_cases hcontents
    · exact absurd hvalid hnot
    obtain rfl : e = none := he
    obtain ⟨hsteps, happlies, hundo⟩ := connectTransactions_spec hok (hcache.trans hempty)
      (hbip pprev hpprev) (checkBlock_ok hcheck) htxs
    rw [hut] at hsteps happlies hundo
    have hbase := steps_withBase hsteps.ok hb
    rw [hsteps.utxos] at hbase
    obtain ⟨hview, hcoins, hrecord⟩ := (commitBlock_spec hcommit).2.2 hvalid rfl
    obtain ⟨hok', hut'⟩ := setBestBlock_spec hbase.ok pos.hash
    refine ⟨hview ▸ hok', by rw [hview]; rfl, .inr ⟨hgenesis, ⟨pprev, hpprev⟩, happlies, ?_, ?_, ?_⟩⟩
    · rw [hview, hut', hbase.utxos]
    · rw [← hundo]
      exact hcoins
    · rw [← hundo]
      exact hrecord

end

/-! ## a clean disconnection takes the block back -/

theorem applyTxInUndo_spec {undo : Coin} {o : COutPoint} {r : DisconnectResult × CCoinsViewCache}
    (hc : c.Ok) (hreg : undo.Regular) (h : applyTxInUndo undo c o = .ok r) :
    Steps c r.2 (c.utxos.insert o undo) ∧ r.1 ≠ .DISCONNECT_FAILED ∧
      (r.1 ≠ .DISCONNECT_UNCLEAN → c.peek o = none) := by
  have hf := steps_fetchCoin hc o
  unfold applyTxInUndo undoMetadata at h
  rw [if_neg hreg.height] at h
  obtain ⟨c₁, hadd, h⟩ := bind_eq_ok.mp h
  cases h
  have hnone : c.haveCoin o = false → c.peek o = none := by
    intro hn
    rw [haveCoin_eq] at hn
    simpa using hn
  have hstep := steps_addCoin hf.ok hadd fun how _ => by
    rw [fetchCoin_peek]
    exact hnone (by simpa using how)
  rw [hreg.spendable, hf.utxos] at hstep
  refine ⟨hf.trans hstep, ?_, fun hclean => hnone ?_⟩
  · show (if _ then _ else _) ≠ _
    split <;> simp
  · cases hh : c.haveCoin o with
    | false => rfl
    | true => simp [hh] at hclean

section
variable {G : Type} [CommGroup G] (M : MuHash G) (H : Hashes) {pos : BlockPlace}

/-- a part of `DisconnectBlock` has changed the shown map by `f`, clean or not, and the accumulator
with it if it ends clean -/
structure Unwinds (pos : BlockPlace) (st st' : Unwind G) (f : Utxos → Utxos) : Prop where
  ok : st'.view.Ok
  block_hash : st'.view.m_block_hash = st.view.m_block_hash
  base : SameStack st.view.base st'.view.base
  clean : st'.fClean = true → st.fClean = true
  utxos : st'.view.utxos = f st.view.utxos
  acc : pos.nHeight ≠ 0 → isBIP30Unspendable pos = false → st'.fClean = true →
    st.acc = UTXOMuHashState.ofSet M st.view.utxos → st'.acc = UTXOMuHashState.ofSet M st'.view.utxos

variable {st st' : Unwind G}

theorem Unwinds.refl (h : st.view.Ok) : Unwinds M pos st st id :=
  ⟨h, rfl, SameStack.refl _, id, rfl, fun _ _ _ => id⟩

theorem Unwinds.trans {st'' : Unwind G} {f g : Utxos → Utxos}
    (h : Unwinds M pos st st' f) (h' : Unwinds M pos st' st'' g) : Unwinds M pos st st'' (g ∘ f) := by
  refine ⟨h'.ok, h'.block_hash.trans h.block_hash, h.base.trans h'.base,
    fun hc => h.clean (h'.clean hc), ?_, fun hh hbip hc hacc => ?_⟩
  · rw [h'.utxos, h.utxos]
    rfl
  · exact h'.acc hh hbip hc (h.acc hh hbip (h'.clean hc) hacc)

theorem undoOutput_spec {is_coinbase : Bool} {o : COutPoint} {out : CTxOut} (hv : st.view.Ok) :
    Unwinds M pos st (undoOutput M pos true is_coinbase o out st) (FMap.erase o) := by
  unfold undoOutput
  cases hsp : st.view.spendCoin o with
  | mk r c =>
    obtain ⟨hok, hut, hhash, hb, hsome, hnone⟩ := spendCoin_spec hv hsp
    refine ⟨hok, hhash, hb, fun hc => (Bool.and_eq_true_iff.mp hc).1, hut, fun hh hbip hc hacc => ?_⟩
    have hm := (Bool.and_eq_true_iff.mp hc).2
    rw [hbip, Bool.and_false] at hm
    -- an output that matches was shown: the empty coin of a spent entry has height zero
    obtain ⟨coin, rfl, hget⟩ : ∃ coin, r = some coin ∧ st.view.utxos.get o = some coin := by
      cases hp : st.view.peek o with
      | some coin => exact ⟨coin, hsome coin hp, by rw [utxos_get, hp]⟩
      | none =>
        rcases hnone hp with rfl | rfl
        · cases hm
        · simp [outputMatches, Coin.empty, hh] at hm
    show st.acc.removeCoin M o coin = _
    rw [hut, UTXOMuHashState.ofSet_erase M hget, hacc]

theorem undoOutputs_spec (is_coinbase : Bool) (txid : Uint256) (o : Nat) (outs : List CTxOut)
    (hv : st.view.Ok) :
    Unwinds M pos st (undoOutputs M pos true is_coinbase txid o outs st) (uncreateFrom txid o outs) := by
  induction outs generalizing o st with
  | nil => exact Unwinds.refl M hv
  | cons out outs ih =>
    have hstep : Unwinds M pos st (if isUnspendable out.scriptPubKey then st
        else undoOutput M pos true is_coinbase ⟨txid, o⟩ out st)
        (fun m => if isUnspendable out.scriptPubKey then m else m.erase ⟨txid, o⟩) := by
      cases isUnspendable out.scriptPubKey with
      | true => exact Unwinds.refl M hv
      | false => exact undoOutput_spec M hv
    exact hstep.trans M (ih (o + 1) hstep.ok)

theorem restored_spec {undo : Coin} {o : COutPoint} {r : DisconnectResult × CCoinsViewCache}
    (hv : st.view.Ok) (hreg : undo.Regular) (h : applyTxInUndo undo st.view o = .ok r) :
    Unwinds M pos st (restored M true o r.2 r.1 st) (fun m => m.insert o undo) := by
  obtain ⟨hstep, -, hclean⟩ := applyTxInUndo_spec hv hreg h
  have hf := steps_fetchCoin hstep.ok o
  rw [hstep.utxos] at hf
  have hall := hstep.trans hf
  refine ⟨hall.ok, hall.block_hash, hall.base, fun hc => (Bool.and_eq_true_iff.mp hc).1,
    hall.utxos, fun _ _ hc hacc => ?_⟩
  have hnone : st.view.utxos.get o = none := by
    rw [utxos_get]
    refine hclean fun he => ?_
    have := (Bool.and_eq_true_iff.mp hc).2
    rw [he] at this
    cases this
  have hcoin : r.2.accessCoin o = undo := by
    rw [accessCoin_eq hstep.ok, ← utxos_get, hstep.utxos, FMap.insert_get_self, Option.getD_some]
  show st.acc.addCoin M o (r.2.accessCoin o) = UTXOMuHashState.ofSet M (r.2.fetchCoin o).utxos
  rw [hcoin, hall.utxos, UTXOMuHashState.ofSet_insert M hnone, hacc]

theorem undoInputs_spec {inputs : List (CTxIn × Coin)} {r : Bool × Unwind G} (hv : st.view.Ok)
    (hreg : ∀ e ∈ inputs, e.2.Regular) (h : undoInputs M true inputs st = .ok r) :
    Unwinds M pos st r.2 (unspendAll inputs) := by
  induction inputs generalizing st with
  | nil =>
    cases h
    exact Unwinds.refl M hv
  | cons e inputs ih =>
    obtain ⟨⟨res, c⟩, h₁, h⟩ := bind_eq_ok.mp h
    have hundo := hreg _ mem_cons_self
    have hstep : Unwinds M pos st _ _ := restored_spec M hv hundo h₁
    have hnot : res ≠ .DISCONNECT_FAILED := (applyTxInUndo_spec hv hundo h₁).2.1
    have hrest := fun e he => hreg e (mem_cons_of_mem _ he)
    cases res with
    | DISCONNECT_FAILED => exact absurd rfl hnot
    | DISCONNECT_OK => exact hstep.trans M (ih hstep.ok hrest h)
    | DISCONNECT_UNCLEAN => exact hstep.trans M (ih hstep.ok hrest h)

/-- the undo record of a transaction holds regular coins -/
def RegularUndo (txundo : Option CTxUndo) : Prop :=
  ∀ u, txundo = some u → ∀ coin ∈ u.vprevout, coin.Regular

theorem undoTx_spec {tx : CTransaction} {txundo : Option CTxUndo} (hv : st.view.Ok)
    (hreg : RegularUndo txundo) (h : undoTx M H pos true tx txundo st = .ok (true, st')) :
    Unwinds M pos st st' (fun m => unapplyTx H m tx txundo) := by
  have hout : Unwinds M pos st _ _ := undoOutputs_spec M tx.isCoinBase (H.txid tx) 0 tx.vout hv
  unfold undoTx at h
  cases txundo with
  | none =>
    cases h
    exact hout
  | some u =>
    simp only at h
    split at h
    · cases h
    · refine hout.trans M (undoInputs_spec M hout.ok (fun e he => ?_) h)
      have hmem := mem_reverse.mp he
      exact hreg u rfl e.2 (of_mem_zip (Prod.mk.eta (p := e) ▸ hmem)).2

theorem undoTxs_spec {txs : List UndoneTx} (hv : st.view.Ok)
    (hreg : ∀ e ∈ txs, RegularUndo e.2) (h : undoTxs M H pos true txs st = .ok (true, st')) :
    Unwinds M pos st st' (unapplyTxs H txs) := by
  induction txs generalizing st with
  | nil =>
    cases h
    exact Unwinds.refl M hv
  | cons e txs ih =>
    obtain ⟨⟨ok, st₁⟩, h₁, h⟩ := bind_eq_ok.mp h
    cases ok with
    | false => cases h
    | true =>
      have hstep := undoTx_spec M H hv (hreg _ mem_cons_self) h₁
      exact hstep.trans M (ih hstep.ok (fun e he => hreg e (mem_cons_of_mem _ he)) h)

def UndoStore.Regular (undo : UndoStore) : Prop :=
  ∀ h bu, undo.get h = some bu → ∀ u ∈ bu.vtxundo, ∀ coin ∈ u.vprevout, coin.Regular

theorem UndoStore.Regular.unwindOrder {undo : UndoStore} (hreg : undo.Regular) {h : Uint256}
    {bu : CBlockUndo} (hbu : undo.get h = some bu) (block : CBlock) :
    ∀ e ∈ unwindOrder block bu, RegularUndo e.2 := by
  rintro ⟨tx, txundo⟩ he u hu
  have hmem := (of_mem_zip (mem_reverse.mp he)).2
  obtain rfl : txundo = some u := hu
  rcases mem_cons.mp hmem with hnone | hsome
  · cases hnone
  · obtain ⟨u', hu', he'⟩ := mem_map.mp hsome
    cases he'
    exact hreg h bu hbu u hu'

theorem disconnectBlock_ok {s : CoinsState G} {undo : UndoStore} {block : CBlock}
    {out : Disconnected G} (hv : view.Ok) (hh : pos.nHeight ≠ 0)
    (hbip : isBIP30Unspendable pos = false) (hreg : undo.Regular)
    (h : disconnectBlock M H s undo block pos view true = .ok out) (hok : out.result = .DISCONNECT_OK) :
    ∃ bu pprev acc, undo.get pos.hash = some bu ∧ pos.pprev = some pprev ∧
      out.coins = { s.ensureUTXOMuHashLoaded M with m_utxo_muhash := acc } ∧ out.view.Ok ∧
      out.view.m_block_hash = pprev ∧ SameStack view.base out.view.base ∧
      out.view.utxos = unapplyTxs H (unwindOrder block bu) view.utxos ∧
      ((s.ensureUTXOMuHashLoaded M).m_utxo_muhash = UTXOMuHashState.ofSet M view.utxos →
        acc = UTXOMuHashState.ofSet M out.view.utxos) := by
  unfold disconnectBlock at h
  split at h
  · cases h
    cases hok
  · rename_i bu hbu
    split at h
    · cases h
      cases hok
    · obtain ⟨⟨done, st⟩, htxs, h⟩ := bind_eq_ok.mp h
      unfold finishDisconnect at h
      cases done with
      | false =>
        cases h
        cases hok
      | true =>
        have hu := undoTxs_spec M H hv (hreg.unwindOrder hbu block) htxs
        simp only [Bool.not_true, Bool.false_eq_true, if_false] at h
        split at h
        · cases h
        · rename_i pprev hpprev
          cases h
          have hclean : st.fClean = true := by
            cases hc : st.fClean with
            | true => rfl
            | false => simp [hc] at hok
          obtain ⟨hok', hut'⟩ := setBestBlock_spec hu.ok pprev
          refine ⟨bu, pprev, st.acc, hbu, hpprev, rfl, hok', rfl, hu.base,
            hut'.trans hu.utxos, fun hacc => ?_⟩
          exact hu.acc hh hbip hclean hacc

end

end ElektronNet
