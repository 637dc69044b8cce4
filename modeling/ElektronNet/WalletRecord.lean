import ElektronNet.SnapshotWrite
import ElektronNet.Wallet

/-!
# What is left of a recovered coin after a restart

`SerializeTransaction` and `UnserializeTransaction` of `primitives/transaction.h`, with witnesses allowed, as
`CWalletTx` uses them.  An empty list of inputs is the mark of the extended format, in which a byte of flags
follows.

* `serializeTransaction`, `unserializeTransaction`   the two of them
* `survives_iff`         a transaction without inputs is read back iff it has no outputs either
* `reload_iff`           so the record of a recovered coin never is

In a record other fields follow; they are any bytes here.
-/

namespace ElektronNet

open LittleEndian Option

/-! ## the format -/

def readMany {α : Type} (read : Reader α) : Nat → Reader (List α)
  | 0 => fun file => some ([], file)
  | n + 1 => fun file => do
    let (a, file) ← read file
    let (l, file) ← readMany read n file
    return (a :: l, file)

def readVector {α : Type} (read : Reader α) : Reader (List α) := fun file => do
  let (n, file) ← readCompactSize file
  readMany read n file

def readByteVector : Reader Bytes := fun file => do
  let (n, file) ← readCompactSize file
  readBytes n file

def readTxIn : Reader CTxIn := fun file => do
  let (hash, file) ← readUint256 file
  let (n, file) ← readNumber 4 file
  let (scriptSig, file) ← readByteVector file
  let (nSequence, file) ← readNumber 4 file
  return (⟨⟨hash, n⟩, scriptSig, nSequence, []⟩, file)

def readTxOut : Reader CTxOut := fun file => do
  let (n, file) ← readNumber 8 file
  let (scriptPubKey, file) ← readByteVector file
  return (⟨if n < 2 ^ 63 then n else n - 2 ^ 64, scriptPubKey⟩, file)

def readWitnesses : List CTxIn → Reader (List CTxIn)
  | [], file => some ([], file)
  | txin :: vin, file => do
    let (stack, file) ← readVector readByteVector file
    let (vin, file) ← readWitnesses vin file
    return ({ txin with scriptWitness := stack } :: vin, file)

/-- the witnesses, which the lowest flag announces, and the flags that are left -/
def readFlagged (flags : Nat) (vin : List CTxIn) : Reader (Nat × List CTxIn) := fun file =>
  if flags % 2 = 1 then do
    let (vin, file) ← readWitnesses vin file
    -- "Superfluous witness record"
    if vin.all fun txin => txin.scriptWitness.isEmpty then none
    else some ((flags - 1, vin), file)
  else some ((flags, vin), file)

/-- the end of a transaction, from the witnesses on -/
def readEnd (version flags : Nat) (vin : List CTxIn) (vout : List CTxOut) :
    Reader CTransaction := fun file => do
  let ((flags, vin), file) ← readFlagged flags vin file
  -- "Unknown transaction optional data"
  if flags ≠ 0 then none
  else do
    let (nLockTime, file) ← readNumber 4 file
    return (⟨vin, vout, version, nLockTime⟩, file)

def unserializeTransaction : Reader CTransaction := fun file => do
  let (version, file) ← readNumber 4 file
  let (vin, file) ← readVector readTxIn file
  if vin = [] then do
    let (flags, file) ← readNumber 1 file
    if flags ≠ 0 then do
      let (vin, file) ← readVector readTxIn file
      let (vout, file) ← readVector readTxOut file
      readEnd version flags vin vout file
    else readEnd version 0 [] [] file
  else do
    let (vout, file) ← readVector readTxOut file
    readEnd version 0 vin vout file

def writeVector {α : Type} (write : α → Bytes) (l : List α) : Bytes :=
  writeCompactSize l.length ++ l.flatMap write

def writeByteVector (script : Bytes) : Bytes := writeCompactSize script.length ++ script

def writeTxIn (txin : CTxIn) : Bytes :=
  txin.prevout.hash.data ++ (fixed 4 txin.prevout.n ++
    (writeByteVector txin.scriptSig ++ fixed 4 txin.nSequence))

def writeTxOut (out : CTxOut) : Bytes :=
  fixed 8 (out.nValue % 2 ^ 64).toNat ++ writeByteVector out.scriptPubKey

def serializeTransaction (tx : CTransaction) : Bytes :=
  fixed 4 tx.version ++ ((if tx.hasWitness then [0, 1] else []) ++ (writeVector writeTxIn tx.vin ++
    (writeVector writeTxOut tx.vout ++ ((if tx.hasWitness then
      tx.vin.flatMap fun txin => writeVector writeByteVector txin.scriptWitness else []) ++
        fixed 4 tx.nLockTime))))

/-! ## without inputs -/

/-- the transaction is read back from a record that starts with it -/
def Survives (tx : CTransaction) (rest : Bytes) : Prop :=
  ∃ rest', unserializeTransaction (serializeTransaction tx ++ rest) = some (tx, rest')

theorem readEnd_vin {version flags : Nat} {vin : List CTxIn} {vout : List CTxOut} {file rest : Bytes}
    {tx : CTransaction} (hflags : flags ≠ 0) (h : readEnd version flags vin vout file = some (tx, rest)) :
    tx.vin ≠ [] := by
  obtain ⟨⟨⟨flags', vin'⟩, file'⟩, hwitness, h⟩ := bind_eq_some_iff.mp h
  dsimp only at h
  split at h
  · cases h
  rename_i hzero
  obtain ⟨⟨nLockTime, file''⟩, -, h⟩ := bind_eq_some_iff.mp h
  cases h
  unfold readFlagged at hwitness
  split at hwitness
  · obtain ⟨⟨vin'', file''⟩, -, hwitness⟩ := bind_eq_some_iff.mp hwitness
    dsimp only at hwitness
    split at hwitness
    · cases hwitness
    · rename_i hany
      cases hwitness
      rintro rfl
      exact hany rfl
  · cases hwitness
    exact absurd hflags hzero

theorem writeCompactSize_cons {n : Nat} (h : n ≠ 0) : ∃ b l, writeCompactSize n = b :: l ∧ b.toNat ≠ 0 := by
  unfold writeCompactSize
  split
  · refine ⟨_, _, rfl, ?_⟩
    rw [UInt8.toNat_ofNat']
    omega
  split
  · exact ⟨_, _, rfl, by decide⟩
  split <;> exact ⟨_, _, rfl, by decide⟩

/-- **A transaction without inputs is read back iff it has no outputs**: the number of its outputs is taken
for flags. -/
theorem survives_iff {tx : CTransaction} (hvin : tx.vin = []) (hversion : tx.version < 256 ^ 4)
    (hlock : tx.nLockTime < 256 ^ 4) (rest : Bytes) : Survives tx rest ↔ tx.vout = [] := by
  have hwitness : tx.hasWitness = false := by rw [CTransaction.hasWitness, hvin]; rfl
  have hbytes : serializeTransaction tx ++ rest = fixed 4 tx.version ++ (0 ::
      (writeVector writeTxOut tx.vout ++ (fixed 4 tx.nLockTime ++ rest))) := by
    rw [serializeTransaction, hwitness, hvin]
    simp [writeVector, writeCompactSize]
  have hread : unserializeTransaction (serializeTransaction tx ++ rest) =
      (readNumber 1 (writeVector writeTxOut tx.vout ++ (fixed 4 tx.nLockTime ++ rest))).bind fun p =>
        if p.1 ≠ 0 then (readVector readTxIn p.2).bind fun q =>
          (readVector readTxOut q.2).bind fun r => readEnd tx.version p.1 q.1 r.1 r.2
        else readEnd tx.version 0 [] [] p.2 := by
    rw [hbytes, unserializeTransaction, readNumber_fixed _ hversion]
    rfl
  constructor
  · rintro ⟨rest', h⟩
    by_contra hvout
    obtain ⟨b, l, hsize, hb⟩ := writeCompactSize_cons (mt List.length_eq_zero_iff.mp hvout)
    have hflags : ∀ file, readNumber 1 (b :: file) = some (b.toNat, file) := fun file => by
      simp [readNumber, value]
    rw [hread, writeVector, hsize, List.cons_append, List.cons_append, hflags, bind_some,
      if_pos hb] at h
    obtain ⟨q, -, h⟩ := bind_eq_some_iff.mp h
    obtain ⟨r, -, h⟩ := bind_eq_some_iff.mp h
    exact readEnd_vin hb h hvin
  · intro hvout
    obtain ⟨vin, vout, version, nLockTime⟩ := tx
    cases hvin
    cases hvout
    have hend : readEnd version 0 [] [] (fixed 4 nLockTime ++ rest) =
        some (⟨[], [], version, nLockTime⟩, rest) := by
      simp [readEnd, readFlagged, readNumber_fixed _ hlock]
    exact ⟨rest, hread.trans hend⟩

/-! ## a recovered coin -/

section
variable (H : Hashes) (isMine : CScript → Bool) (getBlockHash : Nat → Option Uint256)
  (writeTx : CWalletTx → Bool)

theorem credited_alone {w w' : CWallet} {r : Bool} (hempty : w.mapWallet = FMap.empty) {outpoint : COutPoint}
    {coin : Coin} (h : creditUTXOFromChain H isMine getBlockHash writeTx w outpoint coin = .ok (r, w')) :
    isMine coin.out.scriptPubKey = false ∧ w' = w ∨ isMine coin.out.scriptPubKey = true ∧
      ∃ key wtx, w'.mapWallet = FMap.empty.insert key wtx ∧
        wtx.tx = ⟨[], placeOutput [] outpoint.n coin.out, CTransaction.CURRENT_VERSION, 0⟩ := by
  unfold creditUTXOFromChain addToWallet at h
  simp only [hempty, FMap.empty_get] at h
  split at h
  · rename_i hmine
    cases h
    exact .inl ⟨by simpa using hmine, rfl⟩
  rename_i hmine
  refine .inr ⟨by simpa using hmine, ?_⟩
  split at h
  · cases h
  split at h
  all_goals
    cases h
    exact ⟨_, _, rfl, rfl⟩

/-- **The records survive a restart iff nothing was credited**, whatever stands behind them: a recovered coin
has a transaction without inputs and with the outputs up to its own. -/
theorem reload_iff {w w' : CWallet} {r : Bool} (hempty : w.mapWallet = FMap.empty) (outpoint : COutPoint)
    (coin : Coin) (h : creditUTXOFromChain H isMine getBlockHash writeTx w outpoint coin = .ok (r, w'))
    (rest : Bytes) : (∀ key wtx, w'.mapWallet.get key = some wtx → Survives wtx.tx rest) ↔
      isMine coin.out.scriptPubKey = false := by
  obtain ⟨hmine, rfl⟩ | ⟨hmine, key, wtx, hmap, htx⟩ := credited_alone H isMine getBlockHash writeTx hempty h
  · refine iff_of_true (fun key wtx hwtx => ?_) hmine
    rw [hempty] at hwtx
    cases hwtx
  · refine iff_of_false (fun hall => ?_) (by simp [hmine])
    have hsurvives := hall key wtx (by rw [hmap, FMap.insert_get_self])
    rw [htx] at hsurvives
    have hversion : CTransaction.CURRENT_VERSION < 256 ^ 4 := by decide
    have hvout := congrArg List.length ((survives_iff rfl hversion (Nat.pow_pos (by decide)) _).mp hsurvives)
    simp [placeOutput] at hvout

end

def creditReward : Except Fault (Bool × CWallet) :=
  creditUTXOFromChain sampleHashes (· == [OP_1]) (fun h => some (Uint256.ofByte (UInt8.ofNat h)))
    (fun _ => true) emptyWallet ⟨Uint256.ofByte 1, 0⟩ ⟨⟨5, [OP_1]⟩, true, 1⟩

theorem reload_iff_reward : ∃ w', creditReward = .ok (true, w') ∧ ∀ rest,
    ¬ ∀ key wtx, w'.mapWallet.get key = some wtx → Survives wtx.tx rest := by
  refine ⟨_, rfl, fun rest h => ?_⟩
  have hcredit : creditReward = .ok (true, _) := rfl
  exact absurd ((reload_iff _ _ _ _ rfl _ _ hcredit rest).mp h) (by decide)

/-- the single output makes the flags 1, and its value the number of inputs -/
theorem credited_reward_lost : ∃ w' wtx, creditReward = .ok (true, w') ∧
    w'.mapWallet.get Uint256.zero = some wtx ∧
    unserializeTransaction (serializeTransaction wtx.tx) = none :=
  ⟨_, _, rfl, rfl, by decide⟩

end ElektronNet
