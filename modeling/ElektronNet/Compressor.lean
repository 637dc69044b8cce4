import ElektronNet.Lib.VarInt
import ElektronNet.SnapshotLoad

/-!
# The compact form of a coin

`compressor.h`, `compressor.cpp` and the serialisation of `Coin` in `coins.h`: the form in which a
coin stands in the coins database and in a snapshot file.

* `compressAmount`, `decompressAmount`   an amount without its trailing zeros
* `compressScript`, `decompressScript`   the six special forms of a script
* `writeCoin`, `readCoin`                a whole coin, and `coinCodec` for the snapshot loader
* `readCoin_writeCoin`                   a coin in range is read back as it was

The curve is not modelled: `PubKeys` says which keys `secp256k1` takes for points, and what the
uncompressed form of a compressed key is.
-/

namespace ElektronNet

open List

def OP_DUP : UInt8 := 0x76
def OP_EQUAL : UInt8 := 0x87
def OP_EQUALVERIFY : UInt8 := 0x88
def OP_HASH160 : UInt8 := 0xa9
def OP_CHECKSIG : UInt8 := 0xac

/-! ## amounts -/

/-- `n` without its trailing zeros, of which at most `left` are taken, and their number -/
def stripTens : Nat → Nat → Nat × Nat
  | 0, n => (n, 0)
  | left + 1, n =>
    if n % 10 = 0 then ((stripTens left (n / 10)).1, (stripTens left (n / 10)).2 + 1) else (n, 0)

def compressAmount (n : Nat) : Nat :=
  if n = 0 then 0
  else
    let (n, e) := stripTens 9 n
    if e < 9 then (1 + (n / 10 * 9 + n % 10 - 1) * 10 + e) % 2 ^ 64
    else (1 + (n - 1) * 10 + 9) % 2 ^ 64

def decompressAmount (x : Nat) : Nat :=
  if x = 0 then 0
  else
    let e := (x - 1) % 10
    let x := (x - 1) / 10
    (if e < 9 then x / 9 * 10 + (x % 9 + 1) else x + 1) * 10 ^ e % 2 ^ 64

/-- the conversion of a `uint64_t` to a `CAmount` -/
def toAmount (n : Nat) : CAmount := if n < 2 ^ 63 then n else (n : Int) - 2 ^ 64

variable {n : Nat} {K : PubKeys} {script : CScript}

theorem stripTens_spec (left : Nat) (hn : n ≠ 0) :
    (stripTens left n).1 * 10 ^ (stripTens left n).2 = n ∧ (stripTens left n).2 ≤ left ∧
      ((stripTens left n).2 < left → (stripTens left n).1 % 10 ≠ 0) ∧ (stripTens left n).1 ≠ 0 := by
  induction left generalizing n with
  | zero => exact ⟨by simp [stripTens], Nat.le_refl _, fun h => absurd h (by simp [stripTens]), hn⟩
  | succ left ih =>
    rw [stripTens]
    split
    · rename_i hzero
      obtain ⟨hval, hle, hdigit, hpos⟩ := ih (n := n / 10) (by omega)
      rw [pow_succ, ← Nat.mul_assoc, hval]
      omega
    · rename_i hdigit
      exact ⟨by simp, by simp, fun _ => hdigit, hn⟩

theorem decompressAmount_compressAmount (h : (n : Int) ≤ MAX_MONEY) :
    decompressAmount (compressAmount n) = n := by
  have hmax : n ≤ 2100000000000000 := by
    have : MAX_MONEY = 2100000000000000 := by decide
    rw [this] at h
    exact_mod_cast h
  by_cases hn : n = 0
  · subst hn
    rfl
  · obtain ⟨hval, hle, hdigit, hpos⟩ := stripTens_spec 9 hn
    rw [compressAmount, if_neg hn]
    generalize stripTens 9 n = r at hval hle hdigit hpos
    obtain ⟨k, e⟩ := r
    simp only at hval hle hdigit hpos ⊢
    have hk : k ≤ n := by
      rw [← hval]
      exact Nat.le_mul_of_pos_right k (by positivity)
    have hmod : k * 10 ^ e % 2 ^ 64 = n := by rw [hval, Nat.mod_eq_of_lt (by omega)]
    split
    · rename_i he
      have hsmall : (1 + (k / 10 * 9 + k % 10 - 1) * 10 + e) % 2 ^ 64 =
          1 + (k / 10 * 9 + k % 10 - 1) * 10 + e := Nat.mod_eq_of_lt (by omega)
      have he' : (1 + (k / 10 * 9 + k % 10 - 1) * 10 + e - 1) % 10 = e := by omega
      have hx : (1 + (k / 10 * 9 + k % 10 - 1) * 10 + e - 1) / 10 = k / 10 * 9 + (k % 10 - 1) := by omega
      have hback : (k / 10 * 9 + (k % 10 - 1)) / 9 * 10 + ((k / 10 * 9 + (k % 10 - 1)) % 9 + 1) = k := by
        omega
      rw [hsmall, decompressAmount, if_neg (by omega)]
      simp only [he', hx, if_pos he, hback]
      exact hmod
    · rename_i he
      obtain rfl : e = 9 := by omega
      have hsmall : (1 + (k - 1) * 10 + 9) % 2 ^ 64 = 1 + (k - 1) * 10 + 9 :=
        Nat.mod_eq_of_lt (by omega)
      have he' : (1 + (k - 1) * 10 + 9 - 1) % 10 = 9 := by omega
      have hx : (1 + (k - 1) * 10 + 9 - 1) / 10 = k - 1 := by omega
      have hback : k - 1 + 1 = k := by omega
      rw [hsmall, decompressAmount, if_neg (by omega)]
      simp only [he', hx, if_neg (Nat.lt_irrefl 9), hback]
      exact hmod

/-! ## scripts -/

/-- what `secp256k1` says about public keys -/
structure PubKeys where
  /-- `CPubKey::IsFullyValid` -/
  isFullyValid : Bytes → Bool
  /-- `CPubKey::Decompress` -/
  decompress : Bytes → Option Bytes
  /-- a point is found again from its first coordinate and the parity of the second -/
  decompress_valid : ∀ pubkey, isFullyValid pubkey = true → pubkey.length = 65 →
    pubkey.head? = some 0x04 →
    decompress ((if pubkey.getLastD 0 &&& 1 = 1 then 0x03 else 0x02) :: (pubkey.drop 1).take 32) =
      some pubkey

def isToKeyID (script : CScript) : Option Bytes :=
  if script.length = 25 ∧ script.take 3 = [OP_DUP, OP_HASH160, 20] ∧
      script.drop 23 = [OP_EQUALVERIFY, OP_CHECKSIG] then some ((script.drop 3).take 20)
  else none

def isToScriptID (script : CScript) : Option Bytes :=
  if script.length = 23 ∧ script.take 2 = [OP_HASH160, 20] ∧ script.drop 22 = [OP_EQUAL] then
    some ((script.drop 2).take 20)
  else none

def isToCompressedPubKey (script : CScript) : Option Bytes :=
  if script.length = 35 ∧ script.take 1 = [33] ∧ script.drop 34 = [OP_CHECKSIG] ∧
      (script.getD 1 0 = 0x02 ∨ script.getD 1 0 = 0x03) then some ((script.drop 1).take 33)
  else none

section
variable (K : PubKeys)

/-- an uncompressed key, which has to be a point of the curve -/
def isToUncompressedPubKey (script : CScript) : Option Bytes :=
  if script.length = 67 ∧ script.take 1 = [65] ∧ script.drop 66 = [OP_CHECKSIG] ∧
      script.getD 1 0 = 0x04 ∧ K.isFullyValid ((script.drop 1).take 65) = true then
    some ((script.drop 1).take 65)
  else none

/-- `IsToPubKey` has two forms, which are tried in turn -/
def compressScript (script : CScript) : Option Bytes :=
  match isToKeyID script with
  | some keyID => some (0x00 :: keyID)
  | none =>
    match isToScriptID script with
    | some scriptID => some (0x01 :: scriptID)
    | none =>
      match isToCompressedPubKey script with
      | some pubkey => some (pubkey.getD 0 0 :: (pubkey.drop 1).take 32)
      | none =>
        match isToUncompressedPubKey K script with
        | some pubkey => some ((0x04 ||| (pubkey.getD 64 0 &&& 0x01)) :: (pubkey.drop 1).take 32)
        | none => none

def getSpecialScriptSize (nSize : Nat) : Nat :=
  if nSize = 0 ∨ nSize = 1 then 20
  else if nSize = 2 ∨ nSize = 3 ∨ nSize = 4 ∨ nSize = 5 then 32
  else 0

/-- `none`: it returns false and leaves the script as it is -/
def decompressScript (nSize : Nat) (vch : Bytes) : Option CScript :=
  if nSize = 0 then some ([OP_DUP, OP_HASH160, 20] ++ vch ++ [OP_EQUALVERIFY, OP_CHECKSIG])
  else if nSize = 1 then some ([OP_HASH160, 20] ++ vch ++ [OP_EQUAL])
  else if nSize = 2 ∨ nSize = 3 then some ([33, UInt8.ofNat nSize] ++ vch ++ [OP_CHECKSIG])
  else if nSize = 4 ∨ nSize = 5 then
    match K.decompress (UInt8.ofNat (nSize - 2) :: vch) with
    | none => none
    | some pubkey => some ([65] ++ pubkey ++ [OP_CHECKSIG])
  else none

def nSpecialScripts : Nat := 6

def writeScript (script : CScript) : Bytes :=
  match compressScript K script with
  | some compr => compr
  | none => VarInt.write (script.length + nSpecialScripts) ++ script

def readBytes (n : Nat) : Reader Bytes := fun file =>
  if n ≤ file.length then some (file.take n, file.drop n) else none

/-- an overlong script is skipped and becomes an unspendable one -/
def readScript : Reader CScript := fun file =>
  match VarInt.read (2 ^ 32 - 1) file with
  | none => none
  | some (nSize, file) =>
    if nSize < nSpecialScripts then
      match readBytes (getSpecialScriptSize nSize) file with
      | none => none
      | some (vch, file) => some ((decompressScript K nSize vch).getD [], file)
    else
      match readBytes (nSize - nSpecialScripts) file with
      | none => none
      | some (script, file) =>
        some (if nSize - nSpecialScripts > MAX_SCRIPT_SIZE then [OP_RETURN] else script, file)

/-! ## coins -/

def writeCoin (coin : Coin) : Bytes :=
  VarInt.write ((coin.nHeight * 2 + coin.fCoinBase.toNat) % 2 ^ 32) ++
    (VarInt.write (compressAmount (coin.out.nValue % 2 ^ 64).toNat) ++
      writeScript K coin.out.scriptPubKey)

def readCoin : Reader Coin := fun file =>
  match VarInt.read (2 ^ 32 - 1) file with
  | none => none
  | some (code, file) =>
    match VarInt.read (2 ^ 64 - 1) file with
    | none => none
    | some (v, file) =>
      match readScript K file with
      | none => none
      | some (script, file) =>
        some (⟨⟨toAmount (decompressAmount v), script⟩, decide (code % 2 = 1), code / 2⟩, file)

end

theorem readBytes_length {file bytes rest : Bytes} (h : readBytes n file = some (bytes, rest)) :
    rest.length ≤ file.length := by
  unfold readBytes at h
  split at h
  · cases h
    rw [length_drop]
    omega
  · cases h

theorem readBytes_append {bytes : Bytes} (rest : Bytes) (h : bytes.length = n) :
    readBytes n (bytes ++ rest) = some (bytes, rest) := by
  subst h
  rw [readBytes, if_pos (by rw [length_append]; omega), take_left, drop_left]

theorem readScript_length {file rest : Bytes} (h : readScript K file = some (script, rest)) :
    rest.length ≤ file.length := by
  unfold readScript at h
  split at h
  · cases h
  · rename_i nSize file' hsize
    have hlt := VarInt.read_length hsize
    split at h
    · split at h
      · cases h
      · rename_i vch file'' hbytes
        cases h
        have := readBytes_length hbytes
        omega
    · split at h
      · cases h
      · rename_i vch file'' hbytes
        cases h
        have := readBytes_length hbytes
        omega

theorem readCoin_length (file : Bytes) (coin : Coin) (rest : Bytes)
    (h : readCoin K file = some (coin, rest)) : rest.length ≤ file.length := by
  unfold readCoin at h
  split at h
  · cases h
  · rename_i code file₁ hcode
    split at h
    · cases h
    · rename_i v file₂ hv
      split at h
      · cases h
      · rename_i script file₃ hscript
        cases h
        have h₁ := VarInt.read_length hcode
        have h₂ := VarInt.read_length hv
        have h₃ := readScript_length hscript
        omega

def coinCodec (K : PubKeys) : CoinCodec := ⟨readCoin K, readCoin_length⟩

/-! ## reading back -/

theorem take_drop_pieces {a b : Nat} {front back : Bytes} (hfront : script.take a = front)
    (hback : script.drop (a + b) = back) : front ++ (script.drop a).take b ++ back = script := by
  rw [← hfront, ← hback, append_assoc, ← drop_drop, take_append_drop,
    take_append_drop]

theorem slice_length {a b : Nat} (h : a + b ≤ script.length) : ((script.drop a).take b).length = b := by
  rw [length_take, length_drop]
  omega

theorem readScript_special (nSize : Nat) {vch : Bytes} (rest : Bytes)
    (hsize : nSize < nSpecialScripts) (hlen : vch.length = getSpecialScriptSize nSize)
    (hscript : decompressScript K nSize vch = some script) :
    readScript K (UInt8.ofNat nSize :: (vch ++ rest)) = some (script, rest) := by
  have hsize' : nSize < 6 := hsize
  have hwrite : VarInt.write nSize = [UInt8.ofNat nSize] := by
    rw [VarInt.write, if_pos (by omega), Nat.mod_eq_of_lt (by omega)]
    rfl
  have hread := VarInt.read_write (2 ^ 32 - 1) (vch ++ rest) (n := nSize) (by omega)
  rw [hwrite, singleton_append] at hread
  rw [readScript, hread]
  simp only [if_pos hsize, readBytes_append rest hlen, hscript, Option.getD_some]

theorem readScript_keyID {keyID : Bytes} (rest : Bytes) (h : isToKeyID script = some keyID) :
    readScript K (0x00 :: keyID ++ rest) = some (script, rest) := by
  rw [isToKeyID, Option.ite_none_right_eq_some] at h
  obtain ⟨⟨hlen, hfront, hback⟩, h⟩ := h
  cases h
  refine readScript_special 0 rest (by decide) (slice_length (by omega)) ?_
  rw [decompressScript, if_pos rfl, take_drop_pieces hfront hback]

theorem readScript_scriptID {scriptID : Bytes} (rest : Bytes) (h : isToScriptID script = some scriptID) :
    readScript K (0x01 :: scriptID ++ rest) = some (script, rest) := by
  rw [isToScriptID, Option.ite_none_right_eq_some] at h
  obtain ⟨⟨hlen, hfront, hback⟩, h⟩ := h
  cases h
  refine readScript_special 1 rest (by decide) (slice_length (by omega)) ?_
  rw [decompressScript, if_neg (by decide), if_pos rfl, take_drop_pieces hfront hback]

theorem pushed_key {size head : UInt8} (hlen : script.length = n + 3)
    (hfront : script.take 1 = [size]) (hhead : script.getD 1 0 = head)
    (hback : script.drop (n + 2) = [OP_CHECKSIG]) :
    (script.drop 1).take (n + 1) = head :: (script.drop 2).take n ∧
      [size] ++ (head :: (script.drop 2).take n) ++ [OP_CHECKSIG] = script := by
  have hkey : (script.drop 1).take (n + 1) = head :: (script.drop 2).take n := by
    match script, hlen with
    | a :: b :: s, _ =>
      obtain rfl : b = head := by simpa using hhead
      rfl
  refine ⟨hkey, ?_⟩
  rw [← hkey]
  exact take_drop_pieces hfront (by rw [Nat.add_comm 1 (n + 1)]; exact hback)

theorem readScript_compressedPubKey {pubkey : Bytes} (rest : Bytes)
    (h : isToCompressedPubKey script = some pubkey) :
    readScript K (pubkey.getD 0 0 :: (pubkey.drop 1).take 32 ++ rest) = some (script, rest) := by
  rw [isToCompressedPubKey, Option.ite_none_right_eq_some] at h
  obtain ⟨⟨hlen, hfront, hback, hhead⟩, h⟩ := h
  cases h
  obtain ⟨hkey, hscript⟩ := pushed_key (n := 32) hlen hfront rfl hback
  have hlen' : ((script.drop 2).take 32).length = 32 := slice_length (by omega)
  rw [hkey, drop_one, tail_cons, take_of_length_le hlen'.le]
  obtain ⟨nSize, hn, hsize⟩ : ∃ nSize, (nSize = 2 ∨ nSize = 3) ∧
      script.getD 1 0 = UInt8.ofNat nSize := by
    rcases hhead with h2 | h3
    · exact ⟨2, .inl rfl, h2⟩
    · exact ⟨3, .inr rfl, h3⟩
  have hspecial : getSpecialScriptSize nSize = 32 := by rcases hn with rfl | rfl <;> rfl
  rw [hsize] at hscript ⊢
  refine readScript_special nSize rest (by rw [nSpecialScripts]; omega) (hlen'.trans hspecial.symm) ?_
  rw [decompressScript, if_neg (by omega), if_neg (by omega), if_pos hn]
  exact congrArg some hscript

theorem readScript_uncompressedPubKey {pubkey : Bytes} (rest : Bytes)
    (h : isToUncompressedPubKey K script = some pubkey) :
    readScript K ((0x04 ||| (pubkey.getD 64 0 &&& 0x01)) :: (pubkey.drop 1).take 32 ++ rest) =
      some (script, rest) := by
  rw [isToUncompressedPubKey, Option.ite_none_right_eq_some] at h
  obtain ⟨⟨hlen, hfront, hback, hhead, hvalid⟩, h⟩ := h
  cases h
  obtain ⟨hkey, hscript⟩ := pushed_key (n := 64) hlen hfront hhead hback
  have hpklen : ((script.drop 1).take 65).length = 65 := slice_length (by omega)
  generalize (script.drop 1).take 65 = pubkey at hkey hvalid hpklen ⊢
  rw [← hkey] at hscript
  have hdec := K.decompress_valid pubkey hvalid hpklen (by rw [hkey]; rfl)
  have hlast : pubkey.getD 64 0 = pubkey.getLastD 0 := by
    rw [getLastD_eq_getLast?, getLast?_eq_getElem?, hpklen]
    rfl
  have hlen' : ((pubkey.drop 1).take 32).length = 32 := slice_length (by omega)
  -- the parity of the second coordinate is the low bit of the first byte
  obtain ⟨nSize, hn, hsize, hlead⟩ : ∃ nSize, (nSize = 4 ∨ nSize = 5) ∧
      0x04 ||| (pubkey.getD 64 0 &&& 0x01) = UInt8.ofNat nSize ∧
      (if pubkey.getLastD 0 &&& 1 = 1 then 0x03 else 0x02) = UInt8.ofNat (nSize - 2) := by
    rw [hlast]
    have hbit : pubkey.getLastD 0 &&& 1 = 1 ∨ pubkey.getLastD 0 &&& 1 = 0 := by
      have hmod : (pubkey.getLastD 0 &&& 1).toNat = (pubkey.getLastD 0).toNat % 2 := by
        exact Nat.and_one_is_mod _
      rcases Nat.mod_two_eq_zero_or_one (pubkey.getLastD 0).toNat with h0 | h1
      · exact .inr (UInt8.toNat_inj.mp (by rw [hmod, h0]; rfl))
      · exact .inl (UInt8.toNat_inj.mp (by rw [hmod, h1]; rfl))
    rcases hbit with h1 | h0
    · exact ⟨5, .inr rfl, by rw [h1]; rfl, by rw [if_pos h1]; rfl⟩
    · exact ⟨4, .inl rfl, by rw [h0]; rfl, by rw [h0]; rfl⟩
  have hspecial : getSpecialScriptSize nSize = 32 := by rcases hn with rfl | rfl <;> rfl
  rw [hlead] at hdec
  rw [hsize]
  refine readScript_special nSize rest (by rw [nSpecialScripts]; omega) (hlen'.trans hspecial.symm) ?_
  rw [decompressScript, if_neg (by omega), if_neg (by omega), if_neg (by omega), if_pos hn, hdec]
  exact congrArg some hscript

theorem readScript_writeScript (K : PubKeys) (rest : Bytes) (h : script.length ≤ MAX_SCRIPT_SIZE) :
    readScript K (writeScript K script ++ rest) = some (script, rest) := by
  have hmax : MAX_SCRIPT_SIZE = 10000 := rfl
  rw [writeScript, compressScript]
  cases hkey : isToKeyID script with
  | some keyID => exact readScript_keyID rest hkey
  | none =>
    cases hid : isToScriptID script with
    | some scriptID => exact readScript_scriptID rest hid
    | none =>
      cases hcompressed : isToCompressedPubKey script with
      | some pubkey => exact readScript_compressedPubKey rest hcompressed
      | none =>
        cases huncompressed : isToUncompressedPubKey K script with
        | some pubkey => exact readScript_uncompressedPubKey rest huncompressed
        | none =>
          have hread := VarInt.read_write (2 ^ 32 - 1) (script ++ rest)
            (n := script.length + nSpecialScripts) (by rw [nSpecialScripts]; omega)
          simp only [append_assoc, readScript, hread]
          rw [if_neg (by omega), Nat.add_sub_cancel, readBytes_append rest rfl]
          simp only [if_neg (Nat.not_lt.mpr h)]

/-- what a coin has to be so that its compact form can be read -/
structure Coin.Storable (coin : Coin) : Prop where
  value : moneyRange coin.out.nValue = true
  script : coin.out.scriptPubKey.length ≤ MAX_SCRIPT_SIZE
  height : coin.nHeight < 2 ^ 31

theorem Coin.Storable.amount {coin : Coin} (h : coin.Storable) :
    compressAmount (coin.out.nValue % 2 ^ 64).toNat ≤ 2 ^ 64 - 1 ∧
      toAmount (decompressAmount (compressAmount (coin.out.nValue % 2 ^ 64).toNat)) =
        coin.out.nValue := by
  obtain ⟨hv₀, hv₁⟩ := (moneyRange_iff _).mp h.value
  have hmoney : MAX_MONEY = 2100000000000000 := by decide
  obtain ⟨v, hv⟩ : ∃ v : Nat, coin.out.nValue = v := ⟨coin.out.nValue.toNat, (Int.toNat_of_nonneg hv₀).symm⟩
  have hv₂ : v ≤ 2100000000000000 := by
    rw [hv, hmoney] at hv₁
    exact_mod_cast hv₁
  have hmod : (coin.out.nValue % 2 ^ 64).toNat = v := by
    rw [hv]
    omega
  rw [hmod]
  constructor
  · unfold compressAmount
    split
    · omega
    · split
      split <;> omega
  · rw [decompressAmount_compressAmount (by rw [← hv]; exact hv₁), toAmount, if_pos (by omega), hv]

/-- the height and the flag in one number -/
theorem Coin.Storable.code {coin : Coin} (h : coin.Storable) :
    (coin.nHeight * 2 + coin.fCoinBase.toNat) % 2 ^ 32 = coin.nHeight * 2 + coin.fCoinBase.toNat ∧
      coin.nHeight * 2 + coin.fCoinBase.toNat ≤ 2 ^ 32 - 1 ∧
      decide ((coin.nHeight * 2 + coin.fCoinBase.toNat) % 2 = 1) = coin.fCoinBase ∧
      (coin.nHeight * 2 + coin.fCoinBase.toNat) / 2 = coin.nHeight := by
  have hheight := h.height
  have hcb : coin.fCoinBase.toNat ≤ 1 := Bool.toNat_le coin.fCoinBase
  refine ⟨Nat.mod_eq_of_lt (by omega), by omega, ?_, by omega⟩
  cases coin.fCoinBase <;> simp

theorem readCoin_writeCoin (K : PubKeys) {coin : Coin} (rest : Bytes) (h : coin.Storable) :
    readCoin K (writeCoin K coin ++ rest) = some (coin, rest) := by
  obtain ⟨hcompr, hamount⟩ := h.amount
  obtain ⟨hcode, hmax, hflag, hhalf⟩ := h.code
  rw [writeCoin, hcode, append_assoc, append_assoc, readCoin, VarInt.read_write _ _ hmax]
  simp only [VarInt.read_write _ _ hcompr, readScript_writeScript K rest h.script, hamount, hflag, hhalf]

/-! ## undo records -/

/-- `TxInUndoFormatter::Ser`: a zero stands where older versions had the version of the transaction -/
def writeTxInUndo (K : PubKeys) (txout : Coin) : Bytes :=
  VarInt.write ((txout.nHeight * 2 + txout.fCoinBase.toNat) % 2 ^ 32) ++
    ((if txout.nHeight > 0 then [0] else []) ++
      (VarInt.write (compressAmount (txout.out.nValue % 2 ^ 64).toNat) ++
        writeScript K txout.out.scriptPubKey))

def readTxInUndo (K : PubKeys) : Reader Coin := fun file =>
  match VarInt.read (2 ^ 32 - 1) file with
  | none => none
  | some (nCode, file) =>
    match (if nCode / 2 > 0 then VarInt.read (2 ^ 32 - 1) file else some (0, file)) with
    | none => none
    | some (_, file) =>
      match VarInt.read (2 ^ 64 - 1) file with
      | none => none
      | some (v, file) =>
        match readScript K file with
        | none => none
        | some (script, file) =>
          some (⟨⟨toAmount (decompressAmount v), script⟩, decide (nCode % 2 = 1), nCode / 2⟩, file)

theorem readTxInUndo_writeTxInUndo (K : PubKeys) {coin : Coin} (rest : Bytes) (h : coin.Storable) :
    readTxInUndo K (writeTxInUndo K coin ++ rest) = some (coin, rest) := by
  obtain ⟨hcompr, hamount⟩ := h.amount
  obtain ⟨hcode, hmax, hflag, hhalf⟩ := h.code
  -- the dummy is there if and only if it is read
  have hdummy : ∀ tail : Bytes, (if coin.nHeight > 0 then
      VarInt.read (2 ^ 32 - 1) ((if coin.nHeight > 0 then [0] else []) ++ tail)
      else some (0, (if coin.nHeight > 0 then [0] else []) ++ tail)) = some (0, tail) := by
    intro tail
    split
    · exact VarInt.read_write _ tail (Nat.zero_le _)
    · rfl
  rw [writeTxInUndo, hcode, append_assoc, append_assoc, append_assoc, readTxInUndo,
    VarInt.read_write _ _ hmax]
  simp only [hhalf, hdummy, VarInt.read_write _ _ hcompr, readScript_writeScript K rest h.script,
    hamount, hflag]

/-- **A coin is read back from either form, whatever follows, so no two coins share one.** -/
theorem coin_forms_exact (K : PubKeys) {coin : Coin} (h : coin.Storable) :
    (∀ rest, readCoin K (writeCoin K coin ++ rest) = some (coin, rest)) ∧
    (∀ rest, readTxInUndo K (writeTxInUndo K coin ++ rest) = some (coin, rest)) ∧
    ∀ coin' : Coin, coin'.Storable → coin' ≠ coin →
      writeCoin K coin' ≠ writeCoin K coin ∧ writeTxInUndo K coin' ≠ writeTxInUndo K coin := by
  refine ⟨fun rest => readCoin_writeCoin K rest h, fun rest => readTxInUndo_writeTxInUndo K rest h,
    fun coin' h' hne => ⟨fun heq => ?_, fun heq => ?_⟩⟩
  · have hback := readCoin_writeCoin K [] h'
    rw [heq, readCoin_writeCoin K [] h] at hback
    exact hne (congrArg Prod.fst (Option.some.inj hback)).symm
  · have hback := readTxInUndo_writeTxInUndo K [] h'
    rw [heq, readTxInUndo_writeTxInUndo K [] h] at hback
    exact hne (congrArg Prod.fst (Option.some.inj hback)).symm

def samplePubKeys : PubKeys := ⟨fun _ => false, fun _ => none, fun _ h => by cases h⟩

/-- a reward that is paid to a script hash at height 7 -/
def sampleReward : Coin := ⟨⟨5000000000, OP_HASH160 :: 20 :: (replicate 20 3 ++ [OP_EQUAL])⟩, true, 7⟩

theorem coin_forms_exact_reward : sampleReward.Storable ∧
    readTxInUndo samplePubKeys (writeTxInUndo samplePubKeys sampleReward ++ [1]) =
      some (sampleReward, [1]) := by
  have hstorable : sampleReward.Storable := ⟨by decide, by decide, by decide⟩
  exact ⟨hstorable, (coin_forms_exact samplePubKeys hstorable).2.1 [1]⟩

end ElektronNet
