import ElektronNet.Bech32

/-!
# Payout addresses of the Python miner

`address_to_scriptpubkey` of `mining/miner.py` with the functions that it calls.

* `Said`                     what a Python function prints, and what it returns or raises
* `Bech32Text`               a string that has the form of a bech32 address, whatever its checksum
* `bech32Parts_eq_some_iff`  exactly those are taken apart
* `segwitScript_ok_iff`      a script comes out for some lengths of the data only, the padded bits counted in
* `payout_address_iff`       the addresses that are decoded, and the mistyped ones that are not refused
* `payout_address_wrong`     a taproot address is refused, and an address with a wrong checksum is used

The characters of a string are ASCII wherever it matters: any other one is refused by both decoders.
-/

namespace ElektronNet

open List

/-- an exception is a `ValueError` with its text -/
structure Said (α : Type) where
  printed : List String
  result : Except String α

/-! ## strings -/

def lower (s : List Char) : List Char := s.map Char.toLower

def upper (s : List Char) : List Char := s.map Char.toUpper

def rfind (c : Char) : List Char → Option Nat
  | [] => none
  | x :: s =>
    match rfind c s with
    | some pos => some (pos + 1)
    | none => if x = c then some 0 else none

variable {c : Char} {s addr : List Char} {data : List Nat}

theorem rfind_eq_none_iff : rfind c s = none ↔ c ∉ s := by
  induction s with
  | nil => simp [rfind]
  | cons x s ih =>
    rw [rfind, mem_cons, not_or]
    cases h : rfind c s with
    | some pos =>
      rw [h] at ih
      simp only [reduceCtorEq, false_iff, not_and, not_not]
      intro _
      by_contra hno
      cases ih.mpr hno
    | none =>
      have hno := ih.mp h
      by_cases hx : x = c
      · simp [hx]
      · simp [hx, hno, Ne.symm hx]

theorem rfind_append {a b : List Char} (hb : c ∉ b) : rfind c (a ++ c :: b) = some a.length := by
  induction a with
  | nil =>
    rw [nil_append, rfind, rfind_eq_none_iff.mpr hb]
    simp
  | cons x a ih =>
    rw [cons_append, rfind, ih]
    rfl

theorem exists_of_rfind {pos : Nat} (h : rfind c s = some pos) :
    ∃ a b, s = a ++ c :: b ∧ a.length = pos ∧ c ∉ b := by
  induction s generalizing pos with
  | nil => cases h
  | cons x s ih =>
    rw [rfind] at h
    cases hs : rfind c s with
    | some p =>
      rw [hs] at h
      cases h
      obtain ⟨a, b, rfl, rfl, hb⟩ := ih hs
      exact ⟨x :: a, b, rfl, rfl, hb⟩
    | none =>
      rw [hs] at h
      dsimp only at h
      split at h
      · rename_i hx
        cases h
        exact ⟨[], s, by rw [hx]; rfl, rfl, rfind_eq_none_iff.mp hs⟩
      · cases h

/-! ## bech32 -/

def BECH32_CHARSET : List Char := "qpzry9x8gf2tvdw0s3jn54khce6mua7l".toList

def charsetFind (c : Char) : Option Nat := BECH32_CHARSET.idxOf? c

def bech32Polymod (values : List Nat) : Nat :=
  polymod [0x3b6a57b2, 0x26508e6d, 0x1ea119fa, 0x3d4233dd, 0x2a1462b3] values

def bech32HrpExpand (hrp : List Char) : List Nat :=
  hrp.map (fun x => x.toNat >>> 5) ++ [0] ++ hrp.map fun x => x.toNat &&& 31

/-- `0` for bech32, `1` for bech32m, `-1` if it is neither -/
def bech32VerifyChecksum (hrp : List Char) (data : List Nat) : Int :=
  if bech32Polymod (bech32HrpExpand hrp ++ data) = 1 then 0
  else if bech32Polymod (bech32HrpExpand hrp ++ data) = 0x2bc830a3 then 1
  else -1

def bech32ConvertBits (data : List Nat) (from_bits to_bits : Nat) (pad : Bool) : Option (List Nat) :=
  if data.any fun value => value >>> from_bits != 0 then none
  else some (Regroup.regroup from_bits to_bits pad data)

/-- `_bech32_decode`, up to the checksum -/
def bech32Parts (bech : List Char) : Option (List Char × List Nat) :=
  if bech.any fun x => x.toNat < 33 || x.toNat > 126 then none
  else if lower bech ≠ bech ∧ upper bech ≠ bech then none
  else
    match rfind '1' (lower bech) with
    | none => none
    | some pos =>
      if pos < 1 ∨ pos + 7 > (lower bech).length then none
      else
        match ((lower bech).drop (pos + 1)).mapM charsetFind with
        | none => none
        | some data => some ((lower bech).take pos, data)

/-- the human-readable part, the data without the checksum, and whether the checksum is one of the two -/
def bech32Decode (bech : List Char) : Option (List Char × List Nat × Bool) :=
  (bech32Parts bech).map fun p =>
    (p.1, p.2.take (p.2.length - 6), decide (bech32VerifyChecksum p.1 p.2 ≥ 0))

/-! ## base58 -/

def BASE58_ALPHABET : List Char := "123456789ABCDEFGHJKLMNPQRSTUVWXYZabcdefghijkmnopqrstuvwxyz".toList

def numberBytes (num : Nat) : Bytes := (LittleEndian.digits num).reverse

def base58Decode (s : List Char) : Except String Bytes :=
  match s.mapM fun c => BASE58_ALPHABET.idxOf? c with
  | none => .error "substring not found"
  | some indices =>
    let num := indices.foldl (fun num i => num * 58 + i) 0
    .ok (List.replicate (s.takeWhile (· == '1')).length 0 ++ numberBytes num)

/-! ## address_to_scriptpubkey -/

/-- `program[-1] >>= 8 - last_byte_bits` -/
def shiftLast (program : List Nat) (last_byte_bits : Nat) : List Nat :=
  if last_byte_bits ≠ 0 then
    program.dropLast ++ [program.getLastD 0 >>> (8 - last_byte_bits)]
  else program

def programScript (addr : List Char) (witness_version : Nat) (witness_program : Bytes) :
    Except String Bytes :=
  if witness_version = 0 ∧ witness_program.length = 20 then .ok ([0x00, 0x14] ++ witness_program)
  else if witness_version = 0 ∧ witness_program.length = 32 then .ok ([0x00, 0x20] ++ witness_program)
  else if witness_version = 1 ∧ witness_program.length = 32 then .ok ([0x51, 0x20] ++ witness_program)
  else .error ("Unsupported address type: " ++ String.ofList addr)

/-- from the data of a bech32 address on -/
def segwitScript (addr : List Char) : List Nat → Except String Bytes
  | [] => .error ("Invalid bech32 address (no data): " ++ String.ofList addr)
  | witness_version :: program_chars =>
    match bech32ConvertBits program_chars 5 8 true with
    | none => .error ("Invalid bech32 address (convert failed): " ++ String.ofList addr)
    | some program =>
      programScript addr witness_version
        ((shiftLast program (program_chars.length * 5 % 8)).map UInt8.ofNat)

def base58Script (addr : List Char) : Except String Bytes :=
  match base58Decode addr with
  | .error e => .error e
  | .ok decoded =>
    if decoded.length ≠ 25 then
      .error ("Invalid base58 address length: " ++ toString decoded.length)
    else if decoded.getD 0 0 = 0x00 ∨ decoded.getD 0 0 = 0x6f then
      .ok ([0x76, 0xa9, 0x14] ++ (decoded.drop 1).take 20 ++ [0x88, 0xac])
    else if decoded.getD 0 0 = 0x05 ∨ decoded.getD 0 0 = 0xc4 then
      .ok ([0xa9, 0x14] ++ (decoded.drop 1).take 20 ++ [0x87])
    else .error ("Unsupported address type: " ++ String.ofList addr)

/-- the string is taken for a bech32 address -/
def looksSegwit (addr : List Char) : Bool :=
  ['b', 'e', '1'].isPrefixOf (lower addr) || ['t', 'b', '1'].isPrefixOf (lower addr) ||
    ['b', 'c', 'r', 't', '1'].isPrefixOf (lower addr)

def addressToScriptPubKey (addr : List Char) : Said Bytes :=
  if looksSegwit addr then
    match bech32Decode addr with
    | none => ⟨[], .error ("Invalid bech32 address: " ++ String.ofList addr)⟩
    | some (_, data, checksum_valid) =>
      { printed := if checksum_valid then []
          else ["WARNING: bech32 checksum mismatch for " ++ String.ofList addr ++ " — using anyway"]
        result := segwitScript addr data }
  else ⟨[], base58Script addr⟩

/-! ## the form of an address -/

/-- `hrp`, a `1` and the characters of `data`, in one case -/
structure Bech32Text (addr hrp : List Char) (data : List Nat) : Prop where
  visible : ∀ c ∈ addr, 33 ≤ c.toNat ∧ c.toNat ≤ 126
  one_case : lower addr = addr ∨ upper addr = addr
  text : lower addr = hrp ++ '1' :: data.map Bech32.charOf
  hrp_ne : hrp ≠ []
  checksum : 6 ≤ data.length
  small : ∀ d ∈ data, d < 32

theorem charOf_facts : ∀ d < 32, charsetFind (Bech32.charOf d) = some d ∧ Bech32.charOf d ≠ '1' ∧
    (Bech32.charOf d).toLower = Bech32.charOf d ∧ 33 ≤ (Bech32.charOf d).toNat ∧
      (Bech32.charOf d).toNat ≤ 126 := by
  decide

theorem charsetFind_eq_some_iff {d : Nat} : charsetFind c = some d ↔ d < 32 ∧ Bech32.charOf d = c := by
  constructor
  · intro h
    have hmem : c ∈ BECH32_CHARSET := by
      by_contra hno
      rw [charsetFind, idxOf?_eq_none_iff.mpr hno] at h
      cases h
    have hall : (BECH32_CHARSET.all fun c => (List.range 32).any (Bech32.charOf · == c)) = true := by
      decide
    obtain ⟨d', hd', hc⟩ := any_eq_true.mp (all_eq_true.mp hall c hmem)
    obtain rfl := eq_of_beq hc
    have hd' := mem_range.mp hd'
    rw [(charOf_facts d' hd').1] at h
    cases h
    exact ⟨hd', rfl⟩
  · rintro ⟨hd, rfl⟩
    exact (charOf_facts d hd).1

theorem mapM_charsetFind :
    s.mapM charsetFind = some data ↔ s = data.map Bech32.charOf ∧ ∀ d ∈ data, d < 32 := by
  induction s generalizing data with
  | nil =>
    constructor
    · intro h
      cases h
      exact ⟨rfl, fun d hd => by cases hd⟩
    · rintro ⟨h, -⟩
      rw [map_eq_nil_iff.mp h.symm]
      rfl
  | cons c s ih =>
    rw [mapM_cons]
    constructor
    · intro h
      obtain ⟨d, hd, h⟩ := Option.bind_eq_some_iff.mp h
      obtain ⟨rest, hrest, h⟩ := Option.bind_eq_some_iff.mp h
      cases h
      obtain ⟨hlt, rfl⟩ := charsetFind_eq_some_iff.mp hd
      obtain ⟨rfl, hsmall⟩ := ih.mp hrest
      exact ⟨rfl, fun x hx => (mem_cons.mp hx).elim (fun he => he ▸ hlt) (hsmall x)⟩
    · rintro ⟨h, hsmall⟩
      cases data with
      | nil => cases h
      | cons d data =>
        obtain ⟨rfl, rfl⟩ := List.cons.inj h
        rw [charsetFind_eq_some_iff.mpr ⟨hsmall d mem_cons_self, rfl⟩,
          ih.mpr ⟨rfl, fun x hx => hsmall x (mem_cons_of_mem _ hx)⟩]
        rfl

theorem separator_not_mem (h : ∀ d ∈ data, d < 32) : '1' ∉ data.map Bech32.charOf := by
  intro hmem
  obtain ⟨d, hd, hone⟩ := mem_map.mp hmem
  exact (charOf_facts d (h d hd)).2.1 hone

theorem bech32Parts_eq_some_iff {hrp : List Char} :
    bech32Parts addr = some (hrp, data) ↔ Bech32Text addr hrp data := by
  have hvisible : (addr.any fun x => x.toNat < 33 || x.toNat > 126) = false ↔
      ∀ c ∈ addr, 33 ≤ c.toNat ∧ c.toNat ≤ 126 := by
    simp only [any_eq_false, Bool.or_eq_true, decide_eq_true_eq, not_or, not_lt]
  constructor
  · intro h
    unfold bech32Parts at h
    split at h
    · cases h
    rename_i hchars
    split at h
    · cases h
    rename_i hcase
    split at h
    · cases h
    rename_i pos hpos
    split at h
    · cases h
    rename_i hlen
    split at h
    · cases h
    rename_i data' hdata
    cases h
    obtain ⟨a, b, hsplit, rfl, -⟩ := exists_of_rfind hpos
    have htake : (lower addr).take a.length = a := by rw [hsplit, take_left]
    have hdrop : (lower addr).drop (a.length + 1) = b := by
      rw [hsplit, ← drop_drop, drop_left]
      rfl
    rw [hdrop] at hdata
    obtain ⟨rfl, hsmall⟩ := mapM_charsetFind.mp hdata
    have hlength : (lower addr).length = a.length + (data.length + 1) := by
      rw [hsplit, length_append, length_cons, length_map]
    rw [htake]
    refine ⟨hvisible.mp (by simpa using hchars), ?_, hsplit, ?_, by omega, hsmall⟩
    · by_contra hno
      rw [not_or] at hno
      exact hcase hno
    · rintro rfl
      exact hlen (.inl (by decide))
  · intro h
    have hpos : rfind '1' (lower addr) = some hrp.length := by
      rw [h.text]
      exact rfind_append (separator_not_mem h.small)
    have hlength : (lower addr).length = hrp.length + (data.length + 1) := by
      rw [h.text, length_append, length_cons, length_map]
    have hhrp := length_pos_iff.mpr h.hrp_ne
    have hchecksum := h.checksum
    have hdrop : (lower addr).drop (hrp.length + 1) = data.map Bech32.charOf := by
      rw [h.text, ← drop_drop, drop_left]
      rfl
    unfold bech32Parts
    rw [hvisible.mpr h.visible, if_neg (by decide), if_neg (fun hno => h.one_case.elim hno.1 hno.2), hpos]
    dsimp only
    rw [if_neg (by omega), hdrop, mapM_charsetFind.mpr ⟨rfl, h.small⟩]
    rw [h.text, take_left]

/-! ## the lengths that are accepted -/

/-- the payload has a version and a number of characters that make 20 or 32 bytes, incomplete ones
counted in -/
def PayloadFits : List Nat → Prop
  | [] => False
  | witness_version :: program_chars =>
    (witness_version = 0 ∧ (program_chars.length = 31 ∨ program_chars.length = 32)) ∨
      ((witness_version = 0 ∨ witness_version = 1) ∧
        (program_chars.length = 50 ∨ program_chars.length = 51))

theorem convertBits_eq (h : ∀ d ∈ data, d < 32) :
    bech32ConvertBits data 5 8 true = some (Regroup.regroup 5 8 true data) := by
  have hnone : (data.any fun value => value >>> 5 != 0) = false := by
    rw [any_eq_false]
    intro d hd
    rw [Nat.shiftRight_eq_zero d 5 (h d hd)]
    decide
  rw [bech32ConvertBits, hnone, if_neg (by decide)]

theorem length_shiftLast {program : List Nat} {n : Nat} (h : n ≠ 0 → program ≠ []) :
    (shiftLast program n).length = program.length := by
  unfold shiftLast
  split
  · rename_i hn
    have hpos := length_pos_iff.mpr (h hn)
    rw [length_append, length_dropLast, length_singleton]
    omega
  · rfl

/-- the program that is read off the characters -/
def witnessProgram (program_chars : List Nat) : Bytes :=
  (shiftLast (Regroup.regroup 5 8 true program_chars) (program_chars.length * 5 % 8)).map UInt8.ofNat

theorem length_witnessProgram {chars : List Nat} (h : ∀ d ∈ chars, d < 32) :
    (witnessProgram chars).length = (5 * chars.length + 7) / 8 := by
  have hlen := Regroup.length_regroup (f := 5) (w := 8) (by decide) h
  rw [witnessProgram, length_map, length_shiftLast, hlen]
  intro hne hnil
  rw [hnil, length_nil] at hlen
  omega

theorem segwitScript_eq {version : Nat} {chars : List Nat} (h : ∀ d ∈ chars, d < 32) :
    segwitScript addr (version :: chars) = programScript addr version (witnessProgram chars) := by
  rw [segwitScript, convertBits_eq h]
  rfl

theorem segwitScript_ok_iff {payload : List Nat} (h : ∀ d ∈ payload, d < 32) :
    (∃ script, segwitScript addr payload = .ok script) ↔ PayloadFits payload := by
  cases payload with
  | nil =>
    rw [segwitScript, PayloadFits]
    simp
  | cons version chars =>
    have hchars : ∀ d ∈ chars, d < 32 := fun d hd => h d (mem_cons_of_mem _ hd)
    rw [segwitScript_eq hchars, programScript, length_witnessProgram hchars, PayloadFits]
    split
    · rename_i h₁
      exact ⟨fun _ => by omega, fun _ => ⟨_, rfl⟩⟩
    split
    · rename_i h₁ h₂
      exact ⟨fun _ => by omega, fun _ => ⟨_, rfl⟩⟩
    split
    · rename_i h₁ h₂ h₃
      exact ⟨fun _ => by omega, fun _ => ⟨_, rfl⟩⟩
    · rename_i h₁ h₂ h₃
      refine ⟨?_, fun hfits => by omega⟩
      rintro ⟨script, hscript⟩
      cases hscript

/-! ## which strings are accepted -/

def payload (data : List Nat) : List Nat := data.take (data.length - 6)

/-- the checksum is the one of the version: bech32 for version 0, bech32m for the others -/
def ChecksumVerifies (addr : List Char) : Prop :=
  ∃ hrp data version, Bech32Text addr hrp data ∧ (payload data).head? = some version ∧
    Bech32.polyMod (Bech32.preparePolynomialCoefficients hrp data) =
      Bech32.encodingConstant (if version = 0 then .BECH32 else .BECH32M)

/-- the string has the form of an address with a payload of one of the accepted lengths -/
def AddressFits (addr : List Char) : Prop :=
  ∃ hrp data, Bech32Text addr hrp data ∧ PayloadFits (payload data)

theorem addressToScriptPubKey_segwit {hrp : List Char} (hlooks : looksSegwit addr = true)
    (h : Bech32Text addr hrp data) :
    (addressToScriptPubKey addr).result = segwitScript addr (payload data) := by
  rw [addressToScriptPubKey, if_pos hlooks, bech32Decode, bech32Parts_eq_some_iff.mpr h]
  rfl

theorem payload_lt (h : ∀ d ∈ data, d < 32) : ∀ d ∈ payload data, d < 32 :=
  fun d hd => h d (mem_of_mem_take hd)

/-- **the checksum is not looked at** -/
theorem accepted_iff (hlooks : looksSegwit addr = true) :
    (∃ script, (addressToScriptPubKey addr).result = .ok script) ↔ AddressFits addr := by
  cases hparts : bech32Parts addr with
  | none =>
    constructor
    · rintro ⟨script, hscript⟩
      rw [addressToScriptPubKey, if_pos hlooks, bech32Decode, hparts] at hscript
      cases hscript
    · rintro ⟨hrp, data, htext, -⟩
      rw [bech32Parts_eq_some_iff.mpr htext] at hparts
      cases hparts
  | some parts =>
    have htext := bech32Parts_eq_some_iff.mp hparts
    rw [addressToScriptPubKey_segwit hlooks htext, segwitScript_ok_iff (payload_lt htext.small)]
    constructor
    · exact fun hfits => ⟨_, _, htext, hfits⟩
    · rintro ⟨hrp, data, htext', hfits⟩
      rw [bech32Parts_eq_some_iff.mpr htext'] at hparts
      cases hparts
      exact hfits

/-! ## the addresses that are made -/

theorem hrp_facts (chain : ChainType) : chain.bech32_hrp ≠ [] ∧
    (∀ c ∈ chain.bech32_hrp, c.toLower = c ∧ 33 ≤ c.toNat ∧ c.toNat ≤ 126) ∧
    (chain.bech32_hrp.any fun c => 'A' ≤ c && c ≤ 'Z') = false ∧
    ∀ rest, looksSegwit (chain.bech32_hrp ++ '1' :: rest) = true := by
  have hlower : (chain.bech32_hrp.all fun c =>
      decide (c.toLower = c ∧ 33 ≤ c.toNat ∧ c.toNat ≤ 126)) = true := by
    cases chain <;> decide
  refine ⟨?_, fun c hc => of_decide_eq_true (all_eq_true.mp hlower c hc), ?_, ?_⟩
  · cases chain <;> decide
  · cases chain <;> decide
  · cases chain <;> exact fun rest => rfl

theorem values_lt (dest : WitnessDestination) : ∀ d ∈ dest.values, d < 32 := by
  intro d hd
  rcases mem_cons.mp hd with rfl | hd
  · cases dest <;> simp [WitnessDestination.version]
  · refine Regroup.regroup_lt (w := 5) (f := 8) (by decide) (fun x hx => ?_) true d hd
    obtain ⟨b, -, rfl⟩ := mem_map.mp hx
    exact b.toNat_lt

theorem encodeDestination_eq (chain : ChainType) (dest : WitnessDestination) :
    encodeDestination chain dest = .ok (chain.bech32_hrp ++ '1' ::
      (dest.values ++ Bech32.createChecksum dest.encoding chain.bech32_hrp dest.values).map
        Bech32.charOf) := by
  rw [encodeDestination, Bech32.encode, (hrp_facts chain).2.2.1, if_neg (by decide), map_append,
    append_assoc, cons_append]

theorem encodeDestination_text (chain : ChainType) (dest : WitnessDestination) :
    Bech32Text (chain.bech32_hrp ++ '1' :: (dest.values ++
      Bech32.createChecksum dest.encoding chain.bech32_hrp dest.values).map Bech32.charOf)
      chain.bech32_hrp (dest.values ++ Bech32.createChecksum dest.encoding chain.bech32_hrp dest.values) := by
  obtain ⟨hne, hhrp, -, -⟩ := hrp_facts chain
  have hsmall : ∀ d ∈ dest.values ++ Bech32.createChecksum dest.encoding chain.bech32_hrp dest.values,
      d < 32 := by
    intro d hd
    rcases mem_append.mp hd with hd | hd
    · exact values_lt dest d hd
    · exact Bech32.createChecksum_lt d hd
  have hchars : ∀ c ∈ chain.bech32_hrp ++ '1' :: (dest.values ++
      Bech32.createChecksum dest.encoding chain.bech32_hrp dest.values).map Bech32.charOf,
      c.toLower = c ∧ 33 ≤ c.toNat ∧ c.toNat ≤ 126 := by
    intro c hc
    rcases mem_append.mp hc with hc | hc
    · exact hhrp c hc
    rcases mem_cons.mp hc with rfl | hc
    · decide
    · obtain ⟨d, hd, rfl⟩ := mem_map.mp hc
      exact (charOf_facts d (hsmall d hd)).2.2
  have hlower := (map_congr_left fun c hc => (hchars c hc).1).trans (map_id _)
  refine ⟨fun c hc => (hchars c hc).2, .inl hlower, hlower, hne, ?_, hsmall⟩
  rw [length_append]
  exact Nat.le_add_left 6 _

theorem payload_append {l checksum : List Nat} (h : checksum.length = 6) :
    payload (l ++ checksum) = l := by
  rw [payload, length_append, h, Nat.add_sub_cancel, take_left]

theorem addressToScriptPubKey_encoded {chain : ChainType} {dest : WitnessDestination}
    (h : encodeDestination chain dest = .ok addr) :
    (addressToScriptPubKey addr).result = programScript addr dest.version
      (witnessProgram (Regroup.regroup 8 5 true (dest.program.map UInt8.toNat))) := by
  rw [encodeDestination_eq] at h
  cases h
  rw [addressToScriptPubKey_segwit ((hrp_facts chain).2.2.2 _) (encodeDestination_text chain dest),
    payload_append rfl]
  exact segwitScript_eq fun d hd => values_lt dest d (mem_cons_of_mem _ hd)

theorem bytes_lt (l : Bytes) : ∀ d ∈ l.map UInt8.toNat, d < 2 ^ 8 := by
  intro d hd
  obtain ⟨b, -, rfl⟩ := mem_map.mp hd
  exact b.toNat_lt

theorem witnessProgram_twenty {program : Bytes} (h : program.length = 20) :
    witnessProgram (Regroup.regroup 8 5 true (program.map UInt8.toNat)) = program := by
  have hlen := (Regroup.regroup_exact (w := 5) (by decide) (bytes_lt program)
    (by rw [length_map, h]; decide) true).2
  have hback := Regroup.regroup_regroup (w := 5) (by decide) (by decide) (bytes_lt program)
    (by rw [length_map, h]; decide) true true
  have hwhole : (Regroup.regroup 8 5 true (program.map UInt8.toNat)).length * 5 % 8 = 0 := by omega
  rw [witnessProgram, hwhole, shiftLast, if_neg (by decide), hback, map_map]
  exact (map_congr_left fun b _ => UInt8.ofNat_toNat).trans (map_id _)

theorem length_witnessProgram_long {program : Bytes} (h : program.length = 32) :
    (witnessProgram (Regroup.regroup 8 5 true (program.map UInt8.toNat))).length = 33 := by
  rw [length_witnessProgram (Regroup.regroup_lt (by decide) (bytes_lt program) true),
    Regroup.length_regroup (by decide) (bytes_lt program), length_map, h]

theorem programScript_long {version : Nat} {witness_program : Bytes} (h : witness_program.length = 33) :
    programScript addr version witness_program =
      .error ("Unsupported address type: " ++ String.ofList addr) := by
  unfold programScript
  rw [if_neg (by omega), if_neg (by omega), if_neg (by omega)]

theorem programScript_keyHash {id : Bytes} (h : id.length = 20) :
    programScript addr 0 id = .ok (OP_0 :: pushData id) := by
  have hsize : appendDataSize id.length = [0x14] := by
    rw [h]
    rfl
  rw [programScript, if_pos ⟨rfl, h⟩, pushData, hsize]
  rfl

/-- **What the Python miner makes of payout addresses.**  The address of a destination is decoded iff its
program has 20 bytes; a string whose checksum does not verify is refused iff it has not the form of an
address with one of the accepted lengths. -/
theorem payout_address_iff (chain : ChainType) (dest : WitnessDestination) (text : List Char) :
    (∃ addr, encodeDestination chain dest = .ok addr ∧
      ((addressToScriptPubKey addr).result = .ok dest.scriptForDestination ↔ dest.program.length = 20)) ∧
    (looksSegwit text = true → ¬ ChecksumVerifies text →
      ((∀ script, (addressToScriptPubKey text).result ≠ .ok script) ↔ ¬ AddressFits text)) := by
  refine ⟨⟨_, encodeDestination_eq chain dest, ?_⟩, fun hlooks _ => ?_⟩
  · rw [addressToScriptPubKey_encoded (encodeDestination_eq chain dest)]
    cases dest with
    | WitnessV0KeyHash id size =>
      refine iff_of_true ?_ size
      show programScript _ 0 (witnessProgram (Regroup.regroup 8 5 true (id.map UInt8.toNat))) = _
      rw [witnessProgram_twenty size]
      exact programScript_keyHash size
    | WitnessV0ScriptHash id size =>
      refine iff_of_false (fun h => ?_) (by show id.length ≠ 20; omega)
      have hlong := h.symm.trans (programScript_long (length_witnessProgram_long size))
      cases hlong
    | WitnessV1Taproot tap size =>
      refine iff_of_false (fun h => ?_) (by show tap.length ≠ 20; omega)
      have hlong := h.symm.trans (programScript_long (length_witnessProgram_long size))
      cases hlong
  · rw [← accepted_iff hlooks, not_exists]

def sampleTaproot : WitnessDestination := .WitnessV1Taproot (List.replicate 32 0) rfl

def sampleKeyHash : WitnessDestination := .WitnessV0KeyHash (List.replicate 20 0) rfl

/-- the address of 20 zero bytes, with zeros for the checksum -/
def sampleMistyped : List Char := ['b', 'e', '1'] ++ List.replicate 39 'q'

theorem sampleMistyped_unverified : ¬ ChecksumVerifies sampleMistyped := by
  rintro ⟨hrp, data, version, htext, hversion, hcheck⟩
  have hparts : bech32Parts sampleMistyped = some (['b', 'e'], List.replicate 39 0) := by decide +kernel
  rw [bech32Parts_eq_some_iff.mpr htext] at hparts
  cases hparts
  obtain rfl : 0 = version := Option.some.inj hversion
  exact absurd hcheck (by decide +kernel)

theorem payout_address_wrong :
    (∃ addr, encodeDestination .MAIN sampleTaproot = .ok addr ∧
      (addressToScriptPubKey addr).result = .error ("Unsupported address type: " ++ String.ofList addr)) ∧
    ¬ ChecksumVerifies sampleMistyped ∧
      (addressToScriptPubKey sampleMistyped).result = .ok ([0x00, 0x14] ++ List.replicate 20 0) := by
  refine ⟨⟨_, encodeDestination_eq _ _, ?_⟩, sampleMistyped_unverified, ?_⟩
  · rw [addressToScriptPubKey_encoded (encodeDestination_eq _ _)]
    exact programScript_long (length_witnessProgram_long rfl)
  · rfl

/-- the address of a key hash is decoded, and so is one with a wrong checksum -/
theorem payout_address_iff_keyHash :
    (∃ addr, encodeDestination .MAIN sampleKeyHash = .ok addr ∧
      (addressToScriptPubKey addr).result = .ok sampleKeyHash.scriptForDestination) ∧
    ∃ script, (addressToScriptPubKey sampleMistyped).result = .ok script := by
  obtain ⟨⟨addr, haddr, hiff⟩, hmistyped⟩ := payout_address_iff .MAIN sampleKeyHash sampleMistyped
  refine ⟨⟨addr, haddr, hiff.mpr rfl⟩, ?_⟩
  have hfits : AddressFits sampleMistyped :=
    ⟨['b', 'e'], List.replicate 39 0, bech32Parts_eq_some_iff.mp (by decide +kernel), .inl ⟨rfl, .inr rfl⟩⟩
  by_contra hno
  exact (hmistyped rfl sampleMistyped_unverified).mp (fun script hscript => hno ⟨script, hscript⟩) hfits

end ElektronNet
