import ElektronNet.Lib.LittleEndian
import ElektronNet.Primitives

/-!
# Scripts: reading opcodes, pushing data, script numbers

The parts of `script.h` and `script.cpp` that build and read the outputs of a coinbase.

* `getScriptOp`      `GetScriptOp`: one opcode, its immediate operand, and the rest of the script
* `scriptNum`        the reading constructor of `CScriptNum`; `none` where it throws
* `serialize`        `CScriptNum::serialize`
* `pushData`, `pushInt64`   `operator<<` for a byte string and for an integer
* `isUnspendable`    `CScript::IsUnspendable`

`getScriptOp_pushData` reads a pushed string back, `scriptNum_serialize` a pushed number.
-/

namespace ElektronNet

open List LittleEndian

def OP_0 : UInt8 := 0x00
def OP_PUSHDATA1 : UInt8 := 0x4c
def OP_PUSHDATA2 : UInt8 := 0x4d
def OP_PUSHDATA4 : UInt8 := 0x4e
def OP_1 : UInt8 := 0x51
def OP_16 : UInt8 := 0x60
def OP_RETURN : UInt8 := 0x6a

def MAX_SCRIPT_SIZE : Nat := 10000

def isUnspendable (script : CScript) : Bool :=
  script.head? == some OP_RETURN || decide (script.length > MAX_SCRIPT_SIZE)

/-! ## reading a script -/

def readSize (w : Nat) (pc : Bytes) : Option (Nat × Bytes) :=
  if pc.length < w then none else some (value (pc.take w), pc.drop w)

def operandSize (opcode : UInt8) (pc : Bytes) : Option (Nat × Bytes) :=
  if opcode < OP_PUSHDATA1 then some (opcode.toNat, pc)
  else if opcode = OP_PUSHDATA1 then readSize 1 pc
  else if opcode = OP_PUSHDATA2 then readSize 2 pc
  else readSize 4 pc

def getScriptOp : Bytes → Option (UInt8 × Bytes × Bytes)
  | [] => none
  | opcode :: pc =>
    if opcode ≤ OP_PUSHDATA4 then
      match operandSize opcode pc with
      | none => none
      | some (nSize, pc) =>
        if pc.length < nSize then none else some (opcode, pc.take nSize, pc.drop nSize)
    else some (opcode, [], pc)

/-! ## script numbers -/

/-- `CScriptNum::set_vch`; the callers pass at most five bytes, so the value fits its `int64_t` -/
def setVch (vch : Bytes) : Int :=
  if vch = [] then 0
  else if vch.getLastD 0 &&& 0x80 ≠ 0 then -((value vch : Int) - 0x80 * 256 ^ (vch.length - 1))
  else value vch

def scriptNum (vch : Bytes) (fRequireMinimal : Bool) (nMaxNumSize : Nat) : Option Int :=
  if vch.length > nMaxNumSize then none -- "script number overflow"
  else if fRequireMinimal && decide (vch.length > 0) && vch.getLastD 0 &&& 0x7f == 0 &&
      (decide (vch.length ≤ 1) || vch.getD (vch.length - 2) 0 &&& 0x80 == 0) then
    none -- "non-minimally encoded script number"
  else some (setVch vch)

/-- `CScriptNum::getint`: clamped to the range of an `int` -/
def getint (m_value : Int) : Int :=
  if m_value > 2147483647 then 2147483647
  else if m_value < -2147483648 then -2147483648
  else m_value

def serialize (v : Int) : Bytes :=
  if v = 0 then []
  else
    let result := digits v.natAbs
    if result.getLastD 0 &&& 0x80 ≠ 0 then result ++ [if v < 0 then 0x80 else 0]
    else if v < 0 then result.dropLast ++ [result.getLastD 0 ||| 0x80]
    else result

/-! ## building a script -/

def appendDataSize (size : Nat) : Bytes :=
  if size < OP_PUSHDATA1.toNat then [UInt8.ofNat size]
  else if size ≤ 0xff then OP_PUSHDATA1 :: fixed 1 size
  else if size ≤ 0xffff then OP_PUSHDATA2 :: fixed 2 size
  else OP_PUSHDATA4 :: fixed 4 size

def pushData (b : Bytes) : Bytes := appendDataSize b.length ++ b

def pushInt64 (n : Int) : Bytes :=
  if n = -1 ∨ (1 ≤ n ∧ n ≤ 16) then [UInt8.ofNat (n + (OP_1.toNat - 1)).toNat]
  else if n = 0 then [OP_0]
  else pushData (serialize n)

/-! ## what is pushed is read back -/

theorem getScriptOp_opcode {opcode : UInt8} (h : OP_PUSHDATA4 < opcode) (pc : Bytes) :
    getScriptOp (opcode :: pc) = some (opcode, [], pc) := by
  rw [getScriptOp, if_neg (UInt8.not_le.mpr h)]

theorem getScriptOp_pushData {b : Bytes} (h : b.length < 76) (rest : Bytes) :
    getScriptOp (pushData b ++ rest) = some (UInt8.ofNat b.length, b, rest) := by
  have hlen : (UInt8.ofNat b.length).toNat = b.length :=
    UInt8.toNat_ofNat_of_lt (lt_trans h (by norm_num))
  have hlt : UInt8.ofNat b.length < OP_PUSHDATA1 := by
    rw [UInt8.lt_iff_toNat_lt, hlen]
    exact h
  have hle : UInt8.ofNat b.length ≤ OP_PUSHDATA4 :=
    UInt8.le_of_lt (UInt8.lt_trans hlt (by decide))
  have hpush : pushData b ++ rest = UInt8.ofNat b.length :: (b ++ rest) := by
    rw [pushData, appendDataSize, if_pos (show b.length < OP_PUSHDATA1.toNat from h)]
    rfl
  rw [hpush, getScriptOp, if_pos hle, operandSize, if_pos hlt]
  simp [hlen]

theorem getLastD_eq_getLast {b : Bytes} (h : b ≠ []) : b.getLastD 0 = b.getLast h := by
  rw [getLastD_eq_getLast?, getLast?_eq_some_getLast h]
  rfl

theorem serialize_cases {n : Nat} (hn : n ≠ 0) :
    (serialize n = digits n ∧ (digits n).getLastD 0 &&& 0x80 = 0) ∨
      (serialize n = digits n ++ [0] ∧ (digits n).getLastD 0 &&& 0x80 ≠ 0) := by
  have h0 : ¬ ((n : Int) = 0) := by omega
  have hneg : ¬ ((n : Int) < 0) := by omega
  by_cases hs : (digits n).getLastD 0 &&& 0x80 = 0
  · refine Or.inl ⟨?_, hs⟩
    simp only [serialize, h0, if_false, hneg, Int.natAbs_natCast, hs, ne_eq, not_true]
  · refine Or.inr ⟨?_, hs⟩
    simp only [serialize, h0, if_false, hneg, Int.natAbs_natCast, hs, ne_eq, not_false_iff, if_true]

theorem length_serialize_le {n w : Nat} (h : n < 256 ^ w) : (serialize n).length ≤ w + 1 := by
  have hd := length_digits_le h
  by_cases hn : n = 0
  · subst hn
    simp [serialize]
  · rcases serialize_cases hn with ⟨e, -⟩ | ⟨e, -⟩
    · rw [e]
      omega
    · rw [e, length_append, length_singleton]
      omega

theorem setVch_serialize (n : Nat) : setVch (serialize n) = n := by
  by_cases hn : n = 0
  · subst hn
    rfl
  · rcases serialize_cases hn with ⟨e, hs⟩ | ⟨e, -⟩
    · rw [e, setVch, if_neg (digits_ne_nil hn), if_neg (not_not.mpr hs), value_digits]
    · have hlast : (digits n ++ [0]).getLastD 0 &&& 0x80 = 0 := by simp
      rw [e, setVch, value_append, value_digits]
      simp [value]

/-- **a pushed number passes the minimality test and is read back** -/
theorem scriptNum_serialize {n w : Nat} (h : n < 256 ^ w) :
    scriptNum (serialize n) true (w + 1) = some (n : Int) := by
  have hlen := length_serialize_le h
  rw [scriptNum, if_neg (not_lt.mpr hlen), setVch_serialize]
  by_cases hn : n = 0
  · subst hn
    simp [serialize]
  · have hne := digits_ne_nil hn
    rcases serialize_cases hn with ⟨e, hs⟩ | ⟨e, hs⟩
    · -- the last digit is not zero and stays below the sign bit
      have hmod : ¬ (digits n).getLastD 0 &&& 0x7f = 0 := by
        have hlast := getLast_digits_ne_zero hn
        rw [getLastD_eq_getLast hne, and_0x80_eq_zero_iff] at hs
        rw [getLastD_eq_getLast hne, and_0x7f_eq_zero_iff]
        omega
      rw [e, beq_eq_false_iff_ne.mpr hmod]
      simp
    · -- the closing zero is needed: the digit before it has the sign bit
      have hlen2 : ¬ (digits n ++ [0]).length ≤ 1 := by
        have := length_pos_iff.mpr hne
        rw [length_append, length_singleton]
        omega
      have hprev : (digits n ++ [(0 : UInt8)]).getD ((digits n ++ [(0 : UInt8)]).length - 2) 0
          = (digits n).getLastD 0 := by
        have hpos := length_pos_iff.mpr hne
        rw [length_append, length_singleton, getD_append _ _ _ _ (by omega),
          getLastD_eq_getLast?, getLast?_eq_getElem?]
        rfl
      rw [e, hprev, beq_eq_false_iff_ne.mpr hs, decide_eq_false hlen2]
      simp

end ElektronNet
