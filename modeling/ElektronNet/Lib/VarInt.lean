import Mathlib.Data.Nat.Bitwise
import Mathlib.Data.UInt

/-!
# Variable-length numbers, most significant byte first

Seven bits in a byte, and the high bit set in every byte but the last.  One is taken off before the
next seven bits are split off, so that every number has exactly one form.

* `write n`        the bytes of `n`
* `read max`       one number of at most `max`, and the bytes behind it
* `read_write`     what was written is read back, whatever follows
-/

namespace VarInt

def writeHigh : Nat → Nat → List UInt8
  | 0, _ => []
  | fuel + 1, n =>
    (if n ≤ 0x7f then [] else writeHigh fuel (n / 128 - 1)) ++ [UInt8.ofNat (n % 128 + 128)]

def write (n : Nat) : List UInt8 :=
  (if n ≤ 0x7f then [] else writeHigh n (n / 128 - 1)) ++ [UInt8.ofNat (n % 128)]

/-- the loop of the reader with `n` read so far -/
def readFrom (max : Nat) : Nat → List UInt8 → Option (Nat × List UInt8)
  | _, [] => none
  | n, b :: file =>
    if n > max / 128 then none
    else if 128 ≤ b.toNat then
      if n * 128 + b.toNat % 128 = max then none
      else readFrom max (n * 128 + b.toNat % 128 + 1) file
    else some (n * 128 + b.toNat % 128, file)

def read (max : Nat) (file : List UInt8) : Option (Nat × List UInt8) := readFrom max 0 file

theorem readFrom_length {max n r : Nat} {file rest : List UInt8}
    (h : readFrom max n file = some (r, rest)) : rest.length < file.length := by
  induction file generalizing n with
  | nil => cases h
  | cons b file ih =>
    rw [readFrom] at h
    split at h
    · cases h
    · split at h
      · split at h
        · cases h
        · exact Nat.lt_succ_of_lt (ih h)
      · cases h
        exact Nat.lt_succ_self _

theorem read_length {max r : Nat} {file rest : List UInt8} (h : read max file = some (r, rest)) :
    rest.length < file.length := readFrom_length h

theorem readFrom_high {max n k : Nat} (file : List UInt8) (hn : n ≤ max / 128)
    (hmax : n * 128 + k % 128 ≠ max) :
    readFrom max n (UInt8.ofNat (k % 128 + 128) :: file) =
      readFrom max (n * 128 + k % 128 + 1) file := by
  have hb : (UInt8.ofNat (k % 128 + 128)).toNat = k % 128 + 128 := by
    rw [UInt8.toNat_ofNat']
    omega
  have hlow : (k % 128 + 128) % 128 = k % 128 := by omega
  rw [readFrom, hb, hlow, if_neg (by omega), if_pos (by omega), if_neg hmax]

theorem readFrom_writeHigh {max fuel n : Nat} (file : List UInt8) (hfuel : n < fuel) (hn : n < max) :
    readFrom max 0 (writeHigh fuel n ++ file) = readFrom max (n + 1) file := by
  induction fuel generalizing n file with
  | zero => omega
  | succ fuel ih =>
    rw [writeHigh]
    split
    · rename_i hsmall
      have hmod : n % 128 = n := Nat.mod_eq_of_lt (by omega)
      rw [List.nil_append, List.singleton_append,
        readFrom_high file (Nat.zero_le _) (by rw [hmod]; omega), hmod, Nat.zero_add]
    · rename_i hlarge
      have hsucc : n / 128 - 1 + 1 = n / 128 := by omega
      have hval : n / 128 * 128 + n % 128 = n := by omega
      rw [List.append_assoc, ih _ (by omega) (by omega), hsucc, List.singleton_append,
        readFrom_high file (Nat.div_le_div_right (by omega)) (by omega), hval]

theorem read_write (max : Nat) {n : Nat} (file : List UInt8) (h : n ≤ max) :
    read max (write n ++ file) = some (n, file) := by
  have hb : (UInt8.ofNat (n % 128)).toNat = n % 128 := by
    rw [UInt8.toNat_ofNat']
    omega
  -- the last byte
  have hlast : ∀ k, k = n / 128 →
      readFrom max k (UInt8.ofNat (n % 128) :: file) = some (n, file) := by
    rintro k rfl
    have hval : n / 128 * 128 + n % 128 % 128 = n := by omega
    rw [readFrom, hb, hval, if_neg (by have := Nat.div_le_div_right (c := 128) h; omega),
      if_neg (by omega)]
  rw [read, write]
  split
  · exact hlast 0 (by omega)
  · rw [List.append_assoc, readFrom_writeHigh _ (by omega) (by omega)]
    exact hlast _ (by omega)

end VarInt
