import Mathlib.Data.List.GetD
import Mathlib.Tactic

/-!
# Byte blocks and little-endian numbers

A block is a function from byte positions.  `getBytes` and `setBytes` are the
two directions of a memory copy; `ofLE` and `toLE` read and write numbers in
the byte order of the machine.  Everything else a program stores in a block is
expressed through these four functions.
-/

namespace Bytes

variable {size : Nat}

/-- Copy `count` bytes out of a block; positions past its end read as zero. -/
def getBytes (block : Fin size → UInt8) (off count : Nat) : List UInt8 :=
  (List.range count).map fun i => if inside : off + i < size then block ⟨off + i, inside⟩ else 0

/-- Copy bytes into a block; what would fall past its end is dropped. -/
def setBytes (block : Fin size → UInt8) (off : Nat) (bytes : List UInt8) : Fin size → UInt8 :=
  fun i => if off ≤ i.val then bytes.getD (i.val - off) (block i) else block i

@[simp]
theorem length_getBytes (block : Fin size → UInt8) (off count : Nat) :
    (getBytes block off count).length = count := by
  simp [getBytes]

theorem setBytes_outside (block : Fin size → UInt8) (off : Nat) (bytes : List UInt8)
    (i : Fin size) (outside : i.val < off ∨ off + bytes.length ≤ i.val) :
    setBytes block off bytes i = block i := by
  unfold setBytes
  split
  · have past : bytes.length ≤ i.val - off := by omega
    exact List.getD_eq_default _ _ past
  · rfl

theorem setBytes_inside (block : Fin size → UInt8) (off : Nat) (bytes : List UInt8)
    (i : Fin size) (lower : off ≤ i.val) (upper : i.val - off < bytes.length) :
    setBytes block off bytes i = bytes[i.val - off] := by
  unfold setBytes
  rw [if_pos lower, List.getD_eq_getElem _ _ upper]

theorem getBytes_setBytes_self (block : Fin size → UInt8) (off : Nat) (bytes : List UInt8)
    (fits : off + bytes.length ≤ size) :
    getBytes (setBytes block off bytes) off bytes.length = bytes := by
  apply List.ext_getElem (by simp)
  intro i _ bound
  have inside : off + i < size := by omega
  simp only [getBytes, List.getElem_map, List.getElem_range, inside, dif_pos]
  rw [setBytes_inside _ _ _ _ (by simp) (by simpa using bound)]
  simp

theorem getBytes_setBytes_disjoint (block : Fin size → UInt8) (off count at_ : Nat)
    (bytes : List UInt8) (disjoint : off + count ≤ at_ ∨ at_ + bytes.length ≤ off) :
    getBytes (setBytes block at_ bytes) off count = getBytes block off count := by
  apply List.map_congr_left
  intro i membership
  have bound : i < count := List.mem_range.mp membership
  split
  · exact setBytes_outside _ _ _ _ (by simp only; omega)
  · rfl

/-- The number a little-endian byte string denotes. -/
def ofLE : List UInt8 → Nat
  | [] => 0
  | byte :: rest => byte.toNat + 256 * ofLE rest

/-- The low `count` bytes of a number, least significant first. -/
def toLE : (count value : Nat) → List UInt8
  | 0, _ => []
  | count + 1, value => UInt8.ofNat value :: toLE count (value / 256)

@[simp]
theorem length_toLE (count value : Nat) : (toLE count value).length = count := by
  induction count generalizing value with
  | zero => rfl
  | succ count ih => simp [toLE, ih]

theorem ofLE_lt (bytes : List UInt8) : ofLE bytes < 256 ^ bytes.length := by
  induction bytes with
  | nil => simp [ofLE]
  | cons byte rest ih =>
    have small : byte.toNat < 256 := byte.toNat_lt
    simp only [ofLE, List.length_cons, pow_succ]
    omega

theorem ofLE_toLE (count value : Nat) (fits : value < 256 ^ count) :
    ofLE (toLE count value) = value := by
  induction count generalizing value with
  | zero =>
    simp only [pow_zero] at fits
    simp only [toLE, ofLE]
    omega
  | succ count ih =>
    have quotient : value / 256 < 256 ^ count := by
      rw [pow_succ] at fits
      exact Nat.div_lt_of_lt_mul (by omega)
    simp only [toLE, ofLE, ih _ quotient, UInt8.toNat_ofNat']
    omega

/-- The `count`-byte number stored at byte `off`. -/
def getNum (count : Nat) (block : Fin size → UInt8) (off : Nat) : Nat :=
  ofLE (getBytes block off count)

/-- Store the low `count` bytes of a number at byte `off`. -/
def setNum (count : Nat) (block : Fin size → UInt8) (off value : Nat) : Fin size → UInt8 :=
  setBytes block off (toLE count value)

theorem getNum_setNum_self {count : Nat} (block : Fin size → UInt8) {off value : Nat}
    (inside : off + count ≤ size) (fits : value < 256 ^ count) :
    getNum count (setNum count block off value) off = value := by
  have copied := getBytes_setBytes_self block off (toLE count value) (by simpa using inside)
  rw [length_toLE] at copied
  rw [getNum, setNum, copied, ofLE_toLE _ _ fits]

theorem getNum_setNum_disjoint {count width : Nat} (block : Fin size → UInt8)
    {off at_ value : Nat} (disjoint : off + count ≤ at_ ∨ at_ + width ≤ off) :
    getNum count (setNum width block at_ value) off = getNum count block off := by
  unfold getNum setNum
  rw [getBytes_setBytes_disjoint _ _ _ _ _ (by simpa using disjoint)]

theorem ofLE_replicate_zero (count : Nat) : ofLE (List.replicate count 0) = 0 := by
  induction count with
  | zero => rfl
  | succ count ih => simp [List.replicate_succ, ofLE, ih]

theorem getNum_zero (count off : Nat) : getNum count (fun _ : Fin size => 0) off = 0 := by
  have zeros : getBytes (fun _ : Fin size => (0 : UInt8)) off count = List.replicate count 0 := by
    simp [getBytes]
  rw [getNum, zeros, ofLE_replicate_zero]

/-! ## Records in a byte string -/

/-- The number in `count` bytes of a byte string. -/
def field (bytes : List UInt8) (off count : Nat) : Nat :=
  ofLE ((bytes.drop off).take count)

theorem field_lt (bytes : List UInt8) (off count : Nat) : field bytes off count < 256 ^ count := by
  have bound := ofLE_lt ((bytes.drop off).take count)
  have short : ((bytes.drop off).take count).length ≤ count := List.length_take_le _ _
  exact bound.trans_le (Nat.pow_le_pow_right (by omega) short)

theorem field_skip {before rest : List UInt8} {off count : Nat} (past : before.length ≤ off) :
    field (before ++ rest) off count = field rest (off - before.length) count := by
  rw [field, field, List.drop_append, List.drop_of_length_le past, List.nil_append]

theorem field_toLE {after : List UInt8} {count value : Nat} (fits : value < 256 ^ count) :
    field (toLE count value ++ after) 0 count = value := by
  rw [field, List.drop_zero, List.take_left' (length_toLE count value), ofLE_toLE _ _ fits]

theorem flatMap_toLE_getElem {count : Nat} (values : List Nat) (k : Nat)
    (inside : k < values.length) :
    ((values.flatMap (toLE count)).drop (count * k)).take count = toLE count values[k] := by
  induction values generalizing k with
  | nil => simp at inside
  | cons value rest ih =>
    cases k with
    | zero => simp [List.take_left']
    | succ k =>
      have shifted : count * (k + 1) = (toLE count value).length + count * k := by
        rw [length_toLE]
        ring
      rw [List.flatMap_cons, shifted, List.drop_append, List.drop_of_length_le (by simp)]
      simpa using ih k (by simpa using inside)

theorem field_flatMap_toLE {count k : Nat} {values : List Nat} (inside : k < values.length)
    (fits : values[k] < 256 ^ count) :
    field (values.flatMap (toLE count)) (count * k) count = values[k] := by
  rw [field, flatMap_toLE_getElem values k inside, ofLE_toLE _ _ fits]

/-! ## Bits -/

/-- The byte with only bit `k % 8` set. -/
def bitMask (k : Nat) : UInt8 := 1 <<< UInt8.ofNat (k % 8)

/-- Bit `k` of a block, counted from the low bit of its first byte. -/
def getBit (block : Fin size → UInt8) (k : Nat) : Bool :=
  if inside : k / 8 < size then block ⟨k / 8, inside⟩ &&& bitMask k != 0 else false

/-- Change the byte that holds bit `k`. -/
def mapByte (block : Fin size → UInt8) (k : Nat) (change : UInt8 → UInt8) : Fin size → UInt8 :=
  fun i => if i.val = k / 8 then change (block i) else block i

def setBit (block : Fin size → UInt8) (k : Nat) : Fin size → UInt8 :=
  mapByte block k (· ||| bitMask k)

def clearBit (block : Fin size → UInt8) (k : Nat) : Fin size → UInt8 :=
  mapByte block k (· &&& ~~~bitMask k)

theorem toBitVec_bitMask (k : Nat) : (bitMask k).toBitVec = BitVec.twoPow 8 (k % 8) := by
  unfold bitMask
  have small : k % 8 < 8 := Nat.mod_lt _ (by omega)
  interval_cases k % 8 <;> rfl

theorem and_bitMask_ne_zero (byte : UInt8) (k : Nat) :
    (byte &&& bitMask k != 0) = byte.toBitVec.getLsbD (k % 8) := by
  have small : k % 8 < 8 := Nat.mod_lt _ (by omega)
  have masked : (byte &&& bitMask k).toBitVec =
      if byte.toBitVec.getLsbD (k % 8) then BitVec.twoPow 8 (k % 8) else 0#8 := by
    rw [UInt8.toBitVec_and, toBitVec_bitMask, BitVec.and_twoPow]
  rw [Bool.eq_iff_iff, bne_iff_ne, ne_eq, ← UInt8.toBitVec_inj, masked]
  cases byte.toBitVec.getLsbD (k % 8) with
  | false => simp
  | true => interval_cases k % 8 <;> decide

theorem getBit_eq (block : Fin size → UInt8) {k : Nat} (inside : k / 8 < size) :
    getBit block k = (block ⟨k / 8, inside⟩).toBitVec.getLsbD (k % 8) := by
  rw [getBit, dif_pos inside, and_bitMask_ne_zero]

theorem getBit_mapByte_ne (block : Fin size → UInt8) {j k : Nat} (change : UInt8 → UInt8)
    (keeps : ∀ byte : UInt8, ∀ i < 8, i ≠ j % 8 →
      (change byte).toBitVec.getLsbD i = byte.toBitVec.getLsbD i) (different : k ≠ j) :
    getBit (mapByte block j change) k = getBit block k := by
  by_cases inside : k / 8 < size
  · rw [getBit_eq _ inside, getBit_eq _ inside, mapByte]
    split
    next same =>
      exact keeps _ _ (Nat.mod_lt _ (by omega)) (by simp only at same; omega)
    · rfl
  · simp [getBit, inside]

theorem getBit_setBit_self (block : Fin size → UInt8) {k : Nat} (inside : k / 8 < size) :
    getBit (setBit block k) k = true := by
  have small : k % 8 < 8 := Nat.mod_lt _ (by omega)
  rw [getBit_eq _ inside, setBit, mapByte, if_pos rfl, UInt8.toBitVec_or, toBitVec_bitMask]
  simp [small]

theorem getBit_setBit_ne (block : Fin size → UInt8) {j k : Nat} (different : k ≠ j) :
    getBit (setBit block j) k = getBit block k := by
  apply getBit_mapByte_ne _ _ _ different
  intro byte i small other
  rw [UInt8.toBitVec_or, toBitVec_bitMask]
  simp [BitVec.getLsbD_twoPow, other.symm]

theorem getBit_clearBit_self (block : Fin size → UInt8) (k : Nat) :
    getBit (clearBit block k) k = false := by
  have small : k % 8 < 8 := Nat.mod_lt _ (by omega)
  by_cases inside : k / 8 < size
  · rw [getBit_eq _ inside, clearBit, mapByte, if_pos rfl, UInt8.toBitVec_and, UInt8.toBitVec_not,
      toBitVec_bitMask]
    simp [small]
  · simp [getBit, inside]

theorem getBit_clearBit_ne (block : Fin size → UInt8) {j k : Nat} (different : k ≠ j) :
    getBit (clearBit block j) k = getBit block k := by
  apply getBit_mapByte_ne _ _ _ different
  intro byte i small other
  rw [UInt8.toBitVec_and, UInt8.toBitVec_not, toBitVec_bitMask]
  simp [small, other]
end Bytes
