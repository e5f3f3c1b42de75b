import Mathlib.Data.BitVec
import Mathlib.Tactic.Common

/-!
# Machine words and spans of addresses

Unsigned 32-bit words, whose arithmetic wraps around, and the addresses that a
loop with a moving pointer visits.
-/

/-- `uint`, and `int` read as unsigned. -/
abbrev Word := BitVec 32

namespace Word

def span (p : Word) (n : Nat) : List Word := (List.range n).map fun i => p + BitVec.ofNat 32 i

variable {p a : Word} {n m : Nat}

theorem mem_span : a ∈ span p n ↔ ∃ i, i < n ∧ p + BitVec.ofNat 32 i = a := by
  simp [span]

theorem span_add (p : Word) (m n : Nat) :
    span p (m + n) = span p m ++ span (p + BitVec.ofNat 32 m) n := by
  unfold span
  rw [List.range_add, List.map_append, List.map_map]
  congr 1
  refine List.map_congr_left fun i _ => ?_
  simp [BitVec.ofNat_add, BitVec.add_assoc]

theorem mem_span_of_part {k : Nat} (inside : k + m ≤ n)
    (member : a ∈ span (p + BitVec.ofNat 32 k) m) : a ∈ span p n := by
  obtain ⟨i, small, rfl⟩ := mem_span.mp member
  refine mem_span.mpr ⟨k + i, by omega, ?_⟩
  rw [BitVec.ofNat_add, BitVec.add_assoc]

theorem span_mono (shorter : m ≤ n) (member : a ∈ span p m) : a ∈ span p n := by
  obtain ⟨i, small, same⟩ := mem_span.mp member
  exact mem_span.mpr ⟨i, by omega, same⟩

theorem toNat_of_mem_span (inside : p.toNat + n ≤ 2 ^ 32) (member : a ∈ span p n) :
    p.toNat ≤ a.toNat ∧ a.toNat < p.toNat + n := by
  obtain ⟨i, small, rfl⟩ := mem_span.mp member
  rw [BitVec.toNat_add, BitVec.toNat_ofNat]
  omega

theorem toNat_clear (a : Word) (k : Nat) :
    (a &&& ~~~(BitVec.ofNat 32 (2 ^ k - 1))).toNat = a.toNat / 2 ^ k * 2 ^ k := by
  have shift : a &&& ~~~(BitVec.ofNat 32 (2 ^ k - 1)) = (a >>> k) <<< k := by
    apply BitVec.eq_of_getLsbD_eq
    intro i small
    rw [BitVec.getLsbD_and, BitVec.getLsbD_not, BitVec.getLsbD_ofNat, Nat.testBit_two_pow_sub_one,
      BitVec.getLsbD_shiftLeft, BitVec.getLsbD_ushiftRight]
    by_cases high : k ≤ i
    · simp [small, high, Nat.not_lt.mpr high]
    · simp [small, Nat.lt_of_not_le high]
  rw [shift, BitVec.toNat_shiftLeft, BitVec.toNat_ushiftRight, Nat.shiftRight_eq_div_pow,
    Nat.shiftLeft_eq, Nat.mod_eq_of_lt]
  exact (Nat.div_mul_le_self _ _).trans_lt a.isLt

end Word
