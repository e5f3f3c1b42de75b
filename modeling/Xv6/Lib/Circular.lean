import Mathlib.Data.Nat.ModEq
import Xv6.Lib.Word

/-!
# Circular buffers with free-running counters

A buffer of `size` cells between two 32-bit counters that are only ever
incremented.  Cell `n % size` holds element number `n`, the buffer is full when
the counters are `size` apart and empty when they agree.  As long as `size`
divides the range of the counters, wrapping around them goes unnoticed: the
contents are a first-in first-out queue of at most `size` elements.
-/

structure Circular (α : Type) where
  data : Nat → α
  nread : Word
  nwrite : Word

namespace Circular

variable {α : Type}

def count (buffer : Circular α) : Nat := (buffer.nwrite - buffer.nread).toNat

def Full (size : Nat) (buffer : Circular α) : Prop :=
  buffer.nwrite = buffer.nread + BitVec.ofNat 32 size

def Empty (buffer : Circular α) : Prop := buffer.nread = buffer.nwrite

instance (size : Nat) (buffer : Circular α) : Decidable (buffer.Full size) :=
  inferInstanceAs (Decidable (_ = _))

instance (buffer : Circular α) : Decidable buffer.Empty := inferInstanceAs (Decidable (_ = _))

/-- `data[nwrite++ % size] = a` -/
def push (size : Nat) (buffer : Circular α) (a : α) : Circular α :=
  { buffer with
    data := Function.update buffer.data (buffer.nwrite.toNat % size) a
    nwrite := buffer.nwrite + 1 }

/-- `data[nread % size]` -/
def head (size : Nat) (buffer : Circular α) : α := buffer.data (buffer.nread.toNat % size)

/-- `nread++` -/
def drop (buffer : Circular α) : Circular α := { buffer with nread := buffer.nread + 1 }

/-- `data[(nwrite-1) % size]` -/
def last (size : Nat) (buffer : Circular α) : α := buffer.data ((buffer.nwrite - 1).toNat % size)

/-- `nwrite--` -/
def retract (buffer : Circular α) : Circular α := { buffer with nwrite := buffer.nwrite - 1 }

def contents (size : Nat) (buffer : Circular α) : List α :=
  (List.range buffer.count).map fun i => buffer.data ((buffer.nread.toNat + i) % size)

variable {size : Nat} {buffer : Circular α}

@[simp] theorem length_contents (size : Nat) (buffer : Circular α) :
    (buffer.contents size).length = buffer.count := by
  simp [contents]

theorem toNat_one : (1 : Word).toNat = 1 := rfl

theorem count_eq_zero : buffer.count = 0 ↔ buffer.Empty := by
  unfold count Empty
  rw [← BitVec.toNat_inj, BitVec.toNat_sub]
  have := buffer.nread.isLt
  have := buffer.nwrite.isLt
  omega

theorem contents_eq_nil : buffer.contents size = [] ↔ buffer.Empty := by
  rw [← count_eq_zero, ← List.length_eq_zero_iff, length_contents]

theorem count_eq_size (small : size < 2 ^ 32) : buffer.count = size ↔ buffer.Full size := by
  unfold count Full
  rw [← BitVec.toNat_inj, BitVec.toNat_sub, BitVec.toNat_add, BitVec.toNat_ofNat]
  have := buffer.nread.isLt
  have := buffer.nwrite.isLt
  omega

theorem count_push (room : buffer.count + 1 < 2 ^ 32) (a : α) :
    (buffer.push size a).count = buffer.count + 1 := by
  simp only [count, push, BitVec.toNat_sub, BitVec.toNat_add, toNat_one] at room ⊢
  have := buffer.nread.isLt
  have := buffer.nwrite.isLt
  omega

theorem count_drop (some : 0 < buffer.count) : buffer.drop.count + 1 = buffer.count := by
  simp only [count, drop, BitVec.toNat_sub, BitVec.toNat_add, toNat_one] at some ⊢
  have := buffer.nread.isLt
  have := buffer.nwrite.isLt
  omega

theorem count_retract (some : 0 < buffer.count) : buffer.retract.count + 1 = buffer.count := by
  simp only [count, retract, BitVec.toNat_sub, toNat_one] at some ⊢
  have := buffer.nread.isLt
  have := buffer.nwrite.isLt
  omega

theorem cell_ne {i j : Nat} (before : i < j) (near : j < i + size) : i % size ≠ j % size := by
  intro same
  have divides : size ∣ j - i := (Nat.modEq_iff_dvd' before.le).mp same
  have reaches := Nat.le_of_dvd (by omega) divides
  omega

theorem nwrite_cell (divides : size ∣ 2 ^ 32) (buffer : Circular α) :
    buffer.nwrite.toNat % size = (buffer.nread.toNat + buffer.count) % size := by
  have sum : buffer.nwrite.toNat = (buffer.nread.toNat + buffer.count) % 2 ^ 32 := by
    rw [count, BitVec.toNat_sub]
    have := buffer.nread.isLt
    have := buffer.nwrite.isLt
    omega
  rw [sum, Nat.mod_mod_of_dvd _ divides]

theorem contents_push (divides : size ∣ 2 ^ 32) (small : size < 2 ^ 32)
    (room : buffer.count < size) (a : α) :
    (buffer.push size a).contents size = buffer.contents size ++ [a] := by
  unfold contents
  rw [count_push (by omega), List.range_succ, List.map_append]
  congr 1
  · apply List.map_congr_left
    intro i inside
    have near : i < buffer.count := List.mem_range.mp inside
    have elsewhere : (buffer.nread.toNat + i) % size ≠ buffer.nwrite.toNat % size := by
      rw [nwrite_cell divides]
      exact cell_ne (by omega) (by omega)
    simp [push, elsewhere]
  · simp [push, nwrite_cell divides]

theorem contents_drop (divides : size ∣ 2 ^ 32) (some : 0 < buffer.count) :
    buffer.contents size = buffer.head size :: buffer.drop.contents size := by
  unfold contents
  rw [← count_drop some, List.range_succ_eq_map, List.map_cons, List.map_map]
  congr 1
  apply List.map_congr_left
  intro i _
  simp only [drop, Function.comp_apply, BitVec.toNat_add, toNat_one]
  rw [Nat.add_mod (_ % _), Nat.mod_mod_of_dvd _ divides, ← Nat.add_mod]
  congr 2
  omega

theorem contents_retract (divides : size ∣ 2 ^ 32) (some : 0 < buffer.count) :
    buffer.contents size = buffer.retract.contents size ++ [buffer.last size] := by
  have cell := buffer.retract.nwrite_cell divides
  unfold contents
  rw [← count_retract some, List.range_succ, List.map_append, List.map_singleton]
  congr 2
  exact congrArg buffer.data cell.symm

end Circular
