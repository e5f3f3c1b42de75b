import Mathlib.Data.Fintype.Pi
import Xv6.Param

/-!
# On-disk format

The structures and macros of `fs.h`: superblock, inodes and free bit map, and
where they lie in the blocks of a disk.  Each accessor comes with what a write
to its own and to other places does to it.
-/

open Function (update update_of_ne update_self)

namespace Xv6

/-! ## Constants -/

abbrev NDIRECT : Nat := 12
abbrev NINDIRECT : Nat := BSIZE / 4
abbrev MAXFILE : Nat := NDIRECT + NINDIRECT

/-- `IPB`: inodes per block, at 64 bytes for a `struct dinode`. -/
abbrev IPB : Nat := BSIZE / 64

abbrev BPB : Nat := BSIZE * 8

abbrev ROOTINO : Nat := 1
abbrev T_DIR : Nat := 1
abbrev T_FILE : Nat := 2
abbrev T_DEV : Nat := 3

/-! ## Inodes -/

/-- `struct dinode`.  The shorts are kept as their 16-bit patterns. -/
@[ext]
structure Dinode where
  type : Nat
  major : Nat
  minor : Nat
  nlink : Nat
  size : Nat
  addrs : Fin (NDIRECT + 1) → Nat
  deriving DecidableEq

namespace Dinode

/-- A `dinode` after `memset` with its type set. -/
def zeroed (type : Nat) : Dinode where
  type := type
  major := 0
  minor := 0
  nlink := 0
  size := 0
  addrs _ := 0

/-- The memory image of the fields before `addrs`. -/
def header (d : Dinode) : List UInt8 :=
  Bytes.toLE 2 d.type ++ (Bytes.toLE 2 d.major ++ (Bytes.toLE 2 d.minor ++
    (Bytes.toLE 2 d.nlink ++ Bytes.toLE 4 d.size)))

def encode (d : Dinode) : List UInt8 :=
  d.header ++ (List.ofFn d.addrs).flatMap (Bytes.toLE 4)

def decode (bytes : List UInt8) : Dinode where
  type := Bytes.field bytes 0 2
  major := Bytes.field bytes 2 2
  minor := Bytes.field bytes 4 2
  nlink := Bytes.field bytes 6 2
  size := Bytes.field bytes 8 4
  addrs k := Bytes.field bytes (12 + 4 * k.val) 4

structure InRange (d : Dinode) : Prop where
  type : d.type < 2 ^ 16
  major : d.major < 2 ^ 16
  minor : d.minor < 2 ^ 16
  nlink : d.nlink < 2 ^ 16
  size : d.size < 2 ^ 32
  addrs : ∀ k, d.addrs k < 2 ^ 32

theorem inRange_decode (bytes : List UInt8) : (decode bytes).InRange where
  type := Bytes.field_lt bytes 0 2
  major := Bytes.field_lt bytes 2 2
  minor := Bytes.field_lt bytes 4 2
  nlink := Bytes.field_lt bytes 6 2
  size := Bytes.field_lt bytes 8 4
  addrs _ := Bytes.field_lt bytes _ 4

theorem inRange_zeroed {type : Nat} (fits : type < 2 ^ 16) : (zeroed type).InRange where
  type := fits
  major := Nat.two_pow_pos 16
  minor := Nat.two_pow_pos 16
  nlink := Nat.two_pow_pos 16
  size := Nat.two_pow_pos 32
  addrs _ := Nat.two_pow_pos 32

theorem length_header (d : Dinode) : d.header.length = 12 := by
  simp [header]

theorem length_encode (d : Dinode) : d.encode.length = 64 := by
  simp only [encode, List.length_append, length_header, Bytes.length_toLE, List.length_flatMap,
    List.map_const', List.sum_replicate, List.length_ofFn, smul_eq_mul, NDIRECT]

theorem addrs_decode_encode {d : Dinode} (range : d.InRange) (k : Fin (NDIRECT + 1)) :
    (decode d.encode).addrs k = d.addrs k := by
  have inside : k.val < (List.ofFn d.addrs).length := by
    rw [List.length_ofFn]
    exact k.isLt
  have stored : (List.ofFn d.addrs)[k.val] = d.addrs k := List.getElem_ofFn inside
  have fits : (List.ofFn d.addrs)[k.val] < 256 ^ 4 := by
    rw [stored]
    exact range.addrs k
  have past : d.header.length ≤ 12 + 4 * k.val := by
    rw [length_header]
    omega
  change Bytes.field (d.header ++ _) (12 + 4 * k.val) 4 = _
  rw [Bytes.field_skip past, length_header, Nat.add_sub_cancel_left,
    Bytes.field_flatMap_toLE inside fits, stored]

theorem decode_encode {d : Dinode} (range : d.InRange) : decode d.encode = d := by
  apply Dinode.ext
  · simp only [decode, encode, header, List.append_assoc]
    exact Bytes.field_toLE range.type
  · simp (disch := simp) only [decode, encode, header, List.append_assoc, Bytes.field_skip,
      Bytes.length_toLE]
    exact Bytes.field_toLE range.major
  · simp (disch := simp) only [decode, encode, header, List.append_assoc, Bytes.field_skip,
      Bytes.length_toLE]
    exact Bytes.field_toLE range.minor
  · simp (disch := simp) only [decode, encode, header, List.append_assoc, Bytes.field_skip,
      Bytes.length_toLE]
    exact Bytes.field_toLE range.nlink
  · simp (disch := simp) only [decode, encode, header, List.append_assoc, Bytes.field_skip,
      Bytes.length_toLE]
    exact Bytes.field_toLE range.size
  · funext k
    exact addrs_decode_encode range k

/-- `addrs[k]`, with zero past the end of the array. -/
def addr (d : Dinode) (k : Nat) : Nat :=
  if inside : k < NDIRECT + 1 then d.addrs ⟨k, inside⟩ else 0

def setAddr (d : Dinode) (k value : Nat) : Dinode :=
  { d with addrs := fun i => if i.val = k then value else d.addrs i }

theorem addr_setAddr_self (d : Dinode) {k : Nat} (value : Nat) (inside : k < NDIRECT + 1) :
    (d.setAddr k value).addr k = value := by
  simp [addr, setAddr, inside]

theorem addr_setAddr_ne (d : Dinode) {j k : Nat} (value : Nat) (different : j ≠ k) :
    (d.setAddr k value).addr j = d.addr j := by
  simp [addr, setAddr, different]

theorem InRange.setAddr {d : Dinode} (range : d.InRange) (k : Nat) {value : Nat}
    (fits : value < 2 ^ 32) : (d.setAddr k value).InRange := by
  refine ⟨range.type, range.major, range.minor, range.nlink, range.size, ?_⟩
  intro i
  unfold Dinode.setAddr
  dsimp only
  split
  · exact fits
  · exact range.addrs i

theorem addrs_eq_addr (d : Dinode) (k : Fin (NDIRECT + 1)) : d.addrs k = d.addr k := by
  simp [addr, k.isLt]

end Dinode

def Block.dinode (block : Block) (k : Nat) : Dinode :=
  Dinode.decode (Bytes.getBytes block (64 * k) 64)

def Block.setDinode (block : Block) (k : Nat) (d : Dinode) : Block :=
  Bytes.setBytes block (64 * k) d.encode

theorem Block.dinode_setDinode_self (block : Block) {k : Nat} {d : Dinode} (inside : k < IPB)
    (range : d.InRange) : (block.setDinode k d).dinode k = d := by
  have fits : 64 * k + d.encode.length ≤ BSIZE := by
    rw [Dinode.length_encode]
    simp only [IPB, BSIZE] at inside ⊢
    omega
  have copied := Bytes.getBytes_setBytes_self block (64 * k) d.encode fits
  rw [Dinode.length_encode] at copied
  rw [Block.dinode, Block.setDinode, copied, Dinode.decode_encode range]

theorem Block.dinode_setDinode_ne (block : Block) {j k : Nat} (d : Dinode) (different : j ≠ k) :
    (block.setDinode k d).dinode j = block.dinode j := by
  unfold Block.dinode Block.setDinode
  rw [Bytes.getBytes_setBytes_disjoint _ _ _ _ _ (by rw [Dinode.length_encode]; omega)]

/-! ## The superblock and its areas -/

@[ext]
structure Superblock where
  size : Nat
  nblocks : Nat
  ninodes : Nat
  nlog : Nat
  logstart : Nat
  inodestart : Nat
  bmapstart : Nat
  deriving DecidableEq

namespace Superblock

def decode (block : Block) : Superblock where
  size := block.word 0
  nblocks := block.word 1
  ninodes := block.word 2
  nlog := block.word 3
  logstart := block.word 4
  inodestart := block.word 5
  bmapstart := block.word 6

variable (sb : Superblock)

def iblock (i : Nat) : Nat := i / IPB + sb.inodestart

def bblock (b : Nat) : Nat := b / BPB + sb.bmapstart

def datastart : Nat := sb.size - sb.nblocks

/-- The areas follow one another as `mkfs` lays them out: superblock, inode
blocks, bit map, data. -/
structure Ok : Prop where
  first : 1 < sb.inodestart
  order : sb.inodestart ≤ sb.bmapstart
  inodes : ∀ i < sb.ninodes, sb.iblock i < sb.bmapstart
  bitmap : ∀ b < sb.size, sb.bblock b < sb.datastart
  addressable : sb.size < 2 ^ 31

def dinode (disk : Disk) (i : Nat) : Dinode := (disk (sb.iblock i)).dinode (i % IPB)

def used (disk : Disk) (b : Nat) : Bool := Bytes.getBit (disk (sb.bblock b)) (b % BPB)

theorem inRange_dinode (disk : Disk) (i : Nat) : (sb.dinode disk i).InRange :=
  Dinode.inRange_decode _

variable {sb}

theorem inodestart_le_iblock (i : Nat) : sb.inodestart ≤ sb.iblock i := Nat.le_add_left _ _

theorem bmapstart_le_bblock (b : Nat) : sb.bmapstart ≤ sb.bblock b := Nat.le_add_left _ _

theorem dinode_update_ne {disk : Disk} {b i : Nat} {block : Block} (other : sb.iblock i ≠ b) :
    sb.dinode (update disk b block) i = sb.dinode disk i := by
  rw [dinode, dinode, update_of_ne other]

theorem used_update_ne {disk : Disk} {b c : Nat} {block : Block} (other : sb.bblock c ≠ b) :
    sb.used (update disk b block) c = sb.used disk c := by
  rw [used, used, update_of_ne other]

theorem dinode_setDinode (disk : Disk) {i : Nat} {d : Dinode} (range : d.InRange) (j : Nat) :
    sb.dinode (update disk (sb.iblock i)
      ((disk (sb.iblock i)).setDinode (i % IPB) d)) j =
      if j = i then d else sb.dinode disk j := by
  have small : i % IPB < IPB := Nat.mod_lt _ (by decide)
  unfold dinode
  by_cases block : sb.iblock j = sb.iblock i
  · rw [block, update_self]
    by_cases same : j = i
    · rw [if_pos same, same, Block.dinode_setDinode_self _ small range]
    · rw [if_neg same, Block.dinode_setDinode_ne]
      simp only [iblock, IPB, BSIZE] at block ⊢
      omega
  · rw [update_of_ne block, if_neg]
    rintro rfl
    exact block rfl

theorem used_setBit (disk : Disk) (b c : Nat) :
    sb.used (update disk (sb.bblock b)
      (Bytes.setBit (disk (sb.bblock b)) (b % BPB))) c =
      if c = b then true else sb.used disk c := by
  have small : b % BPB < BPB := Nat.mod_lt _ (by decide)
  unfold used
  by_cases block : sb.bblock c = sb.bblock b
  · rw [block, update_self]
    by_cases same : c = b
    · rw [if_pos same, same, Bytes.getBit_setBit_self]
      simp only [BPB, BSIZE] at small ⊢
      omega
    · rw [if_neg same, Bytes.getBit_setBit_ne]
      simp only [bblock, BPB, BSIZE] at block ⊢
      omega
  · rw [update_of_ne block, if_neg]
    rintro rfl
    exact block rfl

theorem used_clearBit (disk : Disk) (b c : Nat) :
    sb.used (update disk (sb.bblock b)
      (Bytes.clearBit (disk (sb.bblock b)) (b % BPB))) c =
      if c = b then false else sb.used disk c := by
  unfold used
  by_cases block : sb.bblock c = sb.bblock b
  · rw [block, update_self]
    by_cases same : c = b
    · rw [if_pos same, same, Bytes.getBit_clearBit_self]
    · rw [if_neg same, Bytes.getBit_clearBit_ne]
      simp only [bblock, BPB, BSIZE] at block ⊢
      omega
  · rw [update_of_ne block, if_neg]
    rintro rfl
    exact block rfl

end Superblock

def mkfsSb : Superblock where
  size := FSSIZE
  nblocks := FSSIZE - (2 + LOGSIZE + (200 / IPB + 1) + (FSSIZE / BPB + 1))
  ninodes := 200
  nlog := LOGSIZE
  logstart := 2
  inodestart := 2 + LOGSIZE
  bmapstart := 2 + LOGSIZE + (200 / IPB + 1)

theorem mkfsSb_ok : mkfsSb.Ok where
  first := by decide
  order := by decide
  inodes i small := by
    simp only [mkfsSb, Superblock.iblock, IPB, BSIZE, LOGSIZE, MAXOPBLOCKS] at small ⊢
    omega
  bitmap b small := by
    simp only [mkfsSb, Superblock.bblock, Superblock.datastart, IPB, BPB, BSIZE, FSSIZE, LOGSIZE,
      MAXOPBLOCKS] at small ⊢
    omega
  addressable := by decide

end Xv6
