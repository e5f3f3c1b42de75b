import Xv6.Lib.Bytes

/-!
# Parameters and block layout

The constants of `param.h`, `fs.h` and `memlayout.h`, the byte blocks of the disk, and the
superblock `mkfs` writes.  Names follow the source.
-/

namespace Xv6

/-- `MAXOPBLOCKS`: max # of blocks any FS op writes. -/
def MAXOPBLOCKS : Nat := 10

/-- `LOGSIZE`: max data blocks in on-disk log. -/
def LOGSIZE : Nat := MAXOPBLOCKS * 3

def FSSIZE : Nat := 1000

def BSIZE : Nat := 512

abbrev KERNBASE : Nat := 0x80000000

/-- A block as `struct buf` holds it. -/
abbrev Block := Fin BSIZE → UInt8

/-- A disk, or what the buffer cache presents as one. -/
abbrev Disk := Nat → Block

def Block.word (block : Block) (i : Nat) : Nat := Bytes.getNum 4 block (4 * i)

def Block.setWord (block : Block) (i value : Nat) : Block := Bytes.setNum 4 block (4 * i) value

theorem Block.word_setWord_self (block : Block) {i value : Nat} (inside : i < 128)
    (fits : value < 2 ^ 32) : (block.setWord i value).word i = value :=
  Bytes.getNum_setNum_self block (by unfold BSIZE; omega) (by simpa using fits)

theorem Block.word_setWord_ne (block : Block) {i j value : Nat} (different : i ≠ j) :
    (block.setWord j value).word i = block.word i :=
  Bytes.getNum_setNum_disjoint block (by omega)

theorem Block.word_zero (i : Nat) : Block.word (fun _ => 0) i = 0 := Bytes.getNum_zero 4 (4 * i)

end Xv6
