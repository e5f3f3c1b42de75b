import Xv6.Fs.Layout
import Xv6.Lib.Exec

/-!
# Blocks and inodes

`fs.c` below the directory layer: the block allocator, the inode cache and the
contents of inodes.  The disk is what `bread` presents; a buffer is changed by
`log_write`, which also records the block in the running transaction.  There is
one device, so device numbers are left out.

`ilock` and `iput` are split at their critical sections under `icache.lock`,
so that the same functions serve one caller at a time and interleaved callers.
-/

namespace Xv6

abbrev NINODE : Nat := 50

instance : NeZero NINODE := ⟨by decide⟩
abbrev NDEV : Nat := 10

inductive Panic where
  /-- "balloc: out of blocks" -/
  | outOfBlocks
  /-- "freeing free block" -/
  | freeingFreeBlock
  /-- "ialloc: no inodes" -/
  | iallocNoInodes
  /-- "iget: no inodes" -/
  | igetNoInodes
  /-- "ilock" -/
  | ilock
  /-- "ilock: no type" -/
  | ilockNoType
  /-- "iunlock" -/
  | iunlock
  /-- "iput busy" -/
  | iputBusy
  /-- "bmap: out of range" -/
  | bmapOutOfRange
  /-- "dirlookup not DIR" -/
  | dirlookupNotDir
  /-- "dirlink read" -/
  | dirlinkRead
  /-- "dirlink" -/
  | dirlink
  /-- "isdirempty: readi" -/
  | isdiremptyReadi
  /-- "unlink: nlink < 1" -/
  | unlinkNlink
  /-- "unlink: writei" -/
  | unlinkWritei
  /-- "create dots" -/
  | createDots
  /-- "create: dirlink" -/
  | createDirlink
  /-- "fileclose" -/
  | fileclose
  /-- "fileread" -/
  | fileread
  /-- "filewrite" -/
  | filewrite
  /-- "short filewrite" -/
  | shortFilewrite
  /-- "trap", for a kernel that follows a null pointer -/
  | trap
  deriving DecidableEq, Repr

inductive Stop where
  | panic (message : Panic)
  /-- waiting in `sleep` for another process to release an inode -/
  | asleep
  deriving DecidableEq, Repr

/-- `struct inode`; `copy` is its copy of the disk inode. -/
structure Inode where
  inum : Nat
  ref : Int
  busy : Bool
  valid : Bool
  copy : Dinode

abbrev Slot := Fin NINODE

structure Fs where
  disk : Disk
  sb : Superblock
  icache : Slot → Inode
  /-- the blocks passed to `log_write` in the running transaction, last first -/
  logged : List Nat

abbrev FsM := Exec Stop Fs

/-- `devsw`: what the driver of a major number does, if there is one.  A read
returns the bytes it delivers, a write the count it reports; -1 is `none`. -/
structure Devsw where
  read : Nat → Option (Nat → Option (List UInt8))
  write : Nat → Option (List UInt8 → Option Nat)

def panic {α : Type} (message : Panic) : FsM α := Exec.fail (.panic message)

def bread (b : Nat) : FsM Block := do
  let fs ← Exec.get
  return fs.disk b

/-- `log_write` without its two panics.  Whether the header had room for the block is read off
`logged` (`Fs.Admitted`); that the caller is inside a transaction, off the system calls. -/
def logWrite (b : Nat) (data : Block) : FsM Unit :=
  Exec.modify fun fs =>
    { fs with disk := Function.update fs.disk b data, logged := b :: fs.logged }

def getSb : FsM Superblock := do
  let fs ← Exec.get
  return fs.sb

def getInode (ip : Slot) : FsM Inode := do
  let fs ← Exec.get
  return fs.icache ip

def setInode (ip : Slot) (inode : Inode) : FsM Unit :=
  Exec.modify fun fs => { fs with icache := Function.update fs.icache ip inode }

/-! ## Blocks -/

def readsb : FsM Unit := do
  let bp ← bread 1
  Exec.modify fun fs => { fs with sb := Superblock.decode bp }

def bzero (b : Nat) : FsM Unit := logWrite b fun _ => 0

/-- The inner loop of `balloc`: the first clear bit of a bit map block. -/
@[irreducible]
def freeBit (bp : Block) (b size : Nat) : Option Nat :=
  (List.range BPB).find? fun bi => b + bi < size && !Bytes.getBit bp bi

/-- The outer loop of `balloc`, over the values of `b`. -/
def ballocLoop : List Nat → FsM Nat
  | [] => panic .outOfBlocks
  | b :: rest => do
    let sb ← getSb
    let bp ← bread (sb.bblock b)
    match freeBit bp b sb.size with
    | some bi =>
      logWrite (sb.bblock b) (Bytes.setBit bp bi)
      bzero (b + bi)
      return b + bi
    | none => ballocLoop rest

def balloc : FsM Nat := do
  let sb ← getSb
  ballocLoop ((List.range ((sb.size + BPB - 1) / BPB)).map (· * BPB))

def bfree (b : Nat) : FsM Unit := do
  readsb
  let sb ← getSb
  let bp ← bread (sb.bblock b)
  if Bytes.getBit bp (b % BPB) then logWrite (sb.bblock b) (Bytes.clearBit bp (b % BPB))
  else panic .freeingFreeBlock

/-! ## Inodes -/

def iget (inum : Nat) : FsM Slot := do
  let fs ← Exec.get
  match (List.finRange NINODE).find? fun ip =>
    0 < (fs.icache ip).ref && (fs.icache ip).inum == inum with
  | some ip =>
    setInode ip { fs.icache ip with ref := (fs.icache ip).ref + 1 }
    return ip
  | none =>
    match (List.finRange NINODE).find? fun ip => (fs.icache ip).ref == 0 with
    | some ip =>
      setInode ip { fs.icache ip with inum := inum, ref := 1, busy := false, valid := false }
      return ip
    | none => panic .igetNoInodes

def iallocTry (type inum : Nat) : FsM Bool := do
  let sb ← getSb
  let bp ← bread (sb.iblock inum)
  if (bp.dinode (inum % IPB)).type = 0 then
    logWrite (sb.iblock inum) (bp.setDinode (inum % IPB) (Dinode.zeroed type))
    return true
  else return false

def iallocLoop (type : Nat) : List Nat → FsM Slot
  | [] => panic .iallocNoInodes
  | inum :: rest => do
    if ← iallocTry type inum then iget inum else iallocLoop type rest

def ialloc (type : Nat) : FsM Slot := do
  let sb ← getSb
  iallocLoop type (List.range' 1 (sb.ninodes - 1))

def iupdate (ip : Slot) : FsM Unit := do
  let inode ← getInode ip
  let sb ← getSb
  let bp ← bread (sb.iblock inode.inum)
  logWrite (sb.iblock inode.inum) (bp.setDinode (inode.inum % IPB) inode.copy)

def idup (ip : Slot) : FsM Slot := do
  let inode ← getInode ip
  setInode ip { inode with ref := inode.ref + 1 }
  return ip

def ilockAcquire (ip : Slot) : FsM Unit := do
  let inode ← getInode ip
  if inode.ref < 1 then panic .ilock
  else if inode.busy then Exec.fail .asleep
  else setInode ip { inode with busy := true }

/-- The rest of `ilock`: read the inode if the entry is not valid. -/
def ilockLoad (ip : Slot) : FsM Unit := do
  let inode ← getInode ip
  if inode.valid then return ()
  else
    let sb ← getSb
    let bp ← bread (sb.iblock inode.inum)
    let dip := bp.dinode (inode.inum % IPB)
    setInode ip { inode with copy := dip, valid := true }
    if dip.type = 0 then panic .ilockNoType else return ()

def ilock (ip : Slot) : FsM Unit := do
  ilockAcquire ip
  ilockLoad ip

def iunlock (ip : Slot) : FsM Unit := do
  let inode ← getInode ip
  if !inode.busy || inode.ref < 1 then panic .iunlock
  else setInode ip { inode with busy := false }

/-! ## Inode content -/

def bmapAddr (ip : Slot) (k : Nat) : FsM Nat := do
  let inode ← getInode ip
  if inode.copy.addr k = 0 then
    let addr ← balloc
    setInode ip { inode with copy := inode.copy.setAddr k addr }
    return addr
  else return inode.copy.addr k

/-- `a[bn]` in the indirect block, allocating the block if there is none. -/
def bmapEntry (indirect bn : Nat) : FsM Nat := do
  let bp ← bread indirect
  if bp.word bn = 0 then
    let addr ← balloc
    logWrite indirect (bp.setWord bn addr)
    return addr
  else return bp.word bn

def bmap (ip : Slot) (bn : Nat) : FsM Nat :=
  if bn < NDIRECT then bmapAddr ip bn
  else if bn - NDIRECT < NINDIRECT then do
    let indirect ← bmapAddr ip NDIRECT
    bmapEntry indirect (bn - NDIRECT)
  else panic .bmapOutOfRange

def itruncDirect (ip : Slot) : List Nat → FsM Unit
  | [] => pure ()
  | i :: rest => do
    let inode ← getInode ip
    if inode.copy.addr i = 0 then itruncDirect ip rest
    else
      bfree (inode.copy.addr i)
      setInode ip { inode with copy := inode.copy.setAddr i 0 }
      itruncDirect ip rest

/-- The loop of `itrunc` over the entries of the indirect block. -/
def itruncEntries (bp : Block) : List Nat → FsM Unit
  | [] => pure ()
  | j :: rest => do
    if bp.word j = 0 then itruncEntries bp rest
    else
      bfree (bp.word j)
      itruncEntries bp rest

/-- The part of `itrunc` that frees the indirect block. -/
def itruncIndirect (ip : Slot) : FsM Unit := do
  let inode ← getInode ip
  if inode.copy.addr NDIRECT = 0 then return ()
  else
    let bp ← bread (inode.copy.addr NDIRECT)
    itruncEntries bp (List.range NINDIRECT)
    bfree (inode.copy.addr NDIRECT)
    setInode ip { inode with copy := inode.copy.setAddr NDIRECT 0 }

def itrunc (ip : Slot) : FsM Unit := do
  itruncDirect ip (List.range NDIRECT)
  itruncIndirect ip
  let inode ← getInode ip
  setInode ip { inode with copy := { inode.copy with size := 0 } }
  iupdate ip

/-- The first critical section of `iput`: whether the inode has to be freed. -/
def iputTest (ip : Slot) : FsM Bool := do
  let inode ← getInode ip
  if inode.ref = 1 ∧ inode.valid ∧ inode.copy.nlink = 0 then
    if inode.busy then panic .iputBusy
    else
      setInode ip { inode with busy := true }
      return true
  else
    setInode ip { inode with ref := inode.ref - 1 }
    return false

def iputClear (ip : Slot) : FsM Unit := do
  let inode ← getInode ip
  setInode ip { inode with copy := { inode.copy with type := 0 } }
  iupdate ip

def iputFinish (ip : Slot) : FsM Unit := do
  let inode ← getInode ip
  setInode ip { inode with busy := false, valid := false, ref := inode.ref - 1 }

def iput (ip : Slot) : FsM Unit := do
  if ← iputTest ip then
    itrunc ip
    iputClear ip
    iputFinish ip
  else return ()

section Content

variable (devsw : Devsw)

def readiLoop (ip : Slot) : (fuel n off : Nat) → FsM (List UInt8)
  | 0, _, _ => pure []
  | fuel + 1, n, off =>
    if n = 0 then pure []
    else do
      let b ← bmap ip (off / BSIZE)
      let bp ← bread b
      let m := min n (BSIZE - off % BSIZE)
      let rest ← readiLoop ip fuel (n - m) (off + m)
      return Bytes.getBytes bp (off % BSIZE) m ++ rest

/-- The bytes delivered, whose number is the return value; `none` is -1. -/
def readi (ip : Slot) (off n : Nat) : FsM (Option (List UInt8)) := do
  let inode ← getInode ip
  if inode.copy.type = T_DEV then
    if NDEV ≤ inode.copy.major then return none
    else return (devsw.read inode.copy.major).bind fun read => read n
  else if inode.copy.size < off ∨ (off + n) % 2 ^ 32 < off then return none
  else
    let n := if inode.copy.size < off + n then inode.copy.size - off else n
    let bytes ← readiLoop ip n n off
    return some bytes

/-- The loop of `writei`; returns the offset it ends at. -/
def writeiLoop (ip : Slot) : (fuel : Nat) → (src : List UInt8) → (off : Nat) → FsM Nat
  | 0, _, off => pure off
  | fuel + 1, src, off =>
    if src = [] then pure off
    else do
      let b ← bmap ip (off / BSIZE)
      let bp ← bread b
      let m := min src.length (BSIZE - off % BSIZE)
      logWrite b (Bytes.setBytes bp (off % BSIZE) (src.take m))
      writeiLoop ip fuel (src.drop m) (off + m)

def writei (ip : Slot) (src : List UInt8) (off : Nat) : FsM (Option Nat) := do
  let inode ← getInode ip
  if inode.copy.type = T_DEV then
    if NDEV ≤ inode.copy.major then return none
    else return (devsw.write inode.copy.major).bind fun write => write src
  else if inode.copy.size < off ∨ (off + src.length) % 2 ^ 32 < off then return none
  else if MAXFILE * BSIZE < off + src.length then return none
  else
    let last ← writeiLoop ip src.length src off
    let inode ← getInode ip
    if 0 < src.length ∧ inode.copy.size < last then
      setInode ip { inode with copy := { inode.copy with size := last } }
      iupdate ip
      return some src.length
    else return some src.length

end Content

end Xv6
