import Xv6.Fs.Directory

/-!
# mkfs

`mkfs.c`, which builds the file system image on the host.  The image file is a
sequence of sectors; writing past its end extends it and reading past its end
is an error.  The calls of the host that the program cannot influence succeed,
except that an input file may be missing; `read` returns its bytes in pieces of
any size up to the buffer's.

Integers are stored in Intel byte order, so `xint` and `xshort` are part of the
encoding of the structures on disk.
-/

namespace Xv6.Mkfs

abbrev NINODES : Nat := 200

def nbitmap : Nat := FSSIZE / (BSIZE * 8) + 1
def ninodeblocks : Nat := NINODES / IPB + 1
def nlog : Nat := LOGSIZE

/-- Number of meta blocks (boot, sb, nlog, inode, bitmap). -/
def nmeta : Nat := 2 + nlog + ninodeblocks + nbitmap

def nblocks : Nat := FSSIZE - nmeta

def sb : Superblock where
  size := FSSIZE
  nblocks := nblocks
  ninodes := NINODES
  nlog := nlog
  logstart := 2
  inodestart := 2 + nlog
  bmapstart := 2 + nlog + ninodeblocks

def zeroes : Block := fun _ => 0

/-- The ways to end other than `exit(0)`. -/
inductive Exit where
  /-- `perror("read")` -/
  | read
  /-- `perror(argv[i])` -/
  | «open»
  /-- `assert(index(argv[i], '/') == 0)` -/
  | slash
  /-- `assert(rootino == ROOTINO)` -/
  | rootino
  /-- `assert(fbn < MAXFILE)` -/
  | maxfile
  /-- `assert(used < BSIZE*8)` -/
  | bitmap
  deriving DecidableEq, Repr

/-- What one call of `read(fd, buf, sizeof(buf))` delivers, if it is anything. -/
structure Chunk where
  bytes : List UInt8
  nonempty : bytes ≠ []
  fits : bytes.length ≤ BSIZE

structure File where
  arg : List UInt8
  noNul : 0 ∉ arg
  /-- what the calls of `read` deliver, if `open` finds the file -/
  chunks : Option (List Chunk)

/-- `fsfd`, `freeinode` and `freeblock`. -/
structure Image where
  sector : Disk
  length : Nat
  freeinode : Nat
  freeblock : Nat

abbrev MkfsM := Exec Exit Image

def wsect (sec : Nat) (buf : Block) : MkfsM Unit :=
  Exec.modify fun s =>
    { s with sector := Function.update s.sector sec buf, length := max s.length (sec + 1) }

def rsect (sec : Nat) : MkfsM Block := do
  let s ← Exec.get
  if sec < s.length then return s.sector sec else Exec.fail .read

def winode (inum : Nat) (ip : Dinode) : MkfsM Unit := do
  let buf ← rsect (sb.iblock inum)
  wsect (sb.iblock inum) (buf.setDinode (inum % IPB) ip)

def rinode (inum : Nat) : MkfsM Dinode := do
  let buf ← rsect (sb.iblock inum)
  return buf.dinode (inum % IPB)

def ialloc (type : Nat) : MkfsM Nat := do
  let s ← Exec.get
  Exec.modify fun s => { s with freeinode := s.freeinode + 1 }
  winode s.freeinode { Dinode.zeroed type with nlink := 1 }
  return s.freeinode

def bitmap (used : Nat) : Block := (List.range used).foldl Bytes.setBit zeroes

def balloc (used : Nat) : MkfsM Unit :=
  if BSIZE * 8 ≤ used then Exec.fail .bitmap else wsect sb.bmapstart (bitmap used)

def takeBlock : MkfsM Nat := do
  let s ← Exec.get
  Exec.modify fun s => { s with freeblock := s.freeblock + 1 }
  return s.freeblock

def takeAddr (din : Dinode) (k : Nat) : MkfsM Dinode :=
  if din.addr k = 0 then do
    let b ← takeBlock
    return din.setAddr k b
  else return din

def takeEntry (indirect k : Nat) : MkfsM Nat := do
  let buf ← rsect indirect
  if buf.word k = 0 then
    let b ← takeBlock
    wsect indirect (buf.setWord k b)
    return b
  else return buf.word k

/-- The block `x` that holds block `fbn` of the file. -/
def fileBlock (din : Dinode) (fbn : Nat) : MkfsM (Nat × Dinode) :=
  if fbn < NDIRECT then do
    let din ← takeAddr din fbn
    return (din.addr fbn, din)
  else do
    let din ← takeAddr din NDIRECT
    let x ← takeEntry (din.addr NDIRECT) (fbn - NDIRECT)
    return (x, din)

/-- The loop of `iappend`, with the bytes `p` left to append at `off`. -/
def iappendLoop : (fuel : Nat) → (p : List UInt8) → (off : Nat) → Dinode → MkfsM (Nat × Dinode)
  | 0, _, off, din => pure (off, din)
  | fuel + 1, p, off, din =>
    if p = [] then pure (off, din)
    else if MAXFILE ≤ off / BSIZE then Exec.fail .maxfile
    else do
      let (x, din) ← fileBlock din (off / BSIZE)
      let n1 := min p.length ((off / BSIZE + 1) * BSIZE - off)
      let buf ← rsect x
      wsect x (Bytes.setBytes buf (off - off / BSIZE * BSIZE) (p.take n1))
      iappendLoop fuel (p.drop n1) (off + n1) din

def iappend (inum : Nat) (p : List UInt8) : MkfsM Unit := do
  let din ← rinode inum
  let (off, din) ← iappendLoop p.length p din.size din
  winode inum { din with size := off }

/-- `while((cc = read(fd, buf, sizeof(buf))) > 0) iappend(inum, buf, cc)` -/
def copyFile (inum : Nat) : List Chunk → MkfsM Unit
  | [] => pure ()
  | chunk :: rest => do
    iappend inum chunk.bytes
    copyFile inum rest

def File.name (file : File) : List UInt8 :=
  match file.arg with
  | 95 :: rest => rest
  | arg => arg

def addFile (rootino : Nat) (file : File) : MkfsM Unit :=
  if slash ∈ file.arg then Exec.fail .slash
  else match file.chunks with
    | none => Exec.fail .open
    | some chunks => do
      let inum ← ialloc T_FILE
      iappend rootino (Dirent.encode ⟨inum, file.name⟩)
      copyFile inum chunks

def addFiles (rootino : Nat) : List File → MkfsM Unit
  | [] => pure ()
  | file :: rest => do
    addFile rootino file
    addFiles rootino rest

def wipe : List Nat → MkfsM Unit
  | [] => pure ()
  | i :: rest => do
    wsect i zeroes
    wipe rest

def sbBlock : Block :=
  Bytes.setBytes zeroes 0
    ([sb.size, sb.nblocks, sb.ninodes, sb.nlog, sb.logstart, sb.inodestart, sb.bmapstart].flatMap
      (Bytes.toLE 4))

def dot : List UInt8 := [46]
def dotdot : List UInt8 := [46, 46]

def makeRoot : MkfsM Nat := do
  let rootino ← ialloc T_DIR
  if rootino ≠ ROOTINO then Exec.fail .rootino
  else
    iappend rootino (Dirent.encode ⟨rootino, dot⟩)
    iappend rootino (Dirent.encode ⟨rootino, dotdot⟩)
    return rootino

/-- "fix size of root inode dir" -/
def fixRoot (rootino : Nat) : MkfsM Unit := do
  let din ← rinode rootino
  winode rootino { din with size := (din.size / BSIZE + 1) * BSIZE }

-- not to be unfolded by the way: it starts with a thousand writes
@[irreducible]
def main (files : List File) : MkfsM Unit := do
  wipe (List.range FSSIZE)
  wsect 1 sbBlock
  let rootino ← makeRoot
  addFiles rootino files
  fixRoot rootino
  let s ← Exec.get
  balloc s.freeblock

def Image.empty : Image where
  sector _ := zeroes
  length := 0
  freeinode := 1
  freeblock := nmeta

end Xv6.Mkfs
