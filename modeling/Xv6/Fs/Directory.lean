import Xv6.Fs.Content

/-!
# Directories

The directory layer of `fs.c`, up to the point where an inode number becomes an
inode: entries, names, and the loops of `dirlookup`, `dirlink` and `isdirempty`
over a locked directory.  A C string is the list of its characters before the
terminating zero.
-/

namespace Xv6

open Exec Fs

abbrev DIRSIZ : Nat := 14

abbrev DESIZE : Nat := 2 + DIRSIZ

/-- `struct dirent`; `name` has the characters before the first zero. -/
structure Dirent where
  inum : Nat
  name : List UInt8
  deriving DecidableEq

namespace Dirent

/-- The characters of a buffer up to the first zero. -/
def cname (buffer : List UInt8) : List UInt8 := buffer.takeWhile (· ≠ 0)

def decode (bytes : List UInt8) : Dirent where
  inum := Bytes.field bytes 0 2
  name := cname ((bytes.drop 2).take DIRSIZ)

/-- The memory image after `strncpy(de.name, name, DIRSIZ); de.inum = inum`. -/
def encode (de : Dirent) : List UInt8 :=
  Bytes.toLE 2 de.inum ++ (de.name.take DIRSIZ ++
    List.replicate (DIRSIZ - (de.name.take DIRSIZ).length) 0)

theorem length_encode (de : Dirent) : de.encode.length = DESIZE := by
  have short : (de.name.take DIRSIZ).length ≤ DIRSIZ := List.length_take_le _ _
  simp only [encode, List.length_append, Bytes.length_toLE, List.length_replicate]
  rw [Nat.add_sub_of_le short]

end Dirent

def namecmp (s t : List UInt8) : Bool := s.take DIRSIZ == t.take DIRSIZ

/-- The offsets the loops over a directory of a given size go through. -/
def offsets (start size : Nat) : List Nat :=
  (List.range' start ((size + (DESIZE - 1)) / DESIZE - start)).map (DESIZE * ·)

section Loops

variable (devsw : Devsw)

/-- `readi(dp, (char*)&de, off, sizeof(de))`, which has to read all of it. -/
def readDirent (message : Panic) (dp : Slot) (off : Nat) : FsM Dirent := do
  match ← readi devsw dp off DESIZE with
  | some bytes => if bytes.length = DESIZE then return Dirent.decode bytes else panic message
  | none => panic message

/-- The loop of `dirlookup`: the inode number and offset of the entry. -/
def dirlookupLoop (dp : Slot) (name : List UInt8) : List Nat → FsM (Option (Nat × Nat))
  | [] => return none
  | off :: rest => do
    let de ← readDirent devsw .dirlinkRead dp off
    if de.inum = 0 then dirlookupLoop dp name rest
    else if namecmp name de.name then return some (de.inum, off)
    else dirlookupLoop dp name rest

def dirlookup (dp : Slot) (name : List UInt8) : FsM (Option (Nat × Nat)) := do
  let inode ← getInode dp
  if inode.copy.type ≠ T_DIR then panic .dirlookupNotDir
  else dirlookupLoop devsw dp name (offsets 0 inode.copy.size)

/-- The loop of `dirlink`; ends at the size if no entry is free. -/
def dirlinkLoop (dp : Slot) (size : Nat) : List Nat → FsM Nat
  | [] => return DESIZE * ((size + (DESIZE - 1)) / DESIZE)
  | off :: rest => do
    let de ← readDirent devsw .dirlinkRead dp off
    if de.inum = 0 then return off else dirlinkLoop dp size rest

/-- The offset at which `dirlink` writes its entry. -/
def dirlinkOffset (dp : Slot) : FsM Nat := do
  let inode ← getInode dp
  dirlinkLoop devsw dp inode.copy.size (offsets 0 inode.copy.size)

def isdiremptyLoop (dp : Slot) : List Nat → FsM Bool
  | [] => return true
  | off :: rest => do
    let de ← readDirent devsw .isdiremptyReadi dp off
    if de.inum ≠ 0 then return false else isdiremptyLoop dp rest

def isdirempty (dp : Slot) : FsM Bool := do
  let inode ← getInode dp
  isdiremptyLoop devsw dp (offsets 2 inode.copy.size)

end Loops

/-! ## Paths -/

def slash : UInt8 := 47

/-- The next element of a path and what follows it. -/
def skipelem (path : List UInt8) : Option (List UInt8 × List UInt8) :=
  match path.dropWhile (· == slash) with
  | [] => none
  | start => some ((start.takeWhile (· != slash)).take DIRSIZ,
      (start.dropWhile (· != slash)).dropWhile (· == slash))

theorem skipelem_length {path name rest : List UInt8} (next : skipelem path = some (name, rest)) :
    rest.length < path.length := by
  have trimmed : (path.dropWhile (· == slash)).length ≤ path.length :=
    (List.dropWhile_suffix _).length_le
  unfold skipelem at next
  split at next
  · cases next
  next nonempty =>
    cases start : path.dropWhile (· == slash) with
    | nil => exact absurd start nonempty
    | cons first later =>
      have visible := List.head?_dropWhile_not (· == slash) path
      rw [start] at next trimmed visible
      simp only [List.head?_cons] at visible
      simp only [Option.some.injEq, Prod.mk.injEq] at next
      rw [← next.2, List.dropWhile_cons_of_pos (by simpa [bne] using visible)]
      have inner : (later.dropWhile (· != slash)).length ≤ later.length :=
        (List.dropWhile_suffix _).length_le
      have outer : ((later.dropWhile (· != slash)).dropWhile (· == slash)).length ≤
          (later.dropWhile (· != slash)).length := (List.dropWhile_suffix _).length_le
      rw [List.length_cons] at trimmed
      omega

end Xv6
