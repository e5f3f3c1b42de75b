import Xv6.Fs.Directory
import Xv6.Fs.Truncate

/-!
# The kernel under the file system calls

The state `file.c` and `sysfile.c` work on, and the steps their code is made of.
A step is what runs without another process being able to interfere: a critical
section under `icache.lock` or `ftable.lock`, an access to an inode that is
locked, an access of a process to its own `struct proc`, a disk update of `iput`.

`begin_op` and `end_op` keep a record of the blocks that the section between
them passes to `log_write`; it is exact when one process runs at a time.
-/

open Function (update)

namespace Xv6

open Exec

abbrev NFILE : Nat := 100

instance : NeZero NFILE := ⟨by decide⟩
abbrev NOFILE : Nat := 16

abbrev FileId := Fin NFILE

abbrev Fd := Fin NOFILE

inductive FileType where
  | none
  | inode
  deriving DecidableEq

/-- `struct file`, without pipes. -/
structure File where
  type : FileType
  ref : Int
  readable : Bool
  writable : Bool
  ip : Slot
  off : Nat

/-- The part of `struct proc` that belongs to the file system. -/
structure Proc where
  cwd : Option Slot
  ofile : Fd → Option FileId

structure Kernel (Pid : Type) where
  fs : Fs
  ftable : FileId → File
  procs : Pid → Proc
  /-- for each section between `begin_op` and `end_op` the blocks it logged, last first -/
  sections : List (List Nat)
  /-- the inode number `ialloc` of a process has taken and not yet returned -/
  claimed : Pid → Option Nat

abbrev O_RDONLY : Nat := 0x000
abbrev O_WRONLY : Nat := 0x001
abbrev O_RDWR : Nat := 0x002
abbrev O_CREATE : Nat := 0x200

/-- The steps. -/
inductive Op where
  | beginOp
  | endOp
  /-- the number of inodes, from the superblock -/
  | ninodes
  | iget (inum : Nat)
  /-- `iget` in `ialloc`, for the inode it has taken -/
  | igetClaimed (inum : Nat)
  | iallocTry (type inum : Nat)
  | idupCwd
  | ilockAcquire (ip : Slot)
  | ilockLoad (ip : Slot)
  | iunlock (ip : Slot)
  | iputTest (ip : Slot)
  | itrunc (ip : Slot)
  | iputClear (ip : Slot)
  | iputFinish (ip : Slot)
  /-- the number and the fields of a locked inode -/
  | stat (ip : Slot)
  /-- set fields of a locked inode and call `iupdate` -/
  | iupdate (ip : Slot) (major minor nlink : Nat)
  | readi (ip : Slot) (off n : Nat)
  | writei (ip : Slot) (src : List UInt8) (off : Nat)
  | dirlookup (dp : Slot) (name : List UInt8)
  | dirlinkOffset (dp : Slot)
  | isdirempty (dp : Slot)
  | filealloc
  | fdalloc (f : FileId)
  /-- the critical section of `fileclose`; replies with the inode to release -/
  | fileclose (f : FileId)
  /-- fill in the `struct file` of an inode that has been opened -/
  | install (f : FileId) (ip : Slot) (omode : Nat)
  | argfd (fd : Fd)
  | file (f : FileId)
  | setOff (f : FileId) (off : Nat)
  | takeFd (fd : Fd)
  | takeCwd
  | setCwd (ip : Slot)
  | panic (message : Panic)

@[reducible]
def Reply : Op → Type
  | .beginOp => Unit
  | .endOp => Unit
  | .ninodes => Nat
  | .iget _ => Slot
  | .igetClaimed _ => Slot
  | .iallocTry _ _ => Bool
  | .idupCwd => Slot
  | .ilockAcquire _ => Unit
  | .ilockLoad _ => Unit
  | .iunlock _ => Unit
  | .iputTest _ => Bool
  | .itrunc _ => Unit
  | .iputClear _ => Unit
  | .iputFinish _ => Unit
  | .stat _ => Nat × Dinode
  | .iupdate _ _ _ _ => Unit
  | .readi _ _ _ => Option (List UInt8)
  | .writei _ _ _ => Option Nat
  | .dirlookup _ _ => Option (Nat × Nat)
  | .dirlinkOffset _ => Nat
  | .isdirempty _ => Bool
  | .filealloc => Option FileId
  | .fdalloc _ => Option Fd
  | .fileclose _ => Option Slot
  | .install _ _ _ => Unit
  | .argfd _ => Option FileId
  | .file _ => File
  | .setOff _ _ => Unit
  | .takeFd _ => Option FileId
  | .takeCwd => Slot
  | .setCwd _ => Unit
  | .panic _ => Empty

abbrev KernelM (Pid : Type) := Exec Stop (Kernel Pid)

section Steps

variable {Pid : Type} [DecidableEq Pid] (devsw : Devsw) (p : Pid)

/-- A computation of the inode layer as a step of the kernel. -/
def onFs {α : Type} (computation : FsM α) : KernelM Pid α := fun k =>
  match computation k.fs with
  | .ok (value, fs) => .ok (value, { k with fs := fs })
  | .error stop => .error stop

def setFile (f : FileId) (file : File) : KernelM Pid Unit :=
  Exec.modify fun k => { k with ftable := update k.ftable f file }

def setProc (proc : Proc) : KernelM Pid Unit :=
  Exec.modify fun k => { k with procs := update k.procs p proc }

def setClaimed (claim : Option Nat) : KernelM Pid Unit :=
  Exec.modify fun k => { k with claimed := update k.claimed p claim }

/-- `begin_op` at the moment it goes on.  Its waiting for room in the log is not modelled here but
in `Group`, where operations of several processes share a transaction. -/
def beginOp : KernelM Pid Unit :=
  Exec.modify fun k => { k with fs := { k.fs with logged := [] } }

def endOp : KernelM Pid Unit :=
  Exec.modify fun k => { k with sections := k.fs.logged :: k.sections }

def idupCwd : KernelM Pid Slot := do
  let k ← Exec.get
  match (k.procs p).cwd with
  | some ip => onFs (idup ip)
  | none => Exec.fail (.panic .trap)

def claimInode (type inum : Nat) : KernelM Pid Bool := do
  if ← onFs (iallocTry type inum) then
    setClaimed p (some inum)
    return true
  else return false

def getClaimed (inum : Nat) : KernelM Pid Slot := do
  let ip ← onFs (iget inum)
  setClaimed p none
  return ip

def stati (ip : Slot) : FsM (Nat × Dinode) := do
  let inode ← getInode ip
  return (inode.inum, inode.copy)

def setFields (ip : Slot) (major minor nlink : Nat) : FsM Unit := do
  let inode ← getInode ip
  setInode ip { inode with copy := { inode.copy with
    major := major % 2 ^ 16, minor := minor % 2 ^ 16, nlink := nlink % 2 ^ 16 } }
  iupdate ip

def filealloc : KernelM Pid (Option FileId) := do
  let k ← Exec.get
  match (List.finRange NFILE).find? fun f => (k.ftable f).ref == 0 with
  | some f =>
    setFile f { k.ftable f with ref := 1 }
    return some f
  | none => return none

def fdalloc (f : FileId) : KernelM Pid (Option Fd) := do
  let k ← Exec.get
  match (List.finRange NOFILE).find? fun fd => ((k.procs p).ofile fd).isNone with
  | some fd =>
    setProc p { k.procs p with ofile := update (k.procs p).ofile fd (some f) }
    return some fd
  | none => return none

def filecloseSection (f : FileId) : KernelM Pid (Option Slot) := do
  let k ← Exec.get
  let file := k.ftable f
  if file.ref < 1 then Exec.fail (.panic .fileclose)
  else if 0 < file.ref - 1 then
    setFile f { file with ref := file.ref - 1 }
    return none
  else
    setFile f { file with ref := 0, type := .none }
    match file.type with
    | .inode => return some file.ip
    | .none => return none

def install (f : FileId) (ip : Slot) (omode : Nat) : KernelM Pid Unit := do
  let k ← Exec.get
  setFile f { k.ftable f with
    type := .inode
    ip := ip
    off := 0
    readable := omode &&& O_WRONLY == 0
    writable := omode &&& O_WRONLY != 0 || omode &&& O_RDWR != 0 }

def takeFd (fd : Fd) : KernelM Pid (Option FileId) := do
  let k ← Exec.get
  match (k.procs p).ofile fd with
  | some f =>
    setProc p { k.procs p with ofile := update (k.procs p).ofile fd none }
    return some f
  | none => return none

def takeCwd : KernelM Pid Slot := do
  let k ← Exec.get
  match (k.procs p).cwd with
  | some ip =>
    setProc p { k.procs p with cwd := none }
    return ip
  | none => Exec.fail (.panic .trap)

def Op.exec : (op : Op) → KernelM Pid (Reply op)
  | .beginOp => Xv6.beginOp
  | .endOp => Xv6.endOp
  | .ninodes => do
    let k ← Exec.get
    return k.fs.sb.ninodes
  | .iget inum => onFs (Xv6.iget inum)
  | .igetClaimed inum => getClaimed p inum
  | .iallocTry type inum => claimInode p type inum
  | .idupCwd => Xv6.idupCwd p
  | .ilockAcquire ip => onFs (Xv6.ilockAcquire ip)
  | .ilockLoad ip => onFs (Xv6.ilockLoad ip)
  | .iunlock ip => onFs (Xv6.iunlock ip)
  | .iputTest ip => onFs (Xv6.iputTest ip)
  | .itrunc ip => onFs (Xv6.itrunc ip)
  | .iputClear ip => onFs (Xv6.iputClear ip)
  | .iputFinish ip => onFs (Xv6.iputFinish ip)
  | .stat ip => onFs (stati ip)
  | .iupdate ip major minor nlink => onFs (setFields ip major minor nlink)
  | .readi ip off n => onFs (Xv6.readi devsw ip off n)
  | .writei ip src off => onFs (Xv6.writei devsw ip src off)
  | .dirlookup dp name => onFs (Xv6.dirlookup devsw dp name)
  | .dirlinkOffset dp => onFs (Xv6.dirlinkOffset devsw dp)
  | .isdirempty dp => onFs (Xv6.isdirempty devsw dp)
  | .filealloc => Xv6.filealloc
  | .fdalloc f => Xv6.fdalloc p f
  | .fileclose f => filecloseSection f
  | .install f ip omode => Xv6.install f ip omode
  | .argfd fd => do
    let k ← Exec.get
    return (k.procs p).ofile fd
  | .file f => do
    let k ← Exec.get
    return k.ftable f
  | .setOff f off => do
    let k ← Exec.get
    setFile f { k.ftable f with off := off }
  | .takeFd fd => Xv6.takeFd p fd
  | .takeCwd => Xv6.takeCwd p
  | .setCwd ip => do
    let k ← Exec.get
    setProc p { k.procs p with cwd := some ip }
  | .panic message => Exec.fail (.panic message)

end Steps

section Rules

variable {Pid : Type} {k : Kernel Pid} {bad : Stop → Prop}

@[simp]
theorem ensures_onFs {α : Type} {computation : FsM α} {good : α → Kernel Pid → Prop} :
    (onFs computation).Ensures k good bad ↔
      computation.Ensures k.fs (fun value fs => good value { k with fs := fs }) bad := by
  unfold Exec.Ensures onFs
  cases computation k.fs with
  | error stop => rfl
  | ok result => rfl

@[simp]
theorem ensures_setFile {f : FileId} {file : File} {good : Unit → Kernel Pid → Prop} :
    (setFile f file).Ensures k good bad ↔
      good () { k with ftable := update k.ftable f file } := Iff.rfl

variable [DecidableEq Pid]

end Rules

end Xv6
