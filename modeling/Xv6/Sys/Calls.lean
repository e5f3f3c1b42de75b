import Xv6.Sys.Kernel

/-!
# File system calls

`sysfile.c` and the functions below it that take more than one step, as programs
over the steps of the kernel.  The arguments are those `argstr` and `argint` have
fetched; a result of -1 is `none`.  There is one device, so comparisons of device
numbers are left out.
-/

namespace Xv6.Sys

abbrev P (α : Type) := Prog Op Reply α

def call (op : Op) : P (Reply op) := Prog.op op

def panic {α : Type} (message : Panic) : P α := .call (.panic message) fun never => never.elim

/-! ## Inodes -/

def ilock (ip : Slot) : P Unit := do
  call (.ilockAcquire ip)
  call (.ilockLoad ip)

def iunlock (ip : Slot) : P Unit := call (.iunlock ip)

def iput (ip : Slot) : P Unit := do
  if ← call (.iputTest ip) then
    call (.itrunc ip)
    call (.iputClear ip)
    call (.iputFinish ip)
  else return ()

def iunlockput (ip : Slot) : P Unit := do
  iunlock ip
  iput ip

def iallocLoop (type : Nat) : List Nat → P Slot
  | [] => panic .iallocNoInodes
  | inum :: rest => do
    if ← call (.iallocTry type inum) then call (.igetClaimed inum)
    else iallocLoop type rest

def ialloc (type : Nat) : P Slot := do
  let ninodes ← call .ninodes
  iallocLoop type (List.range' 1 (ninodes - 1))

/-! ## Directories and paths -/

def dirlookup (dp : Slot) (name : List UInt8) : P (Option (Slot × Nat)) := do
  match ← call (.dirlookup dp name) with
  | some (inum, off) =>
    let ip ← call (.iget inum)
    return some (ip, off)
  | none => return none

def dirlink (dp : Slot) (name : List UInt8) (inum : Nat) : P Bool := do
  match ← dirlookup dp name with
  | some (ip, _) =>
    iput ip
    return false
  | none =>
    let off ← call (.dirlinkOffset dp)
    let r ← call (.writei dp (Dirent.encode ⟨inum, name⟩) off)
    if r = some DESIZE then return true else panic .dirlink

/-- The loop of `namex`; with the inode comes the last element of the path. -/
def namexLoop (parent : Bool) : (fuel : Nat) → (path name : List UInt8) → Slot →
    P (Option (Slot × List UInt8))
  | 0, _, name, ip => return some (ip, name)
  | fuel + 1, path, last, ip =>
    match skipelem path with
    | none =>
      if parent then do
        iput ip
        return none
      else return some (ip, last)
    | some (name, rest) => do
      ilock ip
      let (_, inode) ← call (.stat ip)
      if inode.type ≠ T_DIR then
        iunlockput ip
        return none
      else if parent ∧ rest = [] then
        iunlock ip
        return some (ip, name)
      else
        match ← dirlookup ip name with
        | none =>
          iunlockput ip
          return none
        | some (next, _) =>
          iunlockput ip
          namexLoop parent fuel rest name next

def namex (path : List UInt8) (parent : Bool) : P (Option (Slot × List UInt8)) := do
  let ip ← if path.head? = some slash then call (.iget ROOTINO) else call .idupCwd
  -- every turn takes an element off the path
  namexLoop parent (path.length + 1) path [] ip

def namei (path : List UInt8) : P (Option Slot) := do
  match ← namex path false with
  | some (ip, _) => return some ip
  | none => return none

def nameiparent (path : List UInt8) : P (Option (Slot × List UInt8)) := namex path true

/-! ## Files -/

def fileclose (f : FileId) : P Unit := do
  match ← call (.fileclose f) with
  | some ip =>
    call .beginOp
    iput ip
    call .endOp
  | none => return ()

def advance (f : FileId) (off : Nat) : Option Nat → P Unit
  | some r => if 0 < r then call (.setOff f ((off + r) % 2 ^ 32)) else return ()
  | none => return ()

def fileread (f : FileId) (n : Nat) : P (Option (List UInt8)) := do
  let file ← call (.file f)
  if !file.readable then return none
  else
    match file.type with
    | .none => panic .fileread
    | .inode =>
      ilock file.ip
      let { off, .. } ← call (.file f)
      let r ← call (.readi file.ip off n)
      advance f off (r.map List.length)
      iunlock file.ip
      return r

def maxWrite : Nat := ((LOGSIZE - 1 - 1 - 2) / 2) * 512

/-- The end of a section of `filewrite`, when `writei` has returned. -/
def endSection (f : FileId) (ip : Slot) (off : Nat) (r : Option Nat) : P (Option Nat) := do
  advance f off r
  iunlock ip
  call .endOp
  return r

def filewriteSection (f : FileId) (src : List UInt8) : P (Option Nat) := do
  call .beginOp
  let { ip, .. } ← call (.file f)
  ilock ip
  let { off, .. } ← call (.file f)
  let r ← call (.writei ip src off)
  endSection f ip off r

/-- The loop of `filewrite`; `i` bytes have been written.  Returns the final `i`. -/
def filewriteLoop (f : FileId) (addr : Nat → UInt8) (n : Int) : (fuel i : Nat) → P Nat
  | 0, i => return i
  | fuel + 1, i => do
    if i < n then
      let n1 := min (n - i).toNat maxWrite
      match ← filewriteSection f ((List.range n1).map fun k => addr (i + k)) with
      | some r => if r = n1 then filewriteLoop f addr n fuel (i + r) else panic .shortFilewrite
      | none => return i
    else return i

def filewrite (f : FileId) (addr : Nat → UInt8) (n : Int) : P (Option Nat) := do
  let file ← call (.file f)
  if !file.writable then return none
  else
    match file.type with
    | .none => panic .filewrite
    | .inode =>
      let i ← filewriteLoop f addr n n.toNat 0
      if i = n then return some i else return none

/-! ## System calls -/

def sysRead (fd : Fd) (n : Nat) : P (Option Nat) := do
  match ← call (.argfd fd) with
  | none => return none
  | some f =>
    let bytes ← fileread f n
    return bytes.map List.length

def sysWrite (fd : Fd) (addr : Nat → UInt8) (n : Int) : P (Option Nat) := do
  match ← call (.argfd fd) with
  | none => return none
  | some f => filewrite f addr n

def sysClose (fd : Fd) : P (Option Nat) := do
  match ← call (.takeFd fd) with
  | none => return none
  | some f =>
    fileclose f
    return some 0

def sysLinkBad (ip : Slot) : P (Option Nat) := do
  ilock ip
  let (_, inode) ← call (.stat ip)
  call (.iupdate ip inode.major inode.minor (inode.nlink + (2 ^ 16 - 1)))
  iunlockput ip
  call .endOp
  return none

def sysLink (old new : List UInt8) : P (Option Nat) := do
  call .beginOp
  match ← namei old with
  | none =>
    call .endOp
    return none
  | some ip =>
    ilock ip
    let (inum, inode) ← call (.stat ip)
    if inode.type = T_DIR then
      iunlockput ip
      call .endOp
      return none
    else
      call (.iupdate ip inode.major inode.minor (inode.nlink + 1))
      iunlock ip
      match ← nameiparent new with
      | none => sysLinkBad ip
      | some (dp, name) =>
        ilock dp
        if ← dirlink dp name inum then
          iunlockput dp
          iput ip
          call .endOp
          return some 0
        else
          iunlockput dp
          sysLinkBad ip

def sysUnlinkBad (dp : Slot) : P (Option Nat) := do
  iunlockput dp
  call .endOp
  return none

def dot : List UInt8 := [46]
def dotdot : List UInt8 := [46, 46]

def hasEntries (ip : Slot) (inode : Dinode) : P Bool := do
  if inode.type = T_DIR then
    let empty ← call (.isdirempty ip)
    return !empty
  else return false

def dropDotdot (dp : Slot) (inode : Dinode) : P Unit := do
  if inode.type = T_DIR then
    let (_, parent) ← call (.stat dp)
    call (.iupdate dp parent.major parent.minor (parent.nlink + (2 ^ 16 - 1)))
  else return ()

def unlinkEntry (dp ip : Slot) (off : Nat) (inode : Dinode) : P (Option Nat) := do
  let r ← call (.writei dp (List.replicate DESIZE 0) off)
  if r = some DESIZE then
    dropDotdot dp inode
    iunlockput dp
    call (.iupdate ip inode.major inode.minor (inode.nlink + (2 ^ 16 - 1)))
    iunlockput ip
    call .endOp
    return some 0
  else panic .unlinkWritei

def sysUnlink (path : List UInt8) : P (Option Nat) := do
  call .beginOp
  match ← nameiparent path with
  | none =>
    call .endOp
    return none
  | some (dp, name) =>
    ilock dp
    if namecmp name dot ∨ namecmp name dotdot then sysUnlinkBad dp
    else
      match ← dirlookup dp name with
      | none => sysUnlinkBad dp
      | some (ip, off) =>
        ilock ip
        let (_, inode) ← call (.stat ip)
        -- `nlink` is a short
        if inode.nlink = 0 ∨ 2 ^ 15 ≤ inode.nlink then panic .unlinkNlink
        else if ← hasEntries ip inode then
          iunlockput ip
          sysUnlinkBad dp
        else unlinkEntry dp ip off inode

def createInode (dp : Slot) (type major minor : Nat) : P (Slot × Nat) := do
  let ip ← ialloc type
  ilock ip
  let (inum, _) ← call (.stat ip)
  call (.iupdate ip major minor 1)
  if type = T_DIR then
    let (parent, inode) ← call (.stat dp)
    call (.iupdate dp inode.major inode.minor (inode.nlink + 1))
    if ← dirlink ip dot inum then
      if ← dirlink ip dotdot parent then return (ip, inum) else panic .createDots
    else panic .createDots
  else return (ip, inum)

def create (path : List UInt8) (type major minor : Nat) : P (Option Slot) := do
  match ← nameiparent path with
  | none => return none
  | some (dp, name) =>
    ilock dp
    match ← dirlookup dp name with
    | some (ip, _) =>
      iunlockput dp
      ilock ip
      let (_, inode) ← call (.stat ip)
      if type = T_FILE ∧ inode.type = T_FILE then return some ip
      else
        iunlockput ip
        return none
    | none =>
      let (ip, inum) ← createInode dp type major minor
      if ← dirlink dp name inum then
        iunlockput dp
        return some ip
      else panic .createDirlink

def openInode (path : List UInt8) (omode : Nat) : P (Option Slot) := do
  if omode &&& O_CREATE ≠ 0 then create path T_FILE 0 0
  else
    match ← namei path with
    | none => return none
    | some ip =>
      ilock ip
      let (_, inode) ← call (.stat ip)
      if inode.type = T_DIR ∧ omode ≠ O_RDONLY then
        iunlockput ip
        return none
      else return some ip

def sysOpenBad (ip : Slot) : P (Option Nat) := do
  iunlockput ip
  call .endOp
  return none

def sysOpen (path : List UInt8) (omode : Nat) : P (Option Nat) := do
  call .beginOp
  match ← openInode path omode with
  | none =>
    call .endOp
    return none
  | some ip =>
    match ← call .filealloc with
    | none => sysOpenBad ip
    | some f =>
      match ← call (.fdalloc f) with
      | none =>
        fileclose f
        sysOpenBad ip
      | some fd =>
        iunlock ip
        call .endOp
        call (.install f ip omode)
        return some fd.val

def sysMake (path : List UInt8) (type major minor : Nat) : P (Option Nat) := do
  call .beginOp
  match ← create path type major minor with
  | none =>
    call .endOp
    return none
  | some ip =>
    iunlockput ip
    call .endOp
    return some 0

def sysMkdir (path : List UInt8) : P (Option Nat) := sysMake path T_DIR 0 0

def sysMknod (path : List UInt8) (major minor : Nat) : P (Option Nat) :=
  sysMake path T_DEV major minor

def sysChdir (path : List UInt8) : P (Option Nat) := do
  call .beginOp
  match ← namei path with
  | none =>
    call .endOp
    return none
  | some ip =>
    ilock ip
    let (_, inode) ← call (.stat ip)
    if inode.type ≠ T_DIR then
      iunlockput ip
      call .endOp
      return none
    else
      iunlock ip
      let old ← call .takeCwd
      iput old
      call .endOp
      call (.setCwd ip)
      return some 0

def exitFiles : List Fd → P Unit
  | [] => return ()
  | fd :: rest => do
    match ← call (.takeFd fd) with
    | some f => fileclose f
    | none => pure ()
    exitFiles rest

def exit : P (Option Nat) := do
  exitFiles (List.finRange NOFILE)
  call .beginOp
  let cwd ← call .takeCwd
  iput cwd
  call .endOp
  return none

inductive Call where
  | open (path : List UInt8) (omode : Nat)
  | mkdir (path : List UInt8)
  | mknod (path : List UInt8) (major minor : Nat)
  | link (old new : List UInt8)
  | unlink (path : List UInt8)
  | chdir (path : List UInt8)
  | close (fd : Fd)
  | exit
  | read (fd : Fd) (n : Nat)
  | write (fd : Fd) (addr : Nat → UInt8) (n : Int)

def Call.program : Call → P (Option Nat)
  | .open path omode => sysOpen path omode
  | .mkdir path => sysMkdir path
  | .mknod path major minor => sysMknod path major minor
  | .link old new => sysLink old new
  | .unlink path => sysUnlink path
  | .chdir path => sysChdir path
  | .close fd => sysClose fd
  | .exit => Sys.exit
  | .read fd n => sysRead fd n
  | .write fd addr n => sysWrite fd addr n

/-! ## Running alone -/

section Alone

open Exec

variable {Pid α β : Type} [DecidableEq Pid] (devsw : Devsw) (p : Pid)

/-- A program run by process `p` with nothing in between. -/
abbrev alone (program : P α) : KernelM Pid α := program.exec (Op.exec devsw p)

variable {devsw p} {k : Kernel Pid} {bad : Stop → Prop}

@[simp]
theorem ensures_ilock {ip : Slot} {good : Unit → Kernel Pid → Prop} :
    (alone devsw p (ilock ip)).Ensures k good bad ↔
      (Xv6.ilock ip).Ensures k.fs (fun value fs => good value { k with fs := fs }) bad := by
  unfold ilock Xv6.ilock
  simp only [call, Prog.op, Prog.ensures_exec_bind, Prog.ensures_call, Prog.ensures_ret, Op.exec,
    ensures_onFs, ensures_bind]

end Alone

end Xv6.Sys
