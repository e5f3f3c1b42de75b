import Xv6.Proc.Table
import Xv6.Vm.Stack

/-!
# The memory of processes

The system calls that allocate and free physical pages: `fork`, `exec`, `sbrk`,
`exit`, `wait`, `pipe` and `close`, each as one step, with all the ways they can
run out of memory.  Page directories, the free list and the flags of a pipe are
words in physical memory; the process table is that of `proc.c`.

Files other than pipes take no pages and are left out.
-/

open Function (update)

namespace Xv6.Pages

open Exec Vm

/-- `struct file`, as far as pipes go. -/
structure PipeFile where
  ref : Int
  /-- for `FD_PIPE` the page of the `struct pipe`, and `writable` -/
  pipe : Option (Nat × Bool)

structure System where
  memory : Memory
  kpgdir : Nat
  table : Ptable
  sz : ProcId → Word
  file : FileId → PipeFile

abbrev SysM (α : Type) := Exec Trap System α

def onMemory {α : Type} (computation : VmM α) : SysM α := fun s =>
  match computation s.memory with
  | .ok (value, m) => .ok (value, { s with memory := m })
  | .error trap => .error trap

@[simp]
theorem ensures_onMemory {α : Type} {computation : VmM α} {s : System} {good : α → System → Prop}
    {bad : Trap → Prop} : (onMemory computation).Ensures s good bad ↔
      computation.Ensures s.memory (fun value m => good value { s with memory := m }) bad := by
  unfold Exec.Ensures onMemory
  cases computation s.memory with
  | error trap => rfl
  | ok result => rfl

def setTable (table : Ptable) : SysM Unit := Exec.modify fun s => { s with table := table }

def setFile (f : FileId) (file : PipeFile) : SysM Unit :=
  Exec.modify fun s => { s with file := update s.file f file }

def setSize (p : ProcId) (sz : Word) : SysM Unit :=
  Exec.modify fun s => { s with sz := update s.sz p sz }

/-! ## Files -/

/-- The words of `readopen` and `writeopen` in a `struct pipe`. -/
def openWord (writable : Bool) : Nat := if writable then 144 else 143

def filealloc : SysM (Option FileId) := do
  let s ← Exec.get
  match (List.finRange NFILE).find? fun f => (s.file f).ref == 0 with
  | some f =>
    setFile f { s.file f with ref := 1 }
    return some f
  | none => return none

def filedup (f : FileId) : SysM Unit := do
  let s ← Exec.get
  if (s.file f).ref < 1 then Exec.fail .file
  else setFile f { s.file f with ref := (s.file f).ref + 1 }

section Calls

variable (layout : Layout)

def pipeclose (page : Nat) (writable : Bool) : VmM Unit := do
  setWord page (openWord writable) 0
  let m ← Exec.get
  if m.page page (openWord false) = 0 ∧ m.page page (openWord true) = 0 then kfree layout page
  else return ()

def fileclose (f : FileId) : SysM Unit := do
  let s ← Exec.get
  let file := s.file f
  if file.ref < 1 then Exec.fail .file
  else if 0 < file.ref - 1 then setFile f { file with ref := file.ref - 1 }
  else
    setFile f ⟨0, none⟩
    match file.pipe with
    | some (page, writable) => onMemory (pipeclose layout page writable)
    | none => return ()

def pipeinit (page : Nat) : VmM Unit := do
  setWord page (openWord false) 1
  setWord page (openWord true) 1
  -- `nwrite` and `nread`
  setWord page 142 0
  setWord page 141 0

def pipealloc : SysM (Option (FileId × FileId)) := do
  match ← filealloc with
  | none => return none
  | some f0 =>
    match ← filealloc with
    | none =>
      fileclose layout f0
      return none
    | some f1 =>
      match ← onMemory kalloc with
      | none =>
        fileclose layout f0
        fileclose layout f1
        return none
      | some page =>
        onMemory (pipeinit page)
        let s ← Exec.get
        setFile f0 { s.file f0 with pipe := some (page, false) }
        let s ← Exec.get
        setFile f1 { s.file f1 with pipe := some (page, true) }
        return some (f0, f1)

def setFd (p : ProcId) (fd : Fd) (f : Option FileId) : SysM Unit := do
  let s ← Exec.get
  setTable (s.table.set p { s.table.proc p with
    ofile := update (s.table.proc p).ofile fd f })

def fdalloc (p : ProcId) (f : FileId) : SysM (Option Fd) := do
  let s ← Exec.get
  match (List.finRange NOFILE).find? fun fd => ((s.table.proc p).ofile fd).isNone with
  | some fd =>
    setFd p fd (some f)
    return some fd
  | none => return none

/-! ## System calls -/

def pipe (p : ProcId) : SysM Unit := do
  match ← pipealloc layout with
  | none => return ()
  | some (rf, wf) =>
    match ← fdalloc p rf with
    | none =>
      fileclose layout rf
      fileclose layout wf
    | some fd0 =>
      match ← fdalloc p wf with
      | none =>
        setFd p fd0 none
        fileclose layout rf
        fileclose layout wf
      | some _ => return ()

def close (p : ProcId) (fd : Fd) : SysM Unit := do
  let s ← Exec.get
  match (s.table.proc p).ofile fd with
  | none => return ()
  | some f =>
    setFd p fd none
    fileclose layout f

/-- The size after growing or shrinking by `n`; zero stands for failure. -/
def resize (pgdir : Nat) (sz n : Word) : VmM Word :=
  if 0 < n.toInt then allocuvm layout pgdir sz (sz + n)
  else if n.toInt < 0 then deallocuvm layout pgdir sz (sz + n)
  else return sz

def growproc (p : ProcId) (n : Word) : SysM Bool := do
  let s ← Exec.get
  match (s.table.proc p).pgdir with
  | none => Exec.fail .nullPointer
  | some pgdir =>
    let sz ← onMemory (resize layout pgdir (s.sz p) n)
    -- also when the whole memory has been given back
    if n ≠ 0 ∧ sz = 0 then return false
    else
      setSize p sz
      return true

def sbrk (p : ProcId) (n : Word) : SysM (Option Word) := do
  let s ← Exec.get
  let addr := s.sz p
  if ← growproc layout p n then return some addr else return none

def dupFiles (ofile : Fd → Option FileId) : List Fd → SysM Unit
  | [] => return ()
  | fd :: rest => do
    match ofile fd with
    | some f =>
      filedup f
      dupFiles ofile rest
    | none => dupFiles ofile rest

def fork (p : ProcId) : SysM Unit := do
  let s ← Exec.get
  match s.table.allocSlot with
  | none => return ()
  | some (np, table) =>
    match ← onMemory kalloc with
    | none => setTable (table.allocStack np none)
    | some kstack =>
      setTable (table.allocStack np (some kstack))
      match (s.table.proc p).pgdir with
      | none => Exec.fail .nullPointer
      | some pgdir =>
        match ← onMemory (copyuvm layout pgdir (s.sz p)) with
        | none =>
          onMemory (kfree layout kstack)
          setTable ((table.allocStack np (some kstack)).copyProcess p np none)
        | some d =>
          setSize np (s.sz p)
          dupFiles (s.table.proc p).ofile (List.finRange NOFILE)
          setTable (((table.allocStack np (some kstack)).copyProcess p np (some d)).setState np
            .runnable)

def exec (p : ProcId) (file : Executable) (argv : Argv) : SysM Unit := do
  match ← onMemory (load layout file) with
  | none => return ()
  | some loaded =>
    match ← onMemory (stack layout loaded.pgdir loaded.sz argv) with
    | none => return ()
    | some (sz, _) =>
      let s ← Exec.get
      match (s.table.proc p).pgdir with
      | none => Exec.fail .nullPointer
      | some oldpgdir =>
        setTable (s.table.set p { s.table.proc p with pgdir := some loaded.pgdir })
        setSize p sz
        onMemory (freevm layout oldpgdir)

def closeFiles (p : ProcId) : List Fd → SysM Unit
  | [] => return ()
  | fd :: rest => do
    let s ← Exec.get
    match (s.table.proc p).ofile fd with
    | some f =>
      fileclose layout f
      setFd p fd none
      closeFiles p rest
    | none => closeFiles p rest

def exit (p : ProcId) : SysM Unit := do
  if p = initproc then Exec.fail .init
  else
    closeFiles layout p (List.finRange NOFILE)
    let s ← Exec.get
    setTable (s.table.exitSection p)

def wait (p : ProcId) : SysM Unit := do
  let s ← Exec.get
  match s.table.scan p (List.finRange NPROC) false with
  | .none _ => return ()
  | .zombie q =>
    match (s.table.proc q).kstack, (s.table.proc q).pgdir with
    | some kstack, some pgdir =>
      onMemory (kfree layout kstack)
      onMemory (freevm layout pgdir)
      setTable (s.table.reap q)
    | _, _ => Exec.fail .nullPointer

/-! ## Starting up -/

/-- `inituvm`; neither its page nor the result of `mappages` is checked. -/
def inituvm (pgdir : Nat) (init : List UInt8) : VmM Unit := do
  if PGSIZE ≤ init.length then Exec.fail .init
  else
    match ← kalloc with
    | none => Exec.fail .nullPointer
    | some mem =>
      setPage mem fun _ => 0
      let _ ← mappages pgdir 0 (BitVec.ofNat 32 PGSIZE) (addr mem) (PTE_W ||| PTE_U)
      let m ← Exec.get
      setPage mem ((m.page mem).store 0 init)

/-- The pages of `userinit`: the kernel stack and the directory of the first process. -/
def userPages (init : List UInt8) : VmM (Nat × Nat) := do
  match ← kalloc with
  | none => Exec.fail .nullPointer
  | some kstack =>
    match ← setupkvm layout with
    | none => Exec.fail .init
    | some pgdir =>
      inituvm pgdir init
      return (kstack, pgdir)

/-- `main` as far as pages go: `kinit1`, `kvmalloc`, `kinit2` and `userinit`. -/
def bootPages (vstart vend vstart2 vend2 : Nat) (init : List UInt8) : VmM (Nat × Nat × Nat) := do
  freerange layout vstart vend
  match ← setupkvm layout with
  | none => Exec.fail .nullPointer
  | some kpgdir =>
    freerange layout vstart2 vend2
    let (kstack, pgdir) ← userPages layout init
    return (kpgdir, kstack, pgdir)

def booted (m : Memory) (kpgdir kstack pgdir : Nat) : System where
  memory := m
  kpgdir := kpgdir
  table := Ptable.userinit kstack pgdir
  sz := update (fun _ => 0) initproc (BitVec.ofNat 32 PGSIZE)
  file := fun _ => ⟨0, none⟩

end Calls

/-! ## Runs -/

inductive Action where
  | fork (p : ProcId)
  | exec (p : ProcId) (file : Executable) (argv : Argv)
  | sbrk (p : ProcId) (n : Word)
  | exit (p : ProcId)
  | wait (p : ProcId)
  | pipe (p : ProcId)
  | close (p : ProcId) (fd : Fd)

def Action.proc : Action → ProcId
  | .fork p | .exec p _ _ | .sbrk p _ | .exit p | .wait p | .pipe p | .close p _ => p

def Action.call (layout : Layout) : Action → SysM Unit
  | .fork p => Pages.fork layout p
  | .exec p file argv => Pages.exec layout p file argv
  | .sbrk p n => do
    let _ ← Pages.sbrk layout p n
  | .exit p => Pages.exit layout p
  | .wait p => Pages.wait layout p
  | .pipe p => Pages.pipe layout p
  | .close p fd => Pages.close layout p fd

/-- A process can make a call when it exists and has not exited. -/
def step (layout : Layout) (s : System) (action : Action) : Option System :=
  if (s.table.proc action.proc).state ∈ [.sleeping, .runnable, .running] then
    match action.call layout s with
    | .ok (_, after) => some after
    | .error _ => none
  else none

end Xv6.Pages
