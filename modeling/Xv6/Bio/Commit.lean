import Xv6.Bio.Flat
import Xv6.Log.Capacity

/-!
# The log on the buffer cache

`log.c` on top of `bio.c` and `memide.c`.  The bookkeeping is that of `Group`;
each turn of a loop of `commit` is here a program over the cache, one node for
each thing it does to a buffer, and `bread` and `bwrite` take the steps they
take in `bio.c`.

Between the calls of `log.c` a process reads, changes, writes and releases
buffers as it likes, inside a transaction or outside; it calls `log_write` inside
one.

The last field of `Store` is history and is never read by the code.
-/

namespace Xv6.Bio

open Ide (memIderw)

/-! ## The turns of `commit` -/

/-- What `commit` does with buffers. -/
inductive CommitOp where
  | bread (blockno : Nat)
  | load (b : BufId)
  | store (b : BufId) (data : Block)
  | bwrite (b : BufId)
  | brelse (b : BufId)

@[reducible] def CommitOp.Reply : CommitOp → Type
  | .bread _ => BufId
  | .load _ => Block
  | .store _ _ | .bwrite _ | .brelse _ => Unit

abbrev CommitM := Prog CommitOp CommitOp.Reply

namespace CommitM

def bread (blockno : Nat) : CommitM BufId := Prog.op (CommitOp.bread blockno)

def load (b : BufId) : CommitM Block := Prog.op (CommitOp.load b)

def store (b : BufId) (data : Block) : CommitM Unit := Prog.op (CommitOp.store b data)

def bwrite (b : BufId) : CommitM Unit := Prog.op (CommitOp.bwrite b)

def brelse (b : BufId) : CommitM Unit := Prog.op (CommitOp.brelse b)

end CommitM

/-- The body of the loop of `write_log`. -/
def writeLogTurn (log : Log) (tail blockno : Nat) : CommitM Unit := do
  let target ← CommitM.bread (log.start + tail + 1)
  let source ← CommitM.bread blockno
  let data ← CommitM.load source
  CommitM.store target data
  CommitM.bwrite target
  CommitM.brelse source
  CommitM.brelse target

/-- The body of the loop of `install_trans`. -/
def installTurn (log : Log) (tail blockno : Nat) : CommitM Unit := do
  let lbuf ← CommitM.bread (log.start + tail + 1)
  let dbuf ← CommitM.bread blockno
  let data ← CommitM.load lbuf
  CommitM.store dbuf data
  CommitM.bwrite dbuf
  CommitM.brelse lbuf
  CommitM.brelse dbuf

def writeHeadTurn (log : Log) (lh : List Nat) : CommitM Unit := do
  let buf ← CommitM.bread log.start
  let data ← CommitM.load buf
  CommitM.store buf (encodeHead data lh)
  CommitM.bwrite buf
  CommitM.brelse buf

/-- What `commit` does to buffers at one place of its text. -/
def turn (log : Log) (lh : List Nat) : CommitPc → CommitM Unit
  | .writeLog tail => match lh[tail]? with
      | some blockno => writeLogTurn log tail blockno
      | none => pure ()
  | .writeHead | .eraseHead => writeHeadTurn log lh
  | .install tail => match lh[tail]? with
      | some blockno => installTurn log tail blockno
      | none => pure ()
  | .start | .clear | .done => pure ()

/-! ## The system -/

/-- What is left of a turn. -/
inductive Code where
  | run (rest : CommitM Unit)
  | reading (next : BufId → CommitM Unit)

structure Store (Pid : Type) where
  cache : Cache Pid Disk
  group : Group Pid
  code : Pid → Code
  /-- the buffer passed to `log_write` -/
  arg : Pid → Option BufId
  /-- what each block was last given by `log_write` or `bwrite` -/
  content : Disk

def Store.init (Pid : Type) (disk : Disk) : Store Pid where
  cache := binit Pid disk
  group := Group.init Pid
  code _ := .run (pure ())
  arg _ := none
  content := disk

section Calls

variable {Pid : Type} [DecidableEq Pid]

namespace Store

variable (s : Store Pid)

def advance (action : Action Pid) : Option (Store Pid) :=
  (step (memIderw FSSIZE) s.cache action).map fun cache =>
    { s with cache := cache, content := s.cache.give s.content action }

/-- A step of the bookkeeping. -/
def note (log : Log) (act : LogAct Pid) : Option (Store Pid) :=
  (s.group.step log act).map fun group => { s with group := group }

def setCode (p : Pid) (code : Code) : Store Pid := { s with code := Function.update s.code p code }

def enter (log : Log) (p : Pid) : Store Pid :=
  match s.group.pc p with
  | .commit pc => s.setCode p (.run (turn log s.group.lh pc))
  | _ => s

def free (p : Pid) : Bool :=
  match s.group.pc p with
  | .out | .inOp _ _ => true
  | _ => false

def atRest (p : Pid) : Bool :=
  match s.cache.pc p with
  | .out _ => true
  | _ => false

def commit (log : Log) (p : Pid) : Option (Store Pid) :=
  match s.code p with
  | .reading next => match s.cache.pc p with
      | .out (some b) => some (s.setCode p (.run (next b)))
      | _ => none
  | .run (.call (.bread blockno) next) =>
    (s.advance (.bread p 1 blockno)).map (·.setCode p (.reading next))
  | .run (.call (.load b) next) =>
    if s.cache.Uses p b then some (s.setCode p (.run (next (s.cache.buf b).data))) else none
  | .run (.call (.store b data) next) =>
    (s.advance (.modify p b data)).map (·.setCode p (.run (next ())))
  | .run (.call (.bwrite b) next) =>
    (s.advance (.bwrite p b)).map (·.setCode p (.run (next ())))
  | .run (.call (.brelse b) next) =>
    (s.advance (.brelse p b)).map (·.setCode p (.run (next ())))
  | .run (.ret _) =>
    if s.atRest p then (s.note log (.commit p)).map (·.enter log p) else none

end Store

inductive Act (Pid : Type) where
  | bget (p : Pid)
  | rouse (p : Pid)
  | iderw (p : Pid)
  | bread (p : Pid) (dev blockno : Nat)
  | modify (p : Pid) (b : BufId) (data : Block)
  | bwrite (p : Pid) (b : BufId)
  | brelse (p : Pid) (b : BufId)
  | call (p : Pid)
  | beginOp (p : Pid)
  | logWrite (p : Pid) (b : BufId)
  | append (p : Pid)
  | endOp (p : Pid)
  | commit (p : Pid)
  | finish (p : Pid)

/-- One step of the system; `none` if the action is not possible, or a panic. -/
def Store.step (log : Log) (s : Store Pid) (act : Act Pid) : Option (Store Pid) :=
  if s.group.panicked.isSome then none else
  match act with
  | .bget p => s.advance (.bget p)
  | .rouse p => s.advance (.rouse p)
  | .iderw p => s.advance (.iderw p)
  | .bread p dev blockno => if s.free p then s.advance (.bread p dev blockno) else none
  | .modify p b data => if s.free p then s.advance (.modify p b data) else none
  | .bwrite p b => if s.free p then s.advance (.bwrite p b) else none
  | .brelse p b => if s.free p then s.advance (.brelse p b) else none
  | .call p => if s.atRest p then s.note log (.call p) else none
  | .beginOp p => s.note log (.beginOp p)
  | .logWrite p b =>
    if s.cache.Uses p b then
      (s.note log (.logWrite p (s.cache.buf b).blockno)).map fun next =>
        { next with arg := Function.update s.arg p (some b) }
    else none
  | .append p => match s.arg p with
      | some b => (s.advance (.logWrite p b)).bind (·.note log (.append p))
      | none => none
  | .endOp p => if s.atRest p then (s.note log (.endOp p)).map (·.enter log p) else none
  | .commit p => match s.group.pc p with
      | .commit _ => s.commit log p
      | _ => none
  | .finish p => s.note log (.finish p)

end Calls

/-! ## The conditions on the processes -/

section Conditions

variable {Pid : Type}

/-- A process releases a buffer with the contents it last gave or found. -/
def Store.Proper (s : Store Pid) : Act Pid → Prop
  | .brelse _ b => (s.cache.buf b).data = s.content (s.cache.buf b).blockno
  | _ => True

/-- Besides, outside `commit` no block of the transaction and none of the log is
written with `bwrite`, no block of the log is passed to `log_write`, and the
transaction fits the log. -/
def Store.WriteAhead [Fintype Pid] (log : Log) (s : Store Pid) : Act Pid → Prop
  | .brelse _ b => (s.cache.buf b).data = s.content (s.cache.buf b).blockno
  | .bwrite _ b => log.Home (s.cache.buf b).blockno ∧ (s.cache.buf b).blockno ∉ s.group.lh
  | .logWrite _ b => log.Home (s.cache.buf b).blockno ∧
      (insert (s.cache.buf b).blockno s.group.claimed).card ≤ log.size - 1
  | _ => True

end Conditions

end Xv6.Bio
