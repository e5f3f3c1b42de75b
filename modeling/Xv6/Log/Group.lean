import Xv6.Lib.Transition
import Xv6.Log.Disk

/-!
# Group commit

The in-memory half of `log.c`: `begin_op`, `log_write`, `end_op` and `commit`
run by any number of processes.  A critical section under `log.lock` is one
step; the two tests that `log_write` makes before it acquires the lock are a
step of their own, and `commit` takes one step for each block it writes.

The fields after `panicked` are history and are never read by the code.
-/

namespace Xv6

inductive CommitPc where
  | start
  | writeLog (tail : Nat)
  | writeHead
  | install (tail : Nat)
  | clear
  | eraseHead
  /-- `commit` has returned to `end_op` -/
  | done
  deriving DecidableEq, Repr

/-- Where a process is.  An operation carries its number and the blocks it has
passed to `log_write`. -/
inductive LogPc where
  | out
  /-- in `begin_op`, about to test under `log.lock` -/
  | begin
  /-- in `begin_op`, sleeping on `&log` -/
  | asleep
  | inOp (op : Nat) (passed : List Nat)
  /-- in `log_write`, past its tests and before `acquire` -/
  | tested (op : Nat) (passed : List Nat) (blockno : Nat)
  /-- in `end_op`, with `do_commit` set -/
  | commit (pc : CommitPc)
  deriving DecidableEq, Repr

def LogPc.InOp : LogPc → Prop
  | .inOp _ _ => True
  | .tested _ _ _ => True
  | _ => False

instance : DecidablePred LogPc.InOp := fun pc => by
  cases pc <;> unfold LogPc.InOp <;> infer_instance

/-- The panics of `log_write` and `end_op`. -/
inductive LogPanic where
  /-- "too big a transaction" -/
  | tooBig
  /-- "log_write outside of trans" -/
  | outsideTrans
  /-- "log.committing" -/
  | committing
  deriving DecidableEq, Repr

/-- `struct log`, the processes, and the history of the run. -/
structure Group (Pid : Type) where
  outstanding : Int
  committing : Bool
  lh : List Nat
  pc : Pid → LogPc
  panicked : Option LogPanic
  nextOp : Nat
  epoch : Nat
  /-- each `log_write`: operation, block, epoch -/
  writes : List (Nat × Nat × Nat)
  /-- each committed transaction: epoch and blocks of its header -/
  committed : List (Nat × List Nat)
  /-- the disk blocks `write_log` has written -/
  logged : List Nat

variable {Pid : Type} [DecidableEq Pid]

/-- The zeroed `struct log` after `initlog`. -/
def Group.init (Pid : Type) : Group Pid where
  outstanding := 0
  committing := false
  lh := []
  pc _ := .out
  panicked := none
  nextOp := 0
  epoch := 0
  writes := []
  committed := []
  logged := []

def Group.setPc (state : Group Pid) (p : Pid) (pc : LogPc) : Group Pid :=
  { state with pc := Function.update state.pc p pc }

def Group.wakeup (state : Group Pid) : Group Pid :=
  { state with pc := fun p => if state.pc p = .asleep then .begin else state.pc p }

def Group.panic (state : Group Pid) (message : LogPanic) : Group Pid :=
  { state with panicked := some message }

/-- The loop of `log_write`: the block is absorbed if it is in the header,
else appended. -/
def absorb (lh : List Nat) (blockno : Nat) : List Nat :=
  if blockno ∈ lh then lh else lh ++ [blockno]

def Group.beginOp (state : Group Pid) (p : Pid) : Group Pid :=
  if state.committing then state.setPc p .asleep
  else if (LOGSIZE : Int) < state.lh.length + (state.outstanding + 1) * MAXOPBLOCKS then
    state.setPc p .asleep
  else
    { state.setPc p (.inOp state.nextOp []) with
      outstanding := state.outstanding + 1
      nextOp := state.nextOp + 1 }

/-- The tests of `log_write`, made without the lock. -/
def Group.logWriteTest (log : Log) (state : Group Pid) (p : Pid) (op : Nat)
    (passed : List Nat) (blockno : Nat) : Group Pid :=
  if LOGSIZE ≤ state.lh.length ∨ (log.size : Int) - 1 ≤ state.lh.length then
    state.panic .tooBig
  else if state.outstanding < 1 then state.panic .outsideTrans
  else state.setPc p (.tested op (blockno :: passed) blockno)

/-- The locked part of `log_write`. -/
def Group.logWriteAppend (state : Group Pid) (p : Pid) (op : Nat) (passed : List Nat)
    (blockno : Nat) : Group Pid :=
  { state.setPc p (.inOp op passed) with
    lh := absorb state.lh blockno
    writes := (op, blockno, state.epoch) :: state.writes }

def Group.endOp (state : Group Pid) (p : Pid) : Group Pid :=
  let released := { state with outstanding := state.outstanding - 1 }
  if state.committing then released.panic .committing
  else if state.outstanding - 1 = 0 then
    { released.setPc p (.commit .start) with committing := true }
  else (released.setPc p .out).wakeup

/-- A step of `commit`.  The buffers behind its reads are the buffer cache's part: with
`NBUF` blocks in the header all buffers are dirty, and the first read of `write_log` panics. -/
def Group.commitStep (log : Log) (state : Group Pid) (p : Pid) : CommitPc → Group Pid
  | .start => state.setPc p (.commit (if 0 < state.lh.length then .writeLog 0 else .done))
  | .writeLog tail =>
    if tail < state.lh.length then
      { state.setPc p (.commit (.writeLog (tail + 1))) with
        logged := (log.start + tail + 1) :: state.logged }
    else state.setPc p (.commit .writeHead)
  | .writeHead =>
    { state.setPc p (.commit (.install 0)) with
      committed := (state.epoch, state.lh) :: state.committed }
  | .install tail =>
    state.setPc p (.commit (if tail < state.lh.length then .install (tail + 1) else .clear))
  | .clear => { state.setPc p (.commit .eraseHead) with lh := [] }
  | .eraseHead => state.setPc p (.commit .done)
  | .done => state

def Group.finish (state : Group Pid) (p : Pid) : Group Pid :=
  { (state.setPc p .out).wakeup with committing := false, epoch := state.epoch + 1 }

inductive LogAct (Pid : Type) where
  | call (p : Pid)
  | beginOp (p : Pid)
  | logWrite (p : Pid) (blockno : Nat)
  | append (p : Pid)
  | endOp (p : Pid)
  | commit (p : Pid)
  | finish (p : Pid)
  deriving Repr

/-- One step of the system.  After a panic nothing runs. -/
def Group.step (log : Log) (state : Group Pid) (act : LogAct Pid) : Option (Group Pid) :=
  if state.panicked.isSome then none else
  match act with
  | .call p => match state.pc p with
      | .out => some (state.setPc p .begin)
      | _ => none
  | .beginOp p => match state.pc p with
      | .begin => some (state.beginOp p)
      | _ => none
  | .logWrite p blockno => match state.pc p with
      | .inOp op passed => some (state.logWriteTest log p op passed blockno)
      | _ => none
  | .append p => match state.pc p with
      | .tested op passed blockno => some (state.logWriteAppend p op passed blockno)
      | _ => none
  | .endOp p => match state.pc p with
      | .inOp _ _ => some (state.endOp p)
      | _ => none
  | .commit p => match state.pc p with
      | .commit .done => none
      | .commit pc => some (state.commitStep log p pc)
      | _ => none
  | .finish p => match state.pc p with
      | .commit .done => some (state.finish p)
      | _ => none

abbrev Group.Reachable (log : Log) (allowed : Group Pid → LogAct Pid → Prop) :
    Group Pid → Prop :=
  Transition.Reachable (Group.step log) allowed (Group.init Pid)

abbrev Group.Run (log : Log) : Group Pid → Prop :=
  Group.Reachable log fun _ _ => True

end Xv6
