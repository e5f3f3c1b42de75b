import Mathlib.Logic.Function.Basic
import Xv6.Lib.Program
import Xv6.Param

/-!
# The redo log on disk

`log.c` below the in-memory bookkeeping: the header block, `write_log`,
`write_head`, `install_trans`, `commit` and `recover_from_log` as programs over
the two buffer operations they use.  Every `bwrite` is one node of such a
program, so a crash can fall between any two block writes.

A clean buffer equals its disk block (`bio.c`), so the machine keeps only the
dirty ones, which `log_write` has pinned.
-/

namespace Xv6

/-- `log.start` and `log.size` as `initlog` takes them from the superblock.
The header counts as a block of the region, and `lh.block` has an entry for
every other block of it. -/
structure Log where
  start : Nat
  size : Nat
  size_pos : 0 < size
  size_le : size - 1 ≤ LOGSIZE

def mkfsLog : Log where
  start := 2
  size := LOGSIZE
  size_pos := by decide
  size_le := by decide

def Log.Home (log : Log) (blockno : Nat) : Prop :=
  blockno < log.start ∨ log.start + log.size ≤ blockno

theorem Log.Home.ne_slot {log : Log} {blockno tail : Nat} (home : log.Home blockno)
    (inside : tail < log.size) : blockno ≠ log.start + tail := by
  unfold Log.Home at home
  omega

theorem Log.Home.ne_start {log : Log} {blockno : Nat} (home : log.Home blockno) :
    blockno ≠ log.start := home.ne_slot log.size_pos

/-- The buffer operations of `bio.c`. -/
inductive BufOp where
  | bread (blockno : Nat)
  | bwrite (blockno : Nat) (data : Block)

@[reducible] def BufOp.Reply : BufOp → Type
  | .bread _ => Block
  | .bwrite _ _ => Unit

abbrev BufM := Prog BufOp BufOp.Reply

def BufM.bread (blockno : Nat) : BufM Block := Prog.op (BufOp.bread blockno)

def BufM.bwrite (blockno : Nat) (data : Block) : BufM Unit := Prog.op (BufOp.bwrite blockno data)

/-! ## The header block -/

/-- `lh->n`, an `int`: a negative count runs no loop. -/
def headLength (buf : Block) : Nat := if buf.word 0 < 2 ^ 31 then buf.word 0 else 0

def decodeHead (buf : Block) : List Nat :=
  (List.range (headLength buf)).map fun i => buf.word (i + 1)

/-- The copying loop of `write_head`, from entry `i` on. -/
def storeEntries : Block → (i : Nat) → List Nat → Block
  | buf, _, [] => buf
  | buf, i, blockno :: rest => storeEntries (buf.setWord i blockno) (i + 1) rest

/-- The header block `write_head` stores.  Entries past the count keep what an
earlier transaction left there. -/
def encodeHead (buf : Block) (lh : List Nat) : Block :=
  storeEntries (buf.setWord 0 lh.length) 1 lh

theorem word_storeEntries_lt (buf : Block) (lh : List Nat) {i j : Nat} (below : j < i) :
    (storeEntries buf i lh).word j = buf.word j := by
  induction lh generalizing buf i with
  | nil => rfl
  | cons blockno rest ih =>
    rw [storeEntries, ih _ (by omega), Block.word_setWord_ne _ (by omega)]

theorem word_storeEntries (buf : Block) (lh : List Nat) (i : Nat)
    (room : i + lh.length ≤ 128) (small : ∀ blockno ∈ lh, blockno < 2 ^ 32)
    (k : Nat) (bound : k < lh.length) : (storeEntries buf i lh).word (i + k) = lh[k] := by
  induction lh generalizing buf i k with
  | nil => simp at bound
  | cons blockno rest ih =>
    simp only [List.length_cons] at room bound
    cases k with
    | zero =>
      have stored : (buf.setWord i blockno).word i = blockno :=
        Block.word_setWord_self _ (by omega) (small _ (by simp))
      rw [storeEntries, word_storeEntries_lt _ _ (by omega)]
      exact stored
    | succ k =>
      have tail := ih (buf.setWord i blockno) (i + 1) (by omega)
        (fun other membership => small other (by simp [membership])) k (by omega)
      rw [storeEntries, show i + (k + 1) = i + 1 + k by omega, tail]
      rfl

theorem word_encodeHead (buf : Block) (lh : List Nat) (room : lh.length ≤ LOGSIZE) :
    (encodeHead buf lh).word 0 = lh.length := by
  unfold LOGSIZE MAXOPBLOCKS at room
  rw [encodeHead, word_storeEntries_lt _ _ (by omega),
    Block.word_setWord_self _ (by omega) (by omega)]

theorem headLength_encodeHead (buf : Block) (lh : List Nat) (room : lh.length ≤ LOGSIZE) :
    headLength (encodeHead buf lh) = lh.length := by
  rw [headLength, word_encodeHead buf lh room, if_pos]
  unfold LOGSIZE MAXOPBLOCKS at room
  omega

theorem headLength_eq_zero {buf : Block} (empty : buf.word 0 = 0) : headLength buf = 0 := by
  rw [headLength, empty, if_pos (by decide)]

theorem decodeHead_encodeHead (buf : Block) (lh : List Nat) (room : lh.length ≤ LOGSIZE)
    (small : ∀ blockno ∈ lh, blockno < 2 ^ 32) : decodeHead (encodeHead buf lh) = lh := by
  have count := headLength_encodeHead buf lh room
  unfold decodeHead
  apply List.ext_getElem (by simp [count])
  intro k _ bound
  have words : 1 + lh.length ≤ 128 := by
    unfold LOGSIZE MAXOPBLOCKS at room
    omega
  simp only [List.getElem_map, List.getElem_range]
  rw [Nat.add_comm k 1]
  exact word_storeEntries _ _ _ words small k bound

/-! ## The programs of `log.c` -/

/-- The loop of `install_trans` from block `tail` on; the list is what is left
of `log.lh.block`. -/
def installFrom (log : Log) : (tail : Nat) → List Nat → BufM Unit
  | _, [] => pure ()
  | tail, blockno :: rest => do
    let lbuf ← BufM.bread (log.start + tail + 1)
    let _dbuf ← BufM.bread blockno
    BufM.bwrite blockno lbuf
    installFrom log (tail + 1) rest

theorem installFrom_cons (log : Log) (tail blockno : Nat) (rest : List Nat) :
    installFrom log tail (blockno :: rest) =
      Prog.call (BufOp.bread (log.start + tail + 1)) fun lbuf =>
        Prog.call (BufOp.bread blockno) fun _ =>
          Prog.call (BufOp.bwrite blockno lbuf) fun _ => installFrom log (tail + 1) rest := rfl

def installTrans (log : Log) (lh : List Nat) : BufM Unit := installFrom log 0 lh

def readHead (log : Log) : BufM (List Nat) := do
  let buf ← BufM.bread log.start
  pure (decodeHead buf)

def writeHead (log : Log) (lh : List Nat) : BufM Unit := do
  let buf ← BufM.bread log.start
  BufM.bwrite log.start (encodeHead buf lh)

theorem writeHead_eq (log : Log) (lh : List Nat) :
    writeHead log lh = Prog.call (BufOp.bread log.start) fun buf =>
      Prog.call (BufOp.bwrite log.start (encodeHead buf lh)) Prog.ret := rfl

def recoverFromLog (log : Log) : BufM Unit := do
  let lh ← readHead log
  installTrans log lh
  writeHead log []

theorem recoverFromLog_eq (log : Log) :
    recoverFromLog log = Prog.call (BufOp.bread log.start) fun buf =>
      installTrans log (decodeHead buf) >>= fun _ => writeHead log [] := by
  simp only [recoverFromLog, readHead, BufM.bread, Prog.op_bind, Prog.call_bind, Prog.pure_eq,
    Prog.ret_bind]

/-- The loop of `write_log` from block `tail` on. -/
def writeLogFrom (log : Log) : (tail : Nat) → List Nat → BufM Unit
  | _, [] => pure ()
  | tail, blockno :: rest => do
    let _to ← BufM.bread (log.start + tail + 1)
    let buffer ← BufM.bread blockno
    BufM.bwrite (log.start + tail + 1) buffer
    writeLogFrom log (tail + 1) rest

theorem writeLogFrom_cons (log : Log) (tail blockno : Nat) (rest : List Nat) :
    writeLogFrom log tail (blockno :: rest) =
      Prog.call (BufOp.bread (log.start + tail + 1)) fun _ =>
        Prog.call (BufOp.bread blockno) fun buffer =>
          Prog.call (BufOp.bwrite (log.start + tail + 1) buffer) fun _ =>
            writeLogFrom log (tail + 1) rest := rfl

def writeLog (log : Log) (lh : List Nat) : BufM Unit := writeLogFrom log 0 lh

def commit (log : Log) (lh : List Nat) : BufM Unit :=
  if 0 < lh.length then do
    writeLog log lh
    writeHead log lh
    installTrans log lh
    writeHead log []
  else pure ()

theorem commit_of_pos (log : Log) {lh : List Nat} (positive : 0 < lh.length) :
    commit log lh = writeLog log lh >>= fun _ => writeHead log lh >>= fun _ =>
      installTrans log lh >>= fun _ => writeHead log [] := by
  rw [commit, if_pos positive]

/-! ## The machine -/

/-- The block contents a transaction writes, in the order of `log.lh.block`. -/
abbrev Writes := List (Nat × Block)

/-- A transaction as `log_write` admits it: distinct home blocks, no more than
the log region has room for, each with the contents of its pinned buffer. -/
structure Transaction (log : Log) where
  writes : Writes
  distinct : (writes.map Prod.fst).Nodup
  fits : writes.length ≤ log.size - 1
  home : ∀ write ∈ writes, log.Home write.1
  blockno_lt : ∀ write ∈ writes, write.1 < 2 ^ 32

def Transaction.blocks {log : Log} (transaction : Transaction log) : List Nat :=
  transaction.writes.map Prod.fst

/-- Disk and pinned buffers.  The last two fields are history: the transaction
`commit` is working on, and those whose header has reached the disk. -/
structure Machine where
  disk : Disk
  dirty : Nat → Option Block
  pending : Option Writes
  committed : List Writes

/-- History of a block write: the header reaching the disk with `n > 0` commits
the pending transaction. -/
def Machine.noteWrite (log : Log) (machine : Machine) (blockno : Nat) (data : Block) : Machine :=
  if blockno = log.start ∧ 0 < headLength data then
    { machine with pending := none, committed := machine.committed ++ machine.pending.toList }
  else machine

/-- What `bread` returns: the pinned buffer if there is one. -/
def Machine.read (machine : Machine) (blockno : Nat) : Block :=
  (machine.dirty blockno).getD (machine.disk blockno)

/-- `bwrite`: the write is atomic, and leaves its buffer clean. -/
def Machine.write (log : Log) (machine : Machine) (blockno : Nat) (data : Block) : Machine :=
  { machine.noteWrite log blockno data with
    disk := Function.update machine.disk blockno data
    dirty := Function.update machine.dirty blockno none }

def Machine.step (log : Log) : (op : BufOp) → Machine → op.Reply × Machine
  | .bread blockno, machine => (machine.read blockno, machine)
  | .bwrite blockno data, machine => ((), machine.write log blockno data)

def Machine.pin (machine : Machine) (writes : Writes) : Machine :=
  { machine with
    dirty := fun blockno => (writes.lookup blockno).or (machine.dirty blockno)
    pending := some writes }

/-- A crash loses the buffers. -/
def Machine.boot (machine : Machine) : Machine :=
  { machine with dirty := fun _ => none, pending := none }

/-- Transactions committed one after another, with crashes anywhere. -/
def logSystem (log : Log) : CrashSystem BufOp BufOp.Reply Machine where
  step := Machine.step log
  boot := Machine.boot
  recovery := recoverFromLog log
  start machine started job := ∃ transaction : Transaction log,
    started = machine.pin transaction.writes ∧ job = commit log transaction.blocks

end Xv6
