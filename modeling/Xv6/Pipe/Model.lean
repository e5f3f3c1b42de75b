import Xv6.Lib.Circular
import Xv6.Lib.Transition

/-!
# Pipes

`pipewrite`, `piperead` and `pipeclose` of `pipe.c`, run on one pipe by any
number of processes.  A step is a section between `acquire(&p->lock)` and the
point where the lock is given up, by `release` or in `sleep`; `kill` strikes
between two sections, and also between the test of `proc->killed` and the
moment the process is SLEEPING, when it sets the flag and wakes nobody.

The ends may be closed at any time.  When both are, the page of the pipe has
been freed and the run is over.

The fields of `System` after `killed` are history and are never read by the
code.
-/

namespace Xv6.Pipes

abbrev PIPESIZE : Nat := 512

/-- `struct pipe` without its lock. -/
structure Pipe extends Circular UInt8 where
  readopen : Bool
  writeopen : Bool

/-- What `pipealloc` leaves in the page it was given. -/
def pipealloc (data : Nat → UInt8) : Pipe where
  data := data
  nread := 0
  nwrite := 0
  readopen := true
  writeopen := true

/-- A call of `pipewrite(p, addr, n)` and its number in the history. -/
structure WriteCall where
  number : Nat
  addr : Nat → UInt8
  n : Int

inductive Pc where
  | out (result : Option Int)
  /-- in `pipewrite` with `i` bytes stored, about to acquire `p->lock` -/
  | write (call : WriteCall) (i : Nat)
  /-- in `pipewrite`, SLEEPING on `&p->nwrite` -/
  | writeSleep (call : WriteCall) (i : Nat)
  /-- in `piperead`, about to acquire `p->lock` -/
  | read (n : Int)
  /-- in `piperead`, SLEEPING on `&p->nread` -/
  | readSleep (n : Int)

def Pc.onNread : Pc → Bool
  | .readSleep _ => true
  | _ => false

def Pc.onNwrite : Pc → Bool
  | .writeSleep _ _ => true
  | _ => false

def Pc.wakeNread : Pc → Pc
  | .readSleep n => .read n
  | pc => pc

def Pc.wakeNwrite : Pc → Pc
  | .writeSleep call i => .write call i
  | pc => pc

structure System (Pid : Type) where
  pipe : Pipe
  pc : Pid → Pc
  killed : Pid → Bool
  nextCall : Nat
  /-- the bytes stored so far, each with the number of its call -/
  stored : List (Nat × UInt8)
  delivered : List UInt8
  /-- the calls of `pipewrite` that have returned, and what they returned -/
  returned : List (WriteCall × Int)

def System.init (Pid : Type) (data : Nat → UInt8) : System Pid where
  pipe := pipealloc data
  pc _ := .out none
  killed _ := false
  nextCall := 0
  stored := []
  delivered := []
  returned := []

/-- The loop of `pipewrite` with `left` bytes to go, up to a full buffer: how
many bytes are stored in all, and the pipe. -/
def storeLoop (addr : Nat → UInt8) : Nat → Nat → Pipe → Nat × Pipe
  | 0, i, pipe => (i, pipe)
  | left + 1, i, pipe =>
    if pipe.Full PIPESIZE then (i, pipe)
    else storeLoop addr left (i + 1)
      { pipe with toCircular := pipe.toCircular.push PIPESIZE (addr i) }

def copyLoop : Nat → Pipe → List UInt8 × Pipe
  | 0, pipe => ([], pipe)
  | left + 1, pipe =>
    if pipe.Empty then ([], pipe)
    else
      let rest := copyLoop left { pipe with toCircular := pipe.toCircular.drop }
      (pipe.head PIPESIZE :: rest.1, rest.2)

section Calls

variable {Pid : Type} [DecidableEq Pid]

def System.setPc (s : System Pid) (p : Pid) (pc : Pc) : System Pid :=
  { s with pc := Function.update s.pc p pc }

def System.wakeNread (s : System Pid) : System Pid :=
  { s with pc := fun p => (s.pc p).wakeNread }

def System.wakeNwrite (s : System Pid) : System Pid :=
  { s with pc := fun p => (s.pc p).wakeNwrite }

/-- `kill(p)` while `p` is not SLEEPING. -/
def System.setKilled (s : System Pid) (p : Pid) : System Pid :=
  { s with killed := Function.update s.killed p true }

def System.returnWrite (s : System Pid) (p : Pid) (call : WriteCall) (result : Int) :
    System Pid :=
  { s.setPc p (.out (some result)) with returned := (call, result) :: s.returned }

def System.store (s : System Pid) (call : WriteCall) (i : Nat) : Nat × System Pid :=
  let loop := storeLoop call.addr (call.n.toNat - i) i s.pipe
  (loop.1, { s with
    pipe := loop.2
    stored := s.stored ++
      (List.range' i (loop.1 - i)).map fun k => (call.number, call.addr k) })

/-- A section of `pipewrite` that starts with `i` bytes stored.  With `late`
the process is killed after it has tested `proc->killed`, on its way to sleep. -/
def System.pipewrite (s : System Pid) (p : Pid) (call : WriteCall) (i : Nat) (late : Bool) :
    System Pid :=
  let loop := s.store call i
  if loop.1 < call.n.toNat then
    -- the buffer is full
    if loop.2.pipe.readopen = false ∨ loop.2.killed p = true then
      loop.2.returnWrite p call (-1)
    else
      let asleep := loop.2.wakeNread.setPc p (.writeSleep call loop.1)
      if late then asleep.setKilled p else asleep
  else loop.2.wakeNread.returnWrite p call call.n

def System.copy (s : System Pid) (n : Int) : Nat × System Pid :=
  let loop := copyLoop n.toNat s.pipe
  (loop.1.length, { s with pipe := loop.2, delivered := s.delivered ++ loop.1 })

def System.piperead (s : System Pid) (p : Pid) (n : Int) (late : Bool) : System Pid :=
  if s.pipe.Empty ∧ s.pipe.writeopen = true then
    if s.killed p = true then s.setPc p (.out (some (-1)))
    else
      let asleep := s.setPc p (.readSleep n)
      if late then asleep.setKilled p else asleep
  else
    let loop := s.copy n
    loop.2.wakeNwrite.setPc p (.out (some loop.1))

def System.pipeclose (s : System Pid) (writable : Bool) : System Pid :=
  if writable then { s with pipe := { s.pipe with writeopen := false } }.wakeNread
  else { s with pipe := { s.pipe with readopen := false } }.wakeNwrite

def System.kill (s : System Pid) (p : Pid) : System Pid :=
  (s.setPc p ((s.pc p).wakeNread.wakeNwrite)).setKilled p

inductive Action (Pid : Type) where
  | write (p : Pid) (addr : Nat → UInt8) (n : Int)
  | read (p : Pid) (n : Int)
  | run (p : Pid) (late : Bool)
  | close (writable : Bool)
  | kill (p : Pid)

def System.step (s : System Pid) (action : Action Pid) : Option (System Pid) :=
  if s.pipe.readopen = false ∧ s.pipe.writeopen = false then none else
  match action with
  | .write p addr n => match s.pc p with
      | .out _ => some { s.setPc p (.write ⟨s.nextCall, addr, n⟩ 0) with
          nextCall := s.nextCall + 1 }
      | _ => none
  | .read p n => match s.pc p with
      | .out _ => some (s.setPc p (.read n))
      | _ => none
  | .run p late => match s.pc p with
      | .write call i => some (s.pipewrite p call i late)
      | .read n => some (s.piperead p n late)
      | _ => none
  | .close writable => some (s.pipeclose writable)
  | .kill p => some (s.kill p)

/-- The states of runs whose actions are allowed, over a page with any content. -/
abbrev System.Reachable (data : Nat → UInt8) (allowed : System Pid → Action Pid → Prop) :
    System Pid → Prop :=
  Transition.Reachable System.step allowed (System.init Pid data)

abbrev System.Run (data : Nat → UInt8) : System Pid → Prop :=
  System.Reachable data fun _ _ => True

end Calls

end Xv6.Pipes
