import Xv6.Lib.Circular
import Xv6.Lib.Transition

/-!
# The console

`consoleintr` and `consoleread` of `console.c`, with any number of processes reading.  A
step is a section under `input.lock`: an interrupt with the characters `getc` delivers, or
the part of `consoleread` up to its return or its `sleep`.  `kill` strikes between two
sections, and also between the test of `proc->killed` and the moment the process is
SLEEPING, when it sets the flag and wakes nobody.  What is shown on the screen is left out.

The fields of `System` after `killed` are history and are never read by the code.
-/

open Function (update)

namespace Xv6.Console

abbrev INPUT_BUF : Nat := 128

/-- `input` without its lock. -/
structure Input where
  buf : Nat → UInt8
  r : Word
  w : Word
  e : Word

def C (x : Char) : UInt8 := UInt8.ofNat (x.toNat - '@'.toNat)

def newline : UInt8 := 10

def carriageReturn : UInt8 := 13

def delete : UInt8 := 0x7f

/-- The loop of Control-U. -/
def killLine : (fuel : Nat) → Input → Input
  | 0, input => input
  | fuel + 1, input =>
    if input.e ≠ input.w ∧ input.buf ((input.e - 1).toNat % INPUT_BUF) ≠ newline then
      killLine fuel { input with e := input.e - 1 }
    else input

def Input.store (input : Input) (c : UInt8) : Input :=
  { input with
    buf := update input.buf (input.e.toNat % INPUT_BUF) c
    e := input.e + 1 }

/-- Store a character, and commit the line if it is complete. -/
def Input.add (input : Input) (c : UInt8) : Bool × Input :=
  let input := input.store c
  if c = newline ∨ c = C 'D' ∨ input.e = input.r + BitVec.ofNat 32 INPUT_BUF then
    (true, { input with w := input.e })
  else (false, input)

/-- One turn of the loop of `consoleintr`; with the input comes whether it wakes the readers. -/
def key (c : UInt8) (input : Input) : Bool × Input :=
  if c = C 'P' then (false, input)
  -- every turn brings `e` closer to `w`
  else if c = C 'U' then (false, killLine (input.e - input.w).toNat input)
  else if c = C 'H' ∨ c = delete then
    if input.e ≠ input.w then (false, { input with e := input.e - 1 }) else (false, input)
  else if c ≠ 0 ∧ (input.e - input.r).toNat < INPUT_BUF then
    input.add (if c = carriageReturn then newline else c)
  else (false, input)

def keys : List UInt8 → Input → Bool × Input
  | [], input => (false, input)
  | c :: rest, input =>
    let first := key c input
    let others := keys rest first.2
    (first.1 || others.1, others.2)

/-- What a section of `consoleread` does. -/
structure Chunk where
  bytes : List UInt8
  eof : Bool
  left : Nat
  /-- whether it ended because there is nothing to read -/
  waits : Bool
  input : Input

/-- The loop of `consoleread` with `n` bytes to go. -/
def readLoop (target : Nat) : (n : Nat) → Input → Chunk
  | 0, input => ⟨[], false, 0, false, input⟩
  | n + 1, input =>
    if input.r = input.w then ⟨[], false, n + 1, true, input⟩
    else
      let c := input.buf (input.r.toNat % INPUT_BUF)
      let next := { input with r := input.r + 1 }
      if c = C 'D' then
        -- Save ^D for next time, to make sure caller gets a 0-byte result.
        if n + 1 < target then ⟨[], false, n + 1, false, { next with r := next.r - 1 }⟩
        else ⟨[], true, n + 1, false, next⟩
      else if c = newline then ⟨[c], false, n, false, next⟩
      else
        let rest := readLoop target n next
        { rest with bytes := c :: rest.bytes }

/-- A call of `consoleread(ip, dst, n)` and its number in the history. -/
structure ReadCall where
  number : Nat
  n : Int
  deriving DecidableEq

def ReadCall.target (call : ReadCall) : Nat := call.n.toNat

inductive Pc where
  | out (result : Option Int)
  /-- in `consoleread` with `left` bytes to go, about to acquire `input.lock` -/
  | read (call : ReadCall) (left : Nat)
  /-- in `consoleread`, SLEEPING on `&input.r` -/
  | sleep (call : ReadCall) (left : Nat)

def Pc.wake : Pc → Pc
  | .sleep call left => .read call left
  | pc => pc

inductive Event where
  | typed (c : UInt8)
  /-- a call of `consoleread` has taken a byte -/
  | took (call : Nat) (c : UInt8)
  deriving DecidableEq

structure System (Pid : Type) where
  input : Input
  pc : Pid → Pc
  killed : Pid → Bool
  nextCall : Nat
  events : List Event
  /-- the calls that have returned, and what they returned -/
  returned : List (ReadCall × Int)

def System.init (Pid : Type) (buf : Nat → UInt8) (start : Word) : System Pid where
  input := ⟨buf, start, start, start⟩
  pc _ := .out none
  killed _ := false
  nextCall := 0
  events := []
  returned := []

def Chunk.events (chunk : Chunk) (call : ReadCall) : List Event :=
  (chunk.bytes ++ if chunk.eof then [C 'D'] else []).map (.took call.number)

section Calls

variable {Pid : Type} [DecidableEq Pid]

def System.setPc (s : System Pid) (p : Pid) (pc : Pc) : System Pid :=
  { s with pc := update s.pc p pc }

def System.wakeup (s : System Pid) : System Pid := { s with pc := fun p => (s.pc p).wake }

def System.consoleintr (s : System Pid) (cs : List UInt8) : System Pid :=
  let read := keys cs s.input
  let s := { s with input := read.2, events := s.events ++ cs.map .typed }
  if read.1 then s.wakeup else s

def System.returnRead (s : System Pid) (p : Pid) (call : ReadCall) (result : Int) : System Pid :=
  { s.setPc p (.out (some result)) with returned := s.returned ++ [(call, result)] }

/-- The loop of `consoleread`, with the history of what it takes. -/
def System.take (s : System Pid) (call : ReadCall) (chunk : Chunk) : System Pid :=
  { s with input := chunk.input, events := s.events ++ chunk.events call }

/-- A section of `consoleread`.  With `late` the process is killed after it has tested
`proc->killed`, on its way to sleep. -/
def System.consoleread (s : System Pid) (p : Pid) (call : ReadCall) (left : Nat) (late : Bool) :
    System Pid :=
  let chunk := readLoop call.target left s.input
  let s := s.take call chunk
  if chunk.waits then
    if s.killed p then s.returnRead p call (-1)
    else
      let asleep := s.setPc p (.sleep call chunk.left)
      if late then { asleep with killed := update asleep.killed p true } else asleep
  else s.returnRead p call (call.target - chunk.left)

def System.kill (s : System Pid) (p : Pid) : System Pid :=
  { s.setPc p (s.pc p).wake with killed := update s.killed p true }

inductive Action (Pid : Type) where
  | intr (cs : List UInt8)
  | read (p : Pid) (n : Int)
  | run (p : Pid) (late : Bool)
  | kill (p : Pid)

def System.step (s : System Pid) (action : Action Pid) : Option (System Pid) :=
  match action with
  | .intr cs => some (s.consoleintr cs)
  | .read p n => match s.pc p with
      | .out _ => some { s.setPc p (.read ⟨s.nextCall, n⟩ n.toNat) with nextCall := s.nextCall + 1 }
      | _ => none
  | .run p late => match s.pc p with
      | .read call left => some (s.consoleread p call left late)
      | _ => none
  | .kill p => some (s.kill p)

/-- The states of all runs, from any content of the buffer and any common value of the
indices: zero when the kernel starts. -/
abbrev System.Run (buf : Nat → UInt8) (start : Word) : System Pid → Prop :=
  Transition.Reachable System.step (fun _ _ => True) (System.init Pid buf start)

end Calls

end Xv6.Console
