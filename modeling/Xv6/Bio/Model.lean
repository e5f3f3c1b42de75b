import Xv6.Lib.Linked
import Xv6.Lib.Transition
import Xv6.Param

/-!
# The buffer cache

`binit`, `bget`, `bread`, `bwrite` and `brelse` of `bio.c`, and the one thing
`log_write` does to a buffer, run by any number of processes.  A section under
`bcache.lock` is one step: the part of `bget` up to its `release` or its
`sleep`, and `brelse` from its `acquire` on.  The flags and the contents of a
busy buffer are changed outside the lock by the process that holds it, each
time in a step of its own.

A process passes to `bwrite`, `log_write` and `brelse` only buffers that its
own calls of `bread` have returned and that it has not released.  The driver is
a parameter: `iderw` does one transfer between a buffer and the device.

The fields of `Cache` after `pc` are history and are never read by the code.
-/

open Function (update)

namespace Xv6.Bio

abbrev NBUF : Nat := MAXOPBLOCKS * 3

abbrev BufId := Fin NBUF

/-- `(uint)-1`, the device of a buffer that has never been used. -/
abbrev NODEV : Nat := 2 ^ 32 - 1

/-- `struct buf` without its links; the flags are `B_BUSY`, `B_VALID` and
`B_DIRTY`. -/
structure Buf where
  busy : Bool
  valid : Bool
  dirty : Bool
  dev : Nat
  blockno : Nat
  data : Block

inductive Pc where
  /-- in no call; what its last `bread` returned -/
  | out (result : Option BufId)
  /-- in `bget`, about to acquire `bcache.lock` -/
  | bget (dev blockno : Nat)
  /-- in `bget`, SLEEPING on the buffer -/
  | asleep (dev blockno : Nat) (b : BufId)
  /-- in `iderw`, called by `bread` -/
  | reading (b : BufId)
  /-- in `iderw`, called by `bwrite` -/
  | writing (b : BufId)
  deriving DecidableEq

def Pc.wakeup (b : BufId) : Pc → Pc
  | .asleep dev blockno chan => if chan = b then .bget dev blockno else .asleep dev blockno chan
  | pc => pc

structure Cache (Pid Device : Type) where
  links : Links BufId
  buf : BufId → Buf
  device : Device
  pc : Pid → Pc
  /-- the device and block for which a process holds a buffer -/
  held : Pid → BufId → Option (Nat × Nat)
  clock : Nat
  /-- the number of a buffer's last `brelse`, zero if there was none -/
  released : BufId → Nat

/-- A disk driver: a transfer, or a panic. -/
abbrev Driver (Device : Type) := Buf → Device → Option (Buf × Device)

/-! ## `binit` -/

def initLinks : List BufId → Links BufId → Links BufId
  | [], links => links
  | b :: rest, links => initLinks rest (links.pushFront b)

def initBuf : Buf where
  busy := false
  valid := false
  dirty := false
  dev := NODEV
  blockno := 0
  data _ := 0

def binit (Pid : Type) {Device : Type} (device : Device) : Cache Pid Device where
  links := initLinks (List.finRange NBUF) ⟨fun _ => none, fun _ => none⟩
  buf _ := initBuf
  device := device
  pc _ := .out none
  held _ _ := none
  clock := 0
  released _ := 0

/-! ## The calls -/

/-- The loops of `bget`: the first buffer from `node` on that passes a test. -/
def scan (link : Option BufId → Option BufId) (test : BufId → Bool) :
    (fuel : Nat) → (node : Option BufId) → Option BufId
  | 0, _ => none
  | _, none => none
  | fuel + 1, some b => if test b then some b else scan link test fuel (link (some b))

section Calls

variable {Pid Device : Type} [DecidableEq Pid]

namespace Cache

variable (s : Cache Pid Device)

def setPc (p : Pid) (pc : Pc) : Cache Pid Device := { s with pc := update s.pc p pc }

def setBuf (b : BufId) (buf : Buf) : Cache Pid Device := { s with buf := update s.buf b buf }

def caches (dev blockno : Nat) (b : BufId) : Bool :=
  (s.buf b).dev == dev && (s.buf b).blockno == blockno

def clean (b : BufId) : Bool := !(s.buf b).busy && !(s.buf b).dirty

/-- `bget` returns `b` to `bread`, which calls `iderw` unless `b` is valid. -/
def getBuf (p : Pid) (dev blockno : Nat) (b : BufId) (buf : Buf) : Cache Pid Device :=
  { (s.setBuf b buf).setPc p (if buf.valid then .out (some b) else .reading b) with
    held := update s.held p (update (s.held p) b (some (dev, blockno))) }

/-- The section of `bget`; `none` is "bget: no buffers". -/
def bget (p : Pid) (dev blockno : Nat) : Option (Cache Pid Device) :=
  match scan s.links.next (s.caches dev blockno) NBUF (s.links.next none) with
  | some b =>
    if (s.buf b).busy then some (s.setPc p (.asleep dev blockno b))
    else some (s.getBuf p dev blockno b { s.buf b with busy := true })
  | none =>
    match scan s.links.prev s.clean NBUF (s.links.prev none) with
    | some b =>
      some (s.getBuf p dev blockno b
        { s.buf b with
          dev := dev, blockno := blockno, busy := true, valid := false, dirty := false })
    | none => none

/-- The transfer of `iderw`, and the return of its caller. -/
def iderw (driver : Driver Device) (p : Pid) (b : BufId) (result : Option BufId) :
    Option (Cache Pid Device) :=
  match driver (s.buf b) s.device with
  | some (buf, device) => some { (s.setBuf b buf).setPc p (.out result) with device := device }
  | none => none

def bwrite (p : Pid) (b : BufId) : Option (Cache Pid Device) :=
  if (s.buf b).busy then some ((s.setBuf b { s.buf b with dirty := true }).setPc p (.writing b))
  else none

/-- `b->flags |= B_DIRTY` in `log_write`. -/
def logWrite (b : BufId) : Cache Pid Device := s.setBuf b { s.buf b with dirty := true }

def brelse (p : Pid) (b : BufId) : Option (Cache Pid Device) :=
  if (s.buf b).busy then
    some { s.setBuf b { s.buf b with busy := false } with
      links := (s.links.unlink b).pushFront b
      pc := fun q => (s.pc q).wakeup b
      held := update s.held p (update (s.held p) b none)
      clock := s.clock + 1
      released := update s.released b (s.clock + 1) }
  else none

end Cache

inductive Action (Pid : Type) where
  | bread (p : Pid) (dev blockno : Nat)
  | bget (p : Pid)
  /-- `wakeup` or `kill` from elsewhere -/
  | rouse (p : Pid)
  | iderw (p : Pid)
  | modify (p : Pid) (b : BufId) (data : Block)
  | logWrite (p : Pid) (b : BufId)
  | bwrite (p : Pid) (b : BufId)
  | brelse (p : Pid) (b : BufId)

def Cache.Uses (s : Cache Pid Device) (p : Pid) (b : BufId) : Prop :=
  (∃ result, s.pc p = .out result) ∧ s.held p b ≠ none

instance (s : Cache Pid Device) (p : Pid) (b : BufId) : Decidable (s.Uses p b) :=
  decidable_of_iff
    ((match s.pc p with | .out _ => true | _ => false) = true ∧ s.held p b ≠ none) <| by
    unfold Cache.Uses
    cases s.pc p <;> simp

/-- One step of the system; `none` if the action is not possible, or a panic. -/
def step (driver : Driver Device) (s : Cache Pid Device) : Action Pid → Option (Cache Pid Device)
  | .bread p dev blockno => match s.pc p with
      | .out _ => some (s.setPc p (.bget dev blockno))
      | _ => none
  | .bget p => match s.pc p with
      | .bget dev blockno => s.bget p dev blockno
      | _ => none
  | .rouse p => match s.pc p with
      | .asleep dev blockno _ => some (s.setPc p (.bget dev blockno))
      | _ => none
  | .iderw p => match s.pc p with
      | .reading b => s.iderw driver p b (some b)
      | .writing b => s.iderw driver p b none
      | _ => none
  | .modify p b data =>
    if s.Uses p b then some (s.setBuf b { s.buf b with data := data }) else none
  | .logWrite p b => if s.Uses p b then some (s.logWrite b) else none
  | .bwrite p b => if s.Uses p b then s.bwrite p b else none
  | .brelse p b => if s.Uses p b then s.brelse p b else none

end Calls

end Xv6.Bio
