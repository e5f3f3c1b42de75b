import Xv6.Bio.Model
import Xv6.Lib.Chain

/-!
# The disk drivers

`iderw` of `memide.c`, which copies at once, and `idestart`, `ideintr` and
`iderw` of `ide.c`, which hand requests to a drive and sleep until its
interrupt.

For `ide.c` a section under `idelock` is one step.  The drive takes one command
at a time, completes it after a while without an error, and then raises one
interrupt; `ideintr` runs some time later.  `sector_per_block` is one, so blocks
are sectors, and drive 1 is present.  A process calls `iderw` for a buffer of
device 1 that it holds; between its calls it may change the buffers it holds,
give them up and get others.

The fields of `System` after `pc` are history and are never read by the code.
-/

open Function (update update_of_ne update_self)

namespace Xv6.Ide

open Bio

/-! ## `memide.c` -/

/-- `iderw` of `memide.c` on an image of `disksize` blocks; `none` is a panic. -/
def memIderw (disksize : Nat) : Driver Disk := fun b disk =>
  if !b.busy then none
  else if b.valid && !b.dirty then none
  else if b.dev ≠ 1 then none
  else if disksize ≤ b.blockno then none
  else if b.dirty then
    some ({ b with dirty := false, valid := true }, update disk b.blockno b.data)
  else some ({ b with data := disk b.blockno, valid := true }, disk)

/-! ## `ide.c` -/

inductive Command where
  | read (sector : Nat)
  | write (sector : Nat) (data : Block)

inductive Status where
  | idle
  | running (command : Command)
  /-- the command is complete, the interrupt not yet handled; a read has left
  its data in the drive -/
  | done (data : Option Block)

inductive Pc where
  | out
  | entered (b : BufId)
  | asleep (b : BufId)
  /-- in `iderw`, woken, about to acquire `idelock` -/
  | woken (b : BufId)
  deriving DecidableEq

def Pc.wakeup (b : BufId) : Pc → Pc
  | .asleep chan => if chan = b then .woken chan else .asleep chan
  | pc => pc

structure System (Pid : Type) where
  buf : BufId → Buf
  qnext : BufId → Option BufId
  idequeue : Option BufId
  medium : Disk
  status : Status
  holder : BufId → Option Pid
  pc : Pid → Pc
  /-- the buffers appended to `idequeue` so far -/
  issued : List BufId
  /-- the buffers for which `idestart` has given a command -/
  started : List BufId

def System.init (Pid : Type) (medium : Disk) : System Pid where
  buf _ := initBuf
  qnext _ := none
  idequeue := none
  medium := medium
  status := .idle
  holder _ := none
  pc _ := .out
  issued := []
  started := []

def lastOf (qnext : BufId → Option BufId) : (fuel : Nat) → BufId → BufId
  | 0, b => b
  | fuel + 1, b => match qnext b with
      | none => b
      | some c => lastOf qnext fuel c

section Calls

variable {Pid : Type} [DecidableEq Pid]

namespace System

variable (s : System Pid)

def setPc (p : Pid) (pc : Pc) : System Pid := { s with pc := update s.pc p pc }

@[simp]
theorem setPc_pc_self (p : Pid) (pc : Pc) : (s.setPc p pc).pc p = pc := by
  dsimp only [setPc]
  rw [update_self]

theorem setPc_pc_ne {p q : Pid} (pc : Pc) (other : q ≠ p) : (s.setPc p pc).pc q = s.pc q := by
  dsimp only [setPc]
  rw [update_of_ne other]

/-- `idestart(b)`; `idewait` does not return before the drive is ready. -/
def idestart (b : BufId) : Option (System Pid) :=
  if FSSIZE ≤ (s.buf b).blockno then none
  else match s.status with
    | .idle => some { s with
        status := .running (if (s.buf b).dirty then .write (s.buf b).blockno (s.buf b).data
          else .read (s.buf b).blockno)
        started := s.started ++ [b] }
    | _ => none

/-- "Append b to idequeue." -/
def append (b : BufId) : System Pid :=
  match s.idequeue with
  | none => { s with
      qnext := update s.qnext b none, idequeue := some b, issued := s.issued ++ [b] }
  | some head => { s with
      qnext := update (update s.qnext b none)
        (lastOf (update s.qnext b none) NBUF head) (some b)
      issued := s.issued ++ [b] }

/-- The test of the loop of `iderw`: return, or sleep. -/
def await (p : Pid) (b : BufId) : System Pid :=
  s.setPc p (if (s.buf b).valid && !(s.buf b).dirty then .out else .asleep b)

def enqueue (p : Pid) (b : BufId) : Option (System Pid) :=
  if (s.append b).idequeue = some b then ((s.append b).idestart b).map (·.await p b)
  else some ((s.append b).await p b)

def complete : Command → System Pid
  | .read sector => { s with status := .done (some (s.medium sector)) }
  | .write sector data => { s with
      status := .done none, medium := update s.medium sector data }

def received (b : BufId) (data : Option Block) : Buf :=
  { s.buf b with
    data := if (s.buf b).dirty then (s.buf b).data else data.getD (s.buf b).data
    valid := true
    dirty := false }

/-- `ideintr`; reading the data makes the drive ready. -/
def ideintr (data : Option Block) : Option (System Pid) :=
  match s.idequeue with
  | none => some { s with status := .idle }
  | some b =>
    let s' := { s with
      idequeue := s.qnext b
      buf := update s.buf b (s.received b data)
      pc := fun p => (s.pc p).wakeup b
      status := .idle }
    match s'.idequeue with
    | none => some s'
    | some c => s'.idestart c

end System

inductive Action (Pid : Type) where
  | take (p : Pid) (b : BufId) (blockno : Nat) (valid dirty : Bool) (data : Block)
  | change (p : Pid) (b : BufId) (valid dirty : Bool) (data : Block)
  | drop (p : Pid) (b : BufId)
  | call (p : Pid) (b : BufId)
  | enqueue (p : Pid)
  | complete
  | ideintr
  /-- a `wakeup` or `kill` from elsewhere -/
  | rouse (p : Pid)
  | resume (p : Pid)

def System.Uses (s : System Pid) (p : Pid) (b : BufId) : Prop :=
  s.pc p = .out ∧ s.holder b = some p

instance (s : System Pid) (p : Pid) (b : BufId) : Decidable (s.Uses p b) :=
  inferInstanceAs (Decidable (_ ∧ _))

/-- One step of the system; `none` if the action is not possible, or a panic. -/
def step (s : System Pid) : Action Pid → Option (System Pid)
  | .take p b blockno valid dirty data =>
    if s.pc p = .out ∧ s.holder b = none ∧ blockno < FSSIZE then
      some { s with
        holder := update s.holder b (some p)
        buf := update s.buf b ⟨true, valid, dirty, 1, blockno, data⟩ }
    else none
  | .change p b valid dirty data =>
    if s.Uses p b then
      some { s with
        buf := update s.buf b
          { s.buf b with valid := valid, dirty := dirty, data := data } }
    else none
  | .drop p b =>
    if s.Uses p b then
      some { s with
        holder := update s.holder b none
        buf := update s.buf b { s.buf b with busy := false } }
    else none
  | .call p b =>
    if s.Uses p b then
      if !(s.buf b).busy then none
      else if (s.buf b).valid && !(s.buf b).dirty then none
      else some (s.setPc p (.entered b))
    else none
  | .enqueue p => match s.pc p with
      | .entered b => s.enqueue p b
      | _ => none
  | .complete => match s.status with
      | .running command => some (s.complete command)
      | _ => none
  | .ideintr => match s.status with
      | .done data => s.ideintr data
      | _ => none
  | .rouse p => match s.pc p with
      | .asleep b => some (s.setPc p (.woken b))
      | _ => none
  | .resume p => match s.pc p with
      | .woken b => some (s.await p b)
      | _ => none

end Calls

end Xv6.Ide
