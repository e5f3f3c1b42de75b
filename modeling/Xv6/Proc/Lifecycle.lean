import Mathlib.Logic.Relation
import Xv6.Lib.Transition
import Xv6.Proc.Table

/-!
# Processes from fork to wait

`fork`, `exit`, `wait`, `kill`, the scheduler and the sleeps of the rest of the
kernel, interleaved.  A critical section under `ptable.lock` is one step, and so
is each of the parts of `fork` and `exit` between two of them.  Whether there is
memory for a new process is left open: the results of `kalloc` and `copyuvm` are
parts of the actions.

The last two fields of the state are history and are never read by the code.
-/

namespace Xv6

open Ptable

namespace Lifecycle

inductive Control where
  | user
  /-- in `allocproc`, before `kalloc` -/
  | forkStack (np : ProcId)
  /-- in `fork`, before `copyuvm` -/
  | forkCopy (np : ProcId)
  /-- in `fork`, before its critical section -/
  | forkFinish (np : ProcId)
  /-- in `exit`, with its files closed -/
  | exiting
  /-- in the loop of `wait` -/
  | waiting
  deriving DecidableEq, Repr

def Control.child : Control → Option ProcId
  | .forkStack np => some np
  | .forkCopy np => some np
  | .forkFinish np => some np
  | _ => none

structure System where
  table : Ptable
  control : ProcId → Control
  created : Nat
  /-- the pids `wait` has returned, last first -/
  returned : List UInt32

inductive Action where
  /-- the critical section of `allocproc`, called by `fork` -/
  | fork (p : ProcId)
  /-- `kalloc` in `allocproc` -/
  | forkStack (p : ProcId) (page : Option Nat)
  /-- `copyuvm` in `fork` and what follows it -/
  | forkCopy (p : ProcId) (pgdir : Option Nat)
  | forkFinish (p : ProcId)
  | exitClose (p : ProcId)
  | exitSection (p : ProcId)
  | wait (p : ProcId)
  | kill (p : ProcId) (pid : UInt32)
  | schedule (p : ProcId)
  | yield (p : ProcId)
  /-- a sleep outside `wait` -/
  | sleep (p : ProcId) (address : Nat)
  | wakeup (address : Nat)
  /-- `open`, `dup`, `pipe` or `close` changes a descriptor -/
  | setFd (p : ProcId) (fd : Fd) (file : Option FileId)

inductive WaitResult where
  | returns (pid : UInt32)
  | fails
  | sleeps
  deriving DecidableEq, Repr

namespace System

variable (s : System)

def running (p : ProcId) : Bool := (s.table.proc p).state = .running

def goto (p : ProcId) (control : Control) : System :=
  { s with control := Function.update s.control p control }

def wait (p : ProcId) : WaitResult × System :=
  match s.table.scan p (List.finRange NPROC) false with
  | .zombie q =>
    (.returns (s.table.proc q).pid, { s with
      table := s.table.reap q
      returned := (s.table.proc q).pid :: s.returned }.goto p .user)
  | .none havekids =>
    if !havekids || (s.table.proc p).killed then (.fails, s.goto p .user)
    else (.sleeps, { s with table := s.table.sleepOn p (.proc p) }.goto p .waiting)

end System

def initial (kstack pgdir : Nat) : System where
  table := userinit kstack pgdir
  control _ := .user
  created := 1
  returned := []

def step (s : System) : Action → Option System
  | .fork p =>
    if s.running p ∧ s.control p = .user then
      match s.table.allocSlot with
      | some (np, table) =>
        some ({ s with table := table, created := s.created + 1 }.goto p (.forkStack np))
      | none => some s
    else none
  | .forkStack p page =>
    match s.control p with
    | .forkStack np =>
      if s.running p then
        some ({ s with table := s.table.allocStack np page }.goto p
          (if page.isSome then .forkCopy np else .user))
      else none
    | _ => none
  | .forkCopy p pgdir =>
    match s.control p with
    | .forkCopy np =>
      if s.running p then
        some ({ s with table := s.table.copyProcess p np pgdir }.goto p
          (if pgdir.isSome then .forkFinish np else .user))
      else none
    | _ => none
  | .forkFinish p =>
    match s.control p with
    | .forkFinish np =>
      if s.running p then
        some ({ s with table := s.table.setState np .runnable }.goto p .user)
      else none
    | _ => none
  | .exitClose p =>
    -- `init` panics
    if s.running p ∧ s.control p = .user ∧ p ≠ initproc then
      some ({ s with table := s.table.set p { s.table.proc p with ofile := fun _ => none } }.goto p
        .exiting)
    else none
  | .exitSection p =>
    if s.running p ∧ s.control p = .exiting then
      some ({ s with table := s.table.exitSection p }.goto p .user)
    else none
  | .wait p =>
    if s.running p ∧ (s.control p = .user ∨ s.control p = .waiting) then some (s.wait p).2 else none
  | .kill p pid =>
    if s.running p ∧ s.control p = .user then
      match s.table.kill pid with
      | some table => some { s with table := table }
      | none => some s
    else none
  | .schedule p =>
    -- a process that has slept clears its channel before it releases `ptable.lock`
    if (s.table.proc p).state = .runnable then
      some { s with table := s.table.set p { s.table.proc p with state := .running, chan := none } }
    else none
  | .yield p =>
    if s.running p then some { s with table := s.table.setState p .runnable } else none
  | .sleep p address =>
    if s.running p ∧ (s.control p = .user ∨ s.control p = .exiting) then
      some { s with table := s.table.sleepOn p (.other address) }
    else none
  | .wakeup address => some { s with table := s.table.wakeup1 (some (.other address)) }
  | .setFd p fd file =>
    if s.running p ∧ s.control p = .user then
      some { s with table := s.table.set p { s.table.proc p with
        ofile := Function.update (s.table.proc p).ofile fd file } }
    else none

abbrev Reachable (allowed : System → Action → Prop) (kstack pgdir : Nat) : System → Prop :=
  Transition.Reachable step allowed (initial kstack pgdir)

section Goto

variable (s : System) (p q : ProcId) (control : Control)

@[simp, grind =]
theorem goto_control : (s.goto p control).control q = if q = p then control else s.control q :=
  Function.update_apply _ _ _ _

@[simp, grind =]
theorem goto_table : (s.goto p control).table = s.table := rfl

@[simp, grind =]
theorem goto_returned : (s.goto p control).returned = s.returned := rfl

end Goto

inductive Moves (s : System) : Action → System → Prop where
  | fork {p np : ProcId} : (s.table.proc p).state = .running → s.control p = .user →
      (s.table.proc np).state = .unused →
      Moves s (.fork p) ({ s with
        table := { s.table.set np { s.table.proc np with
          state := .embryo, pid := s.table.nextpid } with nextpid := s.table.nextpid + 1 }
        created := s.created + 1 }.goto p (.forkStack np))
  | stackFailed {p np : ProcId} : (s.table.proc p).state = .running → s.control p = .forkStack np →
      Moves s (.forkStack p none) ({ s with table := s.table.set np { s.table.proc np with
        kstack := none, state := .unused } }.goto p .user)
  | stack {p np : ProcId} {page : Nat} : (s.table.proc p).state = .running →
      s.control p = .forkStack np →
      Moves s (.forkStack p (some page)) ({ s with table := s.table.set np { s.table.proc np with
        kstack := some page } }.goto p (.forkCopy np))
  | copyFailed {p np : ProcId} : (s.table.proc p).state = .running → s.control p = .forkCopy np →
      Moves s (.forkCopy p none) ({ s with table := s.table.set np { s.table.proc np with
        pgdir := none, kstack := none, state := .unused } }.goto p .user)
  | copy {p np : ProcId} {pgdir : Nat} : (s.table.proc p).state = .running →
      s.control p = .forkCopy np →
      Moves s (.forkCopy p (some pgdir))
        ({ s with table := s.table.copyProcess p np (some pgdir) }.goto p (.forkFinish np))
  | forkFinish {p np : ProcId} : (s.table.proc p).state = .running →
      s.control p = .forkFinish np →
      Moves s (.forkFinish p) ({ s with table := s.table.setState np .runnable }.goto p .user)
  | exitClose {p : ProcId} : (s.table.proc p).state = .running → s.control p = .user →
      p ≠ initproc →
      Moves s (.exitClose p) ({ s with table := s.table.set p { s.table.proc p with
        ofile := fun _ => none } }.goto p .exiting)
  | exitSection {p : ProcId} {table : Ptable} : (s.table.proc p).state = .running →
      s.control p = .exiting → Exited s.table table p →
      Moves s (.exitSection p) ({ s with table := table }.goto p .user)
  | reap {p q : ProcId} : (s.table.proc p).state = .running →
      s.control p = .user ∨ s.control p = .waiting → (s.table.proc q).parent = some p →
      (s.table.proc q).state = .zombie →
      Moves s (.wait p) ({ s with
        table := s.table.reap q
        returned := (s.table.proc q).pid :: s.returned }.goto p .user)
  | waitFails {p : ProcId} : (s.table.proc p).state = .running →
      s.control p = .user ∨ s.control p = .waiting →
      (∀ q, (s.table.proc q).parent ≠ some p) ∨ (s.table.proc p).killed = true →
      Moves s (.wait p) (s.goto p .user)
  | waitSleeps {p : ProcId} : (s.table.proc p).state = .running →
      s.control p = .user ∨ s.control p = .waiting →
      (∀ q, (s.table.proc q).parent = some p → (s.table.proc q).state ≠ .zombie) →
      Moves s (.wait p) ({ s with table := s.table.sleepOn p (.proc p) }.goto p .waiting)
  | kill {p q : ProcId} : (s.table.proc p).state = .running → s.control p = .user →
      Moves s (.kill p (s.table.proc q).pid) { s with table := s.table.set q { s.table.proc q with
        killed := true
        state := if (s.table.proc q).state = .sleeping then .runnable
          else (s.table.proc q).state } }
  | nothing {action : Action} : Moves s action s
  | schedule {p : ProcId} : (s.table.proc p).state = .runnable →
      Moves s (.schedule p) { s with table := s.table.set p { s.table.proc p with
        state := .running, chan := none } }
  | yield {p : ProcId} : (s.table.proc p).state = .running →
      Moves s (.yield p) { s with table := s.table.setState p .runnable }
  | sleep {p : ProcId} {address : Nat} : (s.table.proc p).state = .running →
      s.control p = .user ∨ s.control p = .exiting →
      Moves s (.sleep p address) { s with table := s.table.sleepOn p (.other address) }
  | wakeup {address : Nat} :
      Moves s (.wakeup address) { s with table := s.table.wakeup1 (some (.other address)) }
  | setFd {p : ProcId} {fd : Fd} {file : Option FileId} : (s.table.proc p).state = .running →
      s.control p = .user →
      Moves s (.setFd p fd file) { s with table := s.table.set p { s.table.proc p with
        ofile := Function.update (s.table.proc p).ofile fd file } }

theorem running_iff {s : System} {p : ProcId} :
    s.running p = true ↔ (s.table.proc p).state = .running := by
  simp [System.running]

theorem wait_cases (s : System) (p : ProcId) :
    (∃ q, (s.table.proc q).parent = some p ∧ (s.table.proc q).state = .zombie ∧
      s.wait p = (.returns (s.table.proc q).pid, { s with
        table := s.table.reap q
        returned := (s.table.proc q).pid :: s.returned }.goto p .user)) ∨
    (((∀ q, (s.table.proc q).parent ≠ some p) ∨ (s.table.proc p).killed = true) ∧
      s.wait p = (.fails, s.goto p .user)) ∨
    ((∀ q, (s.table.proc q).parent = some p → (s.table.proc q).state ≠ .zombie) ∧
      s.wait p =
        (.sleeps, { s with table := s.table.sleepOn p (.proc p) }.goto p .waiting)) := by
  unfold System.wait
  split
  next q found =>
    obtain ⟨parent, zombie⟩ := scan_eq_zombie found
    exact .inl ⟨q, parent, zombie, rfl⟩
  next havekids found =>
    obtain ⟨noZombie, noKids⟩ := scan_eq_none found
    split
    next fails =>
      rw [Bool.or_eq_true, Bool.not_eq_true'] at fails
      refine .inr (.inl ⟨fails.imp ?_ id, rfl⟩)
      intro childless q
      exact (noKids childless).2 q (List.mem_finRange q)
    · exact .inr (.inr ⟨fun q => noZombie q (List.mem_finRange q), rfl⟩)

theorem moves_of_step {s after : System} {action : Action} (stepped : step s action = some after) :
    Moves s action after := by
  cases action with
  | fork p =>
    obtain ⟨guard, stepped⟩ := Option.ite_none_right_eq_some.mp stepped
    split at stepped
    next np table found =>
      obtain ⟨unused, rfl⟩ := allocSlot_eq_some found
      cases stepped
      exact .fork (running_iff.mp guard.1) guard.2 unused
    · cases stepped
      exact .nothing
  | forkStack p page =>
    simp only [step] at stepped
    split at stepped
    next np control =>
      obtain ⟨running, rfl⟩ := Transition.of_guard stepped
      cases page with
      | none => exact .stackFailed (running_iff.mp running) control
      | some page => exact .stack (running_iff.mp running) control
    · cases stepped
  | forkCopy p pgdir =>
    simp only [step] at stepped
    split at stepped
    next np control =>
      obtain ⟨running, rfl⟩ := Transition.of_guard stepped
      cases pgdir with
      | none => exact .copyFailed (running_iff.mp running) control
      | some pgdir => exact .copy (running_iff.mp running) control
    · cases stepped
  | forkFinish p =>
    simp only [step] at stepped
    split at stepped
    next np control =>
      obtain ⟨running, rfl⟩ := Transition.of_guard stepped
      exact .forkFinish (running_iff.mp running) control
    · cases stepped
  | exitClose p =>
    obtain ⟨guard, rfl⟩ := Transition.of_guard stepped
    exact .exitClose (running_iff.mp guard.1) guard.2.1 guard.2.2
  | exitSection p =>
    obtain ⟨guard, rfl⟩ := Transition.of_guard stepped
    exact .exitSection (running_iff.mp guard.1) guard.2 (exitSection_exited s.table p)
  | wait p =>
    obtain ⟨guard, rfl⟩ := Transition.of_guard stepped
    have running := running_iff.mp guard.1
    rcases wait_cases s p with
      ⟨q, parent, zombie, same⟩ | ⟨fails, same⟩ | ⟨alive, same⟩ <;> rw [same]
    · exact .reap running guard.2 parent zombie
    · exact .waitFails running guard.2 fails
    · exact .waitSleeps running guard.2 alive
  | kill p pid =>
    obtain ⟨guard, stepped⟩ := Option.ite_none_right_eq_some.mp stepped
    split at stepped
    next table killed =>
      obtain ⟨q, rfl, rfl⟩ := kill_eq_some killed
      cases stepped
      exact .kill (running_iff.mp guard.1) guard.2
    · cases stepped
      exact .nothing
  | schedule p =>
    obtain ⟨runnable, rfl⟩ := Transition.of_guard stepped
    exact .schedule runnable
  | yield p =>
    obtain ⟨running, rfl⟩ := Transition.of_guard stepped
    exact .yield (running_iff.mp running)
  | sleep p address =>
    obtain ⟨guard, rfl⟩ := Transition.of_guard stepped
    exact .sleep (running_iff.mp guard.1) guard.2
  | wakeup address =>
    cases stepped
    exact .wakeup
  | setFd p fd file =>
    obtain ⟨guard, rfl⟩ := Transition.of_guard stepped
    exact .setFd (running_iff.mp guard.1) guard.2

/-! ## Forking -/

/-- A slot that is being filled in belongs to the process that does so. -/
structure Forks (s : System) : Prop where
  embryo : ∀ p np, (s.control p).child = some np → (s.table.proc np).state = .embryo
  unique : ∀ p q np, (s.control p).child = some np → (s.control q).child = some np → p = q
  forker : ∀ p np, (s.control p).child = some np →
    (s.table.proc p).state = .running ∨ (s.table.proc p).state = .runnable

theorem initial_forks (kstack pgdir : Nat) : Forks (initial kstack pgdir) where
  embryo _ _ child := nomatch child
  unique _ _ _ child := nomatch child
  forker _ _ child := nomatch child

theorem Forks.step {s after : System} {action : Action} (forks : Forks s)
    (moves : Moves s action after) : Forks after := by
  obtain ⟨embryo, unique, forker⟩ := forks
  cases moves with
  | nothing => exact ⟨embryo, unique, forker⟩
  | exitSection running control exited =>
    obtain ⟨-, self, slot, -, -⟩ := exited
    refine ⟨?_, ?_, ?_⟩ <;> grind [Control.child, Woken]
  | wakeup => refine ⟨?_, ?_, ?_⟩ <;> grind [Control.child, wakeup1, wakeSlot]
  | _ =>
    -- one slot is set, and a process that forks stays what it is
    refine ⟨?_, ?_, ?_⟩ <;> simp only [goto_control, goto_table] <;>
      grind [Control.child, copyProcess, setState, Ptable.reap, sleepOn]

/-! ## Parents -/

def Alive (state : ProcState) : Prop :=
  state = .sleeping ∨ state = .runnable ∨ state = .running

/-- Every process has a parent that is alive, and no wakeup for `wait` is lost. -/
structure Family (s : System) : Prop extends Forks s where
  init : Alive (s.table.proc initproc).state
  orphan : (s.table.proc initproc).parent = none
  exiting : ∀ p, s.control p = .exiting → p ≠ initproc
  born : ∀ p np, s.control p = .forkFinish np → (s.table.proc np).parent = some p
  alive : ∀ q r, (s.table.proc q).parent = some r → q ≠ r ∧ Alive (s.table.proc r).state
  parent : ∀ q, Alive (s.table.proc q).state ∨ (s.table.proc q).state = .zombie → q ≠ initproc →
    (s.table.proc q).parent ≠ none
  onSelf : ∀ p, s.control p = .waiting → (s.table.proc p).state = .sleeping →
    (s.table.proc p).chan = some (.proc p)
  awake : ∀ p q, (s.table.proc p).state = .sleeping → (s.table.proc p).chan = some (.proc p) →
    (s.table.proc q).parent = some p → (s.table.proc q).state ≠ .zombie

theorem initial_family (kstack pgdir : Nat) : Family (initial kstack pgdir) := by
  refine ⟨initial_forks kstack pgdir, ?_, ?_, ?_, ?_, ?_, ?_, ?_, ?_⟩ <;>
    grind [initial, userinit, Alive]

section Family

variable {s after : System} {p np q : ProcId}

theorem Family.finishing (family : Family s) (p np : ProcId)
    (control : s.control p = .forkFinish np) :
    (s.table.proc np).state = .embryo ∧
      ((s.table.proc p).state = .running ∨ (s.table.proc p).state = .runnable) := by
  have child : (s.control p).child = some np := by
    rw [control]
    rfl
  exact ⟨family.embryo p np child, family.forker p np child⟩

theorem Family.mild (family : Family s) (forks : Forks after)
    (parents : ∀ q, (after.table.proc q).parent = (s.table.proc q).parent)
    (lives : ∀ q, Alive (after.table.proc q).state ↔ Alive (s.table.proc q).state)
    (zombies : ∀ q, (after.table.proc q).state = .zombie ↔ (s.table.proc q).state = .zombie)
    (sleeps : ∀ q, (after.table.proc q).state = .sleeping →
      (after.table.proc q).chan = some (.proc q) →
      (s.table.proc q).state = .sleeping ∧ (s.table.proc q).chan = some (.proc q))
    (waits : ∀ q, after.control q = .waiting → (after.table.proc q).state = .sleeping →
      (after.table.proc q).chan = some (.proc q))
    (exits : ∀ q, after.control q = .exiting → q ≠ initproc)
    (finishes : ∀ q np, after.control q = .forkFinish np → s.control q = .forkFinish np) :
    Family after where
  toForks := forks
  init := (lives initproc).mpr family.init
  orphan := by rw [parents, family.orphan]
  exiting := exits
  born q np control := by
    rw [parents]
    exact family.born q np (finishes q np control)
  alive q r parent := by
    rw [parents] at parent
    obtain ⟨other, lives'⟩ := family.alive q r parent
    exact ⟨other, (lives r).mpr lives'⟩
  parent q living notInit := by
    rw [parents]
    rw [lives, zombies] at living
    exact family.parent q living notInit
  onSelf := waits
  awake q r sleeping chan parent := by
    rw [parents] at parent
    obtain ⟨wasSleeping, wasOn⟩ := sleeps q sleeping chan
    rw [Ne, zombies]
    exact family.awake q r wasSleeping wasOn parent

theorem Family.copy {pgdir : Nat} (family : Family s)
    (forks : Forks ({ s with table := s.table.copyProcess p np (some pgdir) }.goto p
      (.forkFinish np))) (running : (s.table.proc p).state = .running)
    (control : s.control p = .forkCopy np) :
    Family ({ s with table := s.table.copyProcess p np (some pgdir) }.goto p (.forkFinish np)) := by
  have child : (s.control p).child = some np := by
    rw [control]
    rfl
  have embryo := family.embryo p np child
  have only : ∀ q, s.control q = .forkFinish np → q = p := by
    intro q finishing
    refine family.unique q p np ?_ child
    rw [finishing]
    rfl
  obtain ⟨-, init, orphan, exiting, born, alive, parent, onSelf, awake⟩ := family
  refine ⟨forks, ?_, ?_, ?_, ?_, ?_, ?_, ?_, ?_⟩ <;> simp only [goto_control, goto_table]
  all_goals grind [copyProcess, Alive]

theorem Family.finish (family : Family s)
    (forks : Forks ({ s with table := s.table.setState np .runnable }.goto p .user))
    (control : s.control p = .forkFinish np) :
    Family ({ s with table := s.table.setState np .runnable }.goto p .user) := by
  have embryo := (family.finishing p np control).1
  have finishing := family.finishing
  obtain ⟨⟨-, unique, -⟩, init, orphan, exiting, born, alive, parent, onSelf, awake⟩ := family
  refine ⟨forks, ?_, ?_, ?_, ?_, ?_, ?_, ?_, ?_⟩ <;> simp only [goto_control, goto_table]
  all_goals grind [setState, Alive]

theorem Family.reap {returned : List UInt32} (family : Family s)
    (forks : Forks ({ s with table := s.table.reap q, returned := returned }.goto p .user))
    (zombie : (s.table.proc q).state = .zombie) :
    Family ({ s with table := s.table.reap q, returned := returned }.goto p .user) := by
  have finishing := family.finishing
  obtain ⟨-, init, orphan, exiting, born, alive, parent, onSelf, awake⟩ := family
  refine ⟨forks, ?_, ?_, ?_, ?_, ?_, ?_, ?_, ?_⟩ <;> simp only [goto_control, goto_table]
  all_goals grind [Ptable.reap, Alive]

theorem Family.sleep (family : Family s)
    (forks : Forks ({ s with table := s.table.sleepOn p (.proc p) }.goto p .waiting))
    (running : (s.table.proc p).state = .running)
    (noZombie : ∀ q, (s.table.proc q).parent = some p → (s.table.proc q).state ≠ .zombie) :
    Family ({ s with table := s.table.sleepOn p (.proc p) }.goto p .waiting) := by
  obtain ⟨-, init, orphan, exiting, born, alive, parent, onSelf, awake⟩ := family
  refine ⟨forks, ?_, ?_, ?_, ?_, ?_, ?_, ?_, ?_⟩ <;> simp only [goto_control, goto_table]
  all_goals grind [sleepOn, Alive]

/-- The critical section of `exit`: children go to `init`, and whoever gets a
zombie is awake. -/
theorem Family.exit {table : Ptable} (family : Family s)
    (forks : Forks ({ s with table := table }.goto p .user))
    (running : (s.table.proc p).state = .running) (control : s.control p = .exiting)
    (exited : Exited s.table table p) : Family ({ s with table := table }.goto p .user) := by
  have finishing := family.finishing
  obtain ⟨-, init, orphan, exiting, born, alive, parent, onSelf, awake⟩ := family
  obtain ⟨-, self, slot, parentAwake, initAwake⟩ := exited
  have notInit := exiting p control
  refine ⟨forks, ?_, ?_, ?_, ?_, ?_, ?_, ?_, ?_⟩ <;> simp only [goto_control, goto_table]
  · grind [Woken, Alive]
  · grind [Woken]
  · grind
  · grind [Woken]
  · grind [Woken, Alive]
  · grind [Woken, Alive]
  · grind [Woken]
  · intro r z sleeping onChan isParent zombie
    have sleeper : r ≠ p := by
      rintro rfl
      rw [self] at sleeping
      cases sleeping
    by_cases itself : z = p
    · -- the new zombie: its parent has been woken
      subst itself
      rw [self] at isParent
      have wasParent : (s.table.proc z).parent = some r := by
        split at isParent
        next own =>
          exact absurd rfl (alive z z own).1
        · exact isParent
      exact parentAwake r r sleeper wasParent sleeping onChan
    · have wasZombie := ((slot z itself).zombie).mp zombie
      rw [(slot z itself).parent] at isParent
      split at isParent
      · -- a zombie that goes to `init`, which has been woken
        rename_i child
        cases isParent
        exact initAwake ⟨z, child, wasZombie⟩ _ sleeper sleeping onChan
      · have before := (slot r sleeper).sleeping sleeping
        rw [before] at sleeping onChan
        exact awake r z sleeping onChan isParent wasZombie

theorem Family.step {action : Action} (family : Family s) (moves : Moves s action after) :
    Family after := by
  have forks := family.toForks.step moves
  have exits := family.exiting
  have waits := family.onSelf
  cases moves with
  | nothing => exact family
  | copy running control => exact family.copy forks running control
  | forkFinish running control => exact family.finish forks control
  | exitSection running control exited => exact family.exit forks running control exited
  | reap running control parent zombie => exact family.reap forks zombie
  | waitSleeps running control alive => exact family.sleep forks running alive
  | stackFailed running control =>
    have embryo : (s.table.proc _).state = .embryo := family.embryo _ _ (by rw [control]; rfl)
    refine family.mild forks ?_ ?_ ?_ ?_ ?_ ?_ ?_ <;> simp only [goto_control, goto_table] <;>
      grind [Alive]
  | copyFailed running control =>
    have embryo : (s.table.proc _).state = .embryo := family.embryo _ _ (by rw [control]; rfl)
    refine family.mild forks ?_ ?_ ?_ ?_ ?_ ?_ ?_ <;> simp only [goto_control, goto_table] <;>
      grind [Alive]
  | wakeup =>
    refine family.mild forks ?_ ?_ ?_ ?_ ?_ ?_ ?_ <;> grind [wakeup1, wakeSlot, Alive]
  | _ =>
    refine family.mild forks ?_ ?_ ?_ ?_ ?_ ?_ ?_ <;> simp only [goto_control, goto_table] <;>
      grind [setState, sleepOn, Alive]

end Family

/-! ## Process numbers -/

/-- As long as `nextpid` has not wrapped around, a number is given out once. -/
structure Pids (s : System) : Prop where
  next : s.table.nextpid.toNat = s.created + 1
  given : ∀ q, (s.table.proc q).state ≠ .unused →
    0 < (s.table.proc q).pid.toNat ∧ (s.table.proc q).pid.toNat < s.table.nextpid.toNat
  distinct : ∀ p q, (s.table.proc p).state ≠ .unused → (s.table.proc q).state ≠ .unused →
    (s.table.proc p).pid = (s.table.proc q).pid → p = q
  gone : ∀ pid ∈ s.returned, pid.toNat < s.table.nextpid.toNat ∧
    ∀ q, (s.table.proc q).state ≠ .unused → (s.table.proc q).pid ≠ pid
  once : s.returned.Nodup

theorem initial_pids (kstack pgdir : Nat) : Pids (initial kstack pgdir) where
  next := rfl
  given q live := by
    simp only [initial, userinit] at live ⊢
    split at live
    next isInit =>
      rw [if_pos isInit]
      dsimp only
      decide
    · exact absurd rfl live
  distinct p q first second _ := by
    simp only [initial, userinit] at first second
    split at first
    · split at second
      next isInit other =>
        rw [isInit, other]
      · exact absurd rfl second
    · exact absurd rfl first
  gone _ member := nomatch member
  once := List.nodup_nil

section Pids

variable {s after : System} {p np q : ProcId}

theorem Pids.mild (pids : Pids s) (nextpid : after.table.nextpid = s.table.nextpid)
    (created : after.created = s.created) (returned : after.returned = s.returned)
    (slots : ∀ q, (after.table.proc q).state ≠ .unused →
      (s.table.proc q).state ≠ .unused ∧ (after.table.proc q).pid = (s.table.proc q).pid) :
    Pids after where
  next := by rw [nextpid, created, pids.next]
  given q live := by
    obtain ⟨before, same⟩ := slots q live
    rw [nextpid, same]
    exact pids.given q before
  distinct p q first second clash := by
    obtain ⟨firstBefore, firstSame⟩ := slots p first
    obtain ⟨secondBefore, secondSame⟩ := slots q second
    rw [firstSame, secondSame] at clash
    exact pids.distinct p q firstBefore secondBefore clash
  gone pid member := by
    rw [returned] at member
    obtain ⟨small, free⟩ := pids.gone pid member
    refine ⟨nextpid ▸ small, ?_⟩
    intro q live
    obtain ⟨before, same⟩ := slots q live
    rw [same]
    exact free q before
  once := returned ▸ pids.once

theorem Pids.fork {table : Ptable} (pids : Pids s) (room : s.created + 2 < 2 ^ 32)
    (allocated : table = { s.table.set np { s.table.proc np with
      state := .embryo, pid := s.table.nextpid } with nextpid := s.table.nextpid + 1 }) :
    Pids ({ s with table := table, created := s.created + 1 }.goto p (.forkStack np)) := by
  have increased : (s.table.nextpid + 1).toNat = s.table.nextpid.toNat + 1 := by
    rw [UInt32.toNat_add, pids.next]
    exact Nat.mod_eq_of_lt room
  obtain ⟨next, given, distinct, gone, once⟩ := pids
  subst allocated
  refine ⟨?_, ?_, ?_, ?_, once⟩
  · change (s.table.nextpid + 1).toNat = s.created + 1 + 1
    rw [increased, next]
  · intro q
    simp only [goto_table, set_proc, increased]
    split
    · intro _
      dsimp only
      omega
    · intro live
      have old := given q live
      omega
  · intro first second
    simp only [goto_table, set_proc]
    -- a number already given is below the new one
    have fresh : ∀ q, (s.table.proc q).state ≠ .unused →
        (s.table.proc q).pid ≠ s.table.nextpid := by
      intro q live same
      have old := (given q live).2
      rw [same] at old
      exact lt_irrefl _ old
    grind
  · intro pid member
    obtain ⟨small, free⟩ := gone pid member
    simp only [goto_table, set_proc, increased]
    refine ⟨small.trans (Nat.lt_succ_self _), ?_⟩
    intro q
    split
    · intro _ same
      dsimp only at same
      rw [same] at small
      exact lt_irrefl _ small
    · exact free q

theorem Pids.reap (pids : Pids s) (zombie : (s.table.proc q).state = .zombie) :
    Pids ({ s with
      table := s.table.reap q
      returned := (s.table.proc q).pid :: s.returned }.goto p .user) := by
  obtain ⟨next, given, distinct, gone, once⟩ := pids
  have live : (s.table.proc q).state ≠ .unused := by simp [zombie]
  have slots : ∀ r, ((s.table.reap q).proc r).state ≠ .unused →
      r ≠ q ∧ (s.table.reap q).proc r = s.table.proc r := by
    intro r
    unfold Ptable.reap
    rw [set_proc]
    split
    · intro freed
      exact absurd rfl freed
    next other =>
      exact fun _ => ⟨other, rfl⟩
  refine ⟨next, ?_, ?_, ?_, ?_⟩ <;> simp only [goto_table, goto_returned]
  · intro r stays
    obtain ⟨-, same⟩ := slots r stays
    rw [same] at stays ⊢
    exact given r stays
  · intro first second firstStays secondStays clash
    have firstSame := (slots first firstStays).2
    have secondSame := (slots second secondStays).2
    rw [firstSame] at firstStays clash
    rw [secondSame] at secondStays clash
    exact distinct first second firstStays secondStays clash
  · intro pid member
    rcases List.mem_cons.mp member with rfl | earlier
    · refine ⟨(given q live).2, ?_⟩
      intro r stays
      obtain ⟨other, same⟩ := slots r stays
      rw [same] at stays ⊢
      exact fun clash => other (distinct r q stays live clash)
    · refine ⟨(gone pid earlier).1, ?_⟩
      intro r stays
      have same := (slots r stays).2
      rw [same] at stays ⊢
      exact (gone pid earlier).2 r stays
  · refine List.nodup_cons.mpr ⟨?_, once⟩
    intro earlier
    exact (gone _ earlier).2 q live rfl

theorem Pids.step {action : Action} (forks : Forks s) (pids : Pids s)
    (room : s.created + 2 < 2 ^ 32) (moves : Moves s action after) : Pids after := by
  have embryo : ∀ p np, (s.control p).child = some np → (s.table.proc np).state ≠ .unused := by
    intro p np child
    rw [forks.embryo p np child]
    exact nofun
  cases moves with
  | nothing => exact pids
  | fork running control unused => exact pids.fork room rfl
  | reap running control parent zombie => exact pids.reap zombie
  | exitSection running control exited =>
    obtain ⟨nextpid, self, slot, -, -⟩ := exited
    refine pids.mild nextpid rfl rfl ?_
    simp only [goto_table]
    grind [Woken]
  | wakeup =>
    refine pids.mild rfl rfl rfl ?_
    grind [wakeup1, wakeSlot]
  | stack running control =>
    have live := embryo _ _ (by rw [control]; rfl)
    refine pids.mild rfl rfl rfl ?_
    simp only [goto_table]
    grind
  | copy running control =>
    have live := embryo _ _ (by rw [control]; rfl)
    refine pids.mild rfl rfl rfl ?_
    simp only [goto_table]
    grind [copyProcess]
  | forkFinish running control =>
    have live := embryo _ _ (by rw [control]; rfl)
    refine pids.mild rfl rfl rfl ?_
    simp only [goto_table]
    grind [setState]
  | _ =>
    refine pids.mild rfl rfl rfl ?_
    simp only [goto_table]
    grind [setState, sleepOn]

end Pids

theorem created_le {s after : System} {action : Action} (moves : Moves s action after) :
    s.created ≤ after.created := by
  cases moves <;> first | exact le_rfl | exact Nat.le_succ _

/-! ## The protocol -/

theorem Reachable.family {allowed : System → Action → Prop} {kstack pgdir : Nat} {s : System}
    (reachable : Reachable allowed kstack pgdir s) : Family s :=
  Transition.Reachable.invariant Family (initial_family kstack pgdir)
    (fun _ _ _ family _ stepped => family.step (moves_of_step stepped)) reachable

theorem Reachable.pids {allowed : System → Action → Prop} {kstack pgdir : Nat} {s : System}
    (reachable : Reachable allowed kstack pgdir s) (few : s.created < 2 ^ 31 - 1) : Pids s := by
  induction reachable with
  | initial => exact initial_pids kstack pgdir
  | step before _ stepped ih =>
    have moves := moves_of_step stepped
    have grown := created_le moves
    have forks := (Reachable.family before).toForks
    exact (ih (by omega)).step forks (by omega) moves

/-- exit and wait in every run that creates fewer than `2 ^ 31 - 1` processes. -/
theorem exit_wait_protocol (kstack pgdir : Nat) (s : System)
    (reachable : Reachable (fun _ _ => True) kstack pgdir s) (few : s.created < 2 ^ 31 - 1) :
    -- live pids are distinct
    (∀ p q, (s.table.proc p).state ≠ .unused → (s.table.proc q).state ≠ .unused →
      (s.table.proc p).pid = (s.table.proc q).pid → p = q) ∧
    -- a process other than `init` has a parent that is neither UNUSED nor ZOMBIE
    (∀ q, q ≠ initproc → Alive (s.table.proc q).state ∨ (s.table.proc q).state = .zombie →
      ∃ r, (s.table.proc q).parent = some r ∧ (s.table.proc r).state ≠ .unused ∧
        (s.table.proc r).state ≠ .zombie) ∧
    -- a pid is returned by one wait only, of the parent, after the child has exited
    s.returned.Nodup ∧
    (∀ p pid, (s.wait p).1 = .returns pid → pid ∉ s.returned ∧
      ∃ q, (s.table.proc q).pid = pid ∧ (s.table.proc q).parent = some p ∧
        (s.table.proc q).state = .zombie) ∧
    -- wait returns -1 only without children or when killed
    (∀ p, (s.wait p).1 = .fails →
      (∀ q, (s.table.proc q).parent ≠ some p) ∨ (s.table.proc p).killed = true) ∧
    -- nobody sleeps in wait while a child is a zombie
    ∀ p q, s.control p = .waiting → (s.table.proc p).state = .sleeping →
      (s.table.proc q).parent = some p → (s.table.proc q).state ≠ .zombie := by
  have family := reachable.family
  have pids := reachable.pids few
  refine ⟨pids.distinct, ?_, pids.once, ?_, ?_, ?_⟩
  · intro q notInit lives
    obtain ⟨r, parent⟩ := Option.ne_none_iff_exists'.mp (family.parent q lives notInit)
    have alive := (family.alive q r parent).2
    refine ⟨r, parent, ?_, ?_⟩ <;> rcases alive with state | state | state <;> simp [state]
  · intro p pid returned
    rcases wait_cases s p with ⟨q, parent, zombie, same⟩ | ⟨-, same⟩ | ⟨-, same⟩
    · rw [same] at returned
      obtain rfl := WaitResult.returns.inj returned
      refine ⟨?_, q, rfl, parent, zombie⟩
      intro earlier
      exact (pids.gone _ earlier).2 q (by simp [zombie]) rfl
    · rw [same] at returned
      cases returned
    · rw [same] at returned
      cases returned
  · intro p failed
    rcases wait_cases s p with ⟨q, -, -, same⟩ | ⟨fails, -⟩ | ⟨-, same⟩
    · rw [same] at failed
      cases failed
    · exact fails
    · rw [same] at failed
      cases failed
  · intro p q waiting sleeping parent
    exact family.awake p q sleeping (family.onSelf p waiting sleeping) parent

/-- `init` forks a child and waits for it. -/
theorem exit_wait_protocol_child : ∃ s, Reachable (fun _ _ => True) 10 11 s ∧
    (s.returned = [2] ∧ s.created < 2 ^ 31 - 1) ∧ s.returned.Nodup := by
  have ran : ∃ s, Reachable (fun _ _ => True) 10 11 s ∧
      (s.returned = [2] ∧ s.created < 2 ^ 31 - 1) :=
    Transition.Reachable.exists_of_run (fun _ _ => true) (fun _ _ _ => trivial) _
      [.schedule 0, .fork 0, .forkStack 0 (some 12), .forkCopy 0 (some 13), .forkFinish 0, .wait 0,
        .schedule 1, .exitClose 1, .exitSection 1, .schedule 0, .wait 0] (by decide +kernel)
  obtain ⟨s, reachable, ends⟩ := ran
  exact ⟨s, reachable, ends, (exit_wait_protocol 10 11 s reachable ends.2).2.2.1⟩

/-! ## The tree of processes -/

abbrev HasParent (s : System) (q r : ProcId) : Prop := (s.table.proc q).parent = some r

/-- There is a depth that grows along every edge from a process to its child. -/
def Ranked (s : System) : Prop :=
  ∃ rank : ProcId → Nat, rank initproc = 0 ∧ ∀ q r, HasParent s q r → rank r < rank q

section Ranked

variable {s after : System}

theorem Ranked.mild (ranked : Ranked s)
    (parents : ∀ q r, HasParent after q r →
      HasParent s q r ∨ r = initproc ∧ (s.table.proc q).parent ≠ none) :
    Ranked after := by
  obtain ⟨rank, init, below⟩ := ranked
  refine ⟨rank, init, fun q r parent => ?_⟩
  rcases parents q r parent with same | ⟨rfl, had⟩
  · exact below q r same
  · obtain ⟨old, wasParent⟩ := Option.ne_none_iff_exists'.mp had
    have deeper := below q old wasParent
    omega

theorem Ranked.copy {p np : ProcId} {pgdir : Nat} (ranked : Ranked s) (family : Family s)
    (running : (s.table.proc p).state = .running) (control : s.control p = .forkCopy np) :
    Ranked ({ s with table := s.table.copyProcess p np (some pgdir) }.goto p (.forkFinish np)) := by
  have embryo := family.embryo p np (by rw [control]; rfl)
  obtain ⟨rank, init, below⟩ := ranked
  -- nobody is a child of the new process, so it can go below its parent
  refine ⟨Function.update rank np (rank p + 1), ?_, ?_⟩
  · have := family.init
    grind [Alive]
  · have := family.alive
    simp only [HasParent, goto_table]
    grind [copyProcess, Alive]

theorem Ranked.step {action : Action} (ranked : Ranked s) (family : Family s)
    (moves : Moves s action after) : Ranked after := by
  cases moves with
  | nothing => exact ranked
  | copy running control => exact ranked.copy family running control
  | exitSection running control exited =>
    obtain ⟨-, self, slot, -, -⟩ := exited
    refine ranked.mild ?_
    simp only [HasParent, goto_table]
    grind [Woken]
  | _ =>
    refine ranked.mild ?_
    simp only [HasParent, goto_table]
    grind [setState, Ptable.reap, sleepOn, wakeup1, wakeSlot]

end Ranked

theorem Reachable.ranked {allowed : System → Action → Prop} {kstack pgdir : Nat} {s : System}
    (reachable : Reachable allowed kstack pgdir s) : Ranked s := by
  induction reachable with
  | initial => exact ⟨fun _ => 0, rfl, by grind [initial, userinit]⟩
  | step before _ stepped ih => exact ih.step (Reachable.family before) (moves_of_step stepped)

/-- The processes form a tree at all times: from each the parents lead to `init`, and no process
is an ancestor of its own. -/
theorem process_tree {kstack pgdir : Nat} {s : System}
    (reachable : Reachable (fun _ _ => True) kstack pgdir s) :
    (∀ q, ¬Relation.TransGen (HasParent s) q q) ∧
    ∀ q, Alive (s.table.proc q).state ∨ (s.table.proc q).state = .zombie →
      Relation.ReflTransGen (HasParent s) q initproc := by
  obtain ⟨rank, -, below⟩ := reachable.ranked
  have family := reachable.family
  refine ⟨fun q cycle => ?_, fun q => ?_⟩
  · have less : ∀ r, Relation.TransGen (HasParent s) q r →
        rank r < rank q := by
      intro r chain
      induction chain with
      | single parent => exact below _ _ parent
      | tail _ parent ih => exact (below _ _ parent).trans ih
    exact lt_irrefl _ (less q cycle)
  · induction q using (measure rank).wf.induction with
    | h q ih =>
      intro lives
      by_cases isInit : q = initproc
      · rw [isInit]
      · obtain ⟨r, parent⟩ := Option.ne_none_iff_exists'.mp (family.parent q lives isInit)
        exact .head parent (ih r (below q r parent) (.inl (family.alive q r parent).2))

/-- `init` has a child and a grandchild. -/
theorem process_tree_grandchild : ∃ s, Reachable (fun _ _ => True) 10 11 s ∧
    ((s.table.proc 2).parent = some 1 ∧ (s.table.proc 2).state = .runnable) ∧
    Relation.ReflTransGen (HasParent s) 2 initproc := by
  have ran : ∃ s, Reachable (fun _ _ => True) 10 11 s ∧
      ((s.table.proc 2).parent = some 1 ∧ (s.table.proc 2).state = .runnable) :=
    Transition.Reachable.exists_of_run (fun _ _ => true) (fun _ _ _ => trivial) _
      [.schedule 0, .fork 0, .forkStack 0 (some 12), .forkCopy 0 (some 13), .forkFinish 0,
        .schedule 1, .fork 1, .forkStack 1 (some 14), .forkCopy 1 (some 15), .forkFinish 1]
      (by decide +kernel)
  obtain ⟨s, reachable, ends⟩ := ran
  exact ⟨s, reachable, ends, (process_tree reachable).2 2 (.inl (.inr (.inl ends.2)))⟩

end Lifecycle

end Xv6
