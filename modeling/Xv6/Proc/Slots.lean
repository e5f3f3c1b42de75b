import Xv6.Proc.Lifecycle

/-!
# Free slots of the process table

`wait` clears the slot it frees, and `allocproc` relies on that: it sets only
the state and the number.  The failure paths of `allocproc` and `fork` free a
slot without clearing its number, and `kill` looks at the numbers of free slots
too, which are zero.  So `kill` can mark a free slot, and the next process to get
it is born killed.

Without these two, free slots stay clean.
-/

namespace Xv6.Lifecycle

open Ptable

/-- An UNUSED slot as `wait` leaves it. -/
structure Clean (process : Process) : Prop where
  pid : process.pid = 0
  killed : process.killed = false
  kstack : process.kstack = none
  parent : process.parent = none
  ofile : ∀ fd, process.ofile fd = none

/-- Memory does not run out in `fork`, and nobody kills process zero while there
is a free slot. -/
def Meets (s : System) : Action → Prop
  | .forkStack _ page => page ≠ none
  | .forkCopy _ pgdir => pgdir ≠ none
  | .kill _ pid => pid ≠ 0 ∨ ∀ q, (s.table.proc q).state ≠ .unused
  | _ => True

/-- What keeps free slots clean. -/
structure Tidy (s : System) : Prop extends Forks s where
  clean : ∀ q, (s.table.proc q).state = .unused → Clean (s.table.proc q)
  closed : ∀ q, (s.table.proc q).state = .zombie → ∀ fd, (s.table.proc q).ofile fd = none
  exiting : ∀ q, s.control q = .exiting → ∀ fd, (s.table.proc q).ofile fd = none
  busy : ∀ q, s.control q = .exiting → Alive (s.table.proc q).state

theorem initial_tidy (kstack pgdir : Nat) : Tidy (initial kstack pgdir) := by
  refine ⟨initial_forks kstack pgdir, ?_, ?_, ?_, ?_⟩
  · intro q unused
    simp only [initial, userinit] at unused ⊢
    split at unused
    · cases unused
    next other =>
      rw [if_neg other]
      exact ⟨rfl, rfl, rfl, rfl, fun _ => rfl⟩
  · intro q zombie
    simp only [initial, userinit] at zombie
    split at zombie <;> cases zombie
  · intro q control
    cases control
  · intro q control
    cases control

section Steps

variable {s after : System} {p np q : ProcId}

theorem Tidy.mild (tidy : Tidy s) (forks : Forks after)
    (unused : ∀ q, (after.table.proc q).state = .unused → after.table.proc q = s.table.proc q)
    (zombies : ∀ q, (after.table.proc q).state = .zombie → (s.table.proc q).state = .zombie)
    (files : ∀ q, Alive (s.table.proc q).state ∨ (s.table.proc q).state = .zombie →
      (after.table.proc q).ofile = (s.table.proc q).ofile)
    (controls : ∀ q, after.control q = .exiting → s.control q = .exiting)
    (lives : ∀ q, Alive (s.table.proc q).state → Alive (after.table.proc q).state) :
    Tidy after where
  toForks := forks
  clean q free := by
    have same := unused q free
    rw [same] at free ⊢
    exact tidy.clean q free
  closed q zombie := by
    have before := zombies q zombie
    rw [files q (.inr before)]
    exact tidy.closed q before
  exiting q control := by
    have before := controls q control
    rw [files q (.inl (tidy.busy q before))]
    exact tidy.exiting q before
  busy q control := lives q (tidy.busy q (controls q control))

theorem alive_of_woken {process woken : Process} (one : Woken process woken)
    (lives : Alive process.state) : Alive woken.state := by
  rcases one with rfl | ⟨-, rfl⟩
  · exact lives
  · exact .inr (.inl rfl)

theorem Tidy.exit {table : Ptable} (tidy : Tidy s)
    (forks : Forks ({ s with table := table }.goto p .user)) (control : s.control p = .exiting)
    (exited : Exited s.table table p) : Tidy ({ s with table := table }.goto p .user) := by
  have self := exited.self
  refine ⟨forks, ?_, ?_, ?_, ?_⟩
  · intro q free
    by_cases here : q = p
    · subst here
      rw [goto_table, self] at free
      cases free
    · have same := (exited.slot q here).unused free
      rw [goto_table, same] at free ⊢
      have clean := tidy.clean q free
      rw [if_neg (by simp [clean.parent])]
      exact clean
  · intro q zombie
    by_cases here : q = p
    · subst here
      rw [goto_table, self]
      exact tidy.exiting q control
    · rw [goto_table, (exited.slot q here).ofile]
      exact tidy.closed q ((exited.slot q here).zombie.mp zombie)
  · intro q exiting
    rw [goto_control] at exiting
    split at exiting
    · cases exiting
    next here =>
      rw [goto_table, (exited.slot q here).ofile]
      exact tidy.exiting q exiting
  · intro q exiting
    rw [goto_control] at exiting
    split at exiting
    · cases exiting
    next here =>
      exact alive_of_woken (exited.slot q here) (tidy.busy q exiting)

theorem Tidy.reap {returned : List UInt32} (tidy : Tidy s)
    (forks : Forks ({ s with table := s.table.reap q, returned := returned }.goto p .user))
    (zombie : (s.table.proc q).state = .zombie) :
    Tidy ({ s with table := s.table.reap q, returned := returned }.goto p .user) := by
  have not_alive : ¬Alive (s.table.proc q).state := by
    simp [Alive, zombie]
  have still : ∀ r, (({ s with table := s.table.reap q, returned := returned }.goto p .user).control
      r) = .exiting → r ≠ p ∧ s.control r = .exiting := by
    intro r
    rw [goto_control]
    grind
  refine ⟨forks, ?_, ?_, ?_, ?_⟩
  · intro r
    simp only [goto_table, Ptable.reap, set_proc]
    split
    · intro _
      exact ⟨rfl, rfl, rfl, rfl, tidy.closed q zombie⟩
    · exact tidy.clean r
  · intro r
    simp only [goto_table, Ptable.reap, set_proc]
    split
    · intro freed
      cases freed
    · exact tidy.closed r
  · intro r exiting
    obtain ⟨-, elsewhere⟩ := still r exiting
    have other : r ≠ q := fun same => not_alive (same ▸ tidy.busy r elsewhere)
    simpa [Ptable.reap, other] using tidy.exiting r elsewhere
  · intro r exiting
    obtain ⟨-, elsewhere⟩ := still r exiting
    have other : r ≠ q := fun same => not_alive (same ▸ tidy.busy r elsewhere)
    simpa [Ptable.reap, other] using tidy.busy r elsewhere

theorem Tidy.named_live {pid : UInt32} (tidy : Tidy s) (meets : Meets s (.kill p pid)) (q : ProcId)
    (named : (s.table.proc q).pid = pid) : (s.table.proc q).state ≠ .unused := by
  intro unused
  rcases meets with notZero | full
  · exact notZero (named.symm.trans (tidy.clean q unused).pid)
  · exact full q unused

theorem Tidy.step {action : Action} (tidy : Tidy s) (meets : Meets s action)
    (moves : Moves s action after) : Tidy after := by
  have forks := tidy.toForks.step moves
  have child : ∀ p np, (s.control p).child = some np → (s.table.proc np).state = .embryo :=
    tidy.embryo
  cases moves with
  | nothing => exact tidy
  | stackFailed running control => exact absurd rfl meets
  | copyFailed running control => exact absurd rfl meets
  | stack running control =>
    have embryo := child _ _ (by rw [control]; rfl)
    refine tidy.mild forks ?_ ?_ ?_ ?_ ?_ <;> simp only [goto_control, goto_table] <;> grind [Alive]
  | copy running control =>
    have embryo := child _ _ (by rw [control]; rfl)
    refine tidy.mild forks ?_ ?_ ?_ ?_ ?_ <;> simp only [goto_control, goto_table] <;>
      grind [Alive, copyProcess]
  | forkFinish running control =>
    have embryo := child _ _ (by rw [control]; rfl)
    refine tidy.mild forks ?_ ?_ ?_ ?_ ?_ <;> simp only [goto_control, goto_table] <;>
      grind [Alive, setState]
  | wakeup =>
    refine tidy.mild forks ?_ ?_ ?_ ?_ ?_ <;> grind [Alive, wakeup1, wakeSlot]
  | kill running control =>
    have live := tidy.named_live meets
    refine tidy.mild forks ?_ ?_ ?_ ?_ ?_ <;> grind [Alive]
  | exitClose running control notInit =>
    obtain ⟨-, clean, closed, exiting, busy⟩ := tidy
    refine ⟨forks, ?_, ?_, ?_, ?_⟩ <;> simp only [goto_control, goto_table] <;> grind [Alive]
  | setFd running control =>
    obtain ⟨-, clean, closed, exiting, busy⟩ := tidy
    refine ⟨forks, ?_, ?_, ?_, ?_⟩ <;> grind [Alive]
  | exitSection running control exited => exact tidy.exit forks control exited
  | reap running control parent zombie => exact tidy.reap forks zombie
  | _ =>
    refine tidy.mild forks ?_ ?_ ?_ ?_ ?_ <;> simp only [goto_control, goto_table] <;>
      grind [Alive, setState, sleepOn]

theorem Tidy.fork (tidy : Tidy s) (forked : Lifecycle.step s (.fork p) = some after)
    (control : after.control p = .forkStack np) : (after.table.proc np).killed = false := by
  simp only [Lifecycle.step] at forked
  split at forked
  next guard =>
    split at forked
    next slot table alloc =>
      obtain ⟨unused, rfl⟩ := allocSlot_eq_some alloc
      cases forked
      rw [goto_control, if_pos rfl] at control
      obtain rfl := Control.forkStack.inj control
      simpa using (tidy.clean _ unused).killed
    · cases forked
      rw [guard.2] at control
      cases control
  · cases forked

theorem Tidy.spared {action : Action} {pid : UInt32} (tidy : Tidy s)
    (spared : (s.table.proc np).pid = pid → (s.table.proc np).killed = false)
    (unnamed : ∀ killer, action ≠ .kill killer pid) (moves : Moves s action after) :
    (after.table.proc np).pid = pid → (after.table.proc np).killed = false := by
  have fresh : ∀ q, (s.table.proc q).state = .unused → (s.table.proc q).killed = false :=
    fun q unused => (tidy.clean q unused).killed
  cases moves with
  | nothing => exact spared
  | @exitSection p table running control exited =>
    by_cases here : np = p
    · subst here
      rw [goto_table, exited.self]
      exact spared
    · rw [goto_table]
      rcases exited.slot np here with same | ⟨-, same⟩ <;> rw [same] <;> exact spared
  | wakeup => grind [wakeup1, wakeSlot]
  | _ =>
    simp only [goto_table]
    grind [copyProcess, setState, Ptable.reap, sleepOn]

end Steps

theorem Reachable.tidy {kstack pgdir : Nat} {s : System}
    (reachable : Reachable Meets kstack pgdir s) : Tidy s :=
  Transition.Reachable.invariant Tidy (initial_tidy kstack pgdir)
    (fun _ _ _ tidy meets stepped => tidy.step meets (moves_of_step stepped)) reachable

theorem kill_changes {t after : Ptable} {pid : UInt32} (killed : t.kill pid = some after) :
    ∃ q, (t.proc q).pid = pid ∧ after.nextpid = t.nextpid ∧
      ∀ r, r ≠ q → after.proc r = t.proc r := by
  obtain ⟨q, named, rfl⟩ := kill_eq_some killed
  exact ⟨q, named, rfl, fun r other => by rw [set_proc, if_neg other]⟩

/-- As long as memory does not run out in `fork` and nobody kills process zero,
free slots are clean, `kill` affects only the process it names, and a child is
not killed before somebody names it. -/
theorem slots_clean (kstack pgdir : Nat) (s : System)
    (reachable : Reachable Meets kstack pgdir s) :
    (∀ q, (s.table.proc q).state = .unused → Clean (s.table.proc q)) ∧
    (∀ p pid table, Meets s (.kill p pid) → s.table.kill pid = some table →
      ∃ q, (s.table.proc q).pid = pid ∧ (s.table.proc q).state ≠ .unused ∧
        table.nextpid = s.table.nextpid ∧ ∀ r, r ≠ q → table.proc r = s.table.proc r) ∧
    ∀ p np child, step s (.fork p) = some child → child.control p = .forkStack np →
      ∀ later, Transition.Reachable step (fun state action => Meets state action ∧
          ∀ killer, action ≠ .kill killer s.table.nextpid) child later →
        (later.table.proc np).pid = s.table.nextpid → (later.table.proc np).killed = false := by
  have tidy := reachable.tidy
  refine ⟨tidy.clean, ?_, ?_⟩
  · intro p pid table meets killed
    obtain ⟨q, named, nextpid, others⟩ := kill_changes killed
    exact ⟨q, named, tidy.named_live meets q named, nextpid, others⟩
  · intro p np child forked control later run
    have born : Tidy child := tidy.step (show Meets s (.fork p) from trivial) (moves_of_step forked)
    refine (Transition.Reachable.invariant (fun state => Tidy state ∧
      ((state.table.proc np).pid = s.table.nextpid → (state.table.proc np).killed = false))
      ⟨born, fun _ => tidy.fork forked control⟩ ?_ run).2
    rintro state action after ⟨stateTidy, spared⟩ ⟨meets, unnamed⟩ stepped
    have next := moves_of_step stepped
    exact ⟨stateTidy.step meets next, stateTidy.spared spared unnamed next⟩

/-- A child with an open file is killed and exits, and `init` collects it with `wait`. -/
theorem slots_clean_child : ∃ s, Reachable Meets 10 11 s ∧
    (s.returned = [2] ∧ (s.table.proc 1).state = .unused) ∧ Clean (s.table.proc 1) := by
  have ran : ∃ s, Reachable Meets 10 11 s ∧
      (s.returned = [2] ∧ (s.table.proc 1).state = .unused) :=
    Transition.Reachable.exists_of_run
      (fun _ action => match action with
        | .forkStack _ page => page.isSome
        | .forkCopy _ pgdir => pgdir.isSome
        | .kill _ pid => pid != 0
        | _ => true)
      (by
        intro s action allowed
        cases action <;> simp_all [Meets, Option.isSome_iff_ne_none]) _
      [.schedule 0, .setFd 0 3 (some 7), .fork 0, .forkStack 0 (some 12), .forkCopy 0 (some 13),
        .forkFinish 0, .schedule 1, .kill 0 2, .exitClose 1, .exitSection 1, .wait 0]
      (by decide +kernel)
  obtain ⟨s, reachable, ends⟩ := ran
  exact ⟨s, reachable, ends, (slots_clean 10 11 s reachable).1 1 ends.2⟩

/-- A `fork` without memory leaves its number in a free slot, and a `kill` of that
number succeeds; so does a `kill` of process zero.  The next child in the slot is
born killed, under a number nobody has named. -/
theorem slots_not_clean :
    (Transition.run step (fun _ _ => true) (initial 10 11)
      [.schedule 0, .fork 0, .forkStack 0 none, .kill 0 2]).any (fun s =>
        (s.table.proc 1).state = .unused && (s.table.proc 1).pid = 2 && (s.table.proc 1).killed) ∧
    (Transition.run step (fun _ _ => true) (initial 10 11) [.schedule 0, .kill 0 0]).any (fun s =>
      (s.table.proc 1).state = .unused && (s.table.proc 1).killed) ∧
    (Transition.run step (fun _ _ => true) (initial 10 11)
      [.schedule 0, .fork 0, .forkStack 0 none, .kill 0 2, .fork 0, .forkStack 0 (some 12),
        .forkCopy 0 (some 13), .forkFinish 0]).any (fun s =>
        (s.table.proc 1).state = .runnable && (s.table.proc 1).pid = 3 &&
          (s.table.proc 1).killed) := by
  decide +kernel

end Xv6.Lifecycle
