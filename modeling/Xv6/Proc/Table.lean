import Xv6.Sys.Kernel

/-!
# The process table

`struct proc` and the critical sections of `proc.c` under `ptable.lock`, as
functions on the table.  A loop over the table is a recursion over its slots.
Physical pages are numbered; what is on them is not modelled here.
-/

namespace Xv6

abbrev NPROC : Nat := 64

abbrev ProcId := Fin NPROC

inductive ProcState where
  | unused
  | embryo
  | sleeping
  | runnable
  | running
  | zombie
  deriving DecidableEq, Repr

inductive Chan where
  | proc (p : ProcId)
  | other (address : Nat)
  deriving DecidableEq, Repr

/-- `struct proc`, without the saved registers, the size, the name and the
current directory. -/
structure Process where
  state : ProcState
  pid : UInt32
  parent : Option ProcId
  killed : Bool
  chan : Option Chan
  kstack : Option Nat
  pgdir : Option Nat
  ofile : Fd → Option FileId

structure Ptable where
  proc : ProcId → Process
  nextpid : UInt32

/-- Set by `userinit`, which finds the first slot unused. -/
def initproc : ProcId := 0

namespace Ptable

def set (t : Ptable) (p : ProcId) (process : Process) : Ptable :=
  { t with proc := Function.update t.proc p process }

def setState (t : Ptable) (p : ProcId) (state : ProcState) : Ptable :=
  t.set p { t.proc p with state := state }

def wakeSlot (chan : Option Chan) (process : Process) : Process :=
  if process.state = .sleeping ∧ process.chan = chan then { process with state := .runnable }
  else process

def wakeup1 (chan : Option Chan) (t : Ptable) : Ptable :=
  { t with proc := fun p => wakeSlot chan (t.proc p) }

def allocSlot (t : Ptable) : Option (ProcId × Ptable) :=
  match (List.finRange NPROC).find? fun p => (t.proc p).state = .unused with
  | some np =>
    some (np, { t.set np { t.proc np with state := .embryo, pid := t.nextpid } with
      nextpid := t.nextpid + 1 })
  | none => none

/-- The end of `allocproc`: `p->kstack = kalloc()`. -/
def allocStack (t : Ptable) (np : ProcId) : Option Nat → Ptable
  | some page => t.set np { t.proc np with kstack := some page }
  | none => t.set np { t.proc np with kstack := none, state := .unused }

/-- The rest of `fork` up to its critical section, with the result of `copyuvm`. -/
def copyProcess (t : Ptable) (p np : ProcId) : Option Nat → Ptable
  | some pgdir => t.set np { t.proc np with
      pgdir := some pgdir
      parent := some p
      ofile := fun fd => match (t.proc p).ofile fd with
        | some f => some f
        | none => (t.proc np).ofile fd }
  | none => t.set np { t.proc np with pgdir := none, kstack := none, state := .unused }

/-- A turn of the loop of `exit` that passes children to `init`. -/
def reparent (p : ProcId) (t : Ptable) (q : ProcId) : Ptable :=
  if (t.proc q).parent = some p then
    let t := t.set q { t.proc q with parent := some initproc }
    if (t.proc q).state = .zombie then wakeup1 (some (.proc initproc)) t else t
  else t

def exitSection (t : Ptable) (p : ProcId) : Ptable :=
  let t := wakeup1 ((t.proc p).parent.map .proc) t
  let t := (List.finRange NPROC).foldl (reparent p) t
  t.setState p .zombie

inductive Scan where
  | zombie (q : ProcId)
  | none (havekids : Bool)
  deriving DecidableEq, Repr

def scan (t : Ptable) (p : ProcId) : List ProcId → (havekids : Bool) → Scan
  | [], havekids => .none havekids
  | q :: rest, havekids =>
    if (t.proc q).parent ≠ some p then t.scan p rest havekids
    else if (t.proc q).state = .zombie then .zombie q
    else t.scan p rest true

def reap (t : Ptable) (q : ProcId) : Ptable :=
  t.set q { t.proc q with
    kstack := none
    state := .unused
    pid := 0
    parent := none
    killed := false }

/-- `sleep(chan, &ptable.lock)` up to the switch to the scheduler. -/
def sleepOn (t : Ptable) (p : ProcId) (chan : Chan) : Ptable :=
  t.set p { t.proc p with chan := some chan, state := .sleeping }

def kill (t : Ptable) (pid : UInt32) : Option Ptable :=
  match (List.finRange NPROC).find? fun p => (t.proc p).pid = pid with
  | some p => some (t.set p { t.proc p with
      killed := true
      state := if (t.proc p).state = .sleeping then .runnable else (t.proc p).state })
  | none => none

def userinit (kstack pgdir : Nat) : Ptable where
  proc := fun p =>
    if p = initproc then
      { state := .runnable, pid := 1, parent := none, killed := false, chan := none,
        kstack := some kstack, pgdir := some pgdir, ofile := fun _ => none }
    else
      { state := .unused, pid := 0, parent := none, killed := false, chan := none,
        kstack := none, pgdir := none, ofile := fun _ => none }
  nextpid := 2

/-! ## What the functions do to a slot -/

variable {t after : Ptable} {p q : ProcId}

@[simp, grind =]
theorem set_proc (t : Ptable) (p q : ProcId) (process : Process) :
    (t.set p process).proc q = if q = p then process else t.proc q := Function.update_apply _ _ _ _

@[simp, grind =]
theorem set_nextpid (t : Ptable) (p : ProcId) (process : Process) :
    (t.set p process).nextpid = t.nextpid := rfl

theorem allocSlot_eq_some {np : ProcId} (found : t.allocSlot = some (np, after)) :
    (t.proc np).state = .unused ∧
      after = { t.set np { t.proc np with state := .embryo, pid := t.nextpid } with
        nextpid := t.nextpid + 1 } := by
  unfold allocSlot at found
  split at found
  next slot search =>
    have unused := List.find?_some search
    obtain ⟨rfl, rfl⟩ := Prod.mk.inj (Option.some.inj found)
    exact ⟨by simpa using unused, rfl⟩
  · cases found

theorem kill_eq_some {pid : UInt32} (killed : t.kill pid = some after) :
    ∃ q, (t.proc q).pid = pid ∧ after = t.set q { t.proc q with
      killed := true
      state := if (t.proc q).state = .sleeping then .runnable else (t.proc q).state } := by
  unfold kill at killed
  split at killed
  next slot search =>
    have named := List.find?_some search
    exact ⟨slot, by simpa using named, (Option.some.inj killed).symm⟩
  · cases killed

/-- A slot of which at most the state has changed, and that by a wakeup. -/
def Woken (process woken : Process) : Prop :=
  woken = process ∨ process.state = .sleeping ∧ woken = { process with state := .runnable }

theorem Woken.trans {first second third : Process} (one : Woken first second)
    (two : Woken second third) : Woken first third := by
  rcases one with rfl | ⟨sleeping, rfl⟩
  · exact two
  · rcases two with rfl | ⟨again, rfl⟩
    · exact .inr ⟨sleeping, rfl⟩
    · cases again

theorem wakeSlot_woken (chan : Option Chan) (process : Process) :
    Woken process (wakeSlot chan process) := by
  unfold wakeSlot
  split
  next sleeps =>
    exact .inr ⟨sleeps.1, rfl⟩
  · exact .inl rfl

theorem wakeSlot_awake (chan : Option Chan) (process : Process)
    (sleeping : (wakeSlot chan process).state = .sleeping) :
    (wakeSlot chan process).chan ≠ chan := by
  unfold wakeSlot at sleeping ⊢
  split
  next sleeps =>
    rw [if_pos sleeps] at sleeping
    cases sleeping
  next stays =>
    rw [if_neg stays] at sleeping
    exact fun same => stays ⟨sleeping, same⟩

/-- The effect of the loop of `exit` on the slots it has visited. -/
structure Reparented (t after : Ptable) (p : ProcId) (visited : List ProcId) : Prop where
  nextpid : after.nextpid = t.nextpid
  slot : ∀ q, Woken { t.proc q with
    parent := if q ∈ visited ∧ (t.proc q).parent = some p then some initproc
      else (t.proc q).parent } (after.proc q)
  woken : (∃ z ∈ visited, (t.proc z).parent = some p ∧ (t.proc z).state = .zombie) →
    ∀ q, (after.proc q).state = .sleeping → (after.proc q).chan ≠ some (.proc initproc)

theorem Woken.parent {process woken : Process} (one : Woken process woken) :
    woken.parent = process.parent := by
  rcases one with rfl | ⟨-, rfl⟩ <;> rfl

theorem Woken.ofile {process woken : Process} (one : Woken process woken) :
    woken.ofile = process.ofile := by
  rcases one with rfl | ⟨-, rfl⟩ <;> rfl

theorem Woken.unused {process woken : Process} (one : Woken process woken)
    (free : woken.state = .unused) : woken = process := by
  rcases one with rfl | ⟨-, rfl⟩
  · rfl
  · cases free

theorem Woken.zombie {process woken : Process} (one : Woken process woken) :
    woken.state = .zombie ↔ process.state = .zombie := by
  rcases one with rfl | ⟨sleeping, rfl⟩
  · rfl
  · simp [sleeping]

theorem Woken.sleeping {process woken : Process} (one : Woken process woken)
    (asleep : woken.state = .sleeping) : woken = process := by
  rcases one with rfl | ⟨-, rfl⟩
  · rfl
  · cases asleep

theorem Woken.setParent {process woken : Process} (one : Woken process woken)
    (parent : Option ProcId) :
    Woken { process with parent := parent } { woken with parent := parent } := by
  rcases one with rfl | ⟨sleeping, rfl⟩
  · exact .inl rfl
  · exact .inr ⟨sleeping, rfl⟩

theorem Reparented.turn {mid : Ptable} {visited : List ProcId}
    (reparented : Reparented t mid p visited) (q : ProcId) :
    Reparented t (reparent p mid q) p (visited ++ [q]) := by
  have slot := reparented.slot
  by_cases child : (mid.proc q).parent = some p
  · have wasChild : (t.proc q).parent = some p := by
      rw [(slot q).parent] at child
      split at child
      next both =>
        exact both.2
      · exact child
    -- the slots once the parent has been set
    have set : ∀ r, Woken { t.proc r with
        parent := if r ∈ visited ++ [q] ∧ (t.proc r).parent = some p then some initproc
          else (t.proc r).parent }
        ((mid.set q { mid.proc q with parent := some initproc }).proc r) := by
      intro r
      rw [set_proc]
      by_cases here : r = q
      · subst here
        rw [if_pos rfl, if_pos ⟨by simp, wasChild⟩]
        exact (slot r).setParent (some initproc)
      · rw [if_neg here]
        simpa [here] using slot r
    have zombies : (∃ z ∈ visited, (t.proc z).parent = some p ∧ (t.proc z).state = .zombie) →
        ∀ r, ((mid.set q { mid.proc q with parent := some initproc }).proc r).state = .sleeping →
          ((mid.set q { mid.proc q with parent := some initproc }).proc r).chan ≠
            some (.proc initproc) := by
      intro visitedZombie r
      rw [set_proc]
      split
      next here =>
        subst here
        exact reparented.woken visitedZombie r
      · exact reparented.woken visitedZombie r
    unfold reparent
    rw [if_pos child]
    dsimp only
    split
    next zombie =>
      refine ⟨reparented.nextpid, fun r => (set r).trans (wakeSlot_woken _ _), ?_⟩
      intro _ r sleeping
      exact wakeSlot_awake _ _ sleeping
    next alive =>
      refine ⟨reparented.nextpid, set, ?_⟩
      rintro ⟨z, member, parent, zombie⟩
      rcases List.mem_append.mp member with early | last
      · exact zombies ⟨z, early, parent, zombie⟩
      · rw [List.mem_singleton.mp last] at zombie
        refine absurd ?_ alive
        rw [set_proc, if_pos rfl]
        exact ((slot q).zombie).mpr zombie
  · -- the slot is passed over
    have passed : q ∉ visited → (t.proc q).parent ≠ some p := by
      intro fresh wasChild
      apply child
      rw [(slot q).parent, if_neg (fun both => fresh both.1)]
      exact wasChild
    unfold reparent
    rw [if_neg child]
    refine ⟨reparented.nextpid, ?_, ?_⟩
    · intro r
      by_cases here : r = q
      · subst here
        by_cases early : r ∈ visited
        · simpa [early] using slot r
        · simpa [early, passed early] using slot r
      · simpa [here] using slot r
    · rintro ⟨z, member, parent, zombie⟩
      rcases List.mem_append.mp member with early | last
      · exact reparented.woken ⟨z, early, parent, zombie⟩
      · rw [List.mem_singleton.mp last] at parent zombie
        have early : q ∈ visited := by
          by_contra fresh
          exact passed fresh parent
        exact reparented.woken ⟨q, early, parent, zombie⟩

theorem Reparented.fold {mid : Ptable} {visited : List ProcId}
    (reparented : Reparented t mid p visited) (rest : List ProcId) :
    Reparented t (rest.foldl (reparent p) mid) p (visited ++ rest) := by
  induction rest generalizing mid visited with
  | nil => simpa using reparented
  | cons q rest ih =>
    have next := ih (reparented.turn q)
    rwa [List.append_assoc] at next

structure Exited (t after : Ptable) (p : ProcId) : Prop where
  nextpid : after.nextpid = t.nextpid
  self : after.proc p = { t.proc p with
    state := .zombie
    parent := if (t.proc p).parent = some p then some initproc else (t.proc p).parent }
  slot : ∀ q, q ≠ p → Woken { t.proc q with
    parent := if (t.proc q).parent = some p then some initproc else (t.proc q).parent }
      (after.proc q)
  /-- the parent is awake -/
  parent : ∀ q r, q ≠ p → (t.proc p).parent = some r → (after.proc q).state = .sleeping →
    (after.proc q).chan ≠ some (.proc r)
  /-- and so is `init`, if it gets a zombie -/
  init : (∃ z, (t.proc z).parent = some p ∧ (t.proc z).state = .zombie) →
    ∀ q, q ≠ p → (after.proc q).state = .sleeping → (after.proc q).chan ≠ some (.proc initproc)

theorem exitSection_exited (t : Ptable) (p : ProcId) : Exited t (t.exitSection p) p := by
  have first : ∀ q, Woken (t.proc q) ((wakeup1 ((t.proc p).parent.map .proc) t).proc q) :=
    fun q => wakeSlot_woken _ _
  have start : Reparented (wakeup1 ((t.proc p).parent.map .proc) t)
      (wakeup1 ((t.proc p).parent.map .proc) t) p [] :=
    ⟨rfl, fun q => .inl (by simp), by simp⟩
  have loop := start.fold (List.finRange NPROC)
  have slots : ∀ q, Woken { t.proc q with
      parent := if (t.proc q).parent = some p then some initproc else (t.proc q).parent }
      (((List.finRange NPROC).foldl (reparent p)
        (wakeup1 ((t.proc p).parent.map .proc) t)).proc q) := by
    intro q
    have visited := loop.slot q
    rw [(first q).parent] at visited
    simp only [List.nil_append, List.mem_finRange, true_and] at visited
    exact ((first q).setParent _).trans visited
  refine ⟨?_, ?_, ?_, ?_, ?_⟩
  · unfold exitSection setState
    simp only [set_nextpid]
    exact loop.nextpid
  · unfold exitSection setState
    simp only [set_proc, if_true]
    rcases slots p with same | ⟨-, woken⟩
    · rw [same]
    · rw [woken]
  · intro q other
    unfold exitSection setState
    simp only [set_proc, if_neg other]
    exact slots q
  · intro q r other parent
    unfold exitSection setState
    simp only [set_proc, if_neg other]
    intro sleeping same
    -- a process that still sleeps has not been touched since the first wakeup
    have untouched := (loop.slot q).sleeping sleeping
    rw [untouched] at sleeping same
    have awake := wakeSlot_awake _ _ sleeping
    have onParent : (t.proc p).parent.map Chan.proc = some (.proc r) := by rw [parent]; rfl
    exact awake (same.trans onParent.symm)
  · rintro ⟨z, parent, zombie⟩ q other
    unfold exitSection setState
    simp only [set_proc, if_neg other]
    refine loop.woken ⟨z, by simp, ?_, ?_⟩ q
    · rw [(first z).parent]
      exact parent
    · exact ((first z).zombie).mpr zombie

theorem scan_eq_zombie {slots : List ProcId} {havekids : Bool}
    (found : t.scan p slots havekids = .zombie q) :
    (t.proc q).parent = some p ∧ (t.proc q).state = .zombie := by
  induction slots generalizing havekids with
  | nil => cases found
  | cons slot rest ih =>
    unfold scan at found
    split at found
    · exact ih found
    next child =>
      split at found
      next zombie =>
        obtain rfl := Scan.zombie.inj found
        exact ⟨not_not.mp child, zombie⟩
      · exact ih found

theorem scan_eq_none {slots : List ProcId} {havekids kids : Bool}
    (found : t.scan p slots havekids = .none kids) :
    (∀ q ∈ slots, (t.proc q).parent = some p → (t.proc q).state ≠ .zombie) ∧
      (kids = false → havekids = false ∧ ∀ q ∈ slots, (t.proc q).parent ≠ some p) := by
  induction slots generalizing havekids with
  | nil =>
    obtain rfl := Scan.none.inj found
    simp
  | cons slot rest ih =>
    unfold scan at found
    split at found
    next other =>
      obtain ⟨noZombie, noKids⟩ := ih found
      refine ⟨?_, ?_⟩
      · intro q member parent
        rcases List.mem_cons.mp member with rfl | later
        · exact absurd parent other
        · exact noZombie q later parent
      · intro isFalse
        obtain ⟨before, later⟩ := noKids isFalse
        refine ⟨before, ?_⟩
        intro q member
        rcases List.mem_cons.mp member with rfl | later'
        · exact other
        · exact later q later'
    · split at found
      · cases found
      next alive =>
        obtain ⟨noZombie, noKids⟩ := ih found
        refine ⟨?_, fun isFalse => absurd (noKids isFalse).1 (by simp)⟩
        intro q member _
        rcases List.mem_cons.mp member with rfl | later
        · exact alive
        next parent =>
          exact noZombie q later parent

end Ptable

end Xv6
