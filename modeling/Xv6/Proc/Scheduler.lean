import Xv6.Lib.Mutex
import Xv6.Lib.Pool
import Xv6.Lib.Transition
import Xv6.Proc.Table

/-!
# CPUs, stacks and page directories

Any number of CPUs, each of which runs `scheduler` or, on the kernel stack of a
process, the code of that process.  A step is one statement of `scheduler` or
`sched`, one critical section under `ptable.lock`, or one statement outside of
one; the statements of different CPUs interleave.

`ptable.lock` is acquired on one stack and released on another.  `Fits` says what
a CPU has in `proc`, in its stack pointer and in `%cr3` at each place of the
code, and the state of its process there.  A CPU that does not hold the lock is
either in its scheduler, with nothing of any process, or runs a RUNNING process.
So a ZOMBIE, which somebody else frees only with the lock held, is on no CPU.
-/

open Function (update update_eq_self update_of_ne update_self)

namespace Xv6

open Ptable

namespace Scheduler

inductive Place where
  /-- in `scheduler`, before `acquire` -/
  | idle
  /-- an interrupt handler over `scheduler` that has acquired `ptable.lock` -/
  | handler
  /-- the same, before `release` -/
  | handled
  /-- in the loop of `scheduler`, at a slot -/
  | look (slot : Nat)
  /-- in `scheduler`, before `switchuvm` -/
  | chosen
  /-- in `scheduler`, before `p->state = RUNNING` -/
  | loaded
  /-- in `scheduler`, before `swtch` -/
  | marked
  /-- back in `sched`, or at the start of `forkret` -/
  | resumed
  /-- in the code of the process, without `ptable.lock` -/
  | user
  /-- in the code of the process, with `ptable.lock` -/
  | held
  /-- in the code of the process, before `release` -/
  | done
  /-- in `sched`, before `swtch` -/
  | leaving
  /-- in `scheduler`, before `switchkvm` -/
  | back
  /-- in `scheduler`, before `proc = 0` -/
  | unloaded
  deriving DecidableEq, Repr

def Place.holds : Place → Bool
  | .idle => false
  | .user => false
  | _ => true

def Place.runs : Place → Bool
  | .resumed => true
  | .user => true
  | .held => true
  | .done => true
  | _ => false

def Place.schedules : Place → Bool
  | .idle => true
  | .handler => true
  | .handled => true
  | .look _ => true
  | _ => false

theorem Place.schedules_of_runs {place : Place} (runs : place.runs = true) :
    place.schedules = false := by
  cases place <;> first | rfl | cases runs

inductive Stack where
  | scheduler
  | process (kstack : Option Nat)
  deriving DecidableEq, Repr

inductive PageDir where
  | kernel
  | process (pgdir : Option Nat)
  deriving DecidableEq, Repr

structure CpuState where
  place : Place
  proc : Option ProcId
  stack : Stack
  cr3 : PageDir

/-- Where a process is in its code, beyond `ptable.lock`. -/
inductive Control where
  | user
  /-- in `allocproc`, before `kalloc` -/
  | forkStack (np : ProcId)
  /-- in `fork`, before `copyuvm` -/
  | forkCopy (np : ProcId)
  /-- in `fork`, before its critical section -/
  | forkFinish (np : ProcId)
  /-- in the loop of `wait` -/
  | waiting
  /-- in `exec`, with the new page directory set, before `switchuvm` -/
  | execLoad (oldpgdir : Option Nat)
  /-- in `exec`, before `freevm(oldpgdir)` -/
  | execFree (oldpgdir : Option Nat)
  deriving DecidableEq, Repr

def Control.child : Control → Option ProcId
  | .forkStack np => some np
  | .forkCopy np => some np
  | .forkFinish np => some np
  | _ => none

/-- The page directory `exec` has replaced and not yet freed. -/
def Control.old : Control → Option Nat
  | .execLoad oldpgdir => oldpgdir
  | .execFree oldpgdir => oldpgdir
  | _ => none

structure System (Cpu : Type) where
  table : Ptable
  /-- the pages `kalloc` can return -/
  free : Nat → Bool
  control : ProcId → Control
  lock : Option Cpu
  cpu : Cpu → CpuState

inductive Action where
  | acquire
  | go
  /-- an interrupt handler over `scheduler` acquires `ptable.lock` -/
  | interrupt
  | yield
  | sleep (address : Nat)
  | wakeup (address : Nat)
  | exit
  | wait
  | kill (pid : UInt32)
  /-- the critical section of `allocproc`, called by `fork` -/
  | fork
  /-- `kalloc` in `allocproc` -/
  | forkStack (page : Option Nat)
  /-- `copyuvm` in `fork` and what follows it -/
  | forkCopy (pgdir : Option Nat)
  | forkFinish
  | exec (pgdir : Nat)
  deriving DecidableEq, Repr

/-- `kalloc` and `kfree` of a page, if there is one. -/
def setPage (free : Nat → Bool) (page : Option Nat) (isFree : Bool) : Nat → Bool :=
  match page with
  | some page => update free page isFree
  | none => free

namespace System

variable {Cpu : Type} [DecidableEq Cpu] (s : System Cpu)

def put (c : Cpu) (cpu : CpuState) : System Cpu := { s with cpu := update s.cpu c cpu }

def goto (c : Cpu) (place : Place) : System Cpu := s.put c { s.cpu c with place := place }

def setControl (p : ProcId) (control : Control) : System Cpu :=
  { s with control := update s.control p control }

def setFree (page : Option Nat) (free : Bool) : System Cpu :=
  { s with free := setPage s.free page free }

/-- Whether `kalloc` can give this answer. -/
def allocates : Option Nat → Bool
  | some page => s.free page
  | none => true

def reaped (p : ProcId) : Option ProcId :=
  match s.table.scan p (List.finRange NPROC) false with
  | .zombie q => some q
  | .none _ => none

/-- A turn of the outer loop of `wait` by process `p` on CPU `c`. -/
def wait (c : Cpu) (p : ProcId) : System Cpu :=
  match s.table.scan p (List.finRange NPROC) false with
  | .zombie q =>
    (((({ s with table := s.table.reap q }.setFree (s.table.proc q).kstack true).setFree
      (s.table.proc q).pgdir true).setControl p .user).goto c .done)
  | .none havekids =>
    if !havekids || (s.table.proc p).killed then (s.setControl p .user).goto c .done
    else ({ s with table := s.table.sleepOn p (.proc p) }.setControl p .waiting).goto c .leaving

def go (c : Cpu) : Option (System Cpu) :=
  match (s.cpu c).place, (s.cpu c).proc with
  | .handled, _ => some ({ s with lock := none }.goto c .idle)
  | .look slot, _ =>
    if inTable : slot < NPROC then
      if (s.table.proc ⟨slot, inTable⟩).state = .runnable then
        some (s.put c { s.cpu c with proc := some ⟨slot, inTable⟩, place := .chosen })
      else some (s.goto c (.look (slot + 1)))
    else some ({ s with lock := none }.goto c .idle)
  | .chosen, some p =>
    some (s.put c { s.cpu c with cr3 := .process (s.table.proc p).pgdir, place := .loaded })
  | .loaded, some p => some ({ s with table := s.table.setState p .running }.goto c .marked)
  | .marked, some p =>
    some (s.put c { s.cpu c with stack := .process (s.table.proc p).kstack, place := .resumed })
  | .resumed, some p =>
    -- the end of `sleep`; `wait` goes on with the lock, the others release it
    some ({ s with table := s.table.set p { s.table.proc p with chan := none } }.goto c
      (if s.control p = Control.waiting then .held else .done))
  | .user, some p =>
    match s.control p with
    | .execLoad oldpgdir =>
      some ((s.put c { s.cpu c with cr3 := .process (s.table.proc p).pgdir }).setControl p
        (.execFree oldpgdir))
    | .execFree oldpgdir => some ((s.setFree oldpgdir true).setControl p .user)
    | _ => none
  | .done, _ => some ({ s with lock := none }.goto c .user)
  | .leaving, _ => some (s.put c { s.cpu c with stack := .scheduler, place := .back })
  | .back, _ => some (s.put c { s.cpu c with cr3 := .kernel, place := .unloaded })
  | .unloaded, some p => some (s.put c { s.cpu c with proc := none, place := .look (p + 1) })
  | _, _ => none

/-- The critical sections of process `p` on CPU `c`, up to `release` or `swtch`. -/
def critical (c : Cpu) (p : ProcId) : Action → Option (System Cpu)
  | .yield =>
    if s.control p ≠ .waiting then
      some ({ s with table := s.table.setState p .runnable }.goto c .leaving)
    else none
  | .sleep address =>
    if s.control p ≠ .waiting then
      some ({ s with table := s.table.sleepOn p (.other address) }.goto c .leaving)
    else none
  | .wakeup address =>
    if s.control p ≠ .waiting then
      some ({ s with table := s.table.wakeup1 (some (.other address)) }.goto c .done)
    else none
  | .exit =>
    -- `init` panics
    if s.control p = .user ∧ p ≠ initproc then
      some ({ s with table := s.table.exitSection p }.goto c .leaving)
    else none
  | .wait => if s.control p = .user ∨ s.control p = .waiting then some (s.wait c p) else none
  | .kill pid =>
    if s.control p ≠ .waiting then
      match s.table.kill pid with
      | some table => some ({ s with table := table }.goto c .done)
      | none => some (s.goto c .done)
    else none
  | .fork =>
    if s.control p = .user then
      match s.table.allocSlot with
      | some (np, table) =>
        some (({ s with table := table }.setControl p (.forkStack np)).goto c .done)
      | none => some (s.goto c .done)
    else none
  | .forkFinish =>
    match s.control p with
    | .forkFinish np =>
      some (({ s with table := s.table.setState np .runnable }.setControl p .user).goto c .done)
    | _ => none
  | _ => none

/-- The steps of process `p` on CPU `c` without `ptable.lock`. -/
def unlocked (p : ProcId) : Action → Option (System Cpu)
  | .forkStack page =>
    match s.control p with
    | .forkStack np =>
      if s.allocates page then
        some (({ s with table := s.table.allocStack np page }.setFree page false).setControl p
          (if page.isSome then .forkCopy np else .user))
      else none
    | _ => none
  | .forkCopy (some pgdir) =>
    match s.control p with
    | .forkCopy np =>
      if s.free pgdir then
        some (({ s with table := s.table.copyProcess p np (some pgdir) }.setFree (some pgdir)
          false).setControl p (.forkFinish np))
      else none
    | _ => none
  | .forkCopy none =>
    match s.control p with
    | .forkCopy np =>
      some (({ s with table := s.table.copyProcess p np none }.setFree (s.table.proc np).kstack
        true).setControl p .user)
    | _ => none
  | .exec pgdir =>
    if s.control p = .user ∧ s.free pgdir then
      some (({ s with table := s.table.set p { s.table.proc p with pgdir := some pgdir } }.setFree
        (some pgdir) false).setControl p (.execLoad (s.table.proc p).pgdir))
    else none
  | _ => none

/-- The handler of an interrupt over `scheduler` wakes up processes. -/
def handle (c : Cpu) : Action → Option (System Cpu)
  | .wakeup address =>
    some ({ s with table := s.table.wakeup1 (some (.other address)) }.goto c .handled)
  | _ => none

def act (c : Cpu) (action : Action) : Option (System Cpu) :=
  match (s.cpu c).place, (s.cpu c).proc with
  | .handler, _ => s.handle c action
  | .held, some p => s.critical c p action
  | .user, some p => s.unlocked p action
  | _, _ => none

end System

section Step

variable {Cpu : Type} [DecidableEq Cpu]

def step (s : System Cpu) : Cpu × Action → Option (System Cpu)
  | (c, .acquire) =>
    match (s.cpu c).place with
    | .idle =>
      if s.lock = none then some ({ s with lock := some c }.goto c (.look 0)) else none
    | .user => if s.lock = none then some ({ s with lock := some c }.goto c .held) else none
    | _ => none
  | (c, .interrupt) =>
    if (s.cpu c).place = .idle ∧ s.lock = none then
      some ({ s with lock := some c }.goto c .handler)
    else none
  | (c, .go) => s.go c
  | (c, action) => s.act c action

/-- The state in which the CPUs enter `scheduler`, after `userinit`. -/
def initial (Cpu : Type) (free : Nat → Bool) (kstack pgdir : Nat) : System Cpu where
  table := userinit kstack pgdir
  free := update (update free kstack false) pgdir false
  control _ := .user
  lock := none
  cpu _ := ⟨.idle, none, .scheduler, .kernel⟩

abbrev Reachable (free : Nat → Bool) (kstack pgdir : Nat) : System Cpu → Prop :=
  Transition.Reachable step (fun _ _ => True) (initial Cpu free kstack pgdir)

end Step

/-! ## Kernel stacks and page directories -/

def Live (state : ProcState) : Prop := state ≠ .unused ∧ state ≠ .embryo

inductive Use where
  | kstack (q : ProcId)
  | pgdir (q : ProcId)
  /-- the page directory that `exec` is about to free -/
  | old (q : ProcId)

/-- The page directory of a slot is meaningful once `fork` has set it. -/
def Uses (table : Ptable) (control : ProcId → Control) : Use → Nat → Prop
  | .kstack q, page => (table.proc q).kstack = some page
  | .pgdir q, page => (table.proc q).pgdir = some page ∧
      (Live (table.proc q).state ∨ ∃ p, control p = .forkFinish q)
  | .old q, page => (control q).old = some page

/-- Every page has one use, and free pages have none. -/
structure Pages (table : Ptable) (free : Nat → Bool) (control : ProcId → Control) : Prop where
  pool : Pool (Uses table control) (fun page => free page = true)
  embryo : ∀ p np, (control p).child = some np → (table.proc np).state = .embryo
  unique : ∀ p q np, (control p).child = some np → (control q).child = some np → p = q
  rest : ∀ p, ¬Live (table.proc p).state ∨ (table.proc p).state = .zombie → control p = .user
  equipped : ∀ p, Live (table.proc p).state →
    (table.proc p).kstack ≠ none ∧ (table.proc p).pgdir ≠ none
  stacked : ∀ p np, control p = .forkCopy np ∨ control p = .forkFinish np →
    (table.proc np).kstack ≠ none
  copied : ∀ p np, control p = .forkFinish np → (table.proc np).pgdir ≠ none

section Pages

variable {table after : Ptable} {free : Nat → Bool} {control : ProcId → Control} {p np q : ProcId}

theorem Pages.mild (pages : Pages table free control)
    (kstack : ∀ q, (after.proc q).kstack = (table.proc q).kstack)
    (pgdir : ∀ q, (after.proc q).pgdir = (table.proc q).pgdir)
    (live : ∀ q, Live (after.proc q).state ↔ Live (table.proc q).state)
    (embryo : ∀ q, (table.proc q).state = .embryo → (after.proc q).state = .embryo)
    (zombie : ∀ q, (after.proc q).state = .zombie →
      (table.proc q).state = .zombie ∨ control q = .user) :
    Pages after free control where
  pool := by
    refine pages.pool.mono ?_ fun _ isFree => isFree
    intro use page
    cases use <;> simp [Uses, kstack, pgdir, live]
  embryo p np child := embryo np (pages.embryo p np child)
  unique := pages.unique
  rest p dead := by
    rcases dead with dead | dead
    · exact pages.rest p (.inl fun lives => dead ((live p).mpr lives))
    · exact (zombie p dead).elim (fun was => pages.rest p (.inr was)) id
  equipped p lives := by
    rw [kstack, pgdir]
    exact pages.equipped p ((live p).mp lives)
  stacked p np child := by
    rw [kstack]
    exact pages.stacked p np child
  copied p np child := by
    rw [pgdir]
    exact pages.copied p np child

theorem Pages.park {next : Control} (pages : Pages table free control)
    (running : (table.proc p).state = .running)
    (before : control p = .user ∨ control p = .waiting) (after : next = .user ∨ next = .waiting) :
    Pages table free (update control p next) := by
  have child : ∀ q, (update control p next q).child = (control q).child := by
    grind [Control.child]
  have old : ∀ q, (update control p next q).old = (control q).old := by
    grind [Control.old]
  have finish : ∀ q np, update control p next q = .forkFinish np ↔
      control q = .forkFinish np := by
    grind
  obtain ⟨pool, embryo, unique, rest, equipped, stacked, copied⟩ := pages
  refine ⟨pool.mono ?_ fun _ isFree => isFree, ?_, ?_, ?_, equipped, ?_, ?_⟩
  · intro use page
    cases use <;> simp [Uses, finish, old]
  · simpa only [child] using embryo
  · simpa only [child] using unique
  · grind [Live]
  · grind
  · simpa only [finish] using copied

theorem Pages.fork (pages : Pages table free control) (running : (table.proc p).state = .running)
    (alloc : table.allocSlot = some (np, after)) :
    Pages after free (update control p (.forkStack np)) := by
  obtain ⟨unused, rfl⟩ := allocSlot_eq_some alloc
  obtain ⟨pool, embryo, unique, rest, equipped, stacked, copied⟩ := pages
  refine ⟨pool.mono ?_ fun _ isFree => isFree, ?_, ?_, ?_, ?_, ?_, ?_⟩
  · intro use page
    cases use <;> simp only [Uses, set_proc] <;> grind [Live, Control.old]
  all_goals grind [Live, Control.child]

theorem Pages.of_child (pages : Pages table free control) (child : (control p).child = some np) :
    (table.proc np).state = .embryo ∧ ∀ q, (control q).child = some np → q = p :=
  ⟨pages.embryo p np child, fun q other => pages.unique q p np other child⟩

theorem Pages.stack {page : Nat} (pages : Pages table free control)
    (running : (table.proc p).state = .running)
    (forking : control p = .forkStack np) (isFree : free page = true) :
    Pages (table.allocStack np (some page)) (update free page false)
      (update control p (.forkCopy np)) := by
  obtain ⟨pool, embryo, unique, rest, equipped, stacked, copied⟩ := pages
  have born := embryo p np (by rw [forking]; rfl)
  refine ⟨pool.take (.kstack np) isFree ?_ ?_, ?_, ?_, ?_, ?_, ?_, ?_⟩
  · intro use page
    cases use <;> simp only [Uses, allocStack, set_proc] <;> grind [Live, Control.old]
  · grind
  all_goals grind [Live, Control.child, allocStack]

theorem Pages.stackFailed (pages : Pages table free control) (forking : control p = .forkStack np) :
    Pages (table.allocStack np none) free (update control p .user) := by
  obtain ⟨born, only⟩ := pages.of_child (by rw [forking]; rfl)
  obtain ⟨pool, embryo, unique, rest, equipped, stacked, copied⟩ := pages
  refine ⟨pool.mono ?_ fun _ isFree => isFree, ?_, ?_, ?_, ?_, ?_, ?_⟩
  · intro use page
    cases use <;> simp only [Uses, allocStack, set_proc] <;> grind [Live, Control.old]
  all_goals grind [Live, Control.child, allocStack]

theorem Pages.copy {pgdir : Nat} (pages : Pages table free control)
    (running : (table.proc p).state = .running)
    (forking : control p = .forkCopy np) (isFree : free pgdir = true) :
    Pages (table.copyProcess p np (some pgdir)) (update free pgdir false)
      (update control p (.forkFinish np)) := by
  obtain ⟨born, only⟩ := pages.of_child (by rw [forking]; rfl)
  obtain ⟨pool, embryo, unique, rest, equipped, stacked, copied⟩ := pages
  refine ⟨pool.take (.pgdir np) isFree ?_ ?_, ?_, ?_, ?_, ?_, ?_, ?_⟩
  · intro use page
    cases use <;> simp only [Uses, copyProcess, set_proc] <;> grind [Live, Control.old]
  · grind
  all_goals grind [Live, Control.child, copyProcess]

theorem Pages.copyFailed {kstack : Nat} (pages : Pages table free control)
    (forking : control p = .forkCopy np)
    (owned : (table.proc np).kstack = some kstack) :
    Pages (table.copyProcess p np none) (update free kstack true)
      (update control p .user) := by
  obtain ⟨born, only⟩ := pages.of_child (by rw [forking]; rfl)
  obtain ⟨pool, embryo, unique, rest, equipped, stacked, copied⟩ := pages
  have inUse : Uses table control (.kstack np) kstack := owned
  refine ⟨pool.give inUse ?_ ?_ ?_, ?_, ?_, ?_, ?_, ?_, ?_⟩
  · intro use page
    cases use <;> simp only [Uses, copyProcess, set_proc] <;> grind [Live, Control.old]
  · simp [Uses, copyProcess]
  · grind
  all_goals grind [Live, Control.child, copyProcess]

theorem Pages.finish (pages : Pages table free control) (forking : control p = .forkFinish np) :
    Pages (table.setState np .runnable) free (update control p .user) := by
  obtain ⟨born, only⟩ := pages.of_child (by rw [forking]; rfl)
  obtain ⟨pool, embryo, unique, rest, equipped, stacked, copied⟩ := pages
  refine ⟨pool.mono ?_ fun _ isFree => isFree, ?_, ?_, ?_, ?_, ?_, ?_⟩
  · intro use page
    cases use <;> simp only [Uses, setState, set_proc] <;> grind [Live, Control.old]
  all_goals grind [Live, Control.child, setState]

theorem Pages.reap {kstack pgdir : Nat} (pages : Pages table free control)
    (zombie : (table.proc q).state = .zombie) (stack : (table.proc q).kstack = some kstack)
    (directory : (table.proc q).pgdir = some pgdir) :
    Pages (table.reap q) (update (update free kstack true) pgdir true)
      control := by
  obtain ⟨pool, embryo, unique, rest, equipped, stacked, copied⟩ := pages
  have stackUse : Uses table control (.kstack q) kstack := stack
  have directoryUse : Uses table control (.pgdir q) pgdir :=
    ⟨directory, .inl (by simp [zombie, Live])⟩
  have half : Pool (fun use page => Uses table control use page ∧ use ≠ .kstack q)
      (fun page => update free kstack true page = true) :=
    pool.give stackUse (fun _ _ both => both.1) (fun both => both.2 rfl) (by grind)
  refine ⟨half.give ⟨directoryUse, nofun⟩ ?_ ?_ ?_, ?_, ?_, ?_, ?_, ?_, ?_⟩
  · intro use page
    cases use <;> simp only [Uses, Ptable.reap, set_proc] <;> grind [Live, Control.old]
  · simp only [Uses, Ptable.reap, set_proc]
    grind [Live, Control.child]
  · grind
  all_goals grind [Live, Control.child, Ptable.reap]

theorem Pages.exec {pgdir : Nat} (pages : Pages table free control)
    (running : (table.proc p).state = .running) (isFree : free pgdir = true) :
    Pages (table.set p { table.proc p with pgdir := some pgdir }) (update free pgdir false)
      (update control p (.execLoad (table.proc p).pgdir)) := by
  obtain ⟨pool, embryo, unique, rest, equipped, stacked, copied⟩ := pages
  refine ⟨(pool.pass (.pgdir p) (.old p)).take (.pgdir p) isFree ?_ ?_, ?_, ?_, ?_, ?_, ?_, ?_⟩
  · intro use page
    cases use <;> simp only [Uses, set_proc] <;> grind [Live, Control.old]
  · grind
  all_goals grind [Live, Control.child]

theorem Pages.execLoad {oldpgdir : Option Nat} (pages : Pages table free control)
    (loading : control p = .execLoad oldpgdir) :
    Pages table free (update control p (.execFree oldpgdir)) := by
  obtain ⟨pool, embryo, unique, rest, equipped, stacked, copied⟩ := pages
  refine ⟨pool.mono ?_ fun _ isFree => isFree, ?_, ?_, ?_, equipped, ?_, ?_⟩
  · intro use page
    cases use <;> simp only [Uses] <;> grind [Control.old]
  all_goals grind [Live, Control.child]

theorem Pages.execFree {oldpgdir : Option Nat} (pages : Pages table free control)
    (freeing : control p = .execFree oldpgdir) :
    Pages table (setPage free oldpgdir true) (update control p .user) := by
  obtain ⟨pool, embryo, unique, rest, equipped, stacked, copied⟩ := pages
  have fewer : ∀ use page, Uses table (update control p .user) use page →
      Uses table control use page := by
    intro use page
    cases use <;> simp only [Uses] <;> grind [Control.old]
  refine ⟨?_, ?_, ?_, ?_, equipped, ?_, ?_⟩
  · cases oldpgdir with
    | none => exact pool.mono fewer fun _ isFree => isFree
    | some oldpgdir =>
      have inUse : Uses table control (.old p) oldpgdir := by simp [Uses, freeing, Control.old]
      refine pool.give inUse fewer ?_ ?_
      · simp [Uses, Control.old]
      · simp only [setPage]
        grind
  all_goals grind [Live, Control.child]

end Pages

/-! ## CPUs -/

section Cpus

variable {Cpu : Type} [DecidableEq Cpu] {table after : Ptable} {control next : ProcId → Control}
  {cpu : CpuState} {place : Place} {cr3 : PageDir} {p q : ProcId}

/-- The page directory of a process is loaded, or `exec` is about to load it. -/
def Loads (table : Ptable) (control : ProcId → Control) (p : ProcId) (cr3 : PageDir) : Prop :=
  cr3 = .process (table.proc p).pgdir ∨ ∃ oldpgdir, control p = .execLoad oldpgdir ∧
    cr3 = .process oldpgdir

/-- A process has changed its state and is on its way to the scheduler. -/
def Left (state : ProcState) : Prop := state = .runnable ∨ state = .sleeping ∨ state = .zombie

/-- What a CPU holds at each place of the code. -/
inductive Fits (table : Ptable) (control : ProcId → Control) : CpuState → Prop where
  | schedules {place : Place} : place.schedules = true →
      Fits table control ⟨place, none, .scheduler, .kernel⟩
  | chosen {p : ProcId} : (table.proc p).state = .runnable →
      Fits table control ⟨.chosen, some p, .scheduler, .kernel⟩
  | loaded {p : ProcId} : (table.proc p).state = .runnable →
      Fits table control ⟨.loaded, some p, .scheduler, .process (table.proc p).pgdir⟩
  | marked {p : ProcId} : (table.proc p).state = .running →
      Fits table control ⟨.marked, some p, .scheduler, .process (table.proc p).pgdir⟩
  | runs {place : Place} {p : ProcId} {cr3 : PageDir} : place.runs = true →
      (table.proc p).state = .running → Loads table control p cr3 →
      Fits table control ⟨place, some p, .process (table.proc p).kstack, cr3⟩
  | leaving {p : ProcId} {cr3 : PageDir} : Left (table.proc p).state → Loads table control p cr3 →
      Fits table control ⟨.leaving, some p, .process (table.proc p).kstack, cr3⟩
  | back {p : ProcId} {cr3 : PageDir} : Left (table.proc p).state → Loads table control p cr3 →
      Fits table control ⟨.back, some p, .scheduler, cr3⟩
  | unloaded {p : ProcId} : Left (table.proc p).state →
      Fits table control ⟨.unloaded, some p, .scheduler, .kernel⟩

/-- A slot whose process keeps its state and its pages. -/
structure Same (table after : Ptable) (control next : ProcId → Control) (p : ProcId) : Prop where
  state : (after.proc p).state = (table.proc p).state
  kstack : (after.proc p).kstack = (table.proc p).kstack
  pgdir : (after.proc p).pgdir = (table.proc p).pgdir
  control : next p = control p

theorem Fits.frame (fits : Fits table control cpu)
    (same : ∀ p, cpu.proc = some p → Same table after control next p) : Fits after next cpu := by
  have loads : ∀ p cr3, cpu.proc = some p → Loads table control p cr3 → Loads after next p cr3 := by
    intro p cr3 current
    obtain ⟨-, -, pgdir, control⟩ := same p current
    rw [Loads, Loads, pgdir, control]
    exact id
  cases fits with
  | schedules place => exact .schedules place
  | chosen runnable => exact .chosen ((same _ rfl).state.trans runnable)
  | loaded runnable =>
    rw [← (same _ rfl).pgdir]
    exact .loaded ((same _ rfl).state.trans runnable)
  | marked running =>
    rw [← (same _ rfl).pgdir]
    exact .marked ((same _ rfl).state.trans running)
  | runs place running load =>
    rw [← (same _ rfl).kstack]
    exact .runs place ((same _ rfl).state.trans running) (loads _ _ rfl load)
  | leaving left load =>
    rw [← (same _ rfl).kstack]
    exact .leaving ((same _ rfl).state ▸ left) (loads _ _ rfl load)
  | back left load => exact .back ((same _ rfl).state ▸ left) (loads _ _ rfl load)
  | unloaded left => exact .unloaded ((same _ rfl).state ▸ left)

theorem Fits.current (fits : Fits table control cpu) (current : cpu.proc = some p) :
    Live (table.proc p).state ∧ (cpu.place.holds = false → (table.proc p).state = .running) := by
  cases fits <;> grind [Live, Left, Place.holds]

theorem Fits.stays_idle {next : Place} (fits : Fits table control cpu)
    (schedules : cpu.place.schedules = true) (still : next.schedules = true) :
    Fits table control { cpu with place := next } := by
  cases fits with
  | schedules => exact .schedules still
  | runs runs =>
    rw [Place.schedules_of_runs runs] at schedules
    cases schedules
  | _ => cases schedules

theorem Fits.stays_running {next : Place} (fits : Fits table control cpu)
    (runs : cpu.place.runs = true) (still : next.runs = true) :
    Fits table control { cpu with place := next } := by
  cases fits with
  | schedules schedules =>
    rw [Place.schedules_of_runs runs] at schedules
    cases schedules
  | runs _ running loads => exact .runs still running loads
  | _ => cases runs

theorem Fits.on_stack {kstack : Option Nat} (fits : Fits table control cpu)
    (on : cpu.stack = .process kstack) :
    ∃ p, cpu.proc = some p ∧ kstack = (table.proc p).kstack := by
  cases fits with
  | runs | leaving => exact ⟨_, rfl, (Stack.process.inj on).symm⟩
  | _ => cases on

theorem Fits.has_loaded {pgdir : Option Nat} (fits : Fits table control cpu)
    (loaded : cpu.cr3 = .process pgdir) :
    ∃ p, cpu.proc = some p ∧ (pgdir = (table.proc p).pgdir ∨ control p = .execLoad pgdir) := by
  have of_loads : ∀ p, Loads table control p (.process pgdir) →
      pgdir = (table.proc p).pgdir ∨ control p = .execLoad pgdir := by
    rintro p (same | ⟨oldpgdir, loading, same⟩)
    · exact .inl (PageDir.process.inj same)
    · obtain rfl := PageDir.process.inj same
      exact .inr loading
  cases fits with
  | loaded | marked => exact ⟨_, rfl, .inl (PageDir.process.inj loaded).symm⟩
  | runs _ _ loads => exact ⟨_, rfl, of_loads _ (loaded ▸ loads)⟩
  | leaving _ loads => exact ⟨_, rfl, of_loads _ (loaded ▸ loads)⟩
  | back _ loads => exact ⟨_, rfl, of_loads _ (loaded ▸ loads)⟩
  | _ => cases loaded

theorem Fits.running (fits : Fits table control cpu) (runs : cpu.place.runs = true)
    (current : cpu.proc = some p) : (table.proc p).state = .running := by
  cases fits with
  | runs _ running =>
    cases current
    exact running
  | schedules => cases current
  | _ => cases runs

structure Cpus (s : System Cpu) : Prop where
  mutex : Mutex s.lock (fun c => (s.cpu c).place) (fun place => place.holds = true)
  fits : ∀ c, Fits s.table s.control (s.cpu c)
  exclusive : ∀ c d p, (s.cpu c).proc = some p → (s.cpu d).proc = some p → c = d
  ran : ∀ p, (s.table.proc p).state = .running → ∃ c, (s.cpu c).proc = some p

variable {s after : System Cpu} {c : Cpu} {free : Nat → Bool}

theorem Cpus.move {lock : Option Cpu} {next : CpuState} (cpus : Cpus s)
    (mutex : Mutex lock (update (fun d => (s.cpu d).place) c next.place)
      (fun place => place.holds = true))
    (fits : Fits table control next)
    (others : ∀ p, (s.cpu c).proc ≠ some p → Live (s.table.proc p).state →
      ((s.cpu c).place.holds = true → (s.table.proc p).state = .running) →
      Same s.table table s.control control p)
    (current : ∀ p, next.proc = some p → (s.cpu c).proc = some p ∨ ∀ d, (s.cpu d).proc ≠ some p)
    (ran : ∀ p, (table.proc p).state = .running → next.proc = some p ∨
      (s.cpu c).proc ≠ some p ∧ (s.table.proc p).state = .running) :
    Cpus ⟨table, free, control, lock, update s.cpu c next⟩ := by
  refine ⟨?_, ?_, ?_, ?_⟩
  · intro d
    have owner := mutex d
    by_cases here : d = c
    · subst here
      simpa using owner
    · simpa [here] using owner
  · intro d
    by_cases here : d = c
    · subst here
      simpa using fits
    · dsimp only
      rw [update_of_ne here]
      refine (cpus.fits d).frame fun p isCurrent => others p ?_ ?_ ?_
      · exact fun alsoHere => here (cpus.exclusive d c p isCurrent alsoHere)
      · exact ((cpus.fits d).current isCurrent).1
      · intro holds
        refine ((cpus.fits d).current isCurrent).2 ?_
        by_contra alsoHolds
        exact here (cpus.mutex.exclusive (by simpa using alsoHolds) holds)
  · intro d e p
    dsimp only
    have := cpus.exclusive
    grind
  · intro p running
    dsimp only
    rcases ran p running with now | ⟨notHere, before⟩
    · exact ⟨c, by simpa using now⟩
    · obtain ⟨d, isCurrent⟩ := cpus.ran p before
      have other : d ≠ c := fun same => notHere (same ▸ isCurrent)
      exact ⟨d, by simpa [update_of_ne other] using isCurrent⟩

theorem Cpus.still {lock : Option Cpu} {next : CpuState} (cpus : Cpus s)
    (mutex : Mutex lock (update (fun d => (s.cpu d).place) c next.place)
      (fun place => place.holds = true))
    (fits : Fits s.table s.control next) (proc : next.proc = (s.cpu c).proc) :
    Cpus ⟨s.table, free, s.control, lock, update s.cpu c next⟩ := by
  refine cpus.move mutex fits (fun _ _ _ _ => ⟨rfl, rfl, rfl, rfl⟩) ?_ ?_
  · intro p current
    exact .inl (proc ▸ current)
  · intro p running
    by_cases here : (s.cpu c).proc = some p
    · exact .inl (proc ▸ here)
    · exact .inr ⟨here, running⟩

/-- A step of the process on a CPU.  With the lock held it may change what is not running, and
otherwise only what is not live. -/
theorem Cpus.section {next : CpuState} (cpus : Cpus s)
    (keeps : next.place.holds = (s.cpu c).place.holds) (proc : (s.cpu c).proc = some p)
    (same : next.proc = some p) (fits : Fits table control next)
    (others : ∀ q, q ≠ p → Live (s.table.proc q).state →
      ((s.cpu c).place.holds = true → (s.table.proc q).state = .running) →
      Same s.table table s.control control q)
    (ran : ∀ q, q ≠ p → (table.proc q).state = .running → (s.table.proc q).state = .running) :
    Cpus ⟨table, free, control, s.lock, update s.cpu c next⟩ := by
  refine cpus.move (cpus.mutex.keep (by rw [keeps])) fits ?_ ?_ ?_
  · exact fun q other => others q fun here => other (here ▸ proc)
  · exact fun q current => .inl (proc.trans (same.symm.trans current))
  · intro q running
    by_cases here : q = p
    · exact .inl (here ▸ same)
    · refine .inr ⟨?_, ran q here running⟩
      rw [proc]
      exact fun current => here (Option.some.inj current).symm

theorem Cpus.unlocked (cpus : Cpus s) (proc : (s.cpu c).proc = some p)
    (fits : Fits table control (s.cpu c))
    (others : ∀ q, q ≠ p → Live (s.table.proc q).state → Same s.table table s.control control q)
    (ran : ∀ q, q ≠ p → (table.proc q).state = .running → (s.table.proc q).state = .running)
    (free : Nat → Bool) : Cpus ⟨table, free, control, s.lock, s.cpu⟩ := by
  have moved : Cpus ⟨table, free, control, s.lock, update s.cpu c (s.cpu c)⟩ :=
    cpus.section rfl proc proc fits (fun q other live _ => others q other live) ran
  rwa [update_eq_self] at moved

structure Inv (s : System Cpu) : Prop where
  cpus : Cpus s
  pages : Pages s.table s.free s.control

theorem Inv.acquire (inv : Inv s) (free : s.lock = none) {next : Place}
    (holds : next.holds = true)
    (fits : Fits s.table s.control { s.cpu c with place := next }) :
    Inv ({ s with lock := some c }.goto c next) := by
  refine ⟨inv.cpus.still ?_ fits rfl, inv.pages⟩
  have mutex := inv.cpus.mutex
  rw [free] at mutex
  exact mutex.acquire holds

theorem Inv.release (inv : Inv s) (holds : (s.cpu c).place.holds = true) {next : Place}
    (leaves : next.holds = false) (fits : Fits s.table s.control { s.cpu c with place := next }) :
    Inv ({ s with lock := none }.goto c next) :=
  ⟨inv.cpus.still (inv.cpus.mutex.release holds (by simp [leaves])) fits rfl, inv.pages⟩

theorem Inv.scheduler (inv : Inv s) (holds : (s.cpu c).place.holds = true) {next : CpuState}
    (stays : next.place.holds = true) (fits : Fits s.table s.control next)
    (proc : next.proc = (s.cpu c).proc) : Inv (s.put c next) :=
  ⟨inv.cpus.still (inv.cpus.mutex.keep (by simp [holds, stays])) fits proc, inv.pages⟩

theorem Inv.choose (inv : Inv s) (shape : s.cpu c = ⟨.look p, none, .scheduler, .kernel⟩)
    (runnable : (s.table.proc p).state = .runnable) :
    Inv (s.put c ⟨.chosen, some p, .scheduler, .kernel⟩) := by
  have holds : (s.cpu c).place.holds = true := by rw [shape]; rfl
  refine ⟨inv.cpus.move (inv.cpus.mutex.keep (by simp [shape, Place.holds])) ?_ ?_ ?_ ?_, inv.pages⟩
  · exact .chosen runnable
  · exact fun _ _ _ _ => ⟨rfl, rfl, rfl, rfl⟩
  · rintro q ⟨⟩
    refine .inr fun d current => ?_
    by_cases here : d = c
    · rw [here, shape] at current
      cases current
    · have unlocked : (s.cpu d).place.holds = false := by
        by_contra alsoHolds
        exact here (inv.cpus.mutex.exclusive (by simpa using alsoHolds) holds)
      have running := ((inv.cpus.fits d).current current).2 unlocked
      rw [runnable] at running
      cases running
  · intro q running
    refine .inr ⟨?_, running⟩
    rw [shape]
    exact nofun

theorem Inv.clear (inv : Inv s) (shape : s.cpu c = ⟨.unloaded, some p, .scheduler, .kernel⟩)
    (left : Left (s.table.proc p).state) (slot : Nat) :
    Inv (s.put c ⟨.look slot, none, .scheduler, .kernel⟩) := by
  have holds : (s.cpu c).place.holds = true := by rw [shape]; rfl
  refine ⟨inv.cpus.move (inv.cpus.mutex.keep (by simp [shape, Place.holds])) ?_ ?_ ?_ ?_, inv.pages⟩
  · exact .schedules rfl
  · exact fun _ _ _ _ => ⟨rfl, rfl, rfl, rfl⟩
  · exact fun q current => nomatch current
  · intro q running
    refine .inr ⟨?_, running⟩
    rintro current
    rw [shape] at current
    cases current
    rcases left with state | state | state <;> rw [state] at running <;> cases running

theorem Loads.mono {after : Ptable} (loads : Loads table control p cr3)
    (pgdir : (after.proc p).pgdir = (table.proc p).pgdir) : Loads after control p cr3 := by
  rwa [Loads, pgdir]

theorem Pages.setSlot {process : Process} (pages : Pages table free control)
    (live : Live (table.proc p).state) (stays : Live process.state)
    (kstack : process.kstack = (table.proc p).kstack)
    (pgdir : process.pgdir = (table.proc p).pgdir) (alive : process.state ≠ .zombie) :
    Pages (table.set p process) free control := by
  refine pages.mild ?_ ?_ ?_ ?_ ?_ <;> intro q <;> rw [set_proc] <;> grind [Live]

theorem Inv.setSlot (inv : Inv s) (holds : (s.cpu c).place.holds = true)
    (proc : (s.cpu c).proc = some p) (process : Process)
    (fits : Fits (s.table.set p process) s.control { s.cpu c with place := place })
    (stays : place.holds = true) (kstack : process.kstack = (s.table.proc p).kstack)
    (pgdir : process.pgdir = (s.table.proc p).pgdir)
    (state : process.state = .runnable ∨ process.state = .running ∨ process.state = .sleeping) :
    Inv ({ s with table := s.table.set p process }.goto c place) := by
  have live := ((inv.cpus.fits c).current proc).1
  refine ⟨inv.cpus.section (stays.trans holds.symm) proc proc fits ?_ ?_,
    inv.pages.setSlot live ?_ kstack pgdir ?_⟩
  · intro q other _ _
    refine ⟨?_, ?_, ?_, rfl⟩ <;> rw [set_proc, if_neg other]
  · intro q other
    rw [set_proc, if_neg other]
    exact id
  · rcases state with state | state | state <;> simp [state, Live]
  · rcases state with state | state | state <;> simp [state]

section Set

variable {process : Process} (kstack : process.kstack = (table.proc p).kstack)
  (pgdir : process.pgdir = (table.proc p).pgdir)

include pgdir

theorem Fits.marked_set (running : process.state = .running) :
    Fits (table.set p process) control
      ⟨.marked, some p, .scheduler, .process (table.proc p).pgdir⟩ := by
  have slot : (table.set p process).proc p = process := by rw [set_proc, if_pos rfl]
  have same : (table.proc p).pgdir = ((table.set p process).proc p).pgdir := by rw [slot, pgdir]
  rw [same]
  exact .marked (by rw [slot, running])

include kstack

theorem Fits.runs_set (runs : place.runs = true) (running : process.state = .running)
    (loads : Loads table control p cr3) :
    Fits (table.set p process) control ⟨place, some p, .process (table.proc p).kstack, cr3⟩ := by
  have slot : (table.set p process).proc p = process := by rw [set_proc, if_pos rfl]
  have same : (table.proc p).kstack = ((table.set p process).proc p).kstack := by rw [slot, kstack]
  rw [same]
  exact .runs runs (by rw [slot, running]) (loads.mono (by rw [slot, pgdir]))

theorem Fits.leaving_set (left : Left process.state) (loads : Loads table control p cr3) :
    Fits (table.set p process) control ⟨.leaving, some p, .process (table.proc p).kstack, cr3⟩ := by
  have slot : (table.set p process).proc p = process := by rw [set_proc, if_pos rfl]
  have same : (table.proc p).kstack = ((table.set p process).proc p).kstack := by rw [slot, kstack]
  rw [same]
  exact .leaving (by rwa [slot]) (loads.mono (by rw [slot, pgdir]))

end Set

theorem Inv.go (inv : Inv s) (stepped : s.go c = some after) : Inv after := by
  have fits := inv.cpus.fits c
  generalize shape : s.cpu c = cpu at fits
  cases fits with
  | @schedules place schedules =>
    cases place <;> simp only [System.go, shape] at stepped <;> try cases schedules
    · cases stepped
    · cases stepped
    · cases stepped
      exact inv.release (by rw [shape]; rfl) rfl (by rw [shape]; exact .schedules rfl)
    · split at stepped
      · split at stepped
        · cases stepped
          rename_i runnable
          exact inv.choose shape runnable
        · cases stepped
          exact inv.scheduler (by rw [shape]; rfl) rfl (by rw [shape]; exact .schedules rfl) rfl
      · cases stepped
        exact inv.release (by rw [shape]; rfl) rfl (by rw [shape]; exact .schedules rfl)
  | chosen runnable =>
    simp only [System.go, shape] at stepped
    cases stepped
    exact inv.scheduler (by rw [shape]; rfl) rfl (.loaded runnable) (by rw [shape])
  | @loaded p runnable =>
    simp only [System.go, shape] at stepped
    cases stepped
    refine inv.setSlot (by rw [shape]; rfl) (by rw [shape]) _ ?_ rfl rfl rfl (.inr (.inl rfl))
    rw [shape]
    exact .marked_set rfl rfl
  | marked running =>
    simp only [System.go, shape] at stepped
    cases stepped
    exact inv.scheduler (by rw [shape]; rfl) rfl (.runs rfl running (.inl rfl)) (by rw [shape])
  | @runs place p cr3 runs running loads =>
    cases place <;> simp only [System.go, shape] at stepped <;> try cases runs
    · cases stepped
      refine inv.setSlot (by rw [shape]; rfl) (by rw [shape]) _ ?_ (by split <;> rfl) rfl rfl
        (.inr (.inl running))
      rw [shape]
      exact .runs_set rfl rfl (by split <;> rfl) running loads
    · have proc : (s.cpu c).proc = some p := by rw [shape]
      have others : ∀ next q, q ≠ p →
          Same s.table s.table s.control (update s.control p next) q :=
        fun next q other => ⟨rfl, rfl, rfl, update_of_ne other _ _⟩
      split at stepped
      next loading =>
        cases stepped
        exact ⟨inv.cpus.section (by rw [shape]) proc rfl (.runs rfl running (.inl rfl))
          (fun q other _ _ => others _ q other) (fun _ _ => id), inv.pages.execLoad loading⟩
      next freeing =>
        cases stepped
        refine ⟨inv.cpus.unlocked proc ?_ (fun q other _ => others _ q other) (fun _ _ => id) _,
          inv.pages.execFree freeing⟩
        rw [shape]
        refine .runs rfl running (loads.elim .inl ?_)
        rintro ⟨oldpgdir, loading, -⟩
        rw [freeing] at loading
        cases loading
      · cases stepped
    · cases stepped
    · cases stepped
      exact inv.release (by rw [shape]; rfl) rfl (by rw [shape]; exact .runs rfl running loads)
  | leaving left loads =>
    simp only [System.go, shape] at stepped
    cases stepped
    exact inv.scheduler (by rw [shape]; rfl) rfl (.back left loads) (by rw [shape])
  | back left loads =>
    simp only [System.go, shape] at stepped
    cases stepped
    exact inv.scheduler (by rw [shape]; rfl) rfl (.unloaded left) (by rw [shape])
  | unloaded left =>
    simp only [System.go, shape] at stepped
    cases stepped
    exact inv.clear shape left _

/-- A change of the table that at most wakes up sleeping processes. -/
structure Wakes (table after : Ptable) (q : ProcId) : Prop where
  kstack : (after.proc q).kstack = (table.proc q).kstack
  pgdir : (after.proc q).pgdir = (table.proc q).pgdir
  state : (after.proc q).state = (table.proc q).state ∨
    (table.proc q).state = .sleeping ∧ (after.proc q).state = .runnable

theorem wakeup1_wakes (chan : Option Chan) (table : Ptable) (q : ProcId) :
    Wakes table (wakeup1 chan table) q := by
  have woken : Woken (table.proc q) ((wakeup1 chan table).proc q) := wakeSlot_woken _ _
  rcases woken with same | ⟨sleeping, same⟩
  · exact ⟨by rw [same], by rw [same], .inl (by rw [same])⟩
  · exact ⟨by rw [same], by rw [same], .inr ⟨sleeping, by rw [same]⟩⟩

theorem kill_wakes {after : Ptable} {pid : UInt32} (killed : table.kill pid = some after)
    (q : ProcId) : Wakes table after q := by
  obtain ⟨found, -, rfl⟩ := kill_eq_some killed
  refine ⟨?_, ?_, ?_⟩ <;> rw [set_proc] <;> grind

theorem exited_wakes {after : Ptable} (exited : Exited table after p)
    (other : q ≠ p) : Wakes table after q := by
  rcases exited.slot q other with same | ⟨sleeping, same⟩
  · exact ⟨by rw [same], by rw [same], .inl (by rw [same])⟩
  · exact ⟨by rw [same], by rw [same], .inr ⟨sleeping, by rw [same]⟩⟩

theorem Wakes.same {after : Ptable} (wakes : Wakes table after q)
    (running : (table.proc q).state = .running) : Same table after control control q := by
  refine ⟨?_, wakes.kstack, wakes.pgdir, rfl⟩
  rcases wakes.state with same | ⟨sleeping, -⟩
  · exact same
  · rw [running] at sleeping
    cases sleeping

theorem Wakes.ran {after : Ptable} (wakes : Wakes table after q)
    (running : (after.proc q).state = .running) : (table.proc q).state = .running := by
  rcases wakes.state with same | ⟨-, woken⟩
  · rw [← same, running]
  · rw [running] at woken
    cases woken

theorem Pages.wakes {after : Ptable} (pages : Pages table free control)
    (wakes : ∀ q, Wakes table after q) : Pages after free control := by
  refine pages.mild (fun q => (wakes q).kstack) (fun q => (wakes q).pgdir) ?_ ?_ ?_ <;> intro q <;>
    rcases (wakes q).state with same | ⟨sleeping, woken⟩ <;> simp_all [Live]

theorem Pages.exit {after : Ptable} (pages : Pages table free control)
    (running : (table.proc p).state = .running) (user : control p = .user)
    (exited : Exited table after p) : Pages after free control := by
  obtain ⟨-, self, -, -, -⟩ := id exited
  have wakes : ∀ q, q ≠ p → Wakes table after q := fun _ => exited_wakes exited
  have kstack := fun q other => (wakes q other).kstack
  have pgdir := fun q other => (wakes q other).pgdir
  have state := fun q other => (wakes q other).state
  refine pages.mild ?_ ?_ ?_ ?_ ?_ <;> intro q <;> by_cases here : q = p <;> grind [Live]

theorem Inv.wakes (inv : Inv s)
    (holds : (s.cpu c).place.holds = true) (wakes : ∀ q, Wakes s.table table q)
    (stays : place.holds = true) (fits : Fits table s.control { s.cpu c with place := place }) :
    Inv ({ s with table := table }.goto c place) := by
  refine ⟨inv.cpus.move (inv.cpus.mutex.keep (by simp [holds, stays])) fits ?_ ?_ ?_,
    inv.pages.wakes wakes⟩
  · exact fun q _ _ running => (wakes q).same (running holds)
  · exact fun q current => .inl current
  · intro q running
    by_cases here : (s.cpu c).proc = some q
    · exact .inl here
    · exact .inr ⟨here, (wakes q).ran running⟩

theorem Fits.runs_same {after : Ptable} (runs : place.runs = true)
    (running : (table.proc p).state = .running) (loads : Loads table control p cr3)
    (same : Same table after control next p) :
    Fits after next ⟨place, some p, .process (table.proc p).kstack, cr3⟩ :=
  (Fits.runs runs running loads : Fits table control _).frame
    (by rintro q ⟨⟩; exact same)

omit [DecidableEq Cpu] in
theorem forks_frame {next : Control} {np : ProcId} (running : (s.table.proc p).state = .running)
    (loads : Loads s.table s.control p cr3) (dead : ¬Live (s.table.proc np).state)
    (born : (table.proc np).state ≠ .running)
    (slot : ∀ q, q ≠ np → table.proc q = s.table.proc q)
    (idle : ∀ old, s.control p ≠ .execLoad old) :
    (place.runs = true → Fits table (update s.control p next)
      ⟨place, some p, .process (s.table.proc p).kstack, cr3⟩) ∧
    (∀ q, q ≠ p → Live (s.table.proc q).state →
      Same s.table table s.control (update s.control p next) q) ∧
    ∀ q, q ≠ p → (table.proc q).state = .running → (s.table.proc q).state = .running := by
  have loaded : cr3 = .process (s.table.proc p).pgdir := by
    refine loads.resolve_right ?_
    rintro ⟨oldpgdir, loading, -⟩
    exact idle oldpgdir loading
  have other : ∀ q, Live (s.table.proc q).state → q ≠ np := by
    rintro q live rfl
    exact dead live
  have self := slot p (other p (by simp [running, Live]))
  refine ⟨fun runs => ?_, fun q elsewhere live => ?_, fun q _ isRunning => ?_⟩
  · rw [← congrArg Process.kstack self]
    exact .runs runs (by rw [self, running]) (.inl (by rw [self, loaded]))
  · have still := slot q (other q live)
    exact ⟨congrArg _ still, congrArg _ still, congrArg _ still,
      update_of_ne elsewhere _ _⟩
  · by_cases here : q = np
    · rw [here] at isRunning
      exact absurd isRunning born
    · exact (congrArg Process.state (slot q here)).symm.trans isRunning

section Critical

variable (shape : s.cpu c = ⟨.held, some p, .process (s.table.proc p).kstack, cr3⟩)
  (running : (s.table.proc p).state = .running) (loads : Loads s.table s.control p cr3)

include shape

/-- What a critical section does to the table decides where it leads. -/
theorem Inv.critical_section {table : Ptable} {free : Nat → Bool} {control : ProcId → Control}
    {place : Place} (inv : Inv s) (stays : place.holds = true)
    (fits : Fits table control ⟨place, some p, .process (s.table.proc p).kstack, cr3⟩)
    (others : ∀ q, q ≠ p → (s.table.proc q).state = .running →
      Same s.table table s.control control q)
    (ran : ∀ q, q ≠ p → (table.proc q).state = .running → (s.table.proc q).state = .running)
    (pages : Pages table free control) :
    Inv ⟨table, free, control, s.lock,
      update s.cpu c { s.cpu c with place := place }⟩ := by
  have holds : (s.cpu c).place.holds = true := by rw [shape]; rfl
  have proc : (s.cpu c).proc = some p := by rw [shape]
  refine ⟨inv.cpus.section (stays.trans holds.symm) proc proc ?_
    (fun q other _ running => others q other (running holds)) ran, pages⟩
  rw [shape]
  exact fits

include running loads

theorem Inv.exit (inv : Inv s) (user : s.control p = .user) :
    Inv ({ s with table := s.table.exitSection p }.goto c .leaving) := by
  have exited := exitSection_exited s.table p
  have self := exited.self
  refine inv.critical_section shape rfl ?_ ?_ ?_ (inv.pages.exit running user exited)
  · have same : (s.table.proc p).kstack = ((s.table.exitSection p).proc p).kstack := by rw [self]
    rw [same]
    exact .leaving (.inr (.inr (by rw [self]))) (loads.mono (by rw [self]))
  · exact fun q other wasRunning => (exited_wakes exited other).same wasRunning
  · exact fun q other => (exited_wakes exited other).ran

theorem Inv.wait (inv : Inv s) (waits : s.control p = .user ∨ s.control p = .waiting) :
    Inv (s.wait c p) := by
  have control : ∀ next q, q ≠ p → update s.control p next q = s.control q :=
    fun next q other => update_of_ne other _ _
  have loaded : cr3 = .process (s.table.proc p).pgdir := by
    refine loads.resolve_right ?_
    rintro ⟨oldpgdir, loading, -⟩
    rcases waits with same | same <;> rw [loading] at same <;> cases same
  unfold System.wait
  split
  next q found =>
    obtain ⟨-, zombie⟩ := scan_eq_zombie found
    have other : p ≠ q := by
      rintro rfl
      rw [running] at zombie
      cases zombie
    have slot : ∀ r, r ≠ q → (s.table.reap q).proc r = s.table.proc r := by
      intro r elsewhere
      rw [Ptable.reap, set_proc, if_neg elsewhere]
    obtain ⟨stack, directory⟩ := inv.pages.equipped q (by simp [zombie, Live])
    obtain ⟨kstack, isStack⟩ := Option.ne_none_iff_exists'.mp stack
    obtain ⟨pgdir, isDirectory⟩ := Option.ne_none_iff_exists'.mp directory
    rw [isStack, isDirectory]
    have fits : Fits (s.table.reap q) (update s.control p .user)
        ⟨.done, some p, .process (s.table.proc p).kstack, cr3⟩ := by
      rw [← congrArg Process.kstack (slot p other)]
      refine .runs rfl (by rw [slot p other, running]) (.inl ?_)
      rw [slot p other, loaded]
    have others : ∀ r, r ≠ p → (s.table.proc r).state = .running →
        Same s.table (s.table.reap q) s.control (update s.control p .user) r := by
      intro r elsewhere wasRunning
      have still : r ≠ q := by
        rintro rfl
        rw [wasRunning] at zombie
        cases zombie
      refine ⟨?_, ?_, ?_, control _ r elsewhere⟩ <;> rw [slot r still]
    have ran : ∀ r, r ≠ p → ((s.table.reap q).proc r).state = .running →
        (s.table.proc r).state = .running := by
      intro r _ isRunning
      by_cases here : r = q
      · rw [here, Ptable.reap, set_proc, if_pos rfl] at isRunning
        cases isRunning
      · rwa [slot r here] at isRunning
    exact inv.critical_section shape rfl fits others ran
      ((inv.pages.reap zombie isStack isDirectory).park (by rw [slot p other, running]) waits
        (.inl rfl))
  · split
    · exact inv.critical_section shape rfl (.runs rfl running (.inl loaded))
        (fun q other _ => ⟨rfl, rfl, rfl, control _ q other⟩) (fun _ _ => id)
        (inv.pages.park running waits (.inl rfl))
    · have others : ∀ q, q ≠ p → (s.table.proc q).state = .running →
          Same s.table (s.table.sleepOn p (.proc p)) s.control
            (update s.control p .waiting) q := by
        intro q other _
        refine ⟨?_, ?_, ?_, control _ q other⟩ <;> rw [sleepOn, set_proc, if_neg other]
      have ran : ∀ q, q ≠ p → ((s.table.sleepOn p (.proc p)).proc q).state = .running →
          (s.table.proc q).state = .running := by
        intro q other
        rw [sleepOn, set_proc, if_neg other]
        exact id
      exact inv.critical_section shape rfl
        (.leaving_set rfl rfl (.inr (.inl rfl)) (.inl loaded)) others ran
        ((inv.pages.park running waits (.inr rfl)).setSlot (by simp [running, Live])
          ⟨nofun, nofun⟩ rfl rfl nofun)

theorem Inv.forks {next : Control} (inv : Inv s) (np : ProcId)
    (dead : ¬Live (s.table.proc np).state) (born : (table.proc np).state ≠ .running)
    (slot : ∀ q, q ≠ np → table.proc q = s.table.proc q) (idle : ∀ old, s.control p ≠ .execLoad old)
    (pages : Pages table s.free (update s.control p next)) :
    Inv (({ s with table := table }.setControl p next).goto c .done) := by
  obtain ⟨fits, others, ran⟩ := forks_frame running loads dead born slot idle
  exact inv.critical_section shape rfl (fits rfl)
    (fun q elsewhere isRunning => others q elsewhere (by simp [isRunning, Live])) ran pages

theorem Inv.critical {action : Action} (inv : Inv s)
    (stepped : s.critical c p action = some after) : Inv after := by
  have holds : (s.cpu c).place.holds = true := by rw [shape]; rfl
  have proc : (s.cpu c).proc = some p := by rw [shape]
  have stays : Fits s.table s.control { s.cpu c with place := .done } := by
    rw [shape]
    exact .runs rfl running loads
  cases action with
  | yield =>
    obtain ⟨-, rfl⟩ := Transition.of_guard stepped
    refine inv.setSlot holds proc _ ?_ rfl rfl rfl (.inl rfl)
    rw [shape]
    exact .leaving_set rfl rfl (.inl rfl) loads
  | sleep address =>
    obtain ⟨-, rfl⟩ := Transition.of_guard stepped
    refine inv.setSlot holds proc _ ?_ rfl rfl rfl (.inr (.inr rfl))
    rw [shape]
    exact .leaving_set rfl rfl (.inr (.inl rfl)) loads
  | wakeup address =>
    obtain ⟨-, rfl⟩ := Transition.of_guard stepped
    refine inv.wakes holds (wakeup1_wakes _ _) rfl ?_
    rw [shape]
    exact .runs_same rfl running loads ((wakeup1_wakes _ _ p).same running)
  | exit =>
    obtain ⟨guard, rfl⟩ := Transition.of_guard stepped
    exact inv.exit shape running loads guard.1
  | wait =>
    obtain ⟨waits, rfl⟩ := Transition.of_guard stepped
    exact inv.wait shape running loads waits
  | kill pid =>
    obtain ⟨-, stepped⟩ := Option.ite_none_right_eq_some.mp stepped
    split at stepped
    next table killed =>
      cases stepped
      refine inv.wakes holds (kill_wakes killed) rfl ?_
      rw [shape]
      exact .runs_same rfl running loads ((kill_wakes killed p).same running)
    · cases stepped
      exact inv.scheduler holds rfl stays rfl
  | fork =>
    obtain ⟨user, stepped⟩ := Option.ite_none_right_eq_some.mp stepped
    split at stepped
    next np table alloc =>
      cases stepped
      obtain ⟨unused, rfl⟩ := allocSlot_eq_some alloc
      refine inv.forks shape running loads np ?_ ?_ ?_ ?_ (inv.pages.fork running alloc)
      · simp [unused, Live]
      · simp
      · intro q other
        simp [other]
      · simp [user]
    · cases stepped
      exact inv.scheduler holds rfl stays rfl
  | forkFinish =>
    delta System.critical at stepped
    dsimp only at stepped
    split at stepped
    next np forking =>
      cases stepped
      have embryo := inv.pages.embryo p np (by rw [forking]; rfl)
      refine inv.forks shape running loads np ?_ ?_ ?_ ?_ (inv.pages.finish forking)
      · simp [embryo, Live]
      · simp [setState]
      · intro q other
        simp [setState, other]
      · simp [forking]
    · cases stepped
  | _ => cases stepped

end Critical

section Unlocked

variable (shape : s.cpu c = ⟨.user, some p, .process (s.table.proc p).kstack, cr3⟩)
  (running : (s.table.proc p).state = .running) (loads : Loads s.table s.control p cr3)

include shape running loads

theorem Inv.forksUnlocked {page : Option Nat} {isFree : Bool} {next : Control}
    (inv : Inv s) (np : ProcId) (dead : ¬Live (s.table.proc np).state)
    (born : (table.proc np).state ≠ .running)
    (slot : ∀ q, q ≠ np → table.proc q = s.table.proc q) (idle : ∀ old, s.control p ≠ .execLoad old)
    (pages : Pages table (setPage s.free page isFree) (update s.control p next)) :
    Inv (({ s with table := table }.setFree page isFree).setControl p next) := by
  obtain ⟨fits, others, ran⟩ := forks_frame running loads dead born slot idle
  exact ⟨inv.cpus.unlocked (by rw [shape]) (by rw [shape]; exact fits rfl) others ran _, pages⟩

theorem Inv.exec {pgdir : Nat} (inv : Inv s) (user : s.control p = .user)
    (isFree : s.free pgdir = true) :
    Inv (({ s with table := s.table.set p { s.table.proc p with pgdir := some pgdir } }.setFree
      (some pgdir) false).setControl p (.execLoad (s.table.proc p).pgdir)) := by
  have loaded : cr3 = .process (s.table.proc p).pgdir := by
    refine loads.resolve_right ?_
    rintro ⟨oldpgdir, loading, -⟩
    rw [user] at loading
    cases loading
  have others : ∀ q, q ≠ p → Live (s.table.proc q).state → Same s.table
      (s.table.set p { s.table.proc p with pgdir := some pgdir }) s.control
      (update s.control p (.execLoad (s.table.proc p).pgdir)) q := by
    intro q other _
    refine ⟨?_, ?_, ?_, update_of_ne other _ _⟩ <;> rw [set_proc, if_neg other]
  refine ⟨inv.cpus.unlocked (by rw [shape]) ?_ others ?_ _, inv.pages.exec running isFree⟩
  · have slot : (s.table.set p { s.table.proc p with pgdir := some pgdir }).proc p =
        { s.table.proc p with pgdir := some pgdir } := by rw [set_proc, if_pos rfl]
    have same : (s.table.proc p).kstack =
        ((s.table.set p { s.table.proc p with pgdir := some pgdir }).proc p).kstack := by rw [slot]
    rw [shape, same]
    exact .runs rfl (by rw [slot, running]) (.inr ⟨_, update_self _ _ _, loaded⟩)
  · intro q other
    rw [set_proc, if_neg other]
    exact id

theorem Inv.unlocked {action : Action} (inv : Inv s)
    (stepped : s.unlocked p action = some after) : Inv after := by
  cases action with
  | forkStack page =>
    simp only [System.unlocked] at stepped
    split at stepped
    next np forking =>
      have embryo := inv.pages.embryo p np (by rw [forking]; rfl)
      obtain ⟨allocates, rfl⟩ := Transition.of_guard stepped
      refine inv.forksUnlocked shape running loads np (by simp [embryo, Live]) ?_ ?_
        (by simp [forking]) ?_
      · cases page <;> simp [allocStack, embryo]
      · intro q other
        cases page <;> simp [allocStack, other]
      · cases page with
        | none => exact inv.pages.stackFailed forking
        | some page => exact inv.pages.stack running forking allocates
    · cases stepped
  | forkCopy pgdir =>
    cases pgdir with
    | none =>
      simp only [System.unlocked] at stepped
      split at stepped
      next np forking =>
        have embryo := inv.pages.embryo p np (by rw [forking]; rfl)
        obtain ⟨kstack, owned⟩ :=
          Option.ne_none_iff_exists'.mp (inv.pages.stacked p np (.inl forking))
        cases stepped
        rw [owned]
        refine inv.forksUnlocked shape running loads np (by simp [embryo, Live]) ?_ ?_
          (by simp [forking]) (inv.pages.copyFailed forking owned)
        · simp [copyProcess]
        · intro q other
          simp [copyProcess, other]
      · cases stepped
    | some pgdir =>
      simp only [System.unlocked] at stepped
      split at stepped
      next np forking =>
        have embryo := inv.pages.embryo p np (by rw [forking]; rfl)
        obtain ⟨isFree, rfl⟩ := Transition.of_guard stepped
        refine inv.forksUnlocked shape running loads np (by simp [embryo, Live]) ?_ ?_
          (by simp [forking]) (inv.pages.copy running forking isFree)
        · simp [copyProcess, embryo]
        · intro q other
          simp [copyProcess, other]
      · cases stepped
  | exec pgdir =>
    obtain ⟨guard, rfl⟩ := Transition.of_guard stepped
    exact inv.exec shape running loads guard.1 guard.2
  | _ => cases stepped

end Unlocked

theorem Inv.act {action : Action} (inv : Inv s) (stepped : s.act c action = some after) :
    Inv after := by
  have fits := inv.cpus.fits c
  generalize shape : s.cpu c = cpu at fits
  cases fits with
  | @schedules place schedules =>
    cases place <;> simp only [System.act, shape] at stepped <;> try cases schedules
    · cases stepped
    · cases action with
      | wakeup address =>
        cases stepped
        refine inv.wakes (by rw [shape]; rfl) (wakeup1_wakes _ _) rfl ?_
        rw [shape]
        exact .schedules rfl
      | _ => cases stepped
    · cases stepped
    · cases stepped
  | @runs place p cr3 runs running loads =>
    cases place <;> simp only [System.act, shape] at stepped <;> try cases runs
    · cases stepped
    · exact inv.unlocked shape running loads stepped
    · exact inv.critical shape running loads stepped
    · cases stepped
  | _ =>
    simp only [System.act, shape] at stepped
    cases stepped

theorem Inv.lock (inv : Inv s) (stepped : step s (c, .acquire) = some after) : Inv after := by
  simp only [step] at stepped
  split at stepped
  next idle =>
    obtain ⟨free, rfl⟩ := Transition.of_guard stepped
    exact inv.acquire free rfl ((inv.cpus.fits c).stays_idle (by rw [idle]; rfl) rfl)
  next user =>
    obtain ⟨free, rfl⟩ := Transition.of_guard stepped
    exact inv.acquire free rfl ((inv.cpus.fits c).stays_running (by rw [user]; rfl) rfl)
  · cases stepped

theorem Inv.interrupt (inv : Inv s) (stepped : step s (c, .interrupt) = some after) :
    Inv after := by
  obtain ⟨guard, rfl⟩ := Transition.of_guard stepped
  exact inv.acquire guard.2 rfl ((inv.cpus.fits c).stays_idle (by rw [guard.1]; rfl) rfl)

theorem Inv.step {action : Cpu × Action} (inv : Inv s) (stepped : step s action = some after) :
    Inv after := by
  obtain ⟨c, action⟩ := action
  cases action with
  | acquire => exact inv.lock stepped
  | interrupt => exact inv.interrupt stepped
  | go => exact inv.go stepped
  | _ => exact inv.act stepped

omit [DecidableEq Cpu] in
theorem initial_inv (free : Nat → Bool) {kstack pgdir : Nat} (distinct : kstack ≠ pgdir) :
    Inv (initial Cpu free kstack pgdir) := by
  refine ⟨⟨?_, ?_, ?_, ?_⟩, ⟨⟨?_, ?_⟩, ?_, ?_, ?_, ?_, ?_, ?_⟩⟩
  · intro c
    simp [initial, Place.holds]
  · exact fun c => .schedules rfl
  · exact fun c d p current => nomatch current
  · intro p
    simp only [initial, userinit]
    split <;> exact nofun
  · intro use page
    cases use <;> simp only [Uses, initial, userinit] <;> grind [Live, Control.old]
  · intro use use' page
    cases use <;> cases use' <;> simp only [Uses, initial, userinit] <;> grind [Live, Control.old]
  · exact fun p np child => nomatch child
  · exact fun p q np child => nomatch child
  · exact fun p _ => rfl
  · intro p
    simp only [initial, userinit]
    split
    · simp
    · simp [Live]
  · exact fun p np child => nomatch child
  · exact fun p np child => nomatch child

theorem Reachable.inv {free : Nat → Bool} {kstack pgdir : Nat} (distinct : kstack ≠ pgdir)
    (reachable : Reachable free kstack pgdir s) : Inv s :=
  Transition.Reachable.invariant Inv (initial_inv free distinct)
    (fun _ _ _ inv _ stepped => inv.step stepped) reachable

omit [DecidableEq Cpu] in
theorem Cpus.running_of_current (cpus : Cpus s) (held : (s.cpu c).place = .held) {d : Cpu}
    {q : ProcId} (current : (s.cpu d).proc = some q) : (s.table.proc q).state = .running := by
  have holds : (s.cpu c).place.holds = true := by rw [held]; rfl
  by_cases same : d = c
  · subst same
    exact (cpus.fits d).running (by rw [held]; rfl) current
  · refine ((cpus.fits d).current current).2 ?_
    by_contra alsoHolds
    exact same (cpus.mutex.exclusive (by simpa using alsoHolds) holds)

omit [DecidableEq Cpu] in
theorem Inv.not_using (inv : Inv s) {q : ProcId} (live : Live (s.table.proc q).state)
    (away : (s.cpu c).proc ≠ some q) :
    (s.cpu c).stack ≠ .process (s.table.proc q).kstack ∧
      (s.cpu c).cr3 ≠ .process (s.table.proc q).pgdir := by
  obtain ⟨hasStack, hasDirectory⟩ := inv.pages.equipped q live
  obtain ⟨kstack, isStack⟩ := Option.ne_none_iff_exists'.mp hasStack
  obtain ⟨pgdir, isDirectory⟩ := Option.ne_none_iff_exists'.mp hasDirectory
  have stackUse : Uses s.table s.control (.kstack q) kstack := isStack
  have directoryUse : Uses s.table s.control (.pgdir q) pgdir := ⟨isDirectory, .inl live⟩
  refine ⟨?_, ?_⟩
  · intro on
    obtain ⟨r, current, same⟩ := (inv.cpus.fits c).on_stack on
    have shared : Uses s.table s.control (.kstack r) kstack := same.symm.trans isStack
    obtain ⟨⟩ := inv.pages.pool.apart shared stackUse
    exact away current
  · intro loaded
    obtain ⟨r, current, same | loading⟩ := (inv.cpus.fits c).has_loaded loaded
    · have shared : Uses s.table s.control (.pgdir r) pgdir :=
        ⟨same.symm.trans isDirectory, .inl ((inv.cpus.fits c).current current).1⟩
      obtain ⟨⟩ := inv.pages.pool.apart shared directoryUse
      exact away current
    · have shared : Uses s.table s.control (.old r) pgdir := by
        rw [Uses, loading]
        exact isDirectory
      cases inv.pages.pool.apart shared directoryUse

omit [DecidableEq Cpu] in
theorem Inv.not_free (inv : Inv s) {page : Nat}
    (using_ : (s.cpu c).stack = .process (some page) ∨ (s.cpu c).cr3 = .process (some page)) :
    s.free page = false := by
  have used : ∀ use, Uses s.table s.control use page → s.free page = false :=
    fun use inUse => by simpa using inv.pages.pool.used inUse
  rcases using_ with on | loaded
  · obtain ⟨p, -, same⟩ := (inv.cpus.fits c).on_stack on
    exact used (.kstack p) same.symm
  · obtain ⟨p, current, same | loading⟩ := (inv.cpus.fits c).has_loaded loaded
    · exact used (.pgdir p) ⟨same.symm, .inl ((inv.cpus.fits c).current current).1⟩
    · refine used (.old p) ?_
      rw [Uses, loading]
      rfl

/-- CPUs do not share processes, and `wait` frees no stack and no page directory
that a CPU is using. -/
theorem no_shared_resources (free : Nat → Bool) (kstack pgdir : Nat) (distinct : kstack ≠ pgdir)
    (s : System Cpu) (reachable : Reachable free kstack pgdir s) :
    -- no process is current on two CPUs
    (∀ c d p, (s.cpu c).proc = some p → (s.cpu d).proc = some p → c = d) ∧
    -- a RUNNING process is current on exactly one CPU when the lock is free
    (s.lock = none → ∀ p, (s.table.proc p).state = .running → ∃! c, (s.cpu c).proc = some p) ∧
    -- what `wait` frees is in use on no CPU
    (∀ c p q, (s.cpu c).proc = some p → (s.cpu c).place = .held → s.reaped p = some q →
      ∀ d, (s.cpu d).stack ≠ .process (s.table.proc q).kstack ∧
        (s.cpu d).cr3 ≠ .process (s.table.proc q).pgdir) ∧
    -- no CPU uses a free page
    ∀ c page, (s.cpu c).stack = .process (some page) ∨ (s.cpu c).cr3 = .process (some page) →
      s.free page = false := by
  have inv := reachable.inv distinct
  refine ⟨inv.cpus.exclusive, ?_, ?_, fun c page => inv.not_free⟩
  · intro _ p running
    obtain ⟨c, current⟩ := inv.cpus.ran p running
    exact ⟨c, current, fun d alsoHere => inv.cpus.exclusive d c p alsoHere current⟩
  · intro c p q current held reaped d
    have zombie : (s.table.proc q).state = .zombie := by
      unfold System.reaped at reaped
      split at reaped
      next r found =>
        cases reaped
        exact (scan_eq_zombie found).2
      · cases reaped
    refine inv.not_using (by simp [zombie, Live]) ?_
    intro here
    have running := inv.cpus.running_of_current held here
    rw [zombie] at running
    cases running

/-- On two CPUs `init` forks a child, which exits on the other one while `init` is
about to look for it. -/
theorem no_shared_resources_child :
    ∃ s : System (Fin 2), Reachable (fun _ => true) 10 11 s ∧
      ((s.cpu 0).proc = some 0 ∧ (s.cpu 0).place = .held ∧ s.reaped 0 = some 1) ∧
      ∀ d, (s.cpu d).stack ≠ .process (s.table.proc 1).kstack ∧
        (s.cpu d).cr3 ≠ .process (s.table.proc 1).pgdir := by
  have ran : ∃ s : System (Fin 2), Reachable (fun _ => true) 10 11 s ∧
      ((s.cpu 0).proc = some 0 ∧ (s.cpu 0).place = .held ∧ s.reaped 0 = some 1) :=
    Transition.Reachable.exists_of_run (fun _ _ => true) (fun _ _ _ => trivial) _
      ((0, .acquire) :: List.replicate 6 (0, .go) ++
        [(0, .acquire), (0, .fork), (0, .go), (0, .forkStack (some 12)), (0, .forkCopy (some 13)),
          (0, .acquire), (0, .forkFinish), (0, .go), (1, .acquire)] ++
        List.replicate 7 (1, .go) ++ [(1, .acquire), (1, .exit)] ++ List.replicate 66 (1, .go) ++
        [(0, .acquire)])
      (by decide +kernel)
  obtain ⟨s, reachable, ends⟩ := ran
  exact ⟨s, reachable, ends, (no_shared_resources _ 10 11 (by decide) s reachable).2.2.1 0 0 1
    ends.1 ends.2.1 ends.2.2⟩

end Cpus

end Scheduler

end Xv6
