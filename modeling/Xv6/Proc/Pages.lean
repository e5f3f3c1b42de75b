import Xv6.Proc.Memory

/-!
# Who uses a page

Pages are used by the kernel stacks and the address spaces of processes, by the
address space of the kernel and by pipes.  `Pool (Uses s none)` says that no page
has two of these uses and that none of them is free; the invariant `Held` adds
what the system calls need to keep it.

A system call works on the free pages and on what a few holders use.  What it does
there is described by an `Arena` or a `Space`; since it changes no other page, the
other holders use what they used before (`Held.update`).
-/

open Function (update_apply update_comm update_idem update_of_ne update_self)

namespace Xv6.Pages

open Exec Vm

/-- Those who have a page directory. -/
inductive Who where
  | kernel
  | proc (p : ProcId)
  /-- a system call that is building or taking down a directory -/
  | building
  deriving DecidableEq

/-- Those who use pages. -/
inductive Holder where
  | stack (p : ProcId)
  | pipe (page : Nat)
  | space (who : Who)
  deriving DecidableEq

/-- What a holder points at: a kernel stack, a `struct pipe`, or a page directory. -/
def Roots (s : System) (building : Option Nat) : Holder → Nat → Prop
  | .stack p, page => (s.table.proc p).state ≠ .unused ∧ (s.table.proc p).kstack = some page
  | .pipe pg, page =>
    page = pg ∧ ∃ f writable, 0 < (s.file f).ref ∧ (s.file f).pipe = some (pg, writable)
  | .space .kernel, d => d = s.kpgdir
  | .space (.proc p), d => (s.table.proc p).state ≠ .unused ∧ (s.table.proc p).state ≠ .embryo ∧
      (s.table.proc p).pgdir = some d
  | .space .building, d => building = some d

/-- The pages that belong to a root: for a directory its tables and user pages too. -/
def Covers (page : Nat → Page) (root : Nat) : Holder → Role → Nat → Prop
  | .space _, role, p => Owns page root role p
  | .stack _, role, p | .pipe _, role, p => role = .dir ∧ p = root

/-- A page is in use by a holder, in some role. -/
def Uses (s : System) (building : Option Nat) (use : Holder × Role) (page : Nat) : Prop :=
  ∃ root, Roots s building use.1 root ∧ Covers s.memory.page root use.1 use.2 page

/-- No page is free twice, free and in use, or in use twice. -/
def Safe (s : System) : Prop :=
  ∃ free, Chain p2v (fun p => s.memory.page p 0) 0 s.memory.freelist free ∧ free.Nodup ∧
    Pool (Uses s none) (· ∈ free)

theorem Covers.of_same {page page' : Nat → Page} {root p : Nat} {holder : Holder} {role : Role}
    (same : ∀ role p, Covers page root holder role p → page' p = page p)
    (covered : Covers page' root holder role p) : Covers page root holder role p := by
  cases holder with
  | stack _ => exact covered
  | pipe _ => exact covered
  | space _ => exact @OwnsIn.of_same true _ _ _ _ _ same covered

/-! ## The invariant -/

/-- Pipes are open as the files say. -/
structure Files (page : Nat → Page) (file : FileId → PipeFile) : Prop where
  closed : ∀ {f}, (file f).ref < 1 → (file f).pipe = none
  flag : ∀ {f pg writable}, (file f).pipe = some (pg, writable) → page pg (openWord writable) ≠ 0
  unique : ∀ {f f' pg writable}, (file f).pipe = some (pg, writable) →
    (file f').pipe = some (pg, writable) → f = f'

structure Held (layout : Layout) (s : System) (building : Option Nat) (free : List Nat) : Prop where
  list : FreeList layout s.memory free
  pool : Pool (Uses s building) (· ∈ free)
  range : ∀ {use page}, Uses s building use page → layout.last ≤ page ∧ page < PHYSTOP / PGSIZE
  sizes : ∀ p, (s.sz p).toNat < KERNBASE
  files : Files s.memory.page s.file

/-- The free pages and those that some holders use. -/
def Own (s : System) (building : Option Nat) (free : List Nat) (mine : Holder → Prop) (page : Nat) :
    Prop :=
  page ∈ free ∨ ∃ holder role, mine holder ∧ Uses s building (holder, role) page

namespace Held

variable {layout : Layout} {s s' : System} {building building' : Option Nat} {free free' : List Nat}
  {mine : Holder → Prop} {m' : Memory} {d : Nat} {who : Who}

theorem safe (held : Held layout s none free) : Safe s :=
  ⟨free, held.list.chain, held.list.nodup, held.pool⟩

theorem arena (held : Held layout s building free) (mine : Holder → Prop) :
    Arena layout (Own s building free mine) s.memory.page s.memory free where
  chain := held.list.chain
  nodup := held.list.nodup
  within _ isFree := .inl isFree
  range _ inside := by
    rcases inside with isFree | ⟨_, _, -, inUse⟩
    · exact held.list.range _ isFree
    · exact held.range inUse
  outside _ _ := rfl

theorem space (held : Held layout s building free) (mine : Holder → Prop)
    (isMine : mine (.space who)) (root : Roots s building (.space who) d) :
    Space layout (Own s building free mine) s.memory.page s.memory d free where
  toArena := held.arena mine
  pool := held.pool.rename (fun role => (Holder.space who, role)) (Prod.mk_right_injective _)
    fun _ _ owned => ⟨d, root, owned⟩
  mine {role _} owned := .inr ⟨_, role, isMine, d, root, owned⟩

theorem not_own (held : Held layout s building free) (use : Holder × Role) {page : Nat}
    (other : ¬mine use.1) (inUse : Uses s building use page) : ¬Own s building free mine page := by
  rintro (isFree | ⟨holder, role, isMine, inUse'⟩)
  · exact held.pool.used inUse isFree
  · rw [held.pool.apart inUse inUse'] at other
    exact other isMine

/-- A step that works on the free pages and on those of some holders, after which these
holders share the pages among themselves. -/
theorem update (held : Held layout s building free)
    (arena : Arena layout (Own s building free mine) s.memory.page s'.memory free')
    (kept : ∀ holder root, ¬mine holder → Roots s' building' holder root →
      Roots s building holder root)
    (arranged : Pool (fun use page => mine use.1 ∧ Uses s' building' use page) (· ∈ free'))
    (inside : ∀ use page, mine use.1 → Uses s' building' use page → Own s building free mine page)
    (sizes : ∀ p, (s'.sz p).toNat < KERNBASE) (files : Files s'.memory.page s'.file) :
    Held layout s' building' free' := by
  have before : ∀ use page, ¬mine use.1 → Uses s' building' use page →
      Uses s building use page := by
    rintro ⟨holder, role⟩ page other ⟨root, isRoot, covered⟩
    have wasRoot := kept holder root other isRoot
    refine ⟨root, wasRoot, covered.of_same fun role p covers => arena.outside p ?_⟩
    have inUse : Uses s building (holder, role) p := ⟨root, wasRoot, covers⟩
    exact held.not_own (holder, role) other inUse
  refine ⟨⟨arena.chain, arena.nodup, fun p isFree => arena.range p (arena.within p isFree)⟩,
    held.pool.replace (Own s building free mine) (fun use => mine use.1) before
      (fun use page other inUse => held.not_own use other inUse) inside arena.within arranged,
    ?_, sizes, files⟩
  intro use page inUse
  by_cases isMine : mine use.1
  · exact arena.range page (inside use page isMine inUse)
  · exact held.range (before use page isMine inUse)

theorem files_same (held : Held layout s building free)
    (arena : Arena layout (Own s building free mine) s.memory.page m' free')
    (notPipe : ∀ pg, ¬mine (.pipe pg)) : Files m'.page s.file where
  closed := held.files.closed
  unique := held.files.unique
  flag {f pg writable} isOpen := by
    have positive : 0 < (s.file f).ref := by
      by_contra shut
      rw [held.files.closed (by omega)] at isOpen
      cases isOpen
    have inUse : Uses s building (.pipe pg, .dir) pg :=
      ⟨pg, ⟨rfl, f, writable, positive, isOpen⟩, rfl, rfl⟩
    rw [arena.outside pg (held.not_own (.pipe pg, .dir) (notPipe pg) inUse)]
    exact held.files.flag isOpen

theorem release (held : Held layout s building free)
    (arena : Arena layout (Own s building free mine) s.memory.page s'.memory free')
    (kept : ∀ holder root, Roots s' building' holder root →
      Roots s building holder root ∧ ¬mine holder)
    (sizes : ∀ p, (s'.sz p).toNat < KERNBASE) (files : Files s'.memory.page s'.file) :
    Held layout s' building' free' := by
  have gone : ∀ {use page}, ¬(mine use.1 ∧ Uses s' building' use page) := by
    rintro use page ⟨isMine, root, isRoot, -⟩
    exact (kept _ root isRoot).2 isMine
  exact held.update arena (fun holder root _ isRoot => (kept holder root isRoot).1)
    ⟨fun inUse => absurd inUse gone, fun inUse => absurd inUse gone⟩
    (fun use page isMine inUse => absurd ⟨isMine, inUse⟩ gone) sizes files

theorem reshape (held : Held layout s building free)
    (space : Space layout (Own s building free (· = .space who)) s.memory.page s'.memory d free')
    (kept : ∀ holder root, holder ≠ .space who → Roots s' building' holder root →
      Roots s building holder root)
    (only : ∀ root, Roots s' building' (.space who) root → root = d)
    (sizes : ∀ p, (s'.sz p).toNat < KERNBASE) (file : s'.file = s.file) :
    Held layout s' building' free' := by
  have owned : ∀ {use page}, use.1 = .space who → Uses s' building' use page →
      Owns s'.memory.page d use.2 page := by
    rintro ⟨holder, role⟩ page rfl ⟨root, isRoot, covers⟩
    rw [only root isRoot] at covers
    exact covers
  refine held.update space.toArena kept ⟨fun inUse => space.pool.used (owned inUse.1 inUse.2), ?_⟩
    (fun use page isMine inUse => space.mine (owned isMine inUse)) sizes ?_
  · rintro use use' page ⟨isMine, inUse⟩ ⟨isMine', inUse'⟩
    exact Prod.ext (isMine.trans isMine'.symm)
      (space.pool.apart (owned isMine inUse) (owned isMine' inUse'))
  · rw [file]
    exact held.files_same space.toArena (by simp)

theorem rename (held : Held layout s building free) (memory : s'.memory = s.memory)
    (name : Holder → Holder) (injective : Function.Injective name)
    (roots : ∀ holder root, Roots s' building' holder root → Roots s building (name holder) root)
    (covers : ∀ page root holder role p, Covers page root holder role p →
      Covers page root (name holder) role p)
    (sizes : ∀ p, (s'.sz p).toNat < KERNBASE) (files : Files s'.memory.page s'.file) :
    Held layout s' building' free := by
  have fewer : ∀ use page, Uses s' building' use page →
      Uses s building (name use.1, use.2) page := by
    rintro ⟨holder, role⟩ page ⟨root, isRoot, covered⟩
    rw [memory] at covered
    exact ⟨root, roots holder root isRoot, covers _ _ _ _ _ covered⟩
  have distinct : Function.Injective fun use : Holder × Role => (name use.1, use.2) := by
    intro use use' same
    obtain ⟨sameName, sameRole⟩ := Prod.mk.inj same
    exact Prod.ext (injective sameName) sameRole
  refine ⟨?_, held.pool.rename _ distinct fewer, fun inUse => held.range (fewer _ _ inUse), sizes,
    files⟩
  rw [memory]
  exact held.list

theorem mono (held : Held layout s building free) (memory : s'.memory = s.memory)
    (roots : ∀ holder root, Roots s' building' holder root → Roots s building holder root)
    (sizes : ∀ p, (s'.sz p).toNat < KERNBASE) (files : Files s'.memory.page s'.file) :
    Held layout s' building' free :=
  held.rename memory id Function.injective_id roots (fun _ _ _ _ _ covered => covered) sizes files

end Held

/-! ## Roots -/

section Roots

variable {s s' : System} {building : Option Nat} {holder : Holder} {root : Nat} {p : ProcId}

/-- A process that has its stack and its directory still has them. -/
structure Kept (before after : Process) : Prop where
  kstack : after.kstack = before.kstack
  pgdir : after.pgdir = before.pgdir
  state : after.state = before.state ∨ before.state ≠ .unused ∧ before.state ≠ .embryo

theorem Roots.of_slots (isRoot : Roots s' building holder root)
    (slots : ∀ q, Kept (s.table.proc q) (s'.table.proc q)) (kernel : s'.kpgdir = s.kpgdir)
    (file : s'.file = s.file) : Roots s building holder root := by
  match holder, isRoot with
  | .stack q, ⟨used, stack⟩ =>
    refine ⟨?_, (slots q).kstack.symm.trans stack⟩
    rcases (slots q).state with same | ⟨wasUsed, -⟩
    · rwa [← same]
    · exact wasUsed
  | .pipe pg, isPipe => simpa only [Roots, file] using isPipe
  | .space .kernel, isKernel => exact isKernel.trans kernel
  | .space (.proc q), ⟨used, alive, directory⟩ =>
    rcases (slots q).state with same | ⟨wasUsed, wasAlive⟩
    · rw [same] at used alive
      exact ⟨used, alive, (slots q).pgdir.symm.trans directory⟩
    · exact ⟨wasUsed, wasAlive, (slots q).pgdir.symm.trans directory⟩
  | .space .building, isBuilding => exact isBuilding

theorem Roots.of_others (isRoot : Roots s' building holder root)
    (others : ∀ q, q ≠ p → s'.table.proc q = s.table.proc q) (kernel : s'.kpgdir = s.kpgdir)
    (file : s'.file = s.file) (notStack : holder ≠ .stack p)
    (notSpace : holder ≠ .space (.proc p)) : Roots s building holder root := by
  match holder, isRoot with
  | .stack q, isStack =>
    have other : q ≠ p := fun same => notStack (by rw [same])
    simpa only [Roots, others q other] using isStack
  | .pipe pg, isPipe => simpa only [Roots, file] using isPipe
  | .space .kernel, isKernel => exact isKernel.trans kernel
  | .space (.proc q), isSpace =>
    have other : q ≠ p := fun same => notSpace (by rw [same])
    simpa only [Roots, others q other] using isSpace
  | .space .building, isBuilding => exact isBuilding

theorem Roots.of_files (isRoot : Roots s' building holder root) (table : s'.table = s.table)
    (kernel : s'.kpgdir = s.kpgdir)
    (file : ∀ pg, holder = .pipe pg → ∀ f writable, 0 < (s'.file f).ref →
      (s'.file f).pipe = some (pg, writable) →
      ∃ f writable, 0 < (s.file f).ref ∧ (s.file f).pipe = some (pg, writable)) :
    Roots s building holder root := by
  match holder, isRoot with
  | .stack q, isStack => simpa only [Roots, table] using isStack
  | .pipe pg, ⟨same, f, writable, positive, isOpen⟩ =>
    exact ⟨same, file pg rfl f writable positive isOpen⟩
  | .space .kernel, isKernel => exact isKernel.trans kernel
  | .space (.proc q), isSpace => simpa only [Roots, table] using isSpace
  | .space .building, isBuilding => exact isBuilding

theorem Roots.of_building {building' : Option Nat} (other : holder ≠ .space .building)
    (isRoot : Roots s building holder root) : Roots s building' holder root := by
  match holder, isRoot with
  | .stack _, isStack => exact isStack
  | .pipe _, isPipe => exact isPipe
  | .space .kernel, isKernel => exact isKernel
  | .space (.proc _), isSpace => exact isSpace
  | .space .building, _ => exact absurd rfl other

theorem Roots.of_memory {m' : Memory}
    (isRoot : Roots { s with memory := m' } building holder root) : Roots s building holder root :=
  isRoot.of_files rfl rfl fun _ _ f writable positive isOpen => ⟨f, writable, positive, isOpen⟩

end Roots

/-! ## Files and pipes -/

section Files

variable {layout : Layout} {s : System} {building : Option Nat} {free : List Nat} {f : FileId}
  {p : ProcId}

@[simp]
theorem ensures_setTable {table : Ptable} {good : Unit → System → Prop} {bad : Trap → Prop} :
    (setTable table).Ensures s good bad ↔ good () { s with table := table } := Iff.rfl

@[simp]
theorem ensures_setFile {file : PipeFile} {good : Unit → System → Prop} {bad : Trap → Prop} :
    (setFile f file).Ensures s good bad ↔
      good () { s with file := Function.update s.file f file } := Iff.rfl

@[simp]
theorem ensures_setSize {sz : Word} {good : Unit → System → Prop} {bad : Trap → Prop} :
    (setSize p sz).Ensures s good bad ↔
      good () { s with sz := Function.update s.sz p sz } := Iff.rfl

theorem Files.positive {page : Nat → Page} {file : FileId → PipeFile} (files : Files page file)
    {pg : Nat} {writable : Bool} (isOpen : (file f).pipe = some (pg, writable)) :
    0 < (file f).ref := by
  by_contra shut
  rw [files.closed (by omega)] at isOpen
  cases isOpen

theorem Files.set {page : Nat → Page} {file : FileId → PipeFile} (files : Files page file)
    {new : PipeFile} (same : new.pipe = none ∨ new.pipe = (file f).pipe ∧ 0 < new.ref) :
    Files page (Function.update file f new) := by
  have before : ∀ {g pg writable}, (Function.update file f new g).pipe = some (pg, writable) →
      (file g).pipe = some (pg, writable) := by
    intro g pg writable isOpen
    rw [update_apply] at isOpen
    split at isOpen
    next here =>
      subst here
      rcases same with none | ⟨same, -⟩
      · rw [none] at isOpen
        cases isOpen
      · exact same.symm.trans isOpen
    · exact isOpen
  refine ⟨fun {g} shut => ?_, fun isOpen => files.flag (before isOpen),
    fun isOpen isOpen' => files.unique (before isOpen) (before isOpen')⟩
  rw [update_apply] at shut ⊢
  split
  next here =>
    rw [if_pos here] at shut
    rcases same with none | ⟨-, positive⟩
    · exact none
    · omega
  next other =>
    rw [if_neg other] at shut
    exact files.closed shut

theorem Held.setFile (held : Held layout s building free) {new : PipeFile}
    (same : new.pipe = none ∨ new.pipe = (s.file f).pipe ∧ 0 < new.ref) :
    Held layout { s with file := Function.update s.file f new } building free := by
  refine held.mono rfl (fun holder root isRoot => isRoot.of_files rfl rfl ?_) held.sizes
    (held.files.set same)
  rintro pg - g writable - isOpen
  refine ⟨g, writable, ?_⟩
  change (Function.update s.file f new g).pipe = _ at isOpen
  rw [update_apply] at isOpen
  split at isOpen
  next here =>
    subst here
    rcases same with none | ⟨same, -⟩
    · rw [none] at isOpen
      cases isOpen
    · rw [same] at isOpen
      exact ⟨held.files.positive isOpen, isOpen⟩
  · exact ⟨held.files.positive isOpen, isOpen⟩

theorem Held.setFd (held : Held layout s building free) (p : ProcId) (fd : Fd) (f : Option FileId) :
    Held layout { s with table := s.table.set p { s.table.proc p with
      ofile := Function.update (s.table.proc p).ofile fd f } } building free := by
  refine held.mono rfl (fun holder root isRoot => isRoot.of_slots (fun q => ?_) rfl rfl)
    held.sizes held.files
  simp only [Ptable.set_proc]
  split
  next here =>
    subst here
    exact ⟨rfl, rfl, .inl rfl⟩
  · exact ⟨rfl, rfl, .inl rfl⟩

theorem filealloc_spec (held : Held layout s building free) : filealloc.Ensures s
    (fun result s' => (result = none ∧ s' = s) ∨ ∃ f, result = some f ∧ (s.file f).ref = 0 ∧
      s' = { s with file := Function.update s.file f ⟨1, none⟩ } ∧ Held layout s' building free)
    (fun _ => False) := by
  unfold filealloc
  rw [ensures_bind, ensures_get]
  split
  next f search =>
    have found : (s.file f).ref = 0 := by simpa using List.find?_some search
    have shut : (s.file f).pipe = none := held.files.closed (by omega)
    rw [ensures_bind, ensures_setFile, ensures_pure]
    refine .inr ⟨f, rfl, found, ?_, held.setFile (.inl shut)⟩
    simp only [shut]
  · exact .inl ⟨rfl, rfl⟩

theorem filedup_spec (held : Held layout s building free) : (filedup f).Ensures s
    (fun _ s' => ∃ file, s' = { s with file := file } ∧ Held layout s' building free)
    (fun stop => stop = .file) := by
  unfold filedup
  rw [ensures_bind, ensures_get]
  split
  · exact rfl
  next counted =>
    exact ⟨_, rfl, held.setFile (.inr ⟨rfl, by change 0 < (s.file f).ref + 1; omega⟩)⟩

theorem Held.pipe_page (held : Held layout s building free) {pg : Nat} {writable : Bool}
    (isOpen : (s.file f).pipe = some (pg, writable)) : Uses s building (.pipe pg, .dir) pg :=
  ⟨pg, ⟨rfl, f, writable, held.files.positive isOpen, isOpen⟩, rfl, rfl⟩

/-- One end of a pipe is closed.  If both are, the page is given back. -/
theorem pipeclose_spec (held : Held layout s building free) {pg : Nat} {writable : Bool}
    (isOpen : (s.file f).pipe = some (pg, writable)) :
    (pipeclose layout pg writable).Ensures s.memory
      (fun _ m' => ∃ free', Held layout
        { s with memory := m', file := Function.update s.file f ⟨0, none⟩ } building free')
      (fun _ => False) := by
  have inUse := held.pipe_page isOpen
  have used : pg ∉ free := held.pool.used inUse
  have inside : Own s building free (· = .pipe pg) pg := .inr ⟨_, _, rfl, inUse⟩
  -- what is left of the files
  have left : ∀ {g pg' writable'},
      (Function.update s.file f (⟨0, none⟩ : PipeFile) g).pipe = some (pg', writable') →
      (s.file g).pipe = some (pg', writable') ∧
        (pg' = pg → openWord writable' ≠ openWord writable) := by
    intro g pg' writable' stillOpen
    rw [update_apply] at stillOpen
    split at stillOpen
    · cases stillOpen
    next other =>
      refine ⟨stillOpen, fun samePage sameWord => other ?_⟩
      subst samePage
      have sameEnd : writable' = writable := by
        cases writable' <;> cases writable <;> simp_all [openWord]
      subst sameEnd
      exact held.files.unique stillOpen isOpen
  have shut : Files s.memory.page (Function.update s.file f ⟨0, none⟩) := held.files.set (.inl rfl)
  have roots : ∀ {m'} holder root,
      Roots { s with memory := m', file := Function.update s.file f ⟨0, none⟩ } building
        holder root →
      Roots s building holder root := by
    intro m' holder root isRoot
    refine isRoot.of_files rfl rfl ?_
    rintro pg' - g writable' - stillOpen
    exact ⟨g, writable', held.files.positive (left stillOpen).1, (left stillOpen).1⟩
  have arena : Arena layout (Own s building free (· = .pipe pg)) s.memory.page { s.memory with
      page := Function.update s.memory.page pg
        (Function.update (s.memory.page pg) (openWord writable) 0) } free := by
    refine (held.arena _).frame rfl fun q unchanged => update_of_ne ?_ ..
    rintro rfl
    rcases unchanged with isFree | out
    · exact used isFree
    · exact out inside
  have flag : ∀ {g pg' writable'},
      (Function.update s.file f (⟨0, none⟩ : PipeFile) g).pipe = some (pg', writable') →
      Function.update s.memory.page pg
        (Function.update (s.memory.page pg) (openWord writable) 0) pg'
        (openWord writable') ≠ 0 := by
    intro g pg' writable' stillOpen
    obtain ⟨wasOpen, otherWord⟩ := left stillOpen
    by_cases same : pg' = pg
    · subst same
      rw [update_self, update_of_ne (otherWord rfl)]
      exact held.files.flag wasOpen
    · rw [update_of_ne same]
      exact held.files.flag wasOpen
  unfold pipeclose
  simp only [ensures_bind, ensures_setWord, ensures_get]
  split
  next bothClosed =>
    have gone : ∀ {g pg' writable'},
        (Function.update s.file f (⟨0, none⟩ : PipeFile) g).pipe = some (pg', writable') →
        pg' ≠ pg := by
      rintro g pg' writable' stillOpen rfl
      have isSet := flag stillOpen
      cases writable' with
      | false => exact isSet bothClosed.1
      | true => exact isSet bothClosed.2
    refine (kfree_spec arena inside used).mono ?_ (by simp)
    rintro - m' ⟨after, others, -⟩
    refine ⟨pg :: free, held.release after (fun holder root isRoot =>
      ⟨roots holder root isRoot, ?_⟩) held.sizes ⟨shut.closed, fun stillOpen => ?_, shut.unique⟩⟩
    · rintro rfl
      obtain ⟨-, g, writable', -, stillOpen⟩ := isRoot
      exact gone stillOpen rfl
    · change m'.page _ _ ≠ 0
      rw [others _ (gone stillOpen)]
      exact flag stillOpen
  · refine ⟨free, held.update arena (fun holder root _ => roots holder root) ⟨?_, ?_⟩ ?_ held.sizes
      ⟨shut.closed, flag, shut.unique⟩⟩
    · rintro ⟨_, role⟩ page ⟨rfl, root, ⟨rfl, -⟩, -, rfl⟩
      exact used
    · rintro ⟨_, role⟩ ⟨_, role'⟩ page ⟨rfl, _, -, rfl, -⟩ ⟨rfl, _, -, rfl, -⟩
      rfl
    · rintro ⟨_, role⟩ page rfl ⟨root, ⟨rfl, -⟩, -, rfl⟩
      exact inside

theorem fileclose_spec (held : Held layout s building free) : (fileclose layout f).Ensures s
    (fun _ s' => ∃ m' new free',
      s' = { s with memory := m', file := Function.update s.file f new } ∧
      Held layout s' building free')
    (fun stop => stop = .file ∧ (s.file f).ref < 1) := by
  unfold fileclose
  rw [ensures_bind, ensures_get]
  dsimp only
  split
  next shut =>
    exact ⟨rfl, shut⟩
  · split
    next more =>
      exact ⟨s.memory, _, free, rfl, held.setFile (.inr ⟨rfl, more⟩)⟩
    · rw [ensures_bind, ensures_setFile]
      cases isOpen : (s.file f).pipe with
      | none => exact ⟨s.memory, _, free, rfl, held.setFile (.inl rfl)⟩
      | some pair =>
        obtain ⟨pg, writable⟩ := pair
        simp only [ensures_onMemory]
        refine (pipeclose_spec held isOpen).mono ?_ (by simp)
        rintro - m' ⟨free', after⟩
        exact ⟨m', _, free', rfl, after⟩

theorem pipeinit_spec (page : Nat) (m : Memory) : (pipeinit page).Ensures m
    (fun _ m' => ∃ content : Page, m' = { m with page := Function.update m.page page content } ∧
      ∀ writable, content (openWord writable) ≠ 0)
    (fun _ => False) := by
  simp only [pipeinit, ensures_bind, ensures_setWord, update_idem, update_self]
  refine ⟨_, rfl, fun writable => ?_⟩
  cases writable <;> simp [openWord]

theorem Held.newPipe {page : Nat} {rest : List Nat} {content : Page}
    (held : Held layout s building (page :: rest)) (f0 f1 : FileId)
    (isSet : ∀ writable, content (openWord writable) ≠ 0) :
    Held layout { s with
      memory := { s.memory with
        freelist := s.memory.page page 0
        page := Function.update s.memory.page page content }
      file := Function.update (Function.update s.file f0 ⟨1, some (page, false)⟩) f1
        ⟨1, some (page, true)⟩ } building rest := by
  have unused : ∀ {f pg writable}, (s.file f).pipe = some (pg, writable) → pg ≠ page := by
    rintro f pg writable isOpen rfl
    exact held.pool.used (held.pipe_page isOpen) (by simp)
  have taken : page ∉ rest := (held.arena (fun _ => False)).head_not_mem
  have inside : Own s building (page :: rest) (· = .pipe page) page := .inl (by simp)
  -- the pipes of the files
  have opened : ∀ {f pg writable}, (Function.update (Function.update s.file f0
      (⟨1, some (page, false)⟩ : PipeFile)) f1 ⟨1, some (page, true)⟩ f).pipe =
        some (pg, writable) →
      (pg = page ∧ f = if writable then f1 else f0) ∨
        (s.file f).pipe = some (pg, writable) := by
    intro f pg writable isOpen
    simp only [update_apply] at isOpen
    split at isOpen
    next here =>
      cases isOpen
      exact .inl ⟨rfl, by simpa using here⟩
    · split at isOpen
      next here =>
        cases isOpen
        exact .inl ⟨rfl, by simpa using here⟩
      · exact .inr isOpen
  have arena : Arena layout (Own s building (page :: rest) (· = .pipe page)) s.memory.page
      { s.memory with
        freelist := s.memory.page page 0
        page := Function.update s.memory.page page content } rest := by
    refine (held.arena _).tail.frame rfl fun q unchanged => update_of_ne ?_ ..
    rintro rfl
    rcases unchanged with isFree | out
    · exact taken isFree
    · exact out inside
  refine held.update arena
    (fun holder root other isRoot => isRoot.of_files rfl rfl ?_) ⟨?_, ?_⟩ ?_ held.sizes
    ⟨fun {f} shut => ?_, fun {f pg writable} isOpen => ?_,
      fun {f f' pg writable} isOpen isOpen' => ?_⟩
  · rintro pg rfl f writable - isOpen
    rcases opened isOpen with ⟨rfl, -⟩ | wasOpen
    · exact absurd rfl other
    · exact ⟨f, writable, held.files.positive wasOpen, wasOpen⟩
  · rintro ⟨_, role⟩ q ⟨rfl, root, ⟨rfl, -⟩, -, rfl⟩
    exact taken
  · rintro ⟨_, role⟩ ⟨_, role'⟩ q ⟨rfl, _, -, rfl, -⟩ ⟨rfl, _, -, rfl, -⟩
    rfl
  · rintro ⟨_, role⟩ q rfl ⟨root, ⟨rfl, -⟩, -, rfl⟩
    exact inside
  · simp only [update_apply] at shut ⊢
    split
    next here =>
      rw [if_pos here] at shut
      cases shut
    next other =>
      rw [if_neg other] at shut
      split
      next here =>
        rw [if_pos here] at shut
        cases shut
      next other' =>
        rw [if_neg other'] at shut
        exact held.files.closed shut
  · change Function.update s.memory.page page content pg (openWord writable) ≠ 0
    rcases opened isOpen with ⟨rfl, -⟩ | wasOpen
    · rw [update_self]
      exact isSet writable
    · rw [update_of_ne (unused wasOpen)]
      exact held.files.flag wasOpen
  · rcases opened isOpen with ⟨rfl, here⟩ | wasOpen
    · rcases opened isOpen' with ⟨-, here'⟩ | wasOpen'
      · rw [here, here']
      · exact absurd rfl (unused wasOpen')
    · rcases opened isOpen' with ⟨rfl, -⟩ | wasOpen'
      · exact absurd rfl (unused wasOpen)
      · exact held.files.unique wasOpen wasOpen'

theorem pipealloc_spec (held : Held layout s building free) : (pipealloc layout).Ensures s
    (fun result s' => ∃ m' file free', s' = { s with memory := m', file := file } ∧
      Held layout s' building free' ∧ ∀ rf wf, result = some (rf, wf) →
        rf ≠ wf ∧ (file rf).ref = 1 ∧ (file wf).ref = 1)
    (fun _ => False) := by
  unfold pipealloc
  refine (filealloc_spec held).bind ?_ (by simp)
  rintro result s' (⟨rfl, rfl⟩ | ⟨f0, rfl, -, rfl, held'⟩)
  · exact ⟨_, _, free, rfl, held, by simp⟩
  refine (filealloc_spec held').bind ?_ (by simp)
  rintro result s' (⟨rfl, rfl⟩ | ⟨f1, rfl, unused, rfl, held''⟩)
  · refine (fileclose_spec held').bind ?_ fun stop stopped => ?_
    · rintro - s'' ⟨m', new, free', rfl, after⟩
      exact ⟨m', _, free', rfl, after, by simp⟩
    · simp at stopped
  have different : f0 ≠ f1 := by
    rintro rfl
    simp at unused
  simp only [ensures_bind, ensures_onMemory]
  refine (kalloc_spec (held''.arena fun _ => False)).mono ?_ (by simp)
  rintro result m' (⟨rfl, rfl, rfl⟩ | ⟨page, rest, rfl, rfl, rfl⟩)
  · simp only [ensures_bind]
    refine (fileclose_spec held'').mono ?_ fun stop stopped => ?_
    · rintro - s'' ⟨m', new, free', rfl, after⟩
      refine (fileclose_spec after).mono ?_ fun stop stopped => ?_
      · rintro - s₃ ⟨m'', new', free'', rfl, after'⟩
        exact ⟨m'', _, free'', rfl, after', by simp⟩
      · simp [update_of_ne different.symm] at stopped
    · simp [update_of_ne different] at stopped
  · simp only [ensures_bind, ensures_onMemory, ensures_get, ensures_setFile, ensures_pure]
    refine (pipeinit_spec page _).mono ?_ (by simp)
    rintro - m' ⟨content, rfl, isSet⟩
    refine ⟨_, _, rest, rfl, ?_, ?_⟩
    · have new := held''.newPipe f0 f1 isSet
      simpa [update_of_ne different, update_of_ne different.symm,
        update_comm different] using new
    · rintro rf wf same
      cases same
      exact ⟨different, by simp [update_of_ne different],
        by simp [update_of_ne different.symm]⟩

end Files

/-! ## Directories that are built and taken down -/

section Directories

variable {layout : Layout} {s s' : System} {building : Option Nat} {free free' : List Nat}
  {m' : Memory} {d : Nat} {p : ProcId}

theorem Held.built (held : Held layout s none free)
    (space : Space layout (Own s none free (· = .space .building)) s.memory.page m' d free') :
    Held layout { s with memory := m' } (some d) free' :=
  held.reshape space (fun _ _ other isRoot => isRoot.of_memory.of_building other)
    (fun _ isRoot => (Option.some.inj isRoot).symm) held.sizes rfl

theorem Held.dropped (held : Held layout s building free)
    (arena : Arena layout (Own s building free (· = .space .building)) s.memory.page m' free') :
    Held layout { s with memory := m' } none free' := by
  refine held.release arena (fun holder root isRoot => ?_) held.sizes
    (held.files_same arena (by simp))
  have other : holder ≠ .space .building := by
    rintro rfl
    cases isRoot
  exact ⟨isRoot.of_memory.of_building other, other⟩

theorem Held.exchange (held : Held layout s building free) (p : ProcId)
    {building' : Option Nat} (memory : s'.memory = s.memory)
    (others : ∀ holder root, holder ≠ .space .building → holder ≠ .space (.proc p) →
      Roots s' building' holder root → Roots s building holder root)
    (process : ∀ root, Roots s' building' (.space (.proc p)) root → building = some root)
    (old : ∀ root, building' = some root → Roots s building (.space (.proc p)) root)
    (sizes : ∀ p, (s'.sz p).toNat < KERNBASE) (file : s'.file = s.file) :
    Held layout s' building' free := by
  refine held.rename memory (Equiv.swap (.space .building) (.space (.proc p)))
    (Equiv.injective _) ?_ ?_ sizes ?_
  · intro holder root isRoot
    by_cases isBuilding : holder = .space .building
    · subst isBuilding
      rw [Equiv.swap_apply_left]
      exact old root isRoot
    · by_cases isProcess : holder = .space (.proc p)
      · subst isProcess
        rw [Equiv.swap_apply_right]
        exact process root isRoot
      · rw [Equiv.swap_apply_of_ne_of_ne isBuilding isProcess]
        exact others holder root isBuilding isProcess isRoot
  · intro page root holder role q covered
    by_cases isBuilding : holder = .space .building
    · subst isBuilding
      rwa [Equiv.swap_apply_left]
    · by_cases isProcess : holder = .space (.proc p)
      · subst isProcess
        rwa [Equiv.swap_apply_right]
      · rwa [Equiv.swap_apply_of_ne_of_ne isBuilding isProcess]
  · rw [memory, file]
    exact held.files

end Directories

/-! ## System calls -/

section Calls

variable {layout : Layout} {s : System} {building : Option Nat} {free : List Nat} {p : ProcId}

theorem fdalloc_spec (held : Held layout s building free) (f : FileId) : (fdalloc p f).Ensures s
    (fun _ s' => ∃ table, s' = { s with table := table } ∧ Held layout s' building free)
    (fun _ => False) := by
  unfold fdalloc
  rw [ensures_bind, ensures_get]
  split
  · exact ⟨_, rfl, held.setFd ..⟩
  · exact ⟨_, rfl, held⟩

theorem pipe_spec (held : Held layout s none free) : (pipe layout p).Ensures s
    (fun _ s' => ∃ free', Held layout s' none free') (fun _ => False) := by
  -- both ends are given up
  have undo : ∀ {s : System} {free : List Nat} {rf wf : FileId}, Held layout s none free → rf ≠ wf →
      (s.file rf).ref = 1 → (s.file wf).ref = 1 →
      (do fileclose layout rf; fileclose layout wf : SysM Unit).Ensures s
        (fun _ s' => ∃ free', Held layout s' none free') (fun _ => False) := by
    intro s free rf wf held different first second
    refine (fileclose_spec held).bind ?_ fun stop stopped => ?_
    · rintro - s' ⟨m', new, free', rfl, after⟩
      refine (fileclose_spec after).mono ?_ fun stop stopped => ?_
      · rintro - s'' ⟨_, _, free'', -, after'⟩
        exact ⟨free'', after'⟩
      · obtain ⟨-, shut⟩ := stopped
        change (Function.update s.file rf new wf).ref < 1 at shut
        rw [update_of_ne different.symm] at shut
        omega
    · omega
  unfold pipe
  refine (pipealloc_spec held).bind ?_ (by simp)
  rintro result s' ⟨m', file, free', rfl, after, counted⟩
  cases result with
  | none => exact ⟨free', after⟩
  | some pair =>
    obtain ⟨rf, wf⟩ := pair
    obtain ⟨different, first, second⟩ := counted rf wf rfl
    refine (fdalloc_spec after rf).bind ?_ (by simp)
    rintro fd0 s' ⟨table, rfl, held'⟩
    cases fd0 with
    | none => exact undo held' different first second
    | some fd0 =>
      refine (fdalloc_spec held' wf).bind ?_ (by simp)
      rintro fd1 s' ⟨table', rfl, held''⟩
      cases fd1 with
      | none => exact undo (held''.setFd p fd0 none) different first second
      | some _ => exact ⟨free', held''⟩

theorem close_spec (held : Held layout s none free) (fd : Fd) : (close layout p fd).Ensures s
    (fun _ s' => ∃ free', Held layout s' none free') (fun _ => True) := by
  unfold close
  rw [ensures_bind, ensures_get]
  cases (s.table.proc p).ofile fd with
  | none => exact ⟨free, held⟩
  | some f =>
    refine (fileclose_spec (held.setFd p fd none)).mono ?_ fun _ _ => trivial
    rintro - s' ⟨_, _, free', -, after⟩
    exact ⟨free', after⟩

def Active (s : System) (p : ProcId) : Prop :=
  (s.table.proc p).state ≠ .unused ∧ (s.table.proc p).state ≠ .embryo

theorem resize_spec {own : Nat → Prop} {base : Nat → Page} {m : Memory} {pgdir : Nat} {sz n : Word}
    (space : Space layout own base m pgdir free) (small : sz.toNat < KERNBASE) :
    (resize layout pgdir sz n).Ensures m
      (fun sz' m' => sz'.toNat < KERNBASE ∧ ∃ free', Space layout own base m' pgdir free')
      (fun stop => stop = .remap) := by
  unfold resize
  split
  · refine (allocuvm_spec space).mono ?_ fun _ stopped => stopped
    rintro sz' m' ⟨⟨rfl, below⟩ | rfl | rfl, after⟩
    · exact ⟨below, after⟩
    · exact ⟨small, after⟩
    · exact ⟨by decide, after⟩
  · split
    · refine (deallocuvm_spec space small.le).mono ?_ (by simp)
      rintro sz' m' ⟨rfl, -, after⟩
      refine ⟨?_, after⟩
      split
      · exact small
      next less =>
        rw [BitVec.le_def] at less
        omega
    · exact ⟨small, free, space⟩

theorem growproc_spec (held : Held layout s none free) (active : Active s p) (n : Word) :
    (growproc layout p n).Ensures s (fun _ s' => ∃ free', Held layout s' none free')
      (fun _ => True) := by
  unfold growproc
  rw [ensures_bind, ensures_get]
  cases directory : (s.table.proc p).pgdir with
  | none => trivial
  | some pgdir =>
    have root : Roots s none (.space (.proc p)) pgdir := ⟨active.1, active.2, directory⟩
    have resized := resize_spec (n := n) (held.space (· = .space (.proc p)) rfl root)
      (held.sizes p)
    simp only [ensures_bind, ensures_onMemory]
    refine resized.mono ?_ fun _ _ => trivial
    rintro sz' m' ⟨below, free', after⟩
    have only : ∀ {sizes : ProcId → Word} root,
        Roots { s with memory := m', sz := sizes } none (.space (.proc p)) root → root = pgdir := by
      rintro sizes root ⟨-, -, isRoot⟩
      exact Option.some.inj (isRoot.symm.trans directory)
    split
    · exact ⟨free', held.reshape after (fun _ _ _ isRoot => isRoot.of_memory) only held.sizes rfl⟩
    · refine ⟨free', held.reshape after (fun _ _ _ isRoot => ?_) only (fun q => ?_) rfl⟩
      · exact isRoot.of_slots (fun _ => ⟨rfl, rfl, .inl rfl⟩) rfl rfl
      · change (Function.update s.sz p sz' q).toNat < KERNBASE
        rw [update_apply]
        split
        · exact below
        · exact held.sizes q

theorem sbrk_spec (held : Held layout s none free) (active : Active s p) (n : Word) :
    (sbrk layout p n).Ensures s (fun _ s' => ∃ free', Held layout s' none free')
      (fun _ => True) := by
  unfold sbrk
  rw [ensures_bind, ensures_get]
  refine (growproc_spec held active n).bind ?_ fun _ _ => trivial
  rintro ok s' after
  cases ok <;> exact after

/-! ### fork -/

theorem dupFiles_spec (ofile : Fd → Option FileId) (fds : List Fd)
    (held : Held layout s building free) : (dupFiles ofile fds).Ensures s
      (fun _ s' => ∃ file, s' = { s with file := file } ∧ Held layout s' building free)
      (fun stop => stop = .file) := by
  induction fds generalizing s with
  | nil => exact ⟨_, rfl, held⟩
  | cons fd rest ih =>
    unfold dupFiles
    cases ofile fd with
    | none => exact ih held
    | some f =>
      refine (filedup_spec held).bind ?_ fun _ stopped => stopped
      rintro - s' ⟨file, rfl, after⟩
      exact ih after

theorem Held.unusedSlot (held : Held layout s none free) {table : Ptable} (np : ProcId)
    (others : ∀ q, q ≠ np → table.proc q = s.table.proc q)
    (unused : (table.proc np).state = .unused) :
    Held layout { s with table := table } none free := by
  refine held.mono rfl (fun holder root isRoot => ?_) held.sizes held.files
  refine isRoot.of_others others rfl rfl ?_ ?_
  · rintro rfl
    exact isRoot.1 unused
  · rintro rfl
    exact isRoot.1 unused

theorem Held.newStack {page : Nat} {rest : List Nat} (held : Held layout s none (page :: rest))
    (table : Ptable) (np : ProcId) (others : ∀ q, q ≠ np → table.proc q = s.table.proc q)
    (embryo : (table.proc np).state = .embryo) (stack : (table.proc np).kstack = some page) :
    Held layout { s with
      memory := { s.memory with freelist := s.memory.page page 0 }, table := table } none rest := by
  have taken : page ∉ rest := (held.arena (fun _ => False)).head_not_mem
  have arena := (held.arena (· = .stack np)).tail
  have only : ∀ {use q}, use.1 = Holder.stack np → Uses { s with
      memory := { s.memory with freelist := s.memory.page page 0 }, table := table } none use q →
      use.2 = .dir ∧ q = page := by
    rintro ⟨_, role⟩ q rfl ⟨root, ⟨-, isStack⟩, rfl, rfl⟩
    exact ⟨rfl, Option.some.inj (isStack.symm.trans stack)⟩
  refine held.update arena (fun holder root other isRoot => ?_)
    ⟨fun inUse => ?_, fun inUse inUse' => ?_⟩ (fun use q isMine inUse => ?_) held.sizes
    (held.files_same arena (by simp))
  · refine isRoot.of_others others rfl rfl other ?_
    rintro rfl
    exact isRoot.2.1 embryo
  · rw [(only inUse.1 inUse.2).2]
    exact taken
  · exact Prod.ext (inUse.1.trans inUse'.1.symm)
      ((only inUse.1 inUse.2).1.trans (only inUse'.1 inUse'.2).1.symm)
  · rw [(only isMine inUse).2]
    exact .inl (by simp)

theorem Held.freeStack (held : Held layout s none free) {np : ProcId} {kstack : Nat}
    (used : (s.table.proc np).state ≠ .unused) (stack : (s.table.proc np).kstack = some kstack)
    (table : Ptable) (others : ∀ q, q ≠ np → table.proc q = s.table.proc q)
    (unused : (table.proc np).state = .unused) :
    (kfree layout kstack).Ensures s.memory
      (fun _ m' => ∃ free', Held layout { s with memory := m', table := table } none free')
      (fun _ => False) := by
  have inUse : Uses s none (.stack np, .dir) kstack := ⟨kstack, ⟨used, stack⟩, rfl, rfl⟩
  refine (kfree_spec (held.arena (· = .stack np)) (.inr ⟨_, _, rfl, inUse⟩)
    (held.pool.used inUse)).mono ?_ (by simp)
  rintro - m' ⟨arena, -, -⟩
  refine ⟨_, held.release arena (fun holder root isRoot => ?_) held.sizes
    (held.files_same arena (by simp))⟩
  have notStack : holder ≠ .stack np := by
    rintro rfl
    exact isRoot.1 unused
  refine ⟨isRoot.of_others others rfl rfl notStack ?_, notStack⟩
  rintro rfl
  exact isRoot.1 unused

theorem fork_spec (held : Held layout s none free) (p : ProcId) : (fork layout p).Ensures s
    (fun _ s' => ∃ free', Held layout s' none free') (fun _ => True) := by
  unfold fork
  rw [ensures_bind, ensures_get]
  cases search : s.table.allocSlot with
  | none => exact ⟨free, held⟩
  | some pair =>
    obtain ⟨np, table⟩ := pair
    obtain ⟨-, rfl⟩ := Ptable.allocSlot_eq_some search
    simp only [ensures_bind, ensures_onMemory]
    refine (kalloc_spec (held.arena fun _ => False)).mono ?_ (by simp)
    rintro result m' (⟨rfl, rfl, rfl⟩ | ⟨kstack, rest, rfl, rfl, rfl⟩)
    · refine ⟨[], held.unusedSlot np (fun q other => ?_) ?_⟩
      · simp [Ptable.allocStack, Ptable.set, update_of_ne other]
      · simp [Ptable.allocStack, Ptable.set]
    · simp only [ensures_bind, ensures_setTable]
      generalize before : Ptable.allocStack _ np (some kstack) = table
      have others : ∀ q, q ≠ np → table.proc q = s.table.proc q := by
        intro q other
        rw [← before]
        simp [Ptable.allocStack, Ptable.set, update_of_ne other]
      have embryo : (table.proc np).state = .embryo := by
        rw [← before]
        simp [Ptable.allocStack, Ptable.set]
      have stack : (table.proc np).kstack = some kstack := by
        rw [← before]
        simp [Ptable.allocStack, Ptable.set]
      have started := held.newStack table np others embryo stack
      cases (s.table.proc p).pgdir with
      | none => trivial
      | some pgdir =>
        simp only [ensures_bind, ensures_onMemory]
        refine (copyuvm_spec (started.arena (· = .space .building)) (held.sizes p)).mono ?_
          fun _ _ => trivial
        intro result m' copied
        cases result with
        | none =>
          obtain ⟨free', arena⟩ := copied
          have undone := started.dropped arena
          simp only [ensures_bind, ensures_onMemory, ensures_setTable]
          refine (undone.freeStack (by simp [embryo]) stack (table.copyProcess p np none)
            (fun q other => ?_) ?_).mono (fun _ _ result => result) (by simp)
          · simp [Ptable.copyProcess, other]
          · simp [Ptable.copyProcess]
        | some d =>
          obtain ⟨free', space⟩ := copied
          have built := started.built space
          simp only [ensures_bind, ensures_setSize]
          have sized : Held layout { s with
              memory := m', table := table, sz := Function.update s.sz np (s.sz p) } (some d)
              free' := by
            refine built.mono rfl (fun holder root isRoot => isRoot.of_slots
              (fun _ => ⟨rfl, rfl, .inl rfl⟩) rfl rfl) (fun q => ?_) built.files
            change (Function.update s.sz np (s.sz p) q).toNat < KERNBASE
            rw [update_apply]
            split
            · exact held.sizes p
            · exact held.sizes q
          refine (dupFiles_spec _ _ sized).mono ?_ fun _ _ => trivial
          rintro - s' ⟨file, rfl, dupped⟩
          refine ⟨free', dupped.exchange np rfl
            (fun holder root notBuilding notProcess isRoot => ?_)
            (fun root isRoot => ?_) (by simp) dupped.sizes rfl⟩
          · by_cases isStack : holder = .stack np
            · subst isStack
              obtain ⟨-, isStack⟩ := isRoot
              refine ⟨by simp [embryo], ?_⟩
              simpa [Ptable.copyProcess, Ptable.setState] using isStack
            · refine (isRoot.of_building notBuilding).of_others (fun q other => ?_) rfl rfl isStack
                notProcess
              simp [Ptable.copyProcess, Ptable.setState, other]
          · obtain ⟨-, -, directory⟩ := isRoot
            simpa [Ptable.copyProcess, Ptable.setState] using directory

/-! ### exec -/

/-- With these free pages `exec` stays within the memory it takes: the segments of the file fit,
and the strings land below the stack of the image that they make. -/
def ExecFits (file : Executable) (argv : Argv) (free : List Nat) : Prop :=
  file.Fits free ∧ (file.Loads free.length →
    argv.Lands (pageCount (extent 0 file.segments))
      (free.length - 65 - growth 0 (pageCount (extent 0 file.segments))))

theorem Held.commit {d oldpgdir : Nat} {sz : Word} (held : Held layout s (some d) free)
    (active : Active s p) (old : (s.table.proc p).pgdir = some oldpgdir)
    (below : sz.toNat < KERNBASE) :
    (freevm layout oldpgdir).Ensures s.memory
      (fun _ m' => ∃ free', Held layout { s with
        memory := m'
        table := s.table.set p { s.table.proc p with pgdir := some d }
        sz := Function.update s.sz p sz } none free')
      (fun _ => False) := by
  have exchanged : Held layout { s with
      table := s.table.set p { s.table.proc p with pgdir := some d }
      sz := Function.update s.sz p sz } (some oldpgdir) free := by
    refine held.exchange p rfl (fun holder root notBuilding notProcess isRoot => ?_)
      (fun root isRoot => ?_) (fun root isOld => ?_) (fun q => ?_) rfl
    · by_cases isStack : holder = .stack p
      · subst isStack
        obtain ⟨-, stack⟩ := isRoot
        exact ⟨active.1, by simpa using stack⟩
      · exact (isRoot.of_building notBuilding).of_others (fun q other => by simp [other]) rfl rfl
          isStack notProcess
    · obtain ⟨-, -, directory⟩ := isRoot
      simpa using directory
    · rw [← Option.some.inj isOld]
      exact ⟨active.1, active.2, old⟩
    · change (Function.update s.sz p sz q).toNat < KERNBASE
      rw [update_apply]
      split
      · exact below
      · exact held.sizes q
  refine (freevm_spec (exchanged.space (· = .space .building) rfl rfl)).mono ?_ (by simp)
  rintro - m' ⟨-, free', arena⟩
  exact ⟨free', exchanged.dropped arena⟩

-- `obtain` would evaluate them
attribute [local irreducible] load stack

theorem exec_spec {file : Executable} {argv : Argv} (held : Held layout s none free)
    (active : Active s p) (fits : ExecFits file argv free) :
    (exec layout p file argv).Ensures s (fun _ s' => ∃ free', Held layout s' none free')
      (fun _ => (s.table.proc p).pgdir = none) := by
  have arena := held.arena (· = .space .building)
  unfold exec
  simp only [ensures_bind, ensures_onMemory]
  refine ensures_iff.mpr ⟨fun result m' returned => ?_, fun stop stopped => ?_⟩
  · obtain ⟨-, outcome⟩ := ((load_spec arena).of_ok returned).resolve_right fun strays =>
      strays.1 fits.1
    cases result with
    | none =>
      obtain ⟨-, free', after⟩ := outcome
      simp only [ensures_pure]
      exact ⟨free', held.dropped after⟩
    | some loaded =>
      obtain ⟨loads, size, below, free', m₀, image, stocked, lost⟩ := outcome
      have count : pages loaded.sz = pageCount (extent 0 file.segments) := by
        rw [← size]
        rfl
      have left := congrArg List.length stocked.rest
      rw [List.length_drop, List.length_drop] at left
      have walks : argv.Walks layout loaded.pgdir loaded.sz m' := by
        rw [walks_iff image below (stocked.whole lost), left, count]
        exact fits.2 loads
      simp only [ensures_bind, ensures_onMemory]
      refine (stack_spec image below).mono ?_ fun _ fails => absurd walks fails
      rintro result m'' ⟨-, -, -, outcome⟩
      cases result with
      | none =>
        obtain ⟨free'', after⟩ := outcome
        simp only [ensures_pure]
        exact ⟨free'', held.dropped after⟩
      | some pair =>
        obtain ⟨sz, sp⟩ := pair
        obtain ⟨below', -, -, free'', space⟩ := outcome
        simp only [ensures_bind, ensures_get]
        cases old : (s.table.proc p).pgdir with
        | none => exact rfl
        | some oldpgdir =>
          simp only [ensures_bind, ensures_setTable, ensures_setSize, ensures_onMemory]
          exact ((held.built space).commit active old below').mono (fun _ _ result => result)
            (by simp)
  · exact absurd fits.1 ((load_spec arena).of_error stopped)

/-! ### exit and wait -/

theorem closeFiles_spec (fds : List Fd) (held : Held layout s none free) :
    (closeFiles layout p fds).Ensures s
      (fun _ s' => (s'.table.proc p).state = (s.table.proc p).state ∧
        ∃ free', Held layout s' none free') (fun stop => stop = .file) := by
  induction fds generalizing s free with
  | nil => exact ⟨rfl, free, held⟩
  | cons fd rest ih =>
    unfold closeFiles
    rw [ensures_bind, ensures_get]
    cases (s.table.proc p).ofile fd with
    | none => exact ih held
    | some f =>
      refine (fileclose_spec held).bind ?_ fun _ stopped => stopped.1
      rintro - s' ⟨m', new, free', rfl, after⟩
      refine (ih (after.setFd p fd none)).mono ?_ fun _ stopped => stopped
      rintro - s'' ⟨state, result⟩
      exact ⟨state.trans (by simp), result⟩

theorem exit_spec (held : Held layout s none free) (active : Active s p) :
    (exit layout p).Ensures s (fun _ s' => ∃ free', Held layout s' none free')
      (fun _ => True) := by
  unfold exit
  split
  · trivial
  · refine (closeFiles_spec _ held).bind ?_ fun _ _ => trivial
    rintro - s' ⟨state, free', after⟩
    have exited := Ptable.exitSection_exited s'.table p
    refine ⟨free', after.mono rfl (fun holder root isRoot => isRoot.of_slots (fun q => ?_) rfl rfl)
      after.sizes after.files⟩
    by_cases self : q = p
    · subst self
      change Kept _ ((s'.table.exitSection q).proc q)
      rw [exited.self]
      exact ⟨rfl, rfl, .inr (by rw [state]; exact active)⟩
    · rcases exited.slot q self with same | ⟨sleeping, woken⟩
      · change Kept _ ((s'.table.exitSection p).proc q)
        rw [same]
        exact ⟨rfl, rfl, .inl rfl⟩
      · change Kept _ ((s'.table.exitSection p).proc q)
        rw [woken]
        refine ⟨rfl, rfl, .inr ?_⟩
        change (s'.table.proc q).state = .sleeping at sleeping
        simp [sleeping]

theorem kfree_beside {own : Nat → Prop} {base : Nat → Page} {m : Memory} {d page : Nat}
    (space : Space layout own base m d free) (inside : own page) (used : page ∉ free)
    (unowned : ∀ role, ¬Owns m.page d role page) :
    (kfree layout page).Ensures m
      (fun _ m' => Space layout own base m' d (page :: free) ∧
        ∀ role q, Owns m'.page d role q → Owns m.page d role q)
      (fun _ => False) := by
  refine (kfree_spec space.toArena inside used).mono ?_ (by simp)
  rintro - m' ⟨arena, others, -⟩
  have before : ∀ role q, Owns m'.page d role q → Owns m.page d role q := fun role q owned =>
    owned.of_same fun role q isOwned => others q fun same => unowned role (same ▸ isOwned)
  refine ⟨{ toArena := arena, pool := ⟨fun {role q} owned isFree => ?_, fun owned owned' => ?_⟩
            mine := fun owned => space.mine (before _ _ owned) }, before⟩
  · rcases List.mem_cons.mp isFree with rfl | isFree
    · exact unowned role (before _ _ owned)
    · exact space.pool.used (before _ _ owned) isFree
  · exact space.pool.apart (before _ _ owned) (before _ _ owned')

theorem wait_spec (held : Held layout s none free) : (wait layout p).Ensures s
    (fun _ s' => ∃ free', Held layout s' none free') (fun stop => stop = .nullPointer) := by
  unfold wait
  rw [ensures_bind, ensures_get]
  cases found : s.table.scan p (List.finRange NPROC) false with
  | none _ => exact ⟨free, held⟩
  | zombie q =>
    obtain ⟨-, zombie⟩ := Ptable.scan_eq_zombie found
    dsimp only
    cases stack : (s.table.proc q).kstack with
    | none => exact rfl
    | some kstack =>
      cases directory : (s.table.proc q).pgdir with
      | none => exact rfl
      | some pgdir =>
        have isStack : Roots s none (.stack q) kstack := ⟨by simp [zombie], stack⟩
        have isSpace : Roots s none (.space (.proc q)) pgdir :=
          ⟨by simp [zombie], by simp [zombie], directory⟩
        have inUse : Uses s none (.stack q, .dir) kstack := ⟨kstack, isStack, rfl, rfl⟩
        have space := held.space
          (fun holder => holder = .stack q ∨ holder = .space (.proc q)) (.inr rfl) isSpace
        simp only [ensures_bind, ensures_onMemory]
        refine (kfree_beside space (.inr ⟨_, _, .inl rfl, inUse⟩) (held.pool.used inUse)
          fun role owned => ?_).mono ?_ (by simp)
        · have same := held.pool.apart inUse
            (show Uses s none (.space (.proc q), role) kstack from ⟨pgdir, isSpace, owned⟩)
          cases same
        rintro - m' ⟨freed, -⟩
        refine (freevm_spec freed).mono ?_ (by simp)
        rintro - m'' ⟨-, free', arena⟩
        rw [ensures_setTable]
        refine ⟨free', held.release arena (fun holder root isRoot => ?_) held.sizes
          (held.files_same arena (by simp))⟩
        have notStack : holder ≠ .stack q := by
          rintro rfl
          exact isRoot.1 (by simp [Ptable.reap])
        have notSpace : holder ≠ .space (.proc q) := by
          rintro rfl
          exact isRoot.1 (by simp [Ptable.reap])
        exact ⟨isRoot.of_others (fun r other => by simp [Ptable.reap, other]) rfl rfl notStack
          notSpace, by simp [notStack, notSpace]⟩

end Calls

end Xv6.Pages
