import Xv6.Lib.Transition
import Xv6.Proc.Pages

/-!
# Page ownership in every run

`main` frees two ranges of pages, builds the directory of the kernel and the pages
of the first process.  From there on every system call keeps the invariant, except
`exec` of a file that makes it write outside the memory it has taken.
-/

open Function (update update_apply update_of_ne update_self)

namespace Xv6.Pages

open Exec Vm

/-! ## Starting up -/

section Boot

variable {layout : Layout} {own : Nat → Prop} {base : Nat → Page} {m : Memory} {d : Nat}
  {free : List Nat}

/-- The pages that `kfree` accepts. -/
def InRange (layout : Layout) (page : Nat) : Prop :=
  layout.last ≤ page ∧ page < PHYSTOP / PGSIZE

theorem freerange_inRange (vstart vend : Nat) : (freerange layout vstart vend).Ensures m
    (fun _ _ => ∀ p ∈ pagesBetween vstart vend, InRange layout p) (fun _ => True) := by
  have loop : ∀ count first (m : Memory), (freePages layout first count).Ensures m
      (fun _ _ => ∀ p ∈ List.range' first count, InRange layout p) (fun _ => True) := by
    intro count
    induction count with
    | zero => simp [freePages]
    | succ count ih =>
      intro first m
      have accepted : (kfree layout first).Ensures m (fun _ _ => InRange layout first)
          (fun _ => True) := by
        unfold kfree
        split
        · trivial
        next inside =>
          show InRange layout first
          unfold InRange
          omega
      refine accepted.bind ?_ fun _ _ => trivial
      intro _ m' here
      refine (ih (first + 1) m').mono ?_ fun _ _ => trivial
      intro _ _ others p member
      rw [List.range'_succ, List.mem_cons] at member
      rcases member with rfl | later
      · exact here
      · exact others p later
  exact loop _ _ m

theorem freePages_beside (count : Nat) {first : Nat} (space : Space layout own base m d free)
    (unused : ∀ p ∈ List.range' first count, own p ∧ p ∉ free ∧ ∀ role, ¬Owns m.page d role p) :
    (freePages layout first count).Ensures m
      (fun _ m' => Space layout own base m' d ((List.range' first count).reverse ++ free))
      (fun _ => False) := by
  induction count generalizing m first free with
  | zero => exact space
  | succ count ih =>
    rw [List.range'_succ] at unused ⊢
    obtain ⟨inside, used, unowned⟩ := unused first (by simp)
    refine (kfree_beside space inside used unowned).bind ?_ (by simp)
    rintro - m' ⟨after, before⟩
    refine (ih after fun p later => ?_).mono ?_ (by simp)
    · obtain ⟨inside', used', unowned'⟩ := unused p (by simp [later])
      have above := (List.mem_range'_1.mp later).1
      refine ⟨inside', ?_, fun role owned => unowned' role (before role p owned)⟩
      simp only [List.mem_cons, not_or]
      exact ⟨by omega, used'⟩
    · rintro - m'' space'
      rw [List.reverse_cons, List.append_assoc, List.singleton_append]
      exact space'

theorem inituvm_spec {init : List UInt8} (space : Space layout own base m d free)
    (empty : table m.page d 0 = none) : (inituvm d init).Ensures m
      (fun _ m' => ∃ free', Space layout own base m' d free' ∧ free.length ≤ free'.length + 2)
      (fun _ => free = [] ∨ PGSIZE ≤ init.length) := by
  unfold inituvm
  split
  next long =>
    exact .inr long
  · refine (kalloc_spec space.toArena).bind ?_ (by simp)
    rintro result m' (⟨rfl, none, rfl⟩ | ⟨mem, rest, rfl, rfl, rfl⟩)
    · exact .inl none
    obtain ⟨taken, hand⟩ := space.take
    rw [ensures_bind, ensures_setPage]
    refine (mapNew_spec (k := 0) taken hand (by decide) _ (by decide)).bind ?_ ?_
    · rintro ok m' ⟨-, ⟨-, rfl, -, after, tables, entries⟩ | ⟨-, free', after, mapped⟩⟩
      · simp only [ensures_bind, ensures_get, ensures_setPage]
        have unowned : ∀ role, ¬Owns m'.page d role mem := fun role owned =>
          hand.unowned role (owned.frame tables entries)
        refine ⟨[], (after.frame { m' with page := update m'.page mem ((m'.page mem).store 0 init) }
          rfl hand.inside (by simp) (fun same => unowned .dir same)
          (fun i small found => unowned (.table i) ⟨small, found⟩)
          (fun q other => update_of_ne other ..)).1, by simp⟩
      · simp only [ensures_bind, ensures_get, ensures_setPage]
        have owned : Owns m'.page d (.user 0) mem :=
          ⟨by decide, _, mapped.self, present_entry _ _,
            frame_entry_addr (Nat.lt_trans (space.small hand.inside) (by decide)) (by decide)⟩
        have notRole : ∀ role, role ≠ .user 0 → ¬Owns m'.page d role mem :=
          fun role other isOwned =>
          other (after.pool.apart isOwned owned)
        refine ⟨free',
          (after.frame { m' with page := update m'.page mem ((m'.page mem).store 0 init) }
          rfl hand.inside (after.pool.used owned)
          (fun same => notRole .dir (by simp) same)
          (fun i small found => notRole (.table i) (by simp) ⟨small, found⟩)
          (fun q other => update_of_ne other ..)).1, ?_⟩
        rcases mapped.used with ⟨same, -⟩ | ⟨t, same, -⟩
        · rw [same]
          simp
        · simp [same]
    · rintro stop ⟨-, w, found, -⟩
      rw [Vm.lookup_eq_none.mpr empty] at found
      cases found

def unbooted (m : Memory) (kpgdir : Nat) : System where
  memory := m
  kpgdir := kpgdir
  table := (Ptable.userinit 0 0).setState initproc .unused
  sz := fun _ => 0
  file := fun _ => ⟨0, none⟩

theorem unbooted_unused (m : Memory) (kpgdir : Nat) (p : ProcId) :
    ((unbooted m kpgdir).table.proc p).state = .unused := by
  simp only [unbooted, Ptable.setState, Ptable.set_proc, Ptable.userinit]
  split <;> rfl

theorem Held.unbooted (space : Space layout own base m d free) :
    Held layout (unbooted m d) none free := by
  have only : ∀ {use page}, Uses (Pages.unbooted m d) none use page →
      use.1 = .space .kernel ∧ Owns m.page d use.2 page := by
    rintro ⟨holder, role⟩ page ⟨root, isRoot, covers⟩
    match holder, isRoot with
    | .stack p, isStack => exact absurd (unbooted_unused m d p) isStack.1
    | .pipe pg, ⟨_, f, writable, positive, _⟩ => exact absurd positive (by simp [Pages.unbooted])
    | .space .kernel, isKernel =>
      subst isKernel
      exact ⟨rfl, covers⟩
    | .space (.proc p), isSpace => exact absurd (unbooted_unused m d p) isSpace.1
  refine ⟨⟨space.chain, space.nodup, fun p isFree => space.range p (space.within p isFree)⟩,
    ⟨fun inUse => space.pool.used (only inUse).2, fun inUse inUse' => ?_⟩,
    fun inUse => space.range _ (space.mine (only inUse).2),
    fun _ => (by decide : (0 : Word).toNat < KERNBASE),
    ⟨fun _ => rfl, fun isOpen => ?_, fun isOpen => ?_⟩⟩
  · exact Prod.ext ((only inUse).1.trans (only inUse').1.symm)
      (space.pool.apart (only inUse).2 (only inUse').2)
  · cases isOpen
  · cases isOpen

theorem userPages_spec {init : List UInt8} {kpgdir : Nat}
    (held : Held layout (unbooted m kpgdir) none free) : (userPages layout init).Ensures m
      (fun result m' => ∃ free', Held layout (booted m' kpgdir result.1 result.2) none free' ∧
        free.length ≤ free'.length + 68)
      (fun _ => free.length ≤ 68 ∨ PGSIZE ≤ init.length) := by
  unfold userPages
  refine (kalloc_spec (held.arena fun _ => False)).bind ?_ (by simp)
  rintro result m' (⟨rfl, rfl, rfl⟩ | ⟨kstack, rest, rfl, rfl, rfl⟩)
  · exact .inl (by simp)
  have started := held.newStack ((Ptable.userinit kstack 0).setState initproc .embryo) initproc
    (fun q other => by simp [unbooted, Ptable.userinit, Ptable.setState, other])
    (by simp [Ptable.setState]) (by simp [Ptable.userinit, Ptable.setState])
  refine (setupkvm_spec (started.arena (· = .space .building))).bind ?_ (by simp)
  rintro result m' ⟨-, ⟨rfl, -, short⟩ | ⟨pgdir, free', rfl, -, space, budget, -, -, -, empty⟩⟩
  · refine .inl ?_
    rw [List.length_cons]
    omega
  refine (inituvm_spec space (empty 0 (by decide))).bind ?_ ?_
  · rintro - m'' ⟨free'', after, budget'⟩
    have built := started.built after
    refine ⟨free'', built.exchange initproc rfl
      (fun holder root notBuilding notProcess isRoot => ?_)
      (fun root isRoot => ?_) (by simp) (fun p => ?_) rfl, ?_⟩
    · by_cases isStack : holder = .stack initproc
      · subst isStack
        obtain ⟨-, stack⟩ := isRoot
        exact ⟨by simp [Ptable.setState], stack⟩
      · refine (isRoot.of_building notBuilding).of_others
          (fun q other => ?_) rfl rfl isStack notProcess
        simp [booted, Ptable.userinit, Ptable.setState, other]
    · obtain ⟨-, -, directory⟩ := isRoot
      simpa [booted, Ptable.userinit] using directory
    · change (update (fun _ => (0 : Word)) initproc (BitVec.ofNat 32 PGSIZE) p).toNat < KERNBASE
      rw [update_apply]
      split <;> decide
    · rw [List.length_cons]
      omega
  · rintro stop (none | long)
    · refine .inl ?_
      rw [none] at budget
      rw [List.length_cons]
      simp at budget
      omega
    · exact .inr long

variable {vstart vend vstart2 vend2 : Nat} {init : List UInt8}

/-- There is memory for the kernel and the first process. -/
structure Enough (layout : Layout) (vstart vend vstart2 vend2 : Nat)
    (init : List UInt8) : Prop where
  low : ∀ p ∈ pagesBetween vstart vend, InRange layout p
  high : ∀ p ∈ pagesBetween vstart2 vend2, InRange layout p
  tables : 65 ≤ (pagesBetween vstart vend).length
  user : 68 < (pagesBetween vstart2 vend2).length
  short : init.length < PGSIZE

theorem bootPages_spec (nothing : m.freelist = 0)
    (disjoint : ∀ p ∈ pagesBetween vstart vend, p ∉ pagesBetween vstart2 vend2) :
    (bootPages layout vstart vend vstart2 vend2 init).Ensures m
      (fun result m' => ∃ free, Held layout (booted m' result.1 result.2.1 result.2.2) none free ∧
        (pagesBetween vstart2 vend2).length ≤ free.length + 68)
      (fun _ => ¬Enough layout vstart vend vstart2 vend2 init) := by
  unfold bootPages
  by_cases low : ∀ p ∈ pagesBetween vstart vend, InRange layout p
  · have start : Arena layout (· ∈ pagesBetween vstart vend) m.page m [] :=
      ⟨nothing, List.nodup_nil, by simp, low, fun _ _ => rfl⟩
    refine (freerange_spec start fun p member => ⟨member, by simp⟩).bind ?_ (by simp)
    rintro - m₁ ⟨-, arena⟩
    refine (setupkvm_spec arena).bind ?_ (by simp)
    rintro result m₂ ⟨-, ⟨rfl, -, short⟩ | ⟨kpgdir, free₁, rfl, -, space, budget, -⟩⟩
    · intro enough
      have := enough.tables
      rw [List.append_nil, List.length_reverse] at short
      omega
    by_cases high : ∀ p ∈ pagesBetween vstart2 vend2, InRange layout p
    · have wide : Space layout (InRange layout) m.page m₂ kpgdir free₁ :=
        space.widen low fun _ inside => inside
      have freed : (freerange layout vstart2 vend2).Ensures m₂
          (fun _ m' => Space layout (InRange layout) m.page m' kpgdir
            ((pagesBetween vstart2 vend2).reverse ++ free₁)) (fun _ => False) := by
        refine freePages_beside _ wide fun p member => ⟨high p member, fun isFree => ?_,
          fun role owned => ?_⟩
        · exact disjoint p (space.within p isFree) member
        · exact disjoint p (space.mine owned) member
      refine freed.bind ?_ (by simp)
      rintro - m₃ space'
      refine (userPages_spec (Held.unbooted space')).bind ?_ ?_
      · rintro ⟨kstack, pgdir⟩ m₄ ⟨free, held, left⟩
        rw [List.length_append, List.length_reverse] at left
        exact ⟨free, held, by omega⟩
      · rintro - (few | long) enough
        · have := enough.user
          rw [List.length_append, List.length_reverse] at few
          omega
        · exact absurd enough.short (by omega)
    · exact (freerange_inRange vstart2 vend2).bind (fun _ _ inside => absurd inside high)
        fun _ _ enough => high enough.high
  · exact (freerange_inRange vstart vend).bind (fun _ _ inside => absurd inside low)
      fun _ _ enough => low enough.low

theorem exists_bootPages (m : Memory) (nothing : m.freelist = 0)
    (disjoint : ∀ p ∈ pagesBetween vstart vend, p ∉ pagesBetween vstart2 vend2)
    (enough : Enough layout vstart vend vstart2 vend2 init) : ∃ kpgdir kstack pgdir m' free,
      bootPages layout vstart vend vstart2 vend2 init m = .ok ((kpgdir, kstack, pgdir), m') ∧
        Held layout (booted m' kpgdir kstack pgdir) none free ∧
        (pagesBetween vstart2 vend2).length ≤ free.length + 68 := by
  have starts : (bootPages layout vstart vend vstart2 vend2 init).Ensures m _ (fun _ => False) :=
    (bootPages_spec nothing disjoint).mono (fun _ _ result => result) fun _ few => few enough
  obtain ⟨⟨kpgdir, kstack, pgdir⟩, m', returns, free, held, left⟩ := starts.exists_ok
  exact ⟨kpgdir, kstack, pgdir, m', free, returns, held, left⟩

end Boot

/-! ## Every run -/

section Runs

variable {layout : Layout} {s s' : System} {action : Action}

/-- The condition on a step: a program that is executed fits. -/
def Meets (layout : Layout) (s : System) : Action → Prop
  | .exec _ file argv => ∀ free, FreeList layout s.memory free → ExecFits file argv free
  | _ => True

theorem call_spec {free : List Nat} (held : Held layout s none free) (active : Active s action.proc)
    (meets : Meets layout s action) : (action.call layout).Ensures s
      (fun _ s' => ∃ free', Held layout s' none free') (fun _ => True) := by
  cases action with
  | fork p => exact fork_spec held p
  | exec p file argv =>
    exact (exec_spec held active (meets free held.list)).mono (fun _ _ after => after)
      fun _ _ => trivial
  | sbrk p n => exact (sbrk_spec held active n).bind (fun _ _ after => after) fun _ _ => trivial
  | exit p => exact exit_spec held active
  | wait p => exact (wait_spec held).mono (fun _ _ after => after) fun _ _ => trivial
  | pipe p => exact (pipe_spec held).mono (fun _ _ after => after) fun _ _ => trivial
  | close p fd => exact close_spec held fd

theorem step_held (held : ∃ free, Held layout s none free) (meets : Meets layout s action)
    (stepped : step layout s action = some s') : ∃ free, Held layout s' none free := by
  obtain ⟨free, held⟩ := held
  unfold step at stepped
  split at stepped
  next state =>
    have active : Active s action.proc := by
      constructor <;> (intro same; rw [same] at state; simp at state)
    split at stepped
    next after called =>
      cases stepped
      exact (call_spec held active meets).of_ok called
    · cases stepped
  · cases stepped

end Runs

/-! ## Programs that fit and programs that do not -/

section Programs

variable {layout : Layout} {m : Memory} {d : Nat} {free : List Nat}

/-- A machine whose kernel ends at page 0x114, with the memory below 4 MB for `kinit1`. -/
def typicalBoot : VmM (Nat × Nat × Nat) :=
  bootPages typicalLayout (0x114 * PGSIZE) (0x400 * PGSIZE) (0x400 * PGSIZE) PHYSTOP []

theorem typical_disjoint : ∀ p ∈ pagesBetween (0x114 * PGSIZE) (0x400 * PGSIZE),
    p ∉ pagesBetween (0x400 * PGSIZE) PHYSTOP := by
  intro p low high
  rw [mem_pagesBetween] at low high
  unfold PGSIZE at low high
  omega

theorem typical_enough :
    Enough typicalLayout (0x114 * PGSIZE) (0x400 * PGSIZE) (0x400 * PGSIZE) PHYSTOP [] := by
  refine ⟨fun p member => ?_, fun p member => ?_, ?_, ?_, by decide⟩
  · rw [mem_pagesBetween] at member
    unfold PGSIZE at member
    exact ⟨by change 0x114 ≤ p; omega, by change p < 57344; omega⟩
  · rw [mem_pagesBetween] at member
    unfold PGSIZE PHYSTOP at member
    exact ⟨by change 0x114 ≤ p; omega, by change p < 57344; omega⟩
  · rw [pagesBetween, List.length_range']
    decide
  · rw [pagesBetween, List.length_range']
    decide

theorem exists_typicalBoot : ∃ m kpgdir kstack pgdir free,
    typicalBoot .blank = .ok ((kpgdir, kstack, pgdir), m) ∧
      Held typicalLayout (booted m kpgdir kstack pgdir) none free ∧ 69 ≤ free.length := by
  obtain ⟨kpgdir, kstack, pgdir, m, free, returns, held, left⟩ :=
    exists_bootPages Memory.blank rfl typical_disjoint typical_enough
  refine ⟨m, kpgdir, kstack, pgdir, free, returns, held, ?_⟩
  rw [pagesBetween, List.length_range'] at left
  have many : 69 + 68 ≤ PHYSTOP / 4096 - (0x400 * PGSIZE + 4095) / 4096 := by decide
  omega

theorem onePage_execFits (enough : 69 ≤ free.length) : ExecFits onePage shortArgv free := by
  have size : pageCount (extent 0 onePage.segments) = 1 := by
    rw [onePage_segments]
    decide
  refine ⟨onePage_fits (by omega), fun _ => ?_⟩
  rw [size]
  have one : growth 0 1 = 2 := rfl
  have two : growth 1 (1 + 2) = 2 := rfl
  exact shortArgv_lands _ _ (by omega)

theorem booted_active (m : Memory) (kpgdir kstack pgdir : Nat) :
    Active (booted m kpgdir kstack pgdir) initproc := by
  simp [Active, booted, Ptable.userinit]

theorem exec_steps {file : Executable} {argv : Argv} {kpgdir kstack pgdir : Nat}
    (held : Held layout (booted m kpgdir kstack pgdir) none free)
    (fits : ExecFits file argv free) :
    ∃ s, step layout (booted m kpgdir kstack pgdir) (.exec initproc file argv) = some s := by
  have calls : (exec layout initproc file argv).Ensures (booted m kpgdir kstack pgdir)
      (fun _ s' => ∃ free', Held layout s' none free') (fun _ => False) :=
    (exec_spec held (booted_active m kpgdir kstack pgdir) fits).mono (fun _ _ after => after)
      fun _ none => by cases none
  obtain ⟨⟨⟩, s, returns, -⟩ := calls.exists_ok
  refine ⟨s, ?_⟩
  unfold step
  rw [if_pos (by simp [Action.proc, booted, Ptable.userinit])]
  simp only [Action.call, returns]

theorem store_word (page : Page) (w : Word) : page.store 0 (Bytes.toLE 4 w.toNat) 0 = w := by
  have bound := w.isLt
  apply BitVec.eq_of_toNat_eq
  simp only [Page.store, Page.ofBytes, Bytes.length_toLE, toNat_append_byte]
  simp [Bytes.toLE]
  omega

def tableEntry (d : Nat) : Word := addr d ||| PTE_P ||| PTE_W ||| PTE_U

/-- A file with a page of memory, and a segment in the direct mapping of page `d` whose end wraps
around to zero.  The file ends after the four bytes of an entry that names `d`. -/
def takeover (d : Nat) : Executable :=
  .ofSegments [⟨ELF_PROG_LOAD, 0, 0, 0, BitVec.ofNat 32 PGSIZE⟩,
    ⟨ELF_PROG_LOAD, 116, p2v d, BitVec.ofNat 32 PGSIZE, -p2v d⟩] (Bytes.toLE 4 (tableEntry d).toNat)
    (by
      rw [Bytes.length_toLE]
      exact (by decide : 52 + 32 * 2 + 4 ≤ MAXFILE * BSIZE))

theorem takeover_elf (d : Nat) :
    ∃ elf, (takeover d).elf = some elf ∧ elf.phoff = 52 ∧ elf.phnum = 2 :=
  Executable.elf_ofSegments (by simp)

theorem takeover_first (d : Nat) : (takeover d).proghdr 52 =
    some ⟨ELF_PROG_LOAD, 0, 0, 0, BitVec.ofNat 32 PGSIZE⟩ :=
  Executable.proghdr_ofSegments 0 (by simp)

theorem takeover_second (d : Nat) : (takeover d).proghdr (52 + 32) =
    some ⟨ELF_PROG_LOAD, 116, p2v d, BitVec.ofNat 32 PGSIZE, -p2v d⟩ :=
  Executable.proghdr_ofSegments 1 (by simp)

theorem takeover_readi (d : Nat) : (takeover d).readi 116 (BitVec.ofNat 32 PGSIZE) =
    some (Bytes.toLE 4 (tableEntry d).toNat) := by
  have length : (takeover d).content.length = 120 := by
    rw [takeover, Executable.length_ofSegments, Bytes.length_toLE]
    rfl
  have start : (116 : Word).toNat = 116 := rfl
  have count : (BitVec.ofNat 32 PGSIZE).toNat = 4096 := rfl
  rw [Executable.readi_eq, length, start, count, if_neg (by decide)]
  have headers : ∀ (phs : List Proghdr) (data : List UInt8), phs.length = 2 →
      ((Elfhdr.bytes phs.length ++ (phs.flatMap Proghdr.encode ++ data)).drop 116) = data := by
    intro phs data two
    have size : (Elfhdr.bytes phs.length ++ phs.flatMap Proghdr.encode).length = 116 := by
      rw [List.length_append, Elfhdr.length_bytes, List.length_flatMap]
      simp [two]
    rw [← List.append_assoc, List.drop_left' size]
  rw [takeover, Executable.ofSegments]
  dsimp only
  rw [headers _ _ rfl, List.take_of_length_le (by simp)]

section Takeover

variable {own : Nat → Prop} {base : Nat → Page} {pgdir : Nat}

theorem p2v_inRange (inside : InRange layout d) :
    d < 57344 ∧ layout.data ≤ d ∧ (p2v d).toNat = 0x80000000 + d * 4096 := by
  obtain ⟨lower, upper⟩ := inside
  have pages : PHYSTOP / PGSIZE = 57344 := rfl
  have := layout.data_below
  exact ⟨by omega, by omega, toNat_p2v (by omega)⟩

theorem takeover_round (fuel : Nat) (image : Image layout own base none 1 m pgdir free)
    (inside : InRange layout d) :
    (loaduvmLoop layout (takeover d) pgdir (p2v d) 116 (BitVec.ofNat 32 PGSIZE)
        (fuel + 1) 0).Ensures m
      (fun ok m' => ok = false ∧ m'.freelist = m.freelist ∧
        (∀ q, q ≠ d → m'.page q = m.page q) ∧ m'.page d 0 = tableEntry d)
      (fun _ => False) := by
  obtain ⟨upper, lower, start⟩ := p2v_inRange inside
  have pages : PHYSTOP / PGSIZE = 57344 := rfl
  have plain : ∀ w : Word, w + 0 = w := BitVec.add_zero
  have page : pageNumber (p2v d + 0) = KERNPAGE + d := by
    rw [plain, pageNumber, start]
    unfold KERNPAGE
    omega
  have isFrame : kernelFrame (KERNPAGE + d) = some d := by
    unfold kernelFrame
    rw [if_pos (by omega), Nat.add_sub_cancel_left]
  obtain ⟨w, found, -, -, target⟩ := image.kernel.mapped (by omega)
    (show KERNPAGE + d < 2 ^ 20 by unfold KERNPAGE; omega) isFrame
  obtain ⟨t, isTable, entry⟩ := Option.map_eq_some_iff.mp found
  rw [loaduvmLoop, if_pos (by decide), ensures_bind, ensures_walkpgdir, page, isTable]
  simp only [Option.map_some, ensures_bind, ensures_get]
  rw [if_neg (by decide), plain, takeover_readi, entry, target]
  simp only [ensures_bind]
  unfold storeBytes
  rw [if_neg (by simp [Bytes.toLE]), pages, if_neg (by omega), ensures_modify,
    if_neg (by rw [Bytes.length_toLE]; decide), ensures_pure]
  refine ⟨rfl, rfl, fun q other => update_of_ne other .., ?_⟩
  dsimp only
  rw [update_self, store_word]

theorem allocuvm_less (pgdir : Nat) (m : Memory) :
    allocuvm layout pgdir (BitVec.ofNat 32 PGSIZE) 0 m = .ok (BitVec.ofNat 32 PGSIZE, m) := by
  unfold allocuvm
  rw [if_neg (by decide), if_pos (by decide)]
  rfl

attribute [local irreducible] loaduvmLoop allocuvm loadSegment loadLoop freevm setupkvm takeover

theorem takeover_segment (image : Image layout own base none 1 m pgdir free)
    (inside : InRange layout d)
    (room : allocuvm layout pgdir (BitVec.ofNat 32 PGSIZE) 0 m = .ok (BitVec.ofNat 32 PGSIZE, m)) :
    (loadSegment layout (takeover d) pgdir (BitVec.ofNat 32 PGSIZE)
      ⟨ELF_PROG_LOAD, 116, p2v d, BitVec.ofNat 32 PGSIZE, -p2v d⟩).Ensures m
      (fun result m' => result = none ∧ m'.freelist = m.freelist ∧
        (∀ q, q ≠ d → m'.page q = m.page q) ∧ m'.page d 0 = tableEntry d)
      (fun _ => False) := by
  obtain ⟨upper, -, start⟩ := p2v_inRange inside
  have size : (BitVec.ofNat 32 PGSIZE).toNat = 4096 := rfl
  have zero : p2v d + -p2v d = 0 := by
    rw [← BitVec.sub_eq_add_neg, BitVec.sub_self]
    rfl
  have ordered : ¬(-p2v d < BitVec.ofNat 32 PGSIZE) := by
    rw [BitVec.lt_def, BitVec.toNat_neg, start, size]
    omega
  have aligned : ¬(p2v d).toNat % PGSIZE ≠ 0 := by
    rw [start]
    unfold PGSIZE
    omega
  unfold loadSegment
  rw [if_neg (by simp), if_neg ordered]
  simp only [zero]
  rw [ensures_bind_of_ok room, if_neg (by decide), ensures_bind]
  unfold loaduvm
  rw [if_neg aligned]
  refine (takeover_round (2 ^ 20 - 1) image inside).mono ?_ (by simp)
  rintro ok m' ⟨rfl, result⟩
  exact ⟨rfl, result⟩

theorem takeover_load (list : FreeList layout m free) (enough : 69 ≤ free.length) (used : d ∉ free)
    (inside : InRange layout d) : (load layout (takeover d)).Ensures m
      (fun result m' => result = none ∧ m'.page d 0 = tableEntry d) (fun _ => False) := by
  obtain ⟨pgdir, m₁, free₁, made, image, lost, left⟩ := setupkvm_enough list enough
  obtain ⟨elf, isElf, phoff, phnum⟩ := takeover_elf d
  obtain ⟨m₂, free₂, returns, image₂, -⟩ := allocuvm_first image lost (by omega)
  have room : allocuvm layout pgdir (BitVec.ofNat 32 PGSIZE) 0 m₂ =
      .ok (BitVec.ofNat 32 PGSIZE, m₂) := allocuvm_less _ _
  have modified : (Exec.modify Memory.fresh : VmM Unit) m = .ok ((), m.fresh) := rfl
  have loop : (loadLoop layout (takeover d) pgdir 2 52 0).Ensures m₁
      (fun result m' => result = none ∧ (∃ base', Space layout (· ∈ free) base' m' pgdir free₂ ∧
        base' d 0 = tableEntry d)) (fun _ => False) := by
    rw [loadLoop, takeover_first]
    simp only
    rw [ensures_bind_of_ok (loadSegment_room returns)]
    simp only
    rw [loadLoop, takeover_second]
    simp only [ensures_bind]
    refine (takeover_segment image₂ inside room).mono ?_ (by simp)
    rintro result m₃ ⟨rfl, freelist, others, word⟩
    refine ⟨rfl, _, image₂.toSpace.rebase used freelist others, ?_⟩
    rw [update_self, word]
  unfold load
  rw [ensures_bind_of_ok modified, isElf]
  simp only
  rw [ensures_bind_of_ok made, phoff, phnum]
  refine loop.bind ?_ (by simp)
  rintro result m₃ ⟨rfl, base', space, word⟩
  refine (freevm_spec space).bind ?_ (by simp)
  rintro - m₄ ⟨-, free', arena⟩
  refine ⟨rfl, ?_⟩
  rw [arena.outside d used, word]

end Takeover

/-- The first process executes a file that makes its page directory one of its page tables. -/
theorem takeover_steps {kpgdir kstack pgdir : Nat}
    (held : Held layout (booted m kpgdir kstack pgdir) none free) (enough : 69 ≤ free.length) :
    ∃ m', step layout (booted m kpgdir kstack pgdir) (.exec initproc (takeover pgdir) shortArgv) =
      some (booted m' kpgdir kstack pgdir) ∧ m'.page pgdir 0 = tableEntry pgdir := by
  have root : Uses (booted m kpgdir kstack pgdir) none (.space (.proc initproc), .dir) pgdir :=
    ⟨pgdir,
      ⟨(booted_active m kpgdir kstack pgdir).1, (booted_active m kpgdir kstack pgdir).2, rfl⟩, rfl⟩
  obtain ⟨result, m', returns, rfl, word⟩ :=
    (takeover_load held.list enough (held.pool.used root) (held.range root)).exists_ok
  refine ⟨m', ?_, word⟩
  have calls : exec layout initproc (takeover pgdir) shortArgv (booted m kpgdir kstack pgdir) =
      .ok ((), booted m' kpgdir kstack pgdir) := by
    have loads : (onMemory (load layout (takeover pgdir)) : SysM _) (booted m kpgdir kstack pgdir) =
        .ok (none, booted m' kpgdir kstack pgdir) := by
      unfold onMemory
      rw [returns]
      rfl
    unfold exec
    rw [bind_apply, loads]
    rfl
  unfold step
  rw [if_pos (by simp [Action.proc, booted, Ptable.userinit])]
  simp only [Action.call, calls]

end Programs

/-- From the state after `kinit1` and `kinit2` on disjoint ranges, in every state that is
reached by calls of any processes in which the programs that are executed fit, no page is
free twice, no free page is in use, and no page is in use twice. -/
theorem pages_owned_once (layout : Layout) (vstart vend vstart2 vend2 : Nat) (init : List UInt8)
    (m m' : Memory) (kpgdir kstack pgdir : Nat) (nothing : m.freelist = 0)
    (disjoint : ∀ p ∈ pagesBetween vstart vend, p ∉ pagesBetween vstart2 vend2)
    (boots : bootPages layout vstart vend vstart2 vend2 init m = .ok ((kpgdir, kstack, pgdir), m'))
    (s : System) (reachable : Transition.Reachable (step layout) (Meets layout)
      (booted m' kpgdir kstack pgdir) s) : Safe s := by
  have held : ∃ free, Held layout s none free := by
    refine reachable.invariant (fun s => ∃ free, Held layout s none free) ?_
      fun _ _ _ held meets stepped => step_held held meets stepped
    obtain ⟨free, held, -⟩ := (bootPages_spec nothing disjoint).of_ok boots
    exact ⟨free, held⟩
  obtain ⟨free, held⟩ := held
  exact held.safe

/-- Without the condition on programs, a page directory becomes one of its own page tables. -/
theorem pages_owned_twice : ∃ m kpgdir kstack pgdir s,
    typicalBoot .blank = .ok ((kpgdir, kstack, pgdir), m) ∧
      step typicalLayout (booted m kpgdir kstack pgdir)
        (.exec initproc (takeover pgdir) shortArgv) = some s ∧ ¬Safe s := by
  obtain ⟨m, kpgdir, kstack, pgdir, free, boots, held, enough⟩ := exists_typicalBoot
  obtain ⟨m', stepped, word⟩ := takeover_steps held enough
  refine ⟨m, kpgdir, kstack, pgdir, _, boots, stepped, ?_⟩
  rintro ⟨free', -, -, pool⟩
  have root : Roots (booted m' kpgdir kstack pgdir) none (.space (.proc initproc)) pgdir :=
    ⟨(booted_active m' kpgdir kstack pgdir).1, (booted_active m' kpgdir kstack pgdir).2, rfl⟩
  have wasRoot : Uses (booted m kpgdir kstack pgdir) none (.space (.proc initproc), .dir) pgdir :=
    ⟨pgdir,
      ⟨(booted_active m kpgdir kstack pgdir).1, (booted_active m kpgdir kstack pgdir).2, rfl⟩, rfl⟩
  have small : pgdir < 2 ^ 20 := by
    have upper := (held.range wasRoot).2
    have pages : PHYSTOP / PGSIZE = 57344 := rfl
    omega
  have isTable : table m'.page pgdir 0 = some pgdir := by
    unfold table
    rw [word, tableEntry, if_pos (present_table pgdir), frame_table small]
  have isDir : Uses (booted m' kpgdir kstack pgdir) none (.space (.proc initproc), .dir) pgdir :=
    ⟨pgdir, root, rfl⟩
  have same := pool.apart isDir (show Uses (booted m' kpgdir kstack pgdir) none
    (.space (.proc initproc), .table 0) pgdir from ⟨pgdir, root, by decide, isTable⟩)
  cases same

/-- The theorem at a run in which the first process executes a program. -/
theorem pages_owned_once_exec : ∃ m kpgdir kstack pgdir s,
    typicalBoot .blank = .ok ((kpgdir, kstack, pgdir), m) ∧
      step typicalLayout (booted m kpgdir kstack pgdir) (.exec initproc onePage shortArgv) =
        some s ∧ Safe s := by
  obtain ⟨m, kpgdir, kstack, pgdir, free, boots, held, enough⟩ := exists_typicalBoot
  obtain ⟨s, stepped⟩ := exec_steps held (onePage_execFits enough)
  exact ⟨m, kpgdir, kstack, pgdir, s, boots, stepped,
    pages_owned_once typicalLayout _ _ _ _ _ _ _ _ _ _
    rfl typical_disjoint boots s (.step .initial
      (show Meets typicalLayout _ (.exec initproc onePage shortArgv) from fun free' list => by
        rw [list.unique held.list]
        exact onePage_execFits enough) stepped)⟩

end Xv6.Pages
