import Xv6.Lib.Transition
import Xv6.Vm.Copy
import Xv6.Vm.Load

/-!
# The life of address spaces

Directories are built by `setupkvm` and `copyuvm`, changed by `allocuvm`, `deallocuvm` and
`clearpteu`, and freed by `freevm`, in any order and any number at a time.  However their
steps end, also when a page is lost or a range is not unmapped completely, every directory
keeps its pages to itself, so `freevm` gives back exactly those: the pages of its user half,
its page tables and its own page, each once.
-/

namespace Xv6.Vm

open Exec

structure Spaces where
  memory : Memory
  /-- the page directories that have been built and not been freed -/
  dirs : List Nat

namespace Spaces

inductive Step where
  | setupkvm
  | allocuvm (pgdir : Nat) (oldsz newsz : Word)
  | deallocuvm (pgdir : Nat) (oldsz newsz : Word)
  | clearpteu (pgdir : Nat) (uva : Word)
  | copyuvm (pgdir : Nat) (sz : Word)
  | freevm (pgdir : Nat)

variable (layout : Layout)

def run {α : Type} (s : Spaces) (computation : VmM α) (dirs : α → List Nat) : Option Spaces :=
  match computation s.memory with
  | .ok (value, m) => some ⟨m, dirs value⟩
  | .error _ => none

/-- Steps are taken on directories that are there. -/
def step (s : Spaces) : Step → Option Spaces
  | .setupkvm => s.run (Vm.setupkvm layout) fun built => built.toList ++ s.dirs
  | .allocuvm d oldsz newsz =>
    if d ∈ s.dirs then s.run (Vm.allocuvm layout d oldsz newsz) fun _ => s.dirs else none
  | .deallocuvm d oldsz newsz =>
    if d ∈ s.dirs then s.run (Vm.deallocuvm layout d oldsz newsz) fun _ => s.dirs else none
  | .clearpteu d uva =>
    if d ∈ s.dirs then s.run (Vm.clearpteu d uva) fun _ => s.dirs else none
  | .copyuvm d sz =>
    if d ∈ s.dirs then s.run (Vm.copyuvm layout d sz) fun built => built.toList ++ s.dirs else none
  | .freevm d =>
    if d ∈ s.dirs then s.run (Vm.freevm layout d) fun _ => s.dirs.filter (· ≠ d) else none

/-- The sizes of processes do not reach into the kernel half. -/
def UserSizes (_ : Spaces) : Step → Prop
  | .deallocuvm _ oldsz _ => oldsz ≤ kernbase
  | _ => True

end Spaces

section Clear

variable {layout : Layout} {own : Nat → Prop} {base : Nat → Page} {m : Memory} {d : Nat}
  {free : List Nat}

theorem clearpteu_keeps (space : Space layout own base m d free) (uva : Word) :
    (clearpteu d uva).Ensures m (fun _ m' => Space layout own base m' d free) (fun _ => True) := by
  have small := pageNumber_lt uva
  unfold clearpteu
  rw [ensures_bind, ensures_walkpgdir]
  cases found : table m.page d (pageNumber uva / 1024) with
  | none => trivial
  | some t =>
    simp only [Option.map_some, ensures_bind, ensures_get, ensures_setWord]
    obtain ⟨samePresent, -, sameFrame⟩ := clear_user (m.page t (pageNumber uva % 1024))
    refine space.setWord small found fun _ low isPresent => ?_
    rw [samePresent] at isPresent
    rw [sameFrame]
    have owned : Owns m.page d (.user (pageNumber uva))
        (frame (m.page t (pageNumber uva % 1024))) :=
      ⟨low, _, lookup_of_table found, isPresent, rfl⟩
    exact ⟨space.mine owned, space.pool.used owned,
      fun role isOwned => space.pool.apart isOwned owned⟩

end Clear

namespace Spaces

variable {layout : Layout} {s s' : Spaces} {m' : Memory} {d : Nat} {free free' : List Nat}

/-- Every directory has its pages for itself. -/
structure Inv (layout : Layout) (s : Spaces) (free : List Nat) : Prop where
  freeList : FreeList layout s.memory free
  directory : ∀ d ∈ s.dirs, Directory layout s.memory d free
  apart : ∀ {d d' role role' p}, d ∈ s.dirs → d' ∈ s.dirs → Owns s.memory.page d role p →
    Owns s.memory.page d' role' p → d = d'

theorem run_eq_some {α : Type} {computation : VmM α} {dirs : α → List Nat}
    {good : α → Memory → Prop} {bad : Trap → Prop}
    (ensures : computation.Ensures s.memory good bad) (stepped : s.run computation dirs = some s') :
    ∃ value, good value s'.memory ∧ s'.dirs = dirs value := by
  unfold run at stepped
  split at stepped
  next value m returned =>
    cases stepped
    exact ⟨value, ensures.of_ok returned, rfl⟩
  · cases stepped

namespace Inv

variable (inv : Inv layout s free)

include inv

theorem others {own : Nat → Prop} (arena : Arena layout own s.memory.page m' free')
    (outside : ∀ {role p}, Owns s.memory.page d role p → ¬own p) (among : d ∈ s.dirs) :
    Directory layout m' d free' ∧
      ∀ {role p}, Owns m'.page d role p → Owns s.memory.page d role p := by
  have before : ∀ {role p}, Owns m'.page d role p → Owns s.memory.page d role p := fun owned =>
    owned.of_same fun role p isOwned => arena.outside p (outside isOwned)
  have directory := inv.directory d among
  refine ⟨⟨arena.freeList, ⟨fun owned isFree => ?_, fun owned owned' => ?_⟩,
    fun owned => ?_⟩, before⟩
  · exact outside (before owned) (arena.within _ isFree)
  · exact directory.pool.apart (before owned) (before owned')
  · exact directory.range (before owned)

theorem idle (arena : Arena layout (· ∈ free) s.memory.page m' free') :
    Inv layout ⟨m', s.dirs⟩ free' := by
  have keeps : ∀ {d}, d ∈ s.dirs → Directory layout m' d free' ∧
      ∀ {role p}, Owns m'.page d role p → Owns s.memory.page d role p := fun {d} among =>
    inv.others arena (fun owned => (inv.directory d among).pool.used owned) among
  refine ⟨arena.freeList, fun d among => (keeps among).1,
    fun {d d' role role' p} among among' owned owned' => ?_⟩
  exact inv.apart among among' ((keeps among).2 owned) ((keeps among').2 owned')

theorem built (space : Space layout (· ∈ free) s.memory.page m' d free') :
    Inv layout ⟨m', d :: s.dirs⟩ free' := by
  have rest := inv.idle space.toArena
  have new : Directory layout m' d free' :=
    ⟨space.toArena.freeList, space.pool, fun owned => space.range _ (space.mine owned)⟩
  have distinct : ∀ {d' role role' p}, d' ∈ s.dirs → Owns m'.page d role p →
      ¬Owns m'.page d' role' p := by
    intro d' role role' p among owned owned'
    have before : Owns s.memory.page d' role' p := owned'.of_same fun role p isOwned =>
      space.outside p ((inv.directory d' among).pool.used isOwned)
    exact (inv.directory d' among).pool.used before (space.mine owned)
  refine ⟨rest.freeList, fun d' among => ?_,
    fun {d₁ d₂ role role' p} among among' owned owned' => ?_⟩
  · rcases List.mem_cons.mp among with rfl | among
    · exact new
    · exact rest.directory d' among
  · rcases List.mem_cons.mp among with rfl | earlier <;>
      rcases List.mem_cons.mp among' with rfl | earlier'
    · rfl
    · exact absurd owned' (distinct earlier' owned)
    · exact absurd owned (distinct earlier owned')
    · exact rest.apart earlier earlier' owned owned'

theorem outside {d' : Nat} (among : d ∈ s.dirs) (among' : d' ∈ s.dirs) (different : d' ≠ d)
    {role : Role} {p : Nat} (owned : Owns s.memory.page d' role p) :
    ¬(p ∈ free ∨ ∃ role, Owns s.memory.page d role p) := by
  rintro (isFree | ⟨role', owned'⟩)
  · exact (inv.directory d' among').pool.used owned isFree
  · exact different (inv.apart among' among owned owned')

theorem changed (among : d ∈ s.dirs)
    (space : Space layout (fun p => p ∈ free ∨ ∃ role, Owns s.memory.page d role p)
      s.memory.page m' d free') : Inv layout ⟨m', s.dirs⟩ free' := by
  have keeps : ∀ {d'}, d' ∈ s.dirs → d' ≠ d → Directory layout m' d' free' ∧
      ∀ {role p}, Owns m'.page d' role p → Owns s.memory.page d' role p := fun among' different =>
    inv.others space.toArena (inv.outside among among' different) among'
  have new : Directory layout m' d free' :=
    ⟨space.toArena.freeList, space.pool, fun owned => space.range _ (space.mine owned)⟩
  have distinct : ∀ {d' role role' p}, d' ∈ s.dirs → d' ≠ d → Owns m'.page d' role p →
      ¬Owns m'.page d role' p := fun among' different owned owned' =>
    inv.outside among among' different ((keeps among' different).2 owned) (space.mine owned')
  refine ⟨space.toArena.freeList, fun d' among' => ?_,
    fun {d₁ d₂ role role' p} first second owned owned' => ?_⟩
  · by_cases same : d' = d
    · exact same ▸ new
    · exact (keeps among' same).1
  · by_cases isFirst : d₁ = d <;> by_cases isSecond : d₂ = d
    · rw [isFirst, isSecond]
    · exact absurd (isFirst ▸ owned) (distinct second isSecond owned')
    · exact absurd (isSecond ▸ owned') (distinct first isFirst owned)
    · exact inv.apart first second ((keeps first isFirst).2 owned)
        ((keeps second isSecond).2 owned')

theorem freed (among : d ∈ s.dirs)
    (arena : Arena layout (fun p => p ∈ free ∨ ∃ role, Owns s.memory.page d role p) s.memory.page m'
      free') : Inv layout ⟨m', s.dirs.filter (· ≠ d)⟩ free' := by
  have keeps : ∀ {d'}, d' ∈ s.dirs.filter (· ≠ d) → d' ∈ s.dirs ∧ Directory layout m' d' free' ∧
      ∀ {role p}, Owns m'.page d' role p → Owns s.memory.page d' role p := by
    intro d' among'
    obtain ⟨there, different⟩ := List.mem_filter.mp among'
    exact ⟨there, inv.others arena (inv.outside among there (by simpa using different)) there⟩
  refine ⟨arena.freeList, fun d' among' => (keeps among').2.1,
    fun {d₁ d₂ role role' p} first second owned owned' => ?_⟩
  exact inv.apart (keeps first).1 (keeps second).1 ((keeps first).2.2 owned)
    ((keeps second).2.2 owned')

theorem step {action : Step} (allowed : UserSizes s action)
    (stepped : step layout s action = some s') : ∃ free', Inv layout s' free' := by
  obtain ⟨m', dirs⟩ := s'
  cases action with
  | setupkvm =>
    obtain ⟨result, ⟨-, ⟨rfl, arena, -⟩ | ⟨d, free', rfl, -, space, -⟩⟩, rfl⟩ :=
      run_eq_some (setupkvm_spec inv.freeList.arena) stepped
    · exact ⟨[], inv.idle arena⟩
    · exact ⟨free', inv.built space⟩
  | allocuvm d oldsz newsz =>
    obtain ⟨among, stepped⟩ := Option.ite_none_right_eq_some.mp stepped
    obtain ⟨-, ⟨-, free', space⟩, rfl⟩ :=
      run_eq_some (allocuvm_spec (inv.directory d among).space) stepped
    exact ⟨free', inv.changed among space⟩
  | deallocuvm d oldsz newsz =>
    obtain ⟨among, stepped⟩ := Option.ite_none_right_eq_some.mp stepped
    obtain ⟨-, ⟨-, -, free', space⟩, rfl⟩ :=
      run_eq_some (deallocuvm_spec (inv.directory d among).space allowed) stepped
    exact ⟨free', inv.changed among space⟩
  | clearpteu d uva =>
    obtain ⟨among, stepped⟩ := Option.ite_none_right_eq_some.mp stepped
    obtain ⟨-, space, rfl⟩ :=
      run_eq_some (clearpteu_keeps (inv.directory d among).space uva) stepped
    exact ⟨free, inv.changed among space⟩
  | copyuvm d sz =>
    obtain ⟨among, stepped⟩ := Option.ite_none_right_eq_some.mp stepped
    obtain ⟨result, outcome, rfl⟩ :=
      run_eq_some (copyuvm_cases inv.freeList (inv.directory d among).apart) stepped
    rcases outcome with ⟨rfl, -, arena⟩ | ⟨d', free', rfl, copying⟩ | ⟨rfl, -, free', arena, -⟩ |
      ⟨rfl, -, free', -, arena, -⟩
    · exact ⟨[], inv.idle arena⟩
    · exact ⟨free', inv.built copying.space⟩
    · exact ⟨free', inv.idle arena⟩
    · exact ⟨free', inv.idle arena⟩
  | freevm d =>
    obtain ⟨among, stepped⟩ := Option.ite_none_right_eq_some.mp stepped
    obtain ⟨-, ⟨-, free', arena⟩, rfl⟩ :=
      run_eq_some (freevm_spec (inv.directory d among).space) stepped
    exact ⟨free', inv.freed among arena⟩

end Inv

theorem reachable_inv {m : Memory} (list : FreeList layout m free)
    (reached : Transition.Reachable (step layout) UserSizes ⟨m, []⟩ s) :
    ∃ free', Inv layout s free' := by
  refine reached.invariant (fun s => ∃ free', Inv layout s free') ⟨free, ⟨list, ?_, ?_⟩⟩ ?_
  · exact fun d among => absurd among List.not_mem_nil
  · exact fun among => absurd among List.not_mem_nil
  · rintro before action after ⟨free', inv⟩ allowed stepped
    exact inv.step allowed stepped

/-- Whatever has been done to the address spaces of a system, `freevm` of one of them does not
panic and gives to `kfree` exactly the pages that its user half maps, its page tables and its
own page, each once. -/
theorem freevm_exact {m : Memory} (list : FreeList layout m free)
    (reached : Transition.Reachable (step layout) UserSizes ⟨m, []⟩ s) (built : d ∈ s.dirs) :
    ∃ free, FreeList layout s.memory free ∧ (freevm layout d).Ensures s.memory
      (fun _ m' => ∃ freed, FreeList layout m' (freed ++ free) ∧ ∀ p, p ∈ freed ↔
        (∃ n w, n < KERNPAGE ∧ mapping s.memory.page d n = some w ∧ frame w = p) ∨
          (∃ i, i < 1024 ∧ table s.memory.page d i = some p) ∨ p = d)
      (fun _ => False) := by
  obtain ⟨free, inv⟩ := reachable_inv list reached
  refine ⟨free, inv.freeList, (freevm_released (inv.directory d built).space).mono ?_ (by simp)⟩
  rintro - m' ⟨-, freed, arena, exactly⟩
  refine ⟨freed, arena.freeList, fun p => ?_⟩
  rw [exactly]
  constructor
  · rintro ⟨role, owned⟩
    cases role with
    | dir => exact .inr (.inr owned)
    | table i => exact .inr (.inl ⟨i, owned⟩)
    | user n =>
      obtain ⟨low, w, found, isPresent, page⟩ := owned
      exact .inl ⟨n, w, low, mapping_eq_some.mpr ⟨found, isPresent⟩, page⟩
  · rintro (⟨n, w, low, mapped, page⟩ | ⟨i, isTable⟩ | isDir)
    · obtain ⟨found, isPresent⟩ := mapping_eq_some.mp mapped
      exact ⟨.user n, low, w, found, isPresent, page⟩
    · exact ⟨.table i, isTable⟩
    · exact ⟨.dir, isDir⟩

theorem exists_grown {m : Memory} (list : FreeList layout m free) (fresh : m.fresh = m)
    (enough : 69 ≤ free.length) :
    ∃ s d, Transition.Reachable (step layout) UserSizes ⟨m, []⟩ s ∧ d ∈ s.dirs ∧
      mapping s.memory.page d 0 ≠ none := by
  obtain ⟨d, m₁, free₁, built, image, lost, left⟩ := setupkvm_enough list enough
  obtain ⟨m₂, free₂, grown, image', lost'⟩ := allocuvm_first image lost (by omega)
  rw [fresh] at built
  have first : step layout ⟨m, []⟩ .setupkvm = some ⟨m₁, [d]⟩ := by
    simp only [step, run, built, Option.toList_some, List.append_nil]
  have second : step layout ⟨m₁, [d]⟩ (.allocuvm d 0 (BitVec.ofNat 32 PGSIZE)) =
      some ⟨m₂, [d]⟩ := by
    simp only [step, run, grown, List.mem_singleton, if_true]
  have allowed : UserSizes ⟨m, []⟩ .setupkvm := trivial
  have allowed' : UserSizes ⟨m₁, [d]⟩ (.allocuvm d 0 (BitVec.ofNat 32 PGSIZE)) := trivial
  refine ⟨⟨m₂, [d]⟩, d, .step (.step .initial allowed first) allowed' second, by simp, ?_⟩
  have held : 0 ∉ m₂.lost := by simp [lost']
  obtain ⟨w, found⟩ := Option.ne_none_iff_exists'.mp (image'.covered Nat.zero_lt_one held)
  rcases image'.mapped (by decide) found with ⟨isPresent, -⟩ | ⟨-, gone⟩
  · rw [mapping_eq_some.mpr ⟨found, isPresent⟩]
    exact Option.some_ne_none w
  · exact absurd (gone Nat.zero_lt_one) held

/-- A directory that `setupkvm` has built and `allocuvm` has given a page. -/
theorem freevm_exact_new : ∃ s d,
    Transition.Reachable (step Sample.layout) UserSizes ⟨Sample.memory 0 100, []⟩ s ∧ d ∈ s.dirs ∧
    mapping s.memory.page d 0 ≠ none ∧
      ∃ free, FreeList Sample.layout s.memory free ∧ (freevm Sample.layout d).Ensures s.memory
      (fun _ m' => ∃ freed, FreeList Sample.layout m' (freed ++ free) ∧ ∀ p, p ∈ freed ↔
        (∃ n w, n < KERNPAGE ∧ mapping s.memory.page d n = some w ∧ frame w = p) ∨
          (∃ i, i < 1024 ∧ table s.memory.page d i = some p) ∨ p = d)
      (fun _ => False) := by
  have list : FreeList Sample.layout (Sample.memory 0 100) (List.range' 403 100) :=
    (Sample.directory 0 (by decide)).freeList
  obtain ⟨s, d, reached, built, mapped⟩ :=
    exists_grown list rfl (by rw [List.length_range']; decide)
  exact ⟨s, d, reached, built, mapped, freevm_exact list reached built⟩

end Spaces

end Xv6.Vm
