import Xv6.Proc.Pages
import Xv6.Vm.Copy

/-!
# What a failed construction of an address space leaves behind

`setupkvm` returns 0 when it cannot map the kernel and frees nothing, so unless it found no
page at all, every page it has taken is lost.  `copyuvm` frees the directory it has built, but
not a page that it has taken and could not map.  Which of these happens can be said from the
number of free pages: the kernel half takes 65 pages, and the copy needs a page table before
every 1024th page.  When the copy fails, `fork` gives back the kernel stack and nothing else.
-/

namespace Xv6.Pages

open Exec Vm

/-- The free pages are those that were free before. -/
def SameFree (layout : Layout) (m : Memory) (free : List Nat) : Prop :=
  ∃ free', FreeList layout m free' ∧ ∀ p, p ∈ free' ↔ p ∈ free

/-- There is no page, or there are enough for the kernel half. -/
def Buildable (available : Nat) : Prop := available = 0 ∨ 65 ≤ available

/-- There is no page, or there are enough for the kernel half and they do not run out at a page
table of the copy. -/
def Copyable (page : Nat → Page) (pgdir limit available : Nat) : Prop :=
  available = 0 ∨ 65 ≤ available ∧ ¬CopyStarved page pgdir limit available

/-- Of the pages that were free all are free again if and only if the condition holds. -/
def Returned (layout : Layout) (m : Memory) (free : List Nat) (condition : Prop) : Prop :=
  ∃ free', FreeList layout m free' ∧ (∀ p ∈ free', p ∈ free) ∧
    ((∀ p ∈ free, p ∈ free') ↔ condition)

section Leaks

variable {layout : Layout} {m : Memory} {free rest : List Nat} {pgdir kstack : Nat} {sz : Word}
  {condition : Prop}

theorem Returned.sameFree_iff (kept : Returned layout m free condition) :
    SameFree layout m free ↔ condition := by
  obtain ⟨free', list, fewer, all⟩ := kept
  rw [← all]
  constructor
  · rintro ⟨free'', list', same⟩ p wasFree
    obtain rfl := list'.unique list
    exact (same p).mpr wasFree
  · exact fun back => ⟨free', list, fun p => ⟨fewer p, back p⟩⟩

theorem returned_nil (list : FreeList layout m []) : Returned layout m free (free.length = 0) := by
  refine ⟨[], list, by simp, ?_⟩
  rw [List.length_eq_zero_iff, List.eq_nil_iff_forall_not_mem]
  exact forall_congr' fun p => by simp

theorem Returned.kfree (kept : Returned layout m rest condition)
    (range : layout.last ≤ kstack ∧ kstack < PHYSTOP / PGSIZE) (used : kstack ∉ rest) :
    (kfree layout kstack).Ensures m (fun _ m' => Returned layout m' (kstack :: rest) condition)
      (fun _ => False) := by
  obtain ⟨free', list, fewer, all⟩ := kept
  have notFree : kstack ∉ free' := fun isFree => used (fewer kstack isFree)
  have arena : Arena layout (fun p => p = kstack ∨ p ∈ free') m.page m free' := by
    refine ⟨list.chain, list.nodup, fun _ isFree => .inr isFree, ?_, fun _ _ => rfl⟩
    rintro p (rfl | isFree)
    · exact range
    · exact list.range p isFree
  refine (kfree_spec arena (.inl rfl) notFree).mono ?_ (by simp)
  rintro - m' ⟨after, -, -⟩
  refine ⟨kstack :: free', after.freeList, fun p isFree => ?_, ?_⟩
  · rcases List.mem_cons.mp isFree with rfl | isFree
    · simp
    · exact List.mem_cons_of_mem _ (fewer p isFree)
  · rw [← all]
    constructor
    · intro back p wasFree
      refine (List.mem_cons.mp (back p (List.mem_cons_of_mem _ wasFree))).resolve_left ?_
      rintro rfl
      exact used wasFree
    · intro back p wasFree
      rcases List.mem_cons.mp wasFree with rfl | wasFree
      · simp
      · exact List.mem_cons_of_mem _ (back p wasFree)

theorem setupkvm_returned (list : FreeList layout m free) : (setupkvm layout).Ensures m
    (fun result m' => (result = none → Returned layout m' free (Buildable free.length)) ∧
      (result ≠ none → Buildable free.length))
    (fun _ => False) := by
  refine (setupkvm_spec list.arena).mono ?_ (by simp)
  rintro result m' ⟨-, ⟨rfl, after, short⟩ | ⟨d, free', rfl, -, -, budget, -⟩⟩
  · have exactly : Buildable free.length ↔ free.length = 0 := by
      unfold Buildable
      omega
    rw [exactly]
    exact ⟨fun _ => returned_nil after.freeList, fun some => absurd rfl some⟩
  · exact ⟨fun none => (nomatch none), fun _ => .inr (by omega)⟩

theorem copyuvm_returned (list : FreeList layout m free) (apart : Apart m.page pgdir free) :
    (copyuvm layout pgdir sz).Ensures m
      (fun result m' =>
        (result = none → Returned layout m' free (Copyable m.page pgdir (pages sz) free.length)) ∧
        (result ≠ none → Copyable m.page pgdir (pages sz) free.length))
      (fun _ => Copyable m.page pgdir (pages sz) free.length) := by
  refine (copyuvm_cases list apart).mono ?_ ?_
  · rintro result m' (⟨rfl, short, after⟩ | ⟨d, free', rfl, copying⟩ |
      ⟨rfl, ⟨k, inside, out⟩, free', after, all⟩ |
      ⟨rfl, starved, free', mem, after, wasFree, lost⟩)
    · have exactly : Copyable m.page pgdir (pages sz) free.length ↔ free.length = 0 := by
        refine ⟨fun copyable => ?_, .inl⟩
        rcases copyable with empty | ⟨many, -⟩ <;> omega
      rw [exactly]
      exact ⟨fun _ => returned_nil after.freeList, fun some => absurd rfl some⟩
    · have budget := copying.budget
      refine ⟨fun none => (nomatch none), fun _ => .inr ⟨by omega, ?_⟩⟩
      rintro ⟨q, inside, -, out⟩
      omega
    · refine ⟨fun _ => ⟨free', after.freeList, after.within, ?_⟩, fun some => absurd rfl some⟩
      refine iff_of_true all (.inr ⟨by omega, ?_⟩)
      rintro ⟨q, -, -, out'⟩
      omega
    · refine ⟨fun _ => ⟨free', after.freeList, after.within, ?_⟩, fun some => absurd rfl some⟩
      refine iff_of_false (fun back => lost (back mem wasFree)) ?_
      rintro (zero | ⟨-, enough⟩)
      · obtain ⟨q, -, -, out⟩ := starved
        omega
      · exact enough starved
  · rintro stop ⟨k, absent, -, many⟩
    refine .inr ⟨by omega, ?_⟩
    rintro ⟨q, -, mapped, out⟩
    -- the copy would have come to page `1024 * q` before page `k`
    have before : 1024 * q < k := by
      by_contra after
      exact mapped k (by omega) absent
    omega

theorem fork_returned {s : System} {p np : ProcId} {table : Ptable}
    (list : FreeList layout s.memory (kstack :: rest)) (slot : s.table.allocSlot = some (np, table))
    (directory : (s.table.proc p).pgdir = some pgdir)
    (apart : Apart s.memory.page pgdir (kstack :: rest)) :
    (fork layout p).Ensures s
      (fun _ s' =>
        ((s'.table.proc np).state = .unused → Returned layout s'.memory (kstack :: rest)
          (Copyable s.memory.page pgdir (pages (s.sz p)) rest.length)) ∧
        ((s'.table.proc np).state ≠ .unused →
          Copyable s.memory.page pgdir (pages (s.sz p)) rest.length))
      (fun _ => Copyable s.memory.page pgdir (pages (s.sz p)) rest.length) := by
  have taken := list.arena.tail.freeList
  unfold fork
  rw [ensures_bind, ensures_get, slot]
  simp only [ensures_bind, ensures_onMemory]
  refine (kalloc_spec list.arena).mono ?_ (by simp)
  rintro result m' (⟨-, empty, -⟩ | ⟨kstack', rest', rfl, same, rfl⟩)
  · cases empty
  obtain ⟨rfl, rfl⟩ := List.cons.inj same
  simp only [ensures_bind, ensures_setTable, directory, ensures_onMemory]
  refine (copyuvm_returned taken fun role q owned isFree =>
    apart role q owned (List.mem_cons_of_mem _ isFree)).mono ?_ fun _ stopped => stopped
  rintro result m' ⟨failed, succeeded⟩
  cases result with
  | none =>
    simp only [ensures_bind, ensures_onMemory, ensures_setTable]
    refine ((failed rfl).kfree (list.range kstack (by simp)) list.arena.head_not_mem).mono
      ?_ (by simp)
    rintro - m'' kept
    refine ⟨fun _ => kept, fun used => absurd ?_ used⟩
    simp [Ptable.copyProcess, Ptable.set]
  | some d =>
    simp only [ensures_bind, ensures_setSize]
    refine Ensures.always.mono ?_ fun _ _ => succeeded (by simp)
    rintro - s' -
    rw [ensures_setTable]
    refine ⟨fun unused => ?_, fun _ => succeeded (by simp)⟩
    simp [Ptable.setState, Ptable.set] at unused

theorem iff_of_returned {σ α : Type} {computation : Exec Trap σ α} {state : σ}
    {failed : α → σ → Prop} (memory : σ → Memory)
    (kept : computation.Ensures state
      (fun value next => (failed value next → Returned layout (memory next) free condition) ∧
        (¬failed value next → condition))
      fun _ => condition) :
    computation.Ensures state
      (fun value next => failed value next → SameFree layout (memory next) free)
      (fun _ => True) ↔ condition := by
  refine Ensures.iff_of_decides_returned (kept.mono ?_ fun _ holds => holds)
  rintro value next ⟨after, otherwise⟩
  by_cases isFailed : failed value next
  · have same := (after isFailed).sameFree_iff
    by_cases holds : condition
    · exact .inl ⟨holds, fun _ => same.mpr holds⟩
    · exact .inr ⟨holds, fun sameFree => holds (same.mp (sameFree isFailed))⟩
  · exact .inl ⟨otherwise isFailed, fun hasFailed => absurd hasFailed isFailed⟩

/-- If the address space of a process cannot be built, the free pages are those that were free
before if and only if there were none, or enough for the kernel half and not exactly as many as
make the copy run out of pages at a page table. -/
theorem construction_leaks_nothing_iff (list : FreeList layout m free) :
    ((setupkvm layout).Ensures m (fun result m' => result = none → SameFree layout m' free)
      (fun _ => True) ↔ Buildable free.length) ∧
    (∀ pgdir sz, Apart m.page pgdir free →
      ((copyuvm layout pgdir sz).Ensures m
        (fun result m' => result = none → SameFree layout m' free)
        (fun _ => True) ↔ Copyable m.page pgdir (pages sz) free.length)) ∧
    ∀ (s : System) p np table pgdir, s.memory = m → s.table.allocSlot = some (np, table) →
      (s.table.proc p).pgdir = some pgdir → Apart m.page pgdir free → free ≠ [] →
      ((fork layout p).Ensures s
        (fun _ s' => (s'.table.proc np).state = .unused → SameFree layout s'.memory free)
        (fun _ => True) ↔ Copyable m.page pgdir (pages (s.sz p)) (free.length - 1)) := by
  refine ⟨?_, fun pgdir sz apart => ?_,
    fun s p np table pgdir isMemory slot directory apart some => ?_⟩
  · exact iff_of_returned (fun m' => m')
      ((setupkvm_returned list).mono (fun _ _ kept => kept) (by simp))
  · exact iff_of_returned (fun m' => m') (copyuvm_returned list apart)
  · subst isMemory
    cases free with
    | nil => exact absurd rfl some
    | cons kstack rest =>
      exact iff_of_returned System.memory (fork_returned list slot directory apart)

/-- With 65 pages free the kernel half of a copy can be built, but there is no page for the one
page of the process: `copyuvm` returns 0, and all 65 pages are free again. -/
theorem construction_leaks_nothing_iff_page :
    FreeList Sample.layout (Sample.memory 0 65) (List.range' 403 65) ∧
    (copyuvm Sample.layout 400 (addr 1)).Ensures (Sample.memory 0 65)
      (fun result m' => result = none ∧ SameFree Sample.layout m' (List.range' 403 65))
      (fun _ => False) := by
  have directory : Directory Sample.layout (Sample.memory 0 65) 400 (List.range' 403 65) :=
    Sample.directory 0 (by decide)
  have first : mapping (Sample.memory 0 65).page 400 0 ≠ none := by simp [Sample.mapping_eq]
  have count : (List.range' 403 65).length = 65 := List.length_range'
  generalize Sample.memory 0 65 = m at directory first ⊢
  have list := directory.freeList
  have one : pages (addr 1) = 1 := rfl
  have fails : (copyuvm Sample.layout 400 (addr 1)).Ensures m (fun result _ => result = none)
      (fun _ => False) := by
    refine (copyuvm_cases list directory.apart).mono ?_ ?_
    · rintro result m' (⟨failed, -⟩ | ⟨d, free', -, copying⟩ | ⟨failed, -⟩ | ⟨failed, -⟩)
      · exact failed
      · have budget := copying.budget
        omega
      · exact failed
      · exact failed
    · rintro stop ⟨k, absent, inside, -⟩
      obtain rfl : k = 0 := by omega
      exact first absent
  have back := ((construction_leaks_nothing_iff list).2.1 400 (addr 1) directory.apart).mpr <|
    .inr ⟨by omega, by rintro ⟨q, -, -, out⟩; omega⟩
  exact ⟨list, (fails.and back).mono (fun _ _ facts => ⟨facts.1, facts.2 facts.1⟩)
    fun _ stopped => stopped.1⟩

/-- With one page free `setupkvm` takes it for the directory, cannot map the kernel, and does
not give it back. -/
theorem setupkvm_leaks : FreeList Sample.layout (Sample.memory 0 1) [403] ∧
    (setupkvm Sample.layout).Ensures (Sample.memory 0 1)
      (fun result m' => result = none ∧ FreeList Sample.layout m' []) (fun _ => False) := by
  have runs : (setupkvm Sample.layout).Ensures (Sample.memory 0 1)
      (fun result m' => result = none ∧ m'.freelist = 0) (fun _ => False) := by decide +kernel
  refine ⟨(Sample.directory 0 (by decide)).freeList, runs.mono ?_ fun _ stopped => stopped⟩
  rintro result m' ⟨failed, empty⟩
  exact ⟨failed, empty, List.nodup_nil, by simp⟩

end Leaks

end Xv6.Pages
