import Mathlib.Data.Finset.Card
import Xv6.Vm.Directory

/-!
# Copying an address space

`copyuvm` builds a directory with the mappings of the kernel and copies the user pages of the
parent one by one.  `Copying` says what has been built when the loop comes to page `k`, with
every page that was free accounted for.  Where the loop ends when memory runs out depends on
the number of free pages alone: a page that has been taken for the copy is lost if there is
none left for its page table.
-/

open Function (update update_of_ne)

namespace Xv6.Vm

open Exec

def flags (pte : Word) : Word := pte &&& BitVec.ofNat 32 (PGSIZE - 1)

theorem flags_entry {pa w : Word} (aligned : pa.toNat % PGSIZE = 0) (isPresent : present w = true) :
    flags (entry pa (flags w)) = flags w := by
  have address : pa &&& BitVec.ofNat 32 (PGSIZE - 1) = 0 := by
    apply BitVec.eq_of_toNat_eq
    rw [BitVec.toNat_and]
    exact (Nat.and_two_pow_sub_one_eq_mod pa.toNat 12).trans aligned
  have already : w &&& PTE_P = PTE_P := by
    have value : w &&& PTE_P = if w.getLsbD 0 then PTE_P else 0 := BitVec.and_twoPow w 0
    rw [present_eq_bit] at isPresent
    rw [value, if_pos isPresent]
  apply BitVec.eq_of_getLsbD_eq
  intro i small
  have low := congrArg (·.getLsbD i) address
  have bit := congrArg (·.getLsbD i) already
  simp only [BitVec.getLsbD_and] at low bit
  simp only [flags, entry, BitVec.getLsbD_and, BitVec.getLsbD_or]
  revert low bit
  cases pa.getLsbD i <;> cases w.getLsbD i <;> cases PTE_P.getLsbD i <;> simp

theorem FreeList.length_le {layout : Layout} {m : Memory} {free : List Nat}
    (list : FreeList layout m free) : free.length ≤ 0xE000 := by
  have inside : free.toFinset ⊆ Finset.range 0xE000 := by
    intro p member
    exact Finset.mem_range.mpr (list.range p (List.mem_toFinset.mp member)).2
  have count := Finset.card_le_card inside
  rwa [List.toFinset_card_of_nodup list.nodup, Finset.card_range] at count

/-! ## The kernel half -/

/-- The entry that `kmap` lists for a page of the kernel half. -/
def kernelEntry (layout : Layout) (n : Nat) : Option Word :=
  (kmapLines layout).findSome? fun line =>
    if line.first ≤ n ∧ n < line.first + line.count then
      some (entry (addr (n + line.phys - line.first)) line.perm) else none

theorem mapping_kernel {layout : Layout} {page : Nat → Page} {d n : Nat}
    (half : KernelHalf page d) (listed : ∀ line ∈ kmapLines layout, line.Listed page d)
    (kernel : KERNPAGE ≤ n) (small : n < 2 ^ 20) : mapping page d n = kernelEntry layout n := by
  cases found : kernelEntry layout n with
  | some w =>
    obtain ⟨line, member, value⟩ := List.exists_of_findSome?_eq_some found
    split at value
    next inside =>
      cases value
      exact mapping_eq_some.mpr ⟨listed line member n inside.1 inside.2, by simp⟩
    · cases value
  | none =>
    have outside := List.findSome?_eq_none_iff.mp found
    rcases kmapLines_cover layout kernel small with ⟨line, member, lower, upper, -⟩ | ⟨gap, -⟩
    · have := outside line member
      rw [if_pos ⟨lower, upper⟩] at this
      cases this
    · rw [mapping, half.absent kernel small gap]
      rfl

/-! ## The loop -/

section Copy

variable {layout : Layout} {m₀ m : Memory} {pgdir d k mem : Nat} {free₀ free rest : List Nat}
  {sz w : Word}

/-- The pages below `k` have been copied into `d`. -/
structure Copying (layout : Layout) (m₀ m : Memory) (pgdir d k : Nat) (free₀ free : List Nat) :
    Prop where
  space : Space layout (· ∈ free₀) m₀.page m d free
  copied : ∀ n, n < k → ∃ w p, mapping m₀.page pgdir n = some w ∧ p ∈ free₀ ∧
    mapping m.page d n = some (entry (addr p) (flags w)) ∧ m.page p = m₀.page (frame w)
  rest : ∀ n, k ≤ n → n < KERNPAGE → mapping m.page d n = none
  kernel : ∀ n, KERNPAGE ≤ n → n < 2 ^ 20 → mapping m.page d n = kernelEntry layout n
  tables : ∀ i, i < 512 → (table m.page d i = none ↔ k ≤ 1024 * i)
  budget : free₀.length = free.length + 65 + k + (k + 1023) / 1024
  accounted : ∀ p ∈ free₀, p ∈ free ∨ ∃ role, Owns m.page d role p

def Apart (page : Nat → Page) (pgdir : Nat) (free : List Nat) : Prop :=
  ∀ role p, Owns page pgdir role p → p ∉ free

namespace Copying

variable (copying : Copying layout m₀ m pgdir d k free₀ free)

include copying

theorem low (few : free₀.length ≤ 0xE000) : k < KERNPAGE := by
  have budget := copying.budget
  unfold KERNPAGE
  omega

theorem parent (apart : Apart m₀.page pgdir free₀) {n : Nat} (small : n < 2 ^ 20) :
    table m.page pgdir (n / 1024) = table m₀.page pgdir (n / 1024) ∧
      lookup m.page pgdir n = lookup m₀.page pgdir n := by
  have dir : m.page pgdir = m₀.page pgdir := copying.space.outside pgdir (apart .dir pgdir rfl)
  refine ⟨table_congr dir, lookup_congr dir fun t found => ?_⟩
  exact copying.space.outside t (apart (.table (n / 1024)) t ⟨by omega, found⟩)

theorem plain {n : Nat} (low : n < KERNPAGE) (mapped : mapping m.page d n = some w) :
    Plain m.page d free (frame w) := by
  obtain ⟨found, isPresent⟩ := mapping_eq_some.mp mapped
  exact plain_user copying.space low found isPresent

end Copying

theorem Copying.next {m' : Memory} {free' : List Nat}
    (copying : Copying layout m₀ m pgdir d k free₀ (mem :: rest)) (low : k < KERNPAGE)
    (mapped₀ : mapping m₀.page pgdir k = some w)
    (space : Space layout (· ∈ free₀) m₀.page m' d free')
    (mapped : Mapped m.page m'.page d k (entry (addr mem) (flags w)) rest free')
    (filled : m'.page mem = m₀.page (frame w))
    (kept : ∀ p, p ≠ mem → Plain m.page d (mem :: rest) p → m'.page p = m.page p) :
    Copying layout m₀ m' pgdir d (k + 1) free₀ free' := by
  have wasFree : mem ∈ free₀ := copying.space.within mem (by simp)
  have small : mem < 2 ^ 20 := by
    have := copying.space.small wasFree
    omega
  unfold KERNPAGE at low
  have other : ∀ n, n < 2 ^ 20 → n ≠ k → mapping m'.page d n = mapping m.page d n := by
    intro n inside different
    rcases mapped.other inside different with same | ⟨-, absent, new⟩
    · exact mapping_congr same
    · exact mapping_new absent new
  have drawn := mapped.drawn (by omega)
  have self : mapping m'.page d k = some (entry (addr mem) (flags w)) :=
    mapping_eq_some.mpr ⟨mapped.self, by simp⟩
  refine ⟨space, fun n upper => ?_, fun n lower upper => ?_, fun n kernel inside => ?_,
    fun i index => ?_, ?_, fun p isFree => ?_⟩
  · by_cases last : n = k
    · subst last
      exact ⟨w, mem, mapped₀, wasFree, self, filled⟩
    · obtain ⟨w', p, source, isFree, copy, same⟩ := copying.copied n (by omega)
      refine ⟨w', p, source, isFree, (other n (by omega) last).trans copy, ?_⟩
      have page : frame (entry (addr p) (flags w')) = p := by
        have := copying.space.small isFree
        exact frame_entry_addr (by omega) (flags_lt w')
      have plain := copying.plain (by unfold KERNPAGE; omega) copy
      rw [page] at plain
      rw [kept p (fun isMem => plain.used (by simp [isMem])) plain, same]
  · unfold KERNPAGE at upper
    rw [other n (by omega) (by omega)]
    exact copying.rest n (by omega) upper
  · unfold KERNPAGE at kernel
    rw [other n inside (by omega)]
    exact copying.kernel n kernel inside
  · by_cases here : i = k / 1024
    · subst here
      refine iff_of_false (fun absent => ?_) (by omega)
      have entry := mapped.self
      rw [lookup_eq_none.mpr absent] at entry
      cases entry
    · rw [mapped.table_other here, copying.tables i index]
      omega
  · have budget := copying.budget
    have table := copying.tables (k / 1024) (by omega)
    rw [List.length_cons] at budget
    rcases mapped.used with ⟨rfl, same⟩ | ⟨t, rfl, absent, -⟩
    · have there : ¬k ≤ 1024 * (k / 1024) := by
        rw [← table, ← same]
        intro absent
        have entry := mapped.self
        rw [lookup_eq_none.mpr absent] at entry
        cases entry
      omega
    · have first := table.mp absent
      rw [List.length_cons] at budget
      omega
  · rcases copying.accounted p isFree with isHead | ⟨role, owned⟩
    · rcases List.mem_cons.mp isHead with rfl | isRest
      · refine .inr ⟨.user k, by unfold KERNPAGE; omega, _, mapped.self, by simp, ?_⟩
        exact frame_entry_addr small (flags_lt w)
      · rcases drawn.tables p isRest with stillFree | ⟨i, isTable⟩
        · exact .inl stillFree
        · exact .inr ⟨.table i, isTable⟩
    · refine .inr ⟨role, ?_⟩
      cases role with
      | dir => exact owned
      | table i => exact ⟨owned.1, drawn.kept owned.2⟩
      | user n =>
        obtain ⟨user, w', found, isPresent, page⟩ := owned
        unfold KERNPAGE at user
        have different : n ≠ k := by
          rintro rfl
          have blank := copying.rest n le_rfl (by unfold KERNPAGE; omega)
          rw [mapping_eq_some.mpr ⟨found, isPresent⟩] at blank
          cases blank
        have after := (other n (by omega) different).trans (mapping_eq_some.mpr ⟨found, isPresent⟩)
        obtain ⟨found', -⟩ := mapping_eq_some.mp after
        exact ⟨user, w', found', isPresent, page⟩

/-- The loop has ended without the copy: there was no page left, or one was taken and there was
none for its page table. -/
inductive Stopped (layout : Layout) (m₀ m : Memory) (pgdir d : Nat) (free₀ : List Nat)
    (limit : Nat) : Prop where
  | out (k : Nat) (inside : k < limit) (copying : Copying layout m₀ m pgdir d k free₀ [])
  | lost (q mem : Nat) (inside : 1024 * q < limit)
      (mapped : ∀ n, n ≤ 1024 * q → mapping m₀.page pgdir n ≠ none)
      (budget : free₀.length = 66 + 1025 * q)
      (space : Space layout (· ∈ free₀) m₀.page m d []) (wasFree : mem ∈ free₀)
      (unowned : ∀ role, ¬Owns m.page d role mem)

theorem Copying.round (copying : Copying layout m₀ m pgdir d k free₀ (mem :: rest))
    (apart : Apart m₀.page pgdir free₀) (low : k < KERNPAGE)
    (mapped₀ : mapping m₀.page pgdir k = some w) {limit : Nat} (inside : k < limit) :
    (mappages d (addr k) (BitVec.ofNat 32 PGSIZE) (addr mem) (flags w)).Ensures
      { m with freelist := m.page mem 0, page := update m.page mem (m.page (frame w)) }
      (fun ok m' => (ok = true ∧ ∃ free', Copying layout m₀ m' pgdir d (k + 1) free₀ free') ∨
        ok = false ∧ Stopped layout m₀ m' pgdir d free₀ limit)
      (fun _ => False) := by
  obtain ⟨taken, hand⟩ := copying.space.take
  obtain ⟨found₀, isPresent₀⟩ := mapping_eq_some.mp mapped₀
  have source : m.page (frame w) = m₀.page (frame w) := by
    refine copying.space.outside (frame w) (apart (.user k) (frame w) ?_)
    exact ⟨low, w, found₀, isPresent₀, rfl⟩
  have blank : ∀ w, lookup m.page d k = some w → present w = true → False := by
    intro w found isPresent
    have none := copying.rest k le_rfl low
    rw [mapping_eq_some.mpr ⟨found, isPresent⟩] at none
    cases none
  unfold KERNPAGE at low
  refine ((mapNew_spec taken hand (by unfold KERNPAGE; omega) (m.page (frame w)) (flags_lt w)).and
    (mapNew_kept taken hand (by omega) (m.page (frame w)) (flags w))).mono ?_ ?_
  · rintro ok m'
      ⟨⟨-, ⟨rfl, rfl, absent, after, tables, entries⟩ | ⟨rfl, free', after, mapped⟩⟩, filled, kept⟩
    · -- the table is missing, so page `k` is its first
      have first := (copying.tables (k / 1024) (by omega)).mp absent
      have budget := copying.budget
      rw [List.length_singleton] at budget
      refine .inr ⟨rfl, .lost (k / 1024) mem (by omega) (fun n before => ?_) (by omega) after
        (copying.space.within mem (by simp)) fun role owned => ?_⟩
      · by_cases last : n = k
        · rw [last, mapped₀]
          simp
        · obtain ⟨w', -, mapped', -⟩ := copying.copied n (by omega)
          rw [mapped']
          simp
      · exact hand.unowned role (owned.frame tables entries)
    · refine .inl ⟨rfl, free', copying.next (by unfold KERNPAGE; omega) mapped₀ after mapped
        (filled.trans source) fun p other plain => kept p other ⟨?_, plain.roles⟩⟩
      exact fun isFree => plain.used (List.mem_cons_of_mem _ isFree)
  · rintro stop ⟨⟨-, w, found, isPresent⟩, -⟩
    exact blank w found isPresent

theorem Copying.loop (fuel : Nat) (copying : Copying layout m₀ m pgdir d k free₀ free)
    (list : FreeList layout m₀ free₀) (apart : Apart m₀.page pgdir free₀)
    (start : k ≤ pages sz) (enough : pages sz < k + fuel) :
    (copyuvmLoop pgdir d sz fuel (addr k)).Ensures m
      (fun ok m' => (ok = true ∧ ∃ free', Copying layout m₀ m' pgdir d (pages sz) free₀ free') ∨
        ok = false ∧ Stopped layout m₀ m' pgdir d free₀ (pages sz))
      (fun _ => ∃ k, mapping m₀.page pgdir k = none ∧ k < pages sz ∧
        65 + k + (k + 1023) / 1024 ≤ free₀.length) := by
  induction fuel generalizing m k free with
  | zero => omega
  | succ fuel ih =>
    have low : k < KERNPAGE := copying.low list.length_le
    have page : pageNumber (addr k) = k := pageNumber_addr (by unfold KERNPAGE at low; omega)
    have budget := copying.budget
    unfold copyuvmLoop
    by_cases inside : addr k < sz
    · rw [if_pos inside]
      rw [addr_lt_iff (by unfold KERNPAGE at low; omega)] at inside
      obtain ⟨tables, entries⟩ := copying.parent apart (n := k) (by unfold KERNPAGE at low; omega)
      rw [ensures_bind, ensures_walkpgdir, page]
      cases found : table m.page pgdir (k / 1024) with
      | none =>
        refine ⟨k, ?_, inside, by omega⟩
        rw [mapping, lookup_eq_none.mpr (tables ▸ found)]
        rfl
      | some pgtab =>
        have entry : lookup m₀.page pgdir k = some (m.page pgtab (k % 1024)) := by
          rw [← entries, lookup_of_table found]
        simp only [Option.map_some, ensures_bind, ensures_get]
        split
        next notPresent =>
          refine ⟨k, mapping_eq_none.mpr fun w isEntry => ?_, inside, by omega⟩
          rw [entry] at isEntry
          cases isEntry
          simpa using notPresent
        next isPresent =>
          have mapped₀ : mapping m₀.page pgdir k = some (m.page pgtab (k % 1024)) :=
            mapping_eq_some.mpr ⟨entry, by simpa using isPresent⟩
          rw [ensures_bind]
          refine (kalloc_spec copying.space.toArena).mono ?_ (by simp)
          rintro result m' (⟨rfl, rfl, rfl⟩ | ⟨mem, rest, rfl, rfl, rfl⟩)
          · exact .inr ⟨rfl, .out k inside copying⟩
          · simp only [ensures_bind, ensures_get, ensures_setPage]
            refine (copying.round apart low mapped₀ inside).mono ?_ (by simp)
            rintro ok m' (⟨rfl, free', next⟩ | ⟨rfl, stopped⟩)
            · rw [if_pos rfl, addr_succ]
              exact ih next (by omega) (by omega)
            · exact .inr ⟨rfl, stopped⟩
    · rw [if_neg inside]
      rw [addr_lt_iff (by unfold KERNPAGE at low; omega)] at inside
      obtain rfl : k = pages sz := by omega
      exact .inl ⟨rfl, free, copying⟩

/-! ## `copyuvm` -/

theorem Copying.init (space : Space layout (· ∈ free₀) m₀.page m d free)
    (budget : free₀.length = free.length + 65) (half : KernelHalf m.page d)
    (accounted : ∀ p ∈ free₀, p ∈ free ∨ ∃ role, Owns m.page d role p)
    (listed : ∀ line ∈ kmapLines layout, line.Listed m.page d)
    (empty : ∀ i, i < 512 → table m.page d i = none) :
    Copying layout m₀ m pgdir d 0 free₀ free where
  space := space
  copied n before := absurd before (Nat.not_lt_zero n)
  rest n _ user := by
    unfold KERNPAGE at user
    rw [mapping, lookup_eq_none.mpr (empty (n / 1024) (by omega))]
    rfl
  kernel n kernel small := mapping_kernel half listed kernel small
  tables i index := iff_of_true (empty i index) (Nat.zero_le _)
  budget := budget
  accounted := accounted

/-- The free pages of the parent's system run out at a page table of the copy. -/
def CopyStarved (page : Nat → Page) (pgdir limit available : Nat) : Prop :=
  ∃ q, 1024 * q < limit ∧ (∀ n, n ≤ 1024 * q → mapping page pgdir n ≠ none) ∧
    available = 66 + 1025 * q

/-- The four ways `copyuvm` can end: without the kernel half, with the copy, with everything
given back, or with a page lost. -/
theorem copyuvm_cases (list : FreeList layout m free) (apart : Apart m.page pgdir free) :
    (copyuvm layout pgdir sz).Ensures m
      (fun result m' =>
        (result = none ∧ free.length < 65 ∧ Arena layout (· ∈ free) m.page m' []) ∨
        (∃ d free', result = some d ∧ Copying layout m m' pgdir d (pages sz) free free') ∨
        (result = none ∧ (∃ k, k < pages sz ∧ free.length = 65 + k + (k + 1023) / 1024) ∧
          ∃ free', Arena layout (· ∈ free) m.page m' free' ∧ ∀ p ∈ free, p ∈ free') ∨
        (result = none ∧ CopyStarved m.page pgdir (pages sz) free.length ∧
          ∃ free' mem, Arena layout (· ∈ free) m.page m' free' ∧ mem ∈ free ∧ mem ∉ free'))
      (fun _ => ∃ k, mapping m.page pgdir k = none ∧ k < pages sz ∧
        65 + k + (k + 1023) / 1024 ≤ free.length) := by
  unfold copyuvm
  refine (setupkvm_spec list.arena).bind ?_ (by simp)
  rintro result m' ⟨-, ⟨rfl, after, short⟩ |
    ⟨d, free', rfl, -, space, budget, half, accounted, listed, empty⟩⟩
  · exact .inl ⟨rfl, short, after⟩
  · have bound : pages sz < 2 ^ 20 + 1 := by
      have := sz.isLt
      unfold pages
      omega
    have start : Copying layout m m' pgdir d 0 free free' :=
      Copying.init space budget half accounted listed empty
    refine (start.loop (2 ^ 20 + 1) list apart (Nat.zero_le (pages sz)) (by omega)).bind ?_
      fun _ stopped => stopped
    rintro ok m'' (⟨rfl, free'', copying⟩ | ⟨rfl, ⟨k, inside, copying⟩ |
      ⟨q, mem, inside, mapped, available, space', wasFree, unowned⟩⟩)
    · exact .inr (.inl ⟨d, free'', rfl, copying⟩)
    · refine (freevm_released copying.space).bind ?_ (by simp)
      rintro - m₃ ⟨-, freed, arena, exactly⟩
      rw [List.append_nil] at arena
      have count := copying.budget
      rw [List.length_nil] at count
      refine .inr (.inr (.inl ⟨rfl, ⟨k, inside, by omega⟩, freed, arena, fun p isFree => ?_⟩))
      rw [exactly]
      exact (copying.accounted p isFree).resolve_left List.not_mem_nil
    · refine (freevm_released space').bind ?_ (by simp)
      rintro - m₃ ⟨-, freed, arena, exactly⟩
      rw [List.append_nil] at arena
      refine .inr (.inr (.inr ⟨rfl, ⟨q, inside, mapped, available⟩, freed, mem, arena, wasFree,
        fun isFreed => ?_⟩))
      obtain ⟨role, owned⟩ := (exactly mem).mp isFreed
      exact unowned role owned

end Copy

/-! ## Isolation -/

def writeUser (page : Nat → Page) (d n : Nat) (written : Page) : Nat → Page :=
  match mapping page d n with
  | some w => update page (frame w) written
  | none => page

def writeAll (page : Nat → Page) (writes : List (Nat × Nat × Page)) : Nat → Page :=
  writes.foldl (fun page write => writeUser page write.1 write.2.1 write.2.2) page

/-- Two directories have no page in common, and the user pages of each are none of its tables. -/
structure Isolated (page : Nat → Page) (d d' : Nat) : Prop where
  apart : ∀ {role role' p}, Owns page d role p → ¬Owns page d' role' p
  plain : ∀ {n p role}, Owns page d (.user n) p → Owns page d role p → ∃ n', role = .user n'
  plain' : ∀ {n p role}, Owns page d' (.user n) p → Owns page d' role p → ∃ n', role = .user n'

namespace Isolated

variable {page : Nat → Page} {d d' n : Nat} {written : Page}

theorem symm (isolated : Isolated page d d') : Isolated page d' d where
  apart owned owned' := isolated.apart owned' owned
  plain := isolated.plain'
  plain' := isolated.plain

theorem write_frame (isolated : Isolated page d d') (low : n < KERNPAGE) :
    (∀ role p, Owns (writeUser page d n written) d role p ↔ Owns page d role p) ∧
      (∀ role p, Owns (writeUser page d n written) d' role p ↔ Owns page d' role p) ∧
      ∀ n', n' < KERNPAGE → content (writeUser page d n written) d' n' = content page d' n' := by
  unfold writeUser
  cases mapped : mapping page d n with
  | none => exact ⟨fun _ _ => Iff.rfl, fun _ _ => Iff.rfl, fun _ _ => rfl⟩
  | some w =>
    obtain ⟨found, isPresent⟩ := mapping_eq_some.mp mapped
    have owned : Owns page d (.user n) (frame w) := ⟨low, w, found, isPresent, rfl⟩
    -- neither directory has the written page among its tables
    have stays : ∀ r, (∀ role, Owns page r role (frame w) → ∃ n', role = .user n') →
        (∀ i, table (update page (frame w) written) r i = table page r i) ∧
        ∀ n', n' < 2 ^ 20 → lookup (update page (frame w) written) r n' = lookup page r n' := by
      intro r onlyUser
      have notDir : r ≠ frame w := by
        rintro rfl
        obtain ⟨n', role⟩ := onlyUser .dir rfl
        cases role
      have dir : update page (frame w) written r = page r :=
        update_of_ne notDir ..
      refine ⟨fun i => table_congr dir, fun n' small => lookup_congr dir fun t isTable => ?_⟩
      refine update_of_ne ?_ ..
      rintro rfl
      obtain ⟨n', role⟩ := onlyUser (.table (n' / 1024)) ⟨by omega, isTable⟩
      cases role
    have frame_iff : ∀ r, (∀ i, table (update page (frame w) written) r i = table page r i) ∧
        (∀ n', n' < 2 ^ 20 → lookup (update page (frame w) written) r n' = lookup page r n') →
        ∀ role p, Owns (update page (frame w) written) r role p ↔ Owns page r role p :=
      fun r ⟨tables, entries⟩ role p => ⟨fun isOwned => isOwned.frame tables entries,
        fun isOwned => isOwned.frame (fun i => (tables i).symm)
          fun n small => (entries n small).symm⟩
    have ours := stays d fun role isOwned => isolated.plain owned isOwned
    have theirs := stays d' fun role isOwned => absurd isOwned (isolated.apart owned)
    refine ⟨frame_iff d ours, frame_iff d' theirs, fun n' low' => ?_⟩
    refine content_congr (theirs.2 n' (by unfold KERNPAGE at low'; omega))
      fun w' found' isPresent' => ?_
    refine update_of_ne ?_ ..
    intro same
    have theirs : Owns page d' (.user n') _ := ⟨low', w', found', isPresent', same⟩
    exact isolated.apart owned theirs

theorem write (isolated : Isolated page d d') (low : n < KERNPAGE) :
    Isolated (writeUser page d n written) d d' := by
  obtain ⟨ours, theirs, -⟩ : _ ∧ (∀ role p, Owns (writeUser page d n written) d' role p ↔ _) ∧ _ :=
    isolated.write_frame low
  refine ⟨fun {role role' p} => ?_, fun {n p role} => ?_, fun {n p role} => ?_⟩
  · rw [ours, theirs]
    exact isolated.apart
  · rw [ours, ours]
    exact isolated.plain
  · rw [theirs, theirs]
    exact isolated.plain'

theorem writeAll (writes : List (Nat × Nat × Page)) (isolated : Isolated page d d')
    (user : ∀ write ∈ writes, (write.1 = d ∨ write.1 = d') ∧ write.2.1 < KERNPAGE) :
    Isolated (writeAll page writes) d d' := by
  induction writes generalizing page with
  | nil => exact isolated
  | cons write rest ih =>
    obtain ⟨through, low⟩ := user write (by simp)
    obtain ⟨r, n, written⟩ := write
    refine ih ?_ fun write' member => user write' (by simp [member])
    rcases through with rfl | rfl
    · exact isolated.write low
    · exact (isolated.symm.write low).symm

end Isolated

/-! ## Copies -/

/-- `d` is a copy of the user half of `pgdir` below `sz`, in pages that were free. -/
structure Copied (layout : Layout) (m m' : Memory) (pgdir d : Nat) (sz : Word) (free : List Nat) :
    Prop where
  copy : ∀ n, n < pages sz → ∃ w w', mapping m.page pgdir n = some w ∧
    mapping m'.page d n = some w' ∧ flags w' = flags w ∧ m'.page (frame w') = m.page (frame w)
  exactly : ∀ n, pages sz ≤ n → n < KERNPAGE → mapping m'.page d n = none
  distinct : ∀ n n' w w', n < KERNPAGE → n' < KERNPAGE → mapping m'.page d n = some w →
    mapping m'.page d n' = some w' → frame w = frame w' → n = n'
  fresh : ∀ n w, n < KERNPAGE → mapping m'.page d n = some w →
    frame w ∈ free ∧ ∀ role, ¬Owns m.page pgdir role (frame w)
  kernel : ∀ m₂ free₂, FreeList layout m₂ free₂ → (setupkvm layout).Ensures m₂
    (fun result m₂' => ∀ d₂, result = some d₂ → ∀ n, KERNPAGE ≤ n → n < 2 ^ 20 →
      mapping m'.page d n = mapping m₂'.page d₂ n)
    (fun _ => False)
  parent : ∀ p, p ∉ free → m'.page p = m.page p
  isolated : ∀ writes : List (Nat × Nat × Page),
    (∀ write ∈ writes, (write.1 = pgdir ∨ write.1 = d) ∧ write.2.1 < KERNPAGE) →
    ∀ n n' written, n < KERNPAGE → n' < KERNPAGE →
      content (writeUser (writeAll m'.page writes) d n written) pgdir n' =
        content (writeAll m'.page writes) pgdir n' ∧
      content (writeUser (writeAll m'.page writes) pgdir n written) d n' =
        content (writeAll m'.page writes) d n'

section Copies

variable {layout : Layout} {m m' : Memory} {pgdir d : Nat} {free free' : List Nat} {sz : Word}

theorem Directory.apart (directory : Directory layout m pgdir free) : Apart m.page pgdir free :=
  fun _ _ owned => directory.pool.used owned

theorem Copying.isolated {k : Nat} (copying : Copying layout m m' pgdir d k free free')
    (directory : Directory layout m pgdir free) : Isolated m'.page pgdir d := by
  have parent : ∀ {role p}, Owns m'.page pgdir role p → Owns m.page pgdir role p := by
    intro role p owned
    refine owned.frame (fun i => ?_) fun n small => (copying.parent directory.apart small).2
    exact table_congr (copying.space.outside pgdir (directory.apart .dir pgdir rfl))
  refine ⟨fun owned owned' => ?_, fun user owned => ?_, fun user owned => ?_⟩
  · exact directory.apart _ _ (parent owned) (copying.space.mine owned')
  · exact ⟨_, directory.pool.apart (parent owned) (parent user)⟩
  · exact ⟨_, copying.space.pool.apart owned user⟩

theorem Copying.done (copying : Copying layout m m' pgdir d (pages sz) free free')
    (directory : Directory layout m pgdir free) : Copied layout m m' pgdir d sz free where
  copy n inside := by
    obtain ⟨w, p, source, isFree, copy, same⟩ := copying.copied n inside
    have page : frame (entry (addr p) (flags w)) = p := by
      have := copying.space.small isFree
      exact frame_entry_addr (by omega) (flags_lt w)
    refine ⟨w, _, source, copy, ?_, by rw [page, same]⟩
    exact flags_entry (addr_aligned p) (mapping_eq_some.mp source).2
  exactly := copying.rest
  distinct n n' w w' low low' mapped mapped' same := by
    obtain ⟨found, isPresent⟩ := mapping_eq_some.mp mapped
    obtain ⟨found', isPresent'⟩ := mapping_eq_some.mp mapped'
    have role : Role.user n = .user n' := copying.space.pool.apart ⟨low, w, found, isPresent, rfl⟩
      ⟨low', w', found', isPresent', same.symm⟩
    exact Role.user.inj role
  fresh n w low mapped := by
    obtain ⟨found, isPresent⟩ := mapping_eq_some.mp mapped
    have owned : Owns m'.page d (.user n) (frame w) := ⟨low, w, found, isPresent, rfl⟩
    have isFree : frame w ∈ free := copying.space.mine owned
    exact ⟨isFree, fun role owned => directory.apart role _ owned isFree⟩
  kernel m₂ free₂ list₂ := by
    refine (setupkvm_spec list₂.arena).mono ?_ (by simp)
    rintro result m₂' ⟨-, ⟨rfl, -⟩ | ⟨d₂, free₂', rfl, -, -, -, half, -, listed, -⟩⟩ d₃ isResult n
      kernel small
    · cases isResult
    · cases isResult
      rw [copying.kernel n kernel small, mapping_kernel half listed kernel small]
  parent p used := copying.space.outside p used
  isolated writes user n n' written low low' := by
    have isolated := (copying.isolated directory).writeAll writes user
    exact ⟨(isolated.symm.write_frame low).2.2 n' low', (isolated.write_frame low).2.2 n' low'⟩

/-- Where the parent has all its pages, `copyuvm` does not panic, and what it returns is an
exact copy that shares nothing with the parent. -/
theorem copyuvm_copies (directory : Directory layout m pgdir free)
    (present : ∀ n, n < pages sz → mapping m.page pgdir n ≠ none) :
    (copyuvm layout pgdir sz).Ensures m
      (fun result m' => ∀ d, result = some d → Copied layout m m' pgdir d sz free)
      (fun _ => False) := by
  refine (copyuvm_cases directory.freeList directory.apart).mono ?_ ?_
  · rintro result m' (⟨rfl, -⟩ | ⟨d, free', rfl, copying⟩ | ⟨rfl, -⟩ | ⟨rfl, -⟩) d' isResult
    · cases isResult
    · cases isResult
      exact copying.done directory
    · cases isResult
    · cases isResult
  · rintro stop ⟨k, absent, inside, -⟩
    exact present k inside absent

/-- A process of one page, with a hundred pages free. -/
theorem copyuvm_copies_page : ∃ d m',
    copyuvm Sample.layout 400 (addr 1) (Sample.memory 0 100) = .ok (some d, m') ∧
      Copied Sample.layout (Sample.memory 0 100) m' 400 d (addr 1) (List.range' 403 100) := by
  have directory : Directory Sample.layout (Sample.memory 0 100) 400 (List.range' 403 100) :=
    Sample.directory 0 (by decide)
  have one : pages (addr 1) = 1 := rfl
  have present : ∀ n, n < pages (addr 1) → mapping (Sample.memory 0 100).page 400 n ≠ none := by
    intro n inside
    rw [Sample.mapping_eq, if_pos (by omega)]
    simp
  generalize Sample.memory 0 100 = m at directory present ⊢
  have outcomes : (copyuvm Sample.layout 400 (addr 1)).Ensures m _ _ :=
    copyuvm_cases directory.freeList directory.apart
  have both := (copyuvm_copies directory present).and outcomes
  rw [List.length_range', one] at both
  obtain ⟨result, m', returns, copied, outcome⟩ :=
    (both.mono (fun _ _ returned => returned) fun _ stopped => stopped.1).exists_ok
  rcases outcome with ⟨-, few, -⟩ | ⟨d, free', rfl, -⟩ | ⟨-, ⟨k, inside, out⟩, -⟩ |
    ⟨-, ⟨q, inside, -, out⟩, -⟩
  · omega
  · exact ⟨d, m', returns, copied d rfl⟩
  · omega
  · omega

/-- With enough pages free a copy can be made, and `freevm` of the copy gives back exactly the
pages that the copy has taken.  No other page changes on the way. -/
theorem freevm_undoes_copyuvm (directory : Directory layout m pgdir free)
    (present : ∀ n, n < pages sz → mapping m.page pgdir n ≠ none)
    (enough : 65 + pages sz + (pages sz + 1023) / 1024 ≤ free.length) :
    ∃ d m' m'' free', copyuvm layout pgdir sz m = .ok (some d, m') ∧
      freevm layout d m' = .ok ((), m'') ∧ FreeList layout m'' free' ∧ free'.Perm free ∧
      ∀ p, p ∉ free → m''.page p = m.page p := by
  obtain ⟨result, m', returns, outcome⟩ :=
    ((copyuvm_cases directory.freeList directory.apart).mono (fun _ _ => id)
      fun _ ⟨n, absent, inside, _⟩ => present n inside absent).exists_ok
  rcases outcome with ⟨-, few, -⟩ | ⟨d, free', rfl, copying⟩ | ⟨-, ⟨k, inside, out⟩, -⟩ |
    ⟨-, ⟨q, inside, -, out⟩, -⟩
  · omega
  · obtain ⟨_, m'', freed, -, list, arena, exactly⟩ := (freevm_released copying.space).exists_ok
    refine ⟨d, m', m'', list ++ free', returns, freed, arena.freeList, ?_, arena.outside⟩
    refine (List.perm_ext_iff_of_nodup arena.nodup directory.freeList.nodup).mpr fun p => ?_
    rw [List.mem_append, exactly, or_comm]
    refine ⟨fun now => ?_, copying.accounted p⟩
    rcases now with isFree | ⟨role, owned⟩
    · exact copying.space.within p isFree
    · exact copying.space.mine owned
  · omega
  · omega

/-- A process of one page. -/
theorem freevm_undoes_copyuvm_page : ∃ d m' m'' free',
    copyuvm Sample.layout 400 (addr 1) (Sample.memory 0 100) = .ok (some d, m') ∧
      freevm Sample.layout d m' = .ok ((), m'') ∧ FreeList Sample.layout m'' free' ∧
      free'.Perm (List.range' 403 100) ∧
      ∀ p, p ∉ List.range' 403 100 → m''.page p = (Sample.memory 0 100).page p := by
  refine freevm_undoes_copyuvm (Sample.directory 0 (by decide)) ?_ (by decide)
  intro n inside
  have one : pages (addr 1) = 1 := rfl
  rw [Sample.mapping_eq, if_pos (by omega)]
  simp

end Copies

end Xv6.Vm
