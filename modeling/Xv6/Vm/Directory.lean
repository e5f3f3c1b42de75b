import Xv6.Vm.User

/-!
# What growing and shrinking do to a directory

`mapping` is the entry of a virtual page that is mapped.  `deallocuvm` should take the
mappings of a range away and give every page behind them back once.  `allocuvm` should add
a page of zeros for each page of the range or leave nothing behind.  Both depend on which
page tables are there: where one is absent, `deallocuvm` goes on at the same place of the
next table instead of at its start, and where `allocuvm` needs a new one after the last free
page has been taken, that page is lost.
-/

namespace Xv6.Vm

open Exec

/-- A page directory and the free list.  The directory, its page tables and the pages its user
half maps are pages of the allocator, each of them has one use, and none is free. -/
structure Directory (layout : Layout) (m : Memory) (d : Nat) (free : List Nat) : Prop where
  freeList : FreeList layout m free
  pool : Pool (Owns m.page d) (· ∈ free)
  range : ∀ {role p}, Owns m.page d role p → layout.last ≤ p ∧ p < PHYSTOP / PGSIZE

theorem Directory.space {layout : Layout} {m : Memory} {d : Nat} {free : List Nat}
    (directory : Directory layout m d free) :
    Space layout (fun p => p ∈ free ∨ ∃ role, Owns m.page d role p) m.page m d free where
  chain := directory.freeList.chain
  nodup := directory.freeList.nodup
  within _ isFree := .inl isFree
  range p := by
    rintro (isFree | ⟨role, owned⟩)
    · exact directory.freeList.range p isFree
    · exact directory.range owned
  outside _ _ := rfl
  pool := directory.pool
  mine owned := .inr ⟨_, owned⟩

theorem Arena.freeList {layout : Layout} {own : Nat → Prop} {base : Nat → Page} {m : Memory}
    {free : List Nat} (arena : Arena layout own base m free) : FreeList layout m free :=
  ⟨arena.chain, arena.nodup, fun p isFree => arena.range p (arena.within p isFree)⟩

def mapping (page : Nat → Page) (d n : Nat) : Option Word := (lookup page d n).filter present

section Mapping

variable {page page' : Nat → Page} {d n : Nat} {w : Word}

theorem mapping_eq_some : mapping page d n = some w ↔ lookup page d n = some w ∧ present w = true :=
  Option.filter_eq_some_iff

theorem mapping_eq_none : mapping page d n = none ↔ Blank page d n := by
  rw [mapping, Option.filter_eq_none_iff]
  simp only [Blank, Bool.not_eq_true]

theorem mapping_congr (same : lookup page' d n = lookup page d n) :
    mapping page' d n = mapping page d n := by
  rw [mapping, same, mapping]

theorem mapping_new (absent : lookup page d n = none) (new : lookup page' d n = some 0) :
    mapping page' d n = mapping page d n := by
  rw [mapping, mapping, absent, new]
  rfl

end Mapping

/-! ## A directory with one page table -/

namespace Sample

def layout : Layout := ⟨257, 300, by decide, by decide, by decide⟩

/-- The directory 400 has its one page table, 401, at index `i`.  The first entry of the table
maps page 402, and the next `count` pages are free. -/
def memory (i count : Nat) : Memory where
  page p := if p = 400 then fun j => if j = i then entry (addr 401) (PTE_W ||| PTE_U) else 0
    else if p = 401 then fun j => if j = 0 then entry (addr 402) (PTE_W ||| PTE_U) else 0
    else fun j => if j = 0 ∧ 403 ≤ p ∧ p + 1 < 403 + count then p2v (p + 1) else 0
  freelist := if 0 < count then p2v 403 else 0
  grown := []
  lost := []
  stray := []

variable {i count : Nat}

theorem chain (done left : Nat) (total : done + left = count) :
    Chain p2v (fun p => (memory i count).page p 0) 0 (if 0 < left then p2v (403 + done) else 0)
      (List.range' (403 + done) left) := by
  induction left generalizing done with
  | zero => rfl
  | succ left ih =>
    refine ⟨rfl, ?_⟩
    have next : (memory i count).page (403 + done) 0 =
        if 0 < left then p2v (403 + (done + 1)) else 0 := by
      have link : (memory i count).page (403 + done) 0 =
          if 403 + done + 1 < 403 + count then p2v (403 + done + 1) else 0 := by
        simp [memory, show 403 + done ≠ 400 by omega, show 403 + done ≠ 401 by omega]
      rw [link]
      by_cases last : left = 0
      · rw [if_neg (by omega), if_neg (by omega)]
      · rw [if_pos (by omega), if_pos (by omega)]
        rfl
    simp only [next]
    exact ih (done + 1) (by omega)

theorem table_eq (j : Nat) :
    table (memory i count).page 400 j = if j = i then some 401 else none := by
  by_cases here : j = i
  · subst here
    have entryAt : (memory j count).page 400 j = entry (addr 401) (PTE_W ||| PTE_U) := if_pos rfl
    rw [table, entryAt, if_pos rfl]
    rfl
  · simp [table, memory, here]

theorem mapping_eq (n : Nat) : mapping (memory i count).page 400 n =
    if n = 1024 * i then some (entry (addr 402) (PTE_W ||| PTE_U)) else none := by
  rw [mapping, lookup, table_eq]
  by_cases inTable : n / 1024 = i
  · by_cases first : n % 1024 = 0
    · rw [if_pos inTable, if_pos (by omega)]
      simp [memory, first]
    · rw [if_pos inTable, if_neg (by omega)]
      simp [memory, first]
  · rw [if_neg inTable, if_neg (by omega)]
    rfl

theorem owns {role : Role} {p : Nat} (owned : Owns (memory i count).page 400 role p) :
    role = .dir ∧ p = 400 ∨ role = .table i ∧ p = 401 ∨ role = .user (1024 * i) ∧ p = 402 := by
  cases role with
  | dir => exact .inl ⟨rfl, owned⟩
  | table j =>
    obtain ⟨-, found⟩ := owned
    rw [table_eq] at found
    split at found
    next here =>
      exact .inr (.inl ⟨by rw [here], (Option.some.inj found).symm⟩)
    · cases found
  | user n =>
    obtain ⟨-, w, found, isPresent, rfl⟩ := owned
    have mapped : mapping (memory i count).page 400 n = some w :=
      mapping_eq_some.mpr ⟨found, isPresent⟩
    rw [mapping_eq] at mapped
    split at mapped
    next here =>
      cases mapped
      exact .inr (.inr ⟨by rw [here], by decide⟩)
    · cases mapped

theorem directory (i : Nat) (few : count ≤ 1000) :
    Directory layout (memory i count) 400 (List.range' 403 count) where
  freeList := by
    refine ⟨chain 0 count (Nat.zero_add count), List.nodup_range', fun p member => ?_⟩
    have : PHYSTOP / PGSIZE = 57344 := rfl
    rw [List.mem_range'_1] at member
    exact ⟨show 300 ≤ p by omega, by omega⟩
  pool := {
    used := by
      intro role p owned
      rcases owns owned with ⟨-, rfl⟩ | ⟨-, rfl⟩ | ⟨-, rfl⟩ <;>
        simp only [List.mem_range'_1] <;> omega
    apart := by
      intro role role' p owned owned'
      rcases owns owned with ⟨rfl, rfl⟩ | ⟨rfl, rfl⟩ | ⟨rfl, rfl⟩ <;>
        rcases owns owned' with ⟨rfl, same⟩ | ⟨rfl, same⟩ | ⟨rfl, same⟩ <;>
        first | rfl | exact absurd same (by decide) }
  range := by
    intro role p owned
    rcases owns owned with ⟨-, rfl⟩ | ⟨-, rfl⟩ | ⟨-, rfl⟩ <;> decide

end Sample

/-! ## Shrinking -/

/-- The pages from `k` to `l` have been unmapped, each page that was mapped there has been given
to `kfree` once, and the rest of the directory is as before. -/
structure Unmapped (layout : Layout) (m m' : Memory) (d k l : Nat) (free : List Nat) : Prop where
  gone : ∀ n, k ≤ n → n < l → mapping m'.page d n = none
  others : ∀ n, n < 2 ^ 20 → n < k ∨ l ≤ n → mapping m'.page d n = mapping m.page d n
  given : ∃ freed, FreeList layout m' (freed ++ free) ∧
    ∀ p, p ∈ freed ↔ ∃ n w, k ≤ n ∧ n < l ∧ mapping m.page d n = some w ∧ frame w = p

section Shrink

variable {layout : Layout} {m m' : Memory} {d k l : Nat} {free freed : List Nat}
  {oldsz newsz : Word}

theorem Released.unmapped (released : Released m m' d k l freed) (high : l ≤ KERNPAGE)
    (list : FreeList layout m' (freed ++ free))
    (skipped : ∀ n, k ≤ n → n < l → Skips m.page d k n → mapping m.page d n = none) :
    Unmapped layout m m' d k l free := by
  have frees : ∀ {n}, Frees m.page d k l n ↔ k ≤ n ∧ n < l ∧ ¬Blank m.page d n := by
    intro n
    refine ⟨fun ⟨lower, upper, _, mapped⟩ => ⟨lower, upper, mapped⟩, fun ⟨lower, upper, mapped⟩ =>
      ⟨lower, upper, fun skips => mapped ?_, mapped⟩⟩
    exact mapping_eq_none.mp (skipped n lower upper skips)
  unfold KERNPAGE at high
  refine ⟨fun n lower upper => ?_, fun n small out => ?_, freed, list, fun p => ?_⟩
  · rw [mapping_eq_none]
    by_cases skips : Skips m.page d k n
    · refine (released.cleared high).blank (by omega) ?_
      exact mapping_eq_none.mp (skipped n lower upper skips)
    · exact released.blank_of_not_skips (by omega) lower upper skips
  · refine mapping_congr (released.same small fun ⟨lower, upper, _⟩ => ?_)
    omega
  · rw [released.freed]
    constructor
    · rintro ⟨n, ⟨lower, upper, -⟩, -, w, found, isPresent, page⟩
      exact ⟨n, w, lower, upper, mapping_eq_some.mpr ⟨found, isPresent⟩, page⟩
    · rintro ⟨n, w, lower, upper, mapped, page⟩
      obtain ⟨found, isPresent⟩ := mapping_eq_some.mp mapped
      refine ⟨n, frees.mpr ⟨lower, upper, fun blank => ?_⟩, by unfold KERNPAGE; omega, w, found,
        isPresent, page⟩
      rw [blank w found] at isPresent
      cases isPresent

/-- `deallocuvm` unmaps the whole range if and only if no page is mapped that its loop passes
over. -/
theorem deallocuvm_unmaps_iff (directory : Directory layout m d free) (order : newsz < oldsz)
    (small : oldsz ≤ kernbase) :
    (deallocuvm layout d oldsz newsz).Ensures m
      (fun result m' => result = newsz ∧ Unmapped layout m m' d (pages newsz) (pages oldsz) free)
      (fun _ => False) ↔
    ∀ n, pages newsz ≤ n → n < pages oldsz → Skips m.page d (pages newsz) n →
      mapping m.page d n = none := by
  have bound : oldsz.toNat ≤ KERNBASE := small
  have high : pages oldsz ≤ KERNPAGE := pages_le_KERNPAGE bound
  refine Ensures.iff_of_decides ((deallocuvm_released directory.space bound).mono ?_ (by simp))
  rintro result m' ⟨value, freed, released, after⟩
  rw [if_neg (by rw [BitVec.lt_def] at order; rw [BitVec.le_def]; omega)] at value
  by_cases condition : ∀ n, pages newsz ≤ n → n < pages oldsz → Skips m.page d (pages newsz) n →
      mapping m.page d n = none
  · exact .inl ⟨condition, value, released.unmapped high after.toArena.freeList condition⟩
  · refine .inr ⟨condition, fun ⟨_, unmapped⟩ => condition fun n lower upper skips => ?_⟩
    unfold KERNPAGE at high
    rw [← mapping_congr (released.same (by omega) fun frees => frees.2.2.1 skips)]
    exact unmapped.gone n lower upper

/-- The only page is unmapped. -/
theorem deallocuvm_unmaps_iff_page :
    (deallocuvm Sample.layout 400 (addr 1) 0).Ensures (Sample.memory 0 1)
      (fun result m' => result = 0 ∧
        Unmapped Sample.layout (Sample.memory 0 1) m' 400 (pages 0) (pages (addr 1)) [403])
      (fun _ => False) :=
  (deallocuvm_unmaps_iff (Sample.directory 0 (by decide)) (by decide) (by decide)).mpr
    fun _ _ _ skips => absurd skips (not_skips_of_aligned rfl)

/-- The page at 4 MB has a page table and the page at 4096 has none.  From there the loop goes
on at 4 MB + 4096. -/
theorem deallocuvm_skips : Directory Sample.layout (Sample.memory 1 1) 400 [403] ∧
    (deallocuvm Sample.layout 400 (addr 1025) (addr 1)).Ensures (Sample.memory 1 1)
      (fun result m' => result = addr 1 ∧
        mapping m'.page 400 1024 = some (entry (addr 402) (PTE_W ||| PTE_U)))
      (fun _ => False) :=
  ⟨Sample.directory 1 (by decide), by decide +kernel⟩

end Shrink

/-! ## Growing -/

/-- The pages from `k` to `l` have been mapped to pages of zeros of their own, taken from the
free list, and the rest of the directory is as before. -/
structure Extended (layout : Layout) (m m' : Memory) (d k l : Nat) (free : List Nat) : Prop where
  added : ∃ free', FreeList layout m' free' ∧ ∀ n, k ≤ n → n < l → ∃ p,
    mapping m'.page d n = some (entry (addr p) (PTE_W ||| PTE_U)) ∧ m'.page p = zeroPage ∧
      p ∈ free ∧ p ∉ free' ∧
        ∀ n' w, n' < KERNPAGE → mapping m'.page d n' = some w → frame w = p → n' = n
  others : ∀ n, n < 2 ^ 20 → n < k ∨ l ≤ n → mapping m'.page d n = mapping m.page d n

/-- Nothing is mapped from `k` on, and every page that was free is free again or is a page table
of the directory. -/
structure Undone (layout : Layout) (m' : Memory) (d k : Nat) (free : List Nat) : Prop where
  blank : ∀ n, k ≤ n → n < KERNPAGE → mapping m'.page d n = none
  back : ∃ free', FreeList layout m' free' ∧
    ∀ p ∈ free, p ∈ free' ∨ ∃ i, i < 1024 ∧ table m'.page d i = some p

section Grow

variable {layout : Layout} {own : Nat → Prop} {base : Nat → Page} {m₀ m m' : Memory}
  {d k₀ k l mem : Nat} {free₀ free rest freed : List Nat} {oldsz newsz : Word}

/-- The pages from `k₀` to `k` have been mapped; `frames` says where the pages come from and
`accounted` where those that were free have gone. -/
structure Filling (m₀ m : Memory) (d k₀ k : Nat) (free₀ free : List Nat) : Prop extends
    Growing m₀ m d k₀ k free₀.length free where
  frames : ∀ n, k₀ ≤ n → n < k → ∃ p ∈ free₀,
    lookup m.page d n = some (entry (addr p) (PTE_W ||| PTE_U))
  others : ∀ n, n < 2 ^ 20 → n < k₀ ∨ k ≤ n → mapping m.page d n = mapping m₀.page d n
  taken : ∀ p ∈ free, p ∈ free₀
  accounted : ∀ p ∈ free₀, p ∈ free ∨ (∃ i, i < 1024 ∧ table m.page d i = some p) ∨
    ∃ n, k₀ ≤ n ∧ n < k ∧ Owns m.page d (.user n) p

theorem Filling.init (m : Memory) (d k : Nat) (free : List Nat) : Filling m m d k k free free where
  toGrowing := Growing.init m d k free
  frames n lower upper := absurd upper (by omega)
  others _ _ _ := rfl
  taken _ isFree := isFree
  accounted _ isFree := .inl isFree

theorem Filling.next {free' : List Nat} (filling : Filling m₀ m d k₀ k free₀ (mem :: rest))
    (low : k < KERNPAGE) (small : mem < 2 ^ 20) (blank : Blank m.page d k)
    (mapped : Mapped m.page m'.page d k (entry (addr mem) (PTE_W ||| PTE_U)) rest free')
    (new : content m'.page d k = some zeroPage)
    (same : ∀ n, n < KERNPAGE → n ≠ k → content m'.page d n = content m.page d n) :
    Filling m₀ m' d k₀ (k + 1) free₀ free' where
  toGrowing := filling.toGrowing.next mapped new same
  frames n lower upper := by
    by_cases last : n = k
    · subst last
      exact ⟨mem, filling.taken mem (by simp), mapped.self⟩
    · obtain ⟨p, isFree, entry⟩ := filling.frames n lower (by omega)
      unfold KERNPAGE at low
      exact ⟨p, isFree, mapped.keeps entry (by omega) last⟩
  others n inside out := by
    rw [← filling.others n inside (by omega)]
    rcases mapped.other inside (by have := filling.order; omega) with kept | ⟨-, absent, zero⟩
    · exact mapping_congr kept
    · exact mapping_new absent zero
  taken p isFree := by
    refine filling.taken p (List.mem_cons_of_mem _ ?_)
    rcases mapped.used with ⟨rfl, -⟩ | ⟨t, rfl, -⟩
    · exact isFree
    · exact List.mem_cons_of_mem _ isFree
  accounted p isFree := by
    unfold KERNPAGE at low
    -- tables and user pages stay, the first free page is mapped, the next may be a table
    have tableKept : ∀ i, i < 1024 → table m.page d i = some p → table m'.page d i = some p := by
      intro i _ found
      by_cases here : i = k / 1024
      · subst here
        rcases mapped.used with ⟨-, kept⟩ | ⟨t, -, absent, -⟩
        · rw [kept, found]
        · rw [absent] at found
          cases found
      · rw [mapped.table_other here, found]
    rcases filling.accounted p isFree with
      isHead | ⟨i, index, found⟩ | ⟨n, lower, upper, low', w, found, facts⟩
    · rcases List.mem_cons.mp isHead with rfl | isRest
      · refine .inr
          (.inr ⟨k, filling.order, by omega, by unfold KERNPAGE; omega, _, mapped.self, ?_⟩)
        exact ⟨by simp, frame_entry_addr small (by decide)⟩
      · rcases mapped.used with ⟨rfl, -⟩ | ⟨t, rfl, -, new⟩
        · exact .inl isRest
        · rcases List.mem_cons.mp isRest with rfl | isRest
          · exact .inr (.inl ⟨k / 1024, by omega, new⟩)
          · exact .inl isRest
    · exact .inr (.inl ⟨i, index, tableKept i index found⟩)
    · exact .inr
        (.inr ⟨n, lower, by omega, low', w, mapped.keeps found (by omega) (by omega), facts⟩)

/-- The state of the loop at page `k`: every page so far has been added, or the one before has
been taken and could not be mapped. -/
def Stage (m₀ : Memory) (d k₀ : Nat) (free₀ : List Nat) (k : Nat) (m : Memory) (free : List Nat) :
    Prop :=
  Filling m₀ m d k₀ k free₀ free ∨
    free = [] ∧ ∃ last mem, k = last + 1 ∧ table m.page d (last / 1024) = none ∧
      Filling m₀ m d k₀ last free₀ [mem] ∧ ∀ role, ¬Owns m.page d role mem

theorem Filling.blank (filling : Filling m₀ m d k₀ k free₀ free) (low : k < KERNPAGE)
    (blank : Blank m₀.page d k) : Blank m.page d k := by
  unfold KERNPAGE at low
  rw [← mapping_eq_none, filling.others k (by omega) (.inr le_rfl), mapping_eq_none]
  exact blank

theorem Filling.round (space : Space layout own base m d (mem :: rest))
    (filling : Filling m₀ m d k₀ k free₀ (mem :: rest)) (low : k < KERNPAGE)
    (blank : Blank m₀.page d k) :
    (growPage d mem (addr k)).Ensures { m with freelist := m.page mem 0 }
      (fun _ m' => ∃ free', Space layout own base m' d free' ∧ Stage m₀ d k₀ free₀ (k + 1) m' free')
      (fun _ => False) := by
  obtain ⟨taken, hand⟩ := space.take
  have blank' : Blank m.page d k := filling.blank low blank
  have small : mem < 2 ^ 20 := by
    have := space.small hand.inside
    omega
  refine ((growPage_content taken hand low blank').and (growPage_spec taken hand low)).mono ?_
    fun _ stopped => stopped.1
  rintro - m' ⟨⟨rfl, absent, after, -, same⟩ | ⟨free', after, mapped, new, others⟩, -, -, outcome⟩
  · rcases outcome with ⟨-, -, -, -, tables, entries⟩ | ⟨-, free', -, mapped⟩
    · have owns : ∀ {role p}, Owns m'.page d role p → Owns m.page d role p := fun owned =>
        owned.frame tables entries
      have owns' : ∀ {role p}, Owns m.page d role p → Owns m'.page d role p := fun owned =>
        owned.frame (fun i => (tables i).symm) fun n inside => (entries n inside).symm
      refine ⟨[], after, .inr ⟨rfl, k, mem, rfl, (tables _).trans absent, ?_, fun role owned =>
        hand.unowned role (owns owned)⟩⟩
      refine { order := filling.order, content := ?_, tables := ?_, budget := filling.budget,
               frames := ?_, others := ?_, taken := filling.taken, accounted := ?_ }
      · exact fun n low => (same n low).trans (filling.content n low)
      · intro i
        rw [tables i]
        exact filling.tables i
      · intro n lower upper
        unfold KERNPAGE at low
        rw [entries n (by omega)]
        exact filling.frames n lower upper
      · intro n inside out
        exact (mapping_congr (entries n inside)).trans (filling.others n inside out)
      · intro p isFree
        rcases filling.accounted p isFree with isHead | ⟨i, index, found⟩ | ⟨n, lower, upper, owned⟩
        · exact .inl isHead
        · exact .inr (.inl ⟨i, index, (tables i).trans found⟩)
        · exact .inr (.inr ⟨n, lower, upper, owns' owned⟩)
    · -- there was no page for a page table, so none can have been made
      rcases mapped.used with ⟨-, kept⟩ | ⟨t, empty, -⟩
      · have entry := mapped.self
        rw [lookup_eq_none.mpr (kept.trans absent)] at entry
        cases entry
      · cases empty
  · exact ⟨free', after, .inl (filling.next low small blank' mapped new others)⟩

theorem Growing.never_starved {available j : Nat} (growing : Growing m₀ m d k₀ k available free)
    (stuck : free = [] ∨ j ≤ k) : ¬Starved m₀.page d k₀ j available := by
  by_cases before : j ≤ k
  · intro starved
    have budget := growing.budget
    have short := starved.short
    have mono : newTables m₀.page d k₀ j ≤ newTables m₀.page d k₀ k := newTables_mono before
    omega
  · exact growing.not_starved (fun _ => stuck.resolve_right before) (by omega)

theorem Filling.not_skips (filling : Filling m₀ m d k₀ k free₀ free) (some : k₀ < k) {n : Nat} :
    ¬Skips m.page d k₀ n := by
  refine not_skips_of_table fun absent => ((filling.tables _).mp absent).2 ?_
  exact mem_indices.mpr ⟨k₀, ⟨le_rfl, some⟩, rfl⟩

theorem Filling.extended (filling : Filling m₀ m d k₀ l free₀ free)
    (space : Space layout own base m d free) (range : ∀ p ∈ free₀, p < 2 ^ 20)
    (high : l ≤ KERNPAGE) : Extended layout m₀ m d k₀ l free₀ := by
  refine ⟨⟨free, space.toArena.freeList, fun n lower upper => ?_⟩, filling.others⟩
  obtain ⟨p, isFree, found⟩ := filling.frames n lower upper
  have isPresent : present (entry (addr p) (PTE_W ||| PTE_U)) = true := by simp
  have target : frame (entry (addr p) (PTE_W ||| PTE_U)) = p :=
    frame_entry_addr (range p isFree) (by decide)
  have owned : Owns m.page d (.user n) p := ⟨by omega, _, found, isPresent, target⟩
  refine ⟨p, mapping_eq_some.mpr ⟨found, isPresent⟩, ?_, isFree, space.pool.used owned, ?_⟩
  · have zeros := filling.content n (by omega)
    rw [if_pos ⟨lower, upper⟩, content_of_lookup found isPresent, target] at zeros
    exact Option.some.inj zeros
  · rintro n' w low mapped rfl
    obtain ⟨found', isPresent'⟩ := mapping_eq_some.mp mapped
    have role : Role.user n' = .user n := space.pool.apart ⟨low, w, found', isPresent', rfl⟩ owned
    exact Role.user.inj role

theorem Filling.undone (filling : Filling m₀ m d k₀ k free₀ [])
    (released : Released m m' d k₀ l freed) (list : FreeList layout m' freed) (inside : k < l)
    (high : l ≤ KERNPAGE) (blank : ∀ n, k₀ ≤ n → n < KERNPAGE → Blank m₀.page d n) :
    Undone layout m' d k₀ free₀ := by
  unfold KERNPAGE at high blank
  refine ⟨fun n lower low => ?_, freed, list, fun p isFree => ?_⟩
  · unfold KERNPAGE at low
    rw [mapping_eq_none]
    by_cases added : n < k
    · exact released.blank_of_not_skips (by omega) lower (by omega) (filling.not_skips (by omega))
    · refine (released.cleared high).blank (by omega) ?_
      rw [← mapping_eq_none, filling.others n (by omega) (by omega), mapping_eq_none]
      exact blank n lower low
  · rcases filling.accounted p isFree with isHead | ⟨i, index, found⟩ | ⟨n, lower, upper, owned⟩
    · cases isHead
    · exact .inr ⟨i, index, (released.tables i).trans found⟩
    · refine .inl
        ((released.freed p).mpr ⟨n, ⟨lower, by omega, filling.not_skips (by omega), ?_⟩, owned⟩)
      obtain ⟨-, w, found, isPresent, -⟩ := owned
      intro isBlank
      rw [isBlank w found] at isPresent
      cases isPresent

theorem Released.not_undone (released : Released m m' d k₀ l freed)
    (list : FreeList layout m' freed) (wasFree : mem ∈ free₀)
    (unowned : ∀ role, ¬Owns m.page d role mem) : ¬Undone layout m' d k₀ free₀ := by
  rintro ⟨-, free', list', back⟩
  obtain rfl := list'.unique list
  rcases back mem wasFree with isFree | ⟨i, index, found⟩
  · obtain ⟨n, -, owned⟩ := (released.freed mem).mp isFree
    exact unowned _ owned
  · exact unowned (.table i) ⟨index, (released.tables i).symm.trans found⟩

/-- `allocuvm` adds every page of the range or leaves nothing behind if and only if the free
pages do not run out at a page table: after a page has been taken for the user and before one
can be taken for the page table it needs. -/
theorem allocuvm_all_or_nothing_iff (directory : Directory layout m d free)
    (blank : ∀ n, pages oldsz ≤ n → n < KERNPAGE → mapping m.page d n = none)
    (order : oldsz ≤ newsz) (small : newsz < kernbase) :
    (allocuvm layout d oldsz newsz).Ensures m
      (fun result m' =>
        result = newsz ∧ newsz ≠ 0 ∧ Extended layout m m' d (pages oldsz) (pages newsz) free ∨
        result = 0 ∧ Undone layout m' d (pages oldsz) free)
      (fun _ => False) ↔
    ∀ k, pages oldsz < k → k ≤ pages newsz →
      ¬Starved m.page d (pages oldsz) k free.length := by
  have below : newsz.toNat < KERNBASE := small
  have high : pages newsz ≤ KERNPAGE := pages_le_KERNPAGE below.le
  have isBlank : ∀ n, pages oldsz ≤ n → n < KERNPAGE → Blank m.page d n := fun n lower low =>
    mapping_eq_none.mp (blank n lower low)
  have range : ∀ p ∈ free, p < 2 ^ 20 := by
    intro p isFree
    have := (directory.freeList.range p isFree).2
    unfold PHYSTOP PGSIZE at this
    omega
  have nonzero : ∀ {k}, k < pages newsz → newsz ≠ 0 := by
    rintro k inside rfl
    exact absurd inside (by simp [pages])
  refine Ensures.iff_of_decides ((allocuvm_released (fun k m' free' =>
      Space layout _ m.page m' d free' ∧ Stage m d (pages oldsz) free k m' free')
    (fun holds => holds.1) ?_ ⟨directory.space, .inl (Filling.init m d _ free)⟩).mono ?_
    fun _ (stopped : False) => stopped.elim)
  · rintro k m₁ mem rest - low ⟨before, filling | ⟨empty, -⟩⟩
    · exact filling.round before low (isBlank k filling.order low)
    · cases empty
  · rintro result m'
      (⟨rfl, -, -, free', after, filling | ⟨-, last, mem, isLast, absent, filling, -⟩⟩ |
      ⟨-, less, -⟩ | ⟨-, refused, -⟩ |
      ⟨rfl, -, -, k, m₁, freed, inside,
        ⟨-, filling | ⟨-, last, mem, isLast, absent, filling, unowned⟩⟩, released, after⟩)
    · refine .inl ⟨fun k _ upper => filling.never_starved (.inr upper), ?_⟩
      by_cases zero : result = 0
      · refine .inr ⟨zero, fun n lower low => ?_, free', after.toArena.freeList, fun p isFree => ?_⟩
        · have outside : pages result ≤ n := by simp [zero, pages]
          unfold KERNPAGE at low
          rw [filling.others n (by omega) (.inr outside)]
          exact blank n lower low
        · rcases filling.accounted p isFree with isFree | isTable | ⟨n, -, upper, -⟩
          · exact .inl isFree
          · exact .inr isTable
          · exact absurd zero (nonzero upper)
      · exact .inl ⟨rfl, zero, filling.extended after range high⟩
    · have inside : last < pages result := by omega
      refine .inr ⟨fun enough => ?_, ?_⟩
      · have := filling.order
        exact enough (last + 1) (by omega) (by omega) (filling.starved absent)
      · rintro (⟨-, -, ⟨_, -, added⟩, -⟩ | ⟨zero, -⟩)
        · obtain ⟨p, mapped, -⟩ := added last filling.order inside
          have low : last < KERNPAGE := by omega
          rw [mapping_eq_none.mpr (filling.blank low (isBlank last filling.order low))] at mapped
          cases mapped
        · exact nonzero inside zero
    · rw [BitVec.le_def] at order
      omega
    · omega
    · exact .inl ⟨fun k _ upper => filling.never_starved (.inl rfl),
        .inr ⟨rfl, filling.undone released after.toArena.freeList inside high isBlank⟩⟩
    · refine .inr ⟨fun enough => enough (last + 1) ?_ (by omega) (filling.starved absent), ?_⟩
      · have := filling.order
        omega
      · rintro (⟨zero, isNonzero, -⟩ | ⟨-, undone⟩)
        · exact isNonzero zero.symm
        · exact released.not_undone after.toArena.freeList
            (filling.taken mem (by simp)) unowned undone

/-- A second page is added; its page table is there. -/
theorem allocuvm_all_or_nothing_iff_second :
    (allocuvm Sample.layout 400 (addr 1) (addr 2)).Ensures (Sample.memory 0 1)
      (fun result m' =>
        result = addr 2 ∧ addr 2 ≠ 0 ∧
          Extended Sample.layout (Sample.memory 0 1) m' 400 (pages (addr 1))
            (pages (addr 2)) [403] ∨
        result = 0 ∧ Undone Sample.layout m' 400 (pages (addr 1)) [403])
      (fun _ => False) := by
  refine (allocuvm_all_or_nothing_iff (Sample.directory 0 (by decide))
    (fun n lower _ => ?_) (by decide) (by decide)).mpr fun k lower upper starved => ?_
  · rw [Sample.mapping_eq, if_neg]
    have : pages (addr 1) = 1 := rfl
    omega
  · have first : pages (addr 1) = 1 := rfl
    have second : pages (addr 2) = 2 := rfl
    obtain rfl : k = 2 := by omega
    have absent := starved.absent
    rw [Sample.table_eq] at absent
    cases absent

/-- One page is free and the page at 4 MB needs a page table: the page is taken, cannot be
mapped, and the new size is returned. -/
theorem allocuvm_returns_unmapped : Directory Sample.layout (Sample.memory 0 1) 400 [403] ∧
    (∀ n, pages (addr 1024) ≤ n → n < KERNPAGE → mapping (Sample.memory 0 1).page 400 n = none) ∧
    (allocuvm Sample.layout 400 (addr 1024) (addr 1025)).Ensures (Sample.memory 0 1)
      (fun result m' => result = addr 1025 ∧ mapping m'.page 400 1024 = none)
      (fun _ => False) := by
  refine ⟨Sample.directory 0 (by decide), fun n lower _ => ?_, by decide +kernel⟩
  rw [Sample.mapping_eq, if_neg]
  have : pages (addr 1024) = 1024 := rfl
  omega

end Grow

end Xv6.Vm
