import Xv6.Lib.Pool
import Xv6.Vm.Arena

/-!
# Address spaces

What a page directory maps, read off the words in memory: `table` is the page
table for a directory index and `lookup` the entry for a virtual page.  Virtual
pages are counted from zero; the kernel half starts at `KERNPAGE`.

A directory owns its own page, its page tables, and the pages its user half maps.
`Space` says that no page has two of these roles and none is free.  Entries of
the kernel half own nothing, and neither do those of the user half where only the
tables matter (`SpaceIn false`).
-/

open Function (update update_of_ne update_self)

namespace Xv6.Vm

open Exec

/-- The first virtual page of the kernel, `KERNBASE / PGSIZE`. -/
abbrev KERNPAGE : Nat := 0x80000

def pageNumber (va : Word) : Nat := va.toNat / 4096

theorem pageNumber_lt (va : Word) : pageNumber va < 2 ^ 20 := by
  have := va.isLt
  unfold pageNumber
  omega

theorem PDX_eq (va : Word) : PDX va = pageNumber va / 1024 := by
  unfold PDX pageNumber
  omega

theorem PTX_eq (va : Word) : PTX va = pageNumber va % 1024 := rfl

def table (page : Nat → Page) (d i : Nat) : Option Nat :=
  if present (page d i) then some (frame (page d i)) else none

def lookup (page : Nat → Page) (d n : Nat) : Option Word :=
  (table page d (n / 1024)).map fun t => page t (n % 1024)

section Lookup

variable {page page' : Nat → Page} {d t i n n' : Nat} {w : Word}

theorem lookup_of_table (found : table page d (n / 1024) = some t) :
    lookup page d n = some (page t (n % 1024)) := by
  rw [lookup, found, Option.map_some]

theorem lookup_eq_none : lookup page d n = none ↔ table page d (n / 1024) = none := by
  rw [lookup, Option.map_eq_none_iff]

theorem table_congr (same : page' d = page d) : table page' d i = table page d i := by
  unfold table
  rw [same]

theorem lookup_congr (same : page' d = page d)
    (tables : ∀ t, table page d (n / 1024) = some t → page' t = page t) :
    lookup page' d n = lookup page d n := by
  cases found : table page d (n / 1024) with
  | none => rw [lookup_eq_none.mpr found, lookup_eq_none, table_congr same, found]
  | some t =>
    have found' : table page' d (n / 1024) = some t := by rw [table_congr same, found]
    rw [lookup_of_table found, lookup_of_table found', tables t found]

theorem lookup_setEntry (other : t ≠ d) (found : table page d (n / 1024) = some t)
    (unique : table page d (n' / 1024) = some t → n' / 1024 = n / 1024) :
    lookup (update page t (update (page t) (n % 1024) w)) d n' =
      if n' = n then some w else lookup page d n' := by
  have same : update page t (update (page t) (n % 1024) w) d = page d :=
    update_of_ne (Ne.symm other) ..
  cases found' : table page d (n' / 1024) with
  | none =>
    have different : n' ≠ n := by
      rintro rfl
      simp [found] at found'
    rw [if_neg different, lookup_eq_none.mpr found', lookup_eq_none, table_congr same, found']
  | some t' =>
    have after : table (update page t (update (page t) (n % 1024) w)) d
        (n' / 1024) = some t' := by rw [table_congr same, found']
    rw [lookup_of_table after, lookup_of_table found']
    by_cases sameTable : t' = t
    · subst sameTable
      have index := unique found'
      rw [update_self]
      by_cases sameEntry : n' = n
      · subst sameEntry
        simp
      · have : n' % 1024 ≠ n % 1024 := by omega
        rw [if_neg sameEntry, update_of_ne this]
    · have different : n' ≠ n := by
        rintro rfl
        exact sameTable (Option.some.inj (found'.symm.trans found))
      rw [if_neg different, update_of_ne sameTable]

theorem table_setTable (isPresent : present w = true) :
    table (update page d (update (page d) i w)) d n =
      if n = i then some (frame w) else table page d n := by
  unfold table
  rw [update_self]
  by_cases same : n = i
  · subst same
    simp [isPresent]
  · rw [update_of_ne same, if_neg same]

end Lookup

/-- What a directory uses a page for. -/
inductive Role where
  | dir
  | table (i : Nat)
  | user (n : Nat)
  deriving DecidableEq

def OwnsIn (users : Bool) (page : Nat → Page) (d : Nat) : Role → Nat → Prop
  | .dir, p => p = d
  | .table i, p => i < 1024 ∧ table page d i = some p
  | .user n, p =>
    match users with
    | true => n < KERNPAGE ∧ ∃ w, lookup page d n = some w ∧ present w = true ∧ frame w = p
    | false => False

abbrev Owns := OwnsIn true

theorem OwnsIn.frame {users : Bool} {page page' : Nat → Page} {d p : Nat} {role : Role}
    (tables : ∀ i, table page' d i = table page d i)
    (entries : ∀ n, n < 2 ^ 20 → lookup page' d n = lookup page d n)
    (owned : OwnsIn users page' d role p) : OwnsIn users page d role p := by
  cases role with
  | dir => exact owned
  | table i => exact ⟨owned.1, (tables i).symm.trans owned.2⟩
  | user n =>
    cases users with
    | false => exact owned.elim
    | true =>
      obtain ⟨low, w, found, facts⟩ := owned
      unfold KERNPAGE at low
      exact ⟨low, w, (entries n (by omega)).symm.trans found, facts⟩

theorem OwnsIn.of_same {users : Bool} {page page' : Nat → Page} {d p : Nat} {role : Role}
    (same : ∀ role p, OwnsIn users page d role p → page' p = page p)
    (owned : OwnsIn users page' d role p) : OwnsIn users page d role p := by
  have dir : page' d = page d := same .dir d rfl
  exact owned.frame (fun i => table_congr dir) fun n small =>
    lookup_congr dir fun t found => same (.table (n / 1024)) t ⟨by omega, found⟩

structure SpaceIn (users : Bool) (layout : Layout) (own : Nat → Prop) (base : Nat → Page)
    (m : Memory) (d : Nat) (free : List Nat) : Prop extends Arena layout own base m free where
  pool : Pool (OwnsIn users m.page d) (· ∈ free)
  mine : ∀ {role p}, OwnsIn users m.page d role p → own p

abbrev Space := SpaceIn true

namespace SpaceIn

variable {users : Bool} {layout : Layout} {own : Nat → Prop} {base : Nat → Page} {m m' : Memory}
  {d t i n n' : Nat} {free rest : List Nat} {w : Word}

theorem widen {own' : Nat → Prop} (space : SpaceIn users layout own base m d free)
    (more : ∀ p, own p → own' p)
    (range : ∀ p, own' p → layout.last ≤ p ∧ p < PHYSTOP / PGSIZE) :
    SpaceIn users layout own' base m d free where
  chain := space.chain
  nodup := space.nodup
  within p isFree := more p (space.within p isFree)
  range := range
  outside p out := space.outside p fun inside => out (more p inside)
  pool := space.pool
  mine owned := more _ (space.mine owned)

theorem rebase (space : SpaceIn users layout own base m d free) {p : Nat} (outside : ¬own p)
    (freelist : m'.freelist = m.freelist) (others : ∀ q, q ≠ p → m'.page q = m.page q) :
    SpaceIn users layout own (update base p (m'.page p)) m' d free where
  chain := by
    rw [freelist]
    refine space.chain.frame fun q isFree => ?_
    rw [others q fun same => outside (same ▸ space.within q isFree)]
  nodup := space.nodup
  within := space.within
  range := space.range
  outside q out := by
    by_cases same : q = p
    · rw [same, update_self]
    · rw [update_of_ne same, others q same, space.outside q out]
  pool := space.pool.mono (fun _ _ owned => owned.of_same fun _ q isOwned =>
    others q fun same => outside (same ▸ space.mine isOwned)) fun _ isFree => isFree
  mine owned := space.mine (owned.of_same fun _ q isOwned =>
    others q fun same => outside (same ▸ space.mine isOwned))

section Facts

variable (space : SpaceIn users layout own base m d free)

include space

theorem dir_own : own d := space.mine (show OwnsIn users m.page d .dir d from rfl)

theorem dir_not_free : d ∉ free := space.pool.used (show OwnsIn users m.page d .dir d from rfl)

theorem table_own (small : i < 1024) (found : table m.page d i = some t) : own t :=
  space.mine (show OwnsIn users m.page d (.table i) t from ⟨small, found⟩)

theorem table_not_free (small : i < 1024) (found : table m.page d i = some t) : t ∉ free :=
  space.pool.used (show OwnsIn users m.page d (.table i) t from ⟨small, found⟩)

theorem table_ne_dir (small : i < 1024) (found : table m.page d i = some t) : t ≠ d := by
  rintro rfl
  have same : Role.table i = .dir := space.pool.apart ⟨small, found⟩ rfl
  cases same

theorem table_inj {i' : Nat} (small : i < 1024) (found : table m.page d i = some t)
    (small' : i' < 1024) (found' : table m.page d i' = some t) : i' = i := by
  have same : Role.table i' = .table i := space.pool.apart ⟨small', found'⟩ ⟨small, found⟩
  injection same

theorem lookup_setWord (small : n < 2 ^ 20) (found : table m.page d (n / 1024) = some t)
    (small' : n' < 2 ^ 20) :
    lookup (update m.page t (update (m.page t) (n % 1024) w)) d n' =
      if n' = n then some w else lookup m.page d n' :=
  lookup_setEntry (space.table_ne_dir (by omega) found) found fun found' =>
    space.table_inj (by omega) found (by omega) found'

theorem table_setWord (small : n < 2 ^ 20) (found : table m.page d (n / 1024) = some t) :
    table (update m.page t (update (m.page t) (n % 1024) w)) d i =
      table m.page d i :=
  table_congr (update_of_ne (space.table_ne_dir (by omega) found).symm ..)

theorem owns_setWord (small : n < 2 ^ 20) (found : table m.page d (n / 1024) = some t) {role : Role}
    {p : Nat}
    (owned : OwnsIn users (update m.page t (update (m.page t) (n % 1024) w)) d role p) :
    (OwnsIn users m.page d role p ∧ role ≠ .user n) ∨
      (role = .user n ∧ users = true ∧ n < KERNPAGE ∧ present w = true ∧ p = frame w) := by
  cases role with
  | dir => exact .inl ⟨owned, by simp⟩
  | table i =>
    refine .inl ⟨⟨owned.1, ?_⟩, by simp⟩
    rw [← space.table_setWord small found]
    exact owned.2
  | user n' =>
    cases users with
    | false => exact owned.elim
    | true =>
      obtain ⟨low, w', entry, isPresent, page⟩ := owned
      unfold KERNPAGE at low
      rw [space.lookup_setWord small found (by omega)] at entry
      by_cases same : n' = n
      · subst same
        rw [if_pos rfl] at entry
        cases entry
        exact .inr ⟨rfl, rfl, low, isPresent, page.symm⟩
      · rw [if_neg same] at entry
        exact .inl ⟨⟨low, w', entry, isPresent, page⟩, by simpa using same⟩

theorem setWord (small : n < 2 ^ 20) (found : table m.page d (n / 1024) = some t)
    (target : users = true → n < KERNPAGE → present w = true → own (frame w) ∧ frame w ∉ free ∧
      ∀ role, OwnsIn users m.page d role (frame w) → role = .user n) :
    SpaceIn users layout own base { m with
      page := update m.page t (update (m.page t) (n % 1024) w) } d free where
  toArena := by
    refine space.toArena.frame rfl fun p unchanged => update_of_ne ?_ ..
    rintro rfl
    rcases unchanged with isFree | out
    · exact space.table_not_free (by omega) found isFree
    · exact out (space.table_own (by omega) found)
  pool := by
    refine ⟨fun owned => ?_, fun owned owned' => ?_⟩
    · rcases space.owns_setWord small found owned with
        ⟨before, -⟩ | ⟨-, counted, low, isPresent, rfl⟩
      · exact space.pool.used before
      · exact (target counted low isPresent).2.1
    · rcases space.owns_setWord small found owned with
        ⟨before, -⟩ | ⟨rfl, counted, low, isPresent, rfl⟩
      · rcases space.owns_setWord small found owned' with
          ⟨before', -⟩ | ⟨rfl, counted, low, isPresent, rfl⟩
        · exact space.pool.apart before before'
        · exact (target counted low isPresent).2.2 _ before
      · rcases space.owns_setWord small found owned' with ⟨before', -⟩ | ⟨rfl, -, -, -⟩
        · exact ((target counted low isPresent).2.2 _ before').symm
        · rfl
  mine owned := by
    rcases space.owns_setWord small found owned with ⟨before, -⟩ | ⟨-, counted, low, isPresent, rfl⟩
    · exact space.mine before
    · exact (target counted low isPresent).1

end Facts

section NewTable

/-- Memory with the page `t` cleared and entered in the directory as a page table. -/
def withTable (page : Nat → Page) (d i t : Nat) : Nat → Page :=
  update (update page t fun _ => 0) d
    (update (update page t (fun _ => 0) d) i (addr t ||| PTE_P ||| PTE_W ||| PTE_U))

variable (space : SpaceIn users layout own base m d (t :: rest))

include space

theorem new_ne_dir : t ≠ d := by
  rintro rfl
  exact space.dir_not_free (by simp)

theorem new_small : t < 2 ^ 20 := by
  have := space.small (space.within t (by simp))
  omega

theorem table_withTable : table (withTable m.page d i t) d n =
    if n = i then some t else table m.page d n := by
  unfold withTable
  rw [table_setTable (present_table t), frame_table space.new_small,
    table_congr (update_of_ne space.new_ne_dir.symm ..)]

theorem lookup_withTable (small : n < 2 ^ 20) : lookup (withTable m.page d i t) d n =
    if n / 1024 = i then some 0 else lookup m.page d n := by
  have found := space.table_withTable (i := i) (n := n / 1024)
  by_cases same : n / 1024 = i
  · rw [if_pos same] at found ⊢
    rw [lookup_of_table found, withTable, update_of_ne space.new_ne_dir,
      update_self]
  · rw [if_neg same] at found ⊢
    cases before : table m.page d (n / 1024) with
    | none => rw [lookup_eq_none.mpr before, lookup_eq_none, found, before]
    | some t' =>
      have other : t' ≠ t := by
        rintro rfl
        exact space.table_not_free (by omega) before (by simp)
      rw [lookup_of_table before, lookup_of_table (found.trans before), withTable,
        update_of_ne (space.table_ne_dir (by omega) before),
        update_of_ne other]

theorem owns_withTable {role : Role} {p : Nat}
    (owned : OwnsIn users (withTable m.page d i t) d role p) :
    OwnsIn users m.page d role p ∨ role = .table i ∧ p = t := by
  cases role with
  | dir => exact .inl owned
  | table i' =>
    obtain ⟨small, found⟩ := owned
    rw [space.table_withTable] at found
    split at found
    next same =>
      exact .inr ⟨by rw [same], (Option.some.inj found).symm⟩
    · exact .inl ⟨small, found⟩
  | user n =>
    cases users with
    | false => exact owned.elim
    | true =>
      obtain ⟨low, w, entry, isPresent, page⟩ := owned
      unfold KERNPAGE at low
      rw [space.lookup_withTable (by omega)] at entry
      split at entry
      · cases entry
        simp at isPresent
      · exact .inl ⟨low, w, entry, isPresent, page⟩

theorem addTable : SpaceIn users layout own base
    { m with freelist := m.page t 0, page := withTable m.page d i t } d rest where
  toArena := by
    refine space.toArena.tail.frame rfl fun p unchanged => ?_
    have notDir : p ≠ d := by
      rintro rfl
      rcases unchanged with isFree | out
      · exact space.dir_not_free (by simp [isFree])
      · exact out space.dir_own
    have notNew : p ≠ t := by
      rintro rfl
      rcases unchanged with isFree | out
      · exact space.head_not_mem isFree
      · exact out (space.within p (by simp))
    change withTable m.page d i t p = m.page p
    rw [withTable, update_of_ne notDir, update_of_ne notNew]
  pool := by
    refine space.pool.take (.table i) (show t ∈ t :: rest by simp)
      (fun role p owned => space.owns_withTable owned) fun p isFree => ⟨by simp [isFree], ?_⟩
    rintro rfl
    exact space.head_not_mem isFree
  mine owned := by
    rcases space.owns_withTable owned with before | ⟨-, rfl⟩
    · exact space.mine before
    · exact space.within _ (by simp)

end NewTable

end SpaceIn

/-! ## Walking and mapping -/

section Walk

variable {users : Bool} {layout : Layout} {own : Nat → Prop} {base : Nat → Page} {m : Memory}
  {d t : Nat} {free : List Nat} {va : Word} {bad : Trap → Prop}

@[simp]
theorem ensures_setWord {page i : Nat} {word : Word} {good : Unit → Memory → Prop} :
    (setWord page i word).Ensures m good bad ↔
      good () { m with
        page := update m.page page (update (m.page page) i word) } := Iff.rfl

@[simp]
theorem ensures_setPage {page : Nat} {content : Page} {good : Unit → Memory → Prop} :
    (setPage page content).Ensures m good bad ↔
      good () { m with page := update m.page page content } := Iff.rfl

theorem ensures_walkpgdir {good : Option (Nat × Nat) → Memory → Prop} :
    (walkpgdir d va false).Ensures m good bad ↔
      good ((table m.page d (pageNumber va / 1024)).map fun t => (t, pageNumber va % 1024)) m := by
  unfold walkpgdir table
  rw [ensures_bind, ensures_get, PDX_eq, PTX_eq]
  split <;> rfl

theorem ensures_walkpgdir_found {alloc : Bool} {good : Option (Nat × Nat) → Memory → Prop}
    (found : table m.page d (pageNumber va / 1024) = some t) :
    (walkpgdir d va alloc).Ensures m good bad ↔ good (some (t, pageNumber va % 1024)) m := by
  unfold table at found
  unfold walkpgdir
  rw [ensures_bind, ensures_get, PDX_eq, PTX_eq]
  split at found
  next isPresent =>
    rw [if_pos isPresent, Option.some.inj found]
    rfl
  · cases found

theorem walkpgdir_alloc_spec (space : SpaceIn users layout own base m d free)
    (absent : table m.page d (pageNumber va / 1024) = none) :
    (walkpgdir d va true).Ensures m
      (fun result m' => (result = none ∧ free = [] ∧ m' = m) ∨
        ∃ t rest, result = some (t, pageNumber va % 1024) ∧ free = t :: rest ∧
          m' = { m with freelist := m.page t 0,
                        page := SpaceIn.withTable m.page d (pageNumber va / 1024) t })
      (fun _ => False) := by
  unfold table at absent
  unfold walkpgdir
  rw [ensures_bind, ensures_get, PDX_eq, PTX_eq]
  split at absent
  · cases absent
  rename_i notPresent
  rw [if_neg notPresent]
  simp only [Bool.not_true, Bool.false_eq_true, if_false]
  refine (kalloc_spec space.toArena).bind ?_ (by simp)
  rintro result m' (⟨rfl, empty, rfl⟩ | ⟨t, rest, rfl, rfl, rfl⟩)
  · exact .inl ⟨rfl, empty, rfl⟩
  · simp only [ensures_bind, ensures_pure, ensures_setPage, ensures_setWord]
    exact .inr ⟨t, rest, rfl, rfl, rfl⟩

/-- Virtual page `n` now has the entry `w`; `free'` is left of the free list. -/
structure Mapped (page page' : Nat → Page) (d n : Nat) (w : Word)
    (free free' : List Nat) : Prop where
  self : lookup page' d n = some w
  other : ∀ {n'}, n' < 2 ^ 20 → n' ≠ n → lookup page' d n' = lookup page d n' ∨
    n' / 1024 = n / 1024 ∧ lookup page d n' = none ∧ lookup page' d n' = some 0
  table_other : ∀ {i}, i ≠ n / 1024 → table page' d i = table page d i
  used : (free' = free ∧ table page' d (n / 1024) = table page d (n / 1024)) ∨
    ∃ t, free = t :: free' ∧ table page d (n / 1024) = none ∧ table page' d (n / 1024) = some t

theorem Mapped.keeps {page page' : Nat → Page} {w w' : Word} {n n' : Nat} {free' : List Nat}
    (mapped : Mapped page page' d n w free free') (found : lookup page d n' = some w')
    (small : n' < 2 ^ 20) (different : n' ≠ n) : lookup page' d n' = some w' := by
  rcases mapped.other small different with kept | ⟨-, absent, -⟩
  · rw [kept, found]
  · rw [absent] at found
    cases found

theorem mapPage_found_spec (space : SpaceIn users layout own base m d free) (perm a pa : Word)
    (found : table m.page d (pageNumber a / 1024) = some t)
    (target : users = true → pageNumber a < KERNPAGE → own (frame (entry pa perm)) ∧
      frame (entry pa perm) ∉ free ∧ ∀ role, ¬OwnsIn users m.page d role (frame (entry pa perm))) :
    (mapPage d perm a pa).Ensures m
      (fun ok m' => ok = true ∧ m'.history = m.history ∧ SpaceIn users layout own base m' d free ∧
        Mapped m.page m'.page d (pageNumber a) (entry pa perm) free free)
      (fun stop => stop = .remap ∧
        ∃ w, lookup m.page d (pageNumber a) = some w ∧ present w = true) := by
  have small := pageNumber_lt a
  unfold mapPage
  rw [ensures_bind, ensures_walkpgdir_found found]
  simp only [ensures_bind, ensures_get]
  split
  next isPresent =>
    exact ⟨rfl, _, lookup_of_table found, isPresent⟩
  · rw [ensures_bind, ensures_setWord, ensures_pure]
    refine ⟨rfl, rfl, space.setWord small found fun counted low _ => ?_, ⟨?_, ?_, ?_, ?_⟩⟩
    · obtain ⟨inside, used, unowned⟩ := target counted low
      exact ⟨inside, used, fun role owned => absurd owned (unowned role)⟩
    · rw [space.lookup_setWord small found small, if_pos rfl]
    · intro n' small' different
      rw [space.lookup_setWord small found small', if_neg different]
      exact .inl rfl
    · exact fun _ => space.table_setWord small found
    · exact .inl ⟨rfl, space.table_setWord small found⟩

theorem mapPage_spec (space : SpaceIn users layout own base m d free) (perm a pa : Word)
    (target : users = true → pageNumber a < KERNPAGE → own (frame (entry pa perm)) ∧
      frame (entry pa perm) ∉ free ∧ ∀ role, ¬OwnsIn users m.page d role (frame (entry pa perm))) :
    (mapPage d perm a pa).Ensures m
      (fun ok m' => m'.history = m.history ∧
        ((ok = false ∧ free = [] ∧ table m.page d (pageNumber a / 1024) = none ∧ m' = m) ∨
          ok = true ∧ ∃ free', SpaceIn users layout own base m' d free' ∧
            Mapped m.page m'.page d (pageNumber a) (entry pa perm) free free'))
      (fun stop => stop = .remap ∧
        ∃ w, lookup m.page d (pageNumber a) = some w ∧ present w = true) := by
  have small := pageNumber_lt a
  cases found : table m.page d (pageNumber a / 1024) with
  | some t =>
    refine (mapPage_found_spec space perm a pa found target).mono ?_ fun _ stopped => stopped
    rintro ok m' ⟨isOk, history, after, mapped⟩
    exact ⟨history, .inr ⟨isOk, free, after, mapped⟩⟩
  | none =>
    unfold mapPage
    refine (walkpgdir_alloc_spec space found).bind ?_ (by simp)
    rintro result m' (⟨rfl, empty, rfl⟩ | ⟨t, rest, rfl, rfl, rfl⟩)
    · exact ⟨rfl, .inl ⟨rfl, empty, rfl, rfl⟩⟩
    · -- the new page table is clear, so the entry is not in use
      have clear : SpaceIn.withTable m.page d (pageNumber a / 1024) t t
          (pageNumber a % 1024) = 0 := by
        rw [SpaceIn.withTable, update_of_ne space.new_ne_dir, update_self]
      have after := space.addTable (i := pageNumber a / 1024)
      have foundAfter : table (SpaceIn.withTable m.page d (pageNumber a / 1024) t) d
          (pageNumber a / 1024) = some t := by
        rw [space.table_withTable, if_pos rfl]
      simp only [ensures_bind, ensures_get, clear]
      rw [if_neg (by decide), ensures_bind, ensures_setWord, ensures_pure]
      refine ⟨rfl, .inr ⟨rfl, rest, after.setWord small foundAfter fun counted low _ => ?_,
        ⟨?_, ?_, ?_, .inr ⟨t, rfl, found, ?_⟩⟩⟩⟩
      · obtain ⟨inside, used, unowned⟩ := target counted low
        refine ⟨inside, fun isFree => used (by simp [isFree]), fun role owned => ?_⟩
        rcases space.owns_withTable owned with before | ⟨-, same⟩
        · exact absurd before (unowned role)
        · exact absurd (by simp [same]) used
      · exact (after.lookup_setWord small foundAfter small).trans (if_pos rfl)
      · intro n' small' different
        have entries := (after.lookup_setWord (w := entry pa perm) small foundAfter small').trans
          (if_neg different)
        have cleared := space.lookup_withTable (i := pageNumber a / 1024) small'
        by_cases same : n' / 1024 = pageNumber a / 1024
        · refine .inr ⟨same, ?_, entries.trans (cleared.trans (if_pos same))⟩
          rw [lookup_eq_none, same, found]
        · exact .inl (entries.trans (cleared.trans (if_neg same)))
      · intro i other
        refine (after.table_setWord small foundAfter).trans ?_
        rw [space.table_withTable, if_neg other]
      · exact (after.table_setWord small foundAfter).trans foundAfter

end Walk

end Xv6.Vm
