import Xv6.Vm.Kernel

/-!
# Growing, shrinking and freeing the user half

`deallocuvm` and `freevm` give the pages of a directory back to the free list, and
`allocuvm` takes pages from it.  A page that `allocuvm` cannot map, because there
is none left for a page table, is lost: no directory owns it and it is not free.

The rule for `allocuvm` takes an invariant of one round.  `copyuvm` reads one
directory and builds another.
-/

open Function (update update_of_ne)

namespace Xv6.Vm

open Exec

def pages (sz : Word) : Nat := (sz.toNat + 4095) / 4096

theorem roundUp_eq {sz : Word} (small : sz.toNat ≤ KERNBASE) : PGROUNDUP sz = addr (pages sz) := by
  unfold KERNBASE at small
  apply BitVec.eq_of_toNat_eq
  rw [toNat_roundUp (by unfold PGSIZE; omega), toNat_addr (by unfold pages; omega)]
  rfl

theorem addr_lt_iff {k : Nat} {sz : Word} (small : k < 2 ^ 20) : addr k < sz ↔ k < pages sz := by
  rw [BitVec.lt_def, toNat_addr small]
  unfold pages PGSIZE
  omega

section Space

variable {layout : Layout} {own : Nat → Prop} {base : Nat → Page} {m : Memory} {d n t p : Nat}
  {free rest : List Nat} {w : Word}

theorem SpaceIn.frame (space : Space layout own base m d free) (m' : Memory)
    (freelist : m'.freelist = m.freelist) (inside : own p) (used : p ∉ free) (notDir : p ≠ d)
    (notTable : ∀ i, i < 1024 → table m.page d i ≠ some p)
    (others : ∀ q, q ≠ p → m'.page q = m.page q) :
    Space layout own base m' d free ∧ (∀ i, table m'.page d i = table m.page d i) ∧
      ∀ n, n < 2 ^ 20 → lookup m'.page d n = lookup m.page d n := by
  have dir : m'.page d = m.page d := others d notDir.symm
  have tables : ∀ i, table m'.page d i = table m.page d i := fun i => table_congr dir
  have entries : ∀ n, n < 2 ^ 20 → lookup m'.page d n = lookup m.page d n := by
    intro n small
    refine lookup_congr dir fun t found => others t ?_
    rintro rfl
    exact notTable _ (by omega) found
  have owns : ∀ role q, Owns m'.page d role q → Owns m.page d role q := fun _ _ owned =>
    owned.frame tables entries
  refine ⟨{ toArena := space.toArena.frame freelist ?_
            pool := space.pool.mono owns fun _ isFree => isFree
            mine := fun owned => space.mine (owns _ _ owned) }, tables, entries⟩
  intro q unchanged
  refine others q ?_
  rintro rfl
  rcases unchanged with isFree | out
  · exact used isFree
  · exact out inside

theorem unmap_spec (space : Space layout own base m d free) (low : n < KERNPAGE)
    (found : table m.page d (n / 1024) = some t)
    (isPresent : present (m.page t (n % 1024)) = true) :
    (kfree layout (frame (m.page t (n % 1024)))).Ensures m
      (fun _ m' => m'.history = m.history ∧
        (∀ q, q ≠ frame (m.page t (n % 1024)) → m'.page q = m.page q) ∧
        Space layout own base
          { m' with page := update m'.page t (update (m'.page t) (n % 1024) 0) } d
          (frame (m.page t (n % 1024)) :: free) ∧
        (∀ i, table (update m'.page t (update (m'.page t) (n % 1024) 0)) d i =
          table m.page d i) ∧
        ∀ n', n' < 2 ^ 20 → lookup (update m'.page t
          (update (m'.page t) (n % 1024) 0)) d n' =
            if n' = n then some 0 else lookup m.page d n')
      (fun _ => False) := by
  unfold KERNPAGE at low
  have index : n / 1024 < 1024 := by omega
  generalize page : frame (m.page t (n % 1024)) = p
  have owned : Owns m.page d (.user n) p := ⟨low, _, lookup_of_table found, isPresent, page⟩
  have notDir : d ≠ p := by
    rintro rfl
    have same : Role.user n = .dir := space.pool.apart owned rfl
    cases same
  have notTable : ∀ i t, i < 1024 → table m.page d i = some t → t ≠ p := by
    rintro i t small isTable rfl
    have same : Role.user n = .table i := space.pool.apart owned ⟨small, isTable⟩
    cases same
  refine (kfree_spec space.toArena (space.mine owned) (space.pool.used owned)).mono ?_ (by simp)
  rintro - m' ⟨arena, others, history⟩
  have dir : m'.page d = m.page d := others d notDir
  have tables : ∀ i, table m'.page d i = table m.page d i := fun i => table_congr dir
  have entries : ∀ n, n < 2 ^ 20 → lookup m'.page d n = lookup m.page d n := fun n small =>
    lookup_congr dir fun t isTable => others t (notTable _ t (by omega) isTable)
  have tableNeDir := space.table_ne_dir index found
  have after : ∀ n', n' < 2 ^ 20 → lookup (update m'.page t
      (update (m'.page t) (n % 1024) 0)) d n' =
        if n' = n then some 0 else lookup m.page d n' := by
    intro n' small
    rw [lookup_setEntry tableNeDir (by rw [tables, found]), entries n' small]
    rw [tables]
    exact fun found' => space.table_inj index found (by omega) found'
  have tablesAfter : ∀ i, table (update m'.page t
      (update (m'.page t) (n % 1024) 0)) d i = table m.page d i := by
    intro i
    rw [table_congr (update_of_ne tableNeDir.symm ..), tables]
  have fewer : ∀ role q, Owns (update m'.page t
      (update (m'.page t) (n % 1024) 0)) d role q →
        Owns m.page d role q ∧ role ≠ .user n := by
    intro role q isOwned
    cases role with
    | dir => exact ⟨isOwned, by simp⟩
    | table i => exact ⟨⟨isOwned.1, by rw [← tablesAfter i]; exact isOwned.2⟩, by simp⟩
    | user n' =>
      obtain ⟨small, w, entry, isPresent', facts⟩ := isOwned
      unfold KERNPAGE at small
      rw [after n' (by omega)] at entry
      split at entry
      · cases entry
        simp at isPresent'
      next different =>
        exact ⟨⟨small, w, entry, isPresent', facts⟩, by simpa using different⟩
  refine ⟨history, others, { toArena := ?_, pool := ?_, mine := ?_ }, tablesAfter, after⟩
  · refine arena.frame rfl fun q unchanged => update_of_ne ?_ ..
    rintro rfl
    rcases unchanged with isFree | out
    · rcases List.mem_cons.mp isFree with same | isFree
      · exact notTable _ _ index found same
      · exact space.table_not_free index found isFree
    · exact out (space.table_own index found)
  · refine space.pool.give owned (fun role q isOwned => (fewer role q isOwned).1)
      (fun isOwned => (fewer _ _ isOwned).2 rfl) fun q isFree => ?_
    rcases List.mem_cons.mp isFree with rfl | isFree
    · exact .inr rfl
    · exact .inl isFree
  · exact fun isOwned => space.mine (fewer _ _ isOwned).1

end Space

/-! ## Shrinking -/

section Shrink

variable {layout : Layout} {own : Nat → Prop} {base : Nat → Page} {m : Memory} {d k : Nat}
  {free : List Nat} {oldsz newsz : Word}

def content (page : Nat → Page) (d n : Nat) : Option Page :=
  (lookup page d n).bind fun w => if present w then some (page (frame w)) else none

theorem content_of_lookup {page : Nat → Page} {n : Nat} {w : Word}
    (found : lookup page d n = some w) (isPresent : present w = true) :
    content page d n = some (page (frame w)) := by
  rw [content, found, Option.bind_some, if_pos isPresent]

theorem content_eq_none {page : Nat → Page} {n : Nat} :
    content page d n = none ↔ Blank page d n := by
  unfold content Blank
  cases lookup page d n with
  | none => simp
  | some w => cases isPresent : present w <;> simp [isPresent]

theorem content_congr {page page' : Nat → Page} {n : Nat}
    (same : lookup page' d n = lookup page d n)
    (kept : ∀ w, lookup page d n = some w → present w = true → page' (frame w) = page (frame w)) :
    content page' d n = content page d n := by
  unfold content
  rw [same]
  cases found : lookup page d n with
  | none => rfl
  | some w =>
    by_cases isPresent : present w = true
    · rw [Option.bind_some, Option.bind_some, if_pos isPresent, if_pos isPresent,
        kept w found isPresent]
    · rw [Option.bind_some, Option.bind_some, if_neg isPresent, if_neg isPresent]

/-- Entries of the user half have been cleared, and nothing else has changed. -/
structure Cleared (page page' : Nat → Page) (d : Nat) : Prop where
  entry : ∀ {n}, n < 2 ^ 20 → lookup page' d n = lookup page d n ∨
    n < KERNPAGE ∧ lookup page d n ≠ none ∧ lookup page' d n = some 0
  kept : ∀ {n}, n < KERNPAGE → lookup page' d n = lookup page d n →
    content page' d n = content page d n

theorem Cleared.blank {page page' : Nat → Page} (cleared : Cleared page page' d) {n : Nat}
    (small : n < 2 ^ 20) (blank : Blank page d n) : Blank page' d n := by
  rcases cleared.entry small with same | ⟨-, -, clear⟩
  · rwa [Blank, same]
  · intro w found
    rw [clear] at found
    cases found
    rfl

/-- The pages from `k` to `l` have been given back.  The loop clears the whole range if it
does not start in the middle of an absent page table, the rest of which it would take for
the next one. -/
structure Shrunk (m m' : Memory) (d k l : Nat) : Prop where
  history : m'.history = m.history
  cleared : Cleared m.page m'.page d
  below : ∀ {n}, n < k → lookup m'.page d n = lookup m.page d n
  blank : k % 1024 = 0 ∨ table m.page d (k / 1024) ≠ none → ∀ n, k ≤ n → n < l → Blank m'.page d n

/-- The loop from page `k` on passes over page `n`.  Where a page table is absent the loop
goes on 1024 pages further; if it started in the middle of the table, it comes to the middle of
the first table that is present. -/
def Skips (page : Nat → Page) (d k n : Nat) : Prop :=
  n % 1024 < k % 1024 ∧ k / 1024 < n / 1024 ∧
    ∀ i, k / 1024 ≤ i → i < n / 1024 → table page d i = none

/-- The loop from page `k` to page `l` gives page `n` back. -/
def Frees (page : Nat → Page) (d k l n : Nat) : Prop :=
  k ≤ n ∧ n < l ∧ ¬Skips page d k n ∧ ¬Blank page d n

section Frees

variable {page page' : Nat → Page} {l n : Nat}

theorem not_skips_of_table (found : table page d (k / 1024) ≠ none) : ¬Skips page d k n :=
  fun ⟨_, later, absent⟩ => found (absent _ le_rfl later)

theorem not_skips_of_aligned (aligned : k % 1024 = 0) : ¬Skips page d k n :=
  fun ⟨offset, _⟩ => by omega

theorem frees_succ (found : table page d (k / 1024) ≠ none) (inside : k < l) :
    Frees page d k l n ↔ Frees page d k (k + 1) n ∨ Frees page d (k + 1) l n := by
  have here : ¬Skips page d k n := not_skips_of_table found
  have next : ¬Skips page d (k + 1) n := by
    by_cases aligned : (k + 1) % 1024 = 0
    · exact not_skips_of_aligned aligned
    · refine not_skips_of_table ?_
      rwa [show (k + 1) / 1024 = k / 1024 by omega]
  simp only [Frees, here, next, not_false_eq_true, true_and]
  constructor
  · rintro ⟨lower, upper, mapped⟩
    by_cases first : n = k
    · exact .inl ⟨lower, by omega, mapped⟩
    · exact .inr ⟨by omega, upper, mapped⟩
  · rintro (⟨lower, upper, mapped⟩ | ⟨lower, upper, mapped⟩)
    · exact ⟨lower, by omega, mapped⟩
    · exact ⟨by omega, upper, mapped⟩

theorem frees_jump (absent : table page d (k / 1024) = none) :
    Frees page d k l n ↔ Frees page d (k + 1024) l n := by
  have quotient : (k + 1024) / 1024 = k / 1024 + 1 := by omega
  have remainder : (k + 1024) % 1024 = k % 1024 := by omega
  constructor
  · rintro ⟨lower, upper, visited, mapped⟩
    have elsewhere : n / 1024 ≠ k / 1024 := by
      intro here
      refine mapped fun w found => ?_
      rw [lookup_eq_none.mpr (here ▸ absent)] at found
      cases found
    have beyond : k + 1024 ≤ n := by
      by_contra before
      refine visited ⟨by omega, by omega, fun i first last => ?_⟩
      rw [show i = k / 1024 by omega, absent]
    refine ⟨beyond, upper, fun ⟨offset, later, absentFrom⟩ => visited ⟨by omega, by omega, ?_⟩,
      mapped⟩
    intro i first last
    by_cases here : i = k / 1024
    · rw [here, absent]
    · exact absentFrom i (by omega) last
  · rintro ⟨lower, upper, visited, mapped⟩
    refine ⟨by omega, upper, fun ⟨offset, later, absentFrom⟩ => visited ⟨by omega, by omega, ?_⟩,
      mapped⟩
    exact fun i first last => absentFrom i (by omega) last

theorem frees_congr (tables : ∀ i, table page' d i = table page d i)
    (entry : k ≤ n → n < l → lookup page' d n = lookup page d n) :
    Frees page' d k l n ↔ Frees page d k l n := by
  have skips : Skips page' d k n ↔ Skips page d k n := by simp only [Skips, tables]
  constructor
  · rintro ⟨lower, upper, visited, mapped⟩
    refine ⟨lower, upper, mt skips.mpr visited, ?_⟩
    rwa [Blank, ← entry lower upper]
  · rintro ⟨lower, upper, visited, mapped⟩
    refine ⟨lower, upper, mt skips.mp visited, ?_⟩
    rwa [Blank, entry lower upper]

end Frees

/-- The loop from page `k` to page `l` has given back the pages `freed`. -/
structure Released (m m' : Memory) (d k l : Nat) (freed : List Nat) : Prop where
  history : m'.history = m.history
  tables : ∀ i, table m'.page d i = table m.page d i
  gone : ∀ {n}, Frees m.page d k l n → lookup m'.page d n = some 0
  same : ∀ {n}, n < 2 ^ 20 → ¬Frees m.page d k l n → lookup m'.page d n = lookup m.page d n
  kept : ∀ {n}, n < KERNPAGE → ¬Frees m.page d k l n → content m'.page d n = content m.page d n
  freed : ∀ p, p ∈ freed ↔ ∃ n, Frees m.page d k l n ∧ Owns m.page d (.user n) p

namespace Released

variable {m m' m'' : Memory} {l : Nat} {freed freed' : List Nat}

theorem refl (none : ∀ n, ¬Frees m.page d k l n) : Released m m d k l [] where
  history := rfl
  tables _ := rfl
  gone {n} frees := absurd frees (none n)
  same _ _ := rfl
  kept _ _ := rfl
  freed p := by
    simp only [List.not_mem_nil, false_iff]
    exact fun ⟨n, frees, _⟩ => none n frees

theorem jump (absent : table m.page d (k / 1024) = none)
    (released : Released m m' d (k + 1024) l freed) : Released m m' d k l freed where
  history := released.history
  tables := released.tables
  gone frees := released.gone ((frees_jump absent).mp frees)
  same small frees := released.same small (mt (frees_jump absent).mpr frees)
  kept low frees := released.kept low (mt (frees_jump absent).mpr frees)
  freed p := by
    simp only [released.freed, frees_jump absent]

theorem trans (found : table m.page d (k / 1024) ≠ none) (inside : k < l) (high : l ≤ KERNPAGE)
    (first : Released m m' d k (k + 1) freed) (second : Released m' m'' d (k + 1) l freed') :
    Released m m'' d k l (freed' ++ freed) := by
  unfold KERNPAGE at high
  have untouched : ∀ {n}, k + 1 ≤ n → ¬Frees m.page d k (k + 1) n := fun lower frees => by
    have := frees.2.1
    omega
  have rest : ∀ {n}, Frees m'.page d (k + 1) l n ↔ Frees m.page d (k + 1) l n :=
    frees_congr first.tables fun lower upper => first.same (by omega) (untouched lower)
  have split : ∀ {n}, Frees m.page d k l n ↔ Frees m.page d k (k + 1) n ∨
      Frees m.page d (k + 1) l n :=
    frees_succ found inside
  refine ⟨second.history.trans first.history, fun i => (second.tables i).trans (first.tables i),
    fun {n} frees => ?_, fun {n} small frees => ?_, fun {n} low frees => ?_, fun p => ?_⟩
  · rcases split.mp frees with here | later
    · rw [second.same (by have := here.2.1; omega)
        fun later => by have := later.1; have := here.2.1; omega]
      exact first.gone here
    · exact second.gone (rest.mpr later)
  · rw [split, not_or] at frees
    rw [second.same small (mt rest.mp frees.2), first.same small frees.1]
  · rw [split, not_or] at frees
    rw [second.kept low (mt rest.mp frees.2), first.kept low frees.1]
  · rw [List.mem_append, second.freed, first.freed]
    constructor
    · rintro (⟨n, frees, low, w, entry, facts⟩ | ⟨n, frees, owned⟩)
      · have later := rest.mp frees
        refine ⟨n, split.mpr (.inr later), low, w, ?_, facts⟩
        rw [← entry, first.same (by have := frees.2.1; omega) (untouched later.1)]
      · exact ⟨n, split.mpr (.inl frees), owned⟩
    · rintro ⟨n, frees, owned⟩
      rcases split.mp frees with here | later
      · exact .inr ⟨n, here, owned⟩
      · obtain ⟨low, w, entry, facts⟩ := owned
        refine .inl ⟨n, rest.mpr later, low, w, ?_, facts⟩
        rw [← entry, first.same (by have := later.2.1; omega) (untouched later.1)]

theorem cleared (released : Released m m' d k l freed) (high : l ≤ KERNPAGE) :
    Cleared m.page m'.page d where
  entry {n} small := by
    by_cases frees : Frees m.page d k l n
    · refine .inr ⟨by have := frees.2.1; omega, fun absent => frees.2.2.2 fun w found => ?_,
        released.gone frees⟩
      rw [absent] at found
      cases found
    · exact .inl (released.same small frees)
  kept {n} low same := by
    by_cases frees : Frees m.page d k l n
    · refine absurd (fun w found => ?_) frees.2.2.2
      rw [← same, released.gone frees] at found
      cases found
      rfl
    · exact released.kept low frees

theorem blank_of_not_skips (released : Released m m' d k l freed) {n : Nat} (small : n < 2 ^ 20)
    (lower : k ≤ n) (upper : n < l) (visited : ¬Skips m.page d k n) : Blank m'.page d n := by
  by_cases frees : Frees m.page d k l n
  · intro w found
    rw [released.gone frees] at found
    cases found
    rfl
  · have blank : Blank m.page d n := by
      by_contra mapped
      exact frees ⟨lower, upper, visited, mapped⟩
    rwa [Blank, released.same small frees]

theorem shrunk (released : Released m m' d k l freed) (high : l ≤ KERNPAGE) (start : k ≤ 2 ^ 20) :
    Shrunk m m' d k l where
  history := released.history
  cleared := released.cleared high
  below {n} lower := released.same (by omega) fun frees => by have := frees.1; omega
  blank starts n lower upper := by
    unfold KERNPAGE at high
    refine released.blank_of_not_skips (by omega) lower upper ?_
    rcases starts with aligned | found
    · exact not_skips_of_aligned aligned
    · exact not_skips_of_table found

end Released

theorem unmap_released {t : Nat} (space : Space layout own base m d free) (low : k < KERNPAGE)
    (found : table m.page d (k / 1024) = some t)
    (isPresent : present (m.page t (k % 1024)) = true) :
    (kfree layout (frame (m.page t (k % 1024)))).Ensures m
      (fun _ m' => Space layout own base
          { m' with page := update m'.page t (update (m'.page t) (k % 1024) 0) } d
          (frame (m.page t (k % 1024)) :: free) ∧
        Released m
          { m' with page := update m'.page t (update (m'.page t) (k % 1024) 0) } d
          k (k + 1) [frame (m.page t (k % 1024))])
      (fun _ => False) := by
  have owned : Owns m.page d (.user k) (frame (m.page t (k % 1024))) :=
    ⟨low, _, lookup_of_table found, isPresent, rfl⟩
  have frees : ∀ {n}, Frees m.page d k (k + 1) n ↔ n = k := by
    intro n
    constructor
    · rintro ⟨lower, upper, -⟩
      omega
    · rintro rfl
      refine ⟨le_rfl, by omega, not_skips_of_table (by rw [found]; simp), fun blank => ?_⟩
      rw [blank _ (lookup_of_table found)] at isPresent
      cases isPresent
  refine (unmap_spec space low found isPresent).mono ?_ (by simp)
  rintro - m' ⟨history, others, after, tables, entries⟩
  unfold KERNPAGE at low
  refine ⟨after, history, tables, fun {n} freed => ?_, fun {n} small freed => ?_,
    fun {n} user freed => ?_, fun p => ?_⟩
  · rw [frees] at freed
    exact (entries n (by omega)).trans (if_pos freed)
  · rw [frees] at freed
    exact (entries n small).trans (if_neg freed)
  · -- the pages of the other entries are neither the freed page nor the table
    rw [frees] at freed
    unfold KERNPAGE at user
    refine content_congr ((entries n (by omega)).trans (if_neg freed)) fun w entry isPresent' => ?_
    have other : Owns m.page d (.user n) (frame w) := ⟨user, w, entry, isPresent', rfl⟩
    have notTable : frame w ≠ t := by
      intro isTable
      have role : Role.user n = .table (k / 1024) :=
        space.pool.apart other ⟨by omega, by rw [isTable, found]⟩
      cases role
    have notFreed : frame w ≠ frame (m.page t (k % 1024)) := by
      intro same
      have role : Role.user n = .user k := space.pool.apart other (same ▸ owned)
      exact freed (Role.user.inj role)
    exact (update_of_ne notTable ..).trans (others _ notFreed)
  · simp only [List.mem_singleton, frees, exists_eq_left]
    constructor
    · rintro rfl
      exact owned
    · rintro ⟨-, w, entry, -, rfl⟩
      rw [lookup_of_table found] at entry
      rw [Option.some.inj entry]

theorem deallocuvmLoop_spec (fuel : Nat) (space : Space layout own base m d free)
    (small : oldsz.toNat ≤ KERNBASE) (start : k ≤ KERNPAGE + 1024) (positive : 0 < fuel)
    (enough : KERNPAGE < k + fuel) :
    (deallocuvmLoop layout d oldsz fuel (addr k)).Ensures m
      (fun _ m' => ∃ freed, Released m m' d k (pages oldsz) freed ∧
        Space layout own base m' d (freed ++ free))
      (fun _ => False) := by
  have bound : pages oldsz ≤ KERNPAGE := by
    unfold KERNBASE at small
    unfold pages KERNPAGE
    omega
  unfold KERNPAGE at *
  induction fuel generalizing m k free with
  | zero => omega
  | succ fuel ih =>
    have page : pageNumber (addr k) = k := pageNumber_addr (by omega)
    unfold deallocuvmLoop
    by_cases inside : addr k < oldsz
    · rw [if_pos inside]
      rw [addr_lt_iff (by omega)] at inside
      rw [ensures_bind, ensures_walkpgdir, page]
      cases found : table m.page d (k / 1024) with
      | none =>
        have jump : addr k + BitVec.ofNat 32 ((NPTENTRIES - 1) * PGSIZE) + BitVec.ofNat 32 PGSIZE =
            addr (k + 1024) := by
          have := addr_add k 1023
          rw [show addr 1023 = BitVec.ofNat 32 ((NPTENTRIES - 1) * PGSIZE) from rfl] at this
          rw [this, addr_succ]
        simp only [Option.map_none]
        rw [jump]
        refine (ih space (by omega) (by omega) (by omega)).mono ?_ (by simp)
        rintro - m' ⟨freed, released, after⟩
        exact ⟨freed, released.jump found, after⟩
      | some t =>
        have next : ∀ {m' : Memory} {freed : List Nat}, Released m m' d k (k + 1) freed →
            Space layout own base m' d (freed ++ free) →
            (deallocuvmLoop layout d oldsz fuel (addr k + BitVec.ofNat 32 PGSIZE)).Ensures m'
              (fun _ m' => ∃ freed, Released m m' d k (pages oldsz) freed ∧
                Space layout own base m' d (freed ++ free))
              (fun _ => False) := by
          intro m' freed first after
          rw [addr_succ]
          refine (ih after (by omega) (by omega) (by omega)).mono ?_ (by simp)
          rintro - m'' ⟨freed', second, after'⟩
          refine ⟨freed' ++ freed, first.trans (by rw [found]; simp) inside bound second, ?_⟩
          rwa [List.append_assoc]
        simp only [Option.map_some, ensures_bind, ensures_get]
        split
        next isPresent =>
          have owned : Owns m.page d (.user k) (frame (m.page t (k % 1024))) :=
            ⟨by unfold KERNPAGE; omega, _, lookup_of_table found, isPresent, rfl⟩
          have nonzero : frame (m.page t (k % 1024)) ≠ 0 :=
            Nat.pos_iff_ne_zero.mp (space.pos (space.mine owned))
          rw [if_neg nonzero, ensures_bind]
          refine (unmap_released space (by unfold KERNPAGE; omega) found isPresent).mono
            ?_ (by simp)
          rintro - m' ⟨after, released⟩
          rw [ensures_bind, ensures_setWord]
          exact next released after
        next notPresent =>
          refine next (Released.refl fun n frees => ?_) space
          obtain rfl : n = k := by
            have := frees.1
            have := frees.2.1
            omega
          refine frees.2.2.2 fun w entry => ?_
          rw [lookup_of_table found] at entry
          cases entry
          simpa using notPresent
    · rw [if_neg inside]
      rw [addr_lt_iff (by omega)] at inside
      refine ⟨[], Released.refl fun n frees => ?_, space⟩
      have := frees.1
      have := frees.2.1
      omega

theorem pages_le_KERNPAGE {sz : Word} (small : sz.toNat ≤ KERNBASE) : pages sz ≤ KERNPAGE := by
  unfold KERNBASE at small
  unfold pages KERNPAGE
  omega

theorem deallocuvm_released (space : Space layout own base m d free)
    (small : oldsz.toNat ≤ KERNBASE) :
    (deallocuvm layout d oldsz newsz).Ensures m
      (fun result m' => result = (if oldsz ≤ newsz then oldsz else newsz) ∧
        ∃ freed, Released m m' d (pages newsz) (pages oldsz) freed ∧
          Space layout own base m' d (freed ++ free))
      (fun _ => False) := by
  unfold deallocuvm
  by_cases order : oldsz ≤ newsz
  · rw [if_pos order, if_pos order]
    refine ⟨rfl, [], Released.refl fun n ⟨lower, upper, _⟩ => ?_, space⟩
    rw [BitVec.le_def] at order
    unfold pages at lower upper
    omega
  · have less : newsz.toNat < oldsz.toNat := by
      rw [BitVec.le_def] at order
      omega
    have start : PGROUNDUP newsz = addr (pages newsz) := roundUp_eq (by omega)
    have bound : pages newsz ≤ KERNPAGE := pages_le_KERNPAGE (by omega)
    rw [if_neg order, if_neg order, start]
    refine (deallocuvmLoop_spec (2 ^ 20 + 1) space small (by omega) (by omega) (by
      unfold KERNPAGE
      omega)).bind ?_ (by simp)
    rintro - m' ⟨freed, released, after⟩
    exact ⟨rfl, freed, released, after⟩

theorem deallocuvm_spec (space : Space layout own base m d free) (small : oldsz.toNat ≤ KERNBASE) :
    (deallocuvm layout d oldsz newsz).Ensures m
      (fun result m' => result = (if oldsz ≤ newsz then oldsz else newsz) ∧
        Shrunk m m' d (pages newsz) (pages oldsz) ∧ ∃ free', Space layout own base m' d free')
      (fun _ => False) := by
  refine (deallocuvm_released space small).mono ?_ (by simp)
  rintro result m' ⟨value, freed, released, after⟩
  have start : pages newsz ≤ 2 ^ 20 := by
    have := newsz.isLt
    unfold pages
    omega
  exact ⟨value, released.shrunk (pages_le_KERNPAGE small) start, _, after⟩

end Shrink

/-! ## Freeing -/

section Free

variable {layout : Layout} {own : Nat → Prop} {base : Nat → Page} {m : Memory} {d : Nat}
  {free : List Nat}

/-- The loop over the page tables.  The entries of the directory stay, so the tables
that are still to be freed are found as before. -/
theorem freevmLoop_spec (indices : List Nat) (arena : Arena layout own base m free)
    (distinct : indices.Nodup) (dirUsed : d ∉ free)
    (tables : ∀ i ∈ indices, ∀ t, table m.page d i = some t → own t ∧ t ∉ free ∧ t ≠ d)
    (apart : ∀ i ∈ indices, ∀ j ∈ indices, ∀ t, table m.page d i = some t →
      table m.page d j = some t → i = j) :
    (freevmLoop layout d indices).Ensures m
      (fun _ m' => m'.history = m.history ∧ ∃ freed, Arena layout own base m' (freed ++ free) ∧
        d ∉ freed ++ free ∧ ∀ t, t ∈ freed ↔ ∃ i ∈ indices, table m.page d i = some t)
      (fun _ => False) := by
  induction indices generalizing m free with
  | nil => exact ⟨rfl, [], arena, dirUsed, by simp⟩
  | cons i rest ih =>
    obtain ⟨notMem, distinctRest⟩ := List.nodup_cons.mp distinct
    unfold freevmLoop
    rw [ensures_bind, ensures_get]
    split
    next isPresent =>
      have found : table m.page d i = some (frame (m.page d i)) := if_pos isPresent
      obtain ⟨inside, used, notDir⟩ := tables i (by simp) _ found
      refine (kfree_spec arena inside used).bind ?_ (by simp)
      rintro - m' ⟨after, others, history⟩
      have same : ∀ j, table m'.page d j = table m.page d j := fun j =>
        table_congr (others d notDir.symm)
      refine (ih after distinctRest (by simp [dirUsed, notDir.symm]) ?_ ?_).mono
        ?_ (by simp)
      · intro j member t foundAt
        rw [same] at foundAt
        obtain ⟨inside', used', notDir'⟩ := tables j (by simp [member]) t foundAt
        refine ⟨inside', ?_, notDir'⟩
        rw [List.mem_cons, not_or]
        refine ⟨?_, used'⟩
        rintro rfl
        exact notMem (apart i (by simp) j (by simp [member]) _ found foundAt ▸ member)
      · intro j member j' member' t foundAt foundAt'
        rw [same] at foundAt foundAt'
        exact apart j (by simp [member]) j' (by simp [member']) t foundAt foundAt'
      · rintro - m'' ⟨history', freed, arena', dirUsed', exactly⟩
        refine ⟨history'.trans history, freed ++ [frame (m.page d i)], ?_, ?_, fun t => ?_⟩
        · rwa [List.append_assoc]
        · rwa [List.append_assoc]
        · simp only [List.mem_append, List.mem_cons, List.not_mem_nil, or_false, exactly, same,
            exists_eq_or_imp, found, Option.some.injEq]
          rw [or_comm, eq_comm]
    next absent =>
      have noTable : table m.page d i = none := if_neg absent
      refine (ih arena distinctRest dirUsed
        (fun j member => tables j (by simp [member]))
        (fun j member j' member' => apart j (by simp [member]) j' (by simp [member']))).mono
        ?_ (by simp)
      rintro - m' ⟨history, freed, arena', dirUsed', exactly⟩
      refine ⟨history, freed, arena', dirUsed', fun t => ?_⟩
      simp [exactly, noTable]

theorem freevm_released (space : Space layout own base m d free) : (freevm layout d).Ensures m
    (fun _ m' => m'.history = m.history ∧ ∃ freed, Arena layout own base m' (freed ++ free) ∧
      ∀ p, p ∈ freed ↔ ∃ role, Owns m.page d role p)
    (fun _ => False) := by
  unfold freevm
  have distinct : (List.range NPDENTRIES).Nodup := List.nodup_range
  have indexed : ∀ i, i ∈ List.range NPDENTRIES ↔ i < 1024 := fun _ => List.mem_range
  generalize List.range NPDENTRIES = indices at distinct indexed ⊢
  refine (deallocuvm_released space (show kernbase.toNat ≤ KERNBASE by decide)).bind ?_
    (by simp)
  rintro - m' ⟨-, freed, released, after⟩
  refine (freevmLoop_spec indices after.toArena distinct after.dir_not_free ?_ ?_).bind ?_ (by simp)
  · intro i member t found
    have small := (indexed i).mp member
    exact ⟨after.table_own small found, after.table_not_free small found,
      after.table_ne_dir small found⟩
  · intro i member j member' t found found'
    exact after.table_inj ((indexed j).mp member') found' ((indexed i).mp member) found
  · rintro - m₂ ⟨history, tables, arena, dirUsed, exactly⟩
    refine (kfree_spec arena after.dir_own dirUsed).mono ?_ (by simp)
    rintro - m₃ ⟨arena', -, history'⟩
    refine ⟨history'.trans (history.trans released.history), d :: (tables ++ freed), ?_,
      fun p => ?_⟩
    · rwa [List.cons_append, List.append_assoc]
    · have start : pages 0 = 0 := rfl
      have stop : pages kernbase = KERNPAGE := rfl
      simp only [List.mem_cons, List.mem_append, exactly, released.freed, released.tables, indexed]
      constructor
      · rintro (isDir | ⟨i, small, found⟩ | ⟨n, -, owned⟩)
        · exact ⟨.dir, isDir⟩
        · exact ⟨.table i, small, found⟩
        · exact ⟨.user n, owned⟩
      · rintro ⟨role, owned⟩
        cases role with
        | dir => exact .inl owned
        | table i => exact .inr (.inl ⟨i, owned⟩)
        | user n =>
          obtain ⟨low, w, found, isPresent, -⟩ := id owned
          refine .inr (.inr ⟨n, ⟨by rw [start]; omega, by rwa [stop], not_skips_of_aligned rfl, ?_⟩,
            owned⟩)
          intro blank
          rw [blank w found] at isPresent
          cases isPresent

theorem freevm_spec (space : Space layout own base m d free) : (freevm layout d).Ensures m
    (fun _ m' => m'.history = m.history ∧ ∃ free', Arena layout own base m' free')
    (fun _ => False) :=
  (freevm_released space).mono (fun _ _ ⟨history, _, arena, _⟩ => ⟨history, _, arena⟩) (by simp)

end Free

/-! ## Growing -/

section Grow

variable {layout : Layout} {own : Nat → Prop} {base : Nat → Page} {m : Memory} {d k mem : Nat}
  {free rest : List Nat} {oldsz newsz : Word}

theorem ensures_mappages_page {pa perm : Word} {good : Bool → Memory → Prop} {bad : Trap → Prop}
    (small : k < 2 ^ 20) :
    (mappages d (addr k) (BitVec.ofNat 32 PGSIZE) pa perm).Ensures m good bad ↔
      (mapPage d perm (addr k) pa).Ensures m good bad := by
  have start : PGROUNDDOWN (addr k) = addr k := by
    apply BitVec.eq_of_toNat_eq
    rw [toNat_roundDown, toNat_addr small]
    unfold PGSIZE
    omega
  have last : PGROUNDDOWN (addr k + BitVec.ofNat 32 PGSIZE - 1) = addr k :=
    roundDown_last (c := 1) (by omega) (by omega)
  have round : ∀ fuel, (mappagesLoop d perm (addr k) (fuel + 1) (addr k) pa).Ensures m good bad ↔
      (mapPage d perm (addr k) pa).Ensures m good bad := by
    intro fuel
    rw [mappagesLoop, ensures_bind]
    have same : (fun (ok : Bool) next => ((if ok = true then
        if addr k = addr k then pure true
        else mappagesLoop d perm (addr k) fuel (addr k + BitVec.ofNat 32 PGSIZE)
          (pa + BitVec.ofNat 32 PGSIZE)
      else pure false : VmM Bool)).Ensures next good bad) = good := by
      funext ok next
      cases ok <;> simp
    rw [same]
  rw [mappages, start, last]
  exact round (2 ^ 20 - 1)

/-- The page `mem` has been taken and belongs to nothing yet. -/
structure AtHand (own : Nat → Prop) (page : Nat → Page) (d : Nat) (free : List Nat) (mem : Nat) :
    Prop where
  inside : own mem
  used : mem ∉ free
  unowned : ∀ role, ¬Owns page d role mem

theorem SpaceIn.take (space : Space layout own base m d (mem :: rest)) :
    Space layout own base { m with freelist := m.page mem 0 } d rest ∧
      AtHand own m.page d rest mem where
  left := {
    toArena := space.toArena.tail
    pool := space.pool.mono (fun _ _ owned => owned) fun _ isFree => by simp [isFree]
    mine := space.mine }
  right := {
    inside := space.within mem (by simp)
    used := space.head_not_mem
    unowned := fun _ owned => space.pool.used owned (by simp) }

theorem mapNew_spec (space : Space layout own base m d free) (hand : AtHand own m.page d free mem)
    (low : k < KERNPAGE) (content : Page) {perm : Word} (flags : perm.toNat < PGSIZE) :
    (mappages d (addr k) (BitVec.ofNat 32 PGSIZE) (addr mem) perm).Ensures
      { m with page := update m.page mem content }
      (fun ok m' => m'.history = m.history ∧
        ((ok = false ∧ free = [] ∧ table m.page d (k / 1024) = none ∧
            Space layout own base m' d [] ∧ (∀ i, table m'.page d i = table m.page d i) ∧
            ∀ n, n < 2 ^ 20 → lookup m'.page d n = lookup m.page d n) ∨
          ok = true ∧ ∃ free', Space layout own base m' d free' ∧
            Mapped m.page m'.page d k (entry (addr mem) perm) free free'))
      (fun stop => stop = .remap ∧ ∃ w, lookup m.page d k = some w ∧ present w = true) := by
  unfold KERNPAGE at low
  have small := space.small hand.inside
  have page : pageNumber (addr k) = k := pageNumber_addr (by omega)
  have target : frame (entry (addr mem) perm) = mem := frame_entry_addr (by omega) flags
  obtain ⟨filled, tables, entries⟩ := space.frame
    { m with page := update m.page mem content } rfl hand.inside hand.used
    (fun same => hand.unowned .dir same)
    (fun i index found => hand.unowned (.table i) ⟨index, found⟩)
    (fun q other => update_of_ne other ..)
  have unowned : ∀ role, ¬Owns (update m.page mem content) d role mem :=
    fun role owned => hand.unowned role (owned.frame tables entries)
  rw [ensures_mappages_page (by omega)]
  refine (mapPage_spec filled perm (addr k) (addr mem) fun _ _ => ?_).mono ?_ ?_
  · rw [target]
    exact ⟨hand.inside, hand.used, unowned⟩
  · rw [page]
    rintro ok m' ⟨history, ⟨rfl, rfl, absent, rfl⟩ | ⟨rfl, free', after, mapped⟩⟩
    · exact ⟨history, .inl ⟨rfl, rfl, (tables _).symm.trans absent, filled, tables, entries⟩⟩
    · refine ⟨history, .inr ⟨rfl, free', after, mapped.self, fun {n'} inside other => ?_,
        fun {i} other => (mapped.table_other other).trans (tables i), ?_⟩⟩
      · rw [← entries n' inside]
        exact mapped.other inside other
      · rw [← tables]
        exact mapped.used
  · rw [page]
    rintro stop ⟨rfl, w, found, isPresent⟩
    exact ⟨rfl, w, (entries k (by omega)).symm.trans found, isPresent⟩

theorem growPage_spec (space : Space layout own base m d free)
    (hand : AtHand own m.page d free mem) (low : k < KERNPAGE) :
    (growPage d mem (addr k)).Ensures m
      (fun _ m' => m'.grown = mem :: m.grown ∧ m'.stray = m.stray ∧
        ((m'.lost = k :: m.lost ∧ free = [] ∧ table m.page d (k / 1024) = none ∧
            Space layout own base m' d [] ∧ (∀ i, table m'.page d i = table m.page d i) ∧
            ∀ n, n < 2 ^ 20 → lookup m'.page d n = lookup m.page d n) ∨
          m'.lost = m.lost ∧ ∃ free', Space layout own base m' d free' ∧
            Mapped m.page m'.page d k (entry (addr mem) (PTE_W ||| PTE_U)) free free'))
      (fun stop => stop = .remap ∧ ∃ w, lookup m.page d k = some w ∧ present w = true) := by
  have page : (addr k).toNat / PGSIZE = k := by
    unfold KERNPAGE at low
    exact pageNumber_addr (by omega)
  unfold growPage
  rw [ensures_bind, ensures_setPage]
  refine (mapNew_spec space hand low _ (show (PTE_W ||| PTE_U).toNat < PGSIZE by decide)).bind ?_
    fun _ stopped => stopped
  rintro ok m' ⟨history, ⟨rfl, empty, absent, after, same⟩ | ⟨rfl, free', after, mapped⟩⟩
  all_goals
    obtain ⟨grown, lost, stray⟩ := Memory.history_eq.mp history
    rw [ensures_modify]
    refine ⟨by rw [grown], stray, ?_⟩
  · refine .inl ⟨?_, empty, absent, ⟨⟨after.chain, after.nodup, after.within, after.range,
      after.outside⟩, after.pool, after.mine⟩, same⟩
    simp only [Bool.false_eq_true, if_false, page, lost]
  · refine .inr ⟨by simp only [if_true, lost], free', ⟨⟨after.chain, after.nodup, after.within,
      after.range, after.outside⟩, after.pool, after.mine⟩, mapped⟩

/-- The loop of `allocuvm` keeps what each round keeps.  When there is no page left it
takes back what it has mapped. -/
theorem allocuvmLoop_rule (invariant : Nat → Memory → List Nat → Prop) {bad : Trap → Prop}
    (spaces : ∀ {k m free}, invariant k m free → Space layout own base m d free)
    (round : ∀ {k m mem rest}, k < pages newsz → invariant k m (mem :: rest) →
      (growPage d mem (addr k)).Ensures { m with freelist := m.page mem 0 }
        (fun _ m' => ∃ free', invariant (k + 1) m' free') bad)
    (small : newsz.toNat ≤ KERNBASE) (fuel : Nat) (start : k ≤ pages newsz)
    (enough : pages newsz < k + fuel) (holds : invariant k m free) :
    (allocuvmLoop layout d oldsz newsz fuel (addr k)).Ensures m
      (fun result m' => (result = newsz ∧ ∃ free', invariant (pages newsz) m' free') ∨
        result = 0 ∧ ∃ k₀ m₀ freed, k₀ < pages newsz ∧ invariant k₀ m₀ [] ∧
          Released m₀ m' d (pages oldsz) (pages newsz) freed ∧ Space layout own base m' d freed)
      bad := by
  have bound : pages newsz ≤ 2 ^ 19 := by
    unfold KERNBASE at small
    unfold pages
    omega
  induction fuel generalizing m k free with
  | zero => omega
  | succ fuel ih =>
    unfold allocuvmLoop
    by_cases inside : addr k < newsz
    · rw [if_pos inside]
      rw [addr_lt_iff (by omega)] at inside
      refine (kalloc_spec (spaces holds).toArena).bind ?_ (by simp)
      rintro result m' (⟨rfl, rfl, rfl⟩ | ⟨mem, rest, rfl, rfl, rfl⟩)
      · refine (deallocuvm_released (spaces holds) small).bind ?_ (by simp)
        rintro - m'' ⟨-, freed, released, after⟩
        rw [List.append_nil] at after
        exact .inr ⟨rfl, k, m', freed, inside, holds, released, after⟩
      · refine (round inside holds).bind ?_ fun _ stopped => stopped
        rintro - m'' ⟨free', after⟩
        rw [addr_succ]
        exact ih (by omega) (by omega) after
    · rw [if_neg inside]
      rw [addr_lt_iff (by omega)] at inside
      obtain rfl : k = pages newsz := by omega
      exact .inl ⟨rfl, free, holds⟩

/-- The four ways `allocuvm` can end: at the new size, at the old size because the new one
is smaller, refused because the new size is in the kernel half, or out of memory. -/
theorem allocuvm_released (invariant : Nat → Memory → List Nat → Prop) {bad : Trap → Prop}
    (spaces : ∀ {k m free}, invariant k m free → Space layout own base m d free)
    (round : ∀ {k m mem rest}, k < pages newsz → k < KERNPAGE → invariant k m (mem :: rest) →
      (growPage d mem (addr k)).Ensures { m with freelist := m.page mem 0 }
        (fun _ m' => ∃ free', invariant (k + 1) m' free') bad)
    (holds : invariant (pages oldsz) m free) :
    (allocuvm layout d oldsz newsz).Ensures m
      (fun result m' =>
        (result = newsz ∧ newsz.toNat < KERNBASE ∧ oldsz.toNat ≤ newsz.toNat ∧
          ∃ free', invariant (pages newsz) m' free') ∨
        (result = oldsz ∧ newsz.toNat < oldsz.toNat ∧ newsz.toNat < KERNBASE ∧ m' = m) ∨
        (result = 0 ∧ KERNBASE ≤ newsz.toNat ∧ m' = m) ∨
        result = 0 ∧ newsz.toNat < KERNBASE ∧ oldsz.toNat ≤ newsz.toNat ∧
          ∃ k₀ m₀ freed, k₀ < pages newsz ∧ invariant k₀ m₀ [] ∧
            Released m₀ m' d (pages oldsz) (pages newsz) freed ∧ Space layout own base m' d freed)
      bad := by
  have base : kernbase.toNat = KERNBASE := rfl
  unfold allocuvm
  by_cases high : kernbase ≤ newsz
  · rw [if_pos high]
    exact .inr (.inr (.inl ⟨rfl, high, rfl⟩))
  · have small : newsz.toNat < KERNBASE := by
      rw [BitVec.le_def] at high
      omega
    rw [if_neg high]
    by_cases less : newsz < oldsz
    · rw [if_pos less]
      exact .inr (.inl ⟨rfl, less, small, rfl⟩)
    · have order : oldsz.toNat ≤ newsz.toNat := by
        rw [BitVec.lt_def] at less
        omega
      have bound : pages newsz ≤ KERNPAGE := pages_le_KERNPAGE small.le
      rw [if_neg less, roundUp_eq (by omega)]
      refine (allocuvmLoop_rule invariant spaces (fun inside => round inside (by omega)) (by omega)
        _ ?_ ?_ holds).mono ?_ fun _ stopped => stopped
      · unfold pages
        omega
      · unfold KERNPAGE at bound
        omega
      · rintro result m' (⟨rfl, after⟩ | failed)
        · exact .inl ⟨rfl, small, order, after⟩
        · exact .inr (.inr (.inr ⟨failed.1, small, order, failed.2⟩))

theorem allocuvm_spec (space : Space layout own base m d free) :
    (allocuvm layout d oldsz newsz).Ensures m
      (fun result m' => (result = newsz ∧ newsz.toNat < KERNBASE ∨ result = oldsz ∨ result = 0) ∧
        ∃ free', Space layout own base m' d free')
      (fun stop => stop = .remap) := by
  refine (allocuvm_released (fun _ m free => Space layout own base m d free) (fun space => space)
    (fun _ low grown => ?_) space).mono ?_ fun _ stopped => stopped
  · obtain ⟨taken, hand⟩ := grown.take
    refine (growPage_spec taken hand low).mono ?_ fun _ stopped => stopped.1
    rintro - m' ⟨-, -, ⟨-, -, -, after, -⟩ | ⟨-, free', after, -⟩⟩
    · exact ⟨[], after⟩
    · exact ⟨free', after⟩
  · rintro result m' (⟨rfl, below, -, after⟩ | ⟨rfl, -, -, rfl⟩ | ⟨rfl, -, rfl⟩ |
      ⟨rfl, -, -, -, -, free', -, -, -, after⟩)
    · exact ⟨.inl ⟨rfl, below⟩, after⟩
    · exact ⟨.inr (.inl rfl), free, space⟩
    · exact ⟨.inr (.inr rfl), free, space⟩
    · exact ⟨.inr (.inr rfl), free', after⟩

end Grow

/-! ## Copying -/

section Copy

variable {layout : Layout} {own : Nat → Prop} {base : Nat → Page} {m : Memory} {d k pgdir : Nat}
  {free : List Nat} {sz : Word}

theorem flags_lt (pte : Word) : (pte &&& BitVec.ofNat 32 (PGSIZE - 1)).toNat < PGSIZE := by
  rw [BitVec.toNat_and]
  exact Nat.lt_of_le_of_lt Nat.and_le_right (by decide)

theorem copyuvmLoop_spec (fuel : Nat) (space : Space layout own base m d free)
    (small : sz.toNat < KERNBASE) (start : k ≤ pages sz) (enough : pages sz < k + fuel) :
    (copyuvmLoop pgdir d sz fuel (addr k)).Ensures m
      (fun _ m' => ∃ free', Space layout own base m' d free')
      (fun stop => stop = .copyuvm ∨ stop = .remap) := by
  have bound : pages sz ≤ KERNPAGE := by
    unfold KERNBASE at small
    unfold pages KERNPAGE
    omega
  induction fuel generalizing m k free with
  | zero => omega
  | succ fuel ih =>
    unfold KERNPAGE at bound
    unfold copyuvmLoop
    by_cases inside : addr k < sz
    · rw [if_pos inside]
      rw [addr_lt_iff (by omega)] at inside
      rw [ensures_bind, ensures_walkpgdir]
      cases table m.page pgdir (pageNumber (addr k) / 1024) with
      | none => exact .inl rfl
      | some pgtab =>
        simp only [Option.map_some, ensures_bind, ensures_get]
        split
        · exact .inl rfl
        · rw [ensures_bind]
          refine (kalloc_spec space.toArena).mono ?_ (by simp)
          rintro result m' (⟨rfl, -, rfl⟩ | ⟨mem, rest, rfl, rfl, rfl⟩)
          · exact ⟨free, space⟩
          · obtain ⟨taken, hand⟩ := space.take
            simp only [ensures_bind, ensures_get, ensures_setPage]
            refine (mapNew_spec taken hand (by unfold KERNPAGE; omega) _ (flags_lt _)).mono ?_
              fun _ stopped => .inr stopped.1
            rintro ok m' ⟨-, ⟨rfl, -, -, after, -⟩ | ⟨rfl, free', after, -⟩⟩
            · exact ⟨[], after⟩
            · rw [if_pos rfl, addr_succ]
              exact ih after (by omega) (by omega)
    · rw [if_neg inside]
      exact ⟨free, space⟩

theorem copyuvm_spec (arena : Arena layout own base m free) (small : sz.toNat < KERNBASE) :
    (copyuvm layout pgdir sz).Ensures m
      (fun result m' => match result with
        | none => ∃ free', Arena layout own base m' free'
        | some d => ∃ free', Space layout own base m' d free')
      (fun stop => stop = .copyuvm ∨ stop = .remap) := by
  unfold copyuvm
  refine (setupkvm_spec arena).bind ?_ (by simp)
  rintro result m' ⟨-, ⟨rfl, after, -⟩ | ⟨d, free', rfl, -, space, -⟩⟩
  · exact ⟨[], after⟩
  · have bound : pages sz < 2 ^ 20 + 1 := by
      unfold KERNBASE at small
      unfold pages
      omega
    refine (copyuvmLoop_spec (k := 0) (2 ^ 20 + 1) space small (Nat.zero_le _) (by omega)).bind ?_
      fun _ stopped => stopped
    rintro ok m'' ⟨free'', after⟩
    cases ok with
    | true => exact ⟨free'', after⟩
    | false =>
      refine (freevm_spec after).bind ?_ (by simp)
      rintro - m₃ ⟨-, result⟩
      exact result

end Copy

end Xv6.Vm
