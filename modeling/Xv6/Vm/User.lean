import Xv6.Vm.Grow

/-!
# What is in user memory

`content` is a virtual page as a process sees it.  A round of `allocuvm` adds a page of
zeros and touches no other, and `deallocuvm` takes pages away.  From the number of free
pages one can say beforehand how `allocuvm` ends: it succeeds, it fails and leaves
everything as it was, or it returns the new size although the last page is missing.
-/

open Function (update update_of_ne update_self)

namespace Xv6.Vm

open Exec

def zeroPage : Page := fun _ => 0

section Round

variable {layout : Layout} {own : Nat → Prop} {base : Nat → Page} {m : Memory} {d k mem : Nat}
  {free : List Nat}

/-- A page that is neither free nor part of the tables. -/
structure Plain (page : Nat → Page) (d : Nat) (free : List Nat) (p : Nat) : Prop where
  used : p ∉ free
  roles : ∀ role, Owns page d role p → ∃ n, role = .user n

theorem Plain.ne_dir {page : Nat → Page} {p : Nat} (plain : Plain page d free p) : p ≠ d := by
  intro isDir
  obtain ⟨n, role⟩ := plain.roles .dir isDir
  cases role

theorem Plain.ne_table {page : Nat → Page} {p t i : Nat} (plain : Plain page d free p)
    (small : i < 1024) (found : table page d i = some t) : p ≠ t := by
  rintro rfl
  obtain ⟨n, role⟩ := plain.roles (.table i) ⟨small, found⟩
  cases role

theorem plain_user (space : Space layout own base m d free) {n : Nat} {w : Word}
    (low : n < KERNPAGE) (found : lookup m.page d n = some w) (isPresent : present w = true) :
    Plain m.page d free (frame w) := by
  have owned : Owns m.page d (.user n) (frame w) := ⟨low, w, found, isPresent, rfl⟩
  exact ⟨space.pool.used owned, fun _ isOwned => ⟨n, space.pool.apart isOwned owned⟩⟩

theorem mapPage_kept (space : Space layout own base m d free) (perm a pa : Word) :
    (mapPage d perm a pa).Ensures m
      (fun _ m' => ∀ p, Plain m.page d free p → m'.page p = m.page p) (fun _ => True) := by
  have small := pageNumber_lt a
  unfold mapPage
  cases found : table m.page d (pageNumber a / 1024) with
  | some t =>
    rw [ensures_bind, ensures_walkpgdir_found found]
    simp only [ensures_bind, ensures_get]
    split
    · trivial
    · exact fun p plain => update_of_ne (plain.ne_table (by omega) found) ..
  | none =>
    refine (walkpgdir_alloc_spec space found).bind ?_ (by simp)
    rintro result m' (⟨rfl, -, rfl⟩ | ⟨t, rest, rfl, rfl, rfl⟩)
    · exact fun _ _ => rfl
    · simp only [ensures_bind, ensures_get]
      split
      · trivial
      · intro p plain
        have notNew : p ≠ t := by
          rintro rfl
          exact plain.used (by simp)
        refine (update_of_ne notNew ..).trans ?_
        exact (update_of_ne plain.ne_dir ..).trans (update_of_ne notNew ..)

theorem mapNew_kept (space : Space layout own base m d free)
    (hand : AtHand own m.page d free mem) (small : k < 2 ^ 20) (filling : Page) (perm : Word) :
    (mappages d (addr k) (BitVec.ofNat 32 PGSIZE) (addr mem) perm).Ensures
      { m with page := update m.page mem filling }
      (fun _ m' => m'.page mem = filling ∧
        ∀ p, p ≠ mem → Plain m.page d free p → m'.page p = m.page p) (fun _ => True) := by
  obtain ⟨filled, tables, entries⟩ := space.frame
    { m with page := update m.page mem filling } rfl hand.inside hand.used
    (fun same => hand.unowned .dir same)
    (fun i index found => hand.unowned (.table i) ⟨index, found⟩)
    (fun q other => update_of_ne other ..)
  refine ((ensures_mappages_page small).mpr (mapPage_kept filled perm (addr k) (addr mem))).mono ?_
    fun _ _ => trivial
  rintro ok m' kept
  refine ⟨?_, fun p other plain => ?_⟩
  · refine (kept mem ⟨hand.used, fun role owned => ?_⟩).trans (update_self ..)
    exact absurd (owned.frame tables entries) (hand.unowned role)
  · refine (kept p ⟨plain.used, fun role owned => ?_⟩).trans (update_of_ne other ..)
    exact plain.roles role (owned.frame tables entries)

theorem growPage_kept (space : Space layout own base m d free)
    (hand : AtHand own m.page d free mem) (low : k < KERNPAGE) :
    (growPage d mem (addr k)).Ensures m
      (fun _ m' => m'.page mem = zeroPage ∧
        ∀ p, p ≠ mem → Plain m.page d free p → m'.page p = m.page p) (fun _ => True) := by
  unfold KERNPAGE at low
  unfold growPage
  rw [ensures_bind, ensures_setPage]
  refine (mapNew_kept space hand (by omega) zeroPage (PTE_W ||| PTE_U)).bind ?_ fun _ _ => trivial
  rintro ok m' kept
  rw [ensures_modify]
  exact kept

/-- A round of `allocuvm`, seen from the process: a page of zeros has been added, or there
was no page left for a page table and nothing has changed. -/
theorem growPage_content (space : Space layout own base m d free)
    (hand : AtHand own m.page d free mem) (low : k < KERNPAGE) (blank : Blank m.page d k) :
    (growPage d mem (addr k)).Ensures m
      (fun _ m' => (free = [] ∧ table m.page d (k / 1024) = none ∧ Space layout own base m' d [] ∧
          (∀ i, table m'.page d i = table m.page d i) ∧
          ∀ n, n < KERNPAGE → content m'.page d n = content m.page d n) ∨
        ∃ free', Space layout own base m' d free' ∧
          Mapped m.page m'.page d k (entry (addr mem) (PTE_W ||| PTE_U)) free free' ∧
          content m'.page d k = some zeroPage ∧
          ∀ n, n < KERNPAGE → n ≠ k → content m'.page d n = content m.page d n)
      (fun _ => False) := by
  have small := space.small hand.inside
  have other : ∀ {n w}, n < KERNPAGE → lookup m.page d n = some w → present w = true →
      frame w ≠ mem := by
    rintro n w low found isPresent rfl
    exact hand.unowned (.user n) ⟨low, w, found, isPresent, rfl⟩
  refine ((growPage_spec space hand low).and (growPage_kept space hand low)).mono ?_ ?_
  · rintro - m' ⟨⟨-, -, ⟨-, empty, absent, after, tables, entries⟩ |
      ⟨-, free', after, mapped⟩⟩, filled, kept⟩
    · refine .inl ⟨empty, absent, after, tables, fun n low => content_congr ?_ ?_⟩
      · exact entries n (by unfold KERNPAGE at low; omega)
      · exact fun w found isPresent =>
          kept _ (other low found isPresent) (plain_user space low found isPresent)
    · refine .inr ⟨free', after, mapped, ?_, fun n low different => ?_⟩
      · rw [content_of_lookup mapped.self (by simp),
          frame_entry_addr (by omega) (by decide), filled]
      · rcases mapped.other (by unfold KERNPAGE at low; omega) different with
          same | ⟨-, absent, new⟩
        · exact content_congr same fun w found isPresent =>
            kept _ (other low found isPresent) (plain_user space low found isPresent)
        · rw [content, content, absent, new]
          rfl
  · rintro stop ⟨⟨-, w, found, isPresent⟩, -⟩
    rw [blank w found] at isPresent
    cases isPresent

end Round

/-! ## The number of pages that growing takes -/

def indices (k₀ k : Nat) : Finset Nat := (Finset.Ico k₀ k).image (· / 1024)

theorem mem_indices {k₀ k i : Nat} : i ∈ indices k₀ k ↔ ∃ n, (k₀ ≤ n ∧ n < k) ∧ n / 1024 = i := by
  simp [indices]

theorem indices_self (k₀ : Nat) : indices k₀ k₀ = ∅ := by
  simp [indices]

theorem indices_succ {k₀ k : Nat} (order : k₀ ≤ k) :
    indices k₀ (k + 1) = insert (k / 1024) (indices k₀ k) := by
  unfold indices
  rw [← Finset.insert_Ico_right_eq_Ico_add_one order, Finset.image_insert]

/-- How many of the page tables for the pages from `k₀` to `k` are missing. -/
def newTables (page : Nat → Page) (d k₀ k : Nat) : Nat :=
  ((indices k₀ k).filter fun i => table page d i = none).card

section Budget

variable {page : Nat → Page} {d k₀ k : Nat}

theorem newTables_self : newTables page d k₀ k₀ = 0 := by
  rw [newTables, indices_self, Finset.filter_empty, Finset.card_empty]

theorem newTables_succ_new (order : k₀ ≤ k) (absent : table page d (k / 1024) = none)
    (fresh : k / 1024 ∉ indices k₀ k) :
    newTables page d k₀ (k + 1) = newTables page d k₀ k + 1 := by
  rw [newTables, indices_succ order, Finset.filter_insert, if_pos absent,
    Finset.card_insert_of_notMem (by simp [fresh]), newTables]

theorem newTables_succ_old (order : k₀ ≤ k)
    (there : table page d (k / 1024) ≠ none ∨ k / 1024 ∈ indices k₀ k) :
    newTables page d k₀ (k + 1) = newTables page d k₀ k := by
  rw [newTables, indices_succ order]
  rcases there with present | seen
  · rw [Finset.filter_insert, if_neg present, newTables]
  · rw [Finset.insert_eq_of_mem seen, newTables]

theorem newTables_mono {l : Nat} (order : k ≤ l) :
    newTables page d k₀ k ≤ newTables page d k₀ l := by
  unfold newTables
  refine Finset.card_le_card (Finset.filter_subset_filter _ ?_)
  exact Finset.image_subset_image (Finset.Ico_subset_Ico_right order)

/-- The free pages run out when the last page has been taken and its page table has not. -/
structure Starved (page : Nat → Page) (d k₀ k available : Nat) : Prop where
  grows : k₀ < k
  short : available + 1 = (k - k₀) + newTables page d k₀ k
  absent : table page d ((k - 1) / 1024) = none
  fresh : ∀ n, k₀ ≤ n → n < k - 1 → n / 1024 ≠ (k - 1) / 1024

theorem Starved.newTables_eq {available : Nat} (starved : Starved page d k₀ k available) :
    newTables page d k₀ k = newTables page d k₀ (k - 1) + 1 := by
  obtain ⟨last, rfl⟩ : ∃ last, k = last + 1 := ⟨k - 1, by have := starved.grows; omega⟩
  have grows := starved.grows
  refine newTables_succ_new (by omega) starved.absent fun seen => ?_
  obtain ⟨n, ⟨lower, upper⟩, same⟩ := mem_indices.mp seen
  exact starved.fresh n lower upper same

end Budget

section Allocuvm

variable {layout : Layout} {own : Nat → Prop} {base : Nat → Page} {m₀ m : Memory} {d k₀ k mem : Nat}
  {free₀ free rest : List Nat} {oldsz newsz : Word}

structure Growing (m₀ m : Memory) (d k₀ k : Nat) (available : Nat) (free : List Nat) : Prop where
  order : k₀ ≤ k
  content : ∀ n, n < KERNPAGE → content m.page d n =
    if k₀ ≤ n ∧ n < k then some zeroPage else content m₀.page d n
  tables : ∀ i, table m.page d i = none ↔ table m₀.page d i = none ∧ i ∉ indices k₀ k
  budget : free.length + (k - k₀) + newTables m₀.page d k₀ k = available

theorem Growing.init (m : Memory) (d k : Nat) (free : List Nat) :
    Growing m m d k k free.length free where
  order := le_rfl
  content n _ := by rw [if_neg (by omega)]
  tables i := by simp [indices_self]
  budget := by rw [newTables_self]; omega

theorem Growing.next {m' : Memory} {w : Word} {available : Nat} {free' : List Nat}
    (growing : Growing m₀ m d k₀ k available (mem :: rest))
    (mapped : Mapped m.page m'.page d k w rest free')
    (new : Vm.content m'.page d k = some zeroPage)
    (others : ∀ n, n < KERNPAGE → n ≠ k → Vm.content m'.page d n = Vm.content m.page d n) :
    Growing m₀ m' d k₀ (k + 1) available free' where
  order := growing.order.trans (Nat.le_succ k)
  content n low := by
    by_cases here : n = k
    · subst here
      rw [new, if_pos ⟨growing.order, Nat.lt_succ_self n⟩]
    · rw [others n low here, growing.content n low]
      congr 1
      exact propext ⟨fun inside => ⟨inside.1, by omega⟩, fun inside => ⟨inside.1, by omega⟩⟩
  tables i := by
    rw [indices_succ growing.order, Finset.mem_insert, not_or]
    by_cases here : i = k / 1024
    · subst here
      refine iff_of_false ?_ fun absent => absent.2.1 rfl
      rcases mapped.used with ⟨-, same⟩ | ⟨t, -, -, found⟩
      · intro absent
        have entry := mapped.self
        rw [lookup_eq_none.mpr absent] at entry
        cases entry
      · simp [found]
    · rw [mapped.table_other here, growing.tables i]
      exact ⟨fun absent => ⟨absent.1, here, absent.2⟩, fun absent => ⟨absent.1, absent.2.2⟩⟩
  budget := by
    have budget := growing.budget
    have order := growing.order
    have tables := growing.tables (k / 1024)
    rw [List.length_cons] at budget
    rcases mapped.used with ⟨rfl, same⟩ | ⟨t, rfl, absent, -⟩
    · have there : table m.page d (k / 1024) ≠ none := by
        intro absent
        have entry := mapped.self
        rw [lookup_eq_none.mpr (same.trans absent)] at entry
        cases entry
      rw [newTables_succ_old order (by
        by_contra neither
        rw [not_or, not_not] at neither
        exact there (tables.mpr neither))]
      omega
    · obtain ⟨before, fresh⟩ := tables.mp absent
      rw [newTables_succ_new order before fresh]
      rw [List.length_cons] at budget
      omega

/-- The state of the loop at page `k`: every page so far has been added, or all but the last,
and then the free pages have run out. -/
def Round (m₀ : Memory) (d k₀ available : Nat) (k : Nat) (m : Memory) (free : List Nat) : Prop :=
  Growing m₀ m d k₀ k available free ∨
    free = [] ∧ ∃ last mem, k = last + 1 ∧ table m.page d (last / 1024) = none ∧
      Growing m₀ m d k₀ last available [mem]

theorem Growing.round {available : Nat} (space : Space layout own base m d (mem :: rest))
    (growing : Growing m₀ m d k₀ k available (mem :: rest)) (low : k < KERNPAGE)
    (blank : Blank m₀.page d k) :
    (growPage d mem (addr k)).Ensures { m with freelist := m.page mem 0 }
      (fun _ m' => ∃ free', Space layout own base m' d free' ∧
        Round m₀ d k₀ available (k + 1) m' free')
      (fun _ => False) := by
  obtain ⟨taken, hand⟩ := space.take
  have blank' : Blank m.page d k := by
    rw [← content_eq_none, growing.content k low, if_neg (by omega), content_eq_none]
    exact blank
  refine (growPage_content taken hand low blank').mono ?_ fun _ stopped => stopped
  rintro - m' (⟨rfl, absent, after, tables, same⟩ | ⟨free', after, mapped, new, others⟩)
  · refine ⟨[], after, .inr ⟨rfl, k, mem, rfl, (tables _).trans absent, growing.order, ?_, ?_,
      growing.budget⟩⟩
    · exact fun n low => (same n low).trans (growing.content n low)
    · intro i
      rw [tables i]
      exact growing.tables i
  · exact ⟨free', after, .inl (growing.next mapped new others)⟩

theorem Growing.undo {m' : Memory} {available l : Nat}
    (growing : Growing m₀ m d k₀ k available free) (shrunk : Shrunk m m' d k₀ l)
    (blank : ∀ n, k₀ ≤ n → n < KERNPAGE → Blank m₀.page d n) (inside : k ≤ l) :
    ∀ n, n < KERNPAGE → Vm.content m'.page d n = Vm.content m₀.page d n := by
  intro n low
  by_cases below : n < k₀
  · rw [shrunk.cleared.kept low (shrunk.below below), growing.content n low, if_neg (by omega)]
  · rw [content_eq_none.mpr (blank n (by omega) low), content_eq_none]
    by_cases added : n < k
    · refine shrunk.blank (.inr fun absent => ?_) n (by omega) (by omega)
      -- the first page has been added, so its page table is there
      refine ((growing.tables _).mp absent).2 (mem_indices.mpr ⟨k₀, ⟨le_rfl, ?_⟩, rfl⟩)
      omega
    · refine shrunk.cleared.blank (by unfold KERNPAGE at low; omega) ?_
      rw [← content_eq_none, growing.content n low, if_neg (by omega), content_eq_none]
      exact blank n (by omega) low

theorem Growing.not_starved {available l : Nat} (growing : Growing m₀ m d k₀ k available free)
    (stuck : k < l → free = []) (inside : k ≤ l) : ¬Starved m₀.page d k₀ l available := by
  intro starved
  have budget := growing.budget
  have order := growing.order
  have short := starved.short
  have added := starved.newTables_eq
  by_cases done : k = l
  · subst done
    omega
  · have empty : free.length = 0 := by rw [stuck (by omega), List.length_nil]
    have mono : newTables m₀.page d k₀ k ≤ newTables m₀.page d k₀ (l - 1) :=
      newTables_mono (by omega)
    omega

theorem Growing.lost_not_starved {available l : Nat} (growing : Growing m₀ m d k₀ k available [mem])
    (absent : table m.page d (k / 1024) = none) (inside : k + 1 < l) :
    ¬Starved m₀.page d k₀ l available := by
  intro starved
  have budget := growing.budget
  have order := growing.order
  have short := starved.short
  have added := starved.newTables_eq
  obtain ⟨before, fresh⟩ := (growing.tables _).mp absent
  have new := newTables_succ_new order before fresh
  have mono : newTables m₀.page d k₀ (k + 1) ≤ newTables m₀.page d k₀ (l - 1) :=
    newTables_mono (by omega)
  rw [List.length_singleton] at budget
  omega

theorem Growing.starved {available : Nat} (growing : Growing m₀ m d k₀ k available [mem])
    (absent : table m.page d (k / 1024) = none) : Starved m₀.page d k₀ (k + 1) available := by
  have budget := growing.budget
  have order := growing.order
  obtain ⟨before, fresh⟩ := (growing.tables _).mp absent
  rw [List.length_singleton] at budget
  refine ⟨by omega, ?_, before, fun n lower upper same => ?_⟩
  · rw [newTables_succ_new order before fresh]
    omega
  · exact fresh (mem_indices.mpr ⟨n, ⟨lower, upper⟩, same⟩)

/-- How `allocuvm` ends when it grows a process: it adds pages of zeros; it fails and leaves
the content of user memory alone; or it has lost the last page and returns the new size all
the same. -/
theorem allocuvm_content (space : Space layout own base m d free)
    (order : oldsz.toNat ≤ newsz.toNat)
    (blank : ∀ n, pages oldsz ≤ n → n < KERNPAGE → Blank m.page d n) :
    (allocuvm layout d oldsz newsz).Ensures m
      (fun result m' =>
        (result = newsz ∧ newsz.toNat < KERNBASE ∧
          ¬Starved m.page d (pages oldsz) (pages newsz) free.length ∧
          ∀ n, n < KERNPAGE → content m'.page d n =
            if pages oldsz ≤ n ∧ n < pages newsz then some zeroPage else content m.page d n) ∨
        (result = newsz ∧ newsz.toNat < KERNBASE ∧
          Starved m.page d (pages oldsz) (pages newsz) free.length ∧
          content m'.page d (pages newsz - 1) = none) ∨
        (result = 0 ∧
          (KERNBASE ≤ newsz.toNat ∨ ¬Starved m.page d (pages oldsz) (pages newsz) free.length) ∧
          ∀ n, n < KERNPAGE → content m'.page d n = content m.page d n))
      (fun _ => False) := by
  have shrunk : newsz.toNat < KERNBASE → ∀ {m m' freed},
      Released m m' d (pages oldsz) (pages newsz) freed → _ := fun below _ _ _ released =>
    released.shrunk (pages_le_KERNPAGE below.le)
      ((pages_le_KERNPAGE (order.trans below.le)).trans (by decide))
  refine (allocuvm_released (fun k m' free' => Space layout own base m' d free' ∧
      Round m d (pages oldsz) free.length k m' free') (fun holds => holds.1) ?_
    ⟨space, .inl (Growing.init m d _ free)⟩).mono ?_ fun _ stopped => stopped
  · rintro k m' mem rest - low ⟨before, growing | ⟨empty, -⟩⟩
    · exact growing.round before low (blank k growing.order low)
    · cases empty
  · rintro result m' (⟨rfl, below, -, free', -, growing | ⟨-, last, mem, isLast, absent, growing⟩⟩ |
      ⟨-, less, -⟩ | ⟨rfl, high, rfl⟩ |
      ⟨rfl, below, -, k, m₁, freed, inside,
        ⟨-, growing | ⟨-, last, mem, isLast, absent, growing⟩⟩, released, -⟩)
    · exact .inl ⟨rfl, below, growing.not_starved (fun less => absurd less (lt_irrefl _)) le_rfl,
        growing.content⟩
    · have few : last < KERNPAGE := by
        unfold KERNBASE at below
        unfold pages at isLast
        unfold KERNPAGE
        omega
      refine .inr (.inl ⟨rfl, below, isLast ▸ growing.starved absent, ?_⟩)
      rw [isLast, Nat.add_sub_cancel, growing.content last few, if_neg (by omega), content_eq_none]
      exact blank last growing.order few
    · omega
    · exact .inr (.inr ⟨rfl, .inl high, fun _ _ => rfl⟩)
    · exact .inr (.inr ⟨rfl, .inr (growing.not_starved (fun _ => rfl) inside.le),
        growing.undo (shrunk below released) blank inside.le⟩)
    · exact .inr (.inr ⟨rfl, .inr (growing.lost_not_starved absent (by omega)),
        growing.undo (shrunk below released) blank (by omega)⟩)

end Allocuvm

theorem Shrunk.content_eq {m m' : Memory} {d k l n : Nat} (shrunk : Shrunk m m' d k l)
    (there : k < l → content m.page d k ≠ none) (blank : l ≤ n → content m.page d n = none)
    (low : n < KERNPAGE) :
    content m'.page d n = if k ≤ n ∧ n < l then none else content m.page d n := by
  by_cases below : n < k
  · rw [if_neg (by omega)]
    exact shrunk.cleared.kept low (shrunk.below below)
  · by_cases inside : n < l
    · rw [if_pos ⟨by omega, inside⟩, content_eq_none]
      refine shrunk.blank (.inr fun absent => there (by omega) ?_) n (by omega) inside
      rw [content, lookup_eq_none.mpr absent]
      rfl
    · rw [if_neg (by omega), blank (by omega), content_eq_none]
      exact shrunk.cleared.blank (by unfold KERNPAGE at low; omega)
        (content_eq_none.mp (blank (by omega)))

end Xv6.Vm
