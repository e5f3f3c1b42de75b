import Xv6.Vm.Grow

/-!
# The image that exec builds

`Image` describes the new directory while `exec` fills it: the first `k` virtual
pages are mapped to pages that `allocuvm` has taken, except those it has lost, and
nothing else of the user half is in use.  No byte has been written to a page that
is not part of the image.  `guard` is the page below the stack once users may not
access it any more.
-/

namespace Xv6.Vm

open Exec

structure Image (layout : Layout) (own : Nat → Prop) (base : Nat → Page) (guard : Option Nat)
    (k : Nat) (m : Memory) (d : Nat) (free : List Nat) : Prop
    extends toSpace : Space layout own base m d free where
  kernel : KernelHalf m.page d
  bound : k ≤ KERNPAGE
  mapped : ∀ {n w}, n < KERNPAGE → lookup m.page d n = some w →
    (present w = true ∧ n < k ∧ n ∉ m.lost ∧ frame w ∈ m.grown ∧
      (isUser w = true ↔ guard ≠ some n)) ∨ (w = 0 ∧ (n < k → n ∈ m.lost))
  covered : ∀ {n}, n < k → n ∉ m.lost → lookup m.page d n ≠ none
  tables : ∀ {i}, i < 512 → table m.page d i ≠ none → ∃ n, n < k ∧ n ∉ m.lost ∧ n / 1024 = i
  lost_lt : ∀ {n}, n ∈ m.lost → n < k
  apart : ∀ {p}, p ∈ m.grown → own p ∧ p ∉ free ∧ ∀ role, Owns m.page d role p → ∃ n, role = .user n
  clean : m.stray = []

theorem KernelHalf.frame {page page' : Nat → Page} {d : Nat} (kernel : KernelHalf page d)
    (same : ∀ n, KERNPAGE ≤ n → n < 2 ^ 20 → lookup page' d n = lookup page d n) :
    KernelHalf page' d where
  mapped high small isMapped := by
    rw [same _ high small]
    exact kernel.mapped high small isMapped
  absent high small gap := by
    rw [same _ high small]
    exact kernel.absent high small gap

namespace Image

variable {layout : Layout} {own : Nat → Prop} {base : Nat → Page} {guard : Option Nat} {k : Nat}
  {m m' : Memory} {d : Nat} {free rest free' : List Nat} {mem n : Nat}

theorem init (space : Space layout own base m d free) (kernel : KernelHalf m.page d)
    (empty : ∀ i, i < 512 → table m.page d i = none) (history : m.history = ([], [], [])) :
    Image layout own base none 0 m d free := by
  simp only [Memory.history, Prod.mk.injEq] at history
  obtain ⟨grown, lost, stray⟩ := history
  refine { toSpace := space, kernel := kernel, bound := by omega,
           mapped := fun {n w} low found => ?_, covered := by simp,
           tables := fun low found => absurd (empty _ low) found,
           lost_lt := by simp [lost], apart := by simp [grown], clean := stray }
  unfold KERNPAGE at low
  rw [lookup_eq_none.mpr (empty _ (by omega))] at found
  cases found

theorem entry_of_lt (image : Image layout own base guard k m d free) (inside : n < k)
    (kept : n ∉ m.lost) : ∃ w, lookup m.page d n = some w ∧ present w = true ∧ frame w ∈ m.grown ∧
      (isUser w = true ↔ guard ≠ some n) := by
  have bound := image.bound
  obtain ⟨w, found⟩ := Option.ne_none_iff_exists'.mp (image.covered inside kept)
  rcases image.mapped (by omega) found with ⟨isPresent, -, -, grown, user⟩ | ⟨-, lost⟩
  · exact ⟨w, found, isPresent, grown, user⟩
  · exact absurd (lost inside) kept

theorem entry_of_not {w : Word} (image : Image layout own base guard k m d free)
    (low : n < KERNPAGE) (outside : n < k → n ∈ m.lost) (found : lookup m.page d n = some w) :
    w = 0 := by
  rcases image.mapped low found with ⟨-, inside, kept, -⟩ | ⟨clear, -⟩
  · exact absurd (outside inside) kept
  · exact clear

theorem lose (image : Image layout own base none k m d free)
    (unowned : ∀ role, ¬Owns m.page d role mem) (inside : own mem) (low : k < KERNPAGE)
    (grown : m'.grown = mem :: m.grown)
    (lost : m'.lost = k :: m.lost) (stray : m'.stray = m.stray)
    (after : Space layout own base m' d [])
    (tables : ∀ i, table m'.page d i = table m.page d i)
    (entries : ∀ n, n < 2 ^ 20 → lookup m'.page d n = lookup m.page d n) :
    Image layout own base none (k + 1) m' d [] := by
  have owns : ∀ role p, Owns m'.page d role p → Owns m.page d role p := fun _ _ owned =>
    owned.frame tables entries
  refine { toSpace := after, kernel := image.kernel.frame fun n _ small => entries n small,
           bound := low, mapped := fun {n w} low found => ?_, covered := fun {n} inside kept => ?_,
           tables := fun {i} low found => ?_, lost_lt := fun {n} isLost => ?_,
           apart := fun {p} isGrown => ?_, clean := by rw [stray, image.clean] }
  · unfold KERNPAGE at low
    rw [entries n (by omega)] at found
    rw [lost, grown]
    rcases image.mapped low found with ⟨isPresent, below, kept, isGrown, user⟩ | ⟨clear, isLost⟩
    · refine .inl ⟨isPresent, by omega, ?_, by simp [isGrown], user⟩
      simp only [List.mem_cons, not_or]
      exact ⟨by omega, kept⟩
    · refine .inr ⟨clear, fun below => ?_⟩
      by_cases last : n = k
      · simp [last]
      · simp [isLost (by omega)]
  · rw [lost, List.mem_cons, not_or] at kept
    unfold KERNPAGE at low
    rw [entries n (by omega)]
    exact image.covered (by omega) kept.2
  · rw [tables] at found
    obtain ⟨n, below, kept, index⟩ := image.tables low found
    refine ⟨n, by omega, ?_, index⟩
    rw [lost, List.mem_cons, not_or]
    exact ⟨by omega, kept⟩
  · rw [lost] at isLost
    rcases List.mem_cons.mp isLost with rfl | isLost
    · omega
    · have := image.lost_lt isLost
      omega
  · rw [grown] at isGrown
    refine ⟨?_, by simp, fun role owned => ?_⟩
    · rcases List.mem_cons.mp isGrown with rfl | isGrown
      · exact inside
      · exact (image.apart isGrown).1
    · rcases List.mem_cons.mp isGrown with rfl | isGrown
      · exact absurd (owns _ _ owned) (unowned role)
      · exact (image.apart isGrown).2.2 role (owns _ _ owned)

theorem extend (image : Image layout own base none k m d (mem :: rest)) (low : k < KERNPAGE)
    (grown : m'.grown = mem :: m.grown) (lost : m'.lost = m.lost) (stray : m'.stray = m.stray)
    (after : Space layout own base m' d free')
    (mapped : Mapped m.page m'.page d k (entry (addr mem) (PTE_W ||| PTE_U)) rest free') :
    Image layout own base none (k + 1) m' d free' := by
  obtain ⟨-, hand⟩ := image.toSpace.take
  have small := image.small hand.inside
  unfold KERNPAGE at low
  have fewer : ∀ p ∈ free', p ∈ rest := by
    intro p isFree
    rcases mapped.used with ⟨rfl, -⟩ | ⟨t, rfl, -⟩
    · exact isFree
    · simp [isFree]
  refine { toSpace := after, kernel := image.kernel.frame fun n high small => ?_,
           bound := low, mapped := fun {n w} low found => ?_, covered := fun {n} inside kept => ?_,
           tables := fun {i} low found => ?_, lost_lt := fun {n} isLost => ?_,
           apart := fun {p} isGrown => ?_, clean := by rw [stray, image.clean] }
  · unfold KERNPAGE at high
    rcases mapped.other small (by omega) with same | ⟨index, -⟩
    · exact same
    · omega
  · unfold KERNPAGE at low
    rw [lost, grown]
    by_cases last : n = k
    · subst last
      rw [mapped.self] at found
      cases found
      refine .inl ⟨by simp, by omega, fun isLost => ?_, ?_, ?_⟩
      · exact Nat.lt_irrefl _ (image.lost_lt isLost)
      · rw [frame_entry_addr (by omega) (by decide)]
        simp
      · rw [isUser_entry (addr_aligned mem)]
        exact iff_of_true (by decide) (by simp)
    · rcases mapped.other (by omega) last with same | ⟨-, absent, new⟩
      · rw [same] at found
        rcases image.mapped low found with ⟨isPresent, below, kept, isGrown, user⟩ | ⟨clear, isLost⟩
        · exact .inl ⟨isPresent, by omega, kept, by simp [isGrown], user⟩
        · exact .inr ⟨clear, fun below => isLost (by omega)⟩
      · rw [new] at found
        cases found
        refine .inr ⟨rfl, fun below => ?_⟩
        by_contra kept
        exact image.covered (by omega) kept absent
  · rw [lost] at kept
    by_cases last : n = k
    · subst last
      simp [mapped.self]
    · have there := image.covered (show n < k by omega) kept
      rcases mapped.other (by omega) last with same | ⟨-, absent, -⟩
      · rwa [same]
      · exact absurd absent there
  · rw [lost]
    by_cases here : i = k / 1024
    · exact ⟨k, by omega, fun isLost => Nat.lt_irrefl _ (image.lost_lt isLost), here.symm⟩
    · rw [mapped.table_other here] at found
      obtain ⟨n, below, kept, index⟩ := image.tables low found
      exact ⟨n, by omega, kept, index⟩
  · rw [lost] at isLost
    have := image.lost_lt isLost
    omega
  · have facts : own p ∧ p ∉ rest ∧ ∀ role, Owns m.page d role p → ∃ n, role = .user n := by
      rw [grown] at isGrown
      rcases List.mem_cons.mp isGrown with rfl | isGrown
      · exact ⟨hand.inside, hand.used, fun role owned => absurd owned (hand.unowned role)⟩
      · obtain ⟨inside, used, roles⟩ := image.apart isGrown
        exact ⟨inside, fun isFree => used (by simp [isFree]), roles⟩
    obtain ⟨inside, used, roles⟩ := facts
    refine ⟨inside, fun isFree => used (fewer p isFree), fun role owned => ?_⟩
    cases role with
    | dir => exact roles .dir owned
    | user n => exact ⟨n, rfl⟩
    | table i =>
      -- the only new page table was free
      by_cases here : i = k / 1024
      · subst here
        rcases mapped.used with ⟨-, same⟩ | ⟨t, free, -, found⟩
        · exact roles (.table _) ⟨owned.1, same.symm.trans owned.2⟩
        · obtain rfl := Option.some.inj (found.symm.trans owned.2)
          exact absurd (by simp [free]) used
      · exact roles (.table i) ⟨owned.1, (mapped.table_other here).symm.trans owned.2⟩

/-- One round of `allocuvm`.  It takes the page and, where there is no page table, one more for
it; the page is lost only if it was the last one. -/
theorem grow (image : Image layout own base none k m d (mem :: rest)) (low : k < KERNPAGE) :
    (growPage d mem (addr k)).Ensures { m with freelist := m.page mem 0 }
      (fun _ m' => m'.grown = mem :: m.grown ∧
        ∃ free', Image layout own base none (k + 1) m' d free' ∧
          (m'.lost = m.lost ∧ (table m.page d (k / 1024) ≠ none ∧ free' = rest ∨
              table m.page d (k / 1024) = none ∧ ∃ t, rest = t :: free') ∨
            m'.lost = k :: m.lost ∧ table m.page d (k / 1024) = none ∧ rest = [] ∧ free' = []))
      (fun _ => False) := by
  obtain ⟨space, hand⟩ := image.toSpace.take
  refine (growPage_spec space hand low).mono ?_ ?_
  · rintro - m' ⟨grown, stray, ⟨lost, rfl, absent, after, tables, entries⟩ |
      ⟨lost, free', after, mapped⟩⟩
    · exact ⟨grown, [], image.lose hand.unowned hand.inside low grown lost stray after
        tables entries, .inr ⟨lost, absent, rfl, rfl⟩⟩
    · refine ⟨grown, free', image.extend low grown lost stray after mapped, .inl ⟨lost, ?_⟩⟩
      rcases mapped.used with ⟨rfl, same⟩ | ⟨t, rfl, absent, -⟩
      · refine .inl ⟨fun absent => ?_, rfl⟩
        have entry := mapped.self
        rw [lookup_eq_none.mpr (same.trans absent)] at entry
        cases entry
      · exact .inr ⟨absent, t, rfl⟩
  · rintro stop ⟨-, w, found, isPresent⟩
    have clear := image.entry_of_not low (fun below => absurd below (Nat.lt_irrefl k)) found
    rw [clear] at isPresent
    cases isPresent

theorem table_eq_none (image : Image layout own base none k m d free) (low : k < KERNPAGE)
    (whole : m.lost = []) : table m.page d (k / 1024) = none ↔ k % 1024 = 0 := by
  unfold KERNPAGE at low
  refine ⟨fun absent => ?_, fun first => by_contra fun there => ?_⟩
  · by_contra inner
    have covered := image.covered (show k - 1 < k by omega) (by simp [whole])
    rw [Ne, lookup_eq_none, show (k - 1) / 1024 = k / 1024 by omega] at covered
    exact covered absent
  · obtain ⟨n, below, -, same⟩ := image.tables (by omega) there
    omega

end Image

/-! ## What growing takes -/

/-- What an image takes to grow from `k₀` to `k` pages: the pages, and a page table for every 1024
of them. -/
def growth (k₀ k : Nat) : Nat := k + (k + 1023) / 1024 - (k₀ + (k₀ + 1023) / 1024)

theorem growth_succ {k₀ k : Nat} (order : k₀ ≤ k) :
    growth k₀ (k + 1) = growth k₀ k + 1 + if k % 1024 = 0 then 1 else 0 := by
  unfold growth
  split <;> omega

/-- The free pages run out at the page table of the last page, which `allocuvm` does not notice. -/
def Starves (k₀ k available : Nat) : Prop := growth k₀ k = available + 1 ∧ k % 1024 = 1

/-- `allocuvm` returns the new size. -/
def Affords (k₀ k available : Nat) : Prop := growth k₀ k ≤ available ∨ Starves k₀ k available

/-- The image has grown from `k₀` to `k` pages out of the free pages `start`, in their order. -/
structure Stocked (start : List Nat) (m₀ : Memory) (k₀ k : Nat) (m : Memory) (free : List Nat) :
    Prop where
  order : k₀ ≤ k
  rest : free = start.drop (growth k₀ k)
  grown : ∀ p, p ∈ m.grown ↔ p ∈ m₀.grown ∨
    ∃ n, k₀ ≤ n ∧ n < k ∧ start[growth k₀ n]? = some p
  lost : growth k₀ k ≤ start.length ∧ m.lost = m₀.lost ∨
    Starves k₀ k start.length ∧ m.lost = (k - 1) :: m₀.lost

namespace Stocked

variable {layout : Layout} {own : Nat → Prop} {base : Nat → Page} {k₀ k d mem : Nat}
  {m₀ m : Memory} {start free rest : List Nat} {oldsz newsz : Word}

theorem init (m : Memory) (k : Nat) (free : List Nat) : Stocked free m k k m free where
  order := le_rfl
  rest := by rw [growth, Nat.sub_self, List.drop_zero]
  grown p := ⟨.inl, fun isGrown => isGrown.resolve_right fun ⟨n, lower, upper, _⟩ => by omega⟩
  lost := .inl ⟨by rw [growth, Nat.sub_self]; exact Nat.zero_le _, rfl⟩

theorem affords (stocked : Stocked start m₀ k₀ k m free) : Affords k₀ k start.length :=
  stocked.lost.imp And.left And.left

theorem congr {m' : Memory} (stocked : Stocked start m₀ k₀ k m free) (grown : m'.grown = m.grown)
    (lost : m'.lost = m.lost) : Stocked start m₀ k₀ k m' free where
  order := stocked.order
  rest := stocked.rest
  grown := by rw [grown]; exact stocked.grown
  lost := by rw [lost]; exact stocked.lost

theorem whole (stocked : Stocked start m₀ k₀ k m free) (lost : m₀.lost = []) (some : free ≠ []) :
    m.lost = [] := by
  rcases stocked.lost with ⟨-, same⟩ | ⟨⟨short, -⟩, -⟩
  · exact same.trans lost
  · exact absurd (stocked.rest.trans (List.drop_of_length_le (by omega))) some

theorem short {l : Nat} (stuck : Stocked start m₀ k₀ k m []) (more : k < l) :
    ¬Affords k₀ l start.length := by
  have length := congrArg List.length stuck.rest
  have order := stuck.order
  rw [List.length_nil, List.length_drop] at length
  unfold Affords Starves growth at *
  omega

theorem grown_succ {m' : Memory} (stocked : Stocked start m₀ k₀ k m free)
    (first : start[growth k₀ k]? = some mem) (added : m'.grown = mem :: m.grown) (p : Nat) :
    p ∈ m'.grown ↔ p ∈ m₀.grown ∨ ∃ n, k₀ ≤ n ∧ n < k + 1 ∧ start[growth k₀ n]? = some p := by
  rw [added, List.mem_cons, stocked.grown p]
  constructor
  · rintro (rfl | before | ⟨n, lower, upper, found⟩)
    · exact .inr ⟨k, stocked.order, Nat.lt_succ_self k, first⟩
    · exact .inl before
    · exact .inr ⟨n, lower, Nat.lt_succ_of_lt upper, found⟩
  · rintro (before | ⟨n, lower, upper, found⟩)
    · exact .inr (.inl before)
    · rcases Nat.lt_succ_iff_lt_or_eq.mp upper with below | rfl
      · exact .inr (.inr ⟨n, lower, below, found⟩)
      · exact .inl (Option.some.inj (found.symm.trans first))

theorem round (stocked : Stocked start m₀ k₀ k m (mem :: rest))
    (image : Image layout own base none k m d (mem :: rest)) (low : k < KERNPAGE)
    (whole : start ≠ [] → m₀.lost = []) :
    (growPage d mem (addr k)).Ensures { m with freelist := m.page mem 0 }
      (fun _ m' => ∃ free', Image layout own base none (k + 1) m' d free' ∧
        Stocked start m₀ k₀ (k + 1) m' free')
      (fun _ => False) := by
  have order := stocked.order
  have length := congrArg List.length stocked.rest
  rw [List.length_cons, List.length_drop] at length
  obtain ⟨-, kept⟩ : growth k₀ k ≤ start.length ∧ m.lost = m₀.lost :=
    stocked.lost.resolve_right fun starved => by
      have := starved.1.1
      omega
  have first : start[growth k₀ k]? = some mem := by
    rw [← List.head?_drop, ← stocked.rest, List.head?_cons]
  have tables := image.table_eq_none low (kept.trans (whole (by rintro rfl; simp at length)))
  have next : rest = start.drop (growth k₀ k + 1) := by
    rw [← List.drop_drop, ← stocked.rest, List.drop_one, List.tail_cons]
  have more := growth_succ order
  refine (image.grow low).mono ?_ fun _ stopped => stopped
  rintro - m' ⟨added, free', after, ⟨same, ⟨there, rfl⟩ | ⟨absent, t, rfl⟩⟩ |
    ⟨lost, absent, rfl, rfl⟩⟩
  · -- the page table is there
    rw [if_neg (mt tables.mpr there)] at more
    exact ⟨free', after, by omega, more ▸ next, stocked.grown_succ first added,
      .inl ⟨by omega, same.trans kept⟩⟩
  · rw [if_pos (tables.mp absent)] at more
    rw [List.length_cons] at length
    refine ⟨free', after, by omega, ?_, stocked.grown_succ first added,
      .inl ⟨by omega, same.trans kept⟩⟩
    rw [more, ← List.drop_drop, ← next, List.drop_one, List.tail_cons]
  · have outer := tables.mp absent
    rw [if_pos outer] at more
    rw [List.length_nil] at length
    refine ⟨[], after, by omega, ?_, stocked.grown_succ first added,
      .inr ⟨⟨by omega, by omega⟩, ?_⟩⟩
    · rw [more, ← List.drop_drop, ← next, List.drop_nil]
    · rw [lost, kept, Nat.add_sub_cancel]

/-- How `allocuvm` ends, by the number of free pages. -/
theorem allocuvm_spec (stocked : Stocked start m₀ k₀ (pages oldsz) m free)
    (image : Image layout own base none (pages oldsz) m d free)
    (whole : start ≠ [] → m₀.lost = []) :
    (allocuvm layout d oldsz newsz).Ensures m
      (fun result m' =>
        (newsz.toNat < KERNBASE ∧ result.toNat = max oldsz.toNat newsz.toNat ∧
          ∃ free', Image layout own base none (pages result) m' d free' ∧
            Stocked start m₀ k₀ (pages result) m' free') ∨
        (result = 0 ∧ m'.stray = [] ∧ (∃ free', Space layout own base m' d free') ∧
          (KERNBASE ≤ newsz.toNat ∨
            oldsz.toNat ≤ newsz.toNat ∧ ¬Affords k₀ (pages newsz) start.length)))
      (fun _ => False) := by
  refine (allocuvm_released (fun k m' free' => Image layout own base none k m' d free' ∧
      Stocked start m₀ k₀ k m' free') (fun holds => holds.1.toSpace)
    (fun _ low holds => holds.2.round holds.1 low whole) ⟨image, stocked⟩).mono ?_
    fun _ stopped => stopped
  rintro result m' (⟨rfl, below, order, free', after⟩ | ⟨rfl, less, below, rfl⟩ | ⟨rfl, high, rfl⟩ |
    ⟨rfl, -, order, k₁, m₁, free', inside, ⟨after, stuck⟩, released, space⟩)
  · exact .inl ⟨below, by omega, free', after⟩
  · exact .inl ⟨below, by omega, free, image, stocked⟩
  · exact .inr ⟨rfl, image.clean, ⟨free, image.toSpace⟩, .inl high⟩
  · obtain ⟨-, -, stray⟩ := Memory.history_eq.mp released.history
    exact .inr ⟨rfl, stray.trans after.clean, ⟨free', space⟩, .inr ⟨order, stuck.short inside⟩⟩

end Stocked

namespace Image

variable {layout : Layout} {own : Nat → Prop} {base : Nat → Page} {guard : Option Nat} {k : Nat}
  {m m' : Memory} {d : Nat} {free rest free' : List Nat} {mem n : Nat}

theorem store (image : Image layout own base guard k m d free) {p : Nat} (isGrown : p ∈ m.grown)
    (content : Page) : Image layout own base guard k
      { m with page := Function.update m.page p content } d free := by
  obtain ⟨inside, used, roles⟩ := image.apart isGrown
  have notTable : ∀ i, i < 1024 → table m.page d i ≠ some p := by
    intro i index found
    obtain ⟨n, same⟩ := roles (.table i) ⟨index, found⟩
    cases same
  have notDir : p ≠ d := by
    intro same
    obtain ⟨n, same⟩ := roles .dir same
    cases same
  obtain ⟨space, tables, entries⟩ := image.toSpace.frame
    { m with page := Function.update m.page p content } rfl inside used notDir notTable
    (fun q other => Function.update_of_ne other ..)
  have user : ∀ n, n < KERNPAGE → n < 2 ^ 20 := by
    unfold KERNPAGE
    omega
  refine { toSpace := space, kernel := image.kernel.frame fun n _ small => entries n small,
           bound := image.bound, mapped := fun {n w} low found => ?_,
           covered := fun {n} inside kept => ?_, tables := fun {i} low found => ?_,
           lost_lt := image.lost_lt, apart := fun {q} isGrown => ?_, clean := image.clean }
  · exact image.mapped low ((entries n (user n low)).symm.trans found)
  · have bound := image.bound
    refine fun absent => image.covered inside kept ?_
    rw [← entries n (user n (by omega)), absent]
  · refine image.tables low fun absent => found ?_
    exact (tables i).trans absent
  · obtain ⟨inside', used', roles'⟩ := image.apart isGrown
    exact ⟨inside', used', fun role owned => roles' role (owned.frame tables entries)⟩

end Image

end Xv6.Vm
