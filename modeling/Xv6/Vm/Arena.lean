import Xv6.Lib.Chain
import Xv6.Vm.Paging

/-!
# The page allocator

An `Arena` is the part of physical memory that a computation works in: the pages
it may change, which include the free list.  Every other page is as in `base`.
`kalloc` and `kfree` move pages off and onto the free list; the lemmas say what
happens to the list and that nothing else changes.
-/

namespace Xv6.Vm

open Exec

def Memory.history (m : Memory) : List Nat × List Nat × List Nat := (m.grown, m.lost, m.stray)

theorem Memory.history_eq {m m' : Memory} :
    m'.history = m.history ↔ m'.grown = m.grown ∧ m'.lost = m.lost ∧ m'.stray = m.stray := by
  simp only [Memory.history, Prod.mk.injEq]

/-- The free list `free`, inside the pages `own`. -/
structure Arena (layout : Layout) (own : Nat → Prop) (base : Nat → Page) (m : Memory)
    (free : List Nat) : Prop where
  chain : Chain p2v (fun p => m.page p 0) 0 m.freelist free
  nodup : free.Nodup
  within : ∀ p ∈ free, own p
  range : ∀ p, own p → layout.last ≤ p ∧ p < PHYSTOP / PGSIZE
  outside : ∀ p, ¬own p → m.page p = base p

/-- The free list of the allocator. -/
structure FreeList (layout : Layout) (m : Memory) (free : List Nat) : Prop where
  chain : Chain p2v (fun p => m.page p 0) 0 m.freelist free
  nodup : free.Nodup
  range : ∀ p ∈ free, layout.last ≤ p ∧ p < PHYSTOP / PGSIZE

theorem FreeList.arena {layout : Layout} {m : Memory} {free : List Nat}
    (list : FreeList layout m free) : Arena layout (· ∈ free) m.page m free :=
  ⟨list.chain, list.nodup, fun _ isFree => isFree, list.range, fun _ _ => rfl⟩

theorem FreeList.unique {layout : Layout} {m : Memory} {free free' : List Nat}
    (list : FreeList layout m free) (list' : FreeList layout m free') : free = free' := by
  have small : ∀ {l}, FreeList layout m l → ∀ p ∈ l, p < 2 ^ 19 := by
    intro l isList p member
    have := (isList.range p member).2
    unfold PHYSTOP PGSIZE at this
    omega
  refine list.chain.unique list'.chain (fun p member p' member' same => ?_)
    (fun p member => p2v_ne_zero (small list p member))
    fun p member => p2v_ne_zero (small list' p member)
  rw [← frame_p2v (small list p member), same, frame_p2v (small list' p' member')]

variable {layout : Layout} {own : Nat → Prop} {base : Nat → Page} {m m' : Memory}
  {free rest : List Nat} {p : Nat}

namespace Arena

theorem small (arena : Arena layout own base m free) (inside : own p) : p < 2 ^ 19 := by
  have := (arena.range p inside).2
  unfold PHYSTOP PGSIZE at this
  omega

theorem pos (arena : Arena layout own base m free) (inside : own p) : 0 < p := by
  have := Nat.zero_lt_of_lt layout.text_below
  have := layout.data_below
  have := (arena.range p inside).1
  omega

theorem frame (arena : Arena layout own base m free) (freelist : m'.freelist = m.freelist)
    (same : ∀ p, p ∈ free ∨ ¬own p → m'.page p = m.page p) : Arena layout own base m' free where
  chain := by
    rw [freelist]
    exact arena.chain.frame fun p member => by rw [same p (.inl member)]
  nodup := arena.nodup
  within := arena.within
  range := arena.range
  outside p out := by rw [same p (.inr out), arena.outside p out]

theorem tail (arena : Arena layout own base m (p :: rest)) :
    Arena layout own base { m with freelist := m.page p 0 } rest where
  chain := arena.chain.2
  nodup := (List.nodup_cons.mp arena.nodup).2
  within q member := arena.within q (by simp [member])
  range := arena.range
  outside := arena.outside

theorem head_not_mem (arena : Arena layout own base m (p :: rest)) : p ∉ rest :=
  (List.nodup_cons.mp arena.nodup).1

end Arena

theorem kalloc_spec (arena : Arena layout own base m free) : kalloc.Ensures m
    (fun result m' => (result = none ∧ free = [] ∧ m' = m) ∨
      ∃ p rest, result = some p ∧ free = p :: rest ∧ m' = { m with freelist := m.page p 0 })
    (fun _ => False) := by
  unfold kalloc
  rw [ensures_bind, ensures_get]
  cases free with
  | nil =>
    have empty : m.freelist = 0 := arena.chain
    rw [if_pos empty, ensures_pure]
    exact .inl ⟨rfl, rfl, rfl⟩
  | cons p rest =>
    have small := arena.small (arena.within p (by simp))
    have head : m.freelist = p2v p := arena.chain.1
    have nonempty : m.freelist ≠ 0 := by
      rw [head]
      exact p2v_ne_zero small
    have page : frame (m.freelist - kernbase) = p := by rw [head, frame_p2v small]
    rw [if_neg nonempty]
    simp only [page, ensures_bind, ensures_modify, ensures_pure]
    exact .inr ⟨p, rest, rfl, rfl, rfl⟩

theorem kfree_spec (arena : Arena layout own base m free) (inside : own p) (used : p ∉ free) :
    (kfree layout p).Ensures m
      (fun _ m' => Arena layout own base m' (p :: free) ∧ (∀ q, q ≠ p → m'.page q = m.page q) ∧
        m'.history = m.history)
      (fun _ => False) := by
  obtain ⟨lower, upper⟩ := arena.range p inside
  unfold kfree
  rw [if_neg (by omega)]
  simp only [setPage, setWord, ensures_bind, ensures_modify, ensures_get]
  have others : ∀ q, q ≠ p → ∀ (page page' : Page),
      Function.update (Function.update m.page p page) p page' q = m.page q := by
    intro q different page page'
    rw [Function.update_of_ne different, Function.update_of_ne different]
  refine ⟨⟨⟨rfl, ?_⟩, List.nodup_cons.mpr ⟨used, arena.nodup⟩, ?_, arena.range, ?_⟩, ?_, rfl⟩
  · simp only [Function.update_self]
    refine arena.chain.frame fun q member => ?_
    rw [others q (fun same => used (same ▸ member))]
  · intro q member
    rcases List.mem_cons.mp member with rfl | member
    · exact inside
    · exact arena.within q member
  · intro q out
    rw [← arena.outside q out]
    exact others q (fun same => out (same ▸ inside)) _ _
  · intro q different
    exact others q different _ _

/-! ## Initialisation -/

theorem freePages_spec {first : Nat} (count : Nat) (arena : Arena layout own base m free)
    (inside : ∀ p, first ≤ p → p < first + count → own p ∧ p ∉ free) :
    (freePages layout first count).Ensures m
      (fun _ m' => m'.history = m.history ∧
        Arena layout own base m' ((List.range' first count).reverse ++ free))
      (fun _ => False) := by
  induction count generalizing m first free with
  | zero => exact ⟨rfl, arena⟩
  | succ count ih =>
    obtain ⟨here, used⟩ := inside first le_rfl (by omega)
    refine (kfree_spec arena here used).bind ?_ (by simp)
    rintro - m' ⟨after, -, history⟩
    refine (ih after fun p lower upper => ?_).mono ?_ (by simp)
    · obtain ⟨isOwn, notFree⟩ := inside p (by omega) (by omega)
      refine ⟨isOwn, ?_⟩
      simp only [List.mem_cons, not_or]
      exact ⟨by omega, notFree⟩
    · rintro - m'' ⟨history', arena'⟩
      refine ⟨history'.trans history, ?_⟩
      rw [List.range'_succ, List.reverse_cons, List.append_assoc, List.singleton_append]
      exact arena'

def pagesBetween (vstart vend : Nat) : List Nat :=
  List.range' ((vstart + 4095) / 4096) (vend / 4096 - (vstart + 4095) / 4096)

theorem mem_pagesBetween {vstart vend : Nat} :
    p ∈ pagesBetween vstart vend ↔ vstart ≤ p * 4096 ∧ (p + 1) * 4096 ≤ vend := by
  rw [pagesBetween, List.mem_range'_1]
  omega

theorem freerange_spec {vstart vend : Nat} (arena : Arena layout own base m free)
    (inside : ∀ p ∈ pagesBetween vstart vend, own p ∧ p ∉ free) :
    (freerange layout vstart vend).Ensures m
      (fun _ m' => m'.history = m.history ∧
        Arena layout own base m' ((pagesBetween vstart vend).reverse ++ free))
      (fun _ => False) :=
  freePages_spec _ arena fun p lower upper => inside p (List.mem_range'_1.mpr ⟨lower, upper⟩)

def Memory.blank : Memory where
  page _ _ := 0
  freelist := 0
  grown := []
  lost := []
  stray := []

theorem freerange_blank (layout : Layout) (vstart vend : Nat)
    (lower : layout.last * PGSIZE ≤ vstart) (upper : vend ≤ PHYSTOP) :
    ∃ m, freerange layout vstart vend .blank = .ok ((), m) ∧
      FreeList layout m (pagesBetween vstart vend).reverse := by
  have start : Arena layout (· ∈ pagesBetween vstart vend) Memory.blank.page .blank [] := by
    refine ⟨rfl, List.nodup_nil, by simp, fun p inside => ?_, fun _ _ => rfl⟩
    have := mem_pagesBetween.mp inside
    unfold PHYSTOP at upper
    have top : PHYSTOP / PGSIZE = 57344 := rfl
    unfold PGSIZE at lower
    omega
  obtain ⟨⟨⟩, m, returns, -, arena⟩ :=
    (freerange_spec start fun p inside => ⟨inside, by simp⟩).exists_ok
  rw [List.append_nil] at arena
  exact ⟨m, returns, arena.chain, arena.nodup,
    fun p isFree => arena.range p (arena.within p isFree)⟩

end Xv6.Vm
