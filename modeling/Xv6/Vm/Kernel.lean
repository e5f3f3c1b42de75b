import Mathlib.Data.Finset.Card
import Xv6.Vm.Space

/-!
# The kernel half of an address space

`setupkvm` builds a directory with the mappings of `kmap` and an empty user half.
Physical memory below `PHYSTOP` is mapped from `KERNBASE` on and the devices are
mapped at their own addresses; the directory has no page tables for the addresses
between the two, and none of the entries is for users.
-/

open Function (update update_of_ne)

namespace Xv6.Vm

open Exec

/-! ## Addresses of pages -/

section Addr

variable {k c : Nat}

theorem addr_add (k c : Nat) : addr k + addr c = addr (k + c) := by
  unfold addr
  rw [Nat.add_mul, BitVec.ofNat_add]

theorem addr_succ (k : Nat) : addr k + BitVec.ofNat 32 PGSIZE = addr (k + 1) := addr_add k 1

theorem pageNumber_addr (small : k < 2 ^ 20) : pageNumber (addr k) = k := by
  rw [pageNumber, toNat_addr small]
  unfold PGSIZE
  omega

theorem addr_inj (small : k < 2 ^ 20) (small' : c < 2 ^ 20) (same : addr k = addr c) : k = c := by
  rw [← pageNumber_addr small, same, pageNumber_addr small']

theorem roundDown_last (positive : 0 < c) (inside : k + c ≤ 2 ^ 20) :
    PGROUNDDOWN (addr k + addr c - 1) = addr (k + c - 1) := by
  apply BitVec.eq_of_toNat_eq
  have one : (1 : Word).toNat = 1 := rfl
  have last : (addr (k + c) - 1).toNat = (k + c) * 4096 - 1 := by
    rw [BitVec.toNat_sub, one, addr, BitVec.toNat_ofNat]
    unfold PGSIZE
    omega
  rw [toNat_roundDown, addr_add, last, toNat_addr (by omega)]
  unfold PGSIZE
  omega

end Addr

/-! ## Ranges of pages -/

def tables (page : Nat → Page) (d : Nat) : Nat :=
  ((Finset.range 1024).filter fun i => (table page d i).isSome).card

section Range

variable {users : Bool} {layout : Layout} {own : Nat → Prop} {base : Nat → Page} {m : Memory}
  {d n k l f : Nat} {free free' : List Nat} {page page' : Nat → Page} {w perm : Word}

theorem Mapped.budget (mapped : Mapped page page' d n w free free') (small : n < 2 ^ 20) :
    free'.length + tables page' d = free.length + tables page d := by
  rcases mapped.used with ⟨rfl, same⟩ | ⟨t, rfl, absent, found⟩
  · have all : ∀ i, table page' d i = table page d i := by
      intro i
      by_cases here : i = n / 1024
      · rw [here, same]
      · exact mapped.table_other here
    simp only [tables, all]
  · have more : ((Finset.range 1024).filter fun i => (table page' d i).isSome) =
        insert (n / 1024) ((Finset.range 1024).filter fun i => (table page d i).isSome) := by
      ext i
      by_cases here : i = n / 1024
      · subst here
        simp [found]
        omega
      · simp [here, mapped.table_other here]
    rw [tables, more, Finset.card_insert_of_notMem (by simp [absent]), List.length_cons, tables]
    omega

/-- Every page that is no longer free has become a page table. -/
structure Drawn (page page' : Nat → Page) (d : Nat) (free free' : List Nat) : Prop where
  kept : ∀ {i t}, table page d i = some t → table page' d i = some t
  tables : ∀ p ∈ free, p ∈ free' ∨ ∃ i, i < 1024 ∧ table page' d i = some p
  suffix : free' <:+ free

theorem Drawn.refl (page : Nat → Page) (d : Nat) (free : List Nat) : Drawn page page d free free :=
  ⟨fun found => found, fun _ isFree => .inl isFree, List.suffix_rfl⟩

theorem Drawn.trans {mid : Nat → Page} {free'' : List Nat} (first : Drawn page mid d free free')
    (second : Drawn mid page' d free' free'') : Drawn page page' d free free'' where
  kept found := second.kept (first.kept found)
  tables p isFree := by
    rcases first.tables p isFree with stillFree | ⟨i, small, found⟩
    · exact second.tables p stillFree
    · exact .inr ⟨i, small, second.kept found⟩
  suffix := second.suffix.trans first.suffix

theorem Mapped.drawn (mapped : Mapped page page' d n w free free') (small : n < 2 ^ 20) :
    Drawn page page' d free free' where
  kept {i t} found := by
    by_cases here : i = n / 1024
    · subst here
      rcases mapped.used with ⟨-, same⟩ | ⟨t, -, absent, -⟩
      · rw [same, found]
      · rw [absent] at found
        cases found
    · rw [mapped.table_other here, found]
  tables p isFree := by
    rcases mapped.used with ⟨rfl, -⟩ | ⟨t, rfl, -, new⟩
    · exact .inl isFree
    · rcases List.mem_cons.mp isFree with rfl | isFree
      · exact .inr ⟨n / 1024, by omega, new⟩
      · exact .inl isFree
  suffix := by
    rcases mapped.used with ⟨rfl, -⟩ | ⟨t, rfl, -⟩
    · exact List.suffix_rfl
    · exact List.suffix_cons ..

/-- The free pages have run out at a page table: all of them have become page tables, at indices
of which at least one more is wanted. -/
structure Short (page page' : Nat → Page) (d : Nat) (wanted : Nat → Prop) (available : Nat) :
    Prop where
  missing : ∃ i, wanted i ∧ table page' d i = none
  others : ∀ {i}, ¬wanted i → table page' d i = table page d i
  budget : available + tables page d = tables page' d

theorem Short.mono {wanted wanted' : Nat → Prop} {available : Nat}
    (short : Short page page' d wanted available) (more : ∀ i, wanted i → wanted' i) :
    Short page page' d wanted' available where
  missing := by
    obtain ⟨i, isWanted, absent⟩ := short.missing
    exact ⟨i, more i isWanted, absent⟩
  others notWanted := short.others (mt (more _) notWanted)
  budget := short.budget

theorem Short.after {mid : Nat → Page} {wanted : Nat → Prop} {available : Nat}
    (short : Short mid page' d wanted available)
    (others : ∀ {i}, ¬wanted i → table mid d i = table page d i)
    (budget : available + tables mid d = free.length + tables page d) :
    Short page page' d wanted free.length where
  missing := short.missing
  others notWanted := (short.others notWanted).trans (others notWanted)
  budget := by rw [← budget, short.budget]

/-- The virtual pages from `k` to `l` now have the entries `f`. -/
structure Ranged (page page' : Nat → Page) (d k l : Nat) (f : Nat → Word) : Prop where
  inside : ∀ {n}, k ≤ n → n ≤ l → lookup page' d n = some (f n)
  outside : ∀ {n}, n < 2 ^ 20 → n < k ∨ l < n → lookup page' d n = lookup page d n ∨
    lookup page d n = none ∧ lookup page' d n = some 0
  table_other : ∀ {i}, i < k / 1024 ∨ l / 1024 < i → table page' d i = table page d i

theorem Mapped.ranged {f : Nat → Word} (mapped : Mapped page page' d n (f n) free free') :
    Ranged page page' d n n f where
  inside lower upper := by
    obtain rfl := Nat.le_antisymm upper lower
    exact mapped.self
  outside small out := by
    rcases mapped.other small (by omega) with same | ⟨-, new⟩
    · exact .inl same
    · exact .inr new
  table_other out := mapped.table_other (by omega)

theorem Mapped.cons {f : Nat → Word} {mid : Nat → Page}
    (mapped : Mapped page mid d k (f k) free free')
    (rest : Ranged mid page' d (k + 1) l f) (order : k < l) (small : l < 2 ^ 20) :
    Ranged page page' d k l f where
  inside {n} lower upper := by
    by_cases first : n = k
    · subst first
      rcases rest.outside (by omega) (.inl (Nat.lt_succ_self n)) with same | ⟨absent, -⟩
      · rw [same, mapped.self]
      · rw [mapped.self] at absent
        cases absent
    · exact rest.inside (by omega) upper
  outside {n} small out := by
    have before := mapped.other small (show n ≠ k by omega)
    rcases rest.outside small (by omega) with same | ⟨absent, new⟩
    · rw [same]
      rcases before with same' | ⟨-, new'⟩
      · exact .inl same'
      · exact .inr new'
    · rcases before with same' | ⟨-, -, new'⟩
      · exact .inr ⟨by rw [← same', absent], new⟩
      · rw [new'] at absent
        cases absent
  table_other {i} out := by
    rw [rest.table_other (by omega), mapped.table_other (by omega)]

theorem mappagesLoop_spec (fuel : Nat) (space : SpaceIn users layout own base m d free)
    (kernel : users = true → KERNPAGE ≤ k) (order : k ≤ l) (small : l < 2 ^ 20)
    (enough : l < k + fuel)
    (fresh : ∀ n, k ≤ n → n ≤ l → ∀ w, lookup m.page d n = some w → present w = false) :
    (mappagesLoop d perm (addr l) fuel (addr k) (addr f)).Ensures m
      (fun ok m' => m'.history = m.history ∧
        ((ok = false ∧ Arena layout own base m' [] ∧
            Short m.page m'.page d (fun i => k / 1024 ≤ i ∧ i ≤ l / 1024) free.length) ∨
          ok = true ∧ ∃ free', SpaceIn users layout own base m' d free' ∧
            free'.length + tables m'.page d = free.length + tables m.page d ∧
            Drawn m.page m'.page d free free' ∧
            Ranged m.page m'.page d k l fun n => entry (addr (n + f - k)) perm))
      (fun _ => False) := by
  induction fuel generalizing m k f free with
  | zero => omega
  | succ fuel ih =>
    have page : pageNumber (addr k) = k := pageNumber_addr (by omega)
    have first := mapPage_spec space perm (addr k) (addr f) fun counted low => by
      have := kernel counted
      omega
    rw [page] at first
    unfold mappagesLoop
    refine first.bind ?_ ?_
    · rintro ok m' ⟨history, ⟨rfl, rfl, absent, rfl⟩ | ⟨rfl, free', after, mapped⟩⟩
      · refine ⟨rfl, .inl ⟨rfl, space.toArena, ⟨k / 1024, ⟨le_rfl, by omega⟩, absent⟩,
          fun _ => rfl, ?_⟩⟩
        rw [List.length_nil, Nat.zero_add]
      · have budget := mapped.budget (by omega)
        have value : entry (addr f) perm = entry (addr (k + f - k)) perm := by
          rw [Nat.add_sub_cancel_left]
        rw [value] at mapped
        simp only [if_true]
        by_cases last : k = l
        · subst last
          rw [if_pos rfl]
          exact ⟨history, .inr ⟨rfl, free', after, budget, mapped.drawn (by omega),
            Mapped.ranged (f := fun n => entry (addr (n + f - k)) perm) mapped⟩⟩
        · rw [if_neg fun same => last (addr_inj (by omega) small same), addr_succ, addr_succ]
          have freshAfter : ∀ n, k + 1 ≤ n → n ≤ l → ∀ w, lookup m'.page d n = some w →
              present w = false := by
            intro n lower upper w entry
            rcases mapped.other (show n < 2 ^ 20 by omega) (by omega) with same | ⟨-, -, new⟩
            · exact fresh n (by omega) upper w (by rw [← same, entry])
            · rw [new] at entry
              cases entry
              rfl
          refine (ih (k := k + 1) (f := f + 1) after
            (fun counted => Nat.le_succ_of_le (kernel counted))
            (by omega) (by omega) freshAfter).mono ?_ (by simp)
          rintro ok m'' ⟨history', ⟨rfl, arena, short⟩ |
            ⟨rfl, free'', space'', budget', drawn, ranged⟩⟩
          · refine ⟨history'.trans history, .inl ⟨rfl, arena,
              (short.mono fun i wanted => ⟨by omega, wanted.2⟩).after (fun {i} away => ?_) budget⟩⟩
            exact mapped.table_other (by omega)
          · refine ⟨history'.trans history, .inr ⟨rfl, free'', space'', by omega,
              (mapped.drawn (by omega)).trans drawn, ?_⟩⟩
            have shift : (fun n => entry (addr (n + (f + 1) - (k + 1))) perm) =
                fun n => entry (addr (n + f - k)) perm := by
              funext n
              rw [show n + (f + 1) - (k + 1) = n + f - k by omega]
            rw [shift] at ranged
            exact Mapped.cons (f := fun n => entry (addr (n + f - k)) perm) mapped ranged
              (by omega) small
    · rintro stop ⟨rfl, w, entry, isPresent⟩
      have absent := fresh k le_rfl order w entry
      rw [isPresent] at absent
      cases absent

theorem mappages_spec {c : Nat} (space : SpaceIn users layout own base m d free)
    (kernel : users = true → KERNPAGE ≤ k) (positive : 0 < c) (small : k + c ≤ 2 ^ 20)
    (fresh : ∀ n, k ≤ n → n < k + c → ∀ w, lookup m.page d n = some w → present w = false) :
    (mappages d (addr k) (addr c) (addr f) perm).Ensures m
      (fun ok m' => m'.history = m.history ∧
        ((ok = false ∧ Arena layout own base m' [] ∧
            Short m.page m'.page d (fun i => k / 1024 ≤ i ∧ i ≤ (k + c - 1) / 1024) free.length) ∨
          ok = true ∧ ∃ free', SpaceIn users layout own base m' d free' ∧
            free'.length + tables m'.page d = free.length + tables m.page d ∧
            Drawn m.page m'.page d free free' ∧
            Ranged m.page m'.page d k (k + c - 1) fun n => entry (addr (n + f - k)) perm))
      (fun _ => False) := by
  have start : PGROUNDDOWN (addr k) = addr k := by
    apply BitVec.eq_of_toNat_eq
    rw [toNat_roundDown, toNat_addr (by omega)]
    unfold PGSIZE
    omega
  unfold mappages
  rw [roundDown_last positive small, start]
  exact mappagesLoop_spec (2 ^ 20) space kernel (by omega) (by omega) (by omega)
    fun n lower upper => fresh n lower (by omega)

end Range

/-! ## `setupkvm` -/

/-- A range of pages of the kernel half and where it is in physical memory. -/
structure Line where
  first : Nat
  count : Nat
  phys : Nat
  perm : Word

def Line.kmap (line : Line) : Kmap :=
  ⟨addr line.first, addr line.phys, addr (line.phys + line.count), line.perm⟩

structure Line.Good (line : Line) : Prop where
  positive : 0 < line.count
  kernel : KERNPAGE ≤ line.first
  small : line.first + line.count ≤ 2 ^ 20
  phys : line.phys + line.count ≤ 2 ^ 20
  flags : line.perm.toNat < PGSIZE
  noUser : isUser line.perm = false

def Line.Maps (line : Line) (page : Nat → Page) (d : Nat) : Prop :=
  ∀ n, line.first ≤ n → n < line.first + line.count → ∃ w, lookup page d n = some w ∧
    present w = true ∧ isUser w = false ∧ frame w = n + line.phys - line.first

def Line.Listed (line : Line) (page : Nat → Page) (d : Nat) : Prop :=
  ∀ n, line.first ≤ n → n < line.first + line.count →
    lookup page d n = some (entry (addr (n + line.phys - line.first)) line.perm)

/-- The page tables that the pages of some lines need. -/
def Wanted (lines : List Line) (i : Nat) : Prop :=
  ∃ line ∈ lines, line.first / 1024 ≤ i ∧ i ≤ (line.first + line.count - 1) / 1024

def Blank (page : Nat → Page) (d n : Nat) : Prop :=
  ∀ w, lookup page d n = some w → present w = false

section Setup

variable {layout : Layout} {own : Nat → Prop} {base : Nat → Page} {m : Memory} {d : Nat}
  {free : List Nat} {page page' : Nat → Page} {line : Line}

theorem Line.Listed.maps (listed : line.Listed page d) (good : line.Good) : line.Maps page d := by
  intro n lower upper
  have physical := good.phys
  refine ⟨_, listed n lower upper, by simp, ?_, ?_⟩
  · rw [isUser_entry (addr_aligned _), good.noUser]
  · exact frame_entry_addr (by omega) good.flags

theorem Ranged.keep {k l : Nat} {f : Nat → Word} (ranged : Ranged page page' d k l f) {n : Nat}
    (small : n < 2 ^ 20) (out : n < k ∨ l < n) :
    (∀ w, lookup page d n = some w → lookup page' d n = some w) ∧
      (Blank page d n → Blank page' d n) := by
  rcases ranged.outside small out with same | ⟨absent, new⟩
  · rw [Blank, Blank, same]
    exact ⟨fun _ found => found, fun blank => blank⟩
  · refine ⟨fun w found => ?_, fun _ w found => ?_⟩
    · rw [absent] at found
      cases found
    · rw [new] at found
      cases found
      rfl

theorem setupkvmLoop_spec (lines : List Line) (space : Space layout own base m d free)
    (good : ∀ line ∈ lines, line.Good)
    (apart : lines.Pairwise fun line line' => line.first + line.count ≤ line'.first)
    (fresh : ∀ line ∈ lines, ∀ n, line.first ≤ n → n < line.first + line.count →
      Blank m.page d n) :
    (setupkvmLoop d (lines.map Line.kmap)).Ensures m
      (fun result m' => m'.history = m.history ∧
        ((result = none ∧ Arena layout own base m' [] ∧
            Short m.page m'.page d (Wanted lines) free.length) ∨
          result = some d ∧ ∃ free', Space layout own base m' d free' ∧
            free'.length + tables m'.page d = free.length + tables m.page d ∧
            Drawn m.page m'.page d free free' ∧ (∀ line ∈ lines, line.Listed m'.page d) ∧
            (∀ n w, n < 2 ^ 20 → (∀ line ∈ lines, n < line.first ∨ line.first + line.count ≤ n) →
              lookup m.page d n = some w → lookup m'.page d n = some w) ∧
            ∀ i, ¬Wanted lines i → table m'.page d i = table m.page d i))
      (fun _ => False) := by
  induction lines generalizing m free with
  | nil =>
    exact ⟨rfl, .inr ⟨rfl, free, space, rfl, Drawn.refl .., by simp, fun _ _ _ _ found => found,
      fun _ _ => rfl⟩⟩
  | cons line rest ih =>
    obtain ⟨before, apartRest⟩ := List.pairwise_cons.mp apart
    have isGood := good line (by simp)
    have size : addr (line.phys + line.count) - addr line.phys = addr line.count := by
      rw [← addr_add, BitVec.add_comm, BitVec.add_sub_cancel]
    simp only [List.map_cons, setupkvmLoop, Line.kmap, size]
    refine (mappages_spec space (fun _ => isGood.kernel) isGood.positive isGood.small
      (fresh line (by simp))).bind ?_ (by simp)
    rintro ok m' ⟨history, ⟨rfl, arena, short⟩ | ⟨rfl, free', after, budget, drawn, ranged⟩⟩
    · exact ⟨history, .inl ⟨rfl, arena, short.mono fun i wanted => ⟨line, by simp, wanted⟩⟩⟩
    · have awayFirst : ∀ {i}, ¬Wanted (line :: rest) i → table m'.page d i = table m.page d i := by
        intro i away
        refine ranged.table_other ?_
        by_contra inside
        exact away ⟨line, by simp, by omega, by omega⟩
      have moreWanted : ∀ i, Wanted rest i → Wanted (line :: rest) i :=
        fun _ ⟨line', member, inside⟩ => ⟨line', by simp [member], inside⟩
      have out : ∀ line' ∈ rest, ∀ n, line'.first ≤ n → line.first + line.count - 1 < n := by
        intro line' member n lower
        have := before line' member
        have := isGood.positive
        omega
      have freshAfter : ∀ line' ∈ rest, ∀ n, line'.first ≤ n → n < line'.first + line'.count →
          Blank m'.page d n := by
        intro line' member n lower upper
        have small := (good line' (by simp [member])).small
        exact (ranged.keep (by omega) (.inr (out line' member n lower))).2
          (fresh line' (by simp [member]) n lower upper)
      refine (ih after (fun line' member => good line' (by simp [member]))
        apartRest freshAfter).mono ?_ (by simp)
      rintro result m'' ⟨history', ⟨rfl, arena, short⟩ |
        ⟨rfl, free'', space'', budget', drawn', listed, kept, others⟩⟩
      · exact ⟨history'.trans history, .inl ⟨rfl, arena,
          (short.mono moreWanted).after awayFirst budget⟩⟩
      · refine ⟨history'.trans history, .inr ⟨rfl, free'', space'', by omega, drawn.trans drawn',
          ?_, ?_, ?_⟩⟩
        · intro line' member
          rcases List.mem_cons.mp member with rfl | member
          · intro n lower upper
            have small := isGood.small
            refine kept n _ (by omega) (fun line' member => .inl ?_)
              (ranged.inside lower (by omega))
            exact Nat.lt_of_lt_of_le upper (before line' member)
          · exact listed line' member
        · intro n w small away found
          have out := away line (by simp)
          have positive := isGood.positive
          exact kept n w small (fun line' member => away line' (by simp [member]))
            ((ranged.keep small (by omega)).1 w found)
        · intro i away
          rw [others i (mt (moreWanted i) away), awayFirst away]

def kernelFrame (n : Nat) : Option Nat :=
  if n < KERNPAGE + PHYSTOP / PGSIZE then some (n - KERNPAGE)
  else if DEVSPACE / PGSIZE ≤ n then some n else none

structure KernelHalf (page : Nat → Page) (d : Nat) : Prop where
  mapped : ∀ {n f}, KERNPAGE ≤ n → n < 2 ^ 20 → kernelFrame n = some f → ∃ w,
    lookup page d n = some w ∧ present w = true ∧ isUser w = false ∧ frame w = f
  absent : ∀ {n}, KERNPAGE ≤ n → n < 2 ^ 20 → kernelFrame n = none → lookup page d n = none

def kmapLines (layout : Layout) : List Line := [
  ⟨KERNPAGE, 0x100, 0, PTE_W⟩,
  ⟨KERNPAGE + 0x100, layout.data - 0x100, 0x100, 0⟩,
  ⟨KERNPAGE + layout.data, 0xE000 - layout.data, layout.data, PTE_W⟩,
  ⟨0xFE000, 0x2000, 0xFE000, PTE_W⟩]

theorem kmap_eq (layout : Layout) : kmap layout = (kmapLines layout).map Line.kmap := by
  have text : 0x100 < layout.data := layout.text_below
  have top : layout.data < 0xE000 := Nat.lt_of_le_of_lt layout.data_below layout.fits
  simp only [kmap, kmapLines, List.map_cons, List.map_nil, Line.kmap, List.cons.injEq,
    Kmap.mk.injEq, and_true, true_and]
  refine ⟨by decide, ⟨by decide, by decide, ?_⟩, ⟨?_, ?_⟩, by decide⟩
  · rw [show 0x100 + (layout.data - 0x100) = layout.data by omega]
  · exact addr_add KERNPAGE layout.data
  · rw [show layout.data + (0xE000 - layout.data) = 0xE000 by omega]
    decide

theorem kmapLines_good (layout : Layout) : ∀ line ∈ kmapLines layout, line.Good := by
  have text : 0x100 < layout.data := layout.text_below
  have top : layout.data < 0xE000 := Nat.lt_of_le_of_lt layout.data_below layout.fits
  unfold kmapLines
  simp only [List.mem_cons, List.not_mem_nil, or_false]
  rintro line (rfl | rfl | rfl | rfl)
  · exact ⟨by decide, by decide, by decide, by decide, by decide, by decide⟩
  · refine ⟨?_, ?_, ?_, ?_, show (0 : Word).toNat < PGSIZE by decide,
      show isUser (0 : Word) = false by decide⟩ <;> simp only [KERNPAGE] <;> omega
  · refine ⟨?_, ?_, ?_, ?_, show PTE_W.toNat < PGSIZE by decide,
      show isUser PTE_W = false by decide⟩ <;> simp only [KERNPAGE] <;> omega
  · exact ⟨by decide, by decide, by decide, by decide, by decide, by decide⟩

theorem kmapLines_apart (layout : Layout) :
    (kmapLines layout).Pairwise fun line line' => line.first + line.count ≤ line'.first := by
  have text : 0x100 < layout.data := layout.text_below
  have top : layout.data < 0xE000 := Nat.lt_of_le_of_lt layout.data_below layout.fits
  unfold kmapLines
  simp only [List.pairwise_cons, List.mem_cons, List.not_mem_nil, or_false, KERNPAGE,
    forall_eq_or_imp, forall_eq, List.Pairwise.nil, and_true, false_imp_iff, implies_true]
  omega

def kernelIndices : Finset Nat := Finset.Ico 512 568 ∪ Finset.Ico 1016 1024

theorem card_kernelIndices : kernelIndices.card = 64 := by
  have apart : Disjoint (Finset.Ico 512 568) (Finset.Ico 1016 1024) := by
    rw [Finset.disjoint_left]
    intro i first second
    rw [Finset.mem_Ico] at first second
    omega
  rw [kernelIndices, Finset.card_union_of_disjoint apart, Nat.card_Ico, Nat.card_Ico]

theorem wanted_kmapLines (layout : Layout) {i : Nat} :
    Wanted (kmapLines layout) i ↔ i ∈ kernelIndices := by
  have text : 0x100 < layout.data := layout.text_below
  have top : layout.data < 0xE000 := Nat.lt_of_le_of_lt layout.data_below layout.fits
  simp only [Wanted, kmapLines, kernelIndices, List.mem_cons, List.not_mem_nil, or_false,
    exists_eq_or_imp, exists_eq_left, Finset.mem_union, Finset.mem_Ico, KERNPAGE]
  omega

theorem kmapLines_cover (layout : Layout) {n : Nat} (kernel : KERNPAGE ≤ n) (small : n < 2 ^ 20) :
    (∃ line ∈ kmapLines layout, line.first ≤ n ∧ n < line.first + line.count ∧
      kernelFrame n = some (n + line.phys - line.first)) ∨
    kernelFrame n = none ∧ ¬Wanted (kmapLines layout) (n / 1024) := by
  rw [wanted_kmapLines]
  have text : 0x100 < layout.data := layout.text_below
  have top : layout.data < 0xE000 := Nat.lt_of_le_of_lt layout.data_below layout.fits
  have direct : KERNPAGE + PHYSTOP / PGSIZE = 0x8E000 := rfl
  have devices : DEVSPACE / PGSIZE = 0xFE000 := rfl
  unfold kernelFrame kmapLines kernelIndices
  rw [direct, devices]
  unfold KERNPAGE at *
  simp only [List.mem_cons, List.not_mem_nil, or_false, exists_eq_or_imp, exists_eq_left,
    Finset.mem_union, Finset.mem_Ico]
  by_cases low : n < 0x8E000
  · simp only [low, if_true, Option.some.injEq, reduceCtorEq, false_and, or_false]
    omega
  · by_cases high : 0xFE000 ≤ n
    · simp only [low, high, if_true, if_false, Option.some.injEq, reduceCtorEq, false_and, or_false,
        true_and]
      omega
    · simp only [low, high, if_false, reduceCtorEq, and_false, or_false, true_and, false_or]
      omega

theorem Arena.newDir {rest : List Nat} (arena : Arena layout own base m (d :: rest)) :
    Space layout own base
      { m with freelist := m.page d 0, page := update m.page d fun _ => 0 } d rest := by
  have empty : ∀ i, table (update m.page d fun _ => 0) d i = none := by
    intro i
    unfold table
    simp
  have owner : ∀ role p, Owns (update m.page d fun _ => 0) d role p →
      role = .dir ∧ p = d := by
    intro role p owned
    cases role with
    | dir => exact ⟨rfl, owned⟩
    | table i =>
      cases (empty i).symm.trans owned.2
    | user n =>
      obtain ⟨-, w, found, -⟩ := owned
      rw [lookup, empty] at found
      cases found
  refine { toArena := arena.tail.frame rfl fun p unchanged => update_of_ne ?_ .., pool := ?_,
           mine := fun owned => ?_ }
  · rintro rfl
    rcases unchanged with isFree | out
    · exact arena.head_not_mem isFree
    · exact out (arena.within p (by simp))
  · refine ⟨fun owned isFree => ?_, fun owned owned' => ?_⟩
    · obtain ⟨-, rfl⟩ := owner _ _ owned
      exact arena.head_not_mem isFree
    · rw [(owner _ _ owned).1, (owner _ _ owned').1]
  · obtain ⟨-, rfl⟩ := owner _ _ owned
    exact arena.within _ (by simp)

theorem tables_kernel (page : Nat → Page) (d : Nat)
    (exactly : ∀ i, i < 1024 → (table page d i ≠ none ↔ i ∈ kernelIndices)) :
    tables page d = 64 := by
  have same : ((Finset.range 1024).filter fun i => (table page d i).isSome) = kernelIndices := by
    ext i
    rw [Finset.mem_filter, Finset.mem_range, Option.isSome_iff_ne_none]
    constructor
    · rintro ⟨small, found⟩
      exact (exactly i small).mp found
    · intro kernel
      have small : i < 1024 := by
        simp only [kernelIndices, Finset.mem_union, Finset.mem_Ico] at kernel
        omega
      exact ⟨small, (exactly i small).mpr kernel⟩
  rw [tables, same, card_kernelIndices]

theorem tables_lt_of_missing {i : Nat}
    (only : ∀ i, table page d i ≠ none → i ∈ kernelIndices) (wanted : i ∈ kernelIndices)
    (missing : table page d i = none) : tables page d < 64 := by
  have fewer : ((Finset.range 1024).filter fun i => (table page d i).isSome) ⊂ kernelIndices := by
    rw [Finset.ssubset_iff_of_subset]
    · exact ⟨i, wanted, by simp [missing]⟩
    · intro j present
      rw [Finset.mem_filter, Option.isSome_iff_ne_none] at present
      exact only j present.2
  rw [← card_kernelIndices]
  exact Finset.card_lt_card fewer

/-- A new directory: the kernel half and nothing else, or there is no memory for it. -/
theorem setupkvm_spec (arena : Arena layout own base m free) : (setupkvm layout).Ensures m
    (fun result m' => m'.history = m.history ∧
      ((result = none ∧ Arena layout own base m' [] ∧ free.length < 65) ∨
        ∃ d free', result = some d ∧ free' <:+ free ∧ Space layout own base m' d free' ∧
          free.length = free'.length + 65 ∧ KernelHalf m'.page d ∧
          (∀ p ∈ free, p ∈ free' ∨ ∃ role, Owns m'.page d role p) ∧
          (∀ line ∈ kmapLines layout, line.Listed m'.page d) ∧
          ∀ i, i < 512 → table m'.page d i = none))
    (fun _ => False) := by
  unfold setupkvm
  refine (kalloc_spec arena).bind ?_ (by simp)
  rintro result m' (⟨rfl, rfl, rfl⟩ | ⟨d, rest, rfl, rfl, rfl⟩)
  · exact ⟨rfl, .inl ⟨rfl, arena, by simp⟩⟩
  · simp only [ensures_bind, ensures_setPage, kmap_eq]
    have empty : ∀ i, table (update m.page d fun _ => 0) d i = none := by
      intro i
      unfold table
      simp
    have absent : ∀ n, lookup (update m.page d fun _ => 0) d n = none := fun n =>
      lookup_eq_none.mpr (empty _)
    have noTables : tables (update m.page d fun _ => 0) d = 0 := by
      simp only [tables, empty]
      simp
    refine (setupkvmLoop_spec (kmapLines layout) arena.newDir (kmapLines_good layout)
      (kmapLines_apart layout) fun _ _ n _ _ w found => ?_).mono ?_ (by simp)
    · have := (absent n).symm.trans found
      cases this
    · rintro result m' ⟨history, ⟨rfl, after, short⟩ |
        ⟨rfl, free', space, budget, drawn, listed, -, others⟩⟩
      · refine ⟨history, .inl ⟨rfl, after, ?_⟩⟩
        obtain ⟨i, wanted, missing⟩ := short.missing
        have fewer : tables m'.page _ < 64 := tables_lt_of_missing (fun j found => by
          by_contra away
          exact found ((short.others (mt (wanted_kmapLines layout).mp away)).trans (empty j)))
          ((wanted_kmapLines layout).mp wanted) missing
        have budget := short.budget
        simp only [noTables] at budget
        simp only [List.length_cons]
        omega
      · have inLine : ∀ {n}, KERNPAGE ≤ n → n < 2 ^ 20 → n / 1024 ∈ kernelIndices →
            table m'.page d (n / 1024) ≠ none := by
          intro n kernel small wanted absent
          rcases kmapLines_cover layout kernel small with
            ⟨line, member, lower, upper, -⟩ | ⟨-, away⟩
          · have found := listed line member n lower upper
            rw [lookup_eq_none.mpr absent] at found
            cases found
          · exact away ((wanted_kmapLines layout).mpr wanted)
        have exactly : ∀ i, i < 1024 → (table m'.page d i ≠ none ↔ i ∈ kernelIndices) := by
          intro i small
          constructor
          · intro found
            by_contra away
            exact found ((others i (mt (wanted_kmapLines layout).mp away)).trans (empty i))
          · intro wanted
            have bounds := wanted
            simp only [kernelIndices, Finset.mem_union, Finset.mem_Ico] at bounds
            have first : i * 1024 / 1024 = i := by omega
            rw [← first] at wanted ⊢
            exact inLine (by unfold KERNPAGE; omega) (by omega) wanted
        refine ⟨history, .inr ⟨d, free', rfl, drawn.suffix.trans (List.suffix_cons ..), space, ?_,
          ⟨?_, ?_⟩, ?_, listed, ?_⟩⟩
        · have all := tables_kernel m'.page d exactly
          simp only [noTables] at budget
          simp only [List.length_cons]
          omega
        · intro n f kernel small isMapped
          rcases kmapLines_cover layout kernel small with
            ⟨line, member, lower, upper, same⟩ | ⟨gap, -⟩
          · obtain ⟨w, found, isPresent, noUser, page⟩ :=
              (listed line member).maps (kmapLines_good layout line member) n lower upper
            rw [isMapped] at same
            exact ⟨w, found, isPresent, noUser, page.trans (Option.some.inj same).symm⟩
          · rw [gap] at isMapped
            cases isMapped
        · intro n kernel small gap
          rcases kmapLines_cover layout kernel small with ⟨line, _, _, _, same⟩ | ⟨-, away⟩
          · rw [same] at gap
            cases gap
          · rw [lookup_eq_none, others _ away]
            exact empty _
        · intro p isFree
          rcases List.mem_cons.mp isFree with rfl | isRest
          · exact .inr ⟨.dir, rfl⟩
          · rcases drawn.tables p isRest with stillFree | ⟨i, isTable⟩
            · exact .inl stillFree
            · exact .inr ⟨.table i, isTable⟩
        · intro i low
          rw [others i fun wanted => ?_]
          · exact empty i
          · rw [wanted_kmapLines] at wanted
            simp only [kernelIndices, Finset.mem_union, Finset.mem_Ico] at wanted
            omega

end Setup

end Xv6.Vm
