import Xv6.Proc.Memory
import Xv6.Vm.Directory
import Xv6.Vm.User

/-!
# What sbrk does to a process

`sbrk` should change the size of a process by exactly `n` or leave the process alone.
It does so unless it gives the whole memory back, which `growproc` takes for a failure;
unless the size would become negative, which `deallocuvm` takes for growth; and unless
the last free page has gone to the last user page and none is left for its page table,
which `allocuvm` does not notice.
-/

open Function (update update_eq_self update_self)

namespace Xv6.Pages

open Exec Vm

def System.user (s : System) (p : ProcId) (k : Nat) : Option Page :=
  (s.table.proc p).pgdir.bind fun d => content s.memory.page d k

/-- A process whose page table maps exactly the pages below its size. -/
structure AddressSpace (layout : Layout) (own : Nat → Prop) (base : Nat → Page) (s : System)
    (p : ProcId) (d : Nat) (free : List Nat) : Prop where
  directory : (s.table.proc p).pgdir = some d
  space : Space layout own base s.memory d free
  size : (s.sz p).toNat < KERNBASE
  mapped : ∀ k, k < KERNPAGE → (s.user p k ≠ none ↔ k < pages (s.sz p))

/-- The old size is returned and the size has changed by `n`, or -1 is returned and nothing
has changed. -/
def Resized (s s' : System) (p : ProcId) (n : Word) (result : Option Word) : Prop :=
  (result = some (s.sz p) ∧ ((s'.sz p).toNat : Int) = (s.sz p).toNat + n.toInt ∧
    ∀ k, k < KERNPAGE → s'.user p k =
      if k < pages (s'.sz p) then if k < pages (s.sz p) then s.user p k else some zeroPage
      else none) ∨
  (result = none ∧ s'.sz p = s.sz p ∧ ∀ k, k < KERNPAGE → s'.user p k = s.user p k)

/-- The size stays positive, and the free pages do not run out between the last page and its
page table. -/
structure Resizable (s : System) (p : ProcId) (d : Nat) (n : Word) (available : Nat) : Prop where
  grow : 0 < n.toInt → (s.sz p + n).toNat < KERNBASE →
    ¬Starved s.memory.page d (pages (s.sz p)) (pages (s.sz p + n)) available
  shrink : n.toInt < 0 → s.sz p = 0 ∨ 0 < (s.sz p).toNat + n.toInt

section Sbrk

variable {layout : Layout} {own : Nat → Prop} {base : Nat → Page} {s : System} {p : ProcId}
  {d : Nat} {free : List Nat} {n : Word}

theorem user_of_directory (directory : (s.table.proc p).pgdir = some d) (memory : Memory)
    (sz : ProcId → Word) (k : Nat) :
    System.user { s with memory := memory, sz := sz } p k = content memory.page d k := by
  rw [System.user, directory, Option.bind_some]

theorem ensures_sbrk {good : Option Word → System → Prop} {bad : Trap → Prop}
    (directory : (s.table.proc p).pgdir = some d) :
    (sbrk layout p n).Ensures s good bad ↔ (resize layout d (s.sz p) n).Ensures s.memory
      (fun sz m => if n ≠ 0 ∧ sz = 0 then good none { s with memory := m }
        else good (some (s.sz p)) { s with memory := m, sz := update s.sz p sz }) bad := by
  unfold sbrk growproc
  simp only [ensures_bind, ensures_get, directory, ensures_onMemory]
  refine iff_of_eq (congrArg (fun good => Ensures _ _ good bad) ?_)
  funext sz m
  by_cases failed : n ≠ 0 ∧ sz = 0
  · rw [if_pos failed, if_pos failed]
    rfl
  · rw [if_neg failed, if_neg failed]
    rfl

namespace AddressSpace

variable (process : AddressSpace layout own base s p d free)

include process

theorem user_eq (k : Nat) : s.user p k = content s.memory.page d k :=
  user_of_directory process.directory _ _ k

theorem pages_le : pages (s.sz p) ≤ KERNPAGE := by
  have size := process.size
  unfold KERNBASE at size
  unfold pages KERNPAGE
  omega

theorem user_eq_none {k : Nat} (above : pages (s.sz p) ≤ k) (low : k < KERNPAGE) :
    s.user p k = none := by
  by_contra there
  have := (process.mapped k low).mp there
  omega

theorem toNat_grow (positive : 0 < n.toInt) : (s.sz p + n).toNat = (s.sz p).toNat + n.toNat ∧
    n.toInt = n.toNat := by
  have size := process.size
  unfold KERNBASE at size
  rw [BitVec.toInt_eq_toNat_cond] at positive ⊢
  split at positive
  next small =>
    rw [if_pos small, BitVec.toNat_add]
    omega
  · omega

theorem grow_decides (positive : 0 < n.toInt) :
    (sbrk layout p n).Ensures s (fun result s' =>
      Resizable s p d n free.length ∧ Resized s s' p n result ∨
        ¬Resizable s p d n free.length ∧ ¬Resized s s' p n result) fun _ => False := by
  obtain ⟨sum, value⟩ := process.toNat_grow positive
  have nonzero : n ≠ 0 := by
    rintro rfl
    simp at positive
  have resizable : (KERNBASE ≤ (s.sz p + n).toNat ∨
      ¬Starved s.memory.page d (pages (s.sz p)) (pages (s.sz p + n)) free.length) →
      Resizable s p d n free.length := fun enough =>
    ⟨fun _ below => enough.resolve_left (by omega), fun negative => by omega⟩
  rw [ensures_sbrk process.directory, resize, if_pos positive]
  refine (allocuvm_content process.space (by omega) fun k above low => ?_).mono ?_
    fun _ stopped => stopped
  · rw [← content_eq_none, ← process.user_eq k]
    exact process.user_eq_none above low
  rintro sz m (⟨rfl, below, enough, added⟩ | ⟨rfl, below, starved, missing⟩ | ⟨rfl, enough, same⟩)
  · have new : ¬(n ≠ 0 ∧ s.sz p + n = 0) := by
      rintro ⟨-, zero⟩
      rw [zero] at sum
      simp at sum
      omega
    rw [if_neg new]
    refine .inl ⟨resizable (.inr enough), .inl ⟨rfl, ?_, fun k low => ?_⟩⟩
    · dsimp only
      rw [update_self]
      omega
    · refine (user_of_directory process.directory m _ k).trans ?_
      simp only [update_self]
      rw [added k low, ← process.user_eq k]
      have order : pages (s.sz p) ≤ pages (s.sz p + n) := by
        unfold pages
        omega
      by_cases below' : k < pages (s.sz p)
      · rw [if_neg (by omega), if_pos (by omega), if_pos below']
      · by_cases inside : k < pages (s.sz p + n)
        · rw [if_pos (by omega), if_pos inside, if_neg below']
        · rw [if_neg (by omega), if_neg inside]
          exact process.user_eq_none (by omega) low
  · have new : ¬(n ≠ 0 ∧ s.sz p + n = 0) := by
      rintro ⟨-, zero⟩
      rw [zero] at sum
      simp at sum
      omega
    rw [if_neg new]
    refine .inr ⟨fun enough => enough.grow positive below starved, ?_⟩
    rintro (⟨-, -, mapped⟩ | ⟨failed, -⟩)
    · have grows := starved.grows
      have few : pages (s.sz p + n) ≤ KERNPAGE := by
        unfold KERNBASE at below
        unfold pages KERNPAGE
        omega
      have last := (user_of_directory process.directory m _ _).symm.trans
        (mapped (pages (s.sz p + n) - 1) (by omega))
      simp only [update_self] at last
      rw [missing, if_pos (by omega), if_neg (by omega)] at last
      cases last
    · cases failed
  · rw [if_pos ⟨nonzero, rfl⟩]
    refine .inl ⟨resizable enough, .inr ⟨rfl, rfl, fun k low => ?_⟩⟩
    refine (user_of_directory process.directory m _ k).trans ?_
    rw [same k low, ← process.user_eq k]

theorem toNat_shrink (negative : n.toInt < 0) :
    n.toInt = n.toNat - 2 ^ 32 ∧
      (s.sz p + n).toNat = if 0 ≤ (s.sz p).toNat + n.toInt then (s.sz p).toNat + n.toNat - 2 ^ 32
        else (s.sz p).toNat + n.toNat := by
  have size := process.size
  have small := n.isLt
  unfold KERNBASE at size
  rw [BitVec.toInt_eq_toNat_cond] at negative ⊢
  split at negative
  · omega
  next large =>
    rw [if_neg large, BitVec.toNat_add]
    refine ⟨by omega, ?_⟩
    split <;> omega

theorem shrunk_user {m : Memory} {newsz : Word} {k : Nat}
    (shrunk : Shrunk s.memory m d (pages newsz) (pages (s.sz p))) (low : k < KERNPAGE) :
    content m.page d k = if k < pages newsz then s.user p k else none := by
  have few := process.pages_le
  rw [shrunk.content_eq (fun less => ?_) (fun above => ?_) low, ← process.user_eq]
  · by_cases below : k < pages newsz
    · rw [if_neg (by omega), if_pos below]
    · rw [if_neg below]
      by_cases inside : k < pages (s.sz p)
      · rw [if_pos (by omega)]
      · rw [if_neg (by omega), process.user_eq_none (by omega) low]
  · rw [← process.user_eq]
    exact (process.mapped _ (by omega)).mpr less
  · rw [← process.user_eq]
    exact process.user_eq_none above low

theorem shrink_decides (negative : n.toInt < 0) :
    (sbrk layout p n).Ensures s (fun result s' =>
      Resizable s p d n free.length ∧ Resized s s' p n result ∨
        ¬Resizable s p d n free.length ∧ ¬Resized s s' p n result) fun _ => False := by
  obtain ⟨value, sum⟩ := process.toNat_shrink negative
  have nonzero : n ≠ 0 := by
    rintro rfl
    simp at negative
  have few := process.pages_le
  rw [ensures_sbrk process.directory, resize, if_neg (by omega), if_pos negative]
  refine (deallocuvm_spec process.space process.size.le).mono ?_ fun _ stopped => stopped
  rintro sz m ⟨rfl, shrunk, -⟩
  by_cases below : (s.sz p).toNat + n.toInt < 0
  · -- the new size wraps around and looks larger than the old one
    rw [if_neg (by omega)] at sum
    have larger : s.sz p ≤ s.sz p + n := by
      rw [BitVec.le_def]
      omega
    rw [if_pos larger]
    have same : ∀ k, k < KERNPAGE → content m.page d k = s.user p k := by
      intro k low
      have order : pages (s.sz p) ≤ pages (s.sz p + n) := by
        rw [BitVec.le_def] at larger
        unfold pages
        omega
      rw [shrunk.content_eq (fun less => by omega) (fun above => ?_) low, if_neg (by omega),
        process.user_eq]
      rw [← process.user_eq]
      exact process.user_eq_none above low
    by_cases empty : s.sz p = 0
    · rw [if_pos ⟨nonzero, empty⟩]
      refine .inl ⟨⟨fun positive => by omega, fun _ => .inl empty⟩,
        .inr ⟨rfl, rfl, fun k low => ?_⟩⟩
      exact (user_of_directory process.directory m _ k).trans (same k low)
    · rw [if_neg fun failed => empty failed.2]
      refine .inr ⟨fun enough => ?_, ?_⟩
      · rcases enough.shrink negative with zero | positive
        · exact empty zero
        · omega
      · rintro (⟨-, changed, -⟩ | ⟨failed, -⟩)
        · dsimp only at changed
          rw [update_self] at changed
          omega
        · cases failed
  · rw [if_pos (by omega)] at sum
    have smaller : ¬s.sz p ≤ s.sz p + n := by
      rw [BitVec.le_def]
      omega
    rw [if_neg smaller]
    have users := fun k (low : k < KERNPAGE) => process.shrunk_user shrunk low
    by_cases empty : s.sz p + n = 0
    · -- the size zero stands for a failure, but the pages are gone
      have zero : (s.sz p + n).toNat = 0 := by rw [empty]; rfl
      rw [if_pos ⟨nonzero, empty⟩]
      refine .inr ⟨fun enough => ?_, ?_⟩
      · rcases enough.shrink negative with isEmpty | positive
        · rw [isEmpty] at sum
          simp at sum
          omega
        · omega
      · have first : 0 < pages (s.sz p) := by
          unfold pages
          omega
        rintro (⟨failed, -⟩ | ⟨-, -, kept⟩)
        · cases failed
        · have gone := (user_of_directory process.directory m _ 0).symm.trans (kept 0 (by decide))
          rw [users 0 (by decide), if_neg (by
            unfold pages
            omega)] at gone
          exact (process.mapped 0 (by decide)).mpr first gone.symm
    · have positive : 0 < (s.sz p + n).toNat := by
        refine Nat.pos_of_ne_zero fun zero => empty ?_
        exact BitVec.eq_of_toNat_eq zero
      rw [if_neg fun failed => empty failed.2]
      refine .inl ⟨⟨fun grows => by omega, fun _ => .inr (by omega)⟩,
        .inl ⟨rfl, ?_, fun k low => ?_⟩⟩
      · dsimp only
        rw [update_self]
        omega
      · refine (user_of_directory process.directory m _ k).trans ?_
        simp only [update_self]
        rw [users k low]
        by_cases inside : k < pages (s.sz p + n)
        · rw [if_pos inside, if_pos inside, if_pos]
          unfold pages at inside ⊢
          omega
        · rw [if_neg inside, if_neg inside]

theorem zero_decides : (sbrk layout p 0).Ensures s (fun result s' =>
    Resizable s p d 0 free.length ∧ Resized s s' p 0 result ∨
      ¬Resizable s p d 0 free.length ∧ ¬Resized s s' p 0 result) fun _ => False := by
  have zero : (0 : Word).toInt = 0 := rfl
  rw [ensures_sbrk process.directory, resize, if_neg (by omega), if_neg (by omega), ensures_pure,
    if_neg (by simp)]
  refine .inl ⟨⟨fun positive => by omega, fun negative => by omega⟩,
    .inl ⟨rfl, ?_, fun k low => ?_⟩⟩
  · rw [update_eq_self]
    exact (Int.add_zero _).symm
  · refine (user_of_directory process.directory _ _ k).trans ?_
    dsimp only
    rw [update_eq_self, ← process.user_eq]
    by_cases below : k < pages (s.sz p)
    · rw [if_pos below, if_pos below]
    · rw [if_neg below]
      exact process.user_eq_none (by omega) low

theorem sbrk_decides (n : Word) : (sbrk layout p n).Ensures s (fun result s' =>
    Resizable s p d n free.length ∧ Resized s s' p n result ∨
      ¬Resizable s p d n free.length ∧ ¬Resized s s' p n result) fun _ => False := by
  rcases lt_trichotomy n.toInt 0 with negative | zero | positive
  · exact process.shrink_decides negative
  · obtain rfl : n = 0 := BitVec.eq_of_toInt_eq zero
    exact process.zero_decides
  · exact process.grow_decides positive

end AddressSpace

/-- `sbrk` returns the old size and changes the size of the process by exactly `n`, or returns
-1 and changes nothing, if and only if the size stays positive and the free pages do not run
out between the last page and its page table. -/
theorem sbrk_exact_iff (process : AddressSpace layout own base s p d free) (n : Word) :
    (sbrk layout p n).Ensures s (fun result s' => Resized s s' p n result) (fun _ => False) ↔
      Resizable s p d n free.length :=
  Ensures.iff_of_decides ((process.sbrk_decides n).mono (fun _ _ decided => decided)
    fun _ stopped => stopped.elim)

end Sbrk

/-! ## A process of one page -/

def onePage : System := booted (Sample.memory 0 0) 0 0 400

theorem onePage_mapped (k : Nat) : content (Sample.memory 0 0).page 400 k ≠ none ↔ k < 1 := by
  rw [ne_eq, content_eq_none, ← mapping_eq_none, Sample.mapping_eq, Nat.mul_zero]
  by_cases first : k = 0 <;> simp [first]

theorem onePage_process : AddressSpace Sample.layout
    (fun p => p ∈ [] ∨ ∃ role, Owns (Sample.memory 0 0).page 400 role p) (Sample.memory 0 0).page
    onePage initproc 400 [] where
  directory := rfl
  space := (Sample.directory 0 (Nat.zero_le _)).space
  size := by decide
  mapped k _ := onePage_mapped k

/-- A process that gives all its memory back: the call returns -1, and the page is gone. -/
theorem sbrk_all : (sbrk Sample.layout initproc (BitVec.ofInt 32 (-4096))).Ensures onePage
    (fun result s' => ¬Resized onePage s' initproc (BitVec.ofInt 32 (-4096)) result)
    (fun _ => False) := by
  refine (onePage_process.sbrk_decides _).mono ?_ fun _ stopped => stopped
  rintro result s' (⟨resizable, -⟩ | ⟨-, fails⟩)
  · rcases resizable.shrink (by decide) with zero | positive
    · exact absurd zero (by decide)
    · exact absurd positive (by decide)
  · exact fails

/-- Giving back half of the page. -/
theorem sbrk_exact_iff_half :
    (sbrk Sample.layout initproc (BitVec.ofInt 32 (-2048))).Ensures onePage
      (fun result s' => Resized onePage s' initproc (BitVec.ofInt 32 (-2048)) result)
      (fun _ => False) :=
  (sbrk_exact_iff onePage_process _).mpr
    ⟨fun positive => absurd positive (by decide), fun _ => .inr (by decide)⟩

end Xv6.Pages
