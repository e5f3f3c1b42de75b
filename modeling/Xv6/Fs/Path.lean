import Xv6.Fs.Entries

/-!
# Paths

The components of a path, and what they lead to.  `walk` looks the components up one after
another and `walkParent` all but the last; neither mentions the inode cache.  `Reach` says
that the cache has room for the inodes on the way, of which `namex` holds two at a time.
-/

namespace Xv6

open Fs

/-! ## Components -/

/-- What stands between the slashes of a path, cut to `DIRSIZ` bytes. -/
def components (path : List UInt8) : List (List UInt8) :=
  ((path.splitOn slash).filter (· ≠ [])).map (·.take DIRSIZ)

section Components

variable {path name rest : List UInt8}

@[simp]
theorem components_nil : components [] = [] := rfl

theorem components_slash : components (slash :: path) = components path := by
  have split : (slash :: path).splitOn slash = [] :: path.splitOn slash :=
    List.splitOn_append_cons_self_of_not_mem List.not_mem_nil path
  unfold components
  rw [split]
  rfl

theorem components_dropWhile : components (path.dropWhile (· == slash)) = components path := by
  induction path with
  | nil => rfl
  | cons c path ih =>
    by_cases isSlash : c = slash
    · subst isSlash
      rw [components_slash, List.dropWhile_cons_of_pos (by simp)]
      exact ih
    · rw [List.dropWhile_cons_of_neg (by simpa using isSlash)]

theorem components_cons {c : UInt8} (first : c ≠ slash) :
    components (c :: path) = ((c :: path).takeWhile (· != slash)).take DIRSIZ ::
      components ((c :: path).dropWhile (· != slash)) := by
  generalize isWord : (c :: path).takeWhile (· != slash) = word
  generalize isRest : (c :: path).dropWhile (· != slash) = rest
  have whole : c :: path = word ++ rest := by
    rw [← isWord, ← isRest, List.takeWhile_append_dropWhile]
  have nonempty : word ≠ [] := by
    rw [← isWord, List.takeWhile_cons_of_pos (by simpa using first)]
    simp
  have visible : slash ∉ word := by
    intro among
    rw [← isWord] at among
    have := List.all_eq_true.mp List.all_takeWhile _ among
    simp at this
  rw [whole]
  cases rest with
  | nil =>
    have single : word.splitOn slash = [word] := by
      refine List.splitOnP_eq_singleton fun d among => ?_
      simp only [beq_eq_false_iff_ne]
      rintro rfl
      exact visible among
    rw [List.append_nil, components, single]
    simp [nonempty]
  | cons d rest =>
    have stops := List.head?_dropWhile_not (· != slash) (c :: path)
    rw [isRest] at stops
    obtain rfl : d = slash := by simpa using stops
    rw [components_slash, components, List.splitOn_append_cons_self_of_not_mem visible]
    simp [nonempty, components]

theorem components_eq_nil_of_skipelem (isNone : skipelem path = none) : components path = [] := by
  unfold skipelem at isNone
  split at isNone
  next empty =>
    rw [← components_dropWhile, empty]
    rfl
  · cases isNone

theorem head?_dropWhile_slash {c : UInt8} (first : c ∈ (path.dropWhile (· == slash)).head?) :
    c ≠ slash := by
  have visible := List.head?_dropWhile_not (· == slash) path
  rw [Option.mem_def.mp first] at visible
  simpa using visible

theorem components_of_skipelem (next : skipelem path = some (name, rest)) :
    components path = name :: components rest ∧ (rest = [] ↔ components rest = []) := by
  unfold skipelem at next
  split at next
  · cases next
  next nonempty =>
    cases isStart : path.dropWhile (· == slash) with
    | nil => exact absurd isStart nonempty
    | cons c start =>
      have first : c ≠ slash := head?_dropWhile_slash (by rw [isStart]; rfl)
      rw [isStart] at next
      obtain ⟨rfl, rfl⟩ := Prod.mk.inj (Option.some.inj next)
      refine ⟨?_, fun empty => by rw [empty]; rfl, fun none => ?_⟩
      · rw [← components_dropWhile, isStart, components_cons first, components_dropWhile]
      · cases isLater : ((c :: start).dropWhile (· != slash)).dropWhile (· == slash) with
        | nil => rfl
        | cons d later =>
          have visible : d ≠ slash := head?_dropWhile_slash (by rw [isLater]; rfl)
          rw [isLater, components_cons visible] at none
          cases none

end Components

/-! ## What a path leads to -/

def Fs.names (fs : Fs) (i : Nat) : List (Option (List UInt8 × Nat)) :=
  (List.range ((fs.cur i).size / DESIZE)).map fun j => (fs.entry i j).slot

def Fs.child (fs : Fs) (i : Nat) (name : List UInt8) : Option Nat :=
  if (fs.cur i).type = T_DIR then SlotMap.lookup (fs.names i) name else none

/-- The inode that components lead to, looked up one after another. -/
def Fs.walk (fs : Fs) : Nat → List (List UInt8) → Option Nat
  | i, [] => some i
  | i, name :: rest => (fs.child i name).bind fun j => fs.walk j rest

/-- The directory that all components but the last lead to, and the last. -/
def Fs.walkParent (fs : Fs) (i : Nat) (names : List (List UInt8)) : Option (Nat × List UInt8) :=
  names.getLast?.bind fun last => (fs.walk i names.dropLast).bind fun j =>
    if (fs.cur j).type = T_DIR then some (j, last) else none

/-- Both, as the loop of `namex` goes about it. -/
def Fs.resolve (fs : Fs) (parent : Bool) :
    Nat → List UInt8 → List (List UInt8) → Option (Nat × List UInt8)
  | i, last, [] => if parent then none else some (i, last)
  | i, _, name :: rest =>
    if (fs.cur i).type ≠ T_DIR then none
    else if parent ∧ rest = [] then some (i, name)
    else (SlotMap.lookup (fs.names i) name).bind fun j => fs.resolve parent j name rest

section Walk

variable {fs : Fs}

theorem resolve_false (i : Nat) (last : List UInt8) (names : List (List UInt8)) :
    (fs.resolve false i last names).map Prod.fst = fs.walk i names := by
  induction names generalizing i last with
  | nil => rfl
  | cons name rest ih =>
    unfold Fs.resolve Fs.walk Fs.child
    by_cases type : (fs.cur i).type = T_DIR
    · rw [if_neg (not_not.mpr type), if_neg (by simp), if_pos type, Option.map_bind]
      exact congrArg _ (funext fun j => ih j name)
    · rw [if_pos type, if_neg type]
      rfl

theorem resolve_true (i : Nat) (last : List UInt8) (names : List (List UInt8)) :
    fs.resolve true i last names = fs.walkParent i names := by
  induction names generalizing i last with
  | nil => rfl
  | cons name rest ih =>
    unfold Fs.resolve
    cases rest with
    | nil =>
      by_cases type : (fs.cur i).type = T_DIR
      · simp [Fs.walkParent, Fs.walk, type]
      · simp [Fs.walkParent, Fs.walk, type]
    | cons second rest =>
      have parent : fs.walkParent i (name :: second :: rest) =
          (fs.child i name).bind fun j => fs.walkParent j (second :: rest) := by
        unfold Fs.walkParent
        rw [List.getLast?_cons_cons, List.dropLast_cons_cons, Fs.walk]
        cases fs.child i name with
        | none => simp
        | some j => rfl
      rw [parent, Fs.child]
      by_cases type : (fs.cur i).type = T_DIR
      · rw [if_neg (not_not.mpr type), if_neg (by simp), if_pos type]
        exact congrArg _ (funext fun j => ih j name)
      · rw [if_pos type, if_neg type]
        rfl

end Walk

/-! ## Room in the inode cache -/

def Fs.Used (fs : Fs) (i : Nat) : Prop := ∃ ip, 0 < (fs.icache ip).ref ∧ (fs.icache ip).inum = i

instance (fs : Fs) (i : Nat) : Decidable (fs.Used i) := inferInstanceAs (Decidable (∃ _, _))

def Fs.unused (fs : Fs) : Finset Slot := Finset.univ.filter fun ip => (fs.icache ip).ref = 0

/-- Inode `j` is in the cache or can be taken into it while `i` is held. -/
def Fs.CanGet (fs : Fs) (i j : Nat) : Prop :=
  fs.Used j ∨ j = i ∨ (if fs.Used i then 1 else 2) ≤ fs.unused.card

instance (fs : Fs) (i j : Nat) : Decidable (fs.CanGet i j) :=
  inferInstanceAs (Decidable (_ ∨ _ ∨ _))

/-- The inodes that are looked up from `i` on can be taken into the cache. -/
def Fs.Reach (fs : Fs) (parent : Bool) : Nat → List (List UInt8) → Prop
  | _, [] => True
  | i, name :: rest => ¬(parent = true ∧ rest = []) → ∀ j ∈ fs.child i name,
      fs.CanGet i j ∧ fs.Reach parent j rest

instance Fs.decidableReach (fs : Fs) (parent : Bool) :
    (i : Nat) → (names : List (List UInt8)) → Decidable (fs.Reach parent i names)
  | _, [] => inferInstanceAs (Decidable True)
  | i, name :: rest =>
    have : ∀ j, Decidable (fs.Reach parent j rest) := fun j => fs.decidableReach parent j rest
    inferInstanceAs (Decidable (¬(parent = true ∧ rest = []) → ∀ j ∈ fs.child i name,
      fs.CanGet i j ∧ fs.Reach parent j rest))

theorem Fs.Reach.parent {fs : Fs} {i : Nat} {names : List (List UInt8)}
    (reach : fs.Reach false i names) : fs.Reach true i names := by
  induction names generalizing i with
  | nil => trivial
  | cons name rest ih =>
    intro _ j found
    obtain ⟨first, later⟩ := reach (by simp) j found
    exact ⟨first, ih later⟩

end Xv6
