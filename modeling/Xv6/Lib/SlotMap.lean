import Mathlib.Logic.Function.Basic
import Mathlib.Tactic.Common

/-!
# Maps kept in slots

A table is a list of slots, each of them free or holding a key with a value.  As long as no
key is held twice the table is a finite map, and storing into one slot changes the map at
one key.
-/

namespace SlotMap

variable {κ ν : Type}

def Distinct (table : List (Option (κ × ν))) : Prop :=
  ∀ (i j : Nat) key v w, table[i]? = some (some (key, v)) → table[j]? = some (some (key, w)) → i = j

/-- Slot `i` has been set, or added at the end. -/
structure Stored (table after : List (Option (κ × ν))) (i : Nat)
    (slot : Option (κ × ν)) : Prop where
  here : after[i]? = some slot
  others : ∀ j, j ≠ i → after[j]? = table[j]?

section Lookup

variable [DecidableEq κ]

def lookup (table : List (Option (κ × ν))) (key : κ) : Option ν :=
  table.findSome? fun slot => slot.bind fun entry => if entry.1 = key then some entry.2 else none

variable {table after : List (Option (κ × ν))} {key : κ} {v : ν} {i : Nat}

theorem lookup_eq_none_iff :
    lookup table key = none ↔ ∀ (i : Nat) v, table[i]? ≠ some (some (key, v)) := by
  unfold lookup
  rw [List.findSome?_eq_none_iff]
  constructor
  · intro absent i v found
    have := absent _ (List.mem_of_getElem? found)
    simp at this
  · intro absent slot member
    obtain ⟨i, found⟩ := List.mem_iff_getElem?.mp member
    cases slot with
    | none => rfl
    | some entry =>
      obtain ⟨other, v⟩ := entry
      by_cases same : other = key
      · subst same
        exact absurd found (absent i v)
      · simp [same]

theorem exists_of_lookup (found : lookup table key = some v) :
    ∃ i : Nat, table[i]? = some (some (key, v)) := by
  obtain ⟨slot, member, holds⟩ := List.exists_of_findSome?_eq_some found
  obtain ⟨i, isSlot⟩ := List.mem_iff_getElem?.mp member
  refine ⟨i, ?_⟩
  cases slot with
  | none => cases holds
  | some entry =>
    obtain ⟨other, w⟩ := entry
    by_cases same : other = key
    · subst same
      simp only [Option.bind_some, if_true, Option.some.injEq] at holds
      rw [isSlot, holds]
    · simp [same] at holds

theorem Distinct.lookup_eq (distinct : Distinct table) (held : table[i]? = some (some (key, v))) :
    lookup table key = some v := by
  cases found : lookup table key with
  | none => exact absurd held (lookup_eq_none_iff.mp found i v)
  | some w =>
    obtain ⟨j, held'⟩ := exists_of_lookup found
    have same := distinct _ _ _ _ _ held held'
    subst same
    simpa using held'.symm.trans held

/-! ## Storing -/

theorem Distinct.insert (distinct : Distinct table) (stored : Stored table after i (some (key, v)))
    (absent : lookup table key = none) : Distinct after := by
  have only : ∀ j w, after[j]? = some (some (key, w)) → j = i := by
    intro j w held
    by_contra other
    rw [stored.others j other] at held
    exact lookup_eq_none_iff.mp absent j w held
  intro j k other w x first second
  by_cases here : j = i
  · subst here
    obtain ⟨rfl, -⟩ := Prod.mk.inj
      (Option.some.inj (Option.some.inj (stored.here.symm.trans first)))
    exact (only k x second).symm
  · by_cases there : k = i
    · subst there
      obtain ⟨rfl, -⟩ := Prod.mk.inj
        (Option.some.inj (Option.some.inj (stored.here.symm.trans second)))
      exact only j w first
    · rw [stored.others j here] at first
      rw [stored.others k there] at second
      exact distinct _ _ _ _ _ first second

omit [DecidableEq κ] in
theorem Distinct.erase (distinct : Distinct table) (stored : Stored table after i none) :
    Distinct after := by
  have kept : ∀ {j : Nat} {entry}, after[j]? = some (some entry) →
      table[j]? = some (some entry) := by
    intro j entry held
    have other : j ≠ i := by
      rintro rfl
      have := stored.here.symm.trans held
      cases this
    rwa [stored.others j other] at held
  exact fun j k other w x first second => distinct _ _ _ _ _ (kept first) (kept second)

theorem Stored.lookup_of_ne {slot : Option (κ × ν)} (stored : Stored table after i slot)
    (distinct' : Distinct after) {other : κ}
    (before : ∀ w, table[i]? ≠ some (some (other, w))) (now : ∀ w, slot ≠ some (other, w)) :
    lookup after other = lookup table other := by
  cases found : lookup table other with
  | none =>
    rw [lookup_eq_none_iff] at found ⊢
    intro j w held
    by_cases here : j = i
    · subst here
      exact now w (Option.some.inj (stored.here.symm.trans held))
    · rw [stored.others j here] at held
      exact found j w held
  | some w =>
    obtain ⟨j, held⟩ := exists_of_lookup found
    have here : j ≠ i := by
      rintro rfl
      exact before w held
    rw [← stored.others j here] at held
    exact distinct'.lookup_eq held

theorem lookup_insert (distinct : Distinct table) (stored : Stored table after i (some (key, v)))
    (free : ∀ entry, table[i]? ≠ some (some entry)) (absent : lookup table key = none) :
    lookup after = Function.update (lookup table) key (some v) := by
  have distinct' := distinct.insert stored absent
  funext other
  by_cases same : other = key
  · subst same
    rw [Function.update_self]
    exact distinct'.lookup_eq stored.here
  · rw [Function.update_of_ne same]
    refine stored.lookup_of_ne distinct' (fun w => free _) fun w held => same ?_
    exact (Prod.mk.inj (Option.some.inj held)).1.symm

theorem lookup_erase (distinct : Distinct table) (stored : Stored table after i none)
    (held : table[i]? = some (some (key, v))) :
    lookup after = Function.update (lookup table) key none := by
  have distinct' := distinct.erase stored
  funext other
  by_cases same : other = key
  · subst same
    rw [Function.update_self, lookup_eq_none_iff]
    intro j w still
    by_cases here : j = i
    · subst here
      have := stored.here.symm.trans still
      cases this
    · rw [stored.others j here] at still
      exact here (distinct _ _ _ _ _ still held)
  · rw [Function.update_of_ne same]
    refine stored.lookup_of_ne distinct' (fun w there => same ?_) (by simp)
    have entries := Option.some.inj (Option.some.inj (held.symm.trans there))
    exact (Prod.mk.inj entries).1.symm

end Lookup

end SlotMap
