import Mathlib.Logic.Function.Basic
import Mathlib.Tactic.Common

/-!
# Locks and program counters

A lock records its owner; whether a process owns it can also be read off the
point of its code where it is.  `Mutex` says that the two agree, which makes the
lock exclusive, and the lemmas follow one process as it acquires the lock,
releases it, or moves without touching it.
-/

variable {P C : Type*} [DecidableEq P]

/-- The owner of the lock is the process at a point where the lock is held. -/
def Mutex (owner : Option P) (pc : P → C) (Holds : C → Prop) : Prop :=
  ∀ p, owner = some p ↔ Holds (pc p)

open Function (update update_of_ne update_self)

namespace Mutex

variable {owner : Option P} {pc : P → C} {Holds : C → Prop} {p : P} {next : C}

omit [DecidableEq P] in
theorem exclusive (mutex : Mutex owner pc Holds) {q : P} (first : Holds (pc p))
    (second : Holds (pc q)) : p = q :=
  Option.some.inj (((mutex p).mpr first).symm.trans ((mutex q).mpr second))

omit [DecidableEq P] in
theorem free (mutex : Mutex none pc Holds) : ¬Holds (pc p) := by
  intro held
  cases (mutex p).mpr held

theorem keep (mutex : Mutex owner pc Holds) (same : Holds next ↔ Holds (pc p)) :
    Mutex owner (update pc p next) Holds := by
  intro q
  by_cases here : q = p
  · subst here
    rw [update_self, same]
    exact mutex q
  · rw [update_of_ne here]
    exact mutex q

theorem acquire (mutex : Mutex none pc Holds) (holds : Holds next) :
    Mutex (some p) (update pc p next) Holds := by
  intro q
  by_cases here : q = p
  · subst here
    rw [update_self]
    exact ⟨fun _ => holds, fun _ => rfl⟩
  · rw [update_of_ne here]
    exact ⟨fun same => absurd (Option.some.inj same).symm here, fun held => absurd held mutex.free⟩

theorem release (mutex : Mutex owner pc Holds) (held : Holds (pc p)) (leaves : ¬Holds next) :
    Mutex none (update pc p next) Holds := by
  intro q
  refine ⟨fun absurdity => (Option.some_ne_none q absurdity.symm).elim, ?_⟩
  by_cases here : q = p
  · subst here
    rw [update_self]
    exact fun holds => absurd holds leaves
  · rw [update_of_ne here]
    exact fun other => absurd (mutex.exclusive other held) here

end Mutex
