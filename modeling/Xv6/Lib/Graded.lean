import Mathlib.Algebra.Group.Basic
import Xv6.Lib.Exec

/-!
# Effects that add up

A relation on states carries a grade, the amount by which something changes, and grades
add when transitions follow each other.  A computation is graded by a function of its
result when every way it returns makes a transition of that grade.  Then the grade of a
sequence is the sum over its parts, and a computation whose grades cancel has no effect.
-/

/-- Transitions with a grade, closed under doing nothing and under composition. -/
structure Grading {M σ : Type} [AddCommGroup M] (effect : M → σ → σ → Prop) : Prop where
  refl : ∀ state, effect 0 state state
  trans : ∀ {first second : M} {state mid next : σ},
    effect first state mid → effect second mid next → effect (first + second) state next

namespace Exec

variable {M ε σ α β : Type} {effect : M → σ → σ → Prop}

/-- However the computation returns, its effect is the grade of what it returns. -/
def Graded (effect : M → σ → σ → Prop) (grade : α → M) (computation : Exec ε σ α) : Prop :=
  ∀ state, computation.Ensures state (fun value next => effect (grade value) state next)
    fun _ => True

theorem Graded.fail (stop : ε) (grade : α → M) : Graded effect grade (fail stop : Exec ε σ α) :=
  fun _ => trivial

theorem Graded.ite {condition : Prop} [Decidable condition] {grade : α → M}
    {yes no : Exec ε σ α} (first : condition → Graded effect grade yes)
    (second : ¬condition → Graded effect grade no) :
    Graded effect grade (if condition then yes else no) := by
  split
  · exact first ‹_›
  · exact second ‹_›

theorem Graded.congr {grade other : α → M} {computation : Exec ε σ α}
    (graded : Graded effect grade computation) (same : ∀ value, grade value = other value) :
    Graded effect other computation := by
  intro state
  refine (graded state).mono (fun value next related => ?_) fun _ _ => trivial
  rw [← same value]
  exact related

variable [AddCommGroup M]

theorem Graded.pure (grading : Grading effect) {value : α} {grade : α → M}
    (nothing : grade value = 0) : Graded effect grade (pure value : Exec ε σ α) := by
  intro state
  rw [ensures_pure, nothing]
  exact grading.refl state

theorem Graded.bind (grading : Grading effect) {first : Exec ε σ β} {rest : β → Exec ε σ α}
    {done : β → M} {grade : α → M} (graded : Graded effect done first)
    (continues : ∀ value, Graded effect (fun result => grade result - done value) (rest value)) :
    Graded effect grade (first >>= rest) := by
  intro state
  refine (graded state).bind (fun value mid started => ?_) fun _ _ => trivial
  refine (continues value mid).mono (fun result next ended => ?_) fun _ _ => trivial
  have whole := grading.trans started ended
  rwa [add_sub_cancel] at whole

theorem Graded.after (grading : Grading effect) {first : Exec ε σ β} {rest : β → Exec ε σ α}
    {grade : α → M} (quiet : Graded effect (fun _ => 0) first)
    (continues : ∀ value, Graded effect grade (rest value)) :
    Graded effect grade (first >>= rest) :=
  .bind grading quiet fun value => (continues value).congr fun _ => (sub_zero _).symm

end Exec

namespace Prog

open Exec

variable {Op : Type} {Reply : Op → Type} {M ε σ α β : Type} [AddCommGroup M]
  {effect : M → σ → σ → Prop} {handler : (op : Op) → Exec ε σ (Reply op)}

omit [AddCommGroup M] in
theorem graded_op {operation : Op} {grade : Reply operation → M}
    (graded : Graded effect grade (handler operation)) :
    Graded effect grade ((Prog.op operation).exec handler) := by
  intro state
  rw [ensures_op]
  exact graded state

theorem graded_bind (grading : Grading effect) {first : Prog Op Reply β}
    {rest : β → Prog Op Reply α} {done : β → M} {grade : α → M}
    (graded : Graded effect done (first.exec handler))
    (continues : ∀ value,
      Graded effect (fun result => grade result - done value) ((rest value).exec handler)) :
    Graded effect grade ((first >>= rest).exec handler) := by
  rw [exec_bind]
  exact .bind grading graded continues

theorem graded_after (grading : Grading effect) {first : Prog Op Reply β}
    {rest : β → Prog Op Reply α} {grade : α → M}
    (quiet : Graded effect (fun _ => 0) (first.exec handler))
    (continues : ∀ value, Graded effect grade ((rest value).exec handler)) :
    Graded effect grade ((first >>= rest).exec handler) := by
  rw [exec_bind]
  exact .after grading quiet continues

end Prog
