import Mathlib.Algebra.BigOperators.Group.Finset.Basic
import Mathlib.Tactic

/-!
# Runs of transition systems and counts over processes

A transition function answers an action with the next state, or with `none`
when the action is not enabled.  `Reachable` collects the states of all runs
whose actions meet a side condition, so that one definition serves both the
unrestricted system and its restricted runs.

The second part is what invariants over many processes need: a sum over all
processes changes by one summand when one process moves.
-/

namespace Transition

theorem of_guard {α : Type*} {guard : Prop} [Decidable guard] {next after : α}
    (taken : (if guard then some next else none) = some after) : guard ∧ next = after := by
  split at taken
  · exact ⟨‹guard›, Option.some.inj taken⟩
  · cases taken

variable {σ α : Type*}

/-- The states of runs from `initial` in which every action is allowed in the
state where it is taken. -/
inductive Reachable (step : σ → α → Option σ) (allowed : σ → α → Prop) (initial : σ) :
    σ → Prop where
  | initial : Reachable step allowed initial initial
  | step {before after : σ} {action : α} :
      Reachable step allowed initial before → allowed before action →
      step before action = some after → Reachable step allowed initial after

variable {step : σ → α → Option σ} {allowed : σ → α → Prop} {initial : σ}

theorem Reachable.invariant (invariant : σ → Prop) (initially : invariant initial)
    (keeps : ∀ before action after, invariant before → allowed before action →
      step before action = some after → invariant after)
    {state : σ} (reachable : Reachable step allowed initial state) : invariant state := by
  induction reachable with
  | initial => exact initially
  | step _ isAllowed stepped ih =>
    exact keeps _ _ _ ih isAllowed stepped

theorem Reachable.mono {weaker : σ → α → Prop}
    (implies : ∀ state action, allowed state action → weaker state action)
    {state : σ} (reachable : Reachable step allowed initial state) :
    Reachable step weaker initial state := by
  induction reachable with
  | initial => exact .initial
  | step _ isAllowed stepped ih =>
    exact .step ih (implies _ _ isAllowed) stepped

/-- Run a list of actions, checking the side condition of each. -/
def run (step : σ → α → Option σ) (check : σ → α → Bool) : σ → List α → Option σ
  | state, [] => some state
  | state, action :: rest =>
    if check state action then (step state action).bind fun next => run step check next rest
    else none

theorem Reachable.of_run (check : σ → α → Bool)
    (sound : ∀ state action, check state action = true → allowed state action)
    {before after : σ} (reachable : Reachable step allowed initial before)
    (actions : List α) (runs : run step check before actions = some after) :
    Reachable step allowed initial after := by
  induction actions generalizing before with
  | nil =>
    simp only [run, Option.some.injEq] at runs
    exact runs ▸ reachable
  | cons action rest ih =>
    unfold run at runs
    split at runs
    next checked =>
      rcases Option.bind_eq_some_iff.mp runs with ⟨next, stepped, others⟩
      exact ih (.step reachable (sound _ _ checked) stepped) others
    · contradiction

/-- A list of actions whose conditions and end state can be evaluated leads to
a reachable state with the evaluated property. -/
theorem Reachable.exists_of_run (check : σ → α → Bool)
    (sound : ∀ state action, check state action = true → allowed state action)
    (property : σ → Prop) [DecidablePred property] (actions : List α)
    (ends : (run step check initial actions).any (fun state => decide (property state)) = true) :
    ∃ state, Reachable step allowed initial state ∧ property state := by
  cases runs : run step check initial actions with
  | none => simp [runs] at ends
  | some state =>
    refine ⟨state, Reachable.of_run check sound .initial actions runs, ?_⟩
    simpa [runs] using ends

/-- A simulation: each step is matched by a step of the other system, or by none. -/
theorem Reachable.simulates {τ β : Type*} {specStep : τ → β → Option τ} {specInitial : τ}
    (relation : σ → τ → Prop) (initially : relation initial specInitial)
    (matched : ∀ before action after spec, relation before spec → allowed before action →
      step before action = some after →
      ∃ next, relation after next ∧ (next = spec ∨ ∃ act, specStep spec act = some next))
    {state : σ} (reachable : Reachable step allowed initial state) :
    ∃ spec, Reachable specStep (fun _ _ => True) specInitial spec ∧ relation state spec := by
  induction reachable with
  | initial => exact ⟨specInitial, .initial, initially⟩
  | step _ isAllowed stepped ih =>
    obtain ⟨spec, reached, related⟩ := ih
    obtain ⟨next, kept, same | ⟨act, moved⟩⟩ := matched _ _ _ _ related isAllowed stepped
    · exact ⟨spec, reached, same ▸ kept⟩
    · exact ⟨next, .step reached trivial moved, kept⟩

end Transition

namespace Processes

variable {Pid β : Type*} [Fintype Pid] [DecidableEq Pid]

theorem sum_update (weight : β → Nat) (control : Pid → β) (process : Pid) (next : β) :
    (∑ p, weight (Function.update control process next p)) + weight (control process) =
      (∑ p, weight (control p)) + weight next := by
  have moved : (∑ p, weight (Function.update control process next p)) =
      (∑ p ∈ Finset.univ.erase process, weight (control p)) + weight next := by
    rw [← Finset.sum_erase_add _ _ (Finset.mem_univ process), Function.update_self]
    congr 1
    apply Finset.sum_congr rfl
    intro other membership
    rw [Function.update_of_ne (Finset.ne_of_mem_erase membership)]
  rw [moved, ← Finset.sum_erase_add _ _ (Finset.mem_univ process)]
  omega

omit [DecidableEq Pid] in
theorem weight_le_sum (weight : β → Nat) (control : Pid → β) (process : Pid) :
    weight (control process) ≤ ∑ p, weight (control p) :=
  Finset.single_le_sum (f := fun p => weight (control p)) (fun _ _ => Nat.zero_le _)
    (Finset.mem_univ process)

theorem weights_le_sum (weight : β → Nat) (control : Pid → β) {first second : Pid}
    (different : first ≠ second) :
    weight (control first) + weight (control second) ≤ ∑ p, weight (control p) := by
  rw [← Finset.sum_erase_add _ _ (Finset.mem_univ first), Nat.add_comm]
  apply Nat.add_le_add_right
  exact Finset.single_le_sum (f := fun p => weight (control p)) (fun _ _ => Nat.zero_le _)
    (Finset.mem_erase.mpr ⟨different.symm, Finset.mem_univ second⟩)

end Processes
