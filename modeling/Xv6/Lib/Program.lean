import Mathlib.Logic.Basic
import Mathlib.Tactic.Common

/-!
# Programs over atomic operations

A program is a finite tree of atomic operations: each node names one operation
and continues with its reply.  A crash, or another process, can only act
between two nodes, so the tree fixes the granularity of a model.

`Safe` is the judgement of crash logic: running the program to its end keeps
the crash condition at every point passed and ends in the postcondition.
`CrashSystem` closes it over an unbounded alternation of jobs, crashes and
recoveries.  `wp` is for programs that run among others: what is left of one
keeps its precondition until its next operation.
-/

/-- Programs whose nodes are atomic operations with typed replies. -/
inductive Prog (Op : Type) (Reply : Op → Type) (α : Type) : Type where
  | ret (value : α)
  /-- One atomic operation, then the program its reply selects. -/
  | call (op : Op) (next : Reply op → Prog Op Reply α)

namespace Prog

variable {Op : Type} {Reply : Op → Type} {α β σ : Type}

def bind : Prog Op Reply α → (α → Prog Op Reply β) → Prog Op Reply β
  | .ret value, rest => rest value
  | .call op next, rest => .call op fun reply => (next reply).bind rest

instance : Monad (Prog Op Reply) where
  pure := .ret
  bind := bind

def op (operation : Op) : Prog Op Reply (Reply operation) := .call operation .ret

@[simp]
theorem pure_eq (value : α) : (pure value : Prog Op Reply α) = .ret value := rfl

@[simp]
theorem ret_bind (value : α) (rest : α → Prog Op Reply β) :
    (Prog.ret value >>= rest) = rest value := rfl

@[simp]
theorem call_bind (operation : Op) (next : Reply operation → Prog Op Reply α)
    (rest : α → Prog Op Reply β) :
    (Prog.call operation next >>= rest) =
      .call operation fun reply => next reply >>= rest := rfl

@[simp]
theorem op_bind (operation : Op) (rest : Reply operation → Prog Op Reply β) :
    (op operation >>= rest) = .call operation rest := rfl

/-- Run a program to its end on a machine that answers every operation. -/
def run (step : (op : Op) → σ → Reply op × σ) : Prog Op Reply α → σ → α × σ
  | .ret value, state => (value, state)
  | .call op next, state => (next (step op state).1).run step (step op state).2

/-- Running the program from `state` meets `crash` at every point between two
operations, both ends included, and `post` at its end. -/
def Safe (step : (op : Op) → σ → Reply op × σ) (crash : σ → Prop) (post : α → σ → Prop) :
    Prog Op Reply α → σ → Prop
  | .ret value, state => crash state ∧ post value state
  | .call op next, state =>
    crash state ∧ (next (step op state).1).Safe step crash post (step op state).2

section Safe

variable {step : (op : Op) → σ → Reply op × σ} {crash : σ → Prop}

theorem safe_ret {post : α → σ → Prop} {value : α} {state : σ} :
    (Prog.ret value : Prog Op Reply α).Safe step crash post state ↔
      crash state ∧ post value state := Iff.rfl

theorem safe_call {post : α → σ → Prop} {op : Op} {next : Reply op → Prog Op Reply α}
    {state : σ} :
    (Prog.call op next).Safe step crash post state ↔
      crash state ∧ (next (step op state).1).Safe step crash post (step op state).2 := Iff.rfl

-- From here on the judgement is used through `safe_ret` and `safe_call` only.
attribute [irreducible] Safe

theorem Safe.atStart {post : α → σ → Prop} {program : Prog Op Reply α} {state : σ}
    (safe : program.Safe step crash post state) : crash state := by
  cases program with
  | ret value => exact (safe_ret.mp safe).1
  | call op next => exact (safe_call.mp safe).1

theorem Safe.bind {mid : α → σ → Prop} {post : β → σ → Prop}
    {program : Prog Op Reply α} {rest : α → Prog Op Reply β} {state : σ}
    (safe : program.Safe step crash mid state)
    (continues : ∀ value state, mid value state → (rest value).Safe step crash post state) :
    (program >>= rest).Safe step crash post state := by
  induction program generalizing state with
  | ret value => exact continues value state (safe_ret.mp safe).2
  | call op next ih =>
    rw [safe_call] at safe
    rw [call_bind, safe_call]
    exact ⟨safe.1, ih _ safe.2⟩

theorem Safe.weaken {post weaker : α → σ → Prop} {program : Prog Op Reply α} {state : σ}
    (safe : program.Safe step crash post state)
    (implies : ∀ value state, post value state → weaker value state) :
    program.Safe step crash weaker state := by
  induction program generalizing state with
  | ret value =>
    rw [safe_ret] at safe ⊢
    exact ⟨safe.1, implies _ _ safe.2⟩
  | call op next ih =>
    rw [safe_call] at safe ⊢
    exact ⟨safe.1, ih _ safe.2⟩

theorem Safe.run_post {post : α → σ → Prop} {program : Prog Op Reply α} {state : σ}
    (safe : program.Safe step crash post state) :
    post (program.run step state).1 (program.run step state).2 := by
  induction program generalizing state with
  | ret value => exact (safe_ret.mp safe).2
  | call op next ih => exact ih _ (safe_call.mp safe).2

end Safe

/-- The weakest precondition of a program, for operations given by predicate
transformers.  A transformer may quantify over the reply and demand something
of the state in which its operation is called. -/
def wp (spec : (op : Op) → (Reply op → σ → Prop) → σ → Prop) (post : α → σ → Prop) :
    Prog Op Reply α → σ → Prop
  | .ret value => post value
  | .call op next => spec op fun reply => (next reply).wp spec post

theorem wp_bind (spec : (op : Op) → (Reply op → σ → Prop) → σ → Prop) (post : β → σ → Prop)
    (first : Prog Op Reply α) (rest : α → Prog Op Reply β) :
    (first >>= rest).wp spec post = first.wp spec fun value => (rest value).wp spec post := by
  induction first with
  | ret value => rfl
  | call op next ih => exact congrArg (spec op) (funext ih)

end Prog

/-- A machine that runs one job at a time and may crash between any two
operations.  A crash replaces the state by what survives it and the running
job by the recovery program, which may itself be cut short by a crash. -/
structure CrashSystem (Op : Type) (Reply : Op → Type) (σ : Type) where
  step : (op : Op) → σ → Reply op × σ
  /-- What a crash leaves of the state. -/
  boot : σ → σ
  recovery : Prog Op Reply Unit
  /-- The jobs an idle machine may start, each with the state it starts in. -/
  start : σ → σ → Prog Op Reply Unit → Prop

namespace CrashSystem

variable {Op : Type} {Reply : Op → Type} {σ : Type} (system : CrashSystem Op Reply σ)

/-- The states and remaining programs met by runs from the idle state `initial`. -/
inductive Reachable (initial : σ) : σ → Prog Op Reply Unit → Prop where
  | idle : Reachable initial initial (.ret ())
  | start {state started job} :
      Reachable initial state (.ret ()) → system.start state started job →
      Reachable initial started job
  | op {state op next} :
      Reachable initial state (.call op next) →
      Reachable initial (system.step op state).2 (next (system.step op state).1)
  | crash {state program} :
      Reachable initial state program →
      Reachable initial (system.boot state) system.recovery

/-- Jobs that keep the crash condition and a recovery that restores the idle
condition from it make every reachable remaining program safe. -/
theorem Reachable.safe {system : CrashSystem Op Reply σ} {initial : σ}
    {crash idle : σ → Prop}
    (initially : crash initial ∧ idle initial)
    (starts : ∀ state started job, idle state → system.start state started job →
      job.Safe system.step crash (fun _ => idle) started)
    (recovers : ∀ state, crash state →
      system.recovery.Safe system.step crash (fun _ => idle) (system.boot state))
    {state : σ} {program : Prog Op Reply Unit}
    (reachable : system.Reachable initial state program) :
    program.Safe system.step crash (fun _ => idle) state := by
  induction reachable with
  | idle => exact Prog.safe_ret.mpr initially
  | start _ started ih =>
    exact starts _ _ _ (Prog.safe_ret.mp ih).2 started
  | op _ ih => exact (Prog.safe_call.mp ih).2
  | crash _ ih => exact recovers _ ih.atStart

end CrashSystem
