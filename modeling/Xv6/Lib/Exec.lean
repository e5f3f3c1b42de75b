import Xv6.Lib.Program

/-!
# Computations that may stop

A computation reads and changes a state and either returns or stops with an
error, after which nothing runs.  `Ensures` is its total specification: what
holds when it returns, and which errors can stop it.  Proofs run a computation
symbolically with the rules for its parts.
-/

/-- A computation on states `σ` that returns an `α` or stops with an `ε`. -/
def Exec (ε σ α : Type) : Type := σ → Except ε (α × σ)

namespace Exec

variable {ε σ α β : Type}

instance : Monad (Exec ε σ) where
  pure value state := .ok (value, state)
  bind first rest state :=
    match first state with
    | .ok (value, next) => rest value next
    | .error stop => .error stop

def get : Exec ε σ σ := fun state => .ok (state, state)

def modify (change : σ → σ) : Exec ε σ Unit := fun state => .ok ((), change state)

def fail (stop : ε) : Exec ε σ α := fun _ => .error stop

/-- From `state` the computation returns with `good`, or stops with a `bad` error. -/
def Ensures (computation : Exec ε σ α) (state : σ) (good : α → σ → Prop) (bad : ε → Prop) :
    Prop :=
  match computation state with
  | .ok (value, next) => good value next
  | .error stop => bad stop

variable {computation : Exec ε σ α} {state : σ} {good : α → σ → Prop} {bad : ε → Prop}

/-- A concrete computation can be run. -/
instance [∀ value next, Decidable (good value next)] [∀ stop, Decidable (bad stop)] :
    Decidable (computation.Ensures state good bad) :=
  match result : computation state with
  | .ok (value, next) => decidable_of_iff (good value next) (by unfold Ensures; rw [result])
  | .error stop => decidable_of_iff (bad stop) (by unfold Ensures; rw [result])

@[simp]
theorem ensures_pure {value : α} :
    (pure value : Exec ε σ α).Ensures state good bad ↔ good value state := Iff.rfl

@[simp]
theorem ensures_get {good : σ → σ → Prop} :
    (get : Exec ε σ σ).Ensures state good bad ↔ good state state := Iff.rfl

@[simp]
theorem ensures_modify {change : σ → σ} {good : Unit → σ → Prop} :
    (modify change : Exec ε σ Unit).Ensures state good bad ↔ good () (change state) := Iff.rfl

@[simp]
theorem ensures_fail {stop : ε} :
    (fail stop : Exec ε σ α).Ensures state good bad ↔ bad stop := Iff.rfl

theorem bind_apply (first : Exec ε σ β) (rest : β → Exec ε σ α) :
    (first >>= rest) state =
      match first state with
      | .ok (value, next) => rest value next
      | .error stop => .error stop := rfl

@[simp]
theorem ensures_bind {first : Exec ε σ β} {rest : β → Exec ε σ α} :
    (first >>= rest).Ensures state good bad ↔
      first.Ensures state (fun value next => (rest value).Ensures next good bad) bad := by
  unfold Ensures
  rw [bind_apply]
  cases first state with
  | error stop => rfl
  | ok result => rfl

theorem ensures_iff : computation.Ensures state good bad ↔
    (∀ value next, computation state = .ok (value, next) → good value next) ∧
      (∀ stop, computation state = .error stop → bad stop) := by
  unfold Ensures
  cases computation state with
  | error stop => simp
  | ok result =>
    obtain ⟨value, next⟩ := result
    simp

theorem Ensures.of_ok (ensures : computation.Ensures state good bad) {value : α} {next : σ}
    (returns : computation state = .ok (value, next)) : good value next :=
  (ensures_iff.mp ensures).1 value next returns

theorem Ensures.of_error (ensures : computation.Ensures state good bad) {stop : ε}
    (stops : computation state = .error stop) : bad stop :=
  (ensures_iff.mp ensures).2 stop stops

theorem Ensures.exists_ok (ensures : computation.Ensures state good fun _ => False) :
    ∃ value next, computation state = .ok (value, next) ∧ good value next := by
  unfold Ensures at ensures
  cases result : computation state with
  | error stop =>
    rw [result] at ensures
    exact ensures.elim
  | ok returned =>
    rw [result] at ensures
    exact ⟨returned.1, returned.2, rfl, ensures⟩

theorem ensures_bind_of_ok {first : Exec ε σ β} {rest : β → Exec ε σ α} {value : β} {next : σ}
    (returns : first state = .ok (value, next)) :
    (first >>= rest).Ensures state good bad ↔ (rest value).Ensures next good bad := by
  unfold Ensures
  rw [bind_apply, returns]

theorem Ensures.mono {better : α → σ → Prop} {worse : ε → Prop}
    (ensures : computation.Ensures state good bad)
    (returns : ∀ value next, good value next → better value next)
    (stops : ∀ stop, bad stop → worse stop) : computation.Ensures state better worse := by
  rw [ensures_iff] at ensures ⊢
  exact ⟨fun value next result => returns value next (ensures.1 value next result),
    fun stop result => stops stop (ensures.2 stop result)⟩

theorem Ensures.bind {first : Exec ε σ β} {rest : β → Exec ε σ α} {mid : β → σ → Prop}
    {stopped : ε → Prop} (ensures : first.Ensures state mid stopped)
    (continues : ∀ value next, mid value next → (rest value).Ensures next good bad)
    (stops : ∀ stop, stopped stop → bad stop) : (first >>= rest).Ensures state good bad := by
  rw [ensures_bind]
  exact ensures.mono continues stops

theorem Ensures.always : computation.Ensures state (fun _ _ => True) fun _ => True := by
  rw [ensures_iff]
  exact ⟨fun _ _ _ => trivial, fun _ _ => trivial⟩

theorem Ensures.returned :
    computation.Ensures state (fun value next => computation state = .ok (value, next))
      fun _ => True := by
  rw [ensures_iff]
  exact ⟨fun _ _ result => result, fun _ _ => trivial⟩

theorem Ensures.and {other : α → σ → Prop} {otherBad : ε → Prop}
    (ensures : computation.Ensures state good bad)
    (also : computation.Ensures state other otherBad) :
    computation.Ensures state (fun value next => good value next ∧ other value next)
      (fun stop => bad stop ∧ otherBad stop) := by
  rw [ensures_iff] at ensures also ⊢
  exact ⟨fun value next result => ⟨ensures.1 value next result, also.1 value next result⟩,
    fun stop result => ⟨ensures.2 stop result, also.2 stop result⟩⟩

theorem Ensures.iff_of_decides {condition : Prop}
    (decides : computation.Ensures state
      (fun value next => condition ∧ good value next ∨ ¬condition ∧ ¬good value next)
      fun _ => ¬condition) :
    computation.Ensures state good (fun _ => False) ↔ condition := by
  unfold Ensures at *
  cases result : computation state with
  | error stop =>
    rw [result] at decides
    exact ⟨False.elim, decides⟩
  | ok returned =>
    rw [result] at decides
    rcases decides with ⟨holds, isGood⟩ | ⟨fails, notGood⟩
    · exact ⟨fun _ => holds, fun _ => isGood⟩
    · exact ⟨fun isGood => absurd isGood notGood, fun holds => absurd holds fails⟩

theorem Ensures.iff_of_decides_returned {condition : Prop}
    (decides : computation.Ensures state
      (fun value next => condition ∧ good value next ∨ ¬condition ∧ ¬good value next)
      fun _ => condition) :
    computation.Ensures state good (fun _ => True) ↔ condition := by
  unfold Ensures at *
  cases result : computation state with
  | error stop =>
    rw [result] at decides
    exact iff_of_true trivial decides
  | ok returned =>
    rw [result] at decides
    rcases decides with ⟨holds, isGood⟩ | ⟨fails, notGood⟩
    · exact iff_of_true isGood holds
    · exact iff_of_false notGood fails

/-- Every way the computation returns keeps the invariant. -/
def Keeps (invariant : σ → Prop) (computation : Exec ε σ α) : Prop :=
  ∀ state, invariant state → computation.Ensures state (fun _ next => invariant next) fun _ => True

section Keeps

variable {invariant : σ → Prop}

theorem Keeps.pure (value : α) : Keeps invariant (pure value : Exec ε σ α) := fun _ holds => holds

theorem Keeps.get : Keeps invariant (get : Exec ε σ σ) := fun _ holds => holds

theorem Keeps.fail (stop : ε) : Keeps invariant (fail stop : Exec ε σ α) := fun _ _ => trivial

theorem Keeps.modify {change : σ → σ}
    (keeps : ∀ state, invariant state → invariant (change state)) :
    Keeps invariant (modify change : Exec ε σ Unit) := keeps

theorem Keeps.bind {first : Exec ε σ β} {rest : β → Exec ε σ α} (keeps : Keeps invariant first)
    (continues : ∀ value, Keeps invariant (rest value)) : Keeps invariant (first >>= rest) :=
  fun state holds => (keeps state holds).bind (fun value next => continues value next)
    fun _ _ => trivial

end Keeps

end Exec

namespace Prog

open Exec

variable {Op : Type} {Reply : Op → Type} {ε σ α β : Type}

/-- Run a program to its end, with nothing else running in between. -/
def exec (handler : (op : Op) → Exec ε σ (Reply op)) : Prog Op Reply α → Exec ε σ α
  | .ret value => pure value
  | .call op next => handler op >>= fun reply => (next reply).exec handler

variable {handler : (op : Op) → Exec ε σ (Reply op)} {state : σ} {good : α → σ → Prop}
  {bad : ε → Prop}

@[simp]
theorem ensures_ret {value : α} :
    ((Prog.ret value : Prog Op Reply α).exec handler).Ensures state good bad ↔ good value state :=
  Iff.rfl

@[simp]
theorem ensures_call {op : Op} {next : Reply op → Prog Op Reply α} :
    ((Prog.call op next).exec handler).Ensures state good bad ↔
      (handler op).Ensures state
        (fun reply after => ((next reply).exec handler).Ensures after good bad) bad := by
  rw [exec, ensures_bind]

@[simp]
theorem ensures_op {op : Op} {good : Reply op → σ → Prop} :
    ((Prog.op op : Prog Op Reply (Reply op)).exec handler).Ensures state good bad ↔
      (handler op).Ensures state good bad := by
  rw [Prog.op, ensures_call]
  rfl

theorem exec_bind (program : Prog Op Reply β) (rest : β → Prog Op Reply α) :
    (program >>= rest).exec handler =
      program.exec handler >>= fun value => (rest value).exec handler := by
  induction program with
  | ret value => rfl
  | call op next ih =>
    funext state
    rw [call_bind, exec, exec]
    simp only [ih, bind_apply]
    cases handler op state with
    | error stop => rfl
    | ok result => rfl

@[simp]
theorem ensures_exec_bind {program : Prog Op Reply β} {rest : β → Prog Op Reply α} :
    ((program >>= rest).exec handler).Ensures state good bad ↔
      (program.exec handler).Ensures state
        (fun value after => ((rest value).exec handler).Ensures after good bad) bad := by
  rw [exec_bind, ensures_bind]

end Prog
