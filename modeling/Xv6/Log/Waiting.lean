import Xv6.Log.Atomicity

/-!
# Waiting for the log

A process waits in `begin_op` either for a commit to end or for room in the
log.  Between operations and commits the header is empty, and an empty log has
room for one operation, so whoever sleeps on `&log` sleeps behind an `end_op`
that has its `wakeup(&log)` still ahead of it.
-/

namespace Xv6

variable {Pid : Type} [DecidableEq Pid]

theorem Group.beginOp_asleep {state : Group Pid} {p : Pid}
    (asleep : state.beginOp p = state.setPc p .asleep) :
    state.committing = true ∨
      (LOGSIZE : Int) < state.lh.length + (state.outstanding + 1) * MAXOPBLOCKS := by
  unfold Group.beginOp at asleep
  split at asleep
  next committing =>
    exact .inl committing
  · split at asleep
    next full =>
      exact .inr full
    · have control := congrFun (congrArg Group.pc asleep) p
      simp at control

theorem Group.step_asleep {log : Log} {state : Group Pid} {p : Pid}
    (control : state.pc p = .begin)
    (stepped : state.step log (.beginOp p) = some (state.setPc p .asleep)) :
    state.committing = true ∨
      (LOGSIZE : Int) < state.lh.length + (state.outstanding + 1) * MAXOPBLOCKS := by
  have running := (Group.step_cases stepped).1
  simp only [Group.step, running, control] at stepped
  exact Group.beginOp_asleep (Option.some.inj stepped)

/-- Nothing is left in the header between transactions, and sleepers have
somebody to wait for. -/
structure Group.Awaited (state : Group Pid) : Prop where
  idle : state.outstanding = 0 → state.committing = false → state.lh = []
  asleep : ∀ p, state.pc p = .asleep → state.committing = true ∨ 1 ≤ state.outstanding

omit [DecidableEq Pid] in
theorem Group.awaited_init : (Group.init Pid).Awaited := by
  refine ⟨fun _ _ => rfl, ?_⟩
  intro p asleep
  simp [Group.init] at asleep

omit [DecidableEq Pid] in
theorem Group.Awaited.move {state after : Group Pid} (awaited : state.Awaited)
    (asleep : ∀ q, after.pc q = .asleep → state.pc q = .asleep)
    (outstanding : after.outstanding = state.outstanding)
    (committing : after.committing = state.committing)
    (lh : state.lh = [] → after.lh = []) : after.Awaited := by
  refine ⟨?_, ?_⟩
  · intro none quiet
    exact lh (awaited.idle (outstanding ▸ none) (committing ▸ quiet))
  · intro q sleeping
    rw [outstanding, committing]
    exact awaited.asleep q (asleep q sleeping)

theorem Group.asleep_of_update {state : Group Pid} {p q : Pid} {next : LogPc}
    (notAsleep : next ≠ .asleep) (asleep : Function.update state.pc p next q = .asleep) :
    state.pc q = .asleep := by
  by_cases here : q = p
  · subst here
    rw [Function.update_self] at asleep
    contradiction
  · rwa [Function.update_of_ne here] at asleep

omit [DecidableEq Pid] in
theorem Group.wakeup_awake (state : Group Pid) (q : Pid) : state.wakeup.pc q ≠ .asleep := by
  intro asleep
  simp only [Group.wakeup] at asleep
  split at asleep
  · contradiction
  · contradiction

variable [Fintype Pid]

omit [DecidableEq Pid] in
theorem Group.Balanced.one_le {state : Group Pid} (balanced : state.Balanced) {p : Pid}
    (running : (state.pc p).ops = 1) : 1 ≤ state.outstanding := by
  have counted := Processes.weight_le_sum LogPc.ops state.pc p
  have total := balanced.outstanding
  omega

omit [DecidableEq Pid] in
theorem Group.Balanced.unfinished {state : Group Pid} (balanced : state.Balanced)
    (busy : state.committing = true ∨ 1 ≤ state.outstanding) :
    ∃ q, (state.pc q).InOp ∨ ∃ pc, state.pc q = .commit pc := by
  by_contra nobody
  have noOp : ∀ q, (state.pc q).ops = 0 := by
    intro q
    have out : ¬ (state.pc q).InOp := fun inOp => nobody ⟨q, .inl inOp⟩
    simp [LogPc.ops_eq, out]
  have noCommit : ∀ q, (state.pc q).commits = 0 := by
    intro q
    cases control : state.pc q with
    | commit pc => exact absurd ⟨q, .inr ⟨pc, control⟩⟩ nobody
    | _ => rfl
  have operations := balanced.outstanding
  have committers := balanced.committing
  simp only [noOp, noCommit, Finset.sum_const_zero] at operations committers
  rcases busy with committing | running
  · simp [committing] at committers
  · omega

theorem Group.Awaited.step {log : Log} {state after : Group Pid} {act : LogAct Pid}
    (awaited : state.Awaited) (balanced : state.Balanced) (recorded : state.Recorded)
    (stepped : state.step log act = some after) : after.Awaited := by
  cases (Group.step_cases stepped).2 with
  | call control =>
    exact awaited.move (fun q => Group.asleep_of_update (by simp)) rfl rfl id
  | @sleep p control =>
    refine ⟨awaited.idle, ?_⟩
    intro q _
    -- with the log idle the header is empty, and one operation fits
    rcases Group.step_asleep control stepped with committing | full
    · exact .inl committing
    · by_contra none
      simp only [setPc_committing, setPc_outstanding, not_or, Bool.not_eq_true, not_le] at none
      have counted := balanced.outstanding
      have zero : state.outstanding = 0 := by omega
      rw [awaited.idle zero none.1, zero] at full
      simp [LOGSIZE, MAXOPBLOCKS] at full
  | enter control idle room =>
    have counted := balanced.outstanding
    refine ⟨?_, fun _ _ => .inr ?_⟩
    · intro none _
      simp only at none
      omega
    · simp only
      omega
  | tooBig control full => exact awaited.move (fun _ => id) rfl rfl id
  | outside control none => exact awaited.move (fun _ => id) rfl rfl id
  | test control =>
    exact awaited.move (fun q => Group.asleep_of_update (by simp)) rfl rfl id
  | append control =>
    have running := balanced.one_le (LogPc.ops_of_op? (by rw [control]; rfl))
    refine ⟨?_, fun _ _ => .inr running⟩
    intro none _
    simp only [Group.logWriteAppend, setPc_outstanding] at none
    omega
  | endPanic control committing =>
    have idle := balanced.not_committing (LogPc.ops_of_op? (by rw [control]; rfl))
    rw [committing] at idle
    contradiction
  | endCommit control idle last =>
    refine ⟨?_, fun _ _ => .inl rfl⟩
    intro _ quiet
    contradiction
  | @endLeave p op passed control idle others =>
    refine ⟨?_, fun q asleep => absurd asleep (Group.wakeup_awake _ q)⟩
    intro none _
    simp only [Group.wakeup, Group.setPc] at none
    omega
  | @commit p pc control running =>
    have flag : (state.commitStep log p pc).committing = true :=
      (commitStep_frame log state p pc).2.1.trans (balanced.committing_of_commit control)
    refine ⟨?_, fun _ _ => .inl flag⟩
    intro _ quiet
    rw [flag] at quiet
    contradiction
  | @finish p control =>
    refine ⟨fun _ _ => ?_, fun q asleep => absurd asleep (Group.wakeup_awake _ q)⟩
    exact recorded.cleared p (by rw [control]; trivial)

/-- The last section of `end_op` wakes everybody: after a commit, and also if other operations
are still running. -/
theorem Group.Balanced.awake {log : Log} {state after : Group Pid} {act : LogAct Pid} {p : Pid}
    (balanced : state.Balanced) (stepped : state.Step log act after)
    (wakes : act = .finish p ∨ act = .endOp p ∧ state.outstanding ≠ 1) (q : Pid) :
    after.pc q ≠ .asleep := by
  rcases wakes with rfl | ⟨rfl, others⟩
  · cases stepped with
    | finish control => exact Group.wakeup_awake _ q
  · cases stepped with
    | endPanic control committing =>
      have idle := balanced.not_committing (LogPc.ops_of_op? (by rw [control]; rfl))
      rw [committing] at idle
      contradiction
    | endCommit control idle last => exact absurd last others
    | endLeave control idle _ => exact Group.wakeup_awake _ q

theorem Group.Run.awaited {log : Log} {state : Group Pid} (run : Group.Run log state) :
    state.Awaited := by
  have all : (state.Balanced ∧ state.Recorded) ∧ state.Awaited := by
    refine Transition.Reachable.invariant
      (fun s : Group Pid => (s.Balanced ∧ s.Recorded) ∧ s.Awaited)
      ⟨⟨Group.balanced_init, Group.recorded_init⟩, Group.awaited_init⟩ ?_ run
    rintro before act after ⟨⟨balanced, recorded⟩, awaited⟩ _ stepped
    have taken := (Group.step_cases stepped).2
    exact ⟨⟨balanced.step taken, recorded.step balanced taken⟩,
      awaited.step balanced recorded stepped⟩
  exact all.2

/-- `begin_op` never waits in vain.  In every state of every interleaving the
header is empty when no operation runs and no commit does; and if a process
sleeps on `&log`, then a commit or an operation is in progress, and some
process has its own `end_op` still to finish.  Where `end_op` calls `wakeup(&log)`, with other
operations running or at the end of a commit, it leaves nobody asleep. -/
theorem begin_op_never_waits_in_vain (log : Log) {state : Group Pid}
    (run : Group.Run log state) :
    (state.outstanding = 0 → state.committing = false → state.lh.length = 0) ∧
    ((∃ p, state.pc p = .asleep) →
      (state.committing = true ∨ 1 ≤ state.outstanding) ∧
      ∃ q, (state.pc q).InOp ∨ ∃ pc, state.pc q = .commit pc) ∧
    ∀ p act after, state.step log act = some after →
      act = .finish p ∨ act = .endOp p ∧ state.outstanding ≠ 1 → ∀ q, after.pc q ≠ .asleep := by
  have awaited := run.awaited
  refine ⟨?_, ?_, fun p act after stepped =>
    run.invariant.1.awake (Group.step_cases stepped).2⟩
  · intro none idle
    rw [awaited.idle none idle, List.length_nil]
  · rintro ⟨p, asleep⟩
    have busy := awaited.asleep p asleep
    exact ⟨busy, run.invariant.1.unfinished busy⟩

/-- A second process arrives during a commit and sleeps. -/
theorem begin_op_never_waits_in_vain_during_commit : ∃ state : Group (Fin 2),
    Group.Run mkfsLog state ∧ state.pc 1 = .asleep ∧
    (state.committing = true ∨ 1 ≤ state.outstanding) := by
  have found : ∃ state : Group (Fin 2), Group.Run mkfsLog state ∧ state.pc 1 = .asleep :=
    Transition.Reachable.exists_of_run (fun _ _ => true) (fun _ _ _ => trivial) _
      [.call 0, .beginOp 0, .logWrite 0 7, .append 0, .endOp 0, .commit 0, .call 1, .beginOp 1]
      (by decide)
  rcases found with ⟨state, run, asleep⟩
  exact ⟨state, run, asleep, ((begin_op_never_waits_in_vain mkfsLog run).2.1 ⟨1, asleep⟩).1⟩

end Xv6
