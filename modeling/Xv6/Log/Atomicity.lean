import Mathlib.Algebra.Order.BigOperators.Group.Finset
import Xv6.Log.Group

/-!
# System-call atomicity of group commit

`Group.Step` says once what a step can do.  The counter and the flag are tied
to the processes by two sums, one counting operations and one counting
committers; together they keep every `log_write` out of a running commit, so
the epoch of an operation never changes under it.
-/

open Function (update update_of_ne update_self)

namespace Xv6

variable {Pid : Type} [DecidableEq Pid]

/-! ## What a step can do -/

inductive Group.Step (log : Log) (state : Group Pid) : LogAct Pid → Group Pid → Prop where
  | call {p} : state.pc p = .out → Step log state (.call p) (state.setPc p .begin)
  | sleep {p} : state.pc p = .begin → Step log state (.beginOp p) (state.setPc p .asleep)
  | enter {p} : state.pc p = .begin → state.committing = false →
      (state.lh.length : Int) + (state.outstanding + 1) * MAXOPBLOCKS ≤ LOGSIZE →
      Step log state (.beginOp p)
        { state.setPc p (.inOp state.nextOp []) with
          outstanding := state.outstanding + 1
          nextOp := state.nextOp + 1 }
  | tooBig {p op passed blockno} : state.pc p = .inOp op passed →
      LOGSIZE ≤ state.lh.length ∨ log.size - 1 ≤ state.lh.length →
      Step log state (.logWrite p blockno) (state.panic .tooBig)
  | outside {p op passed blockno} : state.pc p = .inOp op passed → state.outstanding < 1 →
      Step log state (.logWrite p blockno) (state.panic .outsideTrans)
  | test {p op passed blockno} : state.pc p = .inOp op passed →
      state.lh.length < LOGSIZE → state.lh.length < log.size - 1 →
      Step log state (.logWrite p blockno)
        (state.setPc p (.tested op (blockno :: passed) blockno))
  | append {p op passed blockno} : state.pc p = .tested op passed blockno →
      Step log state (.append p) (state.logWriteAppend p op passed blockno)
  | endPanic {p op passed} : state.pc p = .inOp op passed → state.committing = true →
      Step log state (.endOp p)
        ({ state with outstanding := state.outstanding - 1 }.panic .committing)
  | endCommit {p op passed} : state.pc p = .inOp op passed → state.committing = false →
      state.outstanding = 1 →
      Step log state (.endOp p)
        { state.setPc p (.commit .start) with outstanding := 0, committing := true }
  | endLeave {p op passed} : state.pc p = .inOp op passed → state.committing = false →
      state.outstanding ≠ 1 →
      Step log state (.endOp p)
        (({ state with outstanding := state.outstanding - 1 }.setPc p .out).wakeup)
  | commit {p pc} : state.pc p = .commit pc → pc ≠ .done →
      Step log state (.commit p) (state.commitStep log p pc)
  | finish {p} : state.pc p = .commit .done → Step log state (.finish p) (state.finish p)

theorem Group.step_cases {log : Log} {state after : Group Pid} {act : LogAct Pid}
    (stepped : state.step log act = some after) :
    state.panicked = none ∧ state.Step log act after := by
  unfold Group.step at stepped
  split at stepped
  · contradiction
  rename_i running
  refine ⟨by simpa using running, ?_⟩
  cases act with
  | call p =>
    cases control : state.pc p <;> simp only [control] at stepped <;> try contradiction
    cases stepped
    exact .call control
  | beginOp p =>
    cases control : state.pc p <;> simp only [control] at stepped <;> try contradiction
    cases stepped
    unfold Group.beginOp
    split
    · exact .sleep control
    next idle =>
      split
      · exact .sleep control
      next room =>
        exact .enter control (by simpa using idle) (by omega)
  | logWrite p blockno =>
    cases control : state.pc p <;> simp only [control] at stepped <;> try contradiction
    cases stepped
    unfold Group.logWriteTest
    have positive := log.size_pos
    split
    next full =>
      exact .tooBig control (by omega)
    next room =>
      split
      next none =>
        exact .outside control none
      · exact .test control (by omega) (by omega)
  | append p =>
    cases control : state.pc p <;> simp only [control] at stepped <;> try contradiction
    cases stepped
    exact .append control
  | endOp p =>
    cases control : state.pc p <;> simp only [control] at stepped <;> try contradiction
    cases stepped
    unfold Group.endOp
    split
    next committing =>
      exact .endPanic control committing
    next idle =>
      have notCommitting : state.committing = false := by simpa using idle
      split
      next last =>
        have one : state.outstanding = 1 := by omega
        have left : state.outstanding - 1 = 0 := by omega
        rw [left]
        exact .endCommit control notCommitting one
      next others =>
        exact .endLeave control notCommitting (by omega)
  | commit p =>
    cases control : state.pc p <;> simp only [control] at stepped <;> try contradiction
    rename_i pc
    cases pc <;> simp only at stepped <;> try contradiction
    all_goals
      cases stepped
      exact .commit control (by simp)
  | finish p =>
    cases control : state.pc p <;> simp only [control] at stepped <;> try contradiction
    rename_i pc
    cases pc <;> simp only at stepped <;> try contradiction
    cases stepped
    exact .finish control

/-! ## The fields a move does not touch -/

section Fields

variable (state : Group Pid) (p : Pid) (pc : LogPc) (message : LogPanic)

@[simp] theorem setPc_pc : (state.setPc p pc).pc = update state.pc p pc := rfl
@[simp] theorem setPc_outstanding : (state.setPc p pc).outstanding = state.outstanding := rfl
@[simp] theorem setPc_committing : (state.setPc p pc).committing = state.committing := rfl
@[simp] theorem setPc_lh : (state.setPc p pc).lh = state.lh := rfl
@[simp] theorem setPc_panicked : (state.setPc p pc).panicked = state.panicked := rfl
@[simp] theorem setPc_nextOp : (state.setPc p pc).nextOp = state.nextOp := rfl
@[simp] theorem setPc_epoch : (state.setPc p pc).epoch = state.epoch := rfl
@[simp] theorem setPc_writes : (state.setPc p pc).writes = state.writes := rfl
@[simp] theorem setPc_committed : (state.setPc p pc).committed = state.committed := rfl
@[simp] theorem setPc_logged : (state.setPc p pc).logged = state.logged := rfl

omit [DecidableEq Pid] in
@[simp] theorem wakeup_pc : state.wakeup.pc =
    fun q => if state.pc q = .asleep then .begin else state.pc q := rfl

omit [DecidableEq Pid] in
@[simp] theorem panic_pc : (state.panic message).pc = state.pc := rfl

end Fields

/-! ## The counter, the flag and the processes -/

def LogPc.ops : LogPc → Nat
  | .inOp _ _ => 1
  | .tested _ _ _ => 1
  | _ => 0

def LogPc.commits : LogPc → Nat
  | .commit _ => 1
  | _ => 0

theorem LogPc.ops_eq (pc : LogPc) : pc.ops = if pc.InOp then 1 else 0 := by
  cases pc <;> simp [LogPc.ops, LogPc.InOp]

theorem LogPc.woken {β : Type} (observe : LogPc → β) (same : observe .begin = observe .asleep)
    (pc : LogPc) : observe (if pc = .asleep then .begin else pc) = observe pc := by
  split
  next asleep =>
    rw [asleep, same]
  · rfl

theorem commitStep_pc (log : Log) (state : Group Pid) (p : Pid) {pc : CommitPc}
    (running : pc ≠ .done) : ∃ next, (state.commitStep log p pc).pc =
      update state.pc p (.commit next) := by
  cases pc with
  | done => exact absurd rfl running
  | writeLog tail =>
    simp only [Group.commitStep]
    split
    · exact ⟨_, rfl⟩
    · exact ⟨_, rfl⟩
  | _ => exact ⟨_, rfl⟩

theorem commitStep_frame (log : Log) (state : Group Pid) (p : Pid) (pc : CommitPc) :
    (state.commitStep log p pc).outstanding = state.outstanding ∧
      (state.commitStep log p pc).committing = state.committing ∧
      (state.commitStep log p pc).panicked = state.panicked ∧
      (state.commitStep log p pc).nextOp = state.nextOp ∧
      (state.commitStep log p pc).epoch = state.epoch ∧
      (state.commitStep log p pc).writes = state.writes := by
  cases pc with
  | writeLog tail =>
    simp only [Group.commitStep]
    split <;> exact ⟨rfl, rfl, rfl, rfl, rfl, rfl⟩
  | _ => exact ⟨rfl, rfl, rfl, rfl, rfl, rfl⟩

variable [Fintype Pid]

/-- The counter counts the operations, the flag counts the committers, and the
two exclude each other. -/
structure Group.Balanced (state : Group Pid) : Prop where
  outstanding : state.outstanding = ((∑ p, (state.pc p).ops : Nat) : Int)
  committing : ∑ p, (state.pc p).commits = state.committing.toNat
  exclusive : state.committing = true → state.outstanding = 0
  panicked : state.panicked ≠ some .committing

omit [DecidableEq Pid] in
theorem Group.balanced_init : (Group.init Pid).Balanced := by
  constructor <;> simp [Group.init, LogPc.ops, LogPc.commits]

section Balanced

variable {state : Group Pid} (balanced : state.Balanced)

include balanced

omit [DecidableEq Pid] in
theorem Group.Balanced.not_committing {p : Pid} (inOp : (state.pc p).ops = 1) :
    state.committing = false := by
  have positive := Processes.weight_le_sum LogPc.ops state.pc p
  have count := balanced.outstanding
  by_contra committing
  have none := balanced.exclusive (by simpa using committing)
  omega

omit [DecidableEq Pid] in
theorem Group.Balanced.committing_of_commit {p : Pid} {pc : CommitPc}
    (control : state.pc p = .commit pc) : state.committing = true := by
  have positive := Processes.weight_le_sum LogPc.commits state.pc p
  have count := balanced.committing
  rw [control, count] at positive
  by_contra idle
  rw [Bool.not_eq_true] at idle
  simp [idle, LogPc.commits] at positive

omit [DecidableEq Pid] in
theorem Group.Balanced.ops_eq_zero (committing : state.committing = true) (p : Pid) :
    (state.pc p).ops = 0 := by
  have positive := Processes.weight_le_sum LogPc.ops state.pc p
  have count := balanced.outstanding
  have none := balanced.exclusive committing
  omega

theorem Group.Balanced.committer_unique {p q : Pid} {pc : CommitPc}
    (control : state.pc p = .commit pc) (commits : (state.pc q).commits = 1) : q = p := by
  by_contra different
  have both := Processes.weights_le_sum LogPc.commits state.pc different
  have count := balanced.committing
  rw [commits, control, count] at both
  have atMostOne := Bool.toNat_le state.committing
  simp only [LogPc.commits] at both
  omega

end Balanced

theorem Group.Balanced.move {state after : Group Pid} (balanced : state.Balanced) (p : Pid)
    (next : LogPc)
    (ops : ∀ q, (after.pc q).ops = (update state.pc p next q).ops)
    (commits : ∀ q, (after.pc q).commits = (update state.pc p next q).commits)
    (outstanding : after.outstanding + (state.pc p).ops = state.outstanding + next.ops)
    (committing : after.committing.toNat + (state.pc p).commits =
      state.committing.toNat + next.commits)
    (exclusive : after.committing = true → after.outstanding = 0)
    (panicked : after.panicked ≠ some .committing) : after.Balanced := by
  have opsSum := Processes.sum_update LogPc.ops state.pc p next
  have commitsSum := Processes.sum_update LogPc.commits state.pc p next
  have count := balanced.outstanding
  have flag := balanced.committing
  refine ⟨?_, ?_, exclusive, panicked⟩
  · rw [Finset.sum_congr rfl fun q _ => ops q]
    omega
  · rw [Finset.sum_congr rfl fun q _ => commits q]
    omega

theorem Group.Balanced.step {log : Log} {state after : Group Pid} {act : LogAct Pid}
    (balanced : state.Balanced) (stepped : state.Step log act after) : after.Balanced := by
  cases stepped with
  | @call p control =>
    exact balanced.move p .begin (fun _ => rfl) (fun _ => rfl)
      (by simp [control, LogPc.ops]) (by simp [control, LogPc.commits])
      balanced.exclusive balanced.panicked
  | @sleep p control =>
    exact balanced.move p .asleep (fun _ => rfl) (fun _ => rfl)
      (by simp [control, LogPc.ops]) (by simp [control, LogPc.commits])
      balanced.exclusive balanced.panicked
  | @enter p control idle room =>
    refine balanced.move p (.inOp state.nextOp []) (fun _ => rfl) (fun _ => rfl)
      (by simp [control, LogPc.ops]) (by simp [control, LogPc.commits]) ?_ balanced.panicked
    intro committing
    simp [idle] at committing
  | tooBig control full =>
    exact ⟨balanced.outstanding, balanced.committing, balanced.exclusive, by simp [Group.panic]⟩
  | outside control none =>
    exact ⟨balanced.outstanding, balanced.committing, balanced.exclusive, by simp [Group.panic]⟩
  | @test p op passed blockno control =>
    exact balanced.move p (.tested op (blockno :: passed) blockno) (fun _ => rfl)
      (fun _ => rfl) (by simp [control, LogPc.ops]) (by simp [control, LogPc.commits])
      balanced.exclusive balanced.panicked
  | @append p op passed blockno control =>
    exact balanced.move p (.inOp op passed) (fun _ => rfl) (fun _ => rfl)
      (by simp [Group.logWriteAppend, control, LogPc.ops])
      (by simp [Group.logWriteAppend, control, LogPc.commits])
      balanced.exclusive balanced.panicked
  | @endPanic p op passed control committing =>
    have idle := balanced.not_committing (p := p) (by simp [control, LogPc.ops])
    simp [idle] at committing
  | @endCommit p op passed control idle last =>
    refine balanced.move p (.commit .start) (fun _ => rfl) (fun _ => rfl)
      (by simp [control, LogPc.ops, last]) (by simp [control, LogPc.commits, idle])
      (fun _ => rfl) balanced.panicked
  | @endLeave p op passed control idle others =>
    refine balanced.move p .out (fun q => LogPc.woken LogPc.ops rfl _)
      (fun q => LogPc.woken LogPc.commits rfl _)
      (by simp [Group.wakeup, control, LogPc.ops]) (by simp [Group.wakeup, control, LogPc.commits])
      ?_ balanced.panicked
    intro committing
    simp [Group.wakeup, idle] at committing
  | @commit p pc control running =>
    rcases commitStep_pc log state p running with ⟨next, moved⟩
    rcases commitStep_frame log state p pc with ⟨outstanding, committing, panicked, -⟩
    refine balanced.move p (.commit next) (by simp [moved]) (by simp [moved])
      (by simp [outstanding, control, LogPc.ops])
      (by simp [committing, control, LogPc.commits]) ?_ (panicked ▸ balanced.panicked)
    rw [committing, outstanding]
    exact balanced.exclusive
  | @finish p control =>
    have committing := balanced.committing_of_commit control
    have none := balanced.exclusive committing
    exact balanced.move p .out (fun q => LogPc.woken LogPc.ops rfl _)
      (fun q => LogPc.woken LogPc.commits rfl _)
      (by simp [Group.finish, Group.wakeup, control, LogPc.ops])
      (by simp [Group.finish, control, LogPc.commits, committing])
      (by simp [Group.finish]) balanced.panicked

/-! ## The history of operations and transactions -/

def LogPc.op? : LogPc → Option Nat
  | .inOp op _ => some op
  | .tested op _ _ => some op
  | _ => none

/-- The committer has passed `log.lh.n = 0`. -/
def LogPc.Cleared : LogPc → Prop
  | .commit .eraseHead => True
  | .commit .done => True
  | _ => False

theorem LogPc.ops_of_op? {pc : LogPc} {op : Nat} (running : pc.op? = some op) : pc.ops = 1 := by
  cases pc <;> simp_all [LogPc.op?, LogPc.ops]

theorem LogPc.commits_of_cleared {pc : LogPc} (cleared : pc.Cleared) : pc.commits = 1 := by
  cases pc <;> simp_all [LogPc.Cleared, LogPc.commits]

/-- The history agrees with the log: each operation writes within one epoch,
the header holds exactly the blocks of the current epoch until it is cleared,
and a committed transaction holds exactly the blocks of its epoch. -/
structure Group.Recorded (state : Group Pid) : Prop where
  past : ∀ write ∈ state.writes, write.1 < state.nextOp ∧ write.2.2 ≤ state.epoch
  current : ∀ p op, (state.pc p).op? = some op → op < state.nextOp ∧
    ∀ write ∈ state.writes, write.1 = op → write.2.2 = state.epoch
  oneEpoch : ∀ first ∈ state.writes, ∀ second ∈ state.writes,
    first.1 = second.1 → first.2.2 = second.2.2
  header : (∀ p, ¬ (state.pc p).Cleared) →
    ∀ blockno, blockno ∈ state.lh ↔ ∃ op, (op, blockno, state.epoch) ∈ state.writes
  cleared : ∀ p, (state.pc p).Cleared → state.lh = []
  blocks : ∀ transaction ∈ state.committed, ∀ blockno,
    blockno ∈ transaction.2 ↔ ∃ op, (op, blockno, transaction.1) ∈ state.writes
  older : ∀ transaction ∈ state.committed, transaction.1 < state.epoch ∨
    transaction.1 = state.epoch ∧ state.committing = true

omit [DecidableEq Pid] [Fintype Pid] in
theorem Group.recorded_init : (Group.init Pid).Recorded := by
  constructor <;> simp [Group.init, LogPc.op?, LogPc.Cleared]

omit [DecidableEq Pid] [Fintype Pid] in
theorem Group.Recorded.move {state after : Group Pid} (recorded : state.Recorded)
    (op : ∀ q, (after.pc q).op? = none ∨ (after.pc q).op? = (state.pc q).op?)
    (cleared : ∀ q, (after.pc q).Cleared ↔ (state.pc q).Cleared)
    (writes : after.writes = state.writes) (nextOp : after.nextOp = state.nextOp)
    (epoch : after.epoch = state.epoch) (lh : after.lh = state.lh)
    (committed : after.committed = state.committed)
    (committing : state.committing = true → after.committing = true) : after.Recorded := by
  refine ⟨?_, ?_, ?_, ?_, ?_, ?_, ?_⟩
  · rw [writes, nextOp, epoch]
    exact recorded.past
  · intro q number running
    rw [writes, nextOp, epoch]
    rcases op q with idle | same
    · simp [idle] at running
    · exact recorded.current q number (same ▸ running)
  · rw [writes]
    exact recorded.oneEpoch
  · intro pending
    rw [writes, epoch, lh]
    exact recorded.header fun q isCleared => pending q ((cleared q).mpr isCleared)
  · intro q isCleared
    rw [lh]
    exact recorded.cleared q ((cleared q).mp isCleared)
  · rw [writes, committed]
    exact recorded.blocks
  · rw [committed, epoch]
    intro transaction membership
    rcases recorded.older transaction membership with before | now
    · exact .inl before
    · exact .inr ⟨now.1, committing now.2⟩

omit [Fintype Pid] in
theorem Group.Recorded.move_one {state after : Group Pid} (recorded : state.Recorded) (p : Pid)
    (next : LogPc) (pc : after.pc = update state.pc p next)
    (op : next.op? = none ∨ next.op? = (state.pc p).op?)
    (cleared : next.Cleared ↔ (state.pc p).Cleared)
    (writes : after.writes = state.writes) (nextOp : after.nextOp = state.nextOp)
    (epoch : after.epoch = state.epoch) (lh : after.lh = state.lh)
    (committed : after.committed = state.committed)
    (committing : state.committing = true → after.committing = true) : after.Recorded := by
  apply recorded.move _ _ writes nextOp epoch lh committed committing
  · intro q
    by_cases here : q = p
    · subst here
      simpa [pc] using op
    · simp [pc, here]
  · intro q
    by_cases here : q = p
    · subst here
      simpa [pc] using cleared
    · simp [pc, here]

omit [Fintype Pid] in
theorem Group.Recorded.enter {state : Group Pid} (recorded : state.Recorded) {p : Pid}
    (control : state.pc p = .begin) :
    Group.Recorded { state.setPc p (.inOp state.nextOp []) with
      outstanding := state.outstanding + 1
      nextOp := state.nextOp + 1 } := by
  have clearedSame : ∀ q, (update state.pc p (.inOp state.nextOp []) q).Cleared ↔
      (state.pc q).Cleared := by
    intro q
    by_cases here : q = p
    · subst here
      simp [control, LogPc.Cleared]
    · simp [here]
  refine ⟨?_, ?_, recorded.oneEpoch, ?_, ?_, recorded.blocks, recorded.older⟩
  · intro write membership
    have past := recorded.past write membership
    exact ⟨Nat.lt_succ_of_lt past.1, past.2⟩
  · intro q op running
    by_cases here : q = p
    · subst here
      simp only [setPc_pc, update_self, LogPc.op?, Option.some.injEq] at running
      subst running
      refine ⟨Nat.lt_succ_self _, ?_⟩
      intro write membership fresh
      have past := (recorded.past write membership).1
      omega
    · simp only [setPc_pc, update_of_ne here] at running
      have current := recorded.current q op running
      exact ⟨Nat.lt_succ_of_lt current.1, current.2⟩
  · intro pending
    exact recorded.header fun q isCleared => pending q ((clearedSame q).mpr isCleared)
  · intro q isCleared
    exact recorded.cleared q ((clearedSame q).mp isCleared)

theorem mem_absorb {lh : List Nat} {blockno other : Nat} :
    other ∈ absorb lh blockno ↔ other ∈ lh ∨ other = blockno := by
  unfold absorb
  split
  next present =>
    constructor
    · exact .inl
    · rintro (old | rfl)
      · exact old
      · exact present
  · simp

theorem Group.Recorded.append {state : Group Pid} (recorded : state.Recorded)
    (balanced : state.Balanced) {p : Pid} {op : Nat} {passed : List Nat} {blockno : Nat}
    (control : state.pc p = .tested op passed blockno) :
    (state.logWriteAppend p op passed blockno).Recorded := by
  have idle := balanced.not_committing (p := p) (by simp [control, LogPc.ops])
  have mine := recorded.current p op (by simp [control, LogPc.op?])
  have noneCleared : ∀ q, ¬ (state.pc q).Cleared := by
    intro q isCleared
    have commits := Processes.weight_le_sum LogPc.commits state.pc q
    rw [LogPc.commits_of_cleared isCleared, balanced.committing, idle] at commits
    simp at commits
  refine ⟨?_, ?_, ?_, ?_, ?_, ?_, ?_⟩
  · intro write membership
    rcases List.mem_cons.mp membership with equality | old
    · subst equality
      exact ⟨mine.1, Nat.le_refl _⟩
    · exact recorded.past write old
  · intro q number running
    have before : (state.pc q).op? = some number := by
      by_cases here : q = p
      · subst here
        simpa [Group.logWriteAppend, control, LogPc.op?] using running
      · simpa [Group.logWriteAppend, here] using running
    have current := recorded.current q number before
    refine ⟨current.1, ?_⟩
    intro write membership same
    rcases List.mem_cons.mp membership with equality | old
    · subst equality
      rfl
    · exact current.2 write old same
  · intro first firstMem second secondMem same
    rcases List.mem_cons.mp firstMem with firstEq | firstOld <;>
      rcases List.mem_cons.mp secondMem with secondEq | secondOld
    · rw [firstEq, secondEq]
    · subst firstEq
      exact (mine.2 second secondOld same.symm).symm
    · subst secondEq
      exact mine.2 first firstOld same
    · exact recorded.oneEpoch first firstOld second secondOld same
  · intro _ other
    rw [show (state.logWriteAppend p op passed blockno).lh = absorb state.lh blockno from rfl,
      mem_absorb, recorded.header noneCleared]
    constructor
    · rintro (⟨number, old⟩ | rfl)
      · exact ⟨number, List.mem_cons_of_mem _ old⟩
      · exact ⟨op, List.mem_cons_self⟩
    · rintro ⟨number, membership⟩
      rcases List.mem_cons.mp membership with equality | old
      · exact .inr (by simpa using (Prod.mk.inj (Prod.mk.inj equality).2).1)
      · exact .inl ⟨number, old⟩
  · intro q isCleared
    exfalso
    by_cases here : q = p
    · subst here
      simp [Group.logWriteAppend, LogPc.Cleared] at isCleared
    · exact noneCleared q (by simpa [Group.logWriteAppend, here] using isCleared)
  · intro transaction membership other
    have before : transaction.1 < state.epoch := by
      rcases recorded.older transaction membership with before | now
      · exact before
      · simp [idle] at now
    rw [recorded.blocks transaction membership]
    constructor
    · rintro ⟨number, old⟩
      exact ⟨number, List.mem_cons_of_mem _ old⟩
    · rintro ⟨number, added⟩
      rcases List.mem_cons.mp added with equality | old
      · have sameEpoch : transaction.1 = state.epoch := (Prod.mk.inj (Prod.mk.inj equality).2).2
        omega
      · exact ⟨number, old⟩
  · exact recorded.older

theorem Group.Recorded.writeHead {log : Log} {state : Group Pid} (recorded : state.Recorded)
    (balanced : state.Balanced) {p : Pid} (control : state.pc p = .commit .writeHead) :
    (state.commitStep log p .writeHead).Recorded := by
  have committing := balanced.committing_of_commit control
  have noneCleared : ∀ q, ¬ (state.pc q).Cleared := by
    intro q isCleared
    have same := balanced.committer_unique control (LogPc.commits_of_cleared isCleared)
    subst same
    simp [control, LogPc.Cleared] at isCleared
  have moved : (state.setPc p (.commit (.install 0))).Recorded :=
    recorded.move_one p (.commit (.install 0)) rfl (.inl rfl)
      (by simp [control, LogPc.Cleared]) rfl rfl rfl rfl rfl id
  refine ⟨moved.past, moved.current, moved.oneEpoch, moved.header, moved.cleared, ?_, ?_⟩
  · intro transaction membership
    rcases List.mem_cons.mp membership with equality | old
    · subst equality
      exact recorded.header noneCleared
    · exact recorded.blocks transaction old
  · intro transaction membership
    rcases List.mem_cons.mp membership with equality | old
    · subst equality
      exact .inr ⟨rfl, committing⟩
    · exact recorded.older transaction old

omit [Fintype Pid] in
theorem Group.Recorded.empty {state : Group Pid} (recorded : state.Recorded) {p : Pid}
    {pc : CommitPc} (next : CommitPc) (control : state.pc p = .commit pc)
    (cleared : (LogPc.commit next).Cleared) :
    Group.Recorded { state.setPc p (.commit next) with lh := [] } := by
  refine ⟨recorded.past, ?_, recorded.oneEpoch, ?_, fun _ _ => rfl, recorded.blocks,
    recorded.older⟩
  · intro q op running
    by_cases here : q = p
    · subst here
      simp [LogPc.op?] at running
    · exact recorded.current q op (by simpa [here] using running)
  · intro pending
    exact absurd (by simpa using cleared) (pending p)

theorem Group.Recorded.commitStep {log : Log} {state : Group Pid} (recorded : state.Recorded)
    (balanced : state.Balanced) {p : Pid} {pc : CommitPc} (control : state.pc p = .commit pc) :
    (state.commitStep log p pc).Recorded := by
  cases pc with
  | start =>
    simp only [Group.commitStep]
    split
    · exact recorded.move_one p _ rfl (.inl rfl) (by simp [control, LogPc.Cleared])
        rfl rfl rfl rfl rfl id
    next none =>
      have empty : state.lh = [] := by simpa using none
      have done := recorded.empty .done control trivial
      rw [← empty] at done
      exact done
  | writeLog tail =>
    simp only [Group.commitStep]
    split
    · exact recorded.move_one p _ rfl (.inl rfl) (by simp [control, LogPc.Cleared])
        rfl rfl rfl rfl rfl id
    · exact recorded.move_one p _ rfl (.inl rfl) (by simp [control, LogPc.Cleared])
        rfl rfl rfl rfl rfl id
  | writeHead => exact recorded.writeHead balanced control
  | install tail =>
    simp only [Group.commitStep]
    refine recorded.move_one p _ rfl (.inl rfl) ?_ rfl rfl rfl rfl rfl id
    split <;> simp [control, LogPc.Cleared]
  | clear => exact recorded.empty .eraseHead control trivial
  | eraseHead =>
    exact recorded.move_one p (.commit .done) rfl (.inl rfl) (by simp [control, LogPc.Cleared])
      rfl rfl rfl rfl rfl id
  | done => exact recorded

theorem Group.Recorded.finish {state : Group Pid} (recorded : state.Recorded)
    (balanced : state.Balanced) {p : Pid} (control : state.pc p = .commit .done) :
    (state.finish p).Recorded := by
  have committing := balanced.committing_of_commit control
  have noOp : ∀ q, (state.pc q).op? = none := by
    intro q
    have zero := balanced.ops_eq_zero committing q
    cases running : (state.pc q).op? with
    | none => rfl
    | some op =>
      rw [LogPc.ops_of_op? running] at zero
      omega
  have empty := recorded.cleared p (by simp [control, LogPc.Cleared])
  have noWrites : ∀ op blockno, (op, blockno, state.epoch + 1) ∉ state.writes := by
    intro op blockno membership
    have past := (recorded.past _ membership).2
    simp only at past
    omega
  refine ⟨?_, ?_, recorded.oneEpoch, ?_, ?_, recorded.blocks, ?_⟩
  · intro write membership
    have past := recorded.past write membership
    exact ⟨past.1, Nat.le_succ_of_le past.2⟩
  · intro q op running
    have observed := LogPc.woken LogPc.op? rfl (update state.pc p .out q)
    have idle : (update state.pc p .out q).op? = none := by
      by_cases here : q = p
      · subst here
        simp [LogPc.op?]
      · simpa [here] using noOp q
    have none : ((state.finish p).pc q).op? = none := observed.trans idle
    simp [none] at running
  · intro _ blockno
    simp only [Group.finish, Group.wakeup, setPc_lh, empty, List.not_mem_nil, false_iff]
    rintro ⟨op, membership⟩
    exact noWrites op blockno membership
  · intro q _
    exact empty
  · intro transaction membership
    rcases recorded.older transaction membership with before | now
    · exact .inl (Nat.lt_succ_of_lt before)
    · exact .inl (by simp [Group.finish, now.1])

theorem Group.Recorded.step {log : Log} {state after : Group Pid} {act : LogAct Pid}
    (recorded : state.Recorded) (balanced : state.Balanced)
    (stepped : state.Step log act after) : after.Recorded := by
  cases stepped with
  | @call p control =>
    exact recorded.move_one p .begin rfl (.inl rfl) (by simp [control, LogPc.Cleared])
      rfl rfl rfl rfl rfl id
  | @sleep p control =>
    exact recorded.move_one p .asleep rfl (.inl rfl) (by simp [control, LogPc.Cleared])
      rfl rfl rfl rfl rfl id
  | enter control idle room => exact recorded.enter control
  | tooBig control full =>
    exact recorded.move (fun _ => .inr rfl) (fun _ => Iff.rfl) rfl rfl rfl rfl rfl id
  | outside control none =>
    exact recorded.move (fun _ => .inr rfl) (fun _ => Iff.rfl) rfl rfl rfl rfl rfl id
  | @test p op passed blockno control =>
    exact recorded.move_one p (.tested op (blockno :: passed) blockno) rfl
      (.inr (by simp [control, LogPc.op?])) (by simp [control, LogPc.Cleared])
      rfl rfl rfl rfl rfl id
  | append control => exact recorded.append balanced control
  | endPanic control committing =>
    exact recorded.move (fun _ => .inr rfl) (fun _ => Iff.rfl) rfl rfl rfl rfl rfl id
  | @endCommit p op passed control idle last =>
    exact recorded.move_one p (.commit .start) rfl (.inl rfl) (by simp [control, LogPc.Cleared])
      rfl rfl rfl rfl rfl fun _ => rfl
  | @endLeave p op passed control idle others =>
    have left : (state.setPc p .out).Recorded :=
      recorded.move_one p .out rfl (.inl rfl) (by simp [control, LogPc.Cleared])
        rfl rfl rfl rfl rfl id
    refine left.move (fun q => .inr (LogPc.woken LogPc.op? rfl _)) ?_
      rfl rfl rfl rfl rfl id
    intro q
    have observed := LogPc.woken LogPc.Cleared rfl (update state.pc p .out q)
    exact iff_of_eq observed
  | commit control running => exact recorded.commitStep balanced control
  | finish control => exact recorded.finish balanced control

/-! ## Every interleaving -/

theorem Group.Run.invariant {log : Log} {state : Group Pid} (run : Group.Run log state) :
    state.Balanced ∧ state.Recorded := by
  refine Transition.Reachable.invariant (fun s : Group Pid => s.Balanced ∧ s.Recorded)
    ⟨Group.balanced_init, Group.recorded_init⟩ ?_ run
  rintro before act after ⟨balanced, recorded⟩ _ stepped
  have taken := (Group.step_cases stepped).2
  exact ⟨balanced.step taken, recorded.step balanced taken⟩

/-- Group commit is atomic per system call.  In every state of every
interleaving the counter is the number of running operations and is zero while
a commit runs; no `begin_op` returns and no `log_write` happens during a
commit; a committed transaction holds exactly the blocks passed to `log_write`
in its epoch, and for each operation either all of its `log_write`s or none;
and the panic of `end_op` is unreachable. -/
theorem group_commit_atomic (log : Log) {state : Group Pid} (run : Group.Run log state) :
    state.outstanding = ((Finset.univ.filter fun p => (state.pc p).InOp).card : Int) ∧
    (state.committing = true → state.outstanding = 0) ∧
    (∀ p after, state.step log (.beginOp p) = some after → (after.pc p).InOp →
      state.committing = false) ∧
    (∀ p blockno after, state.step log (.logWrite p blockno) = some after →
      state.committing = false) ∧
    (∀ p after, state.step log (.append p) = some after → state.committing = false) ∧
    (∀ transaction ∈ state.committed,
      (∀ blockno, blockno ∈ transaction.2 ↔
        ∃ op, (op, blockno, transaction.1) ∈ state.writes) ∧
      ∀ op,
        (∀ write ∈ state.writes, write.1 = op →
          write.2.2 = transaction.1 ∧ write.2.1 ∈ transaction.2) ∨
        (∀ write ∈ state.writes, write.1 = op → write.2.2 ≠ transaction.1)) ∧
    state.panicked ≠ some .committing := by
  rcases run.invariant with ⟨balanced, recorded⟩
  refine ⟨?_, balanced.exclusive, ?_, ?_, ?_, ?_, balanced.panicked⟩
  · rw [balanced.outstanding, Finset.card_filter]
    simp only [LogPc.ops_eq]
  · intro p after stepped inOp
    cases (Group.step_cases stepped).2 with
    | sleep control => simp [LogPc.InOp] at inOp
    | enter control idle room => exact idle
  · intro p blockno after stepped
    cases (Group.step_cases stepped).2 with
    | tooBig control full => exact balanced.not_committing (p := p) (by simp [control, LogPc.ops])
    | outside control none => exact balanced.not_committing (p := p) (by simp [control, LogPc.ops])
    | test control => exact balanced.not_committing (p := p) (by simp [control, LogPc.ops])
  · intro p after stepped
    cases (Group.step_cases stepped).2 with
    | append control => exact balanced.not_committing (p := p) (by simp [control, LogPc.ops])
  · intro transaction membership
    refine ⟨recorded.blocks transaction membership, ?_⟩
    intro op
    by_cases inside : ∃ write ∈ state.writes, write.1 = op ∧ write.2.2 = transaction.1
    · left
      rcases inside with ⟨sample, sampleMem, sampleOp, sampleEpoch⟩
      intro write writeMem writeOp
      have epoch : write.2.2 = transaction.1 :=
        (recorded.oneEpoch write writeMem sample sampleMem (writeOp.trans sampleOp.symm)).trans
          sampleEpoch
      refine ⟨epoch, (recorded.blocks transaction membership write.2.1).mpr ⟨write.1, ?_⟩⟩
      rw [← epoch]
      exact writeMem
    · right
      intro write writeMem writeOp epoch
      exact inside ⟨write, writeMem, writeOp, epoch⟩

/-- Two processes share a transaction: the theorem at the state right after its
header has been written. -/
theorem group_commit_atomic_two : ∃ state : Group (Fin 2), Group.Run mkfsLog state ∧
    state.committed = [(0, [7, 8])] ∧ state.panicked ≠ some .committing := by
  have found : ∃ state : Group (Fin 2), Group.Run mkfsLog state ∧
      state.committed = [(0, [7, 8])] :=
    Transition.Reachable.exists_of_run (fun _ _ => true) (fun _ _ _ => trivial) _
      [.call 0, .beginOp 0, .call 1, .beginOp 1, .logWrite 0 7, .logWrite 1 8, .append 0,
        .append 1, .logWrite 1 7, .append 1, .endOp 0, .endOp 1, .commit 1, .commit 1,
        .commit 1, .commit 1, .commit 1]
      (by decide)
  rcases found with ⟨state, run, committed⟩
  exact ⟨state, run, committed, (group_commit_atomic mkfsLog run).2.2.2.2.2.2⟩

end Xv6
