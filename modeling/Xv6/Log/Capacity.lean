import Mathlib.Data.Finset.Card
import Mathlib.Data.Finset.Option
import Xv6.Log.Atomicity

/-!
# Log space

`begin_op` reserves `MAXOPBLOCKS` blocks against `LOGSIZE`; `log_write` tests
the header against `log.size - 1` before it takes the lock.  Both are followed
through `claimed`: the blocks that are in the header or that a process past the
test is about to append.

Neither guard is tight.  The reservation can let in one block more than the
region holds, and several processes can pass the test on the same old count.
Each theorem is preceded by the run that goes wrong and names the condition on
the steps that excludes it.
-/

open Function (update update_of_ne update_self)

namespace Xv6

variable {Pid : Type} [DecidableEq Pid] [Fintype Pid]

/-- The block a process past the tests of `log_write` is about to append. -/
def LogPc.pending? : LogPc → Option Nat
  | .tested _ _ blockno => some blockno
  | _ => none

def LogAct.block? : LogAct Pid → Option Nat
  | .logWrite _ blockno => some blockno
  | _ => none

/-- The blocks in the header or about to be appended to it. -/
def Group.claimed (state : Group Pid) : Finset Nat :=
  state.lh.toFinset ∪ Finset.univ.biUnion fun p => (state.pc p).pending?.toFinset

omit [DecidableEq Pid] in
@[simp]
theorem Group.mem_claimed {state : Group Pid} {blockno : Nat} :
    blockno ∈ state.claimed ↔
      blockno ∈ state.lh ∨ ∃ p, (state.pc p).pending? = some blockno := by
  simp [Group.claimed, eq_comm]

omit [DecidableEq Pid] in
theorem Group.claimed_init : (Group.init Pid).claimed = ∅ := by
  ext blockno
  simp [Group.init, LogPc.pending?]

/-- One process moves: nothing is claimed that was not in the header or pending
before, except what the process itself now has pending. -/
theorem Group.claimed_move {state after : Group Pid} (p : Pid) (next : LogPc)
    (pc : ∀ q, (after.pc q).pending? = (update state.pc p next q).pending?)
    (lh : ∀ blockno, blockno ∈ after.lh → blockno ∈ state.claimed) :
    after.claimed ⊆ state.claimed ∪ next.pending?.toFinset := by
  intro blockno membership
  rcases Group.mem_claimed.mp membership with inHeader | ⟨q, waits⟩
  · exact Finset.mem_union_left _ (lh blockno inHeader)
  · rw [pc q] at waits
    by_cases here : q = p
    · subst here
      rw [update_self] at waits
      exact Finset.mem_union_right _ (by simp [waits])
    · rw [update_of_ne here] at waits
      exact Finset.mem_union_left _ (Group.mem_claimed.mpr (.inr ⟨q, waits⟩))

omit [Fintype Pid] in
theorem Group.commitStep_lh (log : Log) (state : Group Pid) (p : Pid) (pc : CommitPc) :
    (state.commitStep log p pc).lh = state.lh ∨ (state.commitStep log p pc).lh = [] := by
  cases pc with
  | writeLog tail =>
    simp only [Group.commitStep]
    split <;> exact .inl rfl
  | clear => exact .inr rfl
  | _ => exact .inl rfl

theorem Group.Step.claimed_subset {log : Log} {state after : Group Pid} {act : LogAct Pid}
    (stepped : state.Step log act after) :
    after.claimed ⊆ state.claimed ∪ act.block?.toFinset := by
  have header : ∀ blockno, blockno ∈ state.lh → blockno ∈ state.claimed :=
    fun blockno membership => Group.mem_claimed.mpr (.inl membership)
  cases stepped with
  | @call p => exact Group.claimed_move p .begin (fun _ => rfl) header
  | @sleep p => exact Group.claimed_move p .asleep (fun _ => rfl) header
  | @enter p => exact Group.claimed_move p (.inOp state.nextOp []) (fun _ => rfl) header
  | tooBig | outside => exact Finset.subset_union_left
  | @test p op passed blockno =>
    exact Group.claimed_move p (.tested op (blockno :: passed) blockno) (fun _ => rfl) header
  | @append p op passed blockno control =>
    refine Group.claimed_move p (.inOp op passed) (fun _ => rfl) ?_
    intro other membership
    rcases mem_absorb.mp membership with old | rfl
    · exact header other old
    · exact Group.mem_claimed.mpr (.inr ⟨p, by simp [control, LogPc.pending?]⟩)
  | endPanic => exact Finset.subset_union_left
  | @endCommit p => exact Group.claimed_move p (.commit .start) (fun _ => rfl) header
  | @endLeave p =>
    exact Group.claimed_move p .out (fun _ => LogPc.woken LogPc.pending? rfl _) header
  | @commit p pc control running =>
    rcases commitStep_pc log state p running with ⟨next, moved⟩
    refine Group.claimed_move p (.commit next) (by simp [moved]) ?_
    intro blockno membership
    rcases Group.commitStep_lh log state p pc with same | empty
    · exact header blockno (same ▸ membership)
    · simp [empty] at membership
  | @finish p =>
    exact Group.claimed_move p .out (fun _ => LogPc.woken LogPc.pending? rfl _) header

/-- One process moves: what was claimed stays claimed if the header keeps its
blocks and the process does not drop its own. -/
theorem Group.claimed_keep {state after : Group Pid} (p : Pid) (next : LogPc)
    (pc : ∀ q, (after.pc q).pending? = (update state.pc p next q).pending?)
    (lh : ∀ blockno, blockno ∈ state.lh → blockno ∈ after.lh)
    (own : ∀ blockno, (state.pc p).pending? = some blockno → blockno ∈ after.lh) :
    state.claimed ⊆ after.claimed := by
  intro blockno membership
  rw [Group.mem_claimed] at membership ⊢
  rcases membership with inHeader | ⟨q, waits⟩
  · exact .inl (lh blockno inHeader)
  · by_cases here : q = p
    · subst here
      exact .inl (own blockno waits)
    · refine .inr ⟨q, ?_⟩
      rw [pc q, update_of_ne here]
      exact waits

theorem Group.Step.claimed_superset {log : Log} {state after : Group Pid} {act : LogAct Pid}
    (stepped : state.Step log act after) (running : ∀ p, act ≠ .commit p) :
    state.claimed ⊆ after.claimed := by
  have header : ∀ blockno, blockno ∈ state.lh → blockno ∈ state.lh := fun _ => id
  cases stepped with
  | @call p control =>
    exact Group.claimed_keep p .begin (fun _ => rfl) header (by simp [control, LogPc.pending?])
  | @sleep p control =>
    exact Group.claimed_keep p .asleep (fun _ => rfl) header (by simp [control, LogPc.pending?])
  | @enter p control =>
    exact Group.claimed_keep p (.inOp state.nextOp []) (fun _ => rfl) header
      (by simp [control, LogPc.pending?])
  | tooBig | outside => exact Finset.Subset.refl _
  | @test p op passed blockno control =>
    exact Group.claimed_keep p (.tested op (blockno :: passed) blockno) (fun _ => rfl) header
      (by simp [control, LogPc.pending?])
  | @append p op passed blockno control =>
    refine Group.claimed_keep p (.inOp op passed) (fun _ => rfl)
      (fun other old => mem_absorb.mpr (.inl old)) ?_
    intro other waits
    simp only [control, LogPc.pending?, Option.some.injEq] at waits
    exact mem_absorb.mpr (.inr waits.symm)
  | endPanic => exact Finset.Subset.refl _
  | @endCommit p op passed control =>
    exact Group.claimed_keep p (.commit .start) (fun _ => rfl) header
      (by simp [control, LogPc.pending?])
  | @endLeave p op passed control =>
    exact Group.claimed_keep p .out (fun _ => LogPc.woken LogPc.pending? rfl _) header
      (by simp [control, LogPc.pending?])
  | @commit p => exact absurd rfl (running p)
  | @finish p control =>
    exact Group.claimed_keep p .out (fun _ => LogPc.woken LogPc.pending? rfl _) header
      (by simp [control, LogPc.pending?])

omit [Fintype Pid] in
theorem Group.Step.nodup {log : Log} {state after : Group Pid} {act : LogAct Pid}
    (stepped : state.Step log act after) (nodup : state.lh.Nodup) : after.lh.Nodup := by
  cases stepped with
  | @append p op passed blockno control =>
    change (absorb state.lh blockno).Nodup
    unfold absorb
    split
    · exact nodup
    next absent =>
      exact List.nodup_append.mpr ⟨nodup, by simp, by
        intro old oldMem new newMem same
        rw [List.mem_singleton] at newMem
        exact absent (newMem ▸ same ▸ oldMem)⟩
  | @commit p pc control running =>
    rcases Group.commitStep_lh log state p pc with same | empty
    · exact same ▸ nodup
    · simp [empty]
  | _ => exact nodup

omit [DecidableEq Pid] in
theorem Group.length_le_card_claimed {state : Group Pid} (nodup : state.lh.Nodup) :
    state.lh.length ≤ state.claimed.card := by
  rw [← List.toFinset_card_of_nodup nodup]
  exact Finset.card_le_card Finset.subset_union_left

/-- The actions of a process that passes `count` new blocks to `log_write`. -/
def LogAct.writes (p : Pid) (first count : Nat) : List (LogAct Pid) :=
  (List.range count).flatMap fun k => [.logWrite p (first + k), .append p]

/-! ## The log region -/

/-- The condition on a call of `log_write` that passes the test while other processes are past it:
with its block, the header and the blocks that they have still to append fit the region. -/
def Group.FitsPending (log : Log) (state : Group Pid) (act : LogAct Pid) : Prop :=
  ∀ blockno ∈ act.block?, (∃ q, (state.pc q).pending? ≠ none) → state.lh.length < log.size - 1 →
    (insert blockno state.claimed).card ≤ log.size - 1

instance (log : Log) (state : Group Pid) (act : LogAct Pid) :
    Decidable (state.FitsPending log act) :=
  inferInstanceAs (Decidable (∀ blockno ∈ act.block?, _))

/-- Operations within `MAXOPBLOCKS` fill the header up to the last free slot; two of them pass the
test on that count and both append. -/
theorem log_region_overfull : ∃ state : Group (Fin 2), Group.Run mkfsLog state ∧
    mkfsLog.size - 1 < state.lh.length := by
  have found : ∃ state : Group (Fin 2), Group.Run mkfsLog state ∧
      mkfsLog.size - 1 < state.lh.length :=
    Transition.Reachable.exists_of_run (fun _ _ => true) (fun _ _ _ => trivial) _
      (List.flatten
        [[.call 0, .beginOp 0, .call 1, .beginOp 1], LogAct.writes 0 100 10,
          [.endOp 0, .call 0, .beginOp 0], LogAct.writes 0 200 9, LogAct.writes 1 300 9,
          [.logWrite 0 209, .logWrite 1 309, .append 0, .append 1]])
      (by decide +kernel)
  exact found

omit [Fintype Pid] in
theorem Group.Step.logged {log : Log} {state after : Group Pid} {act : LogAct Pid}
    (stepped : state.Step log act after) {blockno : Nat} (written : blockno ∈ after.logged) :
    blockno ∈ state.logged ∨
      ∃ tail, tail < state.lh.length ∧ blockno = log.start + tail + 1 := by
  cases stepped with
  | @commit p pc control running =>
    cases pc with
    | writeLog tail =>
      simp only [Group.commitStep] at written
      split at written
      next inside =>
        rcases List.mem_cons.mp written with new | old
        · exact .inr ⟨tail, inside, new⟩
        · exact .inl old
      · exact .inl written
    | _ => exact .inl written
  | _ => exact .inl written

/-- What the log region needs: the claimed blocks fit, and so far `write_log`
has kept to the slots. -/
structure Group.InRegion (log : Log) (state : Group Pid) : Prop where
  nodup : state.lh.Nodup
  claimed : state.claimed.card ≤ log.size - 1
  logged : ∀ blockno ∈ state.logged, log.start + 1 ≤ blockno ∧ blockno ≤ log.start + log.size - 1

/-- A call of `log_write` claims a block only if it passes the test. -/
theorem Group.Step.claimed_call {log : Log} {state after : Group Pid} {act : LogAct Pid}
    {blockno : Nat} (stepped : state.Step log act after) (calls : act.block? = some blockno) :
    after.claimed = state.claimed ∨
      state.lh.length < log.size - 1 ∧ after.claimed ⊆ insert blockno state.claimed := by
  have subset := stepped.claimed_subset
  rw [calls, Option.toFinset_some, Finset.union_comm, ← Finset.insert_eq] at subset
  cases stepped with
  | test _ _ room => exact .inr ⟨room, subset⟩
  | tooBig | outside => exact .inl rfl
  | _ => cases calls

theorem Group.InRegion.step {log : Log} {state after : Group Pid} {act : LogAct Pid}
    (region : state.InRegion log) (fits : state.FitsPending log act)
    (stepped : state.Step log act after) : after.InRegion log := by
  refine ⟨stepped.nodup region.nodup, ?_, ?_⟩
  · cases block : act.block? with
    | none =>
      have grown := Finset.card_le_card stepped.claimed_subset
      rw [block] at grown
      exact grown.trans (by simpa using region.claimed)
    | some blockno =>
      rcases stepped.claimed_call block with same | ⟨room, subset⟩
      · exact same ▸ region.claimed
      · refine (Finset.card_le_card subset).trans ?_
        by_cases pending : ∃ q, (state.pc q).pending? ≠ none
        · exact fits blockno (by simp [block]) pending room
        · -- with nobody past the test, it has seen all that is claimed
          have header : state.claimed ⊆ state.lh.toFinset := fun other claimed =>
            List.mem_toFinset.mpr ((Group.mem_claimed.mp claimed).resolve_right fun ⟨q, waits⟩ =>
              pending ⟨q, by simp [waits]⟩)
          have few := (Finset.card_le_card header).trans (List.toFinset_card_le _)
          have one := Finset.card_insert_le blockno state.claimed
          omega
  · intro blockno written
    rcases stepped.logged written with old | ⟨tail, inside, rfl⟩
    · exact region.logged blockno old
    · have bound := Group.length_le_card_claimed region.nodup
      have fits := region.claimed
      omega

/-- In every run whose `log_write` calls leave room for the blocks that other processes past the
test have still to append, the header fits the region and `write_log` stays inside it. -/
theorem log_region_kept (log : Log) {state : Group Pid}
    (reachable : Group.Reachable log (Group.FitsPending log) state) :
    state.lh.length ≤ log.size - 1 ∧
      (∀ blockno ∈ state.logged,
        log.start + 1 ≤ blockno ∧ blockno ≤ log.start + log.size - 1) ∧
      log.start + log.size ∉ state.logged := by
  have region : state.InRegion log := by
    refine reachable.invariant (Group.InRegion log) ?_ ?_
    · exact ⟨List.nodup_nil, by simp [Group.claimed_init], by simp [Group.init]⟩
    · intro before act after region fits stepped
      exact region.step fits (Group.step_cases stepped).2
  refine ⟨(Group.length_le_card_claimed region.nodup).trans region.claimed, region.logged, ?_⟩
  intro spilled
  have bound := region.logged _ spilled
  have positive := log.size_pos
  omega

/-- A process fills the region to its last slot and commits. -/
theorem log_region_kept_full : ∃ state : Group (Fin 2),
    (Group.Reachable mkfsLog (Group.FitsPending mkfsLog) state ∧
      mkfsLog.start + mkfsLog.size - 1 ∈ state.logged) ∧
      state.lh.length ≤ mkfsLog.size - 1 := by
  have found : ∃ state : Group (Fin 2),
      Group.Reachable mkfsLog (Group.FitsPending mkfsLog) state ∧
        mkfsLog.start + mkfsLog.size - 1 ∈ state.logged :=
    Transition.Reachable.exists_of_run
      (fun state act => decide (state.FitsPending mkfsLog act))
      (fun _ _ fits => of_decide_eq_true fits) _
      (List.flatten
        [[.call 0, .beginOp 0, .call 1, .beginOp 1], LogAct.writes 0 100 10,
          [.endOp 0, .call 0, .beginOp 0], LogAct.writes 0 200 10, LogAct.writes 1 300 9,
          [.endOp 0, .endOp 1], List.replicate 30 (.commit 1)])
      (by decide +kernel)
  rcases found with ⟨state, reachable, last⟩
  exact ⟨state, ⟨reachable, last⟩, (log_region_kept mkfsLog reachable).1⟩

/-! ## The reservation -/

def LogPc.passed : LogPc → List Nat
  | .inOp _ passed => passed
  | .tested _ passed _ => passed
  | _ => []

/-- What is left of an operation's `MAXOPBLOCKS`. -/
def LogPc.unused : LogPc → Nat
  | .inOp _ passed => MAXOPBLOCKS - passed.toFinset.card
  | .tested _ passed _ => MAXOPBLOCKS - passed.toFinset.card
  | _ => 0

/-- The blocks the header holds if every operation uses its `MAXOPBLOCKS`. -/
def Group.reserve (state : Group Pid) : Nat :=
  state.claimed.card + ∑ p, (state.pc p).unused

/-- Each operation passes at most `MAXOPBLOCKS` different blocks to `log_write`. -/
def Group.WithinBudget (state : Group Pid) : LogAct Pid → Prop
  | .logWrite p blockno => (blockno :: (state.pc p).passed).toFinset.card ≤ MAXOPBLOCKS
  | _ => True

instance (state : Group Pid) : DecidablePred state.WithinBudget := fun act => by
  cases act <;> unfold Group.WithinBudget <;> infer_instance

/-- The two tests of `begin_op` let the process in. -/
def Group.Admits (state : Group Pid) : Prop :=
  state.committing = false ∧
    (state.lh.length : Int) + (state.outstanding + 1) * MAXOPBLOCKS ≤ LOGSIZE

instance (state : Group Pid) : Decidable state.Admits :=
  inferInstanceAs (Decidable (_ ∧ _))

/-- The condition on an admission: with one more operation the header stays
below the count at which `log_write` panics. -/
def Group.LeavesRoom (log : Log) (state : Group Pid) : LogAct Pid → Prop
  | .beginOp _ => state.Admits → state.reserve + MAXOPBLOCKS < log.size - 1
  | _ => True

instance (log : Log) (state : Group Pid) : DecidablePred (state.LeavesRoom log) := fun act => by
  cases act <;> unfold Group.LeavesRoom <;> infer_instance

/-- The reservation of three operations is `LOGSIZE`, the region holds one block
less: the thirtieth block of operations that keep to `MAXOPBLOCKS` panics. -/
theorem log_admission_too_big : ∃ state : Group (Fin 3),
    Group.Reachable mkfsLog Group.WithinBudget state ∧ state.panicked = some .tooBig := by
  have found : ∃ state : Group (Fin 3),
      Group.Reachable mkfsLog Group.WithinBudget state ∧ state.panicked = some .tooBig :=
    Transition.Reachable.exists_of_run (fun state act => decide (state.WithinBudget act))
      (fun _ _ fits => of_decide_eq_true fits) _
      (List.flatten
        [[.call 0, .beginOp 0, .call 1, .beginOp 1, .call 2, .beginOp 2],
          LogAct.writes 0 100 10, LogAct.writes 1 200 10, LogAct.writes 2 300 9,
          [.logWrite 2 309]])
      (by decide +kernel)
  exact found

/-- What the reservation guarantees: an operation's blocks are claimed, and the
reserve stays below the count at which `log_write` panics. -/
structure Group.Reserved (log : Log) (state : Group Pid) : Prop where
  balanced : state.Balanced
  nodup : state.lh.Nodup
  passed : ∀ p, ∀ blockno ∈ (state.pc p).passed, blockno ∈ state.claimed
  reserve : state.reserve < log.size - 1
  panicked : state.panicked ≠ some .tooBig

/-- When one process moves, the reserve changes by the blocks it claims and the
budget it is given. -/
theorem Group.reserve_move {state after : Group Pid} (p : Pid) (next : LogPc)
    (pc : ∀ q, (after.pc q).unused = (update state.pc p next q).unused) :
    after.reserve + state.claimed.card + (state.pc p).unused =
      state.reserve + after.claimed.card + next.unused := by
  have moved := Processes.sum_update LogPc.unused state.pc p next
  unfold Group.reserve
  rw [Finset.sum_congr rfl fun q _ => pc q]
  omega

theorem Group.reserve_le_add {state after : Group Pid} (p : Pid) (next : LogPc)
    (pc : ∀ q, (after.pc q).unused = (update state.pc p next q).unused)
    (claimed : after.claimed.card ≤ state.claimed.card) :
    after.reserve ≤ state.reserve + next.unused := by
  have moved := Group.reserve_move p next pc
  omega

theorem Group.reserve_le {state after : Group Pid} (p : Pid) (next : LogPc)
    (pc : ∀ q, (after.pc q).unused = (update state.pc p next q).unused)
    (claimed : after.claimed.card ≤ state.claimed.card)
    (unused : next.unused ≤ (state.pc p).unused) : after.reserve ≤ state.reserve := by
  have moved := Group.reserve_move p next pc
  omega

/-- A call of `log_write` within the budget either repeats a block or uses up one
block of the budget. -/
theorem Group.reserve_test {log : Log} {state : Group Pid} (reserved : state.Reserved log)
    {p : Pid} {op blockno : Nat} {passed : List Nat} (control : state.pc p = .inOp op passed)
    (budget : (blockno :: passed).toFinset.card ≤ MAXOPBLOCKS)
    (grown : (state.setPc p (.tested op (blockno :: passed) blockno)).claimed ⊆
      state.claimed ∪ {blockno}) :
    (state.setPc p (.tested op (blockno :: passed) blockno)).reserve ≤ state.reserve := by
  let next : LogPc := .tested op (blockno :: passed) blockno
  have moved : (state.setPc p next).reserve + state.claimed.card + (state.pc p).unused =
      state.reserve + (state.setPc p next).claimed.card + next.unused :=
    Group.reserve_move p next fun _ => rfl
  simp only [next, control, LogPc.unused] at moved
  rw [List.toFinset_cons] at budget moved
  by_cases repeated : blockno ∈ passed
  · have claimed : blockno ∈ state.claimed :=
      reserved.passed p blockno (by simpa [control, LogPc.passed] using repeated)
    rw [Finset.union_eq_left.mpr (Finset.singleton_subset_iff.mpr claimed)] at grown
    have card := Finset.card_le_card grown
    rw [Finset.insert_eq_of_mem (List.mem_toFinset.mpr repeated)] at moved
    omega
  · have card := (Finset.card_le_card grown).trans (Finset.card_union_le _ _)
    rw [Finset.card_singleton] at card
    rw [Finset.card_insert_of_notMem (by simpa using repeated)] at budget moved
    omega

theorem Group.Reserved.reserve_step {log : Log} {state after : Group Pid} {act : LogAct Pid}
    (reserved : state.Reserved log) (budget : state.WithinBudget act)
    (room : state.LeavesRoom log act) (stepped : state.Step log act after) :
    after.reserve < log.size - 1 := by
  have grown := stepped.claimed_subset
  have card := Finset.card_le_card grown
  have below := reserved.reserve
  cases stepped with
  | @call p control =>
    refine (Group.reserve_le p .begin (fun _ => rfl) ?_ (Nat.zero_le _)).trans_lt below
    simpa [LogAct.block?] using card
  | @sleep p control =>
    refine (Group.reserve_le p .asleep (fun _ => rfl) ?_ (Nat.zero_le _)).trans_lt below
    simpa [LogAct.block?] using card
  | @enter p control idle fits =>
    refine (Group.reserve_le_add p (.inOp state.nextOp []) (fun _ => rfl) ?_).trans_lt
      (room ⟨idle, fits⟩)
    simpa [LogAct.block?] using card
  | tooBig | outside => exact below
  | @test p op passed blockno control =>
    exact (Group.reserve_test reserved control
      (by simpa only [Group.WithinBudget, control, LogPc.passed] using budget) grown).trans_lt
      below
  | @append p op passed blockno control =>
    refine (Group.reserve_le p (.inOp op passed) (fun _ => rfl) ?_ ?_).trans_lt below
    · simpa [LogAct.block?] using card
    · simp [control, LogPc.unused]
  | endPanic => exact below
  | @endCommit p =>
    refine (Group.reserve_le p (.commit .start) (fun _ => rfl) ?_ (Nat.zero_le _)).trans_lt below
    simpa [LogAct.block?] using card
  | @endLeave p =>
    refine (Group.reserve_le p .out (fun _ => LogPc.woken LogPc.unused rfl _) ?_
      (Nat.zero_le _)).trans_lt below
    simpa [LogAct.block?] using card
  | @commit p pc control running =>
    rcases commitStep_pc log state p running with ⟨next, changed⟩
    refine (Group.reserve_le p (.commit next) (by simp [changed]) ?_ (Nat.zero_le _)).trans_lt
      below
    simpa [LogAct.block?] using card
  | @finish p =>
    refine (Group.reserve_le p .out (fun _ => LogPc.woken LogPc.unused rfl _) ?_
      (Nat.zero_le _)).trans_lt below
    simpa [LogAct.block?] using card

omit [Fintype Pid] in
theorem LogPc.passed_update {control : Pid → LogPc} {p q : Pid} {next : LogPc} {blockno : Nat}
    (membership : blockno ∈ (update control p next q).passed) :
    blockno ∈ (control q).passed ∨ q = p ∧ blockno ∈ next.passed := by
  by_cases here : q = p
  · subst here
    exact .inr ⟨rfl, by simpa using membership⟩
  · exact .inl (by simpa [here] using membership)

omit [Fintype Pid] in
theorem LogPc.passed_of_update {control : Pid → LogPc} {p q : Pid} {next : LogPc}
    (outside : next.passed = []) {blockno : Nat}
    (membership : blockno ∈ (update control p next q).passed) :
    blockno ∈ (control q).passed := by
  rcases LogPc.passed_update membership with old | ⟨-, own⟩
  · exact old
  · simp [outside] at own

omit [Fintype Pid] in
theorem Group.Step.passed {log : Log} {state after : Group Pid} {act : LogAct Pid}
    (stepped : state.Step log act after) (q : Pid) {blockno : Nat}
    (membership : blockno ∈ (after.pc q).passed) :
    blockno ∈ (state.pc q).passed ∨ (after.pc q).pending? = some blockno := by
  cases stepped with
  | call | sleep | enter => exact .inl (LogPc.passed_of_update rfl membership)
  | tooBig | outside => exact .inl membership
  | @test p op passed new control =>
    rcases LogPc.passed_update membership with old | ⟨rfl, own⟩
    · exact .inl old
    · rcases List.mem_cons.mp own with rfl | old
      · exact .inr (by simp [LogPc.pending?])
      · exact .inl (by simpa [control, LogPc.passed] using old)
  | @append p op passed new control =>
    rcases LogPc.passed_update membership with old | ⟨rfl, own⟩
    · exact .inl old
    · exact .inl (by simpa [control, LogPc.passed] using own)
  | endPanic => exact .inl membership
  | endCommit => exact .inl (LogPc.passed_of_update rfl membership)
  | endLeave =>
    rw [wakeup_pc, LogPc.woken LogPc.passed rfl] at membership
    exact .inl (LogPc.passed_of_update rfl membership)
  | @commit p pc control running =>
    rcases commitStep_pc log state p running with ⟨next, moved⟩
    rw [moved] at membership
    exact .inl (LogPc.passed_of_update rfl membership)
  | @finish p control =>
    change blockno ∈ ((state.setPc p .out).wakeup.pc q).passed at membership
    rw [wakeup_pc, LogPc.woken LogPc.passed rfl] at membership
    exact .inl (LogPc.passed_of_update rfl membership)

/-- The blocks of an operation stay claimed: only `commit` empties the header, and
no operation runs then. -/
theorem Group.Reserved.passed_step {log : Log} {state after : Group Pid} {act : LogAct Pid}
    (reserved : state.Reserved log) (stepped : state.Step log act after) (q : Pid)
    {blockno : Nat} (membership : blockno ∈ (after.pc q).passed) : blockno ∈ after.claimed := by
  rcases stepped.passed q membership with old | waits
  · by_cases commits : ∃ p, act = .commit p
    · rcases commits with ⟨p, rfl⟩
      cases stepped with
      | @commit _ pc control running =>
        have idle := reserved.balanced.ops_eq_zero
          (reserved.balanced.committing_of_commit control) q
        cases here : state.pc q <;> simp [here, LogPc.passed, LogPc.ops] at old idle
    · exact stepped.claimed_superset (not_exists.mp commits) (reserved.passed q blockno old)
  · exact Group.mem_claimed.mpr (.inr ⟨q, waits⟩)

theorem Group.Reserved.step {log : Log} {state after : Group Pid} {act : LogAct Pid}
    (reserved : state.Reserved log) (budget : state.WithinBudget act)
    (room : state.LeavesRoom log act) (stepped : state.Step log act after) :
    after.Reserved log := by
  refine ⟨reserved.balanced.step stepped, stepped.nodup reserved.nodup,
    fun q _ membership => reserved.passed_step stepped q membership,
    reserved.reserve_step budget room stepped, ?_⟩
  cases stepped with
  | tooBig control full =>
    -- the header is part of the reserve, which is below the tested count
    have header := Group.length_le_card_claimed reserved.nodup
    have below := reserved.reserve
    have limit := log.size_le
    have positive := log.size_pos
    unfold Group.reserve at below
    omega
  | outside => simp [Group.panic]
  | @commit p pc =>
    rw [(commitStep_frame log state p pc).2.2.1]
    exact reserved.panicked
  | endPanic => simp [Group.panic]
  | _ => exact reserved.panicked

/-- In every run in which each operation passes at most `MAXOPBLOCKS` different
blocks and each admission leaves room below the panic, `log_write` does not panic
with "too big a transaction". -/
theorem log_admission_sufficient {state : Group Pid}
    (reachable : Group.Reachable mkfsLog
      (fun state act => state.WithinBudget act ∧ state.LeavesRoom mkfsLog act) state) :
    state.panicked ≠ some .tooBig := by
  have reserved : state.Reserved mkfsLog := by
    refine reachable.invariant (Group.Reserved mkfsLog) ?_ ?_
    · refine ⟨Group.balanced_init, List.nodup_nil, by simp [Group.init, LogPc.passed], ?_,
        by simp [Group.init]⟩
      rw [Group.reserve, Group.claimed_init]
      simp [Group.init, LogPc.unused, mkfsLog, LOGSIZE, MAXOPBLOCKS]
    · intro before act after reserved allowed stepped
      exact reserved.step allowed.1 allowed.2 (Group.step_cases stepped).2
  exact reserved.panicked

/-- Two concurrent operations use all of their `MAXOPBLOCKS`. -/
theorem log_admission_sufficient_two : ∃ state : Group (Fin 2),
    (Group.Reachable mkfsLog
        (fun state act => state.WithinBudget act ∧ state.LeavesRoom mkfsLog act) state ∧
      state.lh.length = 2 * MAXOPBLOCKS) ∧ state.panicked ≠ some .tooBig := by
  have found : ∃ state : Group (Fin 2), Group.Reachable mkfsLog
      (fun state act => state.WithinBudget act ∧ state.LeavesRoom mkfsLog act) state ∧
        state.lh.length = 2 * MAXOPBLOCKS :=
    Transition.Reachable.exists_of_run
      (fun state act => decide (state.WithinBudget act ∧ state.LeavesRoom mkfsLog act))
      (fun _ _ fits => of_decide_eq_true fits) _
      (List.flatten
        [[.call 0, .beginOp 0, .call 1, .beginOp 1], LogAct.writes 0 100 10,
          LogAct.writes 1 200 10])
      (by decide +kernel)
  rcases found with ⟨state, reachable, full⟩
  exact ⟨state, ⟨reachable, full⟩, log_admission_sufficient reachable⟩

end Xv6
