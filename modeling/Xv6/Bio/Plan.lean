import Xv6.Bio.Turn

/-!
# Proofs about `commit`

A `Plan` is an outline of a proof about `commit`: an assertion for each place of
its text, which blocks it needs nobody else to give anything, and what is to hold
of each of its `bwrite`s.  `Planned.step` carries a plan through every step of
the system.
-/

open Function (update update_of_ne update_self)

namespace Xv6

section Bookkeeping

variable {Pid : Type}

def LogAct.pid : LogAct Pid → Pid
  | .call p | .beginOp p | .logWrite p _ | .append p | .endOp p | .commit p | .finish p => p

variable [DecidableEq Pid] [Fintype Pid] {log : Log} {state after : Group Pid}

theorem Group.Step.commit_of_ne {act : LogAct Pid} (stepped : state.Step log act after)
    (balanced : state.Balanced) {p : Pid} (other : p ≠ act.pid) {pc : CommitPc}
    (commits : after.pc p = .commit pc) : state.pc p = .commit pc ∧ after.lh = state.lh := by
  have moved : ∀ {q next}, p ≠ q → update state.pc q next p = .commit pc →
      state.pc p = .commit pc := by
    intro q next apart committing
    rwa [update_of_ne apart] at committing
  cases stepped with
  | tooBig | outside | endPanic => exact ⟨commits, rfl⟩
  | append control =>
    have here := moved other commits
    have idle := balanced.not_committing (by rw [control]; rfl)
    rw [balanced.committing_of_commit here] at idle
    cases idle
  | @endLeave q op passed control idle others =>
    refine ⟨?_, rfl⟩
    simp only [Group.wakeup, Group.setPc, update_of_ne (show p ≠ q from other)] at commits
    split at commits
    · cases commits
    · exact commits
  | @commit q qc control running =>
    obtain ⟨next, pcs⟩ := commitStep_pc log state q running
    rw [pcs] at commits
    have here := moved other commits
    exact absurd (balanced.committer_unique control (by rw [here]; rfl)) other
  | @finish q control =>
    refine ⟨?_, rfl⟩
    simp only [Group.finish, Group.wakeup, Group.setPc,
      update_of_ne (show p ≠ q from other)] at commits
    split at commits
    · cases commits
    · exact commits
  | _ => exact ⟨moved other commits, rfl⟩

theorem Group.Step.commit_still {act : LogAct Pid} (stepped : state.Step log act after)
    (balanced : state.Balanced) {p : Pid} (other : p ≠ act.pid) {pc : CommitPc}
    (commits : state.pc p = .commit pc) : after.pc p = .commit pc := by
  have moved : ∀ {q next}, p ≠ q → update state.pc q next p = .commit pc := by
    intro q next apart
    rwa [update_of_ne apart]
  cases stepped with
  | tooBig | outside | endPanic => exact commits
  | @endLeave q op passed control idle others =>
    simp only [Group.wakeup, Group.setPc, update_of_ne (show p ≠ q from other), commits]
    exact if_neg (by rintro ⟨⟩)
  | @commit q qc control running =>
    exact absurd (balanced.committer_unique control (by rw [commits]; rfl)) other
  | @finish q control =>
    simp only [Group.finish, Group.wakeup, Group.setPc, update_of_ne (show p ≠ q from other),
      commits]
    exact if_neg (by rintro ⟨⟩)
  | _ => exact moved other

omit [Fintype Pid] in
theorem Group.Step.committing_moves {act : LogAct Pid} (stepped : state.Step log act after)
    {pc : CommitPc} (commits : state.pc act.pid = .commit pc) :
    (∃ p, act = .commit p) ∨ pc = .done := by
  cases stepped with
  | @commit p => exact .inl ⟨p, rfl⟩
  | finish control =>
    have same := control.symm.trans commits
    cases same
    exact .inr rfl
  | call control | sleep control | enter control | tooBig control | outside control | test control
  | append control | endPanic control | endCommit control | endLeave control =>
    have same := control.symm.trans commits
    cases same

omit [Fintype Pid] in
theorem Group.Step.commit_of_pid {act : LogAct Pid} (stepped : state.Step log act after)
    {pc : CommitPc} (commits : after.pc act.pid = .commit pc) :
    (∃ p, act = .commit p) ∨ (∃ p, act = .endOp p) ∧ pc = .start := by
  cases stepped with
  | tooBig control =>
    have same := control.symm.trans commits
    cases same
  | outside control =>
    have same := control.symm.trans commits
    cases same
  | endPanic control =>
    have same := control.symm.trans commits
    cases same
  | @endCommit p =>
    have same := (update_self p _ state.pc).symm.trans commits
    cases same
    exact .inr ⟨⟨p, rfl⟩, rfl⟩
  | @endLeave p =>
    simp only [LogAct.pid, Group.wakeup, Group.setPc, update_self] at commits
    cases commits
  | @commit p => exact .inl ⟨p, rfl⟩
  | @finish p =>
    simp only [LogAct.pid, Group.finish, Group.wakeup, Group.setPc, update_self] at commits
    cases commits
  | _ =>
    have same := (update_self _ _ state.pc).symm.trans commits
    cases same

end Bookkeeping

end Xv6

namespace Xv6.Bio

open Ide (memIderw)

def nextPc (lh : List Nat) : CommitPc → CommitPc
  | .start => if 0 < lh.length then .writeLog 0 else .done
  | .writeLog tail => if tail < lh.length then .writeLog (tail + 1) else .writeHead
  | .writeHead => .install 0
  | .install tail => if tail < lh.length then .install (tail + 1) else .clear
  | .clear => .eraseHead
  | .eraseHead => .done
  | .done => .done

def nextLh (lh : List Nat) : CommitPc → List Nat
  | .clear => []
  | _ => lh

structure Plan (log : Log) where
  /-- the blocks nobody else may give anything during the commit -/
  prot : List Nat → Nat → Prop
  /-- what is to hold of each `bwrite` -/
  guar : List Nat → CommitPc → Nat → Block → Disk → Prop
  /-- what holds of the contents at each place -/
  pre : List Nat → CommitPc → Disk → Prop
  /-- the headers for which this is a proof -/
  ok : List Nat → Prop
  within : ∀ lh pc n, prot (nextLh lh pc) n → prot lh n
  start : ∀ lh content, pre lh .start content
  turns : ∀ lh pc v, ok lh → pre lh pc v.content →
    Ready (prot lh) (guar lh pc) (pre (nextLh lh pc) (nextPc lh pc)) (turn log lh pc) v
  depends : ∀ lh pc content other, ok lh → (∀ n, prot lh n → other n = content n) →
    pre lh pc content → pre lh pc other
  stable : ∀ lh pc n data known content, ok lh → guar lh pc n data known → known n = content n →
    pre lh pc content → pre lh pc (update content n data)

def Plan.trivial (log : Log) : Plan log where
  prot _ _ := False
  guar _ _ _ _ _ := True
  pre _ _ _ := True
  ok _ := True
  within _ _ _ := id
  start _ _ := True.intro
  turns _ pc v _ _ := ready_turn log pc v
  depends _ _ _ _ _ _ _ := True.intro
  stable _ _ _ _ _ _ _ _ _ _ := True.intro

theorem commitStep_next {Pid : Type} [DecidableEq Pid] {log : Log} {state : Group Pid} {p : Pid}
    {pc : CommitPc} (running : pc ≠ .done) :
    (state.commitStep log p pc).pc p = .commit (nextPc state.lh pc) ∧
      (state.commitStep log p pc).lh = nextLh state.lh pc := by
  cases pc with
  | done => exact absurd rfl running
  | writeLog tail =>
    simp only [Group.commitStep, nextPc, nextLh]
    split
    · exact ⟨update_self _ _ _, rfl⟩
    · exact ⟨update_self _ _ _, rfl⟩
  | _ => exact ⟨update_self _ _ _, rfl⟩

/-! ## What a step can do -/

section Moves

variable {Pid : Type} [DecidableEq Pid]

def Act.inner? : Act Pid → Option (Action Pid)
  | .bget p => some (.bget p)
  | .rouse p => some (.rouse p)
  | .iderw p => some (.iderw p)
  | _ => none

def Act.outer? : Act Pid → Option (Action Pid)
  | .bread p dev n => some (.bread p dev n)
  | .modify p b data => some (.modify p b data)
  | .bwrite p b => some (.bwrite p b)
  | .brelse p b => some (.brelse p b)
  | _ => none

def Act.log? : Act Pid → Option (LogAct Pid)
  | .call p => some (.call p)
  | .beginOp p => some (.beginOp p)
  | .finish p => some (.finish p)
  | _ => none

inductive Store.Move (log : Log) (s : Store Pid) : Act Pid → Store Pid → Prop where
  | inner {act action after} : act.inner? = some action → s.advance action = some after →
      Store.Move log s act after
  | outer {act action after} : act.outer? = some action → s.free action.pid = true →
      s.advance action = some after → Store.Move log s act after
  | note {act lact after} : act.log? = some lact → s.note log lact = some after →
      Store.Move log s act after
  | logWrite {p b group} : s.cache.Uses p b →
      s.group.step log (.logWrite p (s.cache.buf b).blockno) = some group →
      Store.Move log s (.logWrite p b)
        { s with group := group, arg := update s.arg p (some b) }
  | append {p b mid after} : s.arg p = some b → s.advance (.logWrite p b) = some mid →
      mid.note log (.append p) = some after → Store.Move log s (.append p) after
  | endOp {p mid} : s.atRest p = true → s.note log (.endOp p) = some mid →
      Store.Move log s (.endOp p) (mid.enter log p)
  | commit {p pc after} : s.group.pc p = .commit pc → s.commit log p = some after →
      Store.Move log s (.commit p) after

theorem Store.enter_frame (log : Log) (s : Store Pid) (p : Pid) : (s.enter log p).group = s.group ∧
    (s.enter log p).cache = s.cache ∧ (s.enter log p).content = s.content ∧
    ∀ q, q ≠ p → (s.enter log p).code q = s.code q := by
  unfold Store.enter
  split
  · exact ⟨rfl, rfl, rfl, fun q other => update_of_ne other _ _⟩
  · exact ⟨rfl, rfl, rfl, fun _ _ => rfl⟩

/-- What a step of `commit` can do: nothing outside its own text, one step of the
cache, or one of the bookkeeping. -/
theorem Store.commit_cases {log : Log} {s after : Store Pid} {p : Pid}
    (stepped : s.commit log p = some after) :
    after.cache = s.cache ∧ after.content = s.content ∧ after.group = s.group ∨
      (∃ action mid, s.advance action = some mid ∧ after.cache = mid.cache ∧
        after.content = mid.content ∧ after.group = s.group) ∨
      after.cache = s.cache ∧ after.content = s.content ∧
        s.group.step log (.commit p) = some after.group := by
  unfold Store.commit at stepped
  split at stepped
  · split at stepped
    · cases stepped
      exact .inl ⟨rfl, rfl, rfl⟩
    · cases stepped
  · obtain ⟨mid, moved, rfl⟩ := Option.map_eq_some_iff.mp stepped
    exact .inr (.inl ⟨_, mid, moved, rfl, rfl, (advance_frame moved).2⟩)
  · obtain ⟨-, same⟩ := Option.ite_none_right_eq_some.mp stepped
    cases same
    exact .inl ⟨rfl, rfl, rfl⟩
  · obtain ⟨mid, moved, rfl⟩ := Option.map_eq_some_iff.mp stepped
    exact .inr (.inl ⟨_, mid, moved, rfl, rfl, (advance_frame moved).2⟩)
  · obtain ⟨mid, moved, rfl⟩ := Option.map_eq_some_iff.mp stepped
    exact .inr (.inl ⟨_, mid, moved, rfl, rfl, (advance_frame moved).2⟩)
  · obtain ⟨mid, moved, rfl⟩ := Option.map_eq_some_iff.mp stepped
    exact .inr (.inl ⟨_, mid, moved, rfl, rfl, (advance_frame moved).2⟩)
  · rw [Option.ite_none_right_eq_some, Option.map_eq_some_iff] at stepped
    obtain ⟨-, mid, noted, rfl⟩ := stepped
    obtain ⟨group, taken, rfl⟩ := note_cases noted
    obtain ⟨sameGroup, sameCache, sameContent, -⟩ :=
      Store.enter_frame log { s with group := group } p
    rw [sameGroup]
    exact .inr (.inr ⟨sameCache, sameContent, taken⟩)

theorem Store.step_cases {log : Log} {s after : Store Pid} {act : Act Pid}
    (stepped : s.step log act = some after) : s.Move log act after := by
  unfold Store.step at stepped
  split at stepped
  · cases stepped
  cases act with
  | bget p => exact .inner rfl stepped
  | rouse p => exact .inner rfl stepped
  | iderw p => exact .inner rfl stepped
  | bread p dev n =>
    rw [Option.ite_none_right_eq_some] at stepped
    exact .outer rfl stepped.1 stepped.2
  | modify p b data =>
    rw [Option.ite_none_right_eq_some] at stepped
    exact .outer rfl stepped.1 stepped.2
  | bwrite p b =>
    rw [Option.ite_none_right_eq_some] at stepped
    exact .outer rfl stepped.1 stepped.2
  | brelse p b =>
    rw [Option.ite_none_right_eq_some] at stepped
    exact .outer rfl stepped.1 stepped.2
  | call p =>
    rw [Option.ite_none_right_eq_some] at stepped
    exact .note rfl stepped.2
  | beginOp p => exact .note rfl stepped
  | finish p => exact .note rfl stepped
  | logWrite p b =>
    rw [Option.ite_none_right_eq_some, Option.map_eq_some_iff] at stepped
    obtain ⟨uses, mid, noted, rfl⟩ := stepped
    obtain ⟨group, taken, rfl⟩ := note_cases noted
    exact .logWrite uses taken
  | append p =>
    dsimp only at stepped
    split at stepped
    next b arg =>
      rw [Option.bind_eq_some_iff] at stepped
      obtain ⟨mid, given, noted⟩ := stepped
      exact .append arg given noted
    · cases stepped
  | endOp p =>
    rw [Option.ite_none_right_eq_some, Option.map_eq_some_iff] at stepped
    obtain ⟨rest, mid, noted, rfl⟩ := stepped
    exact .endOp rest noted
  | commit p =>
    dsimp only at stepped
    split at stepped
    next pc here =>
      exact .commit here stepped
    · cases stepped

end Moves

/-! ## A plan is carried out -/

section Planned

variable {Pid : Type} [DecidableEq Pid] [Fintype Pid] {log : Log}

structure Planned (plan : Plan log) (s : Store Pid) : Prop where
  flat : Flat s.cache s.content
  balanced : s.group.Balanced
  pre : ∀ p pc, s.group.pc p = .commit pc → plan.pre s.group.lh pc s.content
  follows : ∀ p pc, s.group.pc p = .commit pc →
    Follows (plan.prot s.group.lh) (plan.guar s.group.lh pc)
      (plan.pre (nextLh s.group.lh pc) (nextPc s.group.lh pc)) s p

/-- What the plan asks of the other processes. -/
def Plan.Spares (plan : Plan log) (s : Store Pid) : Act Pid → Prop
  | .brelse _ b => (s.cache.buf b).data = s.content (s.cache.buf b).blockno
  | .bwrite _ b => ¬plan.prot s.group.lh (s.cache.buf b).blockno
  | _ => True

variable {plan : Plan log} {s after : Store Pid} {p q : Pid}

omit [DecidableEq Pid] in
theorem Planned.others (planned : Planned plan s) (ok : plan.ok s.group.lh) {pc : CommitPc}
    (here : s.group.pc p = .commit pc) (undisturbed : Undisturbed (plan.prot s.group.lh) s after p)
    (lh : after.group.lh = s.group.lh) :
    plan.pre after.group.lh pc after.content ∧
      Follows (plan.prot after.group.lh) (plan.guar after.group.lh pc)
        (plan.pre (nextLh after.group.lh pc) (nextPc after.group.lh pc)) after p := by
  rw [lh]
  refine ⟨?_, (planned.follows p pc here).undisturbed undisturbed⟩
  exact plan.depends _ pc _ _ ok (fun n isProt => undisturbed.content n (.inl isProt))
    (planned.pre p pc here)

theorem Planned.undisturbed (planned : Planned plan s) {action : Action Pid} {mid : Store Pid}
    (stepped : s.advance action = some mid) (other : p ≠ action.pid)
    (spared : ∀ n, plan.prot s.group.lh n → s.cache.give s.content action n = s.content n)
    (cache : after.cache = mid.cache) (content : after.content = mid.content)
    (code : after.code p = s.code p) : Undisturbed (plan.prot s.group.lh) s after p := by
  obtain ⟨moved, taken, rfl⟩ := advance_cases stepped
  have moves := planned.flat.step_cases taken
  refine ⟨code, ?_, ?_, ?_, ?_⟩
  · rw [cache]
    exact moves.held_of_ne other
  · rw [cache]
    exact moves.pc_of_ne other
  · intro b holds
    rw [cache]
    exact planned.flat.buf_of_ne moves other holds
  · intro n known
    rw [content]
    rcases known with isProt | ⟨b, holds⟩
    · exact spared n isProt
    · obtain ⟨isDev, isBlock⟩ := planned.flat.intact.asked p b 1 n holds
      rw [← isBlock]
      exact planned.flat.give_of_ne moves other (by rw [holds]; exact Option.some_ne_none _) isDev

def Store.view (s : Store Pid) (p : Pid) : View where
  which b := (s.cache.held p b).bind fun (dev, n) => if dev = 1 then some n else none
  data b := (s.cache.buf b).data
  content := s.content

omit [DecidableEq Pid] [Fintype Pid] in
theorem Store.sees_view (s : Store Pid) (p : Pid) (prot : Nat → Prop) :
    Sees prot s p none (s.view p) := by
  refine ⟨?_, fun _ _ => rfl, fun _ _ => rfl⟩
  intro b n
  dsimp only [Store.view]
  cases s.cache.held p b with
  | none => simp
  | some asked =>
    obtain ⟨dev, m⟩ := asked
    by_cases same : dev = 1
    · simp [same]
    · simp [same]

omit [Fintype Pid] in
theorem follows_enter (ok : plan.ok s.group.lh) {pc : CommitPc} (here : s.group.pc p = .commit pc)
    (rest : s.atRest p = true) (pre : plan.pre s.group.lh pc s.content) :
    Follows (plan.prot s.group.lh) (plan.guar s.group.lh pc)
      (plan.pre (nextLh s.group.lh pc) (nextPc s.group.lh pc)) (s.enter log p) p := by
  obtain ⟨result, out⟩ : ∃ result, s.cache.pc p = .out result := by
    unfold Store.atRest at rest
    split at rest
    next result out =>
      exact ⟨result, out⟩
    · cases rest
  unfold Store.enter
  rw [here]
  have sees : Sees (plan.prot s.group.lh) s p none (s.view p) := s.sees_view p _
  exact .run _ (s.view p) (update_self _ _ _) (.inl ⟨result, out⟩)
    (sees.frame (fun _ _ => Iff.rfl) (fun _ _ _ => rfl) rfl) (plan.turns _ pc _ ok pre)

theorem Planned.only (planned : Planned plan s) {pc qc : CommitPc}
    (here : s.group.pc p = .commit pc) (there : s.group.pc q = .commit qc) : q = p :=
  planned.balanced.committer_unique here (by rw [there]; rfl)

theorem Planned.operated (planned : Planned plan s) {pc : CommitPc}
    (here : s.group.pc p = .commit pc) (group : after.group = s.group)
    (flat : Flat after.cache after.content)
    (pre : plan.pre s.group.lh pc after.content)
    (follows : Follows (plan.prot s.group.lh) (plan.guar s.group.lh pc)
      (plan.pre (nextLh s.group.lh pc) (nextPc s.group.lh pc)) after p) : Planned plan after := by
  refine ⟨flat, by rw [group]; exact planned.balanced, ?_, ?_⟩
  · rw [group]
    intro q qc there
    obtain rfl := planned.only here there
    rw [here] at there
    cases there
    exact pre
  · rw [group]
    intro q qc there
    obtain rfl := planned.only here there
    rw [here] at there
    cases there
    exact follows

theorem Planned.turned (planned : Planned plan s) {pc : CommitPc} (here : s.group.pc p = .commit pc)
    {v : View} (sees : Sees (plan.prot s.group.lh) s p none v)
    (post : plan.pre (nextLh s.group.lh pc) (nextPc s.group.lh pc) v.content)
    (rest : s.atRest p = true) {mid : Store Pid} (noted : s.note log (.commit p) = some mid)
    (ok : plan.ok mid.group.lh) : Planned plan (mid.enter log p) := by
  obtain ⟨group, taken, rfl⟩ := note_cases noted
  have stepped := (Group.step_cases taken).2
  obtain ⟨sameGroup, sameCache, sameContent, -⟩ :=
    Store.enter_frame log { s with group := group } p
  obtain ⟨there, lh⟩ : group.pc p = .commit (nextPc s.group.lh pc) ∧
      group.lh = nextLh s.group.lh pc := by
    cases stepped with
    | commit control running =>
      rw [here] at control
      cases control
      exact commitStep_next running
  have pre : plan.pre group.lh (nextPc s.group.lh pc) s.content := by
    refine plan.depends _ _ v.content _ ok (fun n isProt => ?_) (by rw [lh]; exact post)
    rw [lh] at isProt
    exact (sees.content n (.inl (plan.within _ pc n isProt))).symm
  have alone : ∀ q qc, group.pc q = .commit qc → q = p := by
    intro q qc commits
    by_contra other
    exact other (planned.only here (stepped.commit_of_ne planned.balanced other commits).1)
  refine ⟨?_, ?_, ?_, ?_⟩
  · rw [sameCache, sameContent]
    exact planned.flat
  · rw [sameGroup]
    exact planned.balanced.step stepped
  · rw [sameGroup, sameContent]
    intro q qc commits
    obtain rfl := alone q qc commits
    rw [show group.pc q = _ from there] at commits
    cases commits
    exact pre
  · rw [sameGroup]
    intro q qc commits
    obtain rfl := alone q qc commits
    rw [show group.pc q = _ from there] at commits
    cases commits
    have entered : Follows (plan.prot group.lh) (plan.guar group.lh (nextPc s.group.lh pc))
        (plan.pre (nextLh group.lh (nextPc s.group.lh pc)) (nextPc group.lh (nextPc s.group.lh pc)))
        (Store.enter { s with group := group } log q) q := follows_enter ok there rest pre
    exact entered

theorem Planned.commit (planned : Planned plan s) (ok : plan.ok s.group.lh) {pc : CommitPc}
    (here : s.group.pc p = .commit pc) (stepped : s.commit log p = some after)
    (ok' : plan.ok after.group.lh) : Planned plan after := by
  have flat := planned.flat
  have pre := planned.pre p pc here
  unfold Store.commit at stepped
  cases planned.follows p pc here with
  | reads next v n code reads =>
    rw [code] at stepped
    dsimp only at stepped
    split at stepped
    next b out =>
      unfold Cache.Reads at reads
      rw [out] at reads
      rcases reads with absurdity | ⟨c, absurdity⟩ | ⟨c, absurdity, -⟩ <;> cases absurdity
    · cases stepped
  | read next v n b code out holds current sees expects =>
    rw [code, out] at stepped
    cases stepped
    exact planned.operated here rfl flat pre (Follows.returned holds out current sees expects)
  | run rest v code place sees ready =>
    rw [code] at stepped
    cases rest with
    | ret value =>
      dsimp only at stepped
      rw [Option.ite_none_right_eq_some, Option.map_eq_some_iff] at stepped
      obtain ⟨atRest, mid, noted, rfl⟩ := stepped
      rw [(mid.enter_frame log p).1] at ok'
      exact planned.turned here sees ready atRest noted ok'
    | call op next =>
      cases op with
      | bread n =>
        obtain ⟨mid, advanced, rfl⟩ := Option.map_eq_some_iff.mp stepped
        have follows := Follows.bread sees ready flat advanced
        obtain ⟨cache, taken, rfl⟩ := advance_cases advanced
        exact planned.operated here rfl (flat.step taken trivial) pre follows
      | load b =>
        obtain ⟨uses, same⟩ := Option.ite_none_right_eq_some.mp stepped
        cases same
        rw [← sees.data b ready.1]
        refine planned.operated here rfl flat pre (.run _ v (update_self _ _ _) place ?_ ready.2)
        exact sees.frame (fun _ _ => Iff.rfl) (fun _ _ _ => rfl) rfl
      | store b data =>
        obtain ⟨mid, advanced, rfl⟩ := Option.map_eq_some_iff.mp stepped
        have follows := Follows.store sees ready flat advanced
        obtain ⟨cache, taken, rfl⟩ := advance_cases advanced
        exact planned.operated here rfl (flat.step taken trivial) pre follows
      | bwrite b =>
        obtain ⟨mid, advanced, rfl⟩ := Option.map_eq_some_iff.mp stepped
        obtain ⟨follows, known, asked, same⟩ := Follows.bwrite sees ready flat advanced
        obtain ⟨cache, taken, rfl⟩ := advance_cases advanced
        exact planned.operated here rfl (flat.step taken trivial)
          (plan.stable _ pc _ _ known _ ok asked same pre) follows
      | brelse b =>
        obtain ⟨mid, advanced, rfl⟩ := Option.map_eq_some_iff.mp stepped
        obtain ⟨follows, returns⟩ := Follows.brelse sees ready flat advanced
        obtain ⟨cache, taken, rfl⟩ := advance_cases advanced
        exact planned.operated here rfl (flat.step taken returns) pre follows

def Action.Quiet (action : Action Pid) : Prop :=
  ∀ q b, action ≠ .logWrite q b ∧ action ≠ .bwrite q b

/-- What a step of `commit` can do: nothing to the cache, one step of the cache, or
one of the bookkeeping. -/
theorem Planned.commit_cases (planned : Planned plan s) {pc : CommitPc}
    (here : s.group.pc p = .commit pc) (stepped : s.commit log p = some after) :
    after.arg = s.arg ∧
    (after.cache = s.cache ∧ after.content = s.content ∧ after.group = s.group ∨
      (∃ action mid, action.pid = p ∧ s.advance action = some mid ∧ after.cache = mid.cache ∧
        after.content = mid.content ∧ after.group = s.group ∧
        (action.Quiet ∨ ∃ b known, action = .bwrite p b ∧
          plan.guar s.group.lh pc (s.cache.buf b).blockno (s.cache.buf b).data known ∧
          known (s.cache.buf b).blockno = s.content (s.cache.buf b).blockno)) ∨
      s.atRest p = true ∧ after.cache = s.cache ∧ after.content = s.content ∧
        s.group.step log (.commit p) = some after.group) := by
  have flat := planned.flat
  unfold Store.commit at stepped
  cases planned.follows p pc here with
  | reads next v n code reads =>
    rw [code] at stepped
    dsimp only at stepped
    split at stepped
    · cases stepped
      exact ⟨rfl, .inl ⟨rfl, rfl, rfl⟩⟩
    · cases stepped
  | read next v n b code out =>
    rw [code, out] at stepped
    cases stepped
    exact ⟨rfl, .inl ⟨rfl, rfl, rfl⟩⟩
  | run rest v code place sees ready =>
    rw [code] at stepped
    cases rest with
    | ret value =>
      dsimp only at stepped
      rw [Option.ite_none_right_eq_some, Option.map_eq_some_iff] at stepped
      obtain ⟨atRest, mid, noted, rfl⟩ := stepped
      obtain ⟨group, taken, rfl⟩ := note_cases noted
      obtain ⟨sameGroup, sameCache, sameContent, -⟩ :=
        Store.enter_frame log { s with group := group } p
      refine ⟨?_, .inr (.inr ⟨atRest, sameCache, sameContent, ?_⟩)⟩
      · unfold Store.enter
        split <;> rfl
      · rw [sameGroup]
        exact taken
    | call op next =>
      cases op with
      | bread _ | store _ _ | brelse _ =>
        obtain ⟨mid, advanced, rfl⟩ := Option.map_eq_some_iff.mp stepped
        obtain ⟨args, groups⟩ := advance_frame advanced
        exact ⟨args,
          .inr (.inl ⟨_, mid, rfl, advanced, rfl, rfl, groups, .inl fun _ _ => ⟨nofun, nofun⟩⟩)⟩
      | load b =>
        obtain ⟨uses, same⟩ := Option.ite_none_right_eq_some.mp stepped
        cases same
        exact ⟨rfl, .inl ⟨rfl, rfl, rfl⟩⟩
      | bwrite b =>
        obtain ⟨mid, advanced, rfl⟩ := Option.map_eq_some_iff.mp stepped
        obtain ⟨-, known, asked, same⟩ := Follows.bwrite sees ready flat advanced
        obtain ⟨args, groups⟩ := advance_frame advanced
        exact ⟨args, .inr (.inl ⟨_, mid, rfl, advanced, rfl, rfl, groups,
          .inr ⟨b, known, rfl, asked, same⟩⟩)⟩

theorem Planned.noted (planned : Planned plan s) (ok : plan.ok s.group.lh) {lact : LogAct Pid}
    {group : Group Pid} (taken : s.group.step log lact = some group)
    (groups : after.group = group) (flat : Flat after.cache after.content)
    (others : ∀ p pc, p ≠ lact.pid → s.group.pc p = .commit pc →
      Undisturbed (plan.prot s.group.lh) s after p)
    (own : ∀ pc, group.pc lact.pid = .commit pc → plan.pre group.lh pc after.content ∧
      Follows (plan.prot group.lh) (plan.guar group.lh pc)
        (plan.pre (nextLh group.lh pc) (nextPc group.lh pc)) after lact.pid) :
    Planned plan after := by
  have stepped := (Group.step_cases taken).2
  have both : ∀ p pc, group.pc p = .commit pc → plan.pre group.lh pc after.content ∧
      Follows (plan.prot group.lh) (plan.guar group.lh pc)
        (plan.pre (nextLh group.lh pc) (nextPc group.lh pc)) after p := by
    intro p pc commits
    by_cases same : p = lact.pid
    · subst same
      exact own pc commits
    · obtain ⟨here, lh⟩ := stepped.commit_of_ne planned.balanced same commits
      have kept := planned.others ok here (others p pc same here) (by rw [groups]; exact lh)
      rwa [groups] at kept
  refine ⟨flat, ?_, ?_, ?_⟩
  · rw [groups]
    exact planned.balanced.step stepped
  · rw [groups]
    exact fun p pc commits => (both p pc commits).1
  · rw [groups]
    exact fun p pc commits => (both p pc commits).2

omit [DecidableEq Pid] [Fintype Pid] in
theorem undisturbed_of_eq {prot : Nat → Prop} (cache : after.cache = s.cache)
    (content : after.content = s.content) (code : after.code p = s.code p) :
    Undisturbed prot s after p := by
  refine ⟨code, ?_, .inl ?_, fun b _ => ?_, fun n _ => ?_⟩
  · rw [cache]
  · rw [cache]
  · rw [cache]
  · rw [content]

omit [DecidableEq Pid] [Fintype Pid] in
theorem Store.not_commit_of_free (free : s.free p = true) (pc : CommitPc) :
    s.group.pc p ≠ .commit pc := by
  intro commits
  unfold Store.free at free
  rw [commits] at free
  cases free

theorem Planned.advanced (planned : Planned plan s) (ok : plan.ok s.group.lh) {action : Action Pid}
    (stepped : s.advance action = some after) (returns : s.cache.Returns s.content action)
    (spared : ∀ n, plan.prot s.group.lh n → s.cache.give s.content action n = s.content n)
    (own : ∀ pc, s.group.pc action.pid = .commit pc →
      Follows (plan.prot s.group.lh) (plan.guar s.group.lh pc)
        (plan.pre (nextLh s.group.lh pc) (nextPc s.group.lh pc)) after action.pid) :
    Planned plan after := by
  have kept : ∀ p, p ≠ action.pid → Undisturbed (plan.prot s.group.lh) s after p := by
    intro p other
    obtain ⟨cache, taken, rfl⟩ := advance_cases stepped
    exact planned.undisturbed stepped other spared rfl rfl rfl
  obtain ⟨cache, taken, rfl⟩ := advance_cases stepped
  refine ⟨planned.flat.step taken returns, planned.balanced, ?_, ?_⟩
  · intro p pc here
    exact plan.depends _ pc _ _ ok spared (planned.pre p pc here)
  · intro p pc here
    by_cases same : p = action.pid
    · subst same
      exact own pc here
    · exact (planned.follows p pc here).undisturbed (kept p same)

theorem Planned.step {act : Act Pid} (planned : Planned plan s) (ok : plan.ok s.group.lh)
    (stepped : s.step log act = some after) (ok' : plan.ok after.group.lh)
    (spares : plan.Spares s act) : Planned plan after := by
  cases Store.step_cases stepped with
  | @inner _ action _ isInner advanced =>
    have own : action = .bget action.pid ∨ action = .rouse action.pid ∨
        action = .iderw action.pid := by
      cases act <;> cases isInner
      · exact .inl rfl
      · exact .inr (.inl rfl)
      · exact .inr (.inr rfl)
    refine planned.advanced ok advanced ?_ ?_ ?_
    · rcases own with eq | eq | eq <;> rw [eq] <;> trivial
    · intro n _
      rcases own with eq | eq | eq <;> rw [eq] <;> rfl
    · intro pc here
      exact (planned.follows _ pc here).drive planned.flat own advanced
  | @outer _ action _ isOuter free advanced =>
    refine planned.advanced ok advanced ?_ ?_ ?_
    · cases act <;> cases isOuter
      · trivial
      · trivial
      · trivial
      · exact spares
    · intro n isProt
      cases act <;> cases isOuter
      · rfl
      · rfl
      · refine update_of_ne ?_ _ _
        rintro rfl
        exact spares isProt
      · rfl
    · intro pc here
      exact absurd here (Store.not_commit_of_free free pc)
  | @note _ lact _ isLog noted =>
    obtain ⟨group, taken, rfl⟩ := note_cases noted
    refine planned.noted ok taken rfl planned.flat
      (fun p pc _ _ => undisturbed_of_eq rfl rfl rfl) ?_
    intro pc commits
    rcases (Group.step_cases taken).2.commit_of_pid commits with ⟨p, rfl⟩ | ⟨⟨p, rfl⟩, -⟩
    · cases act <;> cases isLog
    · cases act <;> cases isLog
  | @logWrite p b group uses taken =>
    refine planned.noted ok taken rfl planned.flat
      (fun p pc _ _ => undisturbed_of_eq rfl rfl rfl) ?_
    intro pc commits
    rcases (Group.step_cases taken).2.commit_of_pid commits with
      ⟨q, absurdity⟩ | ⟨⟨q, absurdity⟩, -⟩ <;> cases absurdity
  | @append p b mid _ arg advanced noted =>
    obtain ⟨cache, given, rfl⟩ := advance_cases advanced
    obtain ⟨group, taken, rfl⟩ := note_cases noted
    have moved := (Group.step_cases taken).2
    refine planned.noted ok taken rfl (planned.flat.step given trivial) ?_ ?_
    · intro q pc _ here
      -- nobody is inside an operation while a process commits
      cases moved with
      | append control =>
        have idle := planned.balanced.not_committing (by rw [control]; rfl)
        rw [planned.balanced.committing_of_commit here] at idle
        cases idle
    · intro pc commits
      rcases moved.commit_of_pid commits with ⟨q, absurdity⟩ | ⟨⟨q, absurdity⟩, -⟩ <;>
        cases absurdity
  | @endOp p mid rest noted =>
    obtain ⟨group, taken, rfl⟩ := note_cases noted
    obtain ⟨sameGroup, sameCache, sameContent, codes⟩ :=
      Store.enter_frame log { s with group := group } p
    rw [sameGroup] at ok'
    refine planned.noted ok taken sameGroup ?_ ?_ ?_
    · rw [sameCache, sameContent]
      exact planned.flat
    · intro q pc other _
      exact undisturbed_of_eq sameCache sameContent (codes q other)
    · intro pc commits
      rcases (Group.step_cases taken).2.commit_of_pid commits with ⟨q, absurdity⟩ | ⟨-, rfl⟩
      · cases absurdity
      · refine ⟨plan.start _ _, ?_⟩
        exact follows_enter (s := { s with group := group }) ok' commits rest (plan.start _ _)
  | @commit p pc _ here committed => exact planned.commit ok here committed ok'

end Planned

end Xv6.Bio
