import Xv6.Bio.WriteAhead

/-!
# The buffer cache refines a flat disk

In every run a `bread` returns what its block was last given.  In the runs that
keep to write-ahead logging, moreover, a block of the transaction is written home
only by `install_trans`, when the header that lists it is on the disk, and a
commit changes nothing that a reader of a home block could see.
-/

open Function (update update_of_ne update_self)

namespace Xv6.Bio

open Ide (memIderw)

variable {Pid : Type} [DecidableEq Pid] [Fintype Pid] {log : Log}

/-! ## What is kept in runs with write-ahead logging -/

def Logging (log : Log) (s : Store Pid) : Prop :=
  ∀ q op passed n, s.group.pc q = .tested op passed n → log.Home n ∧ n < FSSIZE ∧
    ∃ b, s.arg q = some b ∧ s.cache.held q b ≠ none ∧ (s.cache.buf b).dev = 1 ∧
      (s.cache.buf b).blockno = n

structure Ahead (log : Log) (s : Store Pid) : Prop where
  planned : Planned (Plan.writeAhead log) s
  region : s.group.InRegion log
  home : ∀ n ∈ s.group.lh, log.Home n ∧ n < FSSIZE
  logging : Logging log s
  writers : Writers log s.cache s.group
  flushes : Flushes log s.cache

section Steps

variable {s after : Store Pid} {act : Act Pid}

omit [DecidableEq Pid] in
theorem Ahead.fits (ahead : Ahead log s) : Fits log s.group.lh :=
  ⟨ahead.home, (Group.length_le_card_claimed ahead.region.nodup).trans ahead.region.claimed⟩

omit [Fintype Pid] in
theorem Store.Move.group (move : s.Move log act after) :
    after.group = s.group ∨ ∃ lact, s.group.step log lact = some after.group ∧
      ∀ n ∈ lact.block?, ∃ p b, act = .logWrite p b ∧ n = (s.cache.buf b).blockno := by
  cases move with
  | inner _ advanced =>
    obtain ⟨cache, taken, rfl⟩ := advance_cases advanced
    exact .inl rfl
  | outer _ _ advanced =>
    obtain ⟨cache, taken, rfl⟩ := advance_cases advanced
    exact .inl rfl
  | @note _ lact _ isLog noted =>
    obtain ⟨group, taken, rfl⟩ := note_cases noted
    refine .inr ⟨lact, taken, ?_⟩
    cases act <;> cases isLog <;> exact nofun
  | @logWrite p b group uses taken =>
    refine .inr ⟨_, taken, fun n listed => ⟨p, b, rfl, ?_⟩⟩
    exact (Option.mem_some_iff.mp listed).symm
  | append _ advanced noted =>
    obtain ⟨cache, taken, rfl⟩ := advance_cases advanced
    obtain ⟨group, stepped, rfl⟩ := note_cases noted
    exact .inr ⟨_, stepped, nofun⟩
  | @endOp p mid _ noted =>
    obtain ⟨group, stepped, rfl⟩ := note_cases noted
    rw [(Store.enter_frame log _ p).1]
    exact .inr ⟨_, stepped, nofun⟩
  | @commit p pc _ here committed =>
    rcases Store.commit_cases committed with ⟨-, -, same⟩ | ⟨-, -, -, -, -, same⟩ | ⟨-, -, taken⟩
    · exact .inl same
    · exact .inl same
    · exact .inr ⟨_, taken, nofun⟩

omit [Fintype Pid] in
theorem mem_lh_of_step {group next : Group Pid} {lact : LogAct Pid}
    (stepped : group.Step log lact next) {n : Nat} (listed : n ∈ next.lh) :
    n ∈ group.lh ∨ ∃ q op passed, group.pc q = .tested op passed n ∧ lact = .append q := by
  cases stepped with
  | @append q op passed m control =>
    rcases mem_absorb.mp listed with old | rfl
    · exact .inl old
    · exact .inr ⟨q, op, passed, control, rfl⟩
  | @commit q pc control running =>
    rcases Group.commitStep_lh log group q pc with same | empty
    · exact .inl (same ▸ listed)
    · rw [empty] at listed
      cases listed
  | _ => exact .inl listed

omit [Fintype Pid] in
theorem tested_of_step {group next : Group Pid} {lact : LogAct Pid}
    (stepped : group.Step log lact next) {q : Pid} {op n : Nat} {passed : List Nat}
    (tested : next.pc q = .tested op passed n) :
    group.pc q = .tested op passed n ∨ lact = .logWrite q n := by
  have moved : ∀ p pc, update group.pc p pc q = .tested op passed n →
      pc ≠ .tested op passed n → group.pc q = .tested op passed n := by
    intro p pc after other
    by_cases same : q = p
    · subst same
      rw [update_self] at after
      exact absurd after other
    · rwa [update_of_ne same] at after
  have woken : ∀ {pc : LogPc}, (if pc = .asleep then .begin else pc) = .tested op passed n →
      pc = .tested op passed n := by
    intro pc after
    split at after
    · cases after
    · exact after
  cases stepped with
  | tooBig | outside | endPanic => exact .inl tested
  | @test p op' passed' m control =>
    by_cases same : q = p
    · subst same
      simp only [Group.setPc, update_self] at tested
      cases tested
      exact .inr rfl
    · simp only [Group.setPc, update_of_ne same] at tested
      exact .inl tested
  | @endLeave p =>
    refine .inl (moved p .out ?_ (by rintro ⟨⟩))
    exact woken tested
  | @finish p =>
    refine .inl (moved p .out ?_ (by rintro ⟨⟩))
    exact woken tested
  | @commit p pc control running =>
    obtain ⟨next, pcs⟩ := commitStep_pc log group p running
    rw [pcs] at tested
    exact .inl (moved _ _ tested (by rintro ⟨⟩))
  | _ => exact .inl (moved _ _ tested (by rintro ⟨⟩))

omit [Fintype Pid] in
theorem Logging.advance (logging : Logging log s) (flat : Flat s.cache s.content)
    {action : Action Pid} {mid : Store Pid} (advanced : s.advance action = some mid)
    (cache : after.cache = mid.cache)
    (group : after.group = s.group) (arg : after.arg = s.arg)
    (keeps : ∀ q op passed n b, s.group.pc q = .tested op passed n → action ≠ .brelse q b) :
    Logging log after := by
  obtain ⟨moved, taken, rfl⟩ := advance_cases advanced
  intro q op passed n tested
  rw [group] at tested
  obtain ⟨home, inside, b, isArg, holds, isDev, isBlock⟩ := logging q op passed n tested
  obtain ⟨sameDev, sameBlock⟩ := flat.intact.kept (memIderw_ok FSSIZE) taken
    (.inl ((flat.intact.busy b).mpr ⟨q, holds⟩))
  refine ⟨home, inside, b, by rw [arg, isArg], ?_, ?_, ?_⟩
  · rw [cache]
    exact (flat.step_cases taken).held_kept holds (keeps q op passed n b tested)
  · rw [cache]
    exact sameDev.trans isDev
  · rw [cache]
    exact sameBlock.trans isBlock

omit [Fintype Pid] in
theorem Logging.note (logging : Logging log s) (cache : after.cache = s.cache)
    (arg : after.arg = s.arg) {lact : LogAct Pid} (stepped : s.group.Step log lact after.group)
    (other : ∀ q n, lact ≠ .logWrite q n) : Logging log after := by
  intro q op passed n tested
  rw [cache, arg]
  rcases tested_of_step stepped tested with early | new
  · exact logging q op passed n early
  · exact absurd new (other q n)

omit [DecidableEq Pid] [Fintype Pid] in
theorem Store.not_tested_of_free {p : Pid} (free : s.free p = true) {op n : Nat}
    {passed : List Nat} : s.group.pc p ≠ .tested op passed n := by
  intro tested
  unfold Store.free at free
  rw [tested] at free
  cases free

omit [DecidableEq Pid] [Fintype Pid] in
theorem Store.atRest_iff {p : Pid} : s.atRest p = true ↔ ∃ result, s.cache.pc p = .out result := by
  unfold Store.atRest
  split
  next result out =>
    exact iff_of_true rfl ⟨result, out⟩
  next other =>
    exact iff_of_false nofun fun ⟨result, out⟩ => other result out

theorem Ahead.advanced (ahead : Ahead log s) {action : Action Pid} {mid : Store Pid}
    (planned : Planned (Plan.writeAhead log) after)
    (advanced : s.advance action = some mid) (cache : after.cache = mid.cache)
    (group : after.group = s.group) (arg : after.arg = s.arg)
    (keeps : ∀ q op passed n b, s.group.pc q = .tested op passed n → action ≠ .brelse q b)
    (gives : ∀ q b, action ≠ .logWrite q b)
    (writes : ∀ q b, action = .bwrite q b →
      (∃ pc, s.group.pc q = .commit pc ∧ Target log s.group.lh pc (s.cache.buf b).blockno) ∨
      (∀ pc, s.group.pc q ≠ .commit pc) ∧ log.Home (s.cache.buf b).blockno ∧
        (s.cache.buf b).blockno ∉ s.group.lh) : Ahead log after := by
  have flat := ahead.planned.flat
  refine ⟨planned, by rw [group]; exact ahead.region, by rw [group]; exact ahead.home,
    ahead.logging.advance flat advanced cache group arg keeps, ?_, ?_⟩ <;>
    obtain ⟨moved, taken, rfl⟩ := advance_cases advanced
  · rw [cache, group]
    exact ahead.writers.advance flat taken writes
  · rw [cache]
    exact ahead.flushes.advance flat taken fun q b same => absurd same (gives q b)

theorem Ahead.noted (ahead : Ahead log s) {lact : LogAct Pid}
    (planned : Planned (Plan.writeAhead log) after) (region : after.group.InRegion log)
    (home : ∀ n ∈ after.group.lh, log.Home n ∧ n < FSSIZE)
    (stepped : s.group.Step log lact after.group) (cache : after.cache = s.cache)
    (arg : after.arg = s.arg) (other : ∀ q n, lact ≠ .logWrite q n)
    (outside : ∀ q, lact ≠ .append q)
    (rest : (∃ p, lact = .endOp p) ∨ (∃ p, lact = .commit p) → s.atRest lact.pid = true) :
    Ahead log after := by
  refine ⟨planned, region, home, ahead.logging.note cache arg stepped other, ?_, ?_⟩
  · rw [cache]
    refine ahead.writers.note stepped ahead.planned.balanced ?_ ?_
    · intro moving b here
      obtain ⟨result, out⟩ := Store.atRest_iff.mp (rest moving)
      rw [out] at here
      cases here
    · intro p b _ _ absent listed
      rcases mem_lh_of_step stepped listed with old | ⟨q, -, -, -, appends⟩
      · exact absent old
      · exact outside q appends
  · rw [cache]
    exact ahead.flushes

theorem Ahead.step (ahead : Ahead log s) (stepped : s.step log act = some after)
    (allowed : s.WriteAhead log act) : Ahead log after := by
  have move := Store.step_cases stepped
  have flat := ahead.planned.flat
  have balanced := ahead.planned.balanced
  obtain ⟨region, home⟩ :
      after.group.InRegion log ∧ ∀ n ∈ after.group.lh, log.Home n ∧ n < FSSIZE := by
    rcases move.group with same | ⟨lact, taken, block⟩
    · rw [same]
      exact ⟨ahead.region, ahead.home⟩
    · have moved := (Group.step_cases taken).2
      refine ⟨ahead.region.step (fun n listed => ?_) moved, fun n listed => ?_⟩
      · obtain ⟨p, b, rfl, rfl⟩ := block n listed
        exact fun _ _ => allowed.2
      · rcases mem_lh_of_step moved listed with old | ⟨q, op, passed, tested, -⟩
        · exact ahead.home n old
        · obtain ⟨isHome, inside, -⟩ := ahead.logging q op passed n tested
          exact ⟨isHome, inside⟩
  have fits : Fits log after.group.lh :=
    ⟨home, (Group.length_le_card_claimed region.nodup).trans region.claimed⟩
  have spares : (Plan.writeAhead log).Spares s act := by
    cases act with
    | bwrite p b =>
      rintro (away | listed)
      · exact away allowed.1
      · exact allowed.2 listed
    | brelse p b => exact allowed
    | _ => trivial
  have planned := ahead.planned.step ahead.fits stepped fits spares
  cases move with
  | @inner _ action _ isInner advanced =>
    have frame : after.group = s.group ∧ after.arg = s.arg := by
      obtain ⟨cache, taken, rfl⟩ := advance_cases advanced
      exact ⟨rfl, rfl⟩
    refine ahead.advanced planned advanced rfl frame.1 frame.2 ?_ ?_ ?_ <;> cases act <;>
      cases isInner <;> exact nofun
  | @outer _ action _ isOuter free advanced =>
    have frame : after.group = s.group ∧ after.arg = s.arg := by
      obtain ⟨cache, taken, rfl⟩ := advance_cases advanced
      exact ⟨rfl, rfl⟩
    refine ahead.advanced planned advanced rfl frame.1 frame.2 ?_ ?_ ?_
    · rintro q op passed n b tested rfl
      exact Store.not_tested_of_free free tested
    · cases act <;> cases isOuter <;> exact nofun
    · rintro q b rfl
      cases act <;> cases isOuter
      exact .inr ⟨Store.not_commit_of_free free, allowed⟩
  | @note _ lact _ isLog noted =>
    obtain ⟨group, taken, rfl⟩ := note_cases noted
    refine ahead.noted planned region home (Group.step_cases taken).2 rfl rfl ?_ ?_ ?_
    · cases act <;> cases isLog <;> exact nofun
    · cases act <;> cases isLog <;> exact nofun
    · rintro (⟨p, rfl⟩ | ⟨p, rfl⟩) <;> cases act <;> cases isLog
  | @logWrite p b group uses taken =>
    have moved := (Group.step_cases taken).2
    obtain ⟨-, isDev, inside⟩ := flat.uses uses
    refine ⟨planned, region, home, ?_, ?_, ahead.flushes⟩
    · intro q op passed n tested
      by_cases same : q = p
      · subst same
        rcases tested_of_step moved tested with early | new
        · cases moved with
          | test control | tooBig control | outside control =>
            rw [early] at control
            cases control
        · cases new
          exact ⟨allowed.1, inside, b, update_self _ _ _, uses.2, isDev, rfl⟩
      · rcases tested_of_step moved tested with early | new
        · obtain ⟨isHome, small, c, isArg, rest⟩ := ahead.logging q op passed n early
          exact ⟨isHome, small, c, (update_of_ne same _ _).trans isArg, rest⟩
        · cases new
          exact absurd rfl same
    · refine ahead.writers.note moved balanced ?_ ?_
      · rintro (⟨q, absurdity⟩ | ⟨q, absurdity⟩) <;> cases absurdity
      · intro q c _ _ absent listed
        rcases mem_lh_of_step moved listed with old | ⟨r, -, -, -, absurdity⟩
        · exact absent old
        · cases absurdity
  | @append p b mid _ arg advanced noted =>
    obtain ⟨cache, given, rfl⟩ := advance_cases advanced
    obtain ⟨group, taken, rfl⟩ := note_cases noted
    have moved := (Group.step_cases taken).2
    obtain ⟨isHome, isBlock⟩ : log.Home (s.cache.buf b).blockno ∧
        ∀ n, (∃ op passed, s.group.pc p = .tested op passed n) → n = (s.cache.buf b).blockno := by
      have known : ∀ op passed n, s.group.pc p = .tested op passed n →
          log.Home n ∧ n = (s.cache.buf b).blockno := by
        intro op passed n tested
        obtain ⟨isHome, -, c, isArg, -, -, isBlock⟩ := ahead.logging p op passed n tested
        rw [arg] at isArg
        refine ⟨isHome, ?_⟩
        rw [← isBlock, Option.some.inj isArg]
      cases moved with
      | append control =>
        obtain ⟨isHome, same⟩ := known _ _ _ control
        exact ⟨same ▸ isHome, fun n ⟨op, passed, tested⟩ => (known op passed n tested).2⟩
    have flat' := flat.step given trivial
    have logging : Logging log
        { s with cache := cache, content := s.cache.give s.content (.logWrite p b) } :=
      ahead.logging.advance flat advanced rfl rfl rfl fun _ _ _ _ _ _ => nofun
    refine ⟨planned, region, home, logging.note rfl rfl moved nofun, ?_, ?_⟩
    · have writers := ahead.writers.advance flat given nofun
      refine writers.note moved balanced ?_ ?_
      · rintro (⟨q, absurdity⟩ | ⟨q, absurdity⟩) <;> cases absurdity
      · intro q c there _ absent listed
        rcases mem_lh_of_step moved listed with old | ⟨r, op, passed, tested, same⟩
        · exact absent old
        · cases same
          -- the block appended is that of a buffer which another process holds
          obtain ⟨holds, dirty, -⟩ := flat'.writing q c there
          cases flat.step_cases given with
          | logWrite uses =>
            have valid := flat'.dirty c dirty
            have other : c ≠ b := by
              rintro rfl
              obtain rfl := flat.intact.exclusive q p c holds uses.2
              obtain ⟨⟨result, out⟩, -⟩ := uses
              rw [show s.cache.pc q = _ from there] at out
              cases out
            dsimp only [Cache.setBuf] at valid tested
            rw [update_of_ne other] at valid
            have apart := flat.apart other (flat.uses uses).2.1 valid
            rw [update_of_ne other] at tested
            exact apart (isBlock _ ⟨op, passed, tested⟩)
    · refine ahead.flushes.advance flat given ?_
      rintro q c same
      cases same
      exact isHome
  | @endOp p mid rest noted =>
    obtain ⟨group, taken, rfl⟩ := note_cases noted
    obtain ⟨sameGroup, sameCache, -, -⟩ := Store.enter_frame log { s with group := group } p
    have moved : s.group.Step log (.endOp p)
        (Store.enter { s with group := group } log p).group := by
      rw [sameGroup]
      exact (Group.step_cases taken).2
    refine ahead.noted planned region home moved sameCache ?_ nofun nofun fun _ => rest
    unfold Store.enter
    split <;> rfl
  | @commit p pc _ here committed =>
    obtain ⟨arg, quiet | ⟨action, mid, own, advanced, cache, -, group, done⟩ |
        ⟨rest, cache, -, taken⟩⟩ :=
      ahead.planned.commit_cases here committed
    · obtain ⟨cache, -, group⟩ := quiet
      refine ⟨planned, region, home, ?_, by rw [cache, group]; exact ahead.writers,
        by rw [cache]; exact ahead.flushes⟩
      unfold Logging
      rw [cache, arg, group]
      exact ahead.logging
    · refine ahead.advanced planned advanced cache group arg ?_ ?_ ?_
      · rintro q op passed n b tested rfl
        obtain rfl : q = p := own
        rw [here] at tested
        cases tested
      · rintro q b rfl
        rcases done with quiet | ⟨c, known, absurdity, -⟩
        · exact (quiet q b).1 rfl
        · cases absurdity
      · rintro q b rfl
        rcases done with quiet | ⟨c, known, same, asked, -⟩
        · exact absurd rfl (quiet q b).2
        · cases same
          exact .inl ⟨pc, here, asked.1⟩
    · exact ahead.noted planned region home (Group.step_cases taken).2 cache arg nofun nofun
        fun _ => rest

end Steps

/-! ## Runs -/

/-- The states of the runs from a disk whose processes keep to a condition. -/
abbrev Store.Reached (log : Log) (disk : Disk) (allowed : Store Pid → Act Pid → Prop) :
    Store Pid → Prop :=
  Transition.Reachable (Store.step log) allowed (Store.init Pid disk)

section Runs

variable {disk : Disk} {s after : Store Pid} {act : Act Pid}

omit [DecidableEq Pid] in
theorem planned_init (plan : Plan log) (disk : Disk) : Planned plan (Store.init Pid disk) :=
  ⟨flat_binit disk, Group.balanced_init, fun _ _ => nofun, fun _ _ => nofun⟩

theorem Store.Reached.planned (run : Store.Reached log disk Store.Proper s) :
    Planned (Plan.trivial log) s := by
  refine run.invariant (Planned (Plan.trivial log)) (planned_init _ disk) ?_
  intro before act after planned proper stepped
  refine planned.step trivial stepped trivial ?_
  cases act with
  | brelse p b => exact proper
  | bwrite p b => exact id
  | _ => trivial

theorem Store.Reached.ahead (run : Store.Reached log disk (Store.WriteAhead log) s) :
    Ahead log s := by
  refine run.invariant (Ahead log) ?_ fun _ _ _ ahead allowed stepped => ahead.step stepped allowed
  refine ⟨planned_init _ disk, ⟨List.nodup_nil, ?_, nofun⟩, nofun, fun _ _ _ _ => nofun,
    fun _ _ => nofun, fun _ => nofun⟩
  change (Group.init Pid).claimed.card ≤ log.size - 1
  rw [Group.claimed_init]
  exact Nat.zero_le _

omit [Fintype Pid] in
theorem Store.Move.cache (move : s.Move log act after) :
    after.cache = s.cache ∧ after.content = s.content ∨
      ∃ action mid, s.advance action = some mid ∧ after.cache = mid.cache ∧
        after.content = mid.content := by
  cases move with
  | inner _ advanced => exact .inr ⟨_, _, advanced, rfl, rfl⟩
  | outer _ _ advanced => exact .inr ⟨_, _, advanced, rfl, rfl⟩
  | note _ noted =>
    obtain ⟨group, taken, rfl⟩ := note_cases noted
    exact .inl ⟨rfl, rfl⟩
  | logWrite => exact .inl ⟨rfl, rfl⟩
  | append _ advanced noted =>
    obtain ⟨group, stepped, rfl⟩ := note_cases noted
    exact .inr ⟨_, _, advanced, rfl, rfl⟩
  | @endOp p mid _ noted =>
    obtain ⟨group, stepped, rfl⟩ := note_cases noted
    obtain ⟨-, sameCache, sameContent, -⟩ := Store.enter_frame log { s with group := group } p
    exact .inl ⟨sameCache, sameContent⟩
  | @commit p pc _ here committed =>
    rcases Store.commit_cases committed with
      ⟨cache, content, -⟩ | ⟨action, mid, advanced, cache, content, -⟩ | ⟨cache, content, -⟩
    · exact .inl ⟨cache, content⟩
    · exact .inr ⟨action, mid, advanced, cache, content⟩
    · exact .inl ⟨cache, content⟩

omit [Fintype Pid] in
theorem bread_returns_given (flat : Flat s.cache s.content) (stepped : s.step log act = some after)
    {p : Pid} {dev n : Nat} (reads : s.cache.Reads p dev n) {result : Option BufId}
    (out : after.cache.pc p = .out result) :
    ∃ b, result = some b ∧ after.cache.held p b = some (dev, n) ∧ (after.cache.buf b).dev = dev ∧
      (after.cache.buf b).blockno = n ∧ (after.cache.buf b).data = after.content n := by
  rcases (Store.step_cases stepped).cache with ⟨cache, -⟩ | ⟨action, mid, advanced, cache, content⟩
  · rw [cache] at out
    unfold Cache.Reads at reads
    rw [out] at reads
    rcases reads with absurdity | ⟨c, absurdity⟩ | ⟨c, absurdity, -⟩ <;> cases absurdity
  · obtain ⟨moved, taken, rfl⟩ := advance_cases advanced
    rw [cache] at out
    obtain ⟨b, isSome, holds, isDev, isBlock, data, kept⟩ := flat.bread_returns taken reads out
    refine ⟨b, isSome, ?_⟩
    rw [cache, content]
    refine ⟨holds, isDev, isBlock, ?_⟩
    dsimp only
    rw [data, kept]

omit [Fintype Pid] in
theorem device_written (flat : Flat s.cache s.content)
    (stepped : s.step log act = some after) {n : Nat}
    (changed : after.cache.device n ≠ s.cache.device n) :
    ∃ p b, s.cache.pc p = .writing b ∧ (s.cache.buf b).blockno = n := by
  rcases (Store.step_cases stepped).cache with ⟨cache, -⟩ | ⟨action, mid, advanced, cache, -⟩
  · rw [cache] at changed
    exact absurd rfl changed
  · obtain ⟨moved, taken, rfl⟩ := advance_cases advanced
    rw [cache] at changed
    have moves := flat.step_cases taken
    dsimp only at changed
    cases moves with
    | @write p b here =>
      refine ⟨p, b, here, ?_⟩
      by_contra other
      exact changed (update_of_ne (Ne.symm other) _ _)
    | _ => exact absurd rfl changed

/-- While a block of the transaction is written home, the header is on the disk. -/
theorem Ahead.header (ahead : Ahead log s) {p : Pid} {b : BufId} (here : s.cache.pc p = .writing b)
    (listed : (s.cache.buf b).blockno ∈ s.group.lh) :
    (∃ tail, s.group.pc p = .commit (.install tail)) ∧
      decodeHead (s.cache.device log.start) = s.group.lh := by
  have isHome := (ahead.home _ listed).1
  obtain ⟨tail, commits⟩ : ∃ tail, s.group.pc p = .commit (.install tail) := by
    rcases ahead.writers p b here with ⟨pc, commits, target⟩ | ⟨-, -, absent⟩
    · cases pc with
      | writeLog tail =>
        rw [target.1] at isHome
        exact absurd isHome (not_home_slot ahead.fits target.2)
      | writeHead =>
        rw [show (s.cache.buf b).blockno = _ from target] at isHome
        exact absurd isHome not_home_start
      | eraseHead =>
        rw [show (s.cache.buf b).blockno = _ from target] at isHome
        exact absurd isHome not_home_start
      | install tail => exact ⟨tail, commits⟩
      | start | clear | done => exact target.elim
    · exact absurd listed absent
  refine ⟨⟨tail, commits⟩, ?_⟩
  have progress := ahead.planned.pre p _ commits
  -- no buffer of the header block is dirty: the only block on its way to the log
  -- region would be one of this process
  have current : s.cache.device log.start = s.content log.start := by
    refine ahead.planned.flat.clean _ fun c _ isStart => ?_
    by_contra dirty
    rw [Bool.not_eq_false] at dirty
    have away : ¬log.Home (s.cache.buf c).blockno := isStart ▸ not_home_start
    obtain ⟨q, there⟩ := ahead.flushes c dirty away
    rcases ahead.writers q c there with ⟨qc, alsoCommits, -⟩ | ⟨-, home, -⟩
    · obtain rfl := ahead.planned.only commits alsoCommits
      rw [here] at there
      cases there
      exact away isHome
    · exact away home
  rw [current]
  exact progress.2

theorem Ahead.commit_content (ahead : Ahead log s) {p : Pid}
    (stepped : s.step log (.commit p) = some after)
    {n : Nat} (isHome : log.Home n) : after.content n = s.content n := by
  cases Store.step_cases stepped with
  | inner absurdity => cases absurdity
  | outer absurdity => cases absurdity
  | note absurdity => cases absurdity
  | commit here committed =>
    obtain ⟨-, ⟨-, same, -⟩ | ⟨action, mid, -, advanced, -, content, -, done⟩ | ⟨-, -, same, -⟩⟩ :=
      ahead.planned.commit_cases here committed
    · rw [same]
    · obtain ⟨moved, taken, rfl⟩ := advance_cases advanced
      rw [content]
      rcases done with quiet | ⟨b, known, rfl, asked, same⟩
      · cases action with
        | logWrite q b => exact absurd rfl (quiet q b).1
        | bwrite q b => exact absurd rfl (quiet q b).2
        | _ => rfl
      · by_cases target : n = (s.cache.buf b).blockno
        · subst target
          dsimp only [Cache.give]
          rw [update_self, asked.2 isHome, same]
        · exact update_of_ne target _ _
    · rw [same]

/-- The buffer cache refines a flat disk.  In every run whose processes release
what they last gave or found, a `bread` returns what its block was last given.
If they keep to write-ahead logging, a block of the transaction on its way home
is written by `install_trans`, with the header on the disk; the disk changes only
where a block is on its way; and a commit gives nothing new to a home block. -/
theorem cache_refines_disk (run : Store.Reached log disk Store.Proper s) :
    (∀ act after, s.step log act = some after → ∀ p dev n result, s.cache.Reads p dev n →
      after.cache.pc p = .out result →
      ∃ b, result = some b ∧ after.cache.held p b = some (dev, n) ∧ (after.cache.buf b).dev = dev ∧
        (after.cache.buf b).blockno = n ∧ (after.cache.buf b).data = after.content n) ∧
    (Store.Reached log disk (Store.WriteAhead log) s →
      (∀ p b, s.cache.pc p = .writing b → (s.cache.buf b).blockno ∈ s.group.lh →
        (∃ tail, s.group.pc p = .commit (.install tail)) ∧
          decodeHead (s.cache.device log.start) = s.group.lh) ∧
      ∀ act after, s.step log act = some after →
        (∀ n, after.cache.device n ≠ s.cache.device n →
          ∃ p b, s.cache.pc p = .writing b ∧ (s.cache.buf b).blockno = n) ∧
        ∀ p, act = .commit p → ∀ n, log.Home n → after.content n = s.content n) := by
  refine ⟨fun act after stepped p dev n result reads out => ?_,
    fun disciplined => ⟨fun p b here listed => ?_, ?_⟩⟩
  · exact bread_returns_given run.planned.flat stepped reads out
  · exact disciplined.ahead.header here listed
  · intro act after stepped
    refine ⟨fun n changed => device_written run.planned.flat stepped changed, ?_⟩
    rintro p rfl n isHome
    exact disciplined.ahead.commit_content stepped isHome

/-- A process writes a block of its own transaction with `bwrite`. -/
def earlyWrite : List (Act (Fin 1)) :=
  [.call 0, .beginOp 0, .bread 0 1 100, .bget 0, .iderw 0, .modify 0 ⟨0, by decide⟩ fun _ => 9,
    .logWrite 0 ⟨0, by decide⟩, .append 0, .bwrite 0 ⟨0, by decide⟩]

/-- The block is about to be written home, and the header on the disk is empty. -/
def WrittenEarly (s : Store (Fin 1)) : Prop :=
  s.group.lh = [100] ∧ decodeHead (s.cache.device mkfsLog.start) = [] ∧
    ((s.step mkfsLog (.iderw 0)).any fun after =>
      decide (∃ i, after.cache.device 100 i ≠ s.cache.device 100 i)) = true

instance : DecidablePred WrittenEarly := fun _ => inferInstanceAs (Decidable (_ ∧ _ ∧ _))

def Act.releases {Pid : Type} : Act Pid → Bool
  | .brelse _ _ => true
  | _ => false

/-- Nothing keeps a process from writing a block of its transaction itself; then
it is on the disk before the header. -/
theorem block_written_before_header : ∃ s after : Store (Fin 1),
    Store.Reached mkfsLog (fun _ _ => 0) Store.Proper s ∧ s.step mkfsLog (.iderw 0) = some after ∧
    100 ∈ s.group.lh ∧ decodeHead (s.cache.device mkfsLog.start) ≠ s.group.lh ∧
    after.cache.device 100 ≠ s.cache.device 100 := by
  have found : ∃ s : Store (Fin 1), Store.Reached mkfsLog (fun _ _ => 0) Store.Proper s ∧
      WrittenEarly s := by
    refine Transition.Reachable.exists_of_run
      (fun _ act => !act.releases) ?_ WrittenEarly earlyWrite (by decide +kernel)
    intro s act checked
    cases act with
    | brelse p b => cases checked
    | _ => trivial
  obtain ⟨s, run, lh, empty, written⟩ := found
  cases stepped : s.step mkfsLog (.iderw 0) with
  | none =>
    rw [stepped] at written
    cases written
  | some after =>
    rw [stepped, Option.any_some, decide_eq_true_eq] at written
    obtain ⟨i, differs⟩ := written
    refine ⟨s, after, run, stepped, ?_, ?_, ?_⟩
    · rw [lh]
      exact List.mem_singleton_self 100
    · rw [lh, empty]
      exact (List.cons_ne_nil 100 []).symm
    · exact fun same => differs (congrFun same i)

/-- A transaction of block 100, and its commit up to the first transfer of
`install_trans`. -/
def oneCommit : List (Act (Fin 1)) :=
  [.call 0, .beginOp 0, .bread 0 1 100, .bget 0, .iderw 0, .modify 0 ⟨0, by decide⟩ fun _ => 9,
    .logWrite 0 ⟨0, by decide⟩, .append 0, .brelse 0 ⟨0, by decide⟩, .endOp 0, .commit 0,
    -- write_log
    .commit 0, .bget 0, .iderw 0, .commit 0, .commit 0, .bget 0, .commit 0, .commit 0,
    .commit 0, .commit 0, .iderw 0, .commit 0, .commit 0, .commit 0, .commit 0,
    -- write_head
    .commit 0, .bget 0, .iderw 0, .commit 0, .commit 0, .commit 0, .commit 0, .iderw 0,
    .commit 0, .commit 0,
    -- install_trans
    .commit 0, .bget 0, .commit 0, .commit 0, .bget 0, .commit 0, .commit 0, .commit 0, .commit 0]

def Installing (b : BufId) (s : Store (Fin 1)) : Prop :=
  s.cache.pc 0 = .writing b ∧ (s.cache.buf b).blockno = 100 ∧ s.group.lh = [100]

instance (b : BufId) : DecidablePred (Installing b) :=
  fun _ => inferInstanceAs (Decidable (_ ∧ _ ∧ _))

instance (s : Store Pid) (act : Act Pid) : Decidable (s.WriteAhead log act) :=
  match act with
  | .brelse _ _ => inferInstanceAs (Decidable (_ = _))
  | .bwrite _ _ => inferInstanceAs (Decidable ((_ ∨ _) ∧ _))
  | .logWrite _ _ => inferInstanceAs (Decidable ((_ ∨ _) ∧ _))
  | .bget _ | .rouse _ | .iderw _ | .bread _ _ _ | .modify _ _ _ | .call _ | .beginOp _ | .append _
  | .endOp _ | .commit _ | .finish _ => inferInstanceAs (Decidable True)

theorem cache_refines_disk_commit : ∃ (b : BufId) (s : Store (Fin 1)), Installing b s ∧
    decodeHead (s.cache.device mkfsLog.start) = [100] := by
  have found : ∃ s : Store (Fin 1),
      Store.Reached mkfsLog (fun _ _ => 0) (Store.WriteAhead mkfsLog) s ∧
      Installing ⟨0, by decide⟩ s :=
    Transition.Reachable.exists_of_run (fun s act => decide (s.WriteAhead mkfsLog act))
      (fun _ _ => of_decide_eq_true) _ oneCommit (by decide +kernel)
  obtain ⟨s, disciplined, installing⟩ := found
  have run : Store.Reached mkfsLog (fun _ _ => 0) Store.Proper s := by
    refine disciplined.mono fun s act allowed => ?_
    cases act with
    | brelse p b => exact allowed
    | _ => trivial
  obtain ⟨here, isBlock, lh⟩ := installing
  have header := ((cache_refines_disk run).2 disciplined).1 0 _ here
    (by rw [isBlock, lh]; exact List.mem_singleton_self 100)
  exact ⟨_, s, ⟨here, isBlock, lh⟩, header.2.trans lh⟩

end Runs

end Xv6.Bio
