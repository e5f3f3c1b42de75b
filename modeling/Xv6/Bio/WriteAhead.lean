import Xv6.Bio.Plan

/-!
# Write-ahead logging

The plan of `commit`: while it copies to the log the slots fill up with what the
blocks of the transaction were last given, the header makes them count, and what
`install_trans` then writes home is what was there before for every reader.  The
blocks protected by the plan are those of the log and of the transaction.
-/

open Function (update_eq_self update_idem update_of_ne update_self)

namespace Xv6.Bio

open Ide (memIderw)

/-- The slots below `count` hold what the blocks of the header were last given. -/
def Copied (log : Log) (lh : List Nat) (count : Nat) (content : Disk) : Prop :=
  ∀ i n, i < count → lh[i]? = some n → content (log.start + i + 1) = content n

/-- The blocks that `commit` writes at each place of its text. -/
def Target (log : Log) (lh : List Nat) : CommitPc → Nat → Prop
  | .writeLog tail, n => n = log.start + tail + 1 ∧ tail < lh.length
  | .writeHead, n | .eraseHead, n => n = log.start
  | .install tail, n => lh[tail]? = some n
  | _, _ => False

def Progress (log : Log) (lh : List Nat) : CommitPc → Disk → Prop
  | .writeLog tail, content => Copied log lh tail content
  | .writeHead, content => Copied log lh lh.length content
  | .install _, content => Copied log lh lh.length content ∧ decodeHead (content log.start) = lh
  | .clear, content => decodeHead (content log.start) = lh
  | _, _ => True

/-- A header that fits the log and lists blocks outside it. -/
structure Fits (log : Log) (lh : List Nat) : Prop where
  home : ∀ n ∈ lh, log.Home n ∧ n < FSSIZE
  length : lh.length ≤ log.size - 1

section Contents

variable {log : Log} {lh : List Nat} {content other : Disk} {count n i : Nat}

theorem not_home_slot (fits : Fits log lh) (inside : i < lh.length) :
    ¬log.Home (log.start + i + 1) := by
  have room := fits.length
  unfold Log.Home
  omega

theorem not_home_start : ¬log.Home log.start := by
  have positive := log.size_pos
  unfold Log.Home
  omega

theorem Copied.congr (fits : Fits log lh) (copied : Copied log lh count content)
    (same : ∀ n, ¬log.Home n ∨ n ∈ lh → other n = content n) : Copied log lh count other := by
  intro i n below entry
  have inside : i < lh.length := (List.getElem?_eq_some_iff.mp entry).1
  rw [same _ (.inl (not_home_slot fits inside)), same n (.inr (List.mem_of_getElem? entry))]
  exact copied i n below entry

theorem Copied.snoc (fits : Fits log lh) (copied : Copied log lh count content)
    (entry : lh[count]? = some n) :
    Copied log lh (count + 1) (Function.update content (log.start + count + 1) (content n)) := by
  intro i m below isEntry
  have apart : ∀ {j k : Nat}, lh[j]? = some k → k ≠ log.start + count + 1 := by
    intro j k listed same
    have inside : count < lh.length := (List.getElem?_eq_some_iff.mp entry).1
    exact not_home_slot fits inside (same ▸ (fits.home k (List.mem_of_getElem? listed)).1)
  rw [update_of_ne (apart isEntry)]
  by_cases last : i = count
  · subst last
    rw [update_self]
    rw [entry] at isEntry
    rw [Option.some.inj isEntry]
  · rw [update_of_ne (by omega)]
    exact copied i m (by omega) isEntry

theorem Copied.update (fits : Fits log lh) (copied : Copied log lh count content) {data : Block}
    (away : ¬log.Home n) (free : ∀ i, i < count → n ≠ log.start + i + 1) :
    Copied log lh count (Function.update content n data) := by
  intro i m below entry
  rw [update_of_ne (free i below).symm, update_of_ne]
  · exact copied i m below entry
  · rintro rfl
    exact away (fits.home m (List.mem_of_getElem? entry)).1

theorem decodeHead_encode (fits : Fits log lh) (data : Block) :
    decodeHead (encodeHead data lh) = lh := by
  refine decodeHead_encodeHead data lh (fits.length.trans log.size_le) fun n listed => ?_
  have inside := (fits.home n listed).2
  unfold FSSIZE at inside
  omega

theorem progress_congr (fits : Fits log lh) (pc : CommitPc)
    (same : ∀ n, ¬log.Home n ∨ n ∈ lh → other n = content n)
    (progress : Progress log lh pc content) : Progress log lh pc other := by
  have head : other log.start = content log.start := same _ (.inl not_home_start)
  cases pc with
  | writeLog tail => exact Copied.congr fits progress same
  | writeHead => exact Copied.congr fits progress same
  | install tail =>
    refine ⟨Copied.congr fits progress.1 same, ?_⟩
    rw [head]
    exact progress.2
  | clear =>
    dsimp only [Progress] at progress ⊢
    rw [head]
    exact progress
  | _ => trivial

theorem progress_update (fits : Fits log lh) {pc : CommitPc} {data : Block}
    (target : Target log lh pc n) (home : log.Home n → data = content n)
    (progress : Progress log lh pc content) :
    Progress log lh pc (Function.update content n data) := by
  cases pc with
  | writeLog tail =>
    obtain ⟨rfl, inside⟩ := target
    exact Copied.update fits progress (not_home_slot fits inside) fun i below => by omega
  | writeHead =>
    obtain rfl : n = log.start := target
    exact Copied.update fits progress not_home_start fun i below => by omega
  | install tail =>
    have isHome := (fits.home n (List.mem_of_getElem? target)).1
    rw [home isHome, update_eq_self]
    exact progress
  | clear => exact target.elim
  | _ => trivial

end Contents

section Turns

variable {log : Log} {lh : List Nat}

theorem ready_writeAhead (pc : CommitPc) (v : View) (fits : Fits log lh)
    (progress : Progress log lh pc v.content) :
    Ready (fun n => ¬log.Home n ∨ n ∈ lh)
      (fun n data content => Target log lh pc n ∧ (log.Home n → data = content n))
      (Progress log (nextLh lh pc) (nextPc lh pc)) (turn log lh pc) v := by
  cases pc with
  | start =>
    change Progress log lh (if 0 < lh.length then .writeLog 0 else .done) v.content
    split
    · exact fun i n below => absurd below (Nat.not_lt_zero i)
    · trivial
  | writeLog tail =>
    dsimp only [turn]
    split
    next n entry =>
      have inside : tail < lh.length := (List.getElem?_eq_some_iff.mp entry).1
      have away := not_home_slot fits inside
      refine ready_writeLogTurn log fun old data oldKnown dataKnown => ?_
      rw [oldKnown (.inl away), update_eq_self] at dataKnown
      rw [oldKnown (.inl away), update_eq_self, dataKnown (.inr (List.mem_of_getElem? entry)),
        update_eq_self]
      refine ⟨⟨⟨rfl, inside⟩, fun isHome => absurd isHome away⟩, ?_⟩
      dsimp only [nextPc, nextLh]
      rw [if_pos inside]
      exact Copied.snoc fits progress entry
    next none =>
      have full := List.getElem?_eq_none_iff.mp none
      change Progress log lh
        (if tail < lh.length then .writeLog (tail + 1) else .writeHead) v.content
      rw [if_neg (Nat.not_lt.mpr full)]
      intro i n below entry
      exact progress i n (by omega) entry
  | writeHead =>
    refine ready_writeHeadTurn log
      fun data => ⟨⟨rfl, fun isHome => absurd isHome not_home_start⟩, ?_⟩
    rw [update_idem]
    refine ⟨Copied.update fits progress not_home_start fun i below => by omega, ?_⟩
    rw [update_self]
    exact decodeHead_encode fits data
  | install tail =>
    dsimp only [turn]
    split
    next n entry =>
      have inside : tail < lh.length := (List.getElem?_eq_some_iff.mp entry).1
      have away := not_home_slot fits inside
      have copied := progress.1 tail n inside entry
      refine ready_installTurn log fun data old dataKnown oldKnown => ?_
      rw [dataKnown (.inl away), update_eq_self] at oldKnown
      rw [dataKnown (.inl away), update_eq_self, oldKnown (.inr (List.mem_of_getElem? entry)),
        update_eq_self, copied, update_eq_self]
      refine ⟨⟨entry, fun _ => rfl⟩, ?_⟩
      dsimp only [nextPc, nextLh]
      rw [if_pos inside]
      exact progress
    next none =>
      have full := List.getElem?_eq_none_iff.mp none
      change Progress log lh (if tail < lh.length then .install (tail + 1) else .clear) v.content
      rw [if_neg (Nat.not_lt.mpr full)]
      exact progress.2
  | clear => trivial
  | eraseHead =>
    refine ready_writeHeadTurn log
      fun data => ⟨⟨rfl, fun isHome => absurd isHome not_home_start⟩, ?_⟩
    trivial
  | done => trivial

def Plan.writeAhead (log : Log) : Plan log where
  prot lh n := ¬log.Home n ∨ n ∈ lh
  guar lh pc n data content := Target log lh pc n ∧ (log.Home n → data = content n)
  pre := Progress log
  ok := Fits log
  within lh pc n := by
    cases pc with
    | clear => exact fun known => known.imp id nofun
    | _ => exact id
  start _ _ := True.intro
  turns _ pc v fits progress := ready_writeAhead pc v fits progress
  depends _ pc _ _ fits same progress := progress_congr fits pc same progress
  stable _ _ _ _ _ _ fits guar same progress :=
    progress_update fits guar.1 (fun isHome => (guar.2 isHome).trans same) progress

end Turns

/-! ## Who writes what -/

section Writers

variable {Pid : Type} [DecidableEq Pid] {log : Log}

/-- A block on its way to the disk is one that `commit` writes at this place, or
one that is neither in the log nor in the transaction. -/
def Writers (log : Log) (cache : Cache Pid Disk) (group : Group Pid) : Prop :=
  ∀ p b, cache.pc p = .writing b →
    (∃ pc, group.pc p = .commit pc ∧ Target log group.lh pc (cache.buf b).blockno) ∨
    (∀ pc, group.pc p ≠ .commit pc) ∧ log.Home (cache.buf b).blockno ∧
      (cache.buf b).blockno ∉ group.lh

/-- A dirty buffer of the log is on its way to the disk. -/
def Flushes (log : Log) (cache : Cache Pid Disk) : Prop :=
  ∀ b, (cache.buf b).dirty = true → ¬log.Home (cache.buf b).blockno → ∃ p, cache.pc p = .writing b

variable {cache moved : Cache Pid Disk} {content : Disk} {action : Action Pid}
  {p q : Pid} {b : BufId}

theorem Moves.writing (moves : Moves cache action moved) (here : moved.pc p = .writing b) :
    cache.pc p = .writing b ∨ action = .bwrite p b := by
  by_cases own : p = action.pid
  · cases moves with
    | @bwrite q c uses =>
      obtain rfl : p = q := own
      dsimp only [Cache.setPc] at here
      rw [update_self] at here
      cases here
      exact .inr rfl
    | modify uses => exact .inl here
    | logWrite uses => exact .inl here
    | brelse uses => exact .inl (Pc.wakeup_writing.mp here)
    | @hit q d m c =>
      obtain rfl : p = q := own
      dsimp only [Cache.getBuf, Cache.setPc] at here
      rw [update_self] at here
      split at here <;> cases here
    | @miss q d m c =>
      obtain rfl : p = q := own
      dsimp only [Cache.getBuf, Cache.setPc] at here
      rw [update_self] at here
      cases here
    | _ =>
      obtain rfl := own
      dsimp only [Cache.setPc, Action.pid] at here
      rw [update_self] at here
      cases here
  · rcases moves.pc_of_ne own with same | ⟨c, same⟩
    · exact .inl (same ▸ here)
    · exact .inl (Pc.wakeup_writing.mp (same ▸ here))

theorem Moves.still_writing (moves : Moves cache action moved) (here : cache.pc p = .writing b)
    (other : action ≠ .iderw p) : moved.pc p = .writing b := by
  by_cases own : p = action.pid
  · cases moves with
    | modify uses => exact here
    | logWrite uses => exact here
    | brelse uses => exact Pc.wakeup_writing.mpr here
    | read | write => exact absurd (by rw [own]; rfl) other
    | bwrite uses =>
      obtain rfl := own
      obtain ⟨⟨result, out⟩, -⟩ := uses
      rw [show cache.pc _ = _ from here] at out
      cases out
    | call early =>
      obtain rfl := own
      rw [show cache.pc _ = _ from here] at early
      cases early
    | sleep early =>
      obtain rfl := own
      rw [show cache.pc _ = _ from here] at early
      cases early
    | rouse early =>
      obtain rfl := own
      rw [show cache.pc _ = _ from here] at early
      cases early
    | hit early =>
      obtain rfl := own
      rw [show cache.pc _ = _ from here] at early
      cases early
    | miss early =>
      obtain rfl := own
      rw [show cache.pc _ = _ from here] at early
      cases early
  · rcases moves.pc_of_ne own with same | ⟨c, same⟩
    · rw [same, here]
    · rw [same, here]
      rfl

theorem Moves.dirty (moves : Moves cache action moved) (dirty : (moved.buf b).dirty = true) :
    ((cache.buf b).dirty = true ∧ ∀ p, cache.pc p = .writing b → action ≠ .iderw p) ∨
      ∃ p, action = .logWrite p b ∨ action = .bwrite p b := by
  have updated : ∀ c buf, moved.buf = Function.update cache.buf c buf →
      (b = c → buf.dirty = true → (cache.buf c).dirty = true) → (cache.buf b).dirty = true := by
    intro c buf bufs same
    rw [bufs] at dirty
    by_cases here : b = c
    · subst here
      rw [update_self] at dirty
      exact same rfl dirty
    · rwa [update_of_ne here] at dirty
  cases moves with
  | @logWrite q c uses =>
    by_cases here : b = c
    · exact .inr ⟨q, .inl (by rw [here])⟩
    · exact .inl ⟨updated c _ rfl fun same => absurd same here, fun _ _ => nofun⟩
  | @bwrite q c uses =>
    by_cases here : b = c
    · exact .inr ⟨q, .inr (by rw [here])⟩
    · exact .inl ⟨updated c _ rfl fun same => absurd same here, fun _ _ => nofun⟩
  | @hit q d m c => exact .inl ⟨updated c _ rfl fun _ => id, fun _ _ => nofun⟩
  | @miss q d m c =>
    exact .inl ⟨updated c _ rfl (fun _ absurdity => by cases absurdity), fun _ _ => nofun⟩
  | @read q c here =>
    refine .inl ⟨updated c _ rfl fun _ => id, ?_⟩
    intro p there same
    cases same
    rw [here] at there
    cases there
  | @write q c here =>
    refine .inl ⟨updated c _ rfl (fun _ absurdity => by cases absurdity), ?_⟩
    intro p there same
    cases same
    rw [here] at there
    cases there
    dsimp only [Cache.setPc, Cache.setBuf] at dirty
    rw [update_self] at dirty
    cases dirty
  | @modify q c data uses => exact .inl ⟨updated c _ rfl fun _ => id, fun _ _ => nofun⟩
  | @brelse q c uses => exact .inl ⟨updated c _ rfl fun _ => id, fun _ _ => nofun⟩
  | _ => exact .inl ⟨dirty, fun _ _ => nofun⟩

theorem Moves.held_kept (moves : Moves cache action moved) (holds : cache.held q b ≠ none)
    (kept : action ≠ .brelse q b) : moved.held q b ≠ none := by
  cases moves with
  | @hit p d m c =>
    by_cases same : q = p ∧ b = c
    · rw [same.1, same.2, getBuf_held_self]
      exact Option.some_ne_none _
    · rwa [getBuf_held_ne same]
  | @miss p d m c =>
    by_cases same : q = p ∧ b = c
    · rw [same.1, same.2, getBuf_held_self]
      exact Option.some_ne_none _
    · rwa [getBuf_held_ne same]
  | @brelse p c uses =>
    dsimp only
    rw [update_held, if_neg]
    · exact holds
    · rintro ⟨rfl, rfl⟩
      exact kept rfl
  | _ => exact holds

theorem Writers.advance {group : Group Pid} (writers : Writers log cache group)
    (flat : Flat cache content) (taken : step (memIderw FSSIZE) cache action = some moved)
    (new : ∀ p b, action = .bwrite p b →
      (∃ pc, group.pc p = .commit pc ∧ Target log group.lh pc (cache.buf b).blockno) ∨
      (∀ pc, group.pc p ≠ .commit pc) ∧ log.Home (cache.buf b).blockno ∧
        (cache.buf b).blockno ∉ group.lh) : Writers log moved group := by
  have moves := flat.step_cases taken
  intro p b here
  have kept : ∀ {b}, cache.held p b ≠ none → (moved.buf b).blockno = (cache.buf b).blockno :=
    fun holds => (flat.intact.kept (memIderw_ok FSSIZE) taken
      (.inl ((flat.intact.busy _).mpr ⟨p, holds⟩))).2
  rcases moves.writing here with early | rfl
  · rw [kept (flat.writing p b early).1]
    exact writers p b early
  · cases moves with
    | bwrite uses =>
      rw [kept uses.2]
      exact new p b rfl

theorem Flushes.advance (flushes : Flushes log cache) (flat : Flat cache content)
    (taken : step (memIderw FSSIZE) cache action = some moved)
    (home : ∀ p b, action = .logWrite p b → log.Home (cache.buf b).blockno) :
    Flushes log moved := by
  have moves := flat.step_cases taken
  intro b dirty away
  rcases moves.dirty dirty with ⟨early, apart⟩ | ⟨p, rfl | rfl⟩
  · have kept := (flat.intact.kept (memIderw_ok FSSIZE) taken (.inr early)).2
    rw [kept] at away
    obtain ⟨p, here⟩ := flushes b early away
    exact ⟨p, moves.still_writing here (apart p here)⟩
  · cases moves with
    | logWrite uses =>
      have kept := (flat.intact.kept (memIderw_ok FSSIZE) taken
        (.inl ((flat.intact.busy _).mpr ⟨p, uses.2⟩))).2
      rw [kept] at away
      exact absurd (home p b rfl) away
  · cases moves with
    | bwrite uses => exact ⟨p, update_self _ _ _⟩

variable [Fintype Pid]

theorem Writers.note {group after : Group Pid} {act : LogAct Pid}
    (writers : Writers log cache group) (stepped : group.Step log act after)
    (balanced : group.Balanced)
    (quiet : (∃ p, act = .endOp p) ∨ (∃ p, act = .commit p) → ∀ b, cache.pc act.pid ≠ .writing b)
    (fresh : ∀ p b, cache.pc p = .writing b → (∀ pc, group.pc p ≠ .commit pc) →
      (cache.buf b).blockno ∉ group.lh → (cache.buf b).blockno ∉ after.lh) :
    Writers log cache after := by
  intro p b here
  by_cases own : p = act.pid
  · subst own
    have notCommit : ∀ pc, after.pc act.pid ≠ .commit pc := by
      intro pc commits
      rcases stepped.commit_of_pid commits with early | ⟨late, -⟩
      · exact quiet (.inr early) b here
      · exact quiet (.inl late) b here
    rcases writers _ b here with ⟨pc, commits, target⟩ | ⟨outside, home, absent⟩
    · rcases stepped.committing_moves commits with early | rfl
      · exact absurd here (quiet (.inr early) b)
      · exact target.elim
    · exact .inr ⟨notCommit, home, fresh _ b here outside absent⟩
  · rcases writers p b here with ⟨pc, commits, target⟩ | ⟨outside, home, absent⟩
    · have still := stepped.commit_still balanced own commits
      rw [← (stepped.commit_of_ne balanced own still).2] at target
      exact .inl ⟨pc, still, target⟩
    · refine .inr ⟨fun pc commits => ?_, home, fresh p b here outside absent⟩
      exact outside pc (stepped.commit_of_ne balanced own commits).1

end Writers

end Xv6.Bio
