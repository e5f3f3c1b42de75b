import Mathlib.Data.List.Nodup
import Xv6.Log.Disk

/-!
# Crash atomicity of the log

The crash condition is `Recoverable`: replaying the log that is on the disk
would give the home blocks their committed contents.  Log writes keep it while
the header is empty, the header write advances it by one whole transaction,
and each install only does part of the replay early, so repeating the replay
from any of its own intermediate states ends in the same place.
-/

open Function (update update_of_ne update_self)

namespace Xv6

/-! ## Sequences of block writes -/

def applyWrites : Writes → Disk → Disk
  | [], disk => disk
  | write :: rest, disk => applyWrites rest (update disk write.1 write.2)

def applyAll (disk : Disk) : List Writes → Disk
  | [] => disk
  | writes :: rest => applyAll (applyWrites writes disk) rest

theorem applyAll_append (disk : Disk) (first : List Writes) (last : Writes) :
    applyAll disk (first ++ [last]) = applyWrites last (applyAll disk first) := by
  induction first generalizing disk with
  | nil => rfl
  | cons writes rest ih => exact ih _

theorem applyWrites_congr (writes : Writes) {left right : Disk} {blockno : Nat}
    (agree : (∃ write ∈ writes, write.1 = blockno) ∨ left blockno = right blockno) :
    applyWrites writes left blockno = applyWrites writes right blockno := by
  induction writes generalizing left right with
  | nil => simpa [applyWrites] using agree
  | cons write rest ih =>
    apply ih
    by_cases here : write.1 = blockno
    · right
      subst here
      simp
    · rcases agree with ⟨other, membership, target⟩ | same
      · left
        rcases List.mem_cons.mp membership with equality | inRest
        · exact absurd (equality ▸ target) here
        · exact ⟨other, inRest, target⟩
      · right
        rw [update_of_ne (Ne.symm here), update_of_ne (Ne.symm here)]
        exact same

/-! ## Replaying the log -/

def installWrites (log : Log) (disk : Disk) : (tail : Nat) → List Nat → Writes
  | _, [] => []
  | tail, blockno :: rest =>
    (blockno, disk (log.start + tail + 1)) :: installWrites log disk (tail + 1) rest

theorem exists_installWrites (log : Log) (disk : Disk) (tail : Nat) {lh : List Nat}
    {blockno : Nat} (membership : blockno ∈ lh) :
    ∃ write ∈ installWrites log disk tail lh, write.1 = blockno := by
  induction lh generalizing tail with
  | nil => simp at membership
  | cons head rest ih =>
    rcases List.mem_cons.mp membership with equality | inRest
    · exact ⟨_, List.mem_cons_self, equality.symm⟩
    · rcases ih (tail + 1) inRest with ⟨write, found, target⟩
      exact ⟨write, List.mem_cons_of_mem _ found, target⟩

theorem installWrites_congr (log : Log) {left right : Disk} (tail : Nat) (lh : List Nat)
    (agree : ∀ k, tail ≤ k → k < tail + lh.length →
      left (log.start + k + 1) = right (log.start + k + 1)) :
    installWrites log left tail lh = installWrites log right tail lh := by
  induction lh generalizing tail with
  | nil => rfl
  | cons blockno rest ih =>
    simp only [List.length_cons] at agree
    rw [installWrites, installWrites, agree tail (by omega) (by omega),
      ih (tail + 1) fun k lower upper => agree k (by omega) (by omega)]

theorem installWrites_eq (log : Log) (disk : Disk) (tail : Nat) (writes : Writes)
    (logged : ∀ k (bound : k < writes.length), disk (log.start + (tail + k) + 1) = writes[k].2) :
    installWrites log disk tail (writes.map Prod.fst) = writes := by
  induction writes generalizing tail with
  | nil => rfl
  | cons write rest ih =>
    have first := logged 0 (by simp)
    have others := ih (tail + 1) fun k bound => by
      have shifted := logged (k + 1) (by simpa using bound)
      rw [show tail + 1 + k = tail + (k + 1) by omega]
      exact shifted
    simp only [List.map_cons, installWrites, others]
    rw [show log.start + tail + 1 = log.start + (tail + 0) + 1 by omega, first]
    rfl

def loggedWrites (log : Log) (disk : Disk) : Writes :=
  installWrites log disk 0 (decodeHead (disk log.start))

/-- What the disk would be after a complete recovery, header aside. -/
def replay (log : Log) (disk : Disk) : Disk := applyWrites (loggedWrites log disk) disk

/-- The header names home blocks only and has a log block for each. -/
structure HeadOk (log : Log) (disk : Disk) : Prop where
  home : ∀ blockno ∈ decodeHead (disk log.start), log.Home blockno
  fits : (decodeHead (disk log.start)).length < log.size

theorem loggedWrites_congr {log : Log} {left right : Disk} (ok : HeadOk log left)
    (agree : ∀ k, k < log.size → left (log.start + k) = right (log.start + k)) :
    loggedWrites log left = loggedWrites log right := by
  have header : left log.start = right log.start := agree 0 log.size_pos
  unfold loggedWrites
  rw [← header]
  apply installWrites_congr
  intro k _ upper
  have fits := ok.fits
  exact agree (k + 1) (by omega)

/-- The crash condition: replaying the log gives every home block the contents
of the committed transactions. -/
structure Recoverable (log : Log) (initial : Disk) (machine : Machine) : Prop where
  head : HeadOk log machine.disk
  replayed : ∀ blockno, log.Home blockno →
    replay log machine.disk blockno = applyAll initial machine.committed blockno

/-- The log is empty, and the home blocks hold the committed transactions. -/
structure Quiet (log : Log) (initial : Disk) (machine : Machine) : Prop where
  empty : (machine.disk log.start).word 0 = 0
  home : ∀ blockno, log.Home blockno →
    machine.disk blockno = applyAll initial machine.committed blockno

/-- Between transactions no buffer is pinned either. -/
structure Idle (log : Log) (initial : Disk) (machine : Machine) : Prop
    extends Quiet log initial machine where
  clean : ∀ blockno, machine.dirty blockno = none

theorem Quiet.recoverable {log : Log} {initial : Disk} {machine : Machine}
    (quiet : Quiet log initial machine) : Recoverable log initial machine := by
  have none : decodeHead (machine.disk log.start) = [] := by
    simp [decodeHead, headLength_eq_zero quiet.empty]
  refine ⟨⟨by simp [none], by simpa [none] using log.size_pos⟩, ?_⟩
  intro blockno home
  simp only [replay, loggedWrites, none, installWrites, applyWrites]
  exact quiet.home blockno home

/-! ## One block write -/

section Step

variable (log : Log) (machine : Machine) (blockno : Nat) (data : Block)

@[simp]
theorem write_disk :
    (machine.write log blockno data).disk = update machine.disk blockno data := rfl

@[simp]
theorem write_dirty :
    (machine.write log blockno data).dirty = update machine.dirty blockno none := rfl

theorem write_quiet (quiet : blockno ≠ log.start ∨ headLength data = 0) :
    (machine.write log blockno data).committed = machine.committed ∧
      (machine.write log blockno data).pending = machine.pending := by
  have same : machine.noteWrite log blockno data = machine := by
    unfold Machine.noteWrite
    rw [if_neg]
    rintro ⟨isHead, positive⟩
    rcases quiet with other | empty
    · exact other isHead
    · omega
  simp [Machine.write, same]

theorem write_head (positive : 0 < headLength data) :
    (machine.write log log.start data).committed =
      machine.committed ++ machine.pending.toList ∧
    (machine.write log log.start data).pending = none := by
  simp [Machine.write, Machine.noteWrite, positive]

theorem safe_bread {α : Type} {crash : Machine → Prop} {post : α → Machine → Prop}
    {next : Block → BufM α} :
    (Prog.call (BufOp.bread blockno) next).Safe (Machine.step log) crash post machine ↔
      crash machine ∧ (next (machine.read blockno)).Safe (Machine.step log) crash post machine :=
  Prog.safe_call

theorem safe_bwrite {α : Type} {crash : Machine → Prop} {post : α → Machine → Prop}
    {next : Unit → BufM α} :
    (Prog.call (BufOp.bwrite blockno data) next).Safe (Machine.step log) crash post machine ↔
      crash machine ∧
        (next ()).Safe (Machine.step log) crash post (machine.write log blockno data) :=
  Prog.safe_call

end Step

/-- A write that leaves the log region alone and, at home blocks, does not
change the replayed contents keeps the crash condition. -/
theorem Recoverable.step_home {log : Log} {initial : Disk} {machine : Machine}
    (recoverable : Recoverable log initial machine) {blockno : Nat} {data : Block}
    (home : log.Home blockno)
    (logged : ∃ write ∈ loggedWrites log machine.disk, write.1 = blockno) :
    Recoverable log initial (machine.write log blockno data) := by
  have region : ∀ k, k < log.size →
      machine.disk (log.start + k) =
        update machine.disk blockno data (log.start + k) := by
    intro k inside
    rw [update_of_ne (home.ne_slot inside).symm]
  have header : machine.disk log.start =
      update machine.disk blockno data log.start := region 0 log.size_pos
  have writes := loggedWrites_congr recoverable.head region
  have committed := (write_quiet log machine blockno data
    (.inl home.ne_start)).1
  refine ⟨⟨?_, ?_⟩, ?_⟩
  · rw [write_disk, ← header]
    exact recoverable.head.home
  · rw [write_disk, ← header]
    exact recoverable.head.fits
  · intro other otherHome
    rw [committed, ← recoverable.replayed other otherHome]
    unfold replay
    rw [write_disk, ← writes]
    apply applyWrites_congr
    by_cases target : other = blockno
    · exact .inl (target ▸ logged)
    · exact .inr (update_of_ne target _ _)

/-! ## Installing -/

structure Installed (log : Log) (initial : Disk) (before : Machine) (tail : Nat)
    (rest : List Nat) (after : Machine) : Prop where
  recoverable : Recoverable log initial after
  disk : after.disk = applyWrites (installWrites log before.disk tail rest) before.disk
  dirty : ∀ blockno, after.dirty blockno =
    if blockno ∈ rest then none else before.dirty blockno
  committed : after.committed = before.committed
  pending : after.pending = before.pending

theorem installFrom_safe (log : Log) (initial : Disk) (rest : List Nat) (tail : Nat)
    (machine : Machine) (recoverable : Recoverable log initial machine)
    (header : (decodeHead (machine.disk log.start)).drop tail = rest)
    (clean : ∀ k, k < log.size → machine.dirty (log.start + k) = none) :
    (installFrom log tail rest).Safe (Machine.step log) (Recoverable log initial)
      (fun _ => Installed log initial machine tail rest) machine := by
  induction rest generalizing tail machine with
  | nil =>
    exact Prog.safe_ret.mpr ⟨recoverable, ⟨recoverable, rfl, by simp, rfl, rfl⟩⟩
  | cons blockno rest ih =>
    have bound : tail < (decodeHead (machine.disk log.start)).length := by
      by_contra past
      simp [List.drop_eq_nil_of_le (Nat.le_of_not_lt past)] at header
    have listed : blockno ∈ decodeHead (machine.disk log.start) :=
      List.mem_of_mem_drop (header ▸ List.mem_cons_self)
    have home := recoverable.head.home blockno listed
    have fits := recoverable.head.fits
    have slot : machine.dirty (log.start + tail + 1) = none := clean (tail + 1) (by omega)
    set data := machine.disk (log.start + tail + 1) with dataDef
    set written := (machine.write log blockno data) with writtenDef
    have kept : Recoverable log initial written :=
      recoverable.step_home home (exists_installWrites log machine.disk 0 listed)
    have region : ∀ k, k < log.size →
        written.disk (log.start + k) = machine.disk (log.start + k) := by
      intro k inside
      rw [writtenDef, write_disk, update_of_ne (home.ne_slot inside).symm]
    have headerAfter : (decodeHead (written.disk log.start)).drop (tail + 1) = rest := by
      rw [show written.disk log.start = machine.disk log.start from region 0 log.size_pos,
        ← List.drop_drop, header]
      rfl
    have cleanAfter : ∀ k, k < log.size → written.dirty (log.start + k) = none := by
      intro k inside
      rw [writtenDef, write_dirty, update_of_ne (home.ne_slot inside).symm]
      exact clean k inside
    have others := ih (tail + 1) written kept headerAfter cleanAfter
    have history := write_quiet log machine blockno data
      (.inl home.ne_start)
    have logged : machine.read (log.start + tail + 1) = data := by simp [Machine.read, slot, data]
    rw [installFrom_cons, safe_bread, safe_bread, safe_bwrite, logged]
    refine ⟨recoverable, recoverable, recoverable, ?_⟩
    apply others.weaken
    intro _ after installed
    refine ⟨installed.recoverable, ?_, ?_, ?_, ?_⟩
    · rw [installed.disk, installWrites, applyWrites,
        installWrites_congr log (tail + 1) rest]
      · rfl
      · intro k _ upper
        have inList : rest.length ≤ (decodeHead (machine.disk log.start)).length - (tail + 1) := by
          have lengths := congrArg List.length header
          simp only [List.length_drop, List.length_cons] at lengths
          omega
        exact region (k + 1) (by omega)
    · intro other
      rw [installed.dirty other, writtenDef, write_dirty]
      by_cases same : other = blockno
      · simp [same]
      · simp [same]
    · rw [installed.committed, writtenDef]
      exact history.1
    · rw [installed.pending, writtenDef]
      exact history.2

/-! ## Clearing the header and recovering -/

theorem writeHead_safe {log : Log} {machine : Machine} {lh : List Nat}
    {crash : Machine → Prop} {post : Unit → Machine → Prop} (before : crash machine)
    (after : crash (machine.write log log.start (encodeHead (machine.read log.start) lh)))
    (done : post () (machine.write log log.start (encodeHead (machine.read log.start) lh))) :
    (writeHead log lh).Safe (Machine.step log) crash post machine := by
  rw [writeHead_eq, safe_bread, safe_bwrite]
  exact ⟨before, before, Prog.safe_ret.mpr ⟨after, done⟩⟩

theorem writeHead_clear_safe {log : Log} {initial : Disk} {machine : Machine}
    (recoverable : Recoverable log initial machine)
    (installed : ∀ blockno, log.Home blockno →
      machine.disk blockno = applyAll initial machine.committed blockno)
    (clean : ∀ blockno, machine.dirty blockno = none) :
    (writeHead log []).Safe (Machine.step log) (Recoverable log initial)
      (fun _ after => Idle log initial after ∧ after.committed = machine.committed) machine := by
  rw [writeHead_eq, safe_bread, safe_bwrite]
  have empty : (encodeHead (machine.read log.start) []).word 0 = 0 :=
    word_encodeHead _ [] (Nat.zero_le _)
  generalize encodeHead (machine.read log.start) [] = data at empty
  have history := write_quiet log machine log.start data (.inr (headLength_eq_zero empty))
  have idle : Idle log initial (machine.write log log.start data) := by
    refine ⟨⟨?_, ?_⟩, ?_⟩
    · rw [write_disk, update_self]
      exact empty
    · intro blockno home
      rw [history.1, write_disk,
        update_of_ne home.ne_start]
      exact installed blockno home
    · intro blockno
      by_cases header : blockno = log.start <;> simp [header, clean]
  exact ⟨recoverable, recoverable,
    Prog.safe_ret.mpr ⟨idle.toQuiet.recoverable, idle, history.1⟩⟩

theorem installTrans_safe {log : Log} {initial : Disk} {machine : Machine} {lh : List Nat}
    (recoverable : Recoverable log initial machine)
    (header : decodeHead (machine.disk log.start) = lh)
    (clean : ∀ k, k < log.size → machine.dirty (log.start + k) = none) :
    (installTrans log lh).Safe (Machine.step log) (Recoverable log initial)
      (fun _ after => Recoverable log initial after ∧
        (∀ blockno, log.Home blockno →
          after.disk blockno = applyAll initial after.committed blockno) ∧
        (∀ blockno, after.dirty blockno =
          if blockno ∈ lh then none else machine.dirty blockno) ∧
        after.committed = machine.committed)
      machine := by
  have install := installFrom_safe log initial lh 0 machine recoverable
    (by rw [List.drop_zero, header]) clean
  apply install.weaken
  intro _ after installed
  refine ⟨installed.recoverable, ?_, installed.dirty, installed.committed⟩
  intro blockno home
  have replayed := recoverable.replayed blockno home
  rw [replay, loggedWrites, header] at replayed
  rw [installed.disk, installed.committed]
  exact replayed

theorem recoverFromLog_safe {log : Log} {initial : Disk} {machine : Machine}
    (recoverable : Recoverable log initial machine) :
    (recoverFromLog log).Safe (Machine.step log) (Recoverable log initial)
      (fun _ after => Idle log initial after ∧ after.committed = machine.committed)
      machine.boot := by
  have booted : Recoverable log initial machine.boot := ⟨recoverable.head, recoverable.replayed⟩
  have install := installTrans_safe booted rfl fun _ _ => rfl
  have unpinned : machine.boot.read log.start = machine.boot.disk log.start := rfl
  rw [recoverFromLog_eq, safe_bread, unpinned]
  refine ⟨booted, install.bind ?_⟩
  intro _ after installed
  have clean : ∀ blockno, after.dirty blockno = none := by
    intro blockno
    rw [installed.2.2.1 blockno]
    split <;> rfl
  apply (writeHead_clear_safe installed.1 installed.2.1 clean).weaken
  exact fun _ _ cleared => ⟨cleared.1, cleared.2.trans installed.2.2.2⟩

/-! ## Committing -/

structure Copied (log : Log) (initial : Disk) (before : Machine) (tail : Nat)
    (rest : Writes) (after : Machine) : Prop where
  quiet : Quiet log initial after
  copied : ∀ k (bound : k < rest.length),
    after.disk (log.start + (tail + k) + 1) = rest[k].2
  earlier : ∀ k, k < tail → after.disk (log.start + k + 1) = before.disk (log.start + k + 1)
  pinned : ∀ blockno, log.Home blockno → after.dirty blockno = before.dirty blockno
  clean : ∀ k, k < log.size → after.dirty (log.start + k) = none
  committed : after.committed = before.committed
  pending : after.pending = before.pending

theorem writeLogFrom_safe (log : Log) (initial : Disk) (rest : Writes) (tail : Nat)
    (machine : Machine) (quiet : Quiet log initial machine)
    (fits : tail + rest.length < log.size)
    (home : ∀ write ∈ rest, log.Home write.1)
    (pinned : ∀ write ∈ rest, machine.dirty write.1 = some write.2)
    (clean : ∀ k, k < log.size → machine.dirty (log.start + k) = none) :
    (writeLogFrom log tail (rest.map Prod.fst)).Safe (Machine.step log)
      (Recoverable log initial) (fun _ => Copied log initial machine tail rest) machine := by
  induction rest generalizing tail machine with
  | nil =>
    refine Prog.safe_ret.mpr ⟨quiet.recoverable, ⟨quiet, ?_, ?_, ?_, clean, rfl, rfl⟩⟩
    · intro k bound
      simp at bound
    · exact fun _ _ => rfl
    · exact fun _ _ => rfl
  | cons write rest ih =>
    simp only [List.length_cons] at fits
    have writeHome := home write (by simp)
    have buffer := pinned write (by simp)
    set slot := log.start + tail + 1 with slotDef
    have slotNe : slot ≠ log.start := by omega
    have homeNe : ∀ blockno, log.Home blockno → blockno ≠ slot := fun blockno isHome =>
      isHome.ne_slot (show tail + 1 < log.size by omega)
    set written := (machine.write log slot write.2) with writtenDef
    have history := write_quiet log machine slot write.2 (.inl slotNe)
    have quietAfter : Quiet log initial written := by
      refine ⟨?_, ?_⟩
      · rw [writtenDef, write_disk, update_of_ne slotNe.symm]
        exact quiet.empty
      · intro blockno isHome
        rw [writtenDef, history.1, write_disk,
          update_of_ne (homeNe blockno isHome)]
        exact quiet.home blockno isHome
    have dirtyAfter : ∀ blockno, log.Home blockno →
        written.dirty blockno = machine.dirty blockno := by
      intro blockno isHome
      rw [writtenDef, write_dirty, update_of_ne (homeNe blockno isHome)]
    have cleanAfter : ∀ k, k < log.size → written.dirty (log.start + k) = none := by
      intro k inside
      rw [writtenDef, write_dirty]
      by_cases here : log.start + k = slot
      · simp [here]
      · rw [update_of_ne here]
        exact clean k inside
    have others := ih (tail + 1) written quietAfter (by omega)
      (fun other membership => home other (by simp [membership]))
      (fun other membership => by
        rw [dirtyAfter _ (home other (by simp [membership]))]
        exact pinned other (by simp [membership]))
      cleanAfter
    have cached : machine.read write.1 = write.2 := by simp [Machine.read, buffer]
    rw [List.map_cons, writeLogFrom_cons, safe_bread, safe_bread, safe_bwrite, cached]
    refine ⟨quiet.recoverable, quiet.recoverable, quiet.recoverable, ?_⟩
    apply others.weaken
    intro _ after done
    refine ⟨done.quiet, ?_, ?_, ?_, done.clean, ?_, ?_⟩
    · intro k bound
      cases k with
      | zero =>
        have kept := done.earlier tail (by omega)
        rw [show log.start + (tail + 0) + 1 = log.start + tail + 1 from rfl, kept,
          writtenDef, write_disk]
        simp [slotDef]
      | succ k =>
        have copied := done.copied k (by simpa using bound)
        rw [show tail + (k + 1) = tail + 1 + k by omega, copied]
        rfl
    · intro k below
      rw [done.earlier k (by omega), writtenDef, write_disk,
        update_of_ne (by omega)]
    · intro blockno isHome
      rw [done.pinned blockno isHome, dirtyAfter blockno isHome]
    · rw [done.committed, writtenDef]
      exact history.1
    · rw [done.pending, writtenDef]
      exact history.2

theorem lookup_of_mem {writes : Writes} (distinct : (writes.map Prod.fst).Nodup)
    {write : Nat × Block} (membership : write ∈ writes) :
    writes.lookup write.1 = some write.2 := by
  induction writes with
  | nil => simp at membership
  | cons head rest ih =>
    rw [List.map_cons, List.nodup_cons] at distinct
    obtain ⟨blockno, block⟩ := head
    rcases List.mem_cons.mp membership with rfl | inRest
    · exact List.lookup_cons_self
    · have different : (write.1 == blockno) = false := by
        rw [beq_eq_false_iff_ne]
        intro same
        exact distinct.1 (List.mem_map.mpr ⟨write, inRest, same⟩)
      rw [List.lookup_cons, different]
      exact ih distinct.2 inRest

theorem lookup_eq_none {writes : Writes} {blockno : Nat}
    (absent : blockno ∉ writes.map Prod.fst) : writes.lookup blockno = none := by
  rw [List.lookup_eq_none_iff]
  intro write membership
  rw [bne_iff_ne]
  intro same
  exact absent (same ▸ List.mem_map_of_mem membership)

section Pin

variable {log : Log} {initial : Disk} {machine : Machine} (transaction : Transaction log)

theorem pin_dirty_of_mem {write : Nat × Block} (membership : write ∈ transaction.writes) :
    (machine.pin transaction.writes).dirty write.1 = some write.2 := by
  simp [Machine.pin, lookup_of_mem transaction.distinct membership]

theorem pin_dirty_eq_none (idle : Idle log initial machine) {blockno : Nat}
    (absent : blockno ∉ transaction.blocks) :
    (machine.pin transaction.writes).dirty blockno = none := by
  simp [Machine.pin, lookup_eq_none absent, idle.clean blockno]

theorem pin_clean (idle : Idle log initial machine) {k : Nat} (inside : k < log.size) :
    (machine.pin transaction.writes).dirty (log.start + k) = none := by
  apply pin_dirty_eq_none transaction idle
  intro listed
  rcases List.mem_map.mp listed with ⟨write, membership, target⟩
  exact (transaction.home write membership).ne_slot inside target

end Pin

/-- The state right after the header of a transaction has reached the disk. -/
structure HeadWritten (log : Log) (initial : Disk) (before : Machine)
    (transaction : Transaction log) (after : Machine) : Prop where
  recoverable : Recoverable log initial after
  header : decodeHead (after.disk log.start) = transaction.blocks
  clean : ∀ k, k < log.size → after.dirty (log.start + k) = none
  pinned : ∀ blockno, log.Home blockno → after.dirty blockno = before.dirty blockno

theorem Transaction.length_blocks {log : Log} (transaction : Transaction log) :
    transaction.blocks.length = transaction.writes.length := by
  simp [Transaction.blocks]

theorem Transaction.room {log : Log} (transaction : Transaction log) :
    transaction.blocks.length ≤ LOGSIZE := by
  have fits := transaction.fits
  have sizeLe := log.size_le
  rw [transaction.length_blocks]
  omega

theorem Transaction.home_of_mem {log : Log} (transaction : Transaction log) {blockno : Nat}
    (listed : blockno ∈ transaction.blocks) : log.Home blockno := by
  rcases List.mem_map.mp listed with ⟨write, membership, rfl⟩
  exact transaction.home write membership

theorem Transaction.lt_of_mem {log : Log} (transaction : Transaction log) {blockno : Nat}
    (listed : blockno ∈ transaction.blocks) : blockno < 2 ^ 32 := by
  rcases List.mem_map.mp listed with ⟨write, membership, rfl⟩
  exact transaction.blockno_lt write membership

theorem Copied.headWritten {log : Log} {initial : Disk} {before copied : Machine}
    {transaction : Transaction log} (nonempty : 0 < transaction.writes.length)
    (done : Copied log initial before 0 transaction.writes copied)
    (pending : before.pending = some transaction.writes) {data : Block}
    (decoded : decodeHead data = transaction.blocks)
    (length : headLength data = transaction.blocks.length) :
    HeadWritten log initial before transaction (copied.write log log.start data) := by
  have history := write_head log copied data
    (by rw [length, transaction.length_blocks]; exact nonempty)
  have header : decodeHead ((copied.write log log.start data).disk log.start) =
      transaction.blocks := by
    rw [write_disk, update_self, decoded]
  have logged : loggedWrites log (copied.write log log.start data).disk =
      transaction.writes := by
    rw [loggedWrites, header]
    apply installWrites_eq
    intro k bound
    rw [write_disk, update_of_ne (by omega)]
    exact done.copied k bound
  refine ⟨⟨⟨?_, ?_⟩, ?_⟩, header, ?_, ?_⟩
  · rw [header]
    exact fun blockno listed => transaction.home_of_mem listed
  · have fits := transaction.fits
    have sizePos := log.size_pos
    rw [header, transaction.length_blocks]
    omega
  · intro blockno home
    rw [replay, logged, history.1, done.pending, done.committed, pending, Option.toList_some,
      applyAll_append]
    apply applyWrites_congr
    right
    rw [write_disk, update_of_ne home.ne_start, ← done.committed]
    exact done.quiet.home blockno home
  · intro k inside
    rw [write_dirty]
    by_cases isHeader : log.start + k = log.start
    · simp [isHeader]
    · rw [update_of_ne isHeader]
      exact done.clean k inside
  · intro blockno home
    rw [write_dirty, update_of_ne home.ne_start]
    exact done.pinned blockno home

theorem commit_safe {log : Log} {initial : Disk} {machine : Machine}
    (idle : Idle log initial machine) (transaction : Transaction log) :
    (commit log transaction.blocks).Safe (Machine.step log) (Recoverable log initial)
      (fun _ => Idle log initial) (machine.pin transaction.writes) := by
  have quiet : Quiet log initial (machine.pin transaction.writes) := ⟨idle.empty, idle.home⟩
  rcases Nat.eq_zero_or_pos transaction.writes.length with empty | nonempty
  · have noBlocks : transaction.blocks = [] := by
      simp [Transaction.blocks, List.length_eq_zero_iff.mp empty]
    have clean : ∀ blockno, (machine.pin transaction.writes).dirty blockno = none :=
      fun blockno => pin_dirty_eq_none transaction idle (by simp [noBlocks])
    rw [noBlocks]
    exact Prog.safe_ret.mpr ⟨quiet.recoverable, quiet, clean⟩
  · have positive : 0 < transaction.blocks.length := by
      simpa [Transaction.blocks] using nonempty
    have fits := transaction.fits
    rw [commit_of_pos log positive]
    have copy := writeLogFrom_safe log initial transaction.writes 0 _ quiet (by omega)
      transaction.home (fun write membership => pin_dirty_of_mem transaction membership)
      (fun k inside => pin_clean transaction idle inside)
    apply copy.bind
    intro _ copied done
    have head := done.headWritten nonempty rfl
      (decodeHead_encodeHead (copied.read log.start) _ transaction.room
        fun blockno listed => transaction.lt_of_mem listed)
      (headLength_encodeHead _ _ transaction.room)
    have headSafe : (writeHead log transaction.blocks).Safe (Machine.step log)
        (Recoverable log initial) (fun _ => HeadWritten log initial
          (machine.pin transaction.writes) transaction) copied :=
      writeHead_safe done.quiet.recoverable head.recoverable head
    apply headSafe.bind
    intro _ logged written
    apply (installTrans_safe written.recoverable written.header written.clean).bind
    intro _ after installed
    have clean : ∀ blockno, after.dirty blockno = none := by
      intro blockno
      rw [installed.2.2.1 blockno]
      split
      · rfl
      next absent =>
        by_cases home : log.Home blockno
        · rw [written.pinned blockno home]
          exact pin_dirty_eq_none transaction idle absent
        · unfold Log.Home at home
          have slot := written.clean (blockno - log.start) (by omega)
          rwa [Nat.add_sub_cancel' (by omega)] at slot
    apply (writeHead_clear_safe installed.1 installed.2.1 clean).weaken
    exact fun _ _ cleared => cleared.1

/-! ## Every run -/

def Machine.fresh (disk : Disk) : Machine where
  disk := disk
  dirty _ := none
  pending := none
  committed := []

theorem reachable_safe {log : Log} {disk : Disk} (empty : (disk log.start).word 0 = 0)
    {machine : Machine} {program : BufM Unit}
    (reachable : (logSystem log).Reachable (.fresh disk) machine program) :
    program.Safe (Machine.step log) (Recoverable log disk) (fun _ => Idle log disk) machine := by
  have initially : Idle log disk (.fresh disk) := ⟨⟨empty, fun _ _ => rfl⟩, fun _ => rfl⟩
  apply reachable.safe ⟨initially.toQuiet.recoverable, initially⟩
  · rintro state started job idle ⟨transaction, rfl, rfl⟩
    exact commit_safe idle transaction
  · intro state recoverable
    exact (recoverFromLog_safe recoverable).weaken fun _ _ recovered => recovered.1

/-- Transactions are atomic under crashes.  Whenever the machine is between
transactions, in particular once a recovery has run to its end, the header is
empty and the home blocks are those of the initial disk with the committed
transactions applied in order; and from any point of any run, a crash followed
by a complete recovery ends there with the same committed transactions. -/
theorem log_crash_atomic (log : Log) (disk : Disk) (empty : (disk log.start).word 0 = 0)
    {machine : Machine} {program : BufM Unit}
    (reachable : (logSystem log).Reachable (.fresh disk) machine program) :
    (program = .ret () →
      (machine.disk log.start).word 0 = 0 ∧
      ∀ blockno, log.Home blockno →
        machine.disk blockno = applyAll disk machine.committed blockno) ∧
    (((recoverFromLog log).run (Machine.step log) machine.boot).2.disk log.start).word 0 = 0 ∧
    ∀ blockno, log.Home blockno →
      ((recoverFromLog log).run (Machine.step log) machine.boot).2.disk blockno =
        applyAll disk machine.committed blockno := by
  have safe := reachable_safe empty reachable
  have recovered := (recoverFromLog_safe safe.atStart).run_post
  refine ⟨?_, recovered.1.empty, ?_⟩
  · intro idle
    subst idle
    have ended := (Prog.safe_ret.mp safe).2
    exact ⟨ended.empty, ended.home⟩
  · intro blockno home
    rw [← recovered.2]
    exact recovered.1.home blockno home

/-- The theorem at a crash of a one-block transaction on a zeroed disk, after `write_head` and
before the block is installed: recovery installs it and empties the log. -/
theorem log_crash_atomic_one_block : ∃ (machine : Machine) (program : BufM Unit),
    (logSystem mkfsLog).Reachable (.fresh fun _ _ => 0) machine program ∧
    machine.committed = [[(59, fun _ => 7)]] ∧ (machine.disk mkfsLog.start).word 0 = 1 ∧
    machine.disk 59 = (fun _ => 0) ∧
    let recovered := ((recoverFromLog mkfsLog).run (Machine.step mkfsLog) machine.boot).2
    (recovered.disk mkfsLog.start).word 0 = 0 ∧ recovered.disk 59 = fun _ => 7 := by
  have started : (logSystem mkfsLog).Reachable (.fresh fun _ _ => 0)
      ((Machine.fresh fun _ _ => 0).pin [(59, fun _ => 7)]) (commit mkfsLog [59]) :=
    .start .idle ⟨⟨[(59, fun _ => 7)], by simp, by decide, by simp [Log.Home, mkfsLog, LOGSIZE,
      MAXOPBLOCKS], by simp⟩, rfl, rfl⟩
  -- the two reads and the write of `write_log`, then the read and the write of `write_head`
  have crashed := CrashSystem.Reachable.op (.op (.op (.op (.op started))))
  have atomic := log_crash_atomic mkfsLog (fun _ _ => 0) (by decide) crashed
  refine ⟨_, _, crashed, rfl, rfl, rfl, atomic.2.1, ?_⟩
  rw [atomic.2.2 59 (by simp [Log.Home, mkfsLog, LOGSIZE, MAXOPBLOCKS])]
  rfl

end Xv6
