import Xv6.Sys.Calls
import Xv6.Fs.Integrity

/-!
# What `filewrite` logs

`filewrite` splits a write into sections between `begin_op` and `end_op`.  The
number of different blocks a section passes to `log_write` is computed here from
the state before it: the blocks written, the bit map block and the indirect
block if blocks have to be allocated, the inode if the file grows.  `begin_op`
reserves `MAXOPBLOCKS` for it.
-/

namespace Xv6

open Exec Fs

/-- The blocks that hold some of `n` bytes at `off`, if `n` is positive. -/
def spanBlocks (off n : Nat) : List Nat :=
  List.range' (off / BSIZE) ((off + n - 1) / BSIZE + 1 - off / BSIZE)

theorem mem_spanBlocks {off n bn : Nat} (some : 0 < n) :
    bn ∈ spanBlocks off n ↔ InSpan off n bn := by
  unfold spanBlocks InSpan
  rw [List.mem_range'_1]
  simp only [BSIZE]
  constructor
  · rintro ⟨lower, upper⟩
    refine ⟨max off (bn * 512), ?_, ?_, ?_⟩ <;> omega
  · rintro ⟨k, lower, upper, rfl⟩
    omega

/-- The number of blocks that `writei` of `n` bytes at `off` logs. -/
def writeCost (fs : Fs) (i off n : Nat) : Nat :=
  let missing := (spanBlocks off n).filter fun bn => fs.addr i (blockPos bn) = 0
  (spanBlocks off n).length + (if missing = [] then 0 else 1) +
    (if missing.any (NDIRECT ≤ ·) then 1 else 0) + (if (fs.cur i).size < off + n then 1 else 0)

section Cost

variable {fs after : Fs} {ip : Slot} {off : Nat} {src : List UInt8}
  (written : Written fs after ip off src)

include written

theorem Written.new_of_missing {bn : Nat} (span : InSpan off src.length bn)
    (missing : fs.addr (fs.icache ip).inum (blockPos bn) = 0) :
    New fs after (fs.icache ip).inum (blockPos bn) :=
  ⟨missing, written.mapped bn span⟩

theorem Written.bblock_eq (layout : fs.sb = mkfsSb) {pos : Nat}
    (mapped : after.addr (fs.icache ip).inum pos ≠ 0) :
    after.sb.bblock (after.addr (fs.icache ip).inum pos) = fs.sb.bmapstart := by
  have inside := (written.owned.area _ _ mapped).2.1
  rw [written.sb, layout] at inside ⊢
  simp only [mkfsSb, FSSIZE] at inside
  simp only [Superblock.bblock, BPB, BSIZE]
  omega

theorem Written.mem_logged (layout : fs.sb = mkfsSb) (fresh : fs.logged = []) (c : Nat) :
    c ∈ after.logged ↔
      (∃ bn, InSpan off src.length bn ∧ c = after.addr (fs.icache ip).inum (blockPos bn)) ∨
      ((∃ bn, InSpan off src.length bn ∧ fs.addr (fs.icache ip).inum (blockPos bn) = 0) ∧
        c = fs.sb.bmapstart) ∨
      ((∃ bn, InSpan off src.length bn ∧ fs.addr (fs.icache ip).inum (blockPos bn) = 0 ∧
        NDIRECT ≤ bn) ∧ c = after.addr (fs.icache ip).inum NDIRECT) ∨
      ((fs.icache ip).copy.size < off + src.length ∧ c = fs.sb.iblock (fs.icache ip).inum) := by
  rw [written.logged, fresh]
  constructor
  · rintro (none | ⟨pos, new, touched⟩ | data | inode)
    · exact absurd none List.not_mem_nil
    · obtain ⟨bn, span, missing, place⟩ := written.only pos new
      rcases touched with rfl | rfl | ⟨entry, rfl⟩
      · rcases place with rfl | ⟨rfl, far⟩
        · exact .inl ⟨bn, span, rfl⟩
        · exact .inr (.inr (.inl ⟨⟨bn, span, missing, far⟩, rfl⟩))
      · exact .inr (.inl ⟨⟨bn, span, missing⟩, written.bblock_eq layout new.2⟩)
      · refine .inr (.inr (.inl ⟨⟨bn, span, missing, ?_⟩, rfl⟩))
        rcases place with rfl | ⟨rfl, far⟩
        · unfold blockPos at entry
          split at entry <;> omega
        · exact far
    · exact .inl data
    · exact .inr (.inr (.inr inode))
  · rintro (data | ⟨⟨bn, span, missing⟩, rfl⟩ | ⟨⟨bn, span, missing, far⟩, rfl⟩ | inode)
    · exact .inr (.inr (.inl data))
    · have new := written.new_of_missing span missing
      exact .inr (.inl ⟨_, new, .inr (.inl (written.bblock_eq layout new.2).symm)⟩)
    · have new := written.new_of_missing span missing
      refine .inr (.inl ⟨_, new, .inr (.inr ⟨?_, rfl⟩)⟩)
      unfold blockPos
      split <;> omega
    · exact .inr (.inr (.inr inode))

theorem Written.card_logged (owned : fs.Owned) (live : fs.Live ip) (layout : fs.sb = mkfsSb)
    (fresh : fs.logged = []) (some : 0 < src.length) :
    after.logged.toFinset.card = writeCost fs (fs.icache ip).inum off src.length := by
  let i := (fs.icache ip).inum
  let span := spanBlocks off src.length
  let missing := span.filter fun bn => fs.addr i (blockPos bn) = 0
  let data := span.toFinset.image fun bn => after.addr i (blockPos bn)
  let bits : Finset Nat := if missing = [] then ∅ else {fs.sb.bmapstart}
  let pointer : Finset Nat := if missing.any (NDIRECT ≤ ·) then {after.addr i NDIRECT} else ∅
  let inode : Finset Nat :=
    if (fs.cur i).size < off + src.length then {fs.sb.iblock i} else ∅
  have member : ∀ bn, bn ∈ span ↔ InSpan off src.length bn := fun bn => mem_spanBlocks some
  have size : (fs.cur i).size = (fs.icache ip).copy.size := by
    rw [cur_of_live owned.unique live]
  have someMissing : missing ≠ [] ↔
      ∃ bn, InSpan off src.length bn ∧ fs.addr i (blockPos bn) = 0 := by
    simp only [missing, ne_eq, List.filter_eq_nil_iff, decide_eq_true_eq, member, not_forall,
      not_not, exists_prop]
  have someFar : missing.any (NDIRECT ≤ ·) = true ↔ ∃ bn, InSpan off src.length bn ∧
      fs.addr i (blockPos bn) = 0 ∧ NDIRECT ≤ bn := by
    simp only [missing, List.any_eq_true, List.mem_filter, decide_eq_true_eq, member, and_assoc]
  have inBits : ∀ c, c ∈ bits ↔ missing ≠ [] ∧ c = fs.sb.bmapstart := by
    intro c
    by_cases none : missing = [] <;> simp [bits, none]
  have inPointer : ∀ c, c ∈ pointer ↔
      missing.any (NDIRECT ≤ ·) = true ∧ c = after.addr i NDIRECT := by
    intro c
    cases far : missing.any (NDIRECT ≤ ·) <;> simp [pointer, far]
  have inInode : ∀ c, c ∈ inode ↔ (fs.cur i).size < off + src.length ∧ c = fs.sb.iblock i := by
    intro c
    by_cases grows : (fs.cur i).size < off + src.length <;> simp [inode, grows]
  have inData : ∀ c, c ∈ data ↔
      ∃ bn, InSpan off src.length bn ∧ c = after.addr i (blockPos bn) := by
    intro c
    simp only [data, Finset.mem_image, List.mem_toFinset, member, eq_comm]
  have sets : after.logged.toFinset = data ∪ (bits ∪ (pointer ∪ inode)) := by
    ext c
    rw [List.mem_toFinset, written.mem_logged layout fresh]
    simp only [Finset.mem_union, inData, inBits, inPointer, inInode, someMissing, someFar, size]
    rfl
  -- the four kinds of blocks lie in different areas, or at different positions
  have dataArea : ∀ c ∈ data, fs.sb.datastart ≤ c ∧ c ≠ after.addr i NDIRECT := by
    intro c inside
    obtain ⟨bn, spanned, rfl⟩ := (inData c).mp inside
    have mapped := written.mapped bn spanned
    refine ⟨written.sb ▸ (written.owned.area _ _ mapped).1, ?_⟩
    intro clash
    exact blockPos_ne bn (written.owned.once _ _ _ _ mapped clash).2
  have pointerArea : ∀ c ∈ pointer, fs.sb.datastart ≤ c ∧ c = after.addr i NDIRECT := by
    intro c inside
    obtain ⟨far, rfl⟩ := (inPointer c).mp inside
    obtain ⟨bn, spanned, -, entry⟩ := someFar.mp far
    have past : NDIRECT < blockPos bn := by
      unfold blockPos
      split <;> omega
    have mapped := addr_pointer past (written.mapped bn spanned)
    exact ⟨written.sb ▸ (written.owned.area _ _ mapped).1, rfl⟩
  have order : fs.sb.iblock i < fs.sb.bmapstart ∧ fs.sb.bmapstart < fs.sb.datastart := by
    refine ⟨owned.layout.inodes i (owned.inums ip live.ref_pos), ?_⟩
    rw [layout]
    decide
  have dataCard : data.card = span.length := by
    have nodup : span.Nodup := List.nodup_range'
    rw [Finset.card_image_of_injOn, List.toFinset_card_of_nodup nodup]
    intro first inFirst second inSecond same
    rw [Finset.mem_coe, List.mem_toFinset, member] at inFirst
    exact blockPos_inj (written.owned.once _ _ _ _ (written.mapped first inFirst) same).2
  have bitsCard : bits.card = if missing = [] then 0 else 1 := by
    by_cases none : missing = [] <;> simp [bits, none]
  have pointerCard : pointer.card = if missing.any (NDIRECT ≤ ·) then 1 else 0 := by
    cases far : missing.any (NDIRECT ≤ ·) <;> simp [pointer, far]
  have inodeCard : inode.card = if (fs.cur i).size < off + src.length then 1 else 0 := by
    by_cases grows : (fs.cur i).size < off + src.length <;> simp [inode, grows]
  have third : Disjoint pointer inode := by
    rw [Finset.disjoint_left]
    intro c first second
    have lower := (pointerArea c first).1
    have same := ((inInode c).mp second).2
    omega
  have second : Disjoint bits (pointer ∪ inode) := by
    rw [Finset.disjoint_left]
    intro c first rest
    have same := ((inBits c).mp first).2
    rcases Finset.mem_union.mp rest with held | held
    · have lower := (pointerArea c held).1
      omega
    · have other := ((inInode c).mp held).2
      omega
  have first : Disjoint data (bits ∪ (pointer ∪ inode)) := by
    rw [Finset.disjoint_left]
    intro c inside rest
    obtain ⟨lower, apart⟩ := dataArea c inside
    simp only [Finset.mem_union] at rest
    rcases rest with held | held | held
    · have same := ((inBits c).mp held).2
      omega
    · exact apart (pointerArea c held).2
    · have same := ((inInode c).mp held).2
      omega
  rw [sets, Finset.card_union_of_disjoint first, Finset.card_union_of_disjoint second,
    Finset.card_union_of_disjoint third, dataCard, bitsCard, pointerCard, inodeCard]
  unfold writeCost
  simp only [span, missing, i]
  omega

end Cost

/-! ## The sections of `filewrite` -/

section Sections

variable {Pid : Type} [DecidableEq Pid] {devsw : Devsw} {p : Pid} {f : FileId}
  {addr : Nat → UInt8} {n : Int} {k : Kernel Pid}

open Sys

theorem advance_ensures (off : Nat) (r : Option Nat) :
    (alone devsw p (advance f off r)).Ensures k
      (fun _ after => after.fs = k.fs ∧ after.sections = k.sections) (fun _ => False) := by
  cases r with
  | none => exact ⟨rfl, rfl⟩
  | some r =>
    by_cases moves : 0 < r
    · simp only [advance, if_pos moves]
      exact ⟨rfl, rfl⟩
    · simp only [advance, if_neg moves]
      exact ⟨rfl, rfl⟩

theorem iunlock_logged (fs : Fs) (ip : Slot) :
    (iunlock ip).Ensures fs (fun _ after => after.logged = fs.logged) (fun _ => True) := by
  unfold iunlock
  simp only [ensures_bind, ensures_getInode]
  split
  · trivial
  · rfl

theorem endSection_ensures (ip : Slot) (off : Nat) (r : Option Nat) :
    (alone devsw p (endSection f ip off r)).Ensures k
      (fun result after => result = r ∧ after.sections = k.fs.logged :: k.sections)
      (fun _ => True) := by
  unfold endSection
  simp only [Prog.ensures_exec_bind]
  refine (advance_ensures off r).mono ?_ (fun _ _ => trivial)
  rintro _ mid ⟨sameFs, sameSections⟩
  simp only [Sys.iunlock, call, Prog.op, Prog.ensures_call, Prog.ensures_ret, Op.exec, ensures_onFs]
  refine (iunlock_logged mid.fs ip).mono ?_ (fun _ _ => trivial)
  intro _ fs logged
  refine ⟨rfl, ?_⟩
  change fs.logged :: mid.sections = _
  rw [logged, sameFs, sameSections]

theorem writeCost_congr {fs after : Fs} (alike : Alike fs after) (i off n : Nat) :
    writeCost after i off n = writeCost fs i off n := by
  unfold writeCost
  simp only [alike.addr, alike.cur]

theorem filewriteSection_ensures (src : List UInt8) (owned : k.fs.Owned) (settled : k.fs.Settled)
    (layout : k.fs.sb = mkfsSb)
    (plain : (k.fs.cur (k.fs.icache (k.ftable f).ip).inum).type ≠ T_DEV)
    (nonempty : 0 < src.length) :
    (alone devsw p (filewriteSection f src)).Ensures k
      (fun result after => ∃ blocks : List Nat, after.sections = blocks :: k.sections ∧
        let inum := (k.fs.icache (k.ftable f).ip).inum
        let off := (k.ftable f).off
        (WriteRejected (k.fs.cur inum).size off src.length ∧ result = none ∧
            blocks.toFinset.card = 0 ∨
          ¬WriteRejected (k.fs.cur inum).size off src.length ∧ result = some src.length ∧
            blocks.toFinset.card = writeCost k.fs inum off src.length))
      (fun _ => True) := by
  have start : ({ k.fs with logged := [] } : Fs).Owned := owned.withLog
  unfold filewriteSection
  simp only [call, Prog.op, Prog.call_bind, Prog.ret_bind, Prog.ensures_call,
    Prog.ensures_exec_bind, Op.exec, Xv6.beginOp, ensures_modify, ensures_get, ensures_bind,
    ensures_pure, Sys.ensures_ilock, ensures_onFs]
  refine (ilock_ensures start settled).mono ?_ (fun _ _ => trivial)
  rintro _ locked ⟨rfl, referenced, -, type⟩
  have alike := start.alike_locked referenced type
  have live := live_locked referenced type
  have entry : (({ k.fs with logged := [] } : Fs).setSlot (k.ftable f).ip
      (({ k.fs with logged := [] } : Fs).lockedEntry (k.ftable f).ip)).icache (k.ftable f).ip =
      ({ k.fs with logged := [] } : Fs).lockedEntry (k.ftable f).ip := setSlot_icache_self _ _
  refine (writei_ensures devsw alike.owned live (by rw [entry]; exact plain) _ src).mono ?_
    (fun _ _ => trivial)
  intro r fs outcome
  rw [entry] at outcome
  refine (endSection_ensures _ _ r).mono ?_ (fun _ _ => trivial)
  rintro _ after ⟨rfl, recorded⟩
  refine ⟨fs.logged, recorded, ?_⟩
  rcases outcome with ⟨rejected, rfl, rfl⟩ | ⟨accepted, rfl, mid, wrote, rfl⟩
  · exact .inl ⟨rejected, rfl, rfl⟩
  · refine .inr ⟨accepted, rfl, ?_⟩
    have written := wrote.grow live (by rw [entry]; exact accepted)
    rw [written.card_logged alike.owned live layout rfl nonempty, entry]
    exact writeCost_congr alike _ _ _

theorem filewriteSection_sections (src : List UInt8) :
    (alone devsw p (filewriteSection f src)).Ensures k
      (fun _ after => ∃ blocks, after.sections = blocks :: k.sections) (fun _ => True) := by
  unfold filewriteSection
  simp only [call, Prog.op, Prog.call_bind, Prog.ret_bind, Prog.ensures_call,
    Prog.ensures_exec_bind, Op.exec, Xv6.beginOp, ensures_modify, ensures_get, ensures_bind,
    ensures_pure, Sys.ensures_ilock, ensures_onFs]
  refine Ensures.always.mono ?_ (fun _ _ => trivial)
  intro _ locked _
  refine Ensures.always.mono ?_ (fun _ _ => trivial)
  intro r fs _
  refine (endSection_ensures _ _ r).mono ?_ (fun _ _ => trivial)
  rintro _ after ⟨-, recorded⟩
  exact ⟨fs.logged, recorded⟩

theorem filewriteLoop_sections (fuel i : Nat) :
    (alone devsw p (filewriteLoop f addr n fuel i)).Ensures k
      (fun _ after => ∃ more, after.sections = more ++ k.sections) (fun _ => True) := by
  induction fuel generalizing k i with
  | zero => exact ⟨[], rfl⟩
  | succ fuel ih =>
    unfold filewriteLoop
    split
    · simp only [Prog.ensures_exec_bind]
      refine (filewriteSection_sections _).mono ?_ (fun _ _ => trivial)
      rintro r mid ⟨blocks, recorded⟩
      cases r with
      | none => exact ⟨[blocks], recorded⟩
      | some r =>
        by_cases complete : r = min (n - i).toNat maxWrite
        · simp only [if_pos complete]
          refine (ih (i + r)).mono ?_ (fun _ _ => trivial)
          rintro _ after ⟨more, added⟩
          exact ⟨more ++ [blocks], by rw [added, recorded]; simp⟩
        · simp only [if_neg complete]
          trivial
    · exact ⟨[], rfl⟩

theorem filewriteLoop_done {i : Nat} (fuel : Nat) (done : ¬(i : Int) < n) :
    filewriteLoop f addr n fuel i = pure i := by
  cases fuel with
  | zero => rfl
  | succ fuel =>
    unfold filewriteLoop
    rw [if_neg done]

theorem maxWrite_eq : maxWrite = 6656 := rfl

theorem lt_writeCost_maxWrite (fs : Fs) (i off : Nat) :
    MAXOPBLOCKS < writeCost fs i off maxWrite := by
  have blocks : 13 ≤ (spanBlocks off maxWrite).length := by
    unfold spanBlocks maxWrite
    rw [List.length_range']
    simp only [LOGSIZE, MAXOPBLOCKS, BSIZE]
    omega
  unfold writeCost MAXOPBLOCKS
  dsimp only
  omega

theorem filewriteLoop_fits (owned : k.fs.Owned) (settled : k.fs.Settled)
    (layout : k.fs.sb = mkfsSb)
    (plain : (k.fs.cur (k.fs.icache (k.ftable f).ip).inum).type ≠ T_DEV) :
    let inum := (k.fs.icache (k.ftable f).ip).inum
    let off := (k.ftable f).off
    let n1 := min n.toNat maxWrite
    (alone devsw p (filewriteLoop f addr n n.toNat 0)).Ensures k
      (fun _ after => ∃ sections, after.sections = sections ++ k.sections ∧
        ((∀ blocks ∈ sections, blocks.toFinset.card ≤ MAXOPBLOCKS) ↔
          n ≤ 0 ∨ WriteRejected (k.fs.cur inum).size off n1 ∨
            writeCost k.fs inum off n1 ≤ MAXOPBLOCKS)) (fun _ => True) := by
  intro inum off n1
  cases turns : n.toNat with
  | zero =>
    refine ⟨[], rfl, ?_⟩
    have none : n ≤ 0 := by omega
    simp [none]
  | succ fuel =>
    have positive : 0 < n := by omega
    have start : min (n - ((0 : Nat) : Int)).toNat maxWrite = n1 := by
      simp only [n1]
      congr 1
      omega
    have part : 0 < n1 := lt_min (by omega) (by rw [maxWrite_eq]; norm_num)
    unfold filewriteLoop
    rw [if_pos (by omega : ((0 : Nat) : Int) < n)]
    simp only [Prog.ensures_exec_bind, start]
    have length : ((List.range n1).map fun k => addr (0 + k)).length = n1 := by simp
    refine (filewriteSection_ensures _ owned settled layout plain (by rw [length]; exact part)).mono
      ?_ (fun _ _ => trivial)
    rintro r mid ⟨blocks, recorded, outcome⟩
    simp only [length] at outcome
    rcases outcome with ⟨rejected, rfl, empty⟩ | ⟨accepted, rfl, cost⟩
    · refine ⟨[blocks], recorded, ?_⟩
      have holds : WriteRejected (k.fs.cur inum).size off n1 := rejected
      simp [empty, holds]
    · simp only [if_true]
      have fails : ¬WriteRejected (k.fs.cur inum).size off n1 := accepted
      have more : ¬n ≤ 0 := by omega
      have sized : blocks.toFinset.card = writeCost k.fs inum off n1 := cost
      by_cases whole : n.toNat ≤ maxWrite
      · -- one part is all there is
        have last : ¬((0 + n1 : Nat) : Int) < n := by
          simp only [n1, Nat.min_eq_left whole]
          omega
        rw [filewriteLoop_done fuel last]
        refine ⟨[blocks], recorded, ?_⟩
        simp [fails, more, sized]
      · have full : n1 = maxWrite := Nat.min_eq_right (by omega)
        refine (filewriteLoop_sections fuel (0 + n1)).mono ?_ (fun _ _ => trivial)
        rintro _ after ⟨rest, added⟩
        refine ⟨rest ++ [blocks], by rw [added, recorded]; simp, ?_⟩
        have exceeds := lt_writeCost_maxWrite k.fs inum off
        rw [← full, ← sized] at exceeds
        simp only [fails, more, false_or, ← sized]
        constructor
        · intro all
          exact all blocks (by simp)
        · intro within
          omega

end Sections

/-- Whether all sections of a `filewrite` that returns stay within what `begin_op`
reserves is decided by its first part. -/
theorem filewrite_sections_fit {Pid : Type} [DecidableEq Pid] (devsw : Devsw) (p : Pid)
    {k after : Kernel Pid} {f : FileId} {addr : Nat → UInt8} {n : Int} {result : Option Nat}
    (owned : k.fs.Owned) (settled : k.fs.Settled) (layout : k.fs.sb = mkfsSb)
    (writable : (k.ftable f).writable = true) (isInode : (k.ftable f).type = .inode)
    (regular : (k.fs.cur (k.fs.icache (k.ftable f).ip).inum).type = T_FILE)
    (returns : Sys.alone devsw p (Sys.filewrite f addr n) k = .ok (result, after)) :
    let inum := (k.fs.icache (k.ftable f).ip).inum
    let off := (k.ftable f).off
    let n1 := min n.toNat Sys.maxWrite
    ∃ sections, after.sections = sections ++ k.sections ∧
      ((∀ blocks ∈ sections, blocks.toFinset.card ≤ MAXOPBLOCKS) ↔
        n ≤ 0 ∨ WriteRejected (k.fs.cur inum).size off n1 ∨
          writeCost k.fs inum off n1 ≤ MAXOPBLOCKS) := by
  intro inum off n1
  have spec : (Sys.alone devsw p (Sys.filewrite f addr n)).Ensures k
      (fun _ after => ∃ sections, after.sections = sections ++ k.sections ∧
        ((∀ blocks ∈ sections, blocks.toFinset.card ≤ MAXOPBLOCKS) ↔
          n ≤ 0 ∨ WriteRejected (k.fs.cur inum).size off n1 ∨
            writeCost k.fs inum off n1 ≤ MAXOPBLOCKS)) (fun _ => True) := by
    unfold Sys.filewrite
    simp only [Sys.call, Prog.op, Prog.call_bind, Prog.ret_bind, Prog.ensures_call, Op.exec,
      ensures_get, ensures_bind, ensures_pure, writable, isInode, Bool.not_true, Bool.false_eq_true,
      if_false, Prog.ensures_exec_bind]
    refine (filewriteLoop_fits owned settled layout (by rw [regular]; decide)).mono ?_
      (fun _ _ => trivial)
    intro i after fits
    split <;> exact fits
  exact spec.of_ok returns

/-- A kernel with one empty regular file, open for writing. -/
def oneFile : Kernel Unit where
  fs := ((boot blankDisk).take T_FILE 1).setSlot 0
    { inum := 1, ref := 1, busy := false, valid := false, copy := Dinode.zeroed 0 }
  ftable _ := { type := .inode, ref := 1, readable := true, writable := true, ip := 0, off := 0 }
  procs _ := { cwd := none, ofile := fun _ => some 0 }
  sections := []
  claimed _ := none

theorem oneFile_sound : oneFile.fs.Sound ∧ oneFile.fs.Settled := by
  have free : ((boot blankDisk).dinode 1).type = 0 := by decide +kernel
  have taken : ((boot blankDisk).take T_FILE 1).Sound :=
    (boot_sound blankDisk_formed).take (by decide +kernel) free (by decide)
  refine ⟨taken.setSlot (Settable.recycle rfl (by decide +kernel) ?_), ?_⟩
  · intro jp positive
    exact absurd positive (lt_irrefl _)
  · intro jp positive valid
    by_cases same : jp = 0
    · subst same
      cases valid
    · rw [oneFile, setSlot_icache_ne _ same] at positive
      exact absurd positive (lt_irrefl _)

/-- A write of nine blocks to an empty file logs eleven. -/
theorem filewrite_section_too_big :
    oneFile.fs.Sound ∧ oneFile.fs.sb = mkfsSb ∧
      (oneFile.fs.cur (oneFile.fs.icache (oneFile.ftable 0).ip).inum).type = T_FILE ∧
      (oneFile.ftable 0).off ≤
        (oneFile.fs.cur (oneFile.fs.icache (oneFile.ftable 0).ip).inum).size ∧
      ∃ result after, Sys.alone noDevices () (Sys.filewrite 0 (fun _ => 7) 4608) oneFile =
          .ok (result, after) ∧
        ∃ blocks ∈ after.sections, MAXOPBLOCKS < blocks.toFinset.card := by
  refine ⟨oneFile_sound.1, by decide +kernel, by decide +kernel, by decide +kernel, ?_⟩
  have evaluated : (match Sys.alone noDevices () (Sys.filewrite 0 (fun _ => 7) 4608) oneFile with
      | .ok (_, after) => after.sections.any fun blocks => MAXOPBLOCKS < blocks.toFinset.card
      | .error _ => false) = true := by decide +kernel
  split at evaluated
  next result after returns =>
    obtain ⟨blocks, member, large⟩ := List.any_eq_true.mp evaluated
    exact ⟨result, after, returns, blocks, member, of_decide_eq_true large⟩
  · cases evaluated

theorem filewrite_sections_fit_short :
    ∃ result after, Sys.alone noDevices () (Sys.filewrite 0 (fun _ => 7) 3) oneFile =
        .ok (result, after) ∧
      ∃ sections, after.sections = sections ++ oneFile.sections ∧
        ∀ blocks ∈ sections, blocks.toFinset.card ≤ MAXOPBLOCKS := by
  have evaluated :
      (Sys.alone noDevices () (Sys.filewrite 0 (fun _ => 7) 3) oneFile).isOk = true := by
    decide +kernel
  cases returns : Sys.alone noDevices () (Sys.filewrite 0 (fun _ => 7) 3) oneFile with
  | error stop =>
    rw [returns] at evaluated
    cases evaluated
  | ok pair =>
    obtain ⟨result, after⟩ := pair
    obtain ⟨sections, added, fits⟩ := filewrite_sections_fit noDevices ()
      oneFile_sound.1.toOwned oneFile_sound.2 (by decide +kernel) rfl rfl (by decide +kernel)
      returns
    exact ⟨result, after, rfl, sections, added, fits.mpr (by decide +kernel)⟩

end Xv6
