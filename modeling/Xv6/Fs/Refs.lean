import Mathlib.Algebra.Group.Pi.Basic
import Xv6.Fs.Directory
import Xv6.Fs.Truncate
import Xv6.Lib.Graded

/-!
# Counting references to inodes

What each function of the inode layer does to the reference counts of the inode cache, in
any state of the file system: `iget` and `idup` add one, `iput` takes one away, and the
functions that work on the content of an inode leave all of them alone.
-/

namespace Xv6

open Exec

def Fs.refs (fs : Fs) : Slot → Int := fun ip => (fs.icache ip).ref

def oneRef (ip : Slot) : Slot → Int := Pi.single ip 1

/-- The reference counts go up by this much. -/
def Counts (change : Slot → Int) (fs after : Fs) : Prop := after.refs = fs.refs + change

theorem counts_grading : Grading Counts where
  refl fs := (add_zero fs.refs).symm
  trans := by
    intro first second fs mid after started ended
    unfold Counts at *
    rw [ended, started, add_assoc]

/-- The computation leaves the cache alone. -/
def OffCache {α : Type} (computation : FsM α) : Prop :=
  ∀ cache, Keeps (fun fs : Fs => fs.icache = cache) computation

section Rules

variable {α β : Type}

theorem OffCache.pure (value : α) : OffCache (pure value) := fun _ => .pure value

theorem OffCache.panic (message : Panic) : OffCache (panic message : FsM α) := fun _ => .fail _

theorem OffCache.bind {first : FsM β} {rest : β → FsM α} (off : OffCache first)
    (continues : ∀ value, OffCache (rest value)) : OffCache (first >>= rest) :=
  fun cache => (off cache).bind fun value => continues value cache

theorem OffCache.ite {condition : Prop} [Decidable condition] {yes no : FsM α}
    (first : OffCache yes) (second : OffCache no) : OffCache (if condition then yes else no) := by
  split
  · exact first
  · exact second

theorem OffCache.read {read : Fs → α} : OffCache (do let fs ← Exec.get; return read fs) :=
  fun _ _ same => same

theorem OffCache.logWrite (b : Nat) (data : Block) : OffCache (logWrite b data) :=
  fun _ _ same => same

theorem OffCache.counts {computation : FsM α} (off : OffCache computation) :
    Graded Counts (fun _ => 0) computation := by
  intro fs
  refine (off fs.icache fs rfl).mono (fun _ after same => ?_) fun _ _ => trivial
  funext ip
  simp only [Fs.refs, same, add_zero]

theorem counts_update {fs mid : Fs} {ip : Slot} {inode : Inode} {change : Int}
    (same : mid.icache = fs.icache) (ref : inode.ref = (fs.icache ip).ref + change) :
    Counts (Pi.single ip change) fs
      { mid with icache := Function.update mid.icache ip inode } := by
  funext jp
  by_cases isIt : jp = ip
  · subst isIt
    simp [Fs.refs, ref]
  · simp [Fs.refs, Function.update_of_ne isIt, Pi.single_eq_of_ne isIt, same]

theorem counts_updateFields {fs mid : Fs} {ip : Slot} {inode : Inode}
    (same : mid.icache = fs.icache) (ref : inode.ref = (fs.icache ip).ref) :
    Counts 0 fs { mid with icache := Function.update mid.icache ip inode } := by
  rw [← Pi.single_zero ip]
  exact counts_update same (by rw [ref, add_zero])

theorem counts_setInode {fs mid : Fs} {ip : Slot} {inode : Inode} (change : Int) {rest : FsM α}
    {grade : α → Slot → Int} (same : mid.icache = fs.icache)
    (ref : inode.ref = (fs.icache ip).ref + change)
    (continues : Graded Counts (fun value => grade value - Pi.single ip change) rest) :
    (setInode ip inode >>= fun _ => rest).Ensures mid
      (fun value after => Counts (grade value) fs after) fun _ => True := by
  rw [ensures_bind, ensures_setInode]
  refine (continues _).mono (fun value after counts => ?_) fun _ _ => trivial
  have whole := counts_grading.trans (counts_update same ref) counts
  rwa [add_sub_cancel] at whole

theorem counts_setFields {fs mid : Fs} {ip : Slot} {inode : Inode} {rest : FsM α}
    {grade : α → Slot → Int} (same : mid.icache = fs.icache) (ref : inode.ref = (fs.icache ip).ref)
    (continues : Graded Counts grade rest) :
    (setInode ip inode >>= fun _ => rest).Ensures mid
      (fun value after => Counts (grade value) fs after) fun _ => True :=
  counts_setInode 0 same (by rw [ref, add_zero])
    (continues.congr fun value => by rw [Pi.single_zero, sub_zero])

end Rules

/-! ## Content -/

theorem offCache_balloc : OffCache balloc := by
  have loop : ∀ bs, OffCache (ballocLoop bs) := by
    intro bs
    induction bs with
    | nil => exact .panic _
    | cons b rest ih =>
      unfold ballocLoop
      refine .bind .read fun sb => .bind .read fun bp => ?_
      split
      · exact .bind (.logWrite _ _) fun _ => .bind (.logWrite _ _) fun _ => .pure _
      · exact ih
  exact .bind .read fun sb => loop _

theorem offCache_bfree (b : Nat) : OffCache (bfree b) :=
  .bind (.bind .read fun _ => fun _ _ same => same) fun _ => .bind .read fun _ =>
    .bind .read fun _ => .ite (.logWrite _ _) (.panic _)

theorem offCache_iupdate (ip : Slot) : OffCache (iupdate ip) :=
  .bind .read fun _ => .bind .read fun _ => .bind .read fun _ => .logWrite _ _

theorem offCache_bmapEntry (indirect bn : Nat) : OffCache (bmapEntry indirect bn) :=
  .bind .read fun _ => .ite
    (.bind offCache_balloc fun _ => .bind (.logWrite _ _) fun _ => .pure _) (.pure _)

section Content

variable {ip : Slot}

theorem counts_bmapAddr (k : Nat) : Graded Counts (fun _ => 0) (bmapAddr ip k) := by
  intro fs
  unfold bmapAddr
  rw [ensures_bind, ensures_getInode]
  split
  · refine (offCache_balloc fs.icache fs rfl).bind (fun addr mid same => ?_) fun _ _ => trivial
    exact counts_setFields same rfl (.pure counts_grading rfl)
  · exact counts_grading.refl fs

theorem counts_bmap (bn : Nat) : Graded Counts (fun _ => 0) (bmap ip bn) :=
  .ite (fun _ => counts_bmapAddr bn) fun _ => .ite
    (fun _ => .after counts_grading (counts_bmapAddr NDIRECT) fun _ =>
      (offCache_bmapEntry _ _).counts)
    fun _ => .fail _ _

theorem counts_readiLoop (fuel n off : Nat) :
    Graded Counts (fun _ => 0) (readiLoop ip fuel n off) := by
  induction fuel generalizing n off with
  | zero => exact .pure counts_grading rfl
  | succ fuel ih =>
    exact .ite (fun _ => .pure counts_grading rfl) fun _ =>
      .after counts_grading (counts_bmap _) fun _ =>
      .after counts_grading (OffCache.counts .read) fun _ =>
      .after counts_grading (ih _ _) fun _ => .pure counts_grading rfl

theorem counts_itruncDirect (ks : List Nat) : Graded Counts (fun _ => 0) (itruncDirect ip ks) := by
  induction ks with
  | nil => exact .pure counts_grading rfl
  | cons k rest ih =>
    intro fs
    unfold itruncDirect
    rw [ensures_bind, ensures_getInode]
    split
    · exact ih fs
    · refine (offCache_bfree _ fs.icache fs rfl).bind (fun _ mid same => ?_) fun _ _ => trivial
      exact counts_setFields same rfl ih

theorem offCache_itruncEntries (bp : Block) (js : List Nat) : OffCache (itruncEntries bp js) := by
  induction js with
  | nil => exact .pure _
  | cons j rest ih =>
    exact .ite ih (.bind (offCache_bfree _) fun _ => ih)

theorem counts_itruncIndirect : Graded Counts (fun _ => 0) (itruncIndirect ip) := by
  intro fs
  unfold itruncIndirect
  rw [ensures_bind, ensures_getInode]
  split
  · exact counts_grading.refl fs
  · rw [ensures_bind, ensures_bread]
    refine (offCache_itruncEntries _ _ fs.icache fs rfl).bind (fun _ mid same => ?_)
      fun _ _ => trivial
    refine (offCache_bfree _ fs.icache mid same).bind (fun _ mid same => ?_) fun _ _ => trivial
    exact counts_updateFields same rfl

theorem counts_setCopy {change : Inode → Inode} (ref : ∀ inode, (change inode).ref = inode.ref) :
    Graded Counts (fun _ => 0) (do
      let inode ← getInode ip
      setInode ip (change inode)
      iupdate ip) :=
  fun fs => counts_setFields rfl (ref (fs.icache ip)) (offCache_iupdate ip).counts

theorem counts_itrunc : Graded Counts (fun _ => 0) (itrunc ip) :=
  .after counts_grading (counts_itruncDirect _) fun _ =>
    .after counts_grading counts_itruncIndirect fun _ => counts_setCopy fun _ => rfl

variable (devsw : Devsw)

theorem counts_readi (off n : Nat) : Graded Counts (fun _ => 0) (readi devsw ip off n) :=
  .after counts_grading (OffCache.counts .read) fun _ => .ite
    (fun _ => .ite (fun _ => .pure counts_grading rfl) fun _ => .pure counts_grading rfl)
    fun _ => .ite (fun _ => .pure counts_grading rfl) fun _ =>
      .after counts_grading (counts_readiLoop _ _ _) fun _ => .pure counts_grading rfl

theorem counts_readDirent (message : Panic) (off : Nat) :
    Graded Counts (fun _ => 0) (readDirent devsw message ip off) := by
  refine .after counts_grading (counts_readi devsw off DESIZE) fun bytes => ?_
  cases bytes with
  | none => exact .fail _ _
  | some bytes => exact .ite (fun _ => .pure counts_grading rfl) fun _ => .fail _ _

theorem counts_dirlookup (name : List UInt8) :
    Graded Counts (fun _ => 0) (dirlookup devsw ip name) := by
  have loop : ∀ offs, Graded Counts (fun _ => 0) (dirlookupLoop devsw ip name offs) := by
    intro offs
    induction offs with
    | nil => exact .pure counts_grading rfl
    | cons off rest ih =>
      exact .after counts_grading (counts_readDirent devsw _ off) fun de => .ite
        (fun _ => ih) fun _ => .ite (fun _ => .pure counts_grading rfl)
        fun _ => ih
  exact .after counts_grading (OffCache.counts .read) fun _ => .ite (fun _ => .fail _ _)
    fun _ => loop _

end Content

/-! ## References -/

section References

variable {ip : Slot}

theorem counts_iget (inum : Nat) : Graded Counts oneRef (iget inum) := by
  intro fs
  unfold iget
  rw [ensures_bind, ensures_get]
  split
  · exact counts_setInode 1 rfl rfl (.pure counts_grading (sub_self _))
  · split
    next jp empty =>
      have unused : (fs.icache jp).ref = 0 := by
        simpa using List.find?_some empty
      exact counts_setInode 1 rfl (by rw [unused, zero_add]) (.pure counts_grading (sub_self _))
    · trivial

theorem counts_idup : Graded Counts oneRef (idup ip) :=
  fun _ => counts_setInode 1 rfl rfl (.pure counts_grading (sub_self _))

theorem counts_ilockAcquire : Graded Counts (fun _ => 0) (ilockAcquire ip) := by
  intro fs
  unfold ilockAcquire
  rw [ensures_bind, ensures_getInode]
  split
  · trivial
  · split
    · trivial
    · exact counts_updateFields rfl rfl

theorem counts_ilockLoad : Graded Counts (fun _ => 0) (ilockLoad ip) := by
  intro fs
  unfold ilockLoad
  rw [ensures_bind, ensures_getInode]
  split
  · exact counts_grading.refl fs
  · rw [ensures_bind, ensures_getSb, ensures_bind, ensures_bread]
    exact counts_setFields rfl rfl (.ite (fun _ => .fail _ _) fun _ => .pure counts_grading rfl)

theorem counts_iunlock : Graded Counts (fun _ => 0) (iunlock ip) := by
  intro fs
  unfold iunlock
  rw [ensures_bind, ensures_getInode]
  split
  · trivial
  · exact counts_updateFields rfl rfl

theorem counts_iputTest :
    Graded Counts (fun frees => if frees then 0 else -oneRef ip) (iputTest ip) := by
  intro fs
  unfold iputTest
  rw [ensures_bind, ensures_getInode]
  split
  · split
    · trivial
    · exact counts_setFields rfl rfl (.pure counts_grading rfl)
  · refine counts_setInode (-1) rfl rfl (.pure counts_grading ?_)
    rw [oneRef, Pi.single_neg]
    exact sub_self _

theorem counts_iputClear : Graded Counts (fun _ => 0) (iputClear ip) := counts_setCopy fun _ => rfl

theorem counts_iputFinish : Graded Counts (fun _ => -oneRef ip) (iputFinish ip) := by
  intro fs
  rw [oneRef, ← Pi.single_neg]
  exact counts_update rfl rfl

end References

end Xv6
