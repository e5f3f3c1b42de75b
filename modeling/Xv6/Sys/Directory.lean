import Xv6.Fs.Entries
import Xv6.Sys.Write

/-!
# Directories as finite maps

`dirlookup`, `dirlink` and the erasures of `sys_unlink` on a locked directory, as operations
of the map from names to inode numbers that its table holds.  The inode of an entry need not
exist: the operations take a reference to it, and never load it.
-/

open Function (update)

namespace Xv6

open Exec Fs SlotMap

/-! ## References -/

section References

variable {fs mid after : Fs} {ip dp : Slot} {inum : Nat}

structure Dropped (fs after : Fs) : Prop where
  disk : after.disk = fs.disk
  sb : after.sb = fs.sb
  logged : after.logged = fs.logged
  ref : ∀ jp, (after.icache jp).ref = (fs.icache jp).ref
  kept : ∀ jp, 0 < (fs.icache jp).ref → after.icache jp = fs.icache jp

theorem Dropped.alone (dropped : Dropped fs after) (referenced : 0 < (fs.icache dp).ref) :
    after.alone dp = fs.alone dp := by
  unfold Fs.alone Fs.withCache
  rw [dropped.disk, dropped.sb, dropped.logged, dropped.kept dp referenced]

/-- The inode is not in the cache, and no entry is free. -/
def Fs.CacheFull (fs : Fs) (inum : Nat) : Prop :=
  (∀ ip, (fs.icache ip).ref ≠ 0) ∧ ∀ ip, 0 < (fs.icache ip).ref → (fs.icache ip).inum ≠ inum

theorem iget_got : (iget inum).Ensures fs (Got fs inum) (fun _ => fs.CacheFull inum) := by
  have full : (iget inum).Ensures fs (fun _ _ => True) (fun _ => fs.CacheFull inum) := by
    unfold iget
    simp only [ensures_bind, ensures_get]
    split
    · trivial
    next absent =>
      split
      · trivial
      next noneFree =>
        refine ⟨fun ip => ?_, fun ip positive => ?_⟩
        · simpa using List.find?_eq_none.mp noneFree ip (List.mem_finRange ip)
        · simpa [positive] using List.find?_eq_none.mp absent ip (List.mem_finRange ip)
  exact ((iget_ensures fs inum).and full).mono (fun _ _ both => both.1) fun _ both => both.2

/-- A reference that has just been taken is dropped without freeing the inode: either there
are others, or the inode has not been read. -/
theorem Fs.Got.iputTest (got : Got fs inum ip mid) :
    (iputTest ip).Ensures mid (fun free after => free = false ∧ Dropped fs after)
      (fun _ => False) := by
  unfold Xv6.iputTest
  simp only [ensures_bind, ensures_getInode]
  cases got with
  | hit referenced number =>
    rw [setSlot_icache_self, if_neg (by simp; omega)]
    refine ⟨rfl, rfl, rfl, rfl, ?_, ?_⟩
    all_goals
      intro jp
      by_cases here : jp = ip
      · subst here
        simp [Fs.setSlot]
      · simp [Fs.setSlot, here]
  | miss unused absent =>
    rw [setSlot_icache_self, if_neg (by simp)]
    refine ⟨rfl, rfl, rfl, rfl, ?_, ?_⟩
    all_goals
      intro jp
      by_cases here : jp = ip
      · subst here
        simp [Fs.setSlot, unused]
      · simp [Fs.setSlot, here]

theorem alone_setSlot_ne {inode : Inode} (other : dp ≠ ip) :
    (fs.setSlot ip inode).alone dp = fs.alone dp := by
  unfold Fs.alone Fs.withCache
  rw [setSlot_icache_ne inode other]
  rfl

theorem alone_setSlot_self {inode : Inode} :
    (fs.setSlot dp inode).alone dp = (fs.alone dp).setSlot dp inode := by
  simp [Fs.alone, Fs.withCache, Fs.setSlot]

theorem Fs.Got.number (got : Got fs inum ip after) : (after.icache ip).inum = inum := by
  cases got with
  | hit referenced number => simpa using number
  | miss unused absent => simp

theorem Fs.DirAt.got (dir : fs.DirAt dp) (got : Got fs inum ip after) :
    after.DirAt dp ∧ after.table dp = fs.table dp := by
  have referenced := dir.live.ref_pos
  cases got with
  | miss unused absent =>
    have other : dp ≠ ip := by
      rintro rfl
      omega
    exact ⟨dir.congr (alone_setSlot_ne other), table_congr (alone_setSlot_ne other)⟩
  | hit _ number =>
    by_cases here : dp = ip
    · subst here
      have referenced' : 0 < ((fs.alone dp).icache dp).ref := by rwa [alone_icache_self]
      have settable := dir.sound.toOwned.retag referenced' ((fs.icache dp).ref + 1)
        (fs.icache dp).busy
      rw [alone_icache_self] at settable
      have same : (fs.setSlot dp { fs.icache dp with ref := (fs.icache dp).ref + 1 }).alone dp =
          (fs.alone dp).setSlot dp { fs.icache dp with ref := (fs.icache dp).ref + 1 } :=
        alone_setSlot_self
      have alike := settable.alike dir.sound.toOwned fun live => by
        unfold Fs.Live at live ⊢
        rw [alone_icache_self] at live ⊢
        rw [setSlot_icache_self]
        exact ⟨⟨by dsimp only; omega, live.2⟩, rfl⟩
      refine ⟨⟨same ▸ dir.sound.setSlot settable, ?_, ?_, ?_⟩, ?_⟩
      · unfold Fs.Live
        rw [setSlot_icache_self]
        exact ⟨by dsimp only; omega, dir.live.2⟩
      · rw [setSlot_icache_self]
        exact dir.type
      · rw [setSlot_icache_self]
        exact dir.aligned
      · unfold Fs.table Fs.dirent Fs.entry
        rw [same, setSlot_icache_self]
        simp only [alike.byte]
    · exact ⟨dir.congr (alone_setSlot_ne here), table_congr (alone_setSlot_ne here)⟩

end References

namespace Sys

/-! ## Erasing -/

/-- `memset(&de, 0, sizeof(de))` and the `writei` after it, in `sys_unlink`. -/
def eraseEntry (dp : Slot) (off : Nat) : P Unit := do
  let r ← call (.writei dp (List.replicate DESIZE 0) off)
  if r = some DESIZE then return () else panic .unlinkWritei

/-- What `sys_unlink` does after it has cleared the entry. -/
def unlinkRest (dp ip : Slot) (inode : Dinode) : P (Option Nat) := do
  dropDotdot dp inode
  iunlockput dp
  call (.iupdate ip inode.major inode.minor (inode.nlink + (2 ^ 16 - 1)))
  iunlockput ip
  call .endOp
  return some 0

theorem unlinkEntry_eq (dp ip : Slot) (off : Nat) (inode : Dinode) :
    unlinkEntry dp ip off inode = (eraseEntry dp off >>= fun _ => unlinkRest dp ip inode) := by
  unfold unlinkEntry eraseEntry
  simp only [call, Prog.op_bind, Prog.call_bind]
  congr
  funext r
  split
  · rfl
  · simp only [panic, Prog.call_bind]
    congr
    funext never
    exact never.elim

def erase (dp : Slot) (name : List UInt8) : P (Option Slot) := do
  match ← dirlookup dp name with
  | none => return none
  | some (ip, off) =>
    eraseEntry dp off
    return some ip

section Specifications

variable {Pid : Type} [DecidableEq Pid] (devsw : Devsw) (p : Pid) {k : Kernel Pid} {dp : Slot}
  {name : List UInt8}

theorem dirlookup_spec (name : List UInt8) (dir : k.fs.DirAt dp) :
    (alone devsw p (dirlookup dp name)).Ensures k
      (fun result after => match result with
        | none => lookup (k.fs.table dp) (name.take DIRSIZ) = none ∧ after = k
        | some (ip, off) => ∃ inum j, off = DESIZE * j ∧
            lookup (k.fs.table dp) (name.take DIRSIZ) = some inum ∧
            (k.fs.table dp)[j]? = some (some (name.take DIRSIZ, inum)) ∧
            ∃ fs, Got k.fs inum ip fs ∧ after = { k with fs := fs })
      (fun _ => ∃ inum, lookup (k.fs.table dp) (name.take DIRSIZ) = some inum ∧
        k.fs.CacheFull inum) := by
  unfold dirlookup
  simp only [call, Prog.op_bind, Prog.ensures_call, Op.exec, ensures_onFs]
  refine (Xv6.dirlookup_dir devsw name dir).mono ?_ (fun _ never => never.elim)
  rintro result fs ⟨looked, rfl⟩
  cases result with
  | none => exact ⟨looked, rfl⟩
  | some found =>
    obtain ⟨inum, off⟩ := found
    obtain ⟨bound, j, isOff, held⟩ := looked
    simp only [Prog.ensures_call, Op.exec, ensures_onFs]
    refine iget_got.mono (fun ip fs got => ⟨inum, j, isOff, bound, held, fs, got, rfl⟩)
      fun _ full => ?_
    exact ⟨inum, bound, full⟩

/-- A directory that has no free slot cannot grow beyond the largest file, nor without a
free block. -/
def Full (fs : Fs) (dp : Slot) : Prop :=
  none ∉ fs.table dp ∧ (MAXFILE * BSIZE < DESIZE * ((fs.table dp).length + 1) ∨
    ¬fs.EntryRoom dp (fs.table dp).length)

/-- What adding or clearing an entry leaves as it was. -/
structure Elsewhere (k after : Kernel Pid) (dp : Slot) : Prop where
  rest : after = { k with fs := after.fs }
  contents : ∀ i < k.fs.sb.ninodes, i ≠ (k.fs.icache dp).inum →
    (after.fs.alone dp).contents i = (k.fs.alone dp).contents i
  cache : ∀ ip, (after.fs.icache ip).ref = (k.fs.icache ip).ref ∧
    (after.fs.icache ip).inum = (k.fs.icache ip).inum
  admitted : k.fs.LogRoom k.fs.sb.entryBlocks → k.fs.Admitted after.fs

theorem dirlink_spec (dir : k.fs.DirAt dp) (noNul : 0 ∉ name) {inum : Nat} (positive : 0 < inum)
    (fits : inum < 2 ^ 16) :
    (alone devsw p (dirlink dp name inum)).Ensures k
      (fun result after =>
        lookup (k.fs.table dp) (name.take DIRSIZ) ≠ none ∧ result = false ∧
            Dropped k.fs after.fs ∧ after = { k with fs := after.fs } ∨
          lookup (k.fs.table dp) (name.take DIRSIZ) = none ∧ result = true ∧
            after.fs.DirAt dp ∧ Elsewhere k after dp ∧ ∃ j, Vacant (k.fs.table dp) j ∧
              Stored (k.fs.table dp) (after.fs.table dp) j (some (name.take DIRSIZ, inum)) ∧
              (after.fs.table dp).length = max (k.fs.table dp).length (j + 1))
      (fun _ => (∃ bound, lookup (k.fs.table dp) (name.take DIRSIZ) = some bound ∧
            k.fs.CacheFull bound) ∨
          lookup (k.fs.table dp) (name.take DIRSIZ) = none ∧ Full k.fs dp) := by
  unfold dirlink
  rw [Prog.ensures_exec_bind]
  refine (dirlookup_spec devsw p _ dir).mono ?_ fun _ full => .inl full
  intro result after facts
  cases result with
  | some found =>
    obtain ⟨ip, off⟩ := found
    obtain ⟨inum', j, -, bound, -, fs, got, rfl⟩ := facts
    have present : lookup (k.fs.table dp) (name.take DIRSIZ) ≠ none := by
      rw [bound]
      simp
    simp only [iput, call, Prog.op_bind, Prog.call_bind, Prog.ensures_call, Op.exec, ensures_onFs]
    refine got.iputTest.mono ?_ (fun _ never => never.elim)
    rintro free last ⟨rfl, dropped⟩
    exact .inl ⟨present, rfl, dropped, rfl⟩
  | none =>
    obtain ⟨absent, isSame⟩ := facts
    subst after
    simp only [call, Prog.op_bind, Prog.ensures_call, Op.exec, ensures_onFs]
    refine (dirlinkOffset_dir devsw dir).mono ?_ (fun _ never => never.elim)
    rintro off fs ⟨rfl, j, rfl, vacant⟩
    have length := Dirent.length_encode ⟨inum, name⟩
    have slot : (Dirent.decode (Dirent.encode ⟨inum, name⟩)).slot =
        some (name.take DIRSIZ, inum) := by
      rw [Dirent.decode_encode fits noNul, Dirent.slot, if_neg positive.ne']
    have within : j < (k.fs.table dp).length ∨ j = (k.fs.table dp).length ∧ none ∉ k.fs.table dp :=
      vacant.imp_left fun free => (List.getElem?_eq_some_iff.mp free).1
    by_cases room : DESIZE * (j + 1) ≤ MAXFILE * BSIZE
    · refine (writei_dir devsw dir length (by omega) room).mono ?_ ?_
      · rintro result fs ⟨rfl, dir', stored, count, contents, refs, admitted⟩
        rw [if_pos rfl]
        rw [slot] at stored
        exact .inr ⟨absent, rfl, dir', ⟨rfl, contents, refs, admitted⟩, j, vacant, stored, count⟩
      · rintro stop ⟨rfl, short⟩
        exact .inr ⟨absent, (within.resolve_left (lt_irrefl _)).2, .inr short⟩
    · obtain ⟨rfl, noFree⟩ := within.resolve_left fun inside => room (dir.fits inside)
      have full : Full k.fs dp := ⟨noFree, .inl (not_le.mp room)⟩
      refine (writei_dir_rejected devsw dir length (not_le.mp room)).mono ?_
        fun _ never => never.elim
      rintro result fs rfl
      rw [if_neg (by simp)]
      exact .inr ⟨absent, full⟩

theorem eraseEntry_spec (dir : k.fs.DirAt dp) {j : Nat} (inside : j < (k.fs.table dp).length) :
    (alone devsw p (eraseEntry dp (DESIZE * j))).Ensures k
      (fun _ after => after.fs.DirAt dp ∧ Elsewhere k after dp ∧
        Stored (k.fs.table dp) (after.fs.table dp) j none ∧
        (after.fs.table dp).length = (k.fs.table dp).length)
      (fun _ => False) := by
  unfold eraseEntry
  simp only [call, Prog.op_bind, Prog.ensures_call, Op.exec, ensures_onFs]
  refine (writei_dir devsw dir List.length_replicate inside.le (dir.fits inside)).mono ?_ ?_
  · rintro result fs ⟨rfl, dir', stored, count, contents, refs, admitted⟩
    rw [if_pos rfl]
    refine ⟨dir', ⟨rfl, contents, refs, admitted⟩, stored, count.trans ?_⟩
    omega
  · rintro stop ⟨rfl, -⟩
    exact lt_irrefl _ inside

theorem erase_spec (dir : k.fs.DirAt dp) :
    (alone devsw p (erase dp name)).Ensures k
      (fun result after => match result with
        | none => lookup (k.fs.table dp) (name.take DIRSIZ) = none ∧ after = k
        | some ip => ∃ inum j, (k.fs.table dp)[j]? = some (some (name.take DIRSIZ, inum)) ∧
            after.fs.DirAt dp ∧ (after.fs.icache ip).inum = inum ∧
            Stored (k.fs.table dp) (after.fs.table dp) j none ∧
            (after.fs.table dp).length = (k.fs.table dp).length ∧
            ∃ fs, Got k.fs inum ip fs ∧ Elsewhere { k with fs := fs } after dp)
      (fun _ => ∃ inum, lookup (k.fs.table dp) (name.take DIRSIZ) = some inum ∧
        k.fs.CacheFull inum) := by
  unfold erase
  rw [Prog.ensures_exec_bind]
  refine (dirlookup_spec devsw p _ dir).mono ?_ fun _ full => full
  intro result after facts
  cases result with
  | none => exact facts
  | some found =>
    obtain ⟨ip, off⟩ := found
    obtain ⟨inum, j, rfl, -, held, fs, got, rfl⟩ := facts
    obtain ⟨dir', same⟩ := dir.got got
    have inside : j < (fs.table dp).length := by
      rw [same]
      exact (List.getElem?_eq_some_iff.mp held).1
    have erased := eraseEntry_spec devsw p (k := { k with fs := fs }) dir' inside
    dsimp only at erased ⊢
    rw [Prog.ensures_exec_bind]
    refine erased.mono ?_ fun _ never => never.elim
    rintro - after ⟨dir'', elsewhere, stored, count⟩
    rw [same] at stored count
    exact ⟨inum, j, held, dir'', (elsewhere.cache ip).2.trans got.number, stored, count, fs, got,
      elsewhere⟩

end Specifications

/-! ## Sequences -/

inductive DirAct (Pid : Type) where
  | link (name : List UInt8) (inum : Nat)
  | lookup (name : List UInt8)
  | erase (name : List UInt8)
  /-- whatever happens elsewhere in the kernel -/
  | other (k : Kernel Pid)

section Sequences

variable {Pid : Type} [DecidableEq Pid] (devsw : Devsw) (p : Pid) (dp : Slot)

def returns {α : Type} (program : P α) (k : Kernel Pid) : Option (Kernel Pid) :=
  match alone devsw p program k with
  | .ok (_, after) => some after
  | .error _ => none

def dirStep (k : Kernel Pid) : DirAct Pid → Option (Kernel Pid)
  | .link name inum => returns devsw p (dirlink dp name inum) k
  | .lookup name => returns devsw p (dirlookup dp name) k
  | .erase name => returns devsw p (erase dp name) k
  | .other after => some after

def DirAct.Allowed (k : Kernel Pid) : DirAct Pid → Prop
  | .link name inum => 0 ∉ name ∧ 0 < inum ∧ inum < 2 ^ 16
  | .lookup _ => True
  | .erase _ => True
  | .other after => after.fs.DirAt dp ∧ after.fs.table dp = k.fs.table dp

variable {devsw p dp} {k after : Kernel Pid}

omit [DecidableEq Pid] in
theorem binding_link {name : List UInt8} {inum j : Nat} (distinct : Distinct (k.fs.table dp))
    (absent : k.fs.binding dp (name.take DIRSIZ) = none) (vacant : Vacant (k.fs.table dp) j)
    (stored : Stored (k.fs.table dp) (after.fs.table dp) j (some (name.take DIRSIZ, inum)))
    (length : (after.fs.table dp).length = max (k.fs.table dp).length (j + 1)) :
    after.fs.binding dp =
        update (k.fs.binding dp) (name.take DIRSIZ) (some inum) ∧
      (after.fs.table dp).length =
        (k.fs.table dp).length + if none ∈ k.fs.table dp then 0 else 1 := by
  refine ⟨lookup_insert distinct stored (fun entry held => ?_) absent, length.trans ?_⟩
  · rcases vacant with free | ⟨rfl, -⟩
    · rw [free] at held
      cases held
    · rw [List.getElem?_eq_none le_rfl] at held
      cases held
  · rcases vacant with free | ⟨rfl, noFree⟩
    · have inside := (List.getElem?_eq_some_iff.mp free).1
      rw [if_pos (List.mem_of_getElem? free)]
      omega
    · rw [if_neg noFree]
      omega

theorem dirStep_keeps {act : DirAct Pid} (dir : k.fs.DirAt dp) (distinct : Distinct (k.fs.table dp))
    (allowed : act.Allowed dp k) (stepped : dirStep devsw p dp k act = some after) :
    after.fs.DirAt dp ∧ Distinct (after.fs.table dp) := by
  have returned : ∀ {α : Type} {program : P α} {good : α → Kernel Pid → Prop} {bad : Stop → Prop},
      (alone devsw p program).Ensures k good bad → returns devsw p program k = some after →
        ∃ value, good value after := by
    intro α program good bad ensures isAfter
    unfold returns at isAfter
    split at isAfter
    next value last ran =>
      cases isAfter
      exact ⟨value, ensures.of_ok ran⟩
    · cases isAfter
  cases act with
  | link name inum =>
    obtain ⟨noNul, positive, fits⟩ := allowed
    obtain ⟨result, ⟨-, -, dropped, -⟩ | ⟨absent, -, dir', -, j, -, stored, -⟩⟩ :=
      returned (dirlink_spec devsw p dir noNul positive fits) stepped
    · have same := dropped.alone dir.live.ref_pos
      exact ⟨dir.congr same, table_congr same ▸ distinct⟩
    · exact ⟨dir', distinct.insert stored absent⟩
  | lookup name =>
    obtain ⟨result, facts⟩ := returned (dirlookup_spec devsw p _ dir) stepped
    cases result with
    | none =>
      obtain ⟨-, rfl⟩ := facts
      exact ⟨dir, distinct⟩
    | some found =>
      obtain ⟨ip, off⟩ := found
      obtain ⟨inum, j, -, -, -, fs, got, rfl⟩ := facts
      obtain ⟨dir', same⟩ := dir.got got
      exact ⟨dir', same ▸ distinct⟩
  | erase name =>
    obtain ⟨result, facts⟩ := returned (erase_spec devsw p dir) stepped
    cases result with
    | none =>
      obtain ⟨-, rfl⟩ := facts
      exact ⟨dir, distinct⟩
    | some ip =>
      obtain ⟨inum, j, -, dir', -, stored, -⟩ := facts
      exact ⟨dir', distinct.erase stored⟩
  | other last =>
    cases stepped
    exact ⟨allowed.1, allowed.2 ▸ distinct⟩

/-- If the name is bound, its inode is in the cache or an entry of the cache is free. -/
def Cached (fs : Fs) (dp : Slot) (name : List UInt8) : Prop :=
  ∀ inum ∈ fs.binding dp (name.take DIRSIZ), ¬fs.CacheFull inum

/-- What a call needs of the state it starts in. -/
def DirAct.Meets (dp : Slot) (k : Kernel Pid) : DirAct Pid → Prop
  | .link name _ => Cached k.fs dp name ∧ (k.fs.binding dp (name.take DIRSIZ) = none →
      ¬Full k.fs dp ∧ k.fs.LogRoom k.fs.sb.entryBlocks)
  | .lookup name => Cached k.fs dp name
  | .erase name => Cached k.fs dp name ∧ (k.fs.binding dp (name.take DIRSIZ) ≠ none →
      k.fs.LogRoom k.fs.sb.entryBlocks)
  | .other _ => True

instance (fs : Fs) (inum : Nat) : Decidable (fs.CacheFull inum) :=
  inferInstanceAs (Decidable (_ ∧ _))

instance (fs : Fs) (dp : Slot) : Decidable (Full fs dp) :=
  inferInstanceAs (Decidable (_ ∧ (_ ∨ ¬Fs.Enough _ _ _)))

instance (fs : Fs) (dp : Slot) (name : List UInt8) : Decidable (Cached fs dp name) :=
  inferInstanceAs (Decidable (∀ inum ∈ _, _))

instance (dp : Slot) (k : Kernel Pid) (act : DirAct Pid) : Decidable (act.Meets dp k) :=
  match act with
  | .link _ _ => inferInstanceAs (Decidable (_ ∧ (_ → _)))
  | .lookup _ => inferInstanceAs (Decidable (Cached _ _ _))
  | .erase _ => inferInstanceAs (Decidable (_ ∧ (_ → _)))
  | .other _ => inferInstanceAs (Decidable True)

/-- A directory in which no name is bound twice is a finite map from names, truncated to
`DIRSIZ` bytes, to inode numbers, and stays one in every run whose calls find what they need:
an entry of the inode cache for the inode that the name is bound to, room to grow if there is
no free slot, and room in the running transaction.  `dirlookup` returns an inode with the
number that the name is bound to, and the offset of its entry.  `dirlink` refuses a name
that is bound and changes nothing; any other it binds, and the directory grows only if
it has no free slot.  Erasing a name removes its binding. -/
theorem directory_map {kernel : Kernel Pid} (dir : kernel.fs.DirAt dp)
    (distinct : Distinct (kernel.fs.table dp))
    (reachable : Transition.Reachable (dirStep devsw p dp)
      (fun k act => act.Allowed dp k ∧ act.Meets dp k) kernel k) :
    Distinct (k.fs.table dp) ∧
    (∀ name, (DirAct.lookup name).Meets dp k →
      (alone devsw p (dirlookup dp name)).Ensures k
        (fun result after => after.fs.table dp = k.fs.table dp ∧ match result with
          | none => k.fs.binding dp (name.take DIRSIZ) = none
          | some (ip, off) => ∃ inum j, k.fs.binding dp (name.take DIRSIZ) = some inum ∧
              (after.fs.icache ip).inum = inum ∧ off = DESIZE * j ∧
              (k.fs.table dp)[j]? = some (some (name.take DIRSIZ, inum)))
        (fun _ => False)) ∧
    (∀ name inum, (DirAct.link name inum).Allowed dp k → (DirAct.link name inum).Meets dp k →
      (alone devsw p (dirlink dp name inum)).Ensures k
        (fun result after =>
          k.fs.binding dp (name.take DIRSIZ) ≠ none ∧ result = false ∧ Dropped k.fs after.fs ∧
              after.fs.table dp = k.fs.table dp ∨
            k.fs.binding dp (name.take DIRSIZ) = none ∧ result = true ∧
              after.fs.binding dp =
                update (k.fs.binding dp) (name.take DIRSIZ) (some inum) ∧
              (after.fs.table dp).length =
                (k.fs.table dp).length + (if none ∈ k.fs.table dp then 0 else 1) ∧
              Elsewhere k after dp ∧ k.fs.Admitted after.fs)
        (fun _ => False)) ∧
    ∀ name, (DirAct.erase name).Meets dp k →
      (alone devsw p (erase dp name)).Ensures k
        (fun result after => (after.fs.table dp).length = (k.fs.table dp).length ∧
          match result with
          | none => k.fs.binding dp (name.take DIRSIZ) = none ∧ after = k
          | some ip => k.fs.binding dp (name.take DIRSIZ) = some (after.fs.icache ip).inum ∧
              after.fs.binding dp = update (k.fs.binding dp) (name.take DIRSIZ) none ∧
              k.fs.Admitted after.fs)
        (fun _ => False) := by
  obtain ⟨dir', distinct'⟩ : k.fs.DirAt dp ∧ Distinct (k.fs.table dp) :=
    reachable.invariant (fun k => k.fs.DirAt dp ∧ Distinct (k.fs.table dp)) ⟨dir, distinct⟩
      fun before act after inv allowed stepped => dirStep_keeps inv.1 inv.2 allowed.1 stepped
  refine ⟨distinct', fun name cached => ?_,
    fun name inum ⟨noNul, positive, fits⟩ ⟨cached, room⟩ => ?_, fun name ⟨cached, room⟩ => ?_⟩
  · refine (dirlookup_spec devsw p _ dir').mono (fun result after facts => ?_)
      fun _ ⟨inum, bound, full⟩ => cached inum bound full
    cases result with
    | none =>
      obtain ⟨absent, rfl⟩ := facts
      exact ⟨rfl, absent⟩
    | some found =>
      obtain ⟨ip, off⟩ := found
      obtain ⟨inum, j, isOff, bound, held, fs, got, rfl⟩ := facts
      exact ⟨(dir'.got got).2, inum, j, bound, got.number, isOff, held⟩
  · refine (dirlink_spec devsw p dir' noNul positive fits).mono ?_ ?_
    · rintro result after (⟨present, refused, dropped, -⟩ |
        ⟨absent, added, -, elsewhere, j, vacant, stored, length⟩)
      · exact .inl ⟨present, refused, dropped, table_congr (dropped.alone dir'.live.ref_pos)⟩
      · obtain ⟨bound, grown⟩ := binding_link distinct' absent vacant stored length
        exact .inr ⟨absent, added, bound, grown, elsewhere, elsewhere.admitted (room absent).2⟩
    · rintro stop (⟨bound, present, full⟩ | ⟨absent, full⟩)
      · exact cached bound present full
      · exact (room absent).1 full
  · refine (erase_spec devsw p dir').mono (fun result after facts => ?_)
      fun _ ⟨inum, bound, full⟩ => cached inum bound full
    cases result with
    | none =>
      obtain ⟨absent, rfl⟩ := facts
      exact ⟨rfl, absent, rfl⟩
    | some ip =>
      obtain ⟨inum, j, held, -, number, stored, length, fs, got, elsewhere⟩ := facts
      have bound : k.fs.binding dp (name.take DIRSIZ) = some inum := distinct'.lookup_eq held
      refine ⟨length, by rw [number, bound], lookup_erase distinct' stored held, ?_⟩
      have room' := room (by rw [bound]; exact Option.some_ne_none inum)
      -- taking the reference logs nothing
      cases got with
      | hit referenced here => exact elsewhere.admitted room'
      | miss unused absent => exact elsewhere.admitted room'

end Sequences

/-- A kernel with one empty directory, which is locked. -/
def emptyDir : Kernel Unit where
  fs := ((boot blankDisk).take T_DIR 1).setSlot 0
    { inum := 1, ref := 1, busy := true, valid := true, copy := Dinode.zeroed T_DIR }
  ftable _ := { type := .none, ref := 0, readable := false, writable := false, ip := 0, off := 0 }
  procs _ := { cwd := none, ofile := fun _ => none }
  sections := []
  claimed _ := none

theorem emptyDir_dirAt : emptyDir.fs.DirAt 0 := by
  have free : ((boot blankDisk).dinode 1).type = 0 := by decide +kernel
  have inside : 1 < (boot blankDisk).sb.ninodes := by decide +kernel
  have taken : ((boot blankDisk).take T_DIR 1).Sound :=
    (boot_sound blankDisk_formed).take inside free (by decide)
  have unused : ∀ jp, ¬0 < (((boot blankDisk).take T_DIR 1).icache jp).ref := fun _ => lt_irrefl _
  have disk : ((boot blankDisk).take T_DIR 1).dinode 1 = Dinode.zeroed T_DIR := by
    rw [dinode_take (by decide), if_pos rfl]
  refine ⟨(taken.setSlot (i := 1)
    ⟨fun live => absurd live.ref_pos (unused 0), fun _ => ⟨rfl, inside⟩,
    fun jp _ positive => absurd positive (unused jp),
    fun _ _ _ => .inr disk.symm⟩).alone 0, ?_, ?_, ?_⟩
  · decide +kernel
  · decide +kernel
  · decide +kernel

/-- The calls that a run may make; nothing else happens. -/
def DirAct.isMet (dp : Slot) (k : Kernel Unit) (act : DirAct Unit) : Bool :=
  decide (act.Meets dp k) && match act with
    | .link name inum => decide (0 ∉ name ∧ 0 < inum ∧ inum < 2 ^ 16)
    | .lookup _ => true
    | .erase _ => true
    | .other _ => false

theorem DirAct.of_isMet {dp : Slot} {k : Kernel Unit} {act : DirAct Unit}
    (check : act.isMet dp k = true) : act.Allowed dp k ∧ act.Meets dp k := by
  unfold isMet at check
  rw [Bool.and_eq_true, decide_eq_true_eq] at check
  refine ⟨?_, check.1⟩
  cases act with
  | link name inum =>
    have argument := of_decide_eq_true check.2
    exact argument
  | lookup name => trivial
  | erase name => trivial
  | other after => cases check.2

/-- Two names are bound and the first is erased; then its slot is used again. -/
theorem directory_map_reused : ∃ k : Kernel Unit, Distinct (k.fs.table 0) ∧
    k.fs.binding 0 [98] = some 60000 ∧ k.fs.binding 0 [97] = none ∧
      (alone noDevices () (dirlink 0 [99] 7)).Ensures k
        (fun result after => result = true ∧ (after.fs.table 0).length = 2 ∧
          after.fs.binding 0 = update (k.fs.binding 0) [99] (some 7) ∧ k.fs.Admitted after.fs)
        (fun _ => False) := by
  have ran : (Transition.run (dirStep noDevices () 0) (DirAct.isMet 0) emptyDir
        [.link [97] 5, .link [98] 60000, .erase [97], .lookup [98]]).any
      (fun k => decide (k.fs.binding 0 [98] = some 60000 ∧ k.fs.binding 0 [97] = none ∧
        k.fs.binding 0 [99] = none ∧ none ∈ k.fs.table 0 ∧ (k.fs.table 0).length = 2 ∧
        (DirAct.link [99] 7).Meets 0 k)) = true := by
    decide +kernel
  obtain ⟨k, reachable, bound, erased, absent, free, length, meets⟩ :=
    Transition.Reachable.exists_of_run _ (fun k act => DirAct.of_isMet) _ _ ran
  have empty : Distinct (emptyDir.fs.table 0) := by
    have none : emptyDir.fs.table 0 = [] := by decide +kernel
    rw [none]
    intro i j name v w held
    cases held
  obtain ⟨distinct, -, link, -⟩ := directory_map emptyDir_dirAt empty reachable
  refine ⟨k, distinct, bound, erased, (link [99] 7 ⟨by decide, by decide, by decide⟩ meets).mono ?_
    fun _ never => never⟩
  rintro result after (⟨present, -⟩ | ⟨-, isTrue, isBound, grown, -, admitted⟩)
  · exact absurd absent present
  · rw [if_pos free, length] at grown
    exact ⟨isTrue, grown, isBound, admitted⟩

/-- With 49 files open besides the directory, looking up a name that the directory binds to
another inode makes the kernel panic. -/
theorem directory_lookup_stops : ∃ k : Kernel Unit, k.fs.DirAt 0 ∧ Distinct (k.fs.table 0) ∧
    k.fs.binding 0 [120] = some 2 ∧
    (alone noDevices () (dirlookup 0 [120])).Ensures k (fun _ _ => False)
      (fun stop => stop = .panic .igetNoInodes) := by
  obtain ⟨fs, -, sound, -, live, type, aligned, table, stops⟩ := exists_of_blank
    ([.ialloc 1, .ilock 0, .ialloc 2, .ilock 1, .iupdate 1 0 0 1, .iunlock 1, .iput 1,
      .writei 0 (Dirent.encode ⟨2, [120]⟩) 0] ++ List.replicate 49 (.ialloc 2))
    (fun fs => fs.Live 0 ∧ (fs.icache 0).copy.type = T_DIR ∧
      DESIZE ∣ (fs.icache 0).copy.size ∧ fs.table 0 = [some ([120], 2)] ∧
      (alone noDevices () (dirlookup 0 [120])).Ensures { emptyDir with fs := fs }
        (fun _ _ => False) (fun stop => stop = .panic .igetNoInodes)) (by decide +kernel)
  refine ⟨{ emptyDir with fs := fs }, ⟨sound.alone 0, live, type, aligned⟩, ?_, ?_, stops⟩
  · rw [table]
    intro i j name v w first second
    have zero := (List.getElem?_eq_some_iff.mp first).1
    have zero' := (List.getElem?_eq_some_iff.mp second).1
    simp only [List.length_singleton] at zero zero'
    omega
  · unfold Fs.binding
    rw [table]
    rfl

end Sys

end Xv6
