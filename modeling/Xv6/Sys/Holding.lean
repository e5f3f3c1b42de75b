import Mathlib.Data.Multiset.AddSub
import Xv6.Sys.Calls

/-!
# What a system call holds

The calls of `sysfile.c` take references to inodes and files, lock inodes and open
transactions, and have to give everything back on every path.  `Holding` is what a process
has in the middle of a call, `Holding.spec` what a step asks of it and makes of it.  The
replies are arbitrary, so the rules are kept whatever other processes do in between.
-/

namespace Xv6.Sys

/-- What a process has in hand besides inodes. -/
inductive Pending where
  | nothing
  /-- a file from `filealloc`, with no descriptor yet -/
  | fresh (f : FileId)
  /-- a file from `filealloc`, with a descriptor and without an inode -/
  | placed (f : FileId)
  /-- a file out of a descriptor -/
  | taken (f : FileId)
  /-- `proc->cwd` has been taken and not been set -/
  | cwd
  deriving DecidableEq

structure Holding where
  /-- between `begin_op` and `end_op` -/
  inOp : Bool
  locks : Multiset Slot
  refs : Multiset Slot
  pending : Pending

namespace Holding

def none : Holding := ⟨false, 0, 0, .nothing⟩

/-- After `exit`. -/
def gone : Holding := ⟨false, 0, 0, .cwd⟩

def get (h : Holding) (ip : Slot) : Holding := { h with refs := ip ::ₘ h.refs }

def put (h : Holding) (ip : Slot) : Holding := { h with refs := h.refs.erase ip }

def become (h : Holding) (pending : Pending) : Holding := { h with pending := pending }

/-- What a step asks for, and what the process holds after each reply. -/
def spec : (op : Op) → (Reply op → Holding → Prop) → Holding → Prop
  | .beginOp, good, h => h.inOp = false ∧ h.locks = 0 ∧ good () { h with inOp := true }
  | .endOp, good, h => h.inOp = true ∧ h.locks = 0 ∧ good () { h with inOp := false }
  | .iget _, good, h | .igetClaimed _, good, h | .idupCwd, good, h => ∀ ip, good ip (h.get ip)
  | .takeCwd, good, h => h.pending = .nothing ∧ ∀ ip, good ip ((h.become .cwd).get ip)
  | .setCwd ip, good, h => h.pending = .cwd ∧ ip ∈ h.refs ∧ good () ((h.become .nothing).put ip)
  | .iallocTry _ _, good, h => h.inOp = true ∧ ∀ taken, good taken h
  | .ilockAcquire ip, good, h => h.locks.card ≤ 1 ∧ good () { h with locks := ip ::ₘ h.locks }
  | .ilockLoad ip, good, h => ip ∈ h.locks ∧ good () h
  | .iunlock ip, good, h => ip ∈ h.locks ∧ good () { h with locks := h.locks.erase ip }
  | .iputTest ip, good, h => h.inOp = true ∧ ip ∈ h.refs ∧ good false (h.put ip) ∧ good true h
  | .itrunc ip, good, h | .iputClear ip, good, h => h.inOp = true ∧ ip ∈ h.refs ∧ good () h
  | .iputFinish ip, good, h => ip ∈ h.refs ∧ good () (h.put ip)
  -- `fileread` reads outside a transaction
  | .stat ip, good, h | .readi ip _ _, good, h => ip ∈ h.locks ∧ ∀ reply, good reply h
  | .dirlookup ip _, good, h | .dirlinkOffset ip, good, h | .isdirempty ip, good, h
  | .iupdate ip _ _ _, good, h | .writei ip _ _, good, h =>
    h.inOp = true ∧ ip ∈ h.locks ∧ ∀ reply, good reply h
  | .filealloc, good, h => h.pending = .nothing ∧ good .none h ∧
      ∀ f, good (some f) (h.become (.fresh f))
  | .fdalloc f, good, h => h.pending = .fresh f ∧ good .none h ∧
      ∀ fd, good (some fd) (h.become (.placed f))
  | .install f ip _, good, h => h.pending = .placed f ∧ ip ∈ h.refs ∧
      good () ((h.become .nothing).put ip)
  | .takeFd _, good, h => h.pending = .nothing ∧ good .none h ∧
      ∀ f, good (some f) (h.become (.taken f))
  | .fileclose f, good, h => good .none (h.become .nothing) ∧ (h.pending = .fresh f ∨
      h.pending = .taken f ∧ ∀ ip, good (some ip) ((h.become .nothing).get ip))
  | .panic _, _, _ => True
  | _, good, h => ∀ reply, good reply h

theorem put_get {b : Bool} {L R : Multiset Slot} {F : Pending} {ip : Slot} :
    put ⟨b, L, ip ::ₘ R, F⟩ ip = ⟨b, L, R, F⟩ := by
  simp [put]

theorem put_last (ip : Slot) : put ⟨false, 0, ip ::ₘ 0, .nothing⟩ ip = none := put_get

end Holding

/-- The program keeps to the rules from here on, and `post` holds when it returns. -/
abbrev Obeys {α : Type} (post : α → Holding → Prop) (program : P α) (h : Holding) : Prop :=
  program.wp Holding.spec post h

section Rules

variable {α β : Type} {post : α → Holding → Prop} {h : Holding}

theorem Obeys.bind {first : P β} {rest : β → P α}
    (obeys : Obeys (fun value => Obeys post (rest value)) first h) :
    Obeys post (first >>= rest) h := by
  rwa [Obeys, Prog.wp_bind]

theorem Obeys.ite {condition : Prop} [Decidable condition] {yes no : P α} (first : Obeys post yes h)
    (second : Obeys post no h) : Obeys post (if condition then yes else no) h := by
  split
  · exact first
  · exact second

end Rules

/-! ## Inodes, paths and files -/

section Parts

variable {b : Bool} {L R : Multiset Slot} {F : Pending} {ip dp : Slot}

section Unit

variable {post : Unit → Holding → Prop}

theorem obeys_iput (next : post () ⟨true, L, R, F⟩) :
    Obeys post (iput ip) ⟨true, L, ip ::ₘ R, F⟩ := by
  rw [← Holding.put_get] at next
  have mine := Multiset.mem_cons_self ip R
  exact ⟨rfl, mine, next, rfl, mine, rfl, mine, mine, next⟩

theorem obeys_ilock (few : L.card ≤ 1) (next : post () ⟨b, ip ::ₘ L, R, F⟩) :
    Obeys post (ilock ip) ⟨b, L, R, F⟩ :=
  ⟨few, Multiset.mem_cons_self ip L, next⟩

theorem obeys_lockStat {α : Type} {post : α → Holding → Prop} {rest : Nat × Dinode → P α}
    (few : L.card ≤ 1) (next : ∀ inum inode, Obeys post (rest (inum, inode)) ⟨b, ip ::ₘ L, R, F⟩) :
    Obeys post (ilock ip >>= fun _ => call (.stat ip) >>= rest) ⟨b, L, R, F⟩ := by
  refine .bind (obeys_ilock few (.bind ⟨Multiset.mem_cons_self ip L, ?_⟩))
  rintro ⟨inum, inode⟩
  exact next inum inode

theorem obeys_iunlock (next : post () ⟨b, L, R, F⟩) :
    Obeys post (iunlock ip) ⟨b, ip ::ₘ L, R, F⟩ := by
  rw [← Multiset.erase_cons_head ip L] at next
  exact ⟨Multiset.mem_cons_self ip L, next⟩

theorem obeys_iunlockput (next : post () ⟨true, L, R, F⟩) :
    Obeys post (iunlockput ip) ⟨true, ip ::ₘ L, ip ::ₘ R, F⟩ :=
  .bind (obeys_iunlock (obeys_iput next))

theorem obeys_fileclose {f : FileId} (next : post () ⟨false, 0, R, .nothing⟩) :
    Obeys post (fileclose f) ⟨false, 0, R, .taken f⟩ := by
  refine .bind ⟨next, .inr ⟨rfl, fun ip => ?_⟩⟩
  exact .bind ⟨rfl, rfl, .bind (obeys_iput ⟨rfl, rfl, next⟩)⟩

theorem obeys_advance {f : FileId} {off : Nat} {r : Option Nat} {h : Holding} (next : post () h) :
    Obeys post (advance f off r) h := by
  cases r with
  | none => exact next
  | some r => exact .ite (fun _ => next) next

end Unit

theorem obeys_dirlookup {post : Option (Slot × Nat) → Holding → Prop} {name : List UInt8}
    (locked : dp ∈ L) (found : ∀ jp off, post (some (jp, off)) ⟨true, L, jp ::ₘ R, F⟩)
    (missing : post none ⟨true, L, R, F⟩) : Obeys post (dirlookup dp name) ⟨true, L, R, F⟩ := by
  refine ⟨rfl, locked, ?_⟩
  rintro (_ | ⟨inum, off⟩)
  · exact missing
  · exact fun jp => found jp off

theorem obeys_dirlink {post : Bool → Holding → Prop} {name : List UInt8} {inum : Nat}
    (locked : dp ∈ L) (next : ∀ linked, post linked ⟨true, L, R, F⟩) :
    Obeys post (dirlink dp name inum) ⟨true, L, R, F⟩ := by
  refine .bind (obeys_dirlookup locked (fun jp off => .bind (obeys_iput (next false))) ?_)
  exact .bind ⟨rfl, locked, fun off => .bind ⟨rfl, locked, fun r => .ite (next true) trivial⟩⟩

section Paths

variable {post : Option (Slot × List UInt8) → Holding → Prop}
  (found : ∀ jp name, post (some (jp, name)) ⟨true, 0, jp ::ₘ R, F⟩)
  (missing : post none ⟨true, 0, R, F⟩)

include found missing

theorem obeys_namexLoop (parent : Bool) (fuel : Nat) (path last : List UInt8) (ip : Slot) :
    Obeys post (namexLoop parent fuel path last ip) ⟨true, 0, ip ::ₘ R, F⟩ := by
  induction fuel generalizing path last ip with
  | zero => exact found ip last
  | succ fuel ih =>
    unfold namexLoop
    split
    · exact .ite (.bind (obeys_iput missing)) (found ip last)
    · refine obeys_lockStat (Nat.zero_le 1) fun _ inode => ?_
      refine .ite (.bind (obeys_iunlockput missing)) (.ite (.bind (obeys_iunlock (found ip _))) ?_)
      refine .bind
        (obeys_dirlookup (by simp) (fun next off => ?_) (.bind (obeys_iunlockput missing)))
      rw [Multiset.cons_swap]
      exact .bind (obeys_iunlockput (ih _ _ next))

theorem obeys_namex {path : List UInt8} {parent : Bool} :
    Obeys post (namex path parent) ⟨true, 0, R, F⟩ := by
  have loop := obeys_namexLoop found missing parent (path.length + 1) path []
  exact .ite (.bind loop) (.bind loop)

end Paths

theorem obeys_namei {post : Option Slot → Holding → Prop} {path : List UInt8}
    (found : ∀ jp, post (some jp) ⟨true, 0, jp ::ₘ R, F⟩) (missing : post none ⟨true, 0, R, F⟩) :
    Obeys post (namei path) ⟨true, 0, R, F⟩ :=
  .bind (obeys_namex (fun jp _ => found jp) missing)

theorem obeys_ialloc {post : Slot → Holding → Prop} {type : Nat}
    (next : ∀ jp, post jp ⟨true, L, jp ::ₘ R, F⟩) : Obeys post (ialloc type) ⟨true, L, R, F⟩ := by
  have loop : ∀ inums, Obeys post (iallocLoop type inums) ⟨true, L, R, F⟩ := by
    intro inums
    induction inums with
    | nil => trivial
    | cons inum rest ih => exact .bind ⟨rfl, fun taken => .ite next ih⟩
  exact .bind fun ninodes => loop _

theorem obeys_createInode {post : Slot × Nat → Holding → Prop} {type major minor : Nat}
    (next : ∀ jp inum, post (jp, inum) ⟨true, jp ::ₘ dp ::ₘ 0, jp ::ₘ R, F⟩) :
    Obeys post (createInode dp type major minor) ⟨true, dp ::ₘ 0, R, F⟩ := by
  refine .bind (obeys_ialloc fun jp => obeys_lockStat (by simp) fun inum _ => ?_)
  have locked : jp ∈ jp ::ₘ dp ::ₘ 0 ∧ dp ∈ jp ::ₘ dp ::ₘ 0 := by simp
  refine .bind ⟨rfl, locked.1, fun _ => .ite (.bind ⟨locked.2, ?_⟩) (next jp inum)⟩
  rintro ⟨parent, inode⟩
  refine .bind ⟨rfl, locked.2, fun _ => .bind ?_⟩
  refine obeys_dirlink locked.1 fun first => .ite (.bind ?_) trivial
  exact obeys_dirlink locked.1 fun second => .ite (next jp inum) trivial

section Opening

variable {post : Option Slot → Holding → Prop} {path : List UInt8}
  (found : ∀ jp, post (some jp) ⟨true, jp ::ₘ 0, jp ::ₘ R, F⟩) (missing : post none ⟨true, 0, R, F⟩)

include found missing

theorem obeys_create {type major minor : Nat} :
    Obeys post (create path type major minor) ⟨true, 0, R, F⟩ := by
  refine .bind (obeys_namex (fun dp name => .bind (obeys_ilock (Nat.zero_le 1) (.bind ?_))) missing)
  refine obeys_dirlookup (Multiset.mem_cons_self dp 0) (fun jp off => ?_) ?_
  · rw [Multiset.cons_swap]
    refine .bind (obeys_iunlockput (obeys_lockStat (Nat.zero_le 1) fun _ inode => ?_))
    exact .ite (found jp) (.bind (obeys_iunlockput missing))
  · refine .bind (obeys_createInode fun jp inum => ?_)
    refine .bind (obeys_dirlink (by simp) fun linked => ?_)
    rw [Multiset.cons_swap, Multiset.cons_swap jp dp]
    exact .ite (.bind (obeys_iunlockput (found jp))) trivial

theorem obeys_openInode {omode : Nat} : Obeys post (openInode path omode) ⟨true, 0, R, F⟩ := by
  refine .ite (obeys_create found missing) (.bind (obeys_namei (fun jp => ?_) missing))
  refine obeys_lockStat (Nat.zero_le 1) fun _ inode => ?_
  exact .ite (.bind (obeys_iunlockput missing)) (found jp)

end Opening

end Parts

/-! ## The calls -/

/-- With nothing held at the start, `last` is held at the end. -/
abbrev Leaves (last : Holding) (program : P (Option Nat)) : Prop :=
  Obeys (fun _ h => h = last) program .none

abbrev Clean := Leaves .none

theorem clean_read (fd : Fd) (n : Nat) : Clean (sysRead fd n) := by
  refine .bind ?_
  rintro (_ | f)
  · rfl
  refine .bind (.bind fun file => .ite rfl ?_)
  cases file.type with
  | none => trivial
  | inode =>
    refine .bind (obeys_ilock (Nat.zero_le 1) (.bind fun again => ?_))
    refine .bind ⟨Multiset.mem_cons_self file.ip 0, fun r => ?_⟩
    exact .bind (obeys_advance (.bind (obeys_iunlock rfl)))

theorem obeys_filewriteLoop {post : Nat → Holding → Prop} (next : ∀ i, post i .none) (f : FileId)
    (addr : Nat → UInt8) (n : Int) (fuel i : Nat) :
    Obeys post (filewriteLoop f addr n fuel i) .none := by
  induction fuel generalizing i with
  | zero => exact next i
  | succ fuel ih =>
    refine .ite
      (.bind (.bind ⟨rfl, rfl, .bind fun file => .bind (obeys_ilock (Nat.zero_le 1) ?_)⟩)) (next i)
    refine .bind fun again => .bind ⟨rfl, Multiset.mem_cons_self file.ip 0, fun r => ?_⟩
    refine .bind (obeys_advance (.bind (obeys_iunlock (.bind ⟨rfl, rfl, ?_⟩))))
    cases r with
    | none => exact next i
    | some r => exact .ite (ih _) trivial

theorem clean_write (fd : Fd) (addr : Nat → UInt8) (n : Int) : Clean (sysWrite fd addr n) := by
  refine .bind ?_
  rintro (_ | f)
  · rfl
  refine .bind fun file => .ite rfl ?_
  cases file.type with
  | none => trivial
  | inode => exact .bind (obeys_filewriteLoop (fun i => .ite rfl rfl) f addr n _ 0)

/-- The end of a call that fails with one inode locked. -/
theorem obeys_bad (ip : Slot) :
    Obeys (fun _ h => h = .none) (sysOpenBad ip) ⟨true, ip ::ₘ 0, ip ::ₘ 0, .nothing⟩ :=
  .bind (obeys_iunlockput (.bind ⟨rfl, rfl, rfl⟩))

theorem clean_open (path : List UInt8) (omode : Nat) : Clean (sysOpen path omode) := by
  refine .bind ⟨rfl, rfl, .bind (obeys_openInode (fun jp => ?_) (.bind ⟨rfl, rfl, rfl⟩))⟩
  refine .bind ⟨rfl, obeys_bad jp,
    fun f => .bind ⟨rfl, .bind (.bind ⟨obeys_bad jp, .inl rfl⟩), fun fd => ?_⟩⟩
  refine .bind (obeys_iunlock (L := 0) ?_)
  exact .bind ⟨rfl, rfl, .bind ⟨rfl, Multiset.mem_cons_self jp 0, Holding.put_last jp⟩⟩

theorem clean_make (path : List UInt8) (type major minor : Nat) :
    Clean (sysMake path type major minor) := by
  refine .bind ⟨rfl, rfl, .bind (obeys_create (fun jp => ?_) (.bind ⟨rfl, rfl, rfl⟩))⟩
  exact .bind (obeys_iunlockput (.bind ⟨rfl, rfl, rfl⟩))

theorem clean_link (old new : List UInt8) : Clean (sysLink old new) := by
  have bad : ∀ jp, Obeys (fun _ h => h = .none) (sysLinkBad jp) ⟨true, 0, jp ::ₘ 0, .nothing⟩ := by
    refine fun jp => obeys_lockStat (Nat.zero_le 1) fun _ inode => ?_
    exact .bind ⟨rfl, Multiset.mem_cons_self jp 0, fun _ => obeys_bad jp⟩
  refine .bind ⟨rfl, rfl, .bind (obeys_namei (fun jp => ?_) (.bind ⟨rfl, rfl, rfl⟩))⟩
  refine obeys_lockStat (Nat.zero_le 1) fun inum inode => .ite (obeys_bad jp) ?_
  refine .bind ⟨rfl, Multiset.mem_cons_self jp 0, fun _ => .bind (obeys_iunlock (.bind ?_))⟩
  refine obeys_namex (fun dp name => ?_) (bad jp)
  refine .bind
    (obeys_ilock (Nat.zero_le 1) (.bind (obeys_dirlink (by simp) fun linked => .ite ?_ ?_)))
  · exact .bind (obeys_iunlockput (.bind (obeys_iput (.bind ⟨rfl, rfl, rfl⟩))))
  · exact .bind (obeys_iunlockput (bad jp))

theorem clean_unlink (path : List UInt8) : Clean (sysUnlink path) := by
  refine .bind ⟨rfl, rfl, .bind (obeys_namex (fun dp name => ?_) (.bind ⟨rfl, rfl, rfl⟩))⟩
  refine .bind (obeys_ilock (Nat.zero_le 1) (.ite (obeys_bad dp) (.bind ?_)))
  refine obeys_dirlookup (Multiset.mem_cons_self dp 0) (fun jp off => ?_) (obeys_bad dp)
  have locked : jp ∈ jp ::ₘ dp ::ₘ 0 ∧ dp ∈ jp ::ₘ dp ::ₘ 0 := by simp
  refine obeys_lockStat (by simp) fun _ inode => .ite trivial (.bind ?_)
  -- the directory goes back before the inode found in it; what is returned does not matter
  have dropped : Obeys (fun _ h => h = .none) (do
      iunlockput dp
      call (.iupdate jp inode.major inode.minor (inode.nlink + (2 ^ 16 - 1)))
      sysOpenBad jp) ⟨true, jp ::ₘ dp ::ₘ 0, jp ::ₘ dp ::ₘ 0, .nothing⟩ := by
    rw [Multiset.cons_swap]
    exact .bind (obeys_iunlockput (.bind ⟨rfl, Multiset.mem_cons_self jp 0, fun _ => obeys_bad jp⟩))
  have rest : ∀ entries : Bool, Obeys (fun _ h => h = .none)
      (if entries then do iunlockput jp; sysUnlinkBad dp else unlinkEntry dp jp off inode)
      ⟨true, jp ::ₘ dp ::ₘ 0, jp ::ₘ dp ::ₘ 0, .nothing⟩ := by
    refine fun entries => .ite (.bind (obeys_iunlockput (obeys_bad dp))) ?_
    refine .bind ⟨rfl, locked.2, fun r => .ite (.bind ?_) trivial⟩
    refine .ite (.bind ⟨locked.2, ?_⟩) dropped
    rintro ⟨_, parent⟩
    exact ⟨rfl, locked.2, fun _ => dropped⟩
  exact .ite (.bind ⟨rfl, locked.1, fun empty => rest _⟩) (rest _)

theorem clean_chdir (path : List UInt8) : Clean (sysChdir path) := by
  refine .bind ⟨rfl, rfl, .bind (obeys_namei (fun jp => ?_) (.bind ⟨rfl, rfl, rfl⟩))⟩
  refine obeys_lockStat (Nat.zero_le 1) fun _ inode => .ite (obeys_bad jp) ?_
  refine .bind (obeys_iunlock (.bind ⟨rfl, fun old => .bind (obeys_iput ?_)⟩))
  exact .bind ⟨rfl, rfl, .bind ⟨rfl, Multiset.mem_cons_self jp 0, Holding.put_last jp⟩⟩

theorem leaves_exit : Leaves .gone exit := by
  refine .bind ?_
  generalize List.finRange NOFILE = fds
  induction fds with
  | nil =>
    exact .bind ⟨rfl, rfl, .bind ⟨rfl, fun cwd => .bind (obeys_iput (.bind ⟨rfl, rfl, rfl⟩))⟩⟩
  | cons fd rest ih => exact .bind ⟨rfl, ih, fun f => .bind (obeys_fileclose ih)⟩

/-- What a process holds when a call has returned. -/
def Call.last : Call → Holding
  | .exit => .gone
  | _ => .none

/-- Every system call keeps to the rules on every path, and ends with nothing in hand. -/
theorem call_discipline (c : Call) : Leaves c.last c.program := by
  cases c with
  | «open» path omode => exact clean_open path omode
  | mkdir path => exact clean_make path T_DIR 0 0
  | mknod path major minor => exact clean_make path T_DEV major minor
  | link old new => exact clean_link old new
  | unlink path => exact clean_unlink path
  | chdir path => exact clean_chdir path
  | close fd => exact .bind ⟨rfl, rfl, fun _ => .bind (obeys_fileclose rfl)⟩
  | exit => exact leaves_exit
  | read fd n => exact clean_read fd n
  | write fd addr n => exact clean_write fd addr n

end Xv6.Sys
