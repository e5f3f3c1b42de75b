import Xv6.Lib.Word
import Xv6.Sys.Calls

/-!
# Pointers passed to system calls

`argptr` and the calls that read or write user memory through the pointer it
checks.  Each function gives the user addresses that it touches through that
pointer, in order; what it finds elsewhere (the state of a pipe, the keys typed,
the inode behind a file and its offset) is left open.

The length is an `int` that `argptr` adds to the pointer as unsigned and that
`readi` takes as unsigned, while the other loops compare it as signed.
-/

namespace Xv6

namespace Args

/-- An inode as a read or write finds it once it is locked, and `f->off`. -/
structure View where
  isDevice : Bool
  major : Nat
  size : Word
  off : Word

inductive Source where
  /-- `nread` and `nwrite` when `piperead` stops waiting, unless the process is
  killed; and whether `pipewrite` gets room for a byte -/
  | pipe (found : Option (Word × Word)) (room : Nat → Bool)
  /-- the inode at each locking; and the keys `consoleread` waits for, up to the
  one during which the process is killed -/
  | inode (view : Nat → View) (keys : List (Option UInt8))

structure File where
  readable : Bool
  writable : Bool
  source : Source

structure Task where
  sz : Word
  esp : Word
  mem : Word → UInt8
  ofile : Fd → Option File
  /-- whether `sys_pipe` gets its files and descriptors -/
  gotPipe : Bool

/-- The driver in `devsw`. -/
abbrev CONSOLE : Nat := 1

/-! ## Arguments -/

namespace Task

variable (t : Task)

def word (addr : Word) : Word :=
  (t.mem (addr + 3)).toBitVec ++ (t.mem (addr + 2)).toBitVec ++ (t.mem (addr + 1)).toBitVec ++
    (t.mem addr).toBitVec

def fetchint (addr : Word) : Option Word :=
  if t.sz ≤ addr ∨ t.sz < addr + 4 then none else some (t.word addr)

def argint (n : Word) : Option Word := t.fetchint (t.esp + 4 + 4 * n)

def argptr (n size : Word) : Option Word :=
  match t.argint n with
  | none => none
  | some i => if t.sz ≤ i ∨ t.sz < i + size then none else some i

def argfd (n : Word) : Option File :=
  match t.argint n with
  | none => none
  | some fd =>
    if small : 0 ≤ fd.toInt ∧ fd.toInt < NOFILE then t.ofile ⟨fd.toInt.toNat, by omega⟩ else none

end Task

/-! ## Transfers -/

def minWord (a b : Word) : Word := if a < b then a else b

def copyLoop : (fuel : Nat) → (tot n off pointer : Word) → List Word
  | 0, _, _, _, _ => []
  | fuel + 1, tot, n, off, pointer =>
    if tot < n then
      let m := minWord (n - tot) (512 - off % 512)
      Word.span pointer m.toNat ++ copyLoop fuel (tot + m) n (off + m) (pointer + m)
    else []

def consoleread : (keys : List (Option UInt8)) → (dst : Word) → (n : Int) → List Word
  | [], _, _ => []
  | key :: keys, dst, n =>
    if 0 < n then
      match key with
      | none => []
      | some c =>
        -- control-D ends the input
        if c = 4 then []
        else if c = 10 then [dst]
        else dst :: consoleread keys (dst + 1) (n - 1)
    else []

/-- One turn for each `i < n`, compared as signed. -/
def consolewrite (buf : Word) (n : Int) : List Word := Word.span buf n.toNat

def readi (view : View) (keys : List (Option UInt8)) (dst n : Word) : List Word :=
  if view.isDevice then
    if view.major = CONSOLE then consoleread keys dst n.toInt else []
  else if view.size < view.off ∨ view.off + n < view.off then []
  else
    let n := if view.size < view.off + n then view.size - view.off else n
    copyLoop n.toNat 0 n view.off dst

/-- With the return value, `none` for -1. -/
def writei (view : View) (src n : Word) : Option Word × List Word :=
  if view.isDevice then
    if view.major = CONSOLE then (some n, consolewrite src n.toInt) else (none, [])
  else if view.size < view.off ∨ view.off + n < view.off then (none, [])
  else if BitVec.ofNat 32 (MAXFILE * BSIZE) < view.off + n then (none, [])
  else (some n, copyLoop n.toNat 0 n view.off src)

def pipereadLoop (addr nwrite : Word) : (left i : Nat) → (nread : Word) → List Word
  | 0, _, _ => []
  | left + 1, i, nread =>
    if nread = nwrite then []
    else (addr + BitVec.ofNat 32 i) :: pipereadLoop addr nwrite left (i + 1) (nread + 1)

def piperead (found : Option (Word × Word)) (addr : Word) (n : Int) : List Word :=
  match found with
  | none => []
  | some (nread, nwrite) => pipereadLoop addr nwrite n.toNat 0 nread

def pipewriteLoop (room : Nat → Bool) (addr : Word) : (left i : Nat) → List Word
  | 0, _ => []
  | left + 1, i =>
    if room i then (addr + BitVec.ofNat 32 i) :: pipewriteLoop room addr left (i + 1) else []

def pipewrite (room : Nat → Bool) (addr : Word) (n : Int) : List Word :=
  pipewriteLoop room addr n.toNat 0

def filewriteLoop (view : Nat → View) (addr : Word) (n : Int) :
    (fuel sections : Nat) → (i : Int) → List Word
  | 0, _, _ => []
  | fuel + 1, sections, i =>
    if i < n then
      let n1 := min (n - i) Sys.maxWrite
      let (r, touched) := writei (view sections) (addr + BitVec.ofInt 32 i) (BitVec.ofInt 32 n1)
      -- a short write is a panic
      if r = some (BitVec.ofInt 32 n1) then
        touched ++ filewriteLoop view addr n fuel (sections + 1) (i + n1)
      else touched
    else []

def fileread (f : File) (addr n : Word) : List Word :=
  if !f.readable then []
  else match f.source with
    | .pipe found _ => piperead found addr n.toInt
    | .inode view keys => readi (view 0) keys addr n

def filewrite (f : File) (addr n : Word) : List Word :=
  if !f.writable then []
  else match f.source with
    | .pipe _ room => pipewrite room addr n.toInt
    | .inode view _ => filewriteLoop view addr n.toInt n.toInt.toNat 0 0

/-- The fields of `struct stat`, which has two holes. -/
def stati (st : Word) : List Word :=
  Word.span st 2 ++ Word.span (st + 4) 4 ++ Word.span (st + 8) 4 ++ Word.span (st + 12) 2 ++
    Word.span (st + 16) 4

def filestat (f : File) (st : Word) : List Word :=
  match f.source with
  | .pipe _ _ => []
  | .inode _ _ => stati st

/-! ## System calls -/

inductive Call where
  | read
  | write
  | fstat
  | pipe
  deriving DecidableEq, Repr

namespace Task

variable (t : Task)

def checkBuffer : Option (File × Word × Word) :=
  match t.argfd 0, t.argint 2 with
  | some f, some n => (t.argptr 1 n).map fun p => (f, p, n)
  | _, _ => none

def checkStat : Option (File × Word) :=
  match t.argfd 0 with
  | some f => (t.argptr 1 20).map fun st => (f, st)
  | none => none

def pointer : Call → Option (Word × Word)
  | .read => t.checkBuffer.map fun (_, p, n) => (p, n)
  | .write => t.checkBuffer.map fun (_, p, n) => (p, n)
  | .fstat => t.checkStat.map fun (_, st) => (st, 20)
  | .pipe => (t.argptr 0 8).map fun fd => (fd, 8)

/-- The user addresses that a call touches through the pointer. -/
def accesses : Call → List Word
  | .read =>
    match t.checkBuffer with
    | some (f, p, n) => fileread f p n
    | none => []
  | .write =>
    match t.checkBuffer with
    | some (f, p, n) => filewrite f p n
    | none => []
  | .fstat =>
    match t.checkStat with
    | some (f, st) => filestat f st
    | none => []
  | .pipe =>
    match t.argptr 0 8 with
    | some fd => if t.gotPipe then Word.span fd 4 ++ Word.span (fd + 4) 4 else []
    | none => []

def Sound (call : Call) : Prop :=
  ∀ p size, t.pointer call = some (p, size) →
    (0 ≤ size.toInt ∧ p.toNat + size.toInt ≤ t.sz.toNat) ∧
      ∀ a ∈ t.accesses call, a.toNat < t.sz.toNat

/-- A length that is negative is not mistaken for a valid one. -/
def Meets : Call → Prop
  | .fstat => True
  | .pipe => True
  | _ => ∀ n p, t.argfd 0 ≠ none → t.argint 2 = some n → t.argint 1 = some p →
      0 ≤ n.toInt ∨ t.sz ≤ p ∨ t.sz < p + n

end Task

/-! ## Transfers stay in the buffer -/

section Transfers

variable {n off dst src addr : Word}

theorem toNat_minWord_bounds {tot : Word} (off : Word) (less : tot < n) :
    0 < (minWord (n - tot) (512 - off % 512)).toNat ∧
      (minWord (n - tot) (512 - off % 512)).toNat ≤ n.toNat - tot.toNat := by
  have rest : (n - tot).toNat = n.toNat - tot.toNat := by bv_omega
  have inBlock : (off % 512 : Word).toNat = off.toNat % 512 := BitVec.toNat_umod
  have block : (512 - off % 512 : Word).toNat = 512 - off.toNat % 512 := by
    rw [BitVec.toNat_sub, inBlock]
    have : (512 : Word).toNat = 512 := rfl
    omega
  have bound : tot.toNat < n.toNat := less
  unfold minWord
  split <;> bv_omega

theorem copyLoop_eq_span (fuel : Nat) {tot : Word} (begun : tot.toNat ≤ n.toNat)
    (enough : n.toNat - tot.toNat ≤ fuel) :
    copyLoop fuel tot n off dst = Word.span dst (n.toNat - tot.toNat) := by
  induction fuel generalizing tot off dst with
  | zero =>
    rw [Nat.le_zero.mp enough]
    rfl
  | succ fuel ih =>
    unfold copyLoop
    split
    next less =>
      obtain ⟨positive, short⟩ := toNat_minWord_bounds off less
      dsimp only
      generalize minWord (n - tot) (512 - off % 512) = m at positive short
      have moved : (tot + m).toNat = tot.toNat + m.toNat := by
        rw [BitVec.toNat_add]
        have := n.isLt
        omega
      rw [ih (by omega) (by omega), moved]
      have split_count : n.toNat - tot.toNat = m.toNat + (n.toNat - (tot.toNat + m.toNat)) := by
        omega
      rw [split_count, Word.span_add, BitVec.ofNat_toNat, BitVec.setWidth_eq]
    next done =>
      have none_left : n.toNat - tot.toNat = 0 := by
        have : ¬tot.toNat < n.toNat := done
        omega
      rw [none_left]
      rfl

theorem consoleread_subset (keys : List (Option UInt8)) (count : Int) {a : Word}
    (member : a ∈ consoleread keys dst count) : a ∈ Word.span dst count.toNat := by
  induction keys generalizing dst count with
  | nil => cases member
  | cons key keys ih =>
    unfold consoleread at member
    split at member
    next positive =>
      have first : dst ∈ Word.span dst count.toNat :=
        Word.mem_span.mpr ⟨0, by omega, by simp⟩
      split at member
      · cases member
      · split at member
        · cases member
        · split at member
          · rw [List.mem_singleton.mp member]
            exact first
          · rcases List.mem_cons.mp member with rfl | later
            · exact first
            · have one_more : count.toNat = 1 + (count - 1).toNat := by omega
              rw [one_more, Word.span_add]
              exact List.mem_append_right _ (ih _ later)
    · cases member

theorem pipereadLoop_subset {nwrite nread : Word} {left i : Nat} {a : Word}
    (member : a ∈ pipereadLoop addr nwrite left i nread) : a ∈ Word.span addr (i + left) := by
  induction left generalizing i nread with
  | zero => cases member
  | succ left ih =>
    unfold pipereadLoop at member
    split at member
    · cases member
    · rcases List.mem_cons.mp member with rfl | later
      · exact Word.mem_span.mpr ⟨i, by omega, rfl⟩
      · have := ih later
        rwa [Nat.add_right_comm] at this

theorem pipewriteLoop_subset {room : Nat → Bool} {left i : Nat} {a : Word}
    (member : a ∈ pipewriteLoop room addr left i) : a ∈ Word.span addr (i + left) := by
  induction left generalizing i with
  | zero => cases member
  | succ left ih =>
    unfold pipewriteLoop at member
    split at member
    · rcases List.mem_cons.mp member with rfl | later
      · exact Word.mem_span.mpr ⟨i, by omega, rfl⟩
      · have := ih later
        rwa [Nat.add_right_comm] at this
    · cases member

theorem toNat_toInt (nonnegative : 0 ≤ n.toInt) : n.toInt.toNat = n.toNat := by
  rw [BitVec.toInt_eq_toNat_cond] at nonnegative ⊢
  split <;> omega

theorem readi_subset {view : View} {keys : List (Option UInt8)} {a : Word}
    (nonnegative : 0 ≤ n.toInt) (member : a ∈ readi view keys dst n) :
    a ∈ Word.span dst n.toNat := by
  unfold readi at member
  split at member
  · split at member
    · rw [← toNat_toInt nonnegative]
      exact consoleread_subset keys _ member
    · cases member
  · split at member
    · cases member
    next accepted =>
      dsimp only at member
      rw [copyLoop_eq_span _ (by simp) (by simp)] at member
      refine Word.span_mono ?_ member
      split
      · bv_omega
      · simp

theorem writei_subset {view : View} {a : Word} (nonnegative : 0 ≤ n.toInt)
    (member : a ∈ (writei view src n).2) : a ∈ Word.span src n.toNat := by
  unfold writei at member
  split at member
  · split at member
    · rw [← toNat_toInt nonnegative]
      exact member
    · cases member
  · split at member
    · cases member
    · split at member
      · cases member
      · rwa [copyLoop_eq_span _ (by simp) (by simp)] at member

theorem filewriteLoop_subset {view : Nat → View} {count i : Int} {fuel sections : Nat} {a : Word}
    (small : count < 2 ^ 31) (begun : 0 ≤ i)
    (member : a ∈ filewriteLoop view addr count fuel sections i) :
    a ∈ Word.span addr count.toNat := by
  induction fuel generalizing sections i with
  | zero => cases member
  | succ fuel ih =>
    unfold filewriteLoop at member
    split at member
    next less =>
      dsimp only at member
      generalize part : min (count - i) (Sys.maxWrite : Int) = n1 at member
      have positive : 0 < n1 := by
        have : (Sys.maxWrite : Int) = 6656 := rfl
        omega
      have short : i + n1 ≤ count := by omega
      have unsigned : (BitVec.ofInt 32 n1).toNat = n1.toNat := by
        rw [BitVec.toNat_ofInt]
        omega
      have signed : (BitVec.ofInt 32 n1).toInt = n1 := by
        rw [BitVec.toInt_ofInt, Int.bmod_def]
        omega
      have here : ∀ b ∈ (writei (view sections) (addr + BitVec.ofInt 32 i)
          (BitVec.ofInt 32 n1)).2, b ∈ Word.span addr count.toNat := by
        intro b touched
        have inPart := writei_subset (by rw [signed]; omega) touched
        have start : (BitVec.ofInt 32 i : Word) = BitVec.ofNat 32 i.toNat := by
          rw [← BitVec.ofInt_natCast, Int.toNat_of_nonneg begun]
        rw [unsigned, start] at inPart
        exact Word.mem_span_of_part (by omega) inPart
      split at member
      · rcases List.mem_append.mp member with now | later
        · exact here a now
        · exact ih (by omega) later
      · exact here a member
    · cases member

theorem fileread_subset {f : File} {a : Word} (nonnegative : 0 ≤ n.toInt)
    (member : a ∈ fileread f addr n) : a ∈ Word.span addr n.toNat := by
  unfold fileread at member
  split at member
  · cases member
  · split at member
    · unfold piperead at member
      split at member
      · cases member
      · rw [← toNat_toInt nonnegative]
        simpa using pipereadLoop_subset member
    · exact readi_subset nonnegative member

theorem filewrite_subset {f : File} {a : Word} (nonnegative : 0 ≤ n.toInt)
    (member : a ∈ filewrite f addr n) : a ∈ Word.span addr n.toNat := by
  rw [← toNat_toInt nonnegative]
  unfold filewrite at member
  split at member
  · cases member
  · split at member
    · simpa using pipewriteLoop_subset member
    · refine filewriteLoop_subset ?_ le_rfl member
      have := n.toInt_lt
      simpa using this

theorem filestat_subset {f : File} {st a : Word} (member : a ∈ filestat f st) :
    a ∈ Word.span st 20 := by
  unfold filestat at member
  split at member
  · cases member
  · simp only [stati, List.mem_append] at member
    rcases member with (((type | dev) | ino) | nlink) | size
    · exact Word.span_mono (by decide) type
    · exact Word.mem_span_of_part (k := 4) (by decide) dev
    · exact Word.mem_span_of_part (k := 8) (by decide) ino
    · exact Word.mem_span_of_part (k := 12) (by decide) nlink
    · exact Word.mem_span_of_part (k := 16) (by decide) size

end Transfers

/-! ## The checks -/

namespace Task

variable {t : Task} {n size p : Word}

theorem argptr_eq_some (checked : t.argptr n size = some p) :
    t.argint n = some p ∧ p < t.sz ∧ p + size ≤ t.sz := by
  unfold argptr at checked
  split at checked
  · cases checked
  next i fetched =>
    split at checked
    · cases checked
    next inside =>
      cases checked
      rw [not_or, BitVec.not_le, BitVec.not_lt] at inside
      exact ⟨fetched, inside⟩

theorem argptr_sound (kernbase : t.sz.toNat ≤ KERNBASE) (nonnegative : 0 ≤ size.toInt)
    (checked : t.argptr n size = some p) : p.toNat + size.toNat ≤ t.sz.toNat := by
  obtain ⟨-, inside, ends⟩ := argptr_eq_some checked
  have noWrap : size.toNat < 2 ^ 31 := by
    rw [BitVec.toInt_eq_toNat_cond] at nonnegative
    split at nonnegative <;> omega
  unfold KERNBASE at kernbase
  bv_omega

theorem checkBuffer_eq_some {f : File} (checked : t.checkBuffer = some (f, p, n)) :
    t.argfd 0 = some f ∧ t.argint 2 = some n ∧ t.argptr 1 n = some p := by
  unfold checkBuffer at checked
  split at checked
  next file length hasFile hasLength =>
    obtain ⟨pointer, inside, same⟩ := Option.map_eq_some_iff.mp checked
    obtain ⟨rfl, rfl, rfl⟩ := same
    exact ⟨hasFile, hasLength, inside⟩
  · cases checked

theorem checkStat_eq_some {f : File} (checked : t.checkStat = some (f, p)) :
    t.argptr 1 20 = some p := by
  unfold checkStat at checked
  split at checked
  · obtain ⟨pointer, inside, same⟩ := Option.map_eq_some_iff.mp checked
    obtain ⟨rfl, rfl⟩ := same
    exact inside
  · cases checked

theorem sound_of_subset {call : Call} (nonnegative : 0 ≤ size.toInt)
    (inside : p.toNat + size.toNat ≤ t.sz.toNat)
    (subset : ∀ a ∈ t.accesses call, a ∈ Word.span p size.toNat) :
    (0 ≤ size.toInt ∧ p.toNat + size.toInt ≤ t.sz.toNat) ∧
      ∀ a ∈ t.accesses call, a.toNat < t.sz.toNat := by
  refine ⟨⟨nonnegative, ?_⟩, ?_⟩
  · have same := toNat_toInt nonnegative
    omega
  · intro a member
    have bound := t.sz.isLt
    have := (Word.toNat_of_mem_span (by omega) (subset a member)).2
    omega

/-- The checks of `sys_read` and `sys_write` accept a negative length exactly if
the sum wraps around to an address in the process. -/
theorem nonnegative_iff :
    (∀ f p n, t.checkBuffer = some (f, p, n) → 0 ≤ n.toInt) ↔
      ∀ n p, t.argfd 0 ≠ none → t.argint 2 = some n → t.argint 1 = some p →
        0 ≤ n.toInt ∨ t.sz ≤ p ∨ t.sz < p + n := by
  constructor
  · intro nonnegative n p hasFile hasLength hasPointer
    obtain ⟨f, isFile⟩ := Option.ne_none_iff_exists'.mp hasFile
    by_cases rejected : t.sz ≤ p ∨ t.sz < p + n
    · exact .inr rejected
    · refine .inl (nonnegative f p n ?_)
      simp only [checkBuffer, isFile, hasLength, argptr, hasPointer, if_neg rejected]
      rfl
  · intro meets f p n checked
    obtain ⟨hasFile, hasLength, inside⟩ := checkBuffer_eq_some checked
    obtain ⟨hasPointer, below, ends⟩ := argptr_eq_some inside
    rcases meets n p (by rw [hasFile]; exact nofun) hasLength hasPointer with
      nonnegative | above | wraps
    · exact nonnegative
    · exact absurd below (BitVec.not_lt.mpr above)
    · exact absurd wraps (BitVec.not_lt.mpr ends)

theorem sound_buffer {call : Call} (kernbase : t.sz.toNat ≤ KERNBASE)
    (pointer : t.pointer call = t.checkBuffer.map fun (_, p, n) => (p, n))
    (subset : ∀ f p n, t.checkBuffer = some (f, p, n) → 0 ≤ n.toInt →
      ∀ a ∈ t.accesses call, a ∈ Word.span p n.toNat) :
    t.Sound call ↔ ∀ f p n, t.checkBuffer = some (f, p, n) → 0 ≤ n.toInt := by
  constructor
  · intro sound f p n checked
    exact (sound p n (by rw [pointer, checked]; rfl)).1.1
  · intro nonnegative p size checked
    rw [pointer] at checked
    obtain ⟨⟨f, p', n⟩, buffer, same⟩ := Option.map_eq_some_iff.mp checked
    obtain ⟨rfl, rfl⟩ := Prod.mk.inj same
    have positive := nonnegative f p' n buffer
    exact sound_of_subset positive
      (argptr_sound kernbase positive (checkBuffer_eq_some buffer).2.2)
      (subset f p' n buffer positive)

/-- The checks of a call do what they are for exactly if the length is not
negative, or so large in absolute value that it is rejected. -/
theorem sound_iff_meets (t : Task) (call : Call) (kernbase : t.sz.toNat ≤ KERNBASE) :
    t.Sound call ↔ t.Meets call := by
  cases call with
  | read =>
    refine (sound_buffer kernbase rfl ?_).trans nonnegative_iff
    intro f p n checked nonnegative a member
    simp only [accesses, checked] at member
    exact fileread_subset nonnegative member
  | write =>
    refine (sound_buffer kernbase rfl ?_).trans nonnegative_iff
    intro f p n checked nonnegative a member
    simp only [accesses, checked] at member
    exact filewrite_subset nonnegative member
  | fstat =>
    refine ⟨fun _ => trivial, fun _ p size checked => ?_⟩
    obtain ⟨⟨f, st⟩, stat, same⟩ := Option.map_eq_some_iff.mp checked
    obtain ⟨rfl, rfl⟩ := Prod.mk.inj same
    have inside := argptr_sound kernbase (by decide) (checkStat_eq_some stat)
    refine sound_of_subset (by decide) inside ?_
    intro a member
    simp only [accesses, stat] at member
    exact filestat_subset member
  | pipe =>
    refine ⟨fun _ => trivial, fun _ p size checked => ?_⟩
    obtain ⟨fd, argument, same⟩ := Option.map_eq_some_iff.mp checked
    obtain ⟨rfl, rfl⟩ := Prod.mk.inj same
    have inside := argptr_sound kernbase (by decide) argument
    refine sound_of_subset (by decide) inside ?_
    intro a member
    simp only [accesses, argument] at member
    split at member
    · exact Word.span_add fd 4 4 ▸ member
    · cases member

/-- A process of one page with the arguments of `read(0, p, n)` on its stack and a
file of ten bytes. -/
def reader (p n : Word) : Task where
  sz := 4096
  esp := 0
  mem addr :=
    if 8 ≤ addr ∧ addr < 12 then UInt8.ofBitVec ((p >>> ((addr - 8) * 8)).setWidth 8)
    else if 12 ≤ addr ∧ addr < 16 then UInt8.ofBitVec ((n >>> ((addr - 12) * 8)).setWidth 8)
    else 0
  ofile _ := some ⟨true, true, .inode (fun _ => ⟨false, 0, 10, 0⟩) []⟩
  gotPipe := true

/-- `read(0, 4090, 6)` fits. -/
theorem sound_iff_meets_fits :
    (reader 4090 6).sz.toNat ≤ KERNBASE ∧ (reader 4090 6).Sound .read ∧
      (reader 4090 6).accesses .read = Word.span 4090 6 := by
  have meets : (reader 4090 6).Meets .read := by
    intro n p _ hasLength _
    have : (reader 4090 6).argint 2 = some 6 := by decide
    rw [this] at hasLength
    cases hasLength
    exact .inl (by decide)
  exact ⟨by decide, (sound_iff_meets (reader 4090 6) .read (by decide)).mpr meets, by decide⟩

/-- `read(0, 4090, -1)` is accepted and writes past the end of the process. -/
theorem negative_read_unsound :
    (reader 4090 (-1)).sz.toNat ≤ KERNBASE ∧
      (reader 4090 (-1)).pointer .read = some (4090, -1) ∧
      4099 ∈ (reader 4090 (-1)).accesses .read ∧ ¬(reader 4090 (-1)).Sound .read := by
  refine ⟨by decide, by decide, by decide, ?_⟩
  intro sound
  exact absurd (sound 4090 (-1) (by decide)).1.1 (by decide)

end Task

end Args

end Xv6
