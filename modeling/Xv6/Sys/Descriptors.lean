import Xv6.Fs.Integrity
import Xv6.Fs.Refs
import Xv6.Lib.Transition
import Xv6.Proc.Pages
import Xv6.Sys.Calls

/-!
# System calls on descriptors

`sys_dup`, `sys_pipe`, `sys_open` and `sys_close` on the descriptors of a process, the
table of open files, the inode cache and the page allocator together.  A call that fails
on its way has to give back what it has taken: a `struct file`, a descriptor, a reference
to an inode, a page.  Each call runs with nothing in between; arguments are what `argint`,
`argstr` and `argptr` have fetched, `none` if they failed.
-/

open Function (update_apply update_comm update_eq_self update_idem update_of_ne update_self)

namespace Xv6.Descriptors

open Exec Sys Vm

inductive Halt where
  | fs (stop : Stop)
  | vm (trap : Trap)

structure Machine where
  /-- the files that are not pipes are those of the kernel -/
  kernel : Kernel Unit
  memory : Memory
  /-- for an open file of type `FD_PIPE` the page of its `struct pipe` -/
  pipe : FileId → Option Nat

inductive FdType where
  | none
  | pipe
  | inode
  deriving DecidableEq

namespace Machine

def ref (m : Machine) (f : FileId) : Int := (m.kernel.ftable f).ref

def type (m : Machine) (f : FileId) : FdType :=
  match m.pipe f, (m.kernel.ftable f).type with
  | some _, _ => .pipe
  | none, .inode => .inode
  | none, .none => .none

def ofile (m : Machine) : Fd → Option FileId := (m.kernel.procs ()).ofile

def setFile (m : Machine) (f : FileId) (file : File) : Machine :=
  { m with kernel := { m.kernel with ftable := Function.update m.kernel.ftable f file } }

/-- A `struct file` that nobody refers to has type `FD_NONE`. -/
def Tidy (m : Machine) : Prop := ∀ f, m.ref f = 0 → m.type f = .none

end Machine

abbrev MachineM (α : Type) := Exec Halt Machine α

section Lift

variable {α : Type}

def onKernel (computation : KernelM Unit α) : MachineM α := fun m =>
  match computation m.kernel with
  | .ok (value, kernel) => .ok (value, { m with kernel := kernel })
  | .error stop => .error (.fs stop)

def onMemory (computation : VmM α) : MachineM α := fun m =>
  match computation m.memory with
  | .ok (value, memory) => .ok (value, { m with memory := memory })
  | .error trap => .error (.vm trap)

variable {m : Machine} {good : α → Machine → Prop} {bad : Halt → Prop}

@[simp]
theorem ensures_onKernel {computation : KernelM Unit α} :
    (onKernel computation).Ensures m good bad ↔ computation.Ensures m.kernel
      (fun value kernel => good value { m with kernel := kernel })
      (fun stop => bad (.fs stop)) := by
  unfold Exec.Ensures onKernel
  cases computation m.kernel with
  | error stop => rfl
  | ok result => rfl

@[simp]
theorem ensures_onMemory {computation : VmM α} :
    (onMemory computation).Ensures m good bad ↔ computation.Ensures m.memory
      (fun value memory => good value { m with memory := memory })
      (fun trap => bad (.vm trap)) := by
  unfold Exec.Ensures onMemory
  cases computation m.memory with
  | error stop => rfl
  | ok result => rfl

end Lift

/-! ## The calls -/

def setPipe (f : FileId) (page : Option Nat) : MachineM Unit :=
  Exec.modify fun m => { m with pipe := Function.update m.pipe f page }

section Calls

variable (devsw : Devsw) (layout : Layout)

/-- `fileclose` up to the release of the inode, which it replies with. -/
def filecloseSection (f : FileId) : MachineM (Option Slot) := do
  let m ← Exec.get
  match m.pipe f with
  | none => onKernel (Xv6.filecloseSection f)
  | some page =>
    let file := m.kernel.ftable f
    if file.ref < 1 then Exec.fail (.fs (.panic .fileclose))
    else if 0 < file.ref - 1 then
      onKernel (Xv6.setFile f { file with ref := file.ref - 1 })
      return none
    else
      onKernel (Xv6.setFile f { file with ref := 0, type := .none })
      setPipe f none
      onMemory (Pages.pipeclose layout page file.writable)
      return none

/-- A step of a file system call; only two of them see the type of a file. -/
def exec : (op : Op) → MachineM (Reply op)
  | .fileclose f => filecloseSection layout f
  | .install f ip omode => do
    onKernel (Xv6.install f ip omode)
    setPipe f none
  | op => onKernel (op.exec devsw ())

def fileclose (f : FileId) : MachineM Unit := (Sys.fileclose f).exec (exec devsw layout)

def filedup (f : FileId) : MachineM Unit := do
  let m ← Exec.get
  if m.ref f < 1 then Exec.fail (.vm .file)
  else onKernel (Xv6.setFile f { m.kernel.ftable f with ref := m.ref f + 1 })

def argfd : Option Int → MachineM (Option FileId)
  | none => return none
  | some fd => do
    let m ← Exec.get
    if inside : 0 ≤ fd ∧ fd < NOFILE then return m.ofile ⟨fd.toNat, by omega⟩ else return none

def sysDup (fd : Option Int) : MachineM (Option Fd) := do
  match ← argfd fd with
  | none => return none
  | some f =>
    match ← onKernel (Xv6.fdalloc () f) with
    | none => return none
    | some fd =>
      filedup f
      return some fd

def pipeEnd (f : FileId) (page : Nat) (writable : Bool) : MachineM Unit := do
  let m ← Exec.get
  onKernel (Xv6.setFile f
    { m.kernel.ftable f with readable := !writable, writable := writable })
  setPipe f (some page)

def closeBoth (f0 f1 : FileId) : MachineM Unit := do
  fileclose devsw layout f0
  fileclose devsw layout f1

/-- The part of `pipealloc` that starts with `kalloc`. -/
def pipefill (f0 f1 : FileId) : MachineM (Option (FileId × FileId)) := do
  match ← onMemory kalloc with
  | none =>
    closeBoth devsw layout f0 f1
    return none
  | some page =>
    onMemory (Pages.pipeinit page)
    pipeEnd f0 page false
    pipeEnd f1 page true
    return some (f0, f1)

def pipealloc : MachineM (Option (FileId × FileId)) := do
  match ← onKernel Xv6.filealloc with
  | none => return none
  | some f0 =>
    match ← onKernel Xv6.filealloc with
    | none =>
      fileclose devsw layout f0
      return none
    | some f1 => pipefill devsw layout f0 f1

def clearFd (fd : Fd) : MachineM Unit := do
  let m ← Exec.get
  onKernel (setProc () { m.kernel.procs () with ofile := Function.update m.ofile fd none })

/-- `fd` says whether `argptr` has accepted the address of the result. -/
def sysPipe (fd : Bool) : MachineM (Option (Fd × Fd)) :=
  if !fd then return none
  else do
    match ← pipealloc devsw layout with
    | none => return none
    | some (rf, wf) =>
      match ← onKernel (Xv6.fdalloc () rf) with
      | none =>
        closeBoth devsw layout rf wf
        return none
      | some fd0 =>
        match ← onKernel (Xv6.fdalloc () wf) with
        | none =>
          clearFd fd0
          closeBoth devsw layout rf wf
          return none
        | some fd1 => return some (fd0, fd1)

def sysOpen : Option (List UInt8) → Option Nat → MachineM (Option Nat)
  | some path, some omode => (Sys.sysOpen path omode).exec (exec devsw layout)
  | _, _ => return none

def sysClose (fd : Fd) : MachineM (Option Nat) := (Sys.sysClose fd).exec (exec devsw layout)

end Calls

/-! ## Steps that only count references to inodes -/

def Machine.files (m : Machine) :
    (FileId → File) × (Unit → Proc) × Memory × (FileId → Option Nat) :=
  (m.kernel.ftable, m.kernel.procs, m.memory, m.pipe)

/-- References to inodes are taken and given up, and no file or page is touched. -/
def Touches (change : Slot → Int) (m after : Machine) : Prop :=
  after.files = m.files ∧ Counts change m.kernel.fs after.kernel.fs

theorem touches_grading : Grading Touches where
  refl m := ⟨rfl, counts_grading.refl m.kernel.fs⟩
  trans := by
    intro first second m mid after started ended
    exact ⟨ended.1.trans started.1, counts_grading.trans started.2 ended.2⟩

section Steps

variable {devsw : Devsw} {layout : Layout} {α β : Type} {ip : Slot}

/-- The program is graded by the references it takes. -/
abbrev Takes (devsw : Devsw) (layout : Layout) (grade : α → Slot → Int) (program : P α) : Prop :=
  Graded Touches grade (program.exec (exec devsw layout))

theorem touches_onFs {computation : FsM α} {grade : α → Slot → Int}
    (counts : Graded Counts grade computation) :
    Graded Touches grade (onKernel (onFs computation)) := by
  intro m
  rw [ensures_onKernel, ensures_onFs]
  exact (counts m.kernel.fs).mono (fun value fs counted => ⟨rfl, counted⟩) fun _ _ => trivial

theorem beginOp_takes : Takes devsw layout (fun _ => 0) (call .beginOp) :=
  Prog.graded_op fun m => ⟨rfl, counts_grading.refl m.kernel.fs⟩

theorem endOp_takes : Takes devsw layout (fun _ => 0) (call .endOp) :=
  Prog.graded_op fun m => ⟨rfl, counts_grading.refl m.kernel.fs⟩

theorem stat_takes : Takes devsw layout (fun _ => 0) (call (.stat ip)) := by
  have off : OffCache (stati ip) := .bind .read fun _ => .pure _
  exact Prog.graded_op (touches_onFs off.counts)

theorem iunlock_takes : Takes devsw layout (fun _ => 0) (Sys.iunlock ip) :=
  Prog.graded_op (touches_onFs counts_iunlock)

theorem ilock_takes : Takes devsw layout (fun _ => 0) (Sys.ilock ip) :=
  Prog.graded_after touches_grading (Prog.graded_op (touches_onFs counts_ilockAcquire)) fun _ =>
    Prog.graded_op (touches_onFs counts_ilockLoad)

theorem iput_takes : Takes devsw layout (fun _ => -oneRef ip) (Sys.iput ip) := by
  refine Prog.graded_bind touches_grading (Prog.graded_op (touches_onFs counts_iputTest))
    fun frees => ?_
  cases frees with
  | false => exact .pure touches_grading (sub_self _)
  | true =>
    have rest : Takes devsw layout (fun _ => -oneRef ip) (do
        call (.itrunc ip)
        call (.iputClear ip)
        call (.iputFinish ip)) :=
      Prog.graded_after touches_grading (Prog.graded_op (touches_onFs counts_itrunc)) fun _ =>
      Prog.graded_after touches_grading (Prog.graded_op (touches_onFs counts_iputClear)) fun _ =>
      Prog.graded_op (touches_onFs counts_iputFinish)
    exact rest.congr fun _ => (sub_zero _).symm

theorem iunlockput_takes : Takes devsw layout (fun _ => -oneRef ip) (Sys.iunlockput ip) :=
  Prog.graded_after touches_grading iunlock_takes fun _ => iput_takes

def held : Option Slot → Slot → Int
  | none => 0
  | some ip => oneRef ip

theorem dirlookup_takes (name : List UInt8) :
    Takes devsw layout (fun found => held (found.map Prod.fst)) (Sys.dirlookup ip name) := by
  refine Prog.graded_after touches_grading
    (Prog.graded_op (touches_onFs (counts_dirlookup devsw name))) fun found => ?_
  cases found with
  | none => exact .pure touches_grading rfl
  | some entry =>
    exact Prog.graded_bind touches_grading (Prog.graded_op (touches_onFs (counts_iget entry.1)))
      fun _ => .pure touches_grading (sub_self _)

theorem namexLoop_takes (parent : Bool) (fuel : Nat) (path last : List UInt8) :
    Takes devsw layout (fun found => held (found.map Prod.fst) - oneRef ip)
      (namexLoop parent fuel path last ip) := by
  have release : Takes devsw layout (fun found => held (found.map Prod.fst) - oneRef ip) (do
      Sys.iunlockput ip
      return (none : Option (Slot × List UInt8))) :=
    Prog.graded_bind touches_grading iunlockput_takes fun _ =>
      .pure touches_grading (by simp [held])
  induction fuel generalizing path last ip with
  | zero => exact .pure touches_grading (sub_self _)
  | succ fuel ih =>
    unfold namexLoop
    split
    · split
      · exact Prog.graded_bind touches_grading iput_takes fun _ =>
          .pure touches_grading (by simp [held])
      · exact .pure touches_grading (sub_self _)
    next name rest _ =>
      refine Prog.graded_after touches_grading ilock_takes fun _ =>
        Prog.graded_after touches_grading stat_takes fun status => ?_
      obtain ⟨_, inode⟩ := status
      dsimp only
      split
      · exact release
      · split
        · exact Prog.graded_after touches_grading iunlock_takes fun _ =>
            .pure touches_grading (sub_self _)
        · refine Prog.graded_bind touches_grading (dirlookup_takes name) fun found => ?_
          cases found with
          | none => exact release.congr fun _ => (sub_zero _).symm
          | some entry =>
            refine Prog.graded_bind touches_grading iunlockput_takes fun _ =>
              (ih rest name ?_).congr fun result => ?_
            · exact Prog.graded_bind touches_grading iunlockput_takes fun _ =>
                .pure touches_grading (by simp [held])
            · simp only [held, Option.map_some]
              abel

theorem namex_takes (path : List UInt8) (parent : Bool) :
    Takes devsw layout (fun found => held (found.map Prod.fst)) (namex path parent) := by
  have cwd : Takes devsw layout oneRef (call .idupCwd) := by
    refine Prog.graded_op fun m => ?_
    simp only [exec, Op.exec, Xv6.idupCwd, ensures_onKernel, ensures_bind, ensures_get]
    split
    · exact ensures_onKernel.mp (touches_onFs counts_idup m)
    · trivial
  unfold namex
  split
  · exact Prog.graded_bind touches_grading (Prog.graded_op (touches_onFs (counts_iget ROOTINO)))
      fun ip => namexLoop_takes parent _ path []
  · exact Prog.graded_bind touches_grading cwd fun ip => namexLoop_takes parent _ path []

theorem namei_takes (path : List UInt8) : Takes devsw layout held (namei path) := by
  refine Prog.graded_bind touches_grading (namex_takes path false) fun found => ?_
  cases found with
  | none => exact .pure touches_grading (sub_self _)
  | some entry => exact .pure touches_grading (sub_self _)

theorem openInode_takes (path : List UInt8) {omode : Nat} (plain : omode &&& O_CREATE = 0) :
    Takes devsw layout held (openInode path omode) := by
  unfold openInode
  rw [if_neg (not_not.mpr plain)]
  refine Prog.graded_bind touches_grading (namei_takes path) fun found => ?_
  cases found with
  | none => exact .pure touches_grading (sub_self _)
  | some ip =>
    refine Prog.graded_after touches_grading ilock_takes fun _ =>
      Prog.graded_after touches_grading stat_takes fun status => ?_
    obtain ⟨_, inode⟩ := status
    dsimp only
    split
    · exact Prog.graded_bind touches_grading iunlockput_takes fun _ =>
        .pure touches_grading (by simp [held])
    · exact .pure touches_grading (sub_self _)

theorem sysOpenBad_takes : Takes devsw layout (fun _ => -oneRef ip) (sysOpenBad ip) :=
  Prog.graded_bind touches_grading iunlockput_takes fun _ =>
    Prog.graded_after touches_grading endOp_takes fun _ => .pure touches_grading (sub_self _)

end Steps

/-! ## What a caller sees -/

/-- The descriptors, the files and the references to inodes. -/
@[ext]
structure View where
  ofile : Fd → Option FileId
  ref : FileId → Int
  type : FileId → FdType
  inodes : Slot → Int

def Machine.view (m : Machine) : View := ⟨m.ofile, m.ref, m.type, m.kernel.fs.refs⟩

def View.set (v : View) (f : FileId) (ref : Int) (type : FdType) : View :=
  { v with ref := Function.update v.ref f ref, type := Function.update v.type f type }

@[simp]
theorem View.ref_set {v : View} {f g : FileId} {ref : Int} {type : FdType} :
    (v.set f ref type).ref g = if g = f then ref else v.ref g := update_apply ..

@[simp]
theorem View.type_set {v : View} {f g : FileId} {ref : Int} {type : FdType} :
    (v.set f ref type).type g = if g = f then type else v.type g := update_apply ..

theorem View.set_set {v : View} {f : FileId} {ref ref' : Int} {type type' : FdType} :
    (v.set f ref type).set f ref' type' = v.set f ref' type' := by
  simp [View.set]

theorem View.set_comm {v : View} {f g : FileId} (different : f ≠ g) {ref ref' : Int}
    {type type' : FdType} :
    (v.set f ref type).set g ref' type' = (v.set g ref' type').set f ref type := by
  simp [View.set, update_comm different]

theorem View.set_self {v : View} {f : FileId} {ref : Int} {type : FdType} (sameRef : v.ref f = ref)
    (sameType : v.type f = type) : v.set f ref type = v := by
  subst sameRef sameType
  simp [View.set]

theorem Machine.ref_of_view {m : Machine} {v : View} (view : m.view = v) (f : FileId) :
    m.ref f = v.ref f := by
  rw [← view]
  rfl

theorem Machine.type_of_view {m : Machine} {v : View} (view : m.view = v) (f : FileId) :
    m.type f = v.type f := by
  rw [← view]
  rfl

/-- The call has changed nothing a process can see, and given back every page. -/
structure Unchanged (layout : Layout) (m after : Machine) : Prop where
  view : after.view = m.view
  free : ∀ free, FreeList layout m.memory free → FreeList layout after.memory free

theorem Unchanged.of_same {layout : Layout} {m after : Machine} (view : after.view = m.view)
    (memory : after.memory = m.memory) : Unchanged layout m after :=
  ⟨view, fun _ list => memory ▸ list⟩

theorem Touches.view {m after : Machine} {change : Slot → Int} (touches : Touches change m after) :
    after.view = { m.view with inodes := m.view.inodes + change } ∧ after.memory = m.memory := by
  obtain ⟨same, counts⟩ := touches
  simp only [Machine.files, Prod.mk.injEq] at same
  obtain ⟨ftable, procs, memory, pipe⟩ := same
  refine ⟨?_, memory⟩
  ext
  · simp only [Machine.view, Machine.ofile, procs]
  · simp only [Machine.view, Machine.ref, ftable]
  · simp only [Machine.view, Machine.type, ftable, pipe]
  · exact congrFun counts _

section Files

variable {devsw : Devsw} {layout : Layout} {m : Machine} {f g : FileId}

structure OnFile (f : FileId) (m after : Machine) : Prop where
  fs : after.kernel.fs = m.kernel.fs
  procs : after.kernel.procs = m.kernel.procs
  ftable : ∀ g, g ≠ f → after.kernel.ftable g = m.kernel.ftable g
  pipe : ∀ g, g ≠ f → after.pipe g = m.pipe g

theorem OnFile.update {memory : Memory} {file : File} {page : Option Nat} :
    OnFile f m { m with
      kernel := { m.kernel with ftable := Function.update m.kernel.ftable f file }
      memory := memory
      pipe := Function.update m.pipe f page } :=
  ⟨rfl, rfl, fun _ different => update_of_ne different ..,
    fun _ different => update_of_ne different ..⟩

theorem OnFile.view {after : Machine} (onFile : OnFile f m after) {ref : Int} {type : FdType}
    (isRef : after.ref f = ref) (isType : after.type f = type) :
    after.view = m.view.set f ref type := by
  subst isRef isType
  ext g
  · simp only [Machine.view, Machine.ofile, onFile.procs, View.set]
  · by_cases isIt : g = f
    · subst isIt
      simp [Machine.view, View.set]
    · simp [Machine.view, View.set, Machine.ref, isIt, onFile.ftable g isIt]
  · by_cases isIt : g = f
    · subst isIt
      simp [Machine.view, View.set]
    · simp [Machine.view, View.set, Machine.type, isIt, onFile.ftable g isIt, onFile.pipe g isIt]
  · simp only [Machine.view, onFile.fs, View.set]

theorem Machine.type_eq_none :
    m.type f = .none ↔ m.pipe f = none ∧ (m.kernel.ftable f).type = .none := by
  unfold Machine.type
  split <;> simp_all

theorem Machine.Tidy.congr {after : Machine} (tidy : m.Tidy) (ref : after.view.ref = m.view.ref)
    (type : after.view.type = m.view.type) : after.Tidy :=
  fun f unused => (congrFun type f).trans (tidy f ((congrFun ref f).symm.trans unused))

theorem Machine.Tidy.of_view {after : Machine} (tidy : m.Tidy) (view : after.view = m.view) :
    after.Tidy :=
  tidy.congr (congrArg View.ref view) (congrArg View.type view)

theorem Machine.Tidy.of_set {after : Machine} (tidy : m.Tidy) {ref : Int} {type : FdType}
    (view : after.view = m.view.set f ref type) (used : ref = 0 → type = .none) : after.Tidy := by
  intro g unused
  rw [Machine.ref_of_view view, View.ref_set] at unused
  rw [Machine.type_of_view view, View.type_set]
  split at unused
  · rw [if_pos ‹_›]
    exact used unused
  · rw [if_neg ‹_›]
    exact tidy g unused

def Allocated (m : Machine) (result : Option FileId) (after : Machine) : Prop :=
  match result with
  | none => after = m
  | some f => m.ref f = 0 ∧ after.view = m.view.set f 1 .none ∧ after.memory = m.memory ∧
      after.pipe = m.pipe

theorem filealloc_spec (tidy : m.Tidy) :
    (onKernel Xv6.filealloc).Ensures m (Allocated m) fun _ => True := by
  rw [ensures_onKernel]
  unfold Xv6.filealloc
  rw [ensures_bind, ensures_get]
  split
  next f found =>
    have unused : (m.kernel.ftable f).ref = 0 := by simpa using List.find?_some found
    obtain ⟨shut, type⟩ := Machine.type_eq_none.mp (tidy f unused)
    refine ⟨unused, ?_, rfl, rfl⟩
    have onFile := @OnFile.update m f m.memory { m.kernel.ftable f with ref := 1 } (m.pipe f)
    rw [update_eq_self] at onFile
    refine onFile.view ?_ (Machine.type_eq_none.mpr ⟨shut, ?_⟩)
    · simp [Machine.ref]
    · simpa using type
  · exact (rfl : _ = m)

theorem ensures_fileclose {good : Unit → Machine → Prop} {bad : Halt → Prop}
    (section_ : (filecloseSection layout f).Ensures m
      (fun result after => result = none ∧ good () after) bad) :
    (fileclose devsw layout f).Ensures m good bad := by
  unfold fileclose Sys.fileclose
  rw [call, Prog.op_bind, Prog.ensures_call]
  refine section_.mono (fun result after ended => ?_) fun _ worse => worse
  obtain ⟨rfl, ended⟩ := ended
  exact ended

theorem fileclose_fresh (last : m.ref f = 1) (type : m.type f = .none) :
    (fileclose devsw layout f).Ensures m
      (fun _ after => after.view = m.view.set f 0 .none ∧ after.memory = m.memory ∧
        after.pipe = m.pipe) fun _ => True := by
  obtain ⟨shut, type⟩ := Machine.type_eq_none.mp type
  refine ensures_fileclose ?_
  unfold filecloseSection
  rw [ensures_bind, ensures_get, shut]
  dsimp only
  have last : (m.kernel.ftable f).ref = 1 := last
  simp only [ensures_onKernel, Xv6.filecloseSection, ensures_bind, ensures_get, last, type,
    Int.reduceLT, Int.reduceSub, if_false, ensures_setFile, ensures_pure, true_and]
  refine ⟨?_, trivial⟩
  have onFile := @OnFile.update m f m.memory
    { m.kernel.ftable f with ref := 0, type := .none } (m.pipe f)
  rw [update_eq_self] at onFile
  refine onFile.view ?_ (Machine.type_eq_none.mpr ⟨shut, ?_⟩)
  · simp [Machine.ref]
  · simp

/-- One end of a pipe whose `struct file` has one reference. -/
structure IsEnd (m : Machine) (f : FileId) (page : Nat) (writable : Bool) : Prop where
  last : m.ref f = 1
  pipe : m.pipe f = some page
  writable : (m.kernel.ftable f).writable = writable

theorem fileclose_end {page : Nat} {writable : Bool} (isEnd : IsEnd m f page writable) :
    (fileclose devsw layout f).Ensures m
      (fun _ after => after.view = m.view.set f 0 .none ∧
        Pages.pipeclose layout page writable m.memory = .ok ((), after.memory) ∧
        ∀ {other writable'}, g ≠ f → IsEnd m g other writable' → IsEnd after g other writable')
      fun _ => True := by
  refine ensures_fileclose ?_
  unfold filecloseSection
  rw [ensures_bind, ensures_get, isEnd.pipe]
  have last : (m.kernel.ftable f).ref = 1 := isEnd.last
  simp only [last, isEnd.writable, ensures_bind, ensures_onKernel, ensures_setFile, setPipe,
    ensures_modify, ensures_onMemory, ensures_pure, Int.reduceLT, Int.reduceSub, if_false, true_and]
  refine Ensures.returned.mono (fun _ memory closed => ?_) fun _ _ => trivial
  have onFile := @OnFile.update m f memory
    { m.kernel.ftable f with ref := 0, type := .none, writable := writable } none
  refine ⟨onFile.view ?_ (Machine.type_eq_none.mpr ?_), closed, fun different other => ⟨?_, ?_, ?_⟩⟩
  · simp [Machine.ref]
  · simp
  · exact (congrArg File.ref (onFile.ftable g different)).trans other.last
  · exact (onFile.pipe g different).trans other.pipe
  · exact (congrArg File.writable (onFile.ftable g different)).trans other.writable

theorem fdalloc_spec : (onKernel (Xv6.fdalloc () f)).Ensures m
    (fun result after => match result with
      | none => after = m
      | some fd => m.ofile fd = none ∧
          after.view = { m.view with ofile := Function.update m.view.ofile fd (some f) } ∧
          after.memory = m.memory ∧ after.pipe = m.pipe ∧ after.kernel.ftable = m.kernel.ftable)
    fun _ => True := by
  rw [ensures_onKernel]
  unfold Xv6.fdalloc
  rw [ensures_bind, ensures_get]
  split
  next fd found =>
    have unused : (m.kernel.procs ()).ofile fd = none := by simpa using List.find?_some found
    exact ⟨unused, rfl, rfl, rfl, rfl⟩
  · exact (rfl : _ = m)

theorem clearFd_spec {fd : Fd} : (clearFd fd).Ensures m
    (fun _ after => after.view = { m.view with ofile := Function.update m.view.ofile fd none } ∧
      after.memory = m.memory ∧ after.pipe = m.pipe ∧ after.kernel.ftable = m.kernel.ftable)
    fun _ => True :=
  ⟨rfl, rfl, rfl, rfl⟩

/-! ## Pipes -/

theorem pipeEnd_spec {page : Nat} {writable : Bool} (last : m.ref f = 1) :
    (pipeEnd f page writable).Ensures m
      (fun _ after => after.view = m.view.set f 1 .pipe ∧ after.memory = m.memory ∧
        IsEnd after f page writable ∧ OnFile f m after) fun _ => True := by
  unfold pipeEnd
  simp only [ensures_bind, ensures_get, ensures_onKernel, ensures_setFile, setPipe, ensures_modify]
  have onFile := @OnFile.update m f m.memory
    { m.kernel.ftable f with readable := !writable, writable := writable } (some page)
  have last : (m.kernel.ftable f).ref = 1 := last
  refine ⟨onFile.view ?_ ?_, trivial, ⟨?_, ?_, ?_⟩, onFile⟩
  all_goals simp [Machine.ref, Machine.type, last]

/-- Two files are the ends of a new pipe. -/
structure NewPipe (m : Machine) (f0 f1 : FileId) (page : Nat) (after : Machine) : Prop where
  unused : m.ref f0 = 0 ∧ m.ref f1 = 0
  different : f0 ≠ f1
  view : after.view = (m.view.set f0 1 .pipe).set f1 1 .pipe
  memory : ∃ taken, kalloc m.memory = .ok (some page, taken) ∧
    Pages.pipeinit page taken = .ok ((), after.memory)
  reads : IsEnd after f0 page false
  writes : IsEnd after f1 page true

theorem View.restore {v : View} {f0 f1 : FileId} (different : f0 ≠ f1)
    (first : v.ref f0 = 0 ∧ v.type f0 = .none) (second : v.ref f1 = 0 ∧ v.type f1 = .none)
    {type type' : FdType} :
    (((v.set f0 1 type).set f1 1 type').set f0 0 .none).set f1 0 .none = v := by
  rw [View.set_comm different, View.set_set, View.set_comm different.symm, View.set_set,
    View.set_comm different, View.set_self second.1 second.2, View.set_self first.1 first.2]

theorem kalloc_none {memory : Memory} :
    kalloc.Ensures memory (fun result after => result = none → after = memory) fun _ => True := by
  unfold kalloc
  rw [ensures_bind, ensures_get]
  split
  · exact fun _ => rfl
  · exact fun taken => nomatch taken

section Both

variable {f0 f1 : FileId} {after : Machine}

theorem closeBoth_fresh (tidy : m.Tidy) (unused : m.ref f0 = 0 ∧ m.ref f1 = 0)
    (different : f0 ≠ f1) (view : after.view = (m.view.set f0 1 .none).set f1 1 .none) :
    (closeBoth devsw layout f0 f1).Ensures after
      (fun _ last => last.view = m.view ∧ last.memory = after.memory) fun _ => True := by
  refine (fileclose_fresh (m := after) (f := f0) ?_ ?_).bind (fun _ mid closed => ?_)
    fun _ _ => trivial
  · simp [Machine.ref_of_view view, different]
  · simp [Machine.type_of_view view, different]
  · obtain ⟨midView, midMemory, -⟩ := closed
    rw [view] at midView
    refine (fileclose_fresh (m := mid) (f := f1) ?_ ?_).mono (fun _ last closed => ?_)
      fun _ _ => trivial
    · simp [Machine.ref_of_view midView, different.symm]
    · simp [Machine.type_of_view midView, different.symm]
    · obtain ⟨lastView, lastMemory, -⟩ := closed
      rw [lastView, midView, lastMemory]
      exact ⟨View.restore different ⟨unused.1, tidy f0 unused.1⟩
        ⟨unused.2, tidy f1 unused.2⟩, midMemory⟩

theorem pipeclose_reader {memory : Memory} {page : Nat}
    (writer : memory.page page (Pages.openWord true) ≠ 0) :
    (Pages.pipeclose layout page false).Ensures memory
      (fun _ after => after.freelist = memory.freelist ∧
        (∀ q, q ≠ page → after.page q = memory.page q) ∧
        after.page page (Pages.openWord false) = 0) fun _ => False := by
  simp only [Pages.pipeclose, ensures_bind, ensures_setWord, ensures_get, update_self]
  rw [if_neg (fun closed => writer closed.2)]
  simp only [ensures_pure, update_self, true_and, and_true]
  exact fun q other => update_of_ne other ..

theorem pipe_memory {memory taken ready half last : Memory} {page : Nat}
    (allocated : kalloc memory = .ok (some page, taken))
    (filled : Pages.pipeinit page taken = .ok ((), ready))
    (first : Pages.pipeclose layout page false ready = .ok ((), half))
    (second : Pages.pipeclose layout page true half = .ok ((), last))
    {free : List Nat} (list : FreeList layout memory free) : FreeList layout last free := by
  rcases (kalloc_spec list.arena).of_ok allocated with ⟨impossible, -⟩ | ⟨p, rest, isPage, rfl, rfl⟩
  · cases impossible
  cases isPage
  obtain ⟨content, rfl, open_⟩ := (Pages.pipeinit_spec page _).of_ok filled
  obtain ⟨freelist, others, closed⟩ := (pipeclose_reader (by
    dsimp only
    rw [update_self]
    exact open_ true)).of_ok first
  dsimp only at freelist others
  have arena : Arena layout (· ∈ page :: rest) memory.page { half with
      page := Function.update half.page page
        (Function.update (half.page page) (Pages.openWord true) 0) } rest := by
    refine list.arena.tail.frame freelist fun q unchanged => ?_
    have other : q ≠ page := by
      rintro rfl
      rcases unchanged with isFree | out
      · exact list.arena.head_not_mem isFree
      · exact out (by simp)
    exact (update_of_ne other ..).trans ((others q other).trans (update_of_ne other ..))
  have freed : (Pages.pipeclose layout page true).Ensures half
      (fun _ last => Arena layout (· ∈ page :: rest) memory.page last (page :: rest))
      fun _ => False := by
    simp only [Pages.pipeclose, ensures_bind, ensures_setWord, ensures_get, update_self]
    rw [if_pos ⟨closed, trivial⟩]
    exact (kfree_spec arena (by simp) list.arena.head_not_mem).mono (fun _ _ after => after.1)
      fun _ never => never
  have after := freed.of_ok second
  exact ⟨after.chain, after.nodup, after.range⟩

theorem closeBoth_ends {page : Nat} (tidy : m.Tidy) (new : NewPipe m f0 f1 page after)
    {start : Machine} (view : start.view = after.view) (memory : start.memory = after.memory)
    (pipe : start.pipe = after.pipe) (ftable : start.kernel.ftable = after.kernel.ftable) :
    (closeBoth devsw layout f0 f1).Ensures start
      (fun _ last => Unchanged layout m last) fun _ => True := by
  have isEnd : ∀ {f page writable}, IsEnd after f page writable → IsEnd start f page writable := by
    intro f page writable isEnd
    exact ⟨(congrArg File.ref (congrFun ftable f)).trans isEnd.last,
      (congrFun pipe f).trans isEnd.pipe,
      (congrArg File.writable (congrFun ftable f)).trans isEnd.writable⟩
  refine (fileclose_end (g := f1) (isEnd new.reads)).bind (fun _ mid closed => ?_)
    fun _ _ => trivial
  obtain ⟨midView, midMemory, keeps⟩ := closed
  refine (fileclose_end (g := f0) (keeps new.different.symm (isEnd new.writes))).mono
    (fun _ last closed => ?_) fun _ _ => trivial
  obtain ⟨lastView, lastMemory, -⟩ := closed
  obtain ⟨taken, allocated, filled⟩ := new.memory
  rw [memory] at midMemory
  refine ⟨?_, fun free list => pipe_memory allocated filled midMemory lastMemory list⟩
  rw [lastView, midView, view, new.view]
  exact View.restore new.different ⟨new.unused.1, tidy f0 new.unused.1⟩
    ⟨new.unused.2, tidy f1 new.unused.2⟩

end Both

theorem pipefill_spec {f0 f1 : FileId} {start : Machine} (tidy : m.Tidy)
    (unused : m.ref f0 = 0 ∧ m.ref f1 = 0) (different : f0 ≠ f1)
    (view : start.view = (m.view.set f0 1 .none).set f1 1 .none)
    (memory : start.memory = m.memory) : (pipefill devsw layout f0 f1).Ensures start
      (fun result after => match result with
        | none => after.view = m.view ∧ after.memory = m.memory
        | some (f0, f1) => ∃ page, NewPipe m f0 f1 page after) fun _ => True := by
  unfold pipefill
  rw [ensures_bind, ensures_onMemory]
  refine (kalloc_none.and .returned).mono (fun result taken allocated => ?_) fun _ _ => trivial
  obtain ⟨unchanged, allocated⟩ := allocated
  cases result with
  | none =>
    cases unchanged rfl
    refine (closeBoth_fresh tidy unused different view).bind (fun _ after closed => ?_)
      fun _ _ => trivial
    exact ⟨closed.1, closed.2.trans memory⟩
  | some page =>
    rw [memory] at allocated
    rw [ensures_bind, ensures_onMemory]
    refine Ensures.returned.mono (fun _ filled ready => ?_) fun _ _ => trivial
    have view : ({ start with memory := filled } : Machine).view = _ := view
    refine (pipeEnd_spec ?_).bind (fun _ mid first => ?_) fun _ _ => trivial
    · simp [Machine.ref_of_view view, different]
    obtain ⟨midView, midMemory, reads, -⟩ := first
    rw [view] at midView
    refine (pipeEnd_spec ?_).bind (fun _ after second => ?_) fun _ _ => trivial
    · simp [Machine.ref_of_view midView, different.symm]
    obtain ⟨afterView, afterMemory, writes, onFile⟩ := second
    refine ⟨page, unused, different, ?_, ⟨taken, allocated, ?_⟩, ?_, writes⟩
    · rw [afterView, midView, View.set_comm different, View.set_set,
        View.set_comm different.symm, View.set_set, View.set_comm different]
    · rw [ready, afterMemory, midMemory]
    · exact ⟨(congrArg File.ref (onFile.ftable f0 different)).trans reads.last,
        (onFile.pipe f0 different).trans reads.pipe,
        (congrArg File.writable (onFile.ftable f0 different)).trans reads.writable⟩

theorem pipealloc_spec (tidy : m.Tidy) : (pipealloc devsw layout).Ensures m
    (fun result after => match result with
      | none => after.view = m.view ∧ after.memory = m.memory
      | some (f0, f1) => ∃ page, NewPipe m f0 f1 page after) fun _ => True := by
  unfold pipealloc
  refine (filealloc_spec tidy).bind (fun result m1 allocated => ?_) fun _ _ => trivial
  cases result with
  | none =>
    cases (allocated : m1 = m)
    exact ⟨rfl, rfl⟩
  | some f0 =>
    obtain ⟨unused0, view1, memory1, -⟩ := allocated
    have tidy1 : m1.Tidy := tidy.of_set view1 fun isZero => absurd isZero one_ne_zero
    have ref1 : m1.ref f0 = 1 := by simp [Machine.ref_of_view view1]
    have type1 : m1.type f0 = .none := by simp [Machine.type_of_view view1]
    refine (filealloc_spec tidy1).bind (fun result m2 allocated => ?_) fun _ _ => trivial
    cases result with
    | none =>
      cases (allocated : m2 = m1)
      refine (fileclose_fresh ref1 type1).bind (fun _ after closed => ?_) fun _ _ => trivial
      obtain ⟨view, memory, -⟩ := closed
      refine ⟨?_, memory.trans memory1⟩
      rw [view, view1, View.set_set]
      exact View.set_self unused0 (tidy f0 unused0)
    | some f1 =>
      obtain ⟨unused1, view2, memory2, -⟩ := allocated
      have different : f0 ≠ f1 := by
        rintro rfl
        exact absurd (ref1.symm.trans unused1) one_ne_zero
      have unused : m.ref f0 = 0 ∧ m.ref f1 = 0 := by
        rw [Machine.ref_of_view view1, View.ref_set, if_neg different.symm] at unused1
        exact ⟨unused0, unused1⟩
      rw [view1] at view2
      rw [memory1] at memory2
      exact pipefill_spec tidy unused different view2 memory2

/-! ## Failure -/

theorem sysPipe_spec (tidy : m.Tidy) (fd : Bool) : (sysPipe devsw layout fd).Ensures m
    (fun result after => (result = none → Unchanged layout m after) ∧ after.Tidy)
    fun _ => True := by
  unfold sysPipe
  split
  · exact ⟨fun _ => .of_same rfl rfl, tidy⟩
  · refine (pipealloc_spec tidy).bind (fun result start allocated => ?_) fun _ _ => trivial
    cases result with
    | none => exact ⟨fun _ => .of_same allocated.1 allocated.2, tidy.of_view allocated.1⟩
    | some files =>
      obtain ⟨rf, wf⟩ := files
      obtain ⟨page, new⟩ := allocated
      have both : start.Tidy := by
        intro f unused
        rw [Machine.ref_of_view new.view] at unused
        rw [Machine.type_of_view new.view]
        simp only [View.ref_set, View.type_set] at unused ⊢
        split at unused
        · exact absurd unused one_ne_zero
        · split at unused
          · exact absurd unused one_ne_zero
          · rw [if_neg ‹_›, if_neg ‹_›]
            exact tidy f unused
      refine fdalloc_spec.bind (fun result first given => ?_) fun _ _ => trivial
      cases result with
      | none =>
        cases (given : first = start)
        refine (closeBoth_ends tidy new rfl rfl rfl rfl).bind (fun _ after same => ?_)
          fun _ _ => trivial
        exact ⟨fun _ => same, tidy.of_view same.view⟩
      | some fd0 =>
        obtain ⟨unused, firstView, firstMemory, firstPipe, firstTable⟩ := given
        refine fdalloc_spec.bind (fun result second given => ?_) fun _ _ => trivial
        cases result with
        | none =>
          cases (given : second = first)
          refine clearFd_spec.bind (fun _ cleared given => ?_) fun _ _ => trivial
          obtain ⟨view, memory, pipe, ftable⟩ := given
          refine (closeBoth_ends tidy new ?_ (memory.trans firstMemory)
            (pipe.trans firstPipe) (ftable.trans firstTable)).bind (fun _ after same => ?_)
            fun _ _ => trivial
          · rw [view, firstView]
            dsimp only
            rw [update_idem, ← unused]
            exact congrArg (fun ofile => { start.view with ofile := ofile })
              (update_eq_self ..)
          · exact ⟨fun _ => same, tidy.of_view same.view⟩
        | some fd1 =>
          obtain ⟨-, secondView, -⟩ := given
          refine ⟨fun failed => (nomatch failed), both.congr ?_ ?_⟩
          · rw [secondView, firstView]
          · rw [secondView, firstView]

theorem filedup_spec (tidy : m.Tidy) : (filedup f).Ensures m
    (fun _ after => after.Tidy) fun _ => True := by
  unfold filedup
  rw [ensures_bind, ensures_get]
  split
  · trivial
  next used =>
    have onFile := @OnFile.update m f m.memory
        { m.kernel.ftable f with ref := m.ref f + 1 } (m.pipe f)
    rw [update_eq_self] at onFile
    refine tidy.of_set (onFile.view rfl rfl) fun unused => ?_
    simp [Machine.ref] at unused used
    omega

theorem sysDup_spec (tidy : m.Tidy) (fd : Option Int) : (sysDup fd).Ensures m
    (fun result after => (result = none → Unchanged layout m after) ∧ after.Tidy)
    fun _ => True := by
  have argument : (argfd fd).Ensures m (fun _ after => after = m) fun _ => True := by
    cases fd with
    | none => exact rfl
    | some fd =>
      unfold argfd
      rw [ensures_bind, ensures_get]
      split <;> exact rfl
  refine argument.bind (fun result start same => ?_) fun _ _ => trivial
  subst same
  cases result with
  | none => exact ⟨fun _ => .of_same rfl rfl, tidy⟩
  | some f =>
    refine fdalloc_spec.bind (fun result mid given => ?_) fun _ _ => trivial
    cases result with
    | none =>
      cases (given : mid = start)
      exact ⟨fun _ => .of_same rfl rfl, tidy⟩
    | some fd =>
      obtain ⟨-, view, -⟩ := given
      have midTidy : mid.Tidy := tidy.congr (by rw [view]) (by rw [view])
      refine (filedup_spec midTidy).bind (fun _ after tidy => ?_) fun _ _ => trivial
      exact ⟨fun failed => absurd failed (Option.some_ne_none _), tidy⟩

def openFile (ip : Slot) (omode : Nat) : P (Option Nat) := do
  match ← call .filealloc with
  | none => sysOpenBad ip
  | some f =>
    match ← call (.fdalloc f) with
    | none =>
      Sys.fileclose f
      sysOpenBad ip
    | some fd =>
      Sys.iunlock ip
      call .endOp
      call (.install f ip omode)
      return some fd.val

theorem sysOpen_eq (path : List UInt8) (omode : Nat) : Sys.sysOpen path omode = (do
    call .beginOp
    match ← openInode path omode with
    | none =>
      call .endOp
      return none
    | some ip => openFile ip omode) := rfl

/-- The reference to the inode is given up, and nothing else has changed. -/
def GivenUp (m : Machine) (ip : Slot) (after : Machine) : Prop :=
  after.view = { m.view with inodes := m.view.inodes - oneRef ip } ∧ after.memory = m.memory

theorem sysOpenBad_spec {ip : Slot} {start : Machine} (tidy : m.Tidy) (view : start.view = m.view)
    (memory : start.memory = m.memory) : ((sysOpenBad ip).exec (exec devsw layout)).Ensures start
      (fun result after => (result = none → GivenUp m ip after) ∧ after.Tidy) fun _ => True := by
  refine (sysOpenBad_takes start).mono (fun result after touches => ?_) fun _ _ => trivial
  obtain ⟨afterView, afterMemory⟩ := touches.view
  rw [view, ← sub_eq_add_neg] at afterView
  exact ⟨fun _ => ⟨afterView, afterMemory.trans memory⟩,
    tidy.congr (by rw [afterView]) (by rw [afterView])⟩

theorem install_spec {ip : Slot} {omode : Nat} (tidy : m.Tidy) (used : m.ref f ≠ 0) :
    (exec devsw layout (.install f ip omode)).Ensures m (fun _ after => after.Tidy)
      fun _ => True := by
  unfold exec
  simp only [Xv6.install, ensures_bind, ensures_onKernel, ensures_get, ensures_setFile, setPipe,
    ensures_modify]
  refine tidy.of_set (OnFile.update.view rfl rfl) fun unused => absurd ?_ used
  simpa [Machine.ref] using unused

theorem openFile_spec {ip : Slot} {omode : Nat} (tidy : m.Tidy) :
    ((openFile ip omode).exec (exec devsw layout)).Ensures m
      (fun result after => (result = none → GivenUp m ip after) ∧ after.Tidy) fun _ => True := by
  unfold openFile
  rw [call, Prog.op_bind, Prog.ensures_call]
  refine (filealloc_spec tidy).mono (fun result taken allocated => ?_) fun _ _ => trivial
  cases result with
  | none =>
    cases (allocated : taken = m)
    exact sysOpenBad_spec tidy rfl rfl
  | some f =>
    obtain ⟨unused, view, memory, -⟩ := allocated
    dsimp only
    rw [call, Prog.op_bind, Prog.ensures_call]
    refine fdalloc_spec.mono (fun result given assigned => ?_) fun _ _ => trivial
    cases result with
    | none =>
      cases (assigned : given = taken)
      dsimp only
      rw [Prog.exec_bind]
      have ref : taken.ref f = 1 := by simp [Machine.ref_of_view view]
      have type : taken.type f = .none := by simp [Machine.type_of_view view]
      refine (fileclose_fresh ref type).bind (fun _ closed back => ?_) fun _ _ => trivial
      refine sysOpenBad_spec tidy ?_ (back.2.1.trans memory)
      rw [back.1, view, View.set_set]
      exact View.set_self unused (tidy f unused)
    | some fd =>
      obtain ⟨-, givenView, -⟩ := assigned
      have givenTidy : given.Tidy := by
        have takenTidy : taken.Tidy := tidy.of_set view fun isZero => absurd isZero one_ne_zero
        exact takenTidy.congr (by rw [givenView]) (by rw [givenView])
      have givenRef : given.ref f = 1 := by simp [Machine.ref_of_view givenView, view]
      have released : Takes devsw layout (fun _ => 0) (do Sys.iunlock ip; call .endOp) :=
        Prog.graded_after touches_grading iunlock_takes fun _ => endOp_takes
      have assoc : ∀ next : P (Option Nat), (do Sys.iunlock ip; call .endOp; next) =
        ((do Sys.iunlock ip; call .endOp : P Unit) >>= fun _ => next) := fun _ => rfl
      dsimp only
      rw [assoc, Prog.exec_bind]
      refine (released given).bind (fun _ last touches => ?_) fun _ _ => trivial
      obtain ⟨lastView, -⟩ := touches.view
      rw [call, Prog.op_bind, Prog.ensures_call]
      have lastTidy : last.Tidy := givenTidy.congr (by rw [lastView]) (by rw [lastView])
      have lastRef : last.ref f = 1 := (Machine.ref_of_view lastView f).trans givenRef
      exact (install_spec lastTidy (lastRef ▸ one_ne_zero)).mono
        (fun _ after tidy => ⟨fun failed => absurd failed (Option.some_ne_none _), tidy⟩)
        fun _ _ => trivial

/-! ## Steps that leave the files alone -/

def Spares (devsw : Devsw) (layout : Layout) {α : Type} (program : P α) : Prop :=
  ∀ m, (program.exec (exec devsw layout)).Ensures m (fun _ after => after.files = m.files)
    fun _ => True

section Spares

variable {α β : Type} {ip : Slot}

theorem Spares.of_takes {grade : α → Slot → Int} {program : P α}
    (takes : Takes devsw layout grade program) : Spares devsw layout program :=
  fun m => (takes m).mono (fun _ _ touches => touches.1) fun _ _ => trivial

theorem Spares.pure (value : α) : Spares devsw layout (pure value) := fun _ => rfl

theorem Spares.panic (message : Panic) : Spares devsw layout (Sys.panic message : P α) :=
  fun _ => trivial

theorem Spares.bind {first : P β} {rest : β → P α} (spares : Spares devsw layout first)
    (continues : ∀ value, Spares devsw layout (rest value)) :
    Spares devsw layout (first >>= rest) := by
  intro m
  rw [Prog.exec_bind]
  refine (spares m).bind (fun value mid same => ?_) fun _ _ => trivial
  exact (continues value mid).mono (fun _ _ last => last.trans same) fun _ _ => trivial

theorem Spares.op {op : Op} (computation : FsM (Reply op))
    (isFs : exec devsw layout op = onKernel (onFs computation)) :
    Spares devsw layout (call op) := by
  intro m
  rw [call, Prog.ensures_op, isFs, ensures_onKernel, ensures_onFs]
  exact Ensures.always.mono (fun _ _ _ => rfl) fun _ _ => trivial

theorem iupdate_spares (major minor nlink : Nat) :
    Spares devsw layout (call (.iupdate ip major minor nlink)) :=
  .op (setFields ip major minor nlink) rfl

theorem dirlink_spares (name : List UInt8) (inum : Nat) :
    Spares devsw layout (Sys.dirlink ip name inum) := by
  refine .bind (.of_takes (dirlookup_takes name)) fun found => ?_
  cases found with
  | some entry => exact .bind (.of_takes iput_takes) fun _ => .pure _
  | none =>
    refine .bind (.op (Xv6.dirlinkOffset devsw ip) rfl) fun off =>
      .bind (.op (Xv6.writei devsw ip _ off) rfl) fun r => ?_
    split
    · exact .pure _
    · exact .panic _

theorem ialloc_spares (type : Nat) : Spares devsw layout (Sys.ialloc type) := by
  have loop : ∀ inums, Spares devsw layout (Sys.iallocLoop type inums) := by
    intro inums
    induction inums with
    | nil => exact .panic _
    | cons inum rest ih =>
      refine .bind (fun m => ?_) fun taken => ?_
      · rw [call, Prog.ensures_op]
        simp only [exec, Op.exec, claimInode, ensures_onKernel, ensures_bind, ensures_onFs]
        refine Ensures.always.mono (fun taken fs _ => ?_) fun _ _ => trivial
        split <;> rfl
      · cases taken with
        | true =>
          intro m
          rw [if_pos rfl, call, Prog.ensures_op]
          simp only [exec, Op.exec, getClaimed, ensures_onKernel, ensures_bind, ensures_onFs]
          exact Ensures.always.mono (fun _ _ _ => rfl) fun _ _ => trivial
        | false => exact ih
  exact .bind (fun _ => rfl) fun ninodes => loop _

theorem createInode_spares (type major minor : Nat) :
    Spares devsw layout (createInode ip type major minor) := by
  refine .bind (ialloc_spares type) fun new => .bind (.of_takes ilock_takes) fun _ =>
    .bind (.of_takes stat_takes) fun status => .bind (iupdate_spares _ _ _) fun _ => ?_
  split
  · refine .bind (.of_takes stat_takes) fun parent => .bind (iupdate_spares _ _ _) fun _ =>
      .bind (dirlink_spares _ _) fun linked => ?_
    cases linked with
    | false => exact .panic _
    | true =>
      refine .bind (dirlink_spares _ _) fun linked => ?_
      cases linked with
      | false => exact .panic _
      | true => exact .pure _
  · exact .pure _

theorem create_spares (path : List UInt8) (type major minor : Nat) :
    Spares devsw layout (create path type major minor) := by
  refine .bind (.of_takes (namex_takes path true)) fun found => ?_
  cases found with
  | none => exact .pure _
  | some found =>
    obtain ⟨dp, name⟩ := found
    refine .bind (.of_takes ilock_takes)
      fun _ => .bind (.of_takes (dirlookup_takes name)) fun found => ?_
    cases found with
    | some entry =>
      refine .bind (.of_takes iunlockput_takes) fun _ => .bind (.of_takes ilock_takes) fun _ =>
        .bind (.of_takes stat_takes) fun status => ?_
      dsimp only
      split
      · exact .pure _
      · exact .bind (.of_takes iunlockput_takes) fun _ => .pure _
    | none =>
      refine .bind (createInode_spares _ _ _) fun new =>
        .bind (dirlink_spares _ _) fun linked => ?_
      cases linked with
      | false => exact .panic _
      | true => exact .bind (.of_takes iunlockput_takes) fun _ => .pure _

theorem openInode_spares (path : List UInt8) (omode : Nat) :
    Spares devsw layout (openInode path omode) := by
  by_cases plain : omode &&& O_CREATE = 0
  · exact .of_takes (openInode_takes path plain)
  · unfold openInode
    rw [if_pos plain]
    exact create_spares path T_FILE 0 0

end Spares

theorem Machine.Tidy.of_files {after : Machine} (tidy : m.Tidy) (same : after.files = m.files) :
    after.Tidy := by
  simp only [Machine.files, Prod.mk.injEq] at same
  refine tidy.congr ?_ ?_
  · funext f
    simp only [Machine.view, Machine.ref, same.1]
  · funext f
    simp only [Machine.view, Machine.type, same.1, same.2.2.2]

/-! ## Runs -/

theorem sysOpen_spec (tidy : m.Tidy) (path : Option (List UInt8)) (omode : Option Nat) :
    (sysOpen devsw layout path omode).Ensures m
      (fun result after => ((∀ mode ∈ omode, mode &&& O_CREATE = 0) → result = none →
        Unchanged layout m after) ∧ after.Tidy) fun _ => True := by
  unfold sysOpen
  split
  next path mode =>
    rw [sysOpen_eq, Prog.exec_bind]
    refine (beginOp_takes m).bind (fun _ start begun => ?_) fun _ _ => trivial
    obtain ⟨startView, startMemory⟩ := begun.view
    have startTidy := tidy.of_files begun.1
    rw [add_zero] at startView
    have found : ((openInode path mode).exec (exec devsw layout)).Ensures start
        (fun result mid => mid.files = start.files ∧
          (mode &&& O_CREATE = 0 → Touches (held result) start mid)) fun _ => True := by
      by_cases plain : mode &&& O_CREATE = 0
      · exact (openInode_takes path plain start).mono
          (fun _ _ touches => ⟨touches.1, fun _ => touches⟩) fun _ _ => trivial
      · exact (openInode_spares path mode start).mono
          (fun _ _ same => ⟨same, fun isPlain => absurd isPlain plain⟩) fun _ _ => trivial
    rw [Prog.exec_bind]
    refine found.bind (fun result mid opened => ?_) fun _ _ => trivial
    obtain ⟨files, counts⟩ := opened
    have midTidy := startTidy.of_files files
    cases result with
    | none =>
      dsimp only
      rw [Prog.exec_bind]
      refine (endOp_takes mid).bind (fun _ last ended => ?_) fun _ _ => trivial
      refine ⟨fun plain _ => ?_, midTidy.of_files ended.1⟩
      obtain ⟨view, memory⟩ := (touches_grading.trans (counts (plain mode rfl)) ended).view
      refine .of_same ?_ (memory.trans startMemory)
      rw [view, startView, held, add_zero, add_zero]
    | some ip =>
      refine (openFile_spec midTidy).mono (fun result last failed => ?_) fun _ _ => trivial
      refine ⟨fun plain isNone => ?_, failed.2⟩
      obtain ⟨view, memory⟩ := failed.1 isNone
      obtain ⟨midView, midMemory⟩ := (counts (plain mode rfl)).view
      refine .of_same ?_ (memory.trans (midMemory.trans startMemory))
      rw [view, midView, startView, held, add_sub_cancel_right]
  · exact ⟨fun _ _ => .of_same rfl rfl, tidy⟩

theorem filecloseSection_tidy (tidy : m.Tidy) :
    (filecloseSection layout f).Ensures m (fun _ after => after.Tidy) fun _ => True := by
  unfold filecloseSection
  rw [ensures_bind, ensures_get]
  split
  next shut =>
    have kept : ∀ {ref : Int} {type : FileType}, (ref = 0 → type = .none) → Machine.Tidy
        (m.setFile f { m.kernel.ftable f with ref := ref, type := type }) := by
      intro ref type used
      have onFile := @OnFile.update m f m.memory
        { m.kernel.ftable f with ref := ref, type := type } (m.pipe f)
      rw [update_eq_self] at onFile
      refine tidy.of_set (onFile.view rfl rfl) fun unused => Machine.type_eq_none.mpr ⟨shut, ?_⟩
      simp only [Machine.ref, update_self] at unused ⊢
      exact used unused
    simp only [ensures_onKernel, Xv6.filecloseSection, ensures_bind, ensures_get]
    split
    · trivial
    · split
      next more =>
        exact kept fun unused => absurd unused (ne_of_gt more)
      · rw [ensures_bind, ensures_setFile]
        cases (m.kernel.ftable f).type with
        | inode | none => exact kept fun _ => rfl
  · dsimp only
    split
    · trivial
    · split
      next more =>
        have onFile := @OnFile.update m f m.memory
          { m.kernel.ftable f with ref := (m.kernel.ftable f).ref - 1 } (m.pipe f)
        rw [update_eq_self] at onFile
        refine tidy.of_set (onFile.view rfl rfl) fun unused => absurd ?_ (ne_of_gt more)
        simpa [Machine.ref] using unused
      · simp only [setPipe, ensures_bind, ensures_onKernel, ensures_setFile, ensures_modify,
          ensures_onMemory, ensures_pure]
        refine Ensures.always.mono (fun _ memory _ => ?_) fun _ _ => trivial
        refine tidy.of_set (OnFile.update.view rfl rfl) fun _ => Machine.type_eq_none.mpr ?_
        simp

theorem fileclose_tidy (tidy : m.Tidy) :
    (fileclose devsw layout f).Ensures m (fun _ after => after.Tidy) fun _ => True := by
  have release : ∀ ip, Spares devsw layout (do call .beginOp; Sys.iput ip; call .endOp) := fun ip =>
    .bind (.of_takes beginOp_takes)
      fun _ => .bind (.of_takes iput_takes) fun _ => .of_takes endOp_takes
  unfold fileclose Sys.fileclose
  rw [call, Prog.op_bind, Prog.ensures_call]
  refine (filecloseSection_tidy tidy).mono (fun result mid midTidy => ?_) fun _ _ => trivial
  cases result with
  | none => exact midTidy
  | some ip =>
    exact (release ip mid).mono (fun _ _ same => midTidy.of_files same) fun _ _ => trivial

end Files

inductive Act where
  | open (path : Option (List UInt8)) (omode : Option Nat)
  | dup (fd : Option Int)
  | pipe (fd : Bool)
  | filedup (f : FileId)
  /-- `fileclose` in `sys_close` and `exit` -/
  | fileclose (f : FileId)
  /-- any other work on inodes, processes and pages -/
  | other (fs : Fs) (proc : Proc) (memory : Memory)

section Runs

variable (devsw : Devsw) (layout : Layout)

def Act.exec : Act → MachineM Unit
  | .open path omode => do
    let _ ← sysOpen devsw layout path omode
    return ()
  | .dup fd => do
    let _ ← sysDup fd
    return ()
  | .pipe fd => do
    let _ ← sysPipe devsw layout fd
    return ()
  | .filedup f => Descriptors.filedup f
  | .fileclose f => Descriptors.fileclose devsw layout f
  | .other fs proc memory => Exec.modify fun m => { m with
      kernel := { m.kernel with fs := fs, procs := fun _ => proc }
      memory := memory }

def step (m : Machine) (act : Act) : Option Machine :=
  match act.exec devsw layout m with
  | .ok (_, after) => some after
  | .error _ => none

variable {devsw layout} {start m : Machine}

theorem Act.exec_tidy (act : Act) (tidy : m.Tidy) :
    (act.exec devsw layout).Ensures m (fun _ after => after.Tidy) fun _ => True := by
  cases act with
  | «open» path omode =>
    exact (sysOpen_spec tidy path omode).bind (fun _ _ ended => ended.2) fun _ _ => trivial
  | dup fd =>
    exact (@sysDup_spec layout m tidy fd).bind (fun _ _ ended => ended.2) fun _ _ => trivial
  | pipe fd => exact (sysPipe_spec tidy fd).bind (fun _ _ ended => ended.2) fun _ _ => trivial
  | filedup f => exact filedup_spec tidy
  | fileclose f => exact fileclose_tidy tidy
  | other fs proc memory => exact tidy

theorem tidy_of_reachable (blank : ∀ f, start.ref f = 0 ∧ start.type f = .none)
    (reachable : Transition.Reachable (step devsw layout) (fun _ _ => True) start m) : m.Tidy := by
  refine reachable.invariant Machine.Tidy (fun f _ => (blank f).2) ?_
  intro before act after tidy _ stepped
  unfold step at stepped
  have kept := @Act.exec_tidy devsw layout before act tidy
  unfold Exec.Ensures at kept
  split at stepped
  next result =>
    rw [result] at kept
    cases stepped
    exact kept
  · cases stepped

/-- A call that fails has changed nothing. -/
theorem failed_call_unchanged (blank : ∀ f, start.ref f = 0 ∧ start.type f = .none)
    (reachable : Transition.Reachable (step devsw layout) (fun _ _ => True) start m) :
    (∀ fd, (sysDup fd).Ensures m
      (fun result after => result = none → Unchanged layout m after) fun _ => True) ∧
    (∀ fd, (sysPipe devsw layout fd).Ensures m
      (fun result after => result = none → Unchanged layout m after) fun _ => True) ∧
    (∀ path omode, (∀ mode ∈ omode, mode &&& O_CREATE = 0) →
      (sysOpen devsw layout path omode).Ensures m
        (fun result after => result = none → Unchanged layout m after) fun _ => True) := by
  have tidy := tidy_of_reachable blank reachable
  refine ⟨fun fd => ?_, fun fd => ?_, fun path omode plain => ?_⟩
  · exact (sysDup_spec tidy fd).mono (fun _ _ ended => ended.1) fun _ _ => trivial
  · exact (sysPipe_spec tidy fd).mono (fun _ _ ended => ended.1) fun _ _ => trivial
  · exact (sysOpen_spec tidy path omode).mono (fun _ _ ended => ended.1 plain) fun _ _ => trivial

def idle : Machine where
  kernel :=
    { fs := Fs.boot blankDisk
      ftable := fun _ => ⟨.none, 0, false, false, 0, 0⟩
      procs := fun _ => ⟨none, fun _ => none⟩
      sections := []
      claimed := fun _ => none }
  memory := Memory.blank
  pipe := fun _ => none

/-- Two files are taken before the allocator has no page for a pipe. -/
theorem failed_call_unchanged_pipe : (sysPipe noDevices typicalLayout true).Ensures idle
    (fun result after => result = none ∧ Unchanged typicalLayout idle after) fun _ => False := by
  have blank : ∀ f, idle.ref f = 0 ∧ idle.type f = .none := fun _ => ⟨rfl, rfl⟩
  have fails : (sysPipe noDevices typicalLayout true).Ensures idle (fun result _ => result = none)
      fun _ => False := rfl
  exact (fails.and ((failed_call_unchanged blank .initial).2.1 true)).mono
    (fun _ _ ended => ⟨ended.1, ended.2 ended.1⟩) fun _ never => never.1

end Runs

end Xv6.Descriptors
